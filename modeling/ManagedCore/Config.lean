/-!
# Settings

Settings of an engine and the limits that they have to respect together.
-/

namespace ManagedCore

/-- Whether compiled code binds to loaded classes directly or resolves everything on first use. -/
inductive CompileMode where
  | jit | aot
deriving DecidableEq, Repr

def CompileMode.name : CompileMode → String
  | jit => "jit"
  | aot => "aot"

structure Config where
  compileMode : CompileMode := .jit
  maxInlineDepth : Nat := 3
  maxInlineLength : Nat := 35
  threadStackSize : Nat := 2097152
  stackGuardSize : Nat := 262144
  thinLockMaxRecursion : Nat := 255
  rendezvousTimeout : Option Nat := none
  codeCacheCapacity : Nat := 4096
  traceUncaught : Bool := true
  nativeBackend : Bool := false
  /-- Zero means that there is no limit. -/
  maxHeapBytes : Nat := 0
deriving DecidableEq, Repr

inductive ConfigError where
  | unreadable (path : String)
  | malformed
  | guardTooLarge (guard stack : Nat)
  | recursionOutOfRange
deriving DecidableEq, Repr

namespace ConfigError

def kind : ConfigError → String
  | unreadable _ => "Io"
  | malformed => "Parse"
  | guardTooLarge _ _ | recursionOutOfRange => "Invalid"

def message : ConfigError → String
  | unreadable path =>
    s!"failed to read config {path}: No such file or directory (os error 2)"
  | malformed => "invalid config"
  | guardTooLarge guard stack =>
    "invalid config value for `stack_guard_size`: " ++
      s!"guard of {guard} bytes leaves no usable stack out of {stack}"
  | recursionOutOfRange =>
    "invalid config value for `thin_lock_max_recursion`: must be within 1..=255"

end ConfigError

namespace Config

def validate (c : Config) : Except ConfigError Unit :=
  if c.threadStackSize ≤ c.stackGuardSize then
    .error (.guardTooLarge c.stackGuardSize c.threadStackSize)
  else if c.thinLockMaxRecursion = 0 ∨ 255 < c.thinLockMaxRecursion then
    .error .recursionOutOfRange
  else .ok ()

/-- Code may be bound to classes that are loaded when it is compiled. -/
def bindsDirectly (c : Config) : Bool := c.compileMode == .jit

end Config

end ManagedCore
