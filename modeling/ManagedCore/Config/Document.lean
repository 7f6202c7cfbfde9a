import ManagedCore.Config
import ManagedCore.Toml.Document

/-!
# Settings from a document

A document gives some settings by name and the others keep their defaults. Names that are no setting
are passed over, also when their items are tables.
-/

namespace ManagedCore

open Toml (Item Entries)

namespace CompileMode

def named? : String → Option CompileMode
  | "jit" => some jit
  | "aot" => some aot
  | _ => none

/-- A mode without contents may be written as a table that has the mode for its only name. -/
def isVoid : Item → Bool
  | .array items => items.isEmpty
  | .table _ entries => entries.isEmpty
  | _ => false

def ofItem? : Item → Option CompileMode
  | .text name => named? name
  | .table _ [(name, contents)] => if isVoid contents then named? name else none
  | _ => none

end CompileMode

namespace Config

def natural? (bits : Nat) : Item → Option Nat
  | .integer n => if 0 ≤ n ∧ n.toNat < Nat.pow 2 bits then some n.toNat else none
  | _ => none

def boolean? : Item → Option Bool
  | .boolean b => some b
  | _ => none

def setting {α : Type} (es : Entries) (name : String) (read : Item → Option α) (absent : α) :
    Option α :=
  match es.lookup name with
  | none => some absent
  | some item => read item

def ofEntries? (es : Entries) : Option Config := do
  let c : Config := {}
  let size := natural? 64
  some
    { compileMode := ← setting es "compile_mode" CompileMode.ofItem? c.compileMode
      maxInlineDepth := ← setting es "max_inline_depth" size c.maxInlineDepth
      maxInlineLength := ← setting es "max_inline_bytecode_len" size c.maxInlineLength
      threadStackSize := ← setting es "thread_stack_size" size c.threadStackSize
      stackGuardSize := ← setting es "stack_guard_size" size c.stackGuardSize
      thinLockMaxRecursion :=
        ← setting es "thin_lock_max_recursion" (natural? 32) c.thinLockMaxRecursion
      rendezvousTimeout :=
        ← setting es "rendezvous_timeout_ms" (fun x => (size x).map some) c.rendezvousTimeout
      codeCacheCapacity := ← setting es "code_cache_max_methods" size c.codeCacheCapacity
      traceUncaught := ← setting es "trace_uncaught" boolean? c.traceUncaught
      nativeBackend := ← setting es "native_backend" boolean? c.nativeBackend
      maxHeapBytes := ← setting es "max_heap_bytes" size c.maxHeapBytes }

def parse (source : String) : Except ConfigError Config :=
  match (Toml.parse source).bind ofEntries? with
  | none => .error .malformed
  | some c => c.validate.map fun _ => c

def load (path : String) (contents : Option String) : Except ConfigError Config :=
  match contents with
  | none => .error (.unreadable path)
  | some source => parse source

end Config

end ManagedCore
