/-!
# Stack traces
-/

namespace ManagedCore

structure TraceElement where
  owner : String
  method : String
  pc : Option Nat := none
  line : Option Nat := none
  native : Bool := false
deriving DecidableEq, Repr

/-- Class names are written with dots outside the engine. -/
def dotted (name : String) : String := name.map fun c => if c = '/' then '.' else c

namespace TraceElement

/-- The most that is known about the place: a native method, a line, or an offset. -/
def place (e : TraceElement) : String :=
  match e.native, e.line, e.pc with
  | true, _, _ => "(Native Method)"
  | false, some line, _ => s!"(line {line})"
  | false, none, some pc => s!"(pc {pc})"
  | false, none, none => "(Unknown Source)"

def text (e : TraceElement) : String := "at " ++ dotted e.owner ++ "." ++ e.method ++ e.place

def summary (e : TraceElement) : String :=
  let shown (n : Option Nat) : String := (n.map toString).getD "-"
  e.text ++ "|" ++ shown e.pc ++ "|" ++ shown e.line

end TraceElement

end ManagedCore
