/-!
# Method bodies

A body holds its bytes, an exception table in priority order, and a line table sorted by offset.
-/

namespace ManagedCore

/-- One row of an exception table; no catch type means that everything is caught. -/
structure HandlerRow where
  start : Nat
  stop : Nat
  handler : Nat
  catchType : Option Nat
deriving DecidableEq, Repr

def HandlerRow.covers (row : HandlerRow) (pc : Nat) : Bool := row.start ≤ pc && pc < row.stop

structure Code where
  bytes : List UInt8
  maxLocals : Nat
  maxStack : Nat
  handlers : List HandlerRow := []
  lines : List (Nat × Nat) := []
deriving DecidableEq, Repr

namespace Code

def withHandler (c : Code) (row : HandlerRow) : Code := { c with handlers := c.handlers ++ [row] }

def lineBefore (a b : Nat × Nat) : Bool := a.1 < b.1 || (a.1 == b.1 && a.2 ≤ b.2)

def withLines (c : Code) (lines : List (Nat × Nat)) : Code :=
  { c with lines := lines.mergeSort lineBefore }

def lineAt (c : Code) (pc : Nat) : Option Nat :=
  ((c.lines.takeWhile (·.1 ≤ pc)).getLast?).map (·.2)

end Code

end ManagedCore
