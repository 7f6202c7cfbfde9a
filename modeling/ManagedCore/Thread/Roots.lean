import ManagedCore.Value

/-!
# Roots of a thread
-/

namespace ManagedCore

/-- References that a stopped thread still needs: those of its stack, published as a whole, and
those pinned in stack order across calls. -/
structure RootSet where
  stack : List ObjId := []
  pinned : Array ObjId := #[]
deriving DecidableEq, Repr

namespace RootSet

def publish (r : RootSet) (roots : List ObjId) : RootSet := { r with stack := roots }

/-- Pins more references; `pinned.size` beforehand is the mark to return to. -/
def pin (r : RootSet) (roots : List ObjId) : RootSet :=
  { r with pinned := r.pinned ++ roots.toArray }

def unpinTo (r : RootSet) (mark : Nat) : RootSet := { r with pinned := r.pinned.shrink mark }

def all (r : RootSet) : List ObjId := r.stack ++ r.pinned.toList

def size (r : RootSet) : Nat := r.stack.length + r.pinned.size

end RootSet

end ManagedCore
