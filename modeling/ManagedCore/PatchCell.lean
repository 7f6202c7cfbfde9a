/-!
# Patchable cells

A cell publishes one target at a time and keeps everything it ever published, so a target that was
read stays usable after the cell has moved on.
-/

namespace ManagedCore

structure PatchCell (α : Type) where
  current : α
  earlier : List α := []
deriving DecidableEq, Repr

namespace PatchCell

variable {α : Type}

def store (c : PatchCell α) (a : α) : PatchCell α := ⟨a, c.current :: c.earlier⟩

def replace [DecidableEq α] (c : PatchCell α) (expected a : α) : PatchCell α :=
  if c.current = expected then c.store a else c

def generations (c : PatchCell α) : Nat := c.earlier.length + 1

@[simp] theorem current_store (c : PatchCell α) (a : α) : (c.store a).current = a := rfl

@[simp] theorem generations_store (c : PatchCell α) (a : α) :
    (c.store a).generations = c.generations + 1 := rfl

end PatchCell

end ManagedCore
