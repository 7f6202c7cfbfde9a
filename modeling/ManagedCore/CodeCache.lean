import ManagedCore.Class.Pool

/-!
# Code caches
-/

namespace ManagedCore

/-- Code by method, for at most `capacity` methods. -/
structure CodeCache (α : Type) where
  capacity : Nat
  entries : List (MethodId × α) := []

namespace CodeCache

variable {α : Type}

def get? (c : CodeCache α) (m : MethodId) : Option α := c.entries.lookup m

def contains (c : CodeCache α) (m : MethodId) : Bool := (c.get? m).isSome

/-- The code that the cache holds afterwards: an earlier entry wins, and a full cache keeps
nothing. -/
def insert (c : CodeCache α) (m : MethodId) (code : α) : Option α × CodeCache α :=
  match c.get? m with
  | some old => (some old, c)
  | none =>
    if c.capacity ≤ c.entries.length then (none, c)
    else (some code, { c with entries := c.entries ++ [(m, code)] })

def invalidate (c : CodeCache α) (m : MethodId) : Bool × CodeCache α :=
  (c.contains m, { c with entries := c.entries.filter (·.1 ≠ m) })

def size (c : CodeCache α) : Nat := c.entries.length

end CodeCache

end ManagedCore
