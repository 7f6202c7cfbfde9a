import ManagedCore.Class.Pool

/-!
# Handles

Compiled code names classes, fields and methods through handles. A handle is bound when the code is
compiled, or it keeps the symbol and is resolved when it is first used.
-/

namespace ManagedCore

inductive Symbol where
  | class (name : String)
  | arrayOf (component : String)
  | field (m : MemberRef)
  | static (m : MemberRef)
  | method (m : MemberRef)
deriving DecidableEq, Repr

def Symbol.text : Symbol → String
  | .class name => name
  | arrayOf component => "[" ++ component
  | field m | static m | method m => m.text

structure ClassRef where
  id : ClassId
  name : String
deriving DecidableEq, Repr

structure MethodRef where
  id : MethodId
  text : String
deriving DecidableEq, Repr

structure FieldSlot where
  owner : String
  name : String
  slot : Nat
  type : ValueType
deriving DecidableEq, Repr

structure StaticSlot where
  owner : ClassRef
  slot : Nat
deriving DecidableEq, Repr

/-- What the listing of compiled code shows for a bound handle. -/
class Described (α : Type) where
  describe : α → String

instance : Described ClassRef := ⟨ClassRef.name⟩

instance : Described MethodRef := ⟨MethodRef.text⟩

instance : Described FieldSlot :=
  ⟨fun f => f.owner ++ "." ++ f.name ++ "@" ++ toString f.slot⟩

instance : Described StaticSlot := ⟨fun s => s.owner.name ++ "#" ++ toString s.slot⟩

inductive Handle (α : Type) where
  | resolved (a : α)
  | lazy (index : Nat) (symbol : Symbol)
deriving DecidableEq, Repr

namespace Handle

variable {α : Type}

def isResolved : Handle α → Bool
  | resolved _ => true
  | lazy _ _ => false

def symbol? : Handle α → Option Symbol
  | resolved _ => none
  | lazy _ s => some s

/-- The text of a lazy handle stays that of its symbol after it has been resolved. -/
def text [Described α] : Handle α → String
  | resolved a => Described.describe a
  | lazy i s => "lazy(#" ++ toString i ++ " " ++ s.text ++ ")"

end Handle

/-- A handle together with what its first successful resolution gave. -/
structure HandleCell (α : Type) where
  handle : Handle α
  cached : Option α := none

namespace HandleCell

variable {α ε : Type}

def get? (c : HandleCell α) : Option α :=
  match c.handle with
  | .resolved a => some a
  | .lazy _ _ => c.cached

/-- Resolves once; a failure is not remembered, so that the next use tries again. -/
def getOrResolve (c : HandleCell α) (resolve : Symbol → Except ε α) :
    Except ε α × HandleCell α :=
  match c.get?, c.handle with
  | some a, _ => (.ok a, c)
  | none, .resolved a => (.ok a, c)
  | none, .lazy _ s =>
    match resolve s with
    | .ok a => (.ok a, { c with cached := some a })
    | .error e => (.error e, c)

end HandleCell

end ManagedCore
