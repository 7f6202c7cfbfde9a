import ManagedCore.Value

/-!
# Constant pools

Symbolic constants that a class refers to by index. An entry is read as what the reader expects;
the wrong kind and an index past the end are errors. Entries also remember whether a call through
them was bound to one method at compile time.
-/

namespace ManagedCore

/-- Number of a loaded class; numbers start at one. -/
abbrev ClassId := Nat

abbrev MethodId := Nat

structure MemberRef where
  owner : String
  name : String
  descriptor : String
deriving DecidableEq, Repr

def MemberRef.text (m : MemberRef) : String := m.owner ++ "." ++ m.name ++ ":" ++ m.descriptor

inductive PoolEntry where
  | int (v : Int32)
  | long (v : Int64)
  | float (v : Single)
  | double (v : Double)
  | string (s : String)
  | class (name : String)
  | field (m : MemberRef)
  | method (m : MemberRef)
  | interfaceMethod (m : MemberRef)
deriving DecidableEq

inductive PoolError where
  | badIndex (index : Nat)
  | wrongKind (index : Nat) (expected : String)
deriving DecidableEq, Repr

def PoolError.kind : PoolError → String
  | badIndex _ => "BadIndex"
  | wrongKind _ _ => "WrongKind"

def PoolError.message : PoolError → String
  | badIndex i => s!"constant pool index {i} out of range"
  | wrongKind i expected => s!"constant pool entry {i} is not a {expected}"

/-- Constants that an instruction can push. -/
inductive PoolConstant where
  | value (v : Value)
  | string (s : String)
  | class (name : String)
deriving DecidableEq

structure Pool where
  entries : Array PoolEntry
  bound : List Nat := []

namespace Pool

def entry (p : Pool) (i : Nat) : Except PoolError PoolEntry :=
  match p.entries[i]? with
  | some e => .ok e
  | none => .error (.badIndex i)

def method (p : Pool) (i : Nat) : Except PoolError MemberRef := do
  match ← p.entry i with
  | .method m | .interfaceMethod m => return m
  | _ => throw (.wrongKind i "method reference")

def field (p : Pool) (i : Nat) : Except PoolError MemberRef := do
  match ← p.entry i with
  | .field m => return m
  | _ => throw (.wrongKind i "field reference")

def className (p : Pool) (i : Nat) : Except PoolError String := do
  match ← p.entry i with
  | .class name => return name
  | _ => throw (.wrongKind i "class reference")

def constant (p : Pool) (i : Nat) : Except PoolError PoolConstant := do
  match ← p.entry i with
  | .int v => return .value (.int v)
  | .long v => return .value (.long v)
  | .float v => return .value (.float v)
  | .double v => return .value (.double v)
  | .string s => return .string s
  | .class name => return .class name
  | _ => throw (.wrongKind i "loadable constant")

def isBound (p : Pool) (i : Nat) : Bool := p.bound.contains i

def markBound (p : Pool) (i : Nat) : Pool :=
  if i < p.entries.size ∧ !p.isBound i then { p with bound := i :: p.bound } else p

end Pool

end ManagedCore
