import ManagedCore.FloatBits

/-!
# Values and their types

A value lives in a register, a local slot, a field or an array element. References are object
numbers; a null reference is `ref none`.
-/

namespace ManagedCore

inductive ValueType where
  | i32 | i64 | f32 | f64 | ref
deriving DecidableEq, Repr

namespace ValueType

def name : ValueType → String
  | i32 => "i32"
  | i64 => "i64"
  | f32 => "f32"
  | f64 => "f64"
  | ref => "ref"

def slots : ValueType → Nat
  | i64 | f64 => 2
  | _ => 1

def isInteger : ValueType → Bool
  | i32 | i64 => true
  | _ => false

def isFloat : ValueType → Bool
  | f32 | f64 => true
  | _ => false

end ValueType

abbrev ObjId := Nat

inductive Value where
  | int (v : Int32)
  | long (v : Int64)
  | float (v : Single)
  | double (v : Double)
  | ref (r : Option ObjId)
deriving DecidableEq

instance : Inhabited Value := ⟨.int 0⟩

namespace Value

def null : Value := .ref none

def obj (o : ObjId) : Value := .ref (some o)

def zero : ValueType → Value
  | .i32 => .int 0
  | .i64 => .long 0
  | .f32 => .float ⟨0⟩
  | .f64 => .double ⟨0⟩
  | .ref => null

def type : Value → ValueType
  | int _ => .i32
  | long _ => .i64
  | float _ => .f32
  | double _ => .f64
  | ref _ => .ref

def int? : Value → Option Int32
  | int v => some v
  | _ => none

def long? : Value → Option Int64
  | long v => some v
  | _ => none

def float? : Value → Option Single
  | float v => some v
  | _ => none

def double? : Value → Option Double
  | double v => some v
  | _ => none

def obj? : Value → Option ObjId
  | ref r => r
  | _ => none

def isNull : Value → Bool
  | ref none => true
  | _ => false

def isRef : Value → Bool
  | ref _ => true
  | _ => false

/-- Equality as running code sees it: floats compare by number, references by identity. -/
def same : Value → Value → Bool
  | int a, int b => a == b
  | long a, long b => a == b
  | float a, float b => a.order? b == some .equal
  | double a, double b => a.order? b == some .equal
  | ref a, ref b => a == b
  | _, _ => false

/-- Diagnostic text; `describe` writes a non-null reference. -/
def render (describe : ObjId → String) : Value → String
  | int v => toString v.toInt ++ "i"
  | long v => toString v.toInt ++ "L"
  | float v => Decimal.plain v.parts ++ "f"
  | double v => Decimal.plain v.parts ++ "d"
  | ref none => "null"
  | ref (some o) => describe o

@[simp] theorem type_zero (t : ValueType) : (zero t).type = t := by cases t <;> rfl

end Value

end ManagedCore
