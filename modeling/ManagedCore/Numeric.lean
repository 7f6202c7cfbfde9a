import ManagedCore.Ir.Basic

/-!
# Arithmetic on values

Integers wrap around, shift counts are taken modulo the width, and division goes toward zero.
Conversions of floats to integers saturate and send NaN to zero.
-/

namespace ManagedCore

namespace BinaryOp

/-- Integer operators; a zero divisor is ruled out before. -/
def onInt : BinaryOp → Int32 → Int32 → Int32
  | add, a, b => a + b
  | sub, a, b => a - b
  | mul, a, b => a * b
  | div, a, b => a / b
  | rem, a, b => a % b
  | and, a, b => a &&& b
  | or, a, b => a ||| b
  | xor, a, b => a ^^^ b
  | shl, a, b => a <<< b
  | shr, a, b => a >>> b
  | ushr, a, b => (a.toUInt32 >>> b.toUInt32).toInt32

def onLong : BinaryOp → Int64 → Int64 → Int64
  | add, a, b => a + b
  | sub, a, b => a - b
  | mul, a, b => a * b
  | div, a, b => a / b
  | rem, a, b => a % b
  | and, a, b => a &&& b
  | or, a, b => a ||| b
  | xor, a, b => a ^^^ b
  | shl, a, b => a <<< b
  | shr, a, b => a >>> b
  | ushr, a, b => (a.toUInt64 >>> b.toUInt64).toInt64

def onFloat? : BinaryOp → Single → Single → Option Single
  | add, a, b => some (a + b)
  | sub, a, b => some (a - b)
  | mul, a, b => some (a * b)
  | div, a, b => some (a / b)
  | rem, a, b => some (a % b)
  | _, _, _ => none

def onDouble? : BinaryOp → Double → Double → Option Double
  | add, a, b => some (a + b)
  | sub, a, b => some (a - b)
  | mul, a, b => some (a * b)
  | div, a, b => some (a / b)
  | rem, a, b => some (a % b)
  | _, _, _ => none

def isDivision : BinaryOp → Bool
  | div | rem => true
  | _ => false

end BinaryOp

def Order.of {α : Type} [BEq α] [LT α] (a b : α) [Decidable (a < b)] : Order :=
  if a < b then .less else if a == b then .equal else .greater

/-- Whether a comparison holds for operands in this order; unordered operands only differ. -/
def CmpOp.holds : CmpOp → Option Order → Bool
  | ne, none => true
  | _, none => false
  | eq, some o => o == .equal
  | ne, some o => o != .equal
  | lt, some o | ult, some o => o == .less
  | le, some o => o != .greater
  | gt, some o => o == .greater
  | ge, some o => o != .less

def intOrder (op : CmpOp) (a b : Int32) : Order :=
  if op = .ult then Order.of a.toUInt32 b.toUInt32 else Order.of a b

def longOrder (op : CmpOp) (a b : Int64) : Order :=
  if op = .ult then Order.of a.toUInt64 b.toUInt64 else Order.of a b

def ofBool (b : Bool) : Value := .int (if b then 1 else 0)

namespace Value

inductive BinaryFault where
  | zeroDivisor
  | shiftCount
  | notInteger
  | unmatched
deriving DecidableEq, Repr

def binary (op : BinaryOp) : Value → Value → Except BinaryFault Value
  | int a, int b =>
    if op.isDivision ∧ b = 0 then .error .zeroDivisor else .ok (int (op.onInt a b))
  | long a, int b =>
    if op.isShift then .ok (long (op.onLong a b.toInt64)) else .error .unmatched
  | long a, long b =>
    if op.isDivision ∧ b = 0 then .error .zeroDivisor
    else if op.isShift then .error .shiftCount
    else .ok (long (op.onLong a b))
  | float a, float b =>
    match op.onFloat? a b with
    | some v => .ok (float v)
    | none => .error .notInteger
  | double a, double b =>
    match op.onDouble? a b with
    | some v => .ok (double v)
    | none => .error .notInteger
  | _, _ => .error .unmatched

def neg? : Value → Option Value
  | int v => some (int (-v))
  | long v => some (long (-v))
  | float v => some (float (-v))
  | double v => some (double (-v))
  | ref _ => none

def convert? : Value → ValueType → Option Value
  | int v, .i32 => some (int v)
  | int v, .i64 => some (long v.toInt64)
  | int v, .f32 => some (float (.ofFloat v.toFloat32))
  | int v, .f64 => some (double (.ofFloat v.toFloat))
  | long v, .i32 => some (int v.toInt32)
  | long v, .i64 => some (long v)
  | long v, .f32 => some (float (.ofFloat v.toFloat32))
  | long v, .f64 => some (double (.ofFloat v.toFloat))
  | float v, .i32 => some (int v.toFloat.toInt32)
  | float v, .i64 => some (long v.toFloat.toInt64)
  | float v, .f32 => some (float v)
  | float v, .f64 => some (double v.toDouble)
  | double v, .i32 => some (int v.toFloat.toInt32)
  | double v, .i64 => some (long v.toFloat.toInt64)
  | double v, .f32 => some (float v.toSingle)
  | double v, .f64 => some (double v)
  | ref _, _ | _, .ref => none

/-- Two-way comparison; references compare by identity and only for equality. -/
def cmp? (op : CmpOp) : Value → Value → Option Bool
  | int a, int b => some (op.holds (some (intOrder op a b)))
  | long a, long b => some (op.holds (some (longOrder op a b)))
  | float a, float b => some (op.holds (a.order? b))
  | double a, double b => some (op.holds (a.order? b))
  | ref a, ref b =>
    match op with
    | .eq => some (a == b)
    | .ne => some (a != b)
    | _ => none
  | _, _ => none

def orderResult (nan : Int32) : Option Order → Value
  | some .less => int (-1)
  | some .equal => int 0
  | some .greater => int 1
  | none => int nan

/-- Three-way comparison; `nan` is the answer for unordered floats. -/
def compare? (nan : Int32) : Value → Value → Option Value
  | int a, int b => some (orderResult nan (some (Order.of a b)))
  | long a, long b => some (orderResult nan (some (Order.of a b)))
  | float a, float b => some (orderResult nan (a.order? b))
  | double a, double b => some (orderResult nan (a.order? b))
  | _, _ => none

end Value

end ManagedCore
