import ManagedCore.Compile.FlowGraph
import ManagedCore.Proofs.Bytecode.Consecutive

/-!
# Running instructions directly

A machine for the decoded instructions of a body: an operand stack, an array of local slots and an
offset. It covers constants, locals, shuffles of the stack, integer arithmetic, branches, switches,
subroutines and returns. Slots that nothing was stored into hold the int zero, and a value of any
type takes the entry of its own slot. A subroutine call pushes the place of its return site among
all return sites of the body.
-/

namespace ManagedCore.Direct

structure State where
  pc : Nat
  /-- Top first. -/
  stack : List Value
  locals : Array Value
deriving DecidableEq

inductive Result where
  | value (v : Option Value)
  | zeroDivisor
  | fatal
deriving DecidableEq

inductive Step where
  | next (s : State)
  | done (r : Result)
  /-- A local slot is loaded with a type that the value in it does not have. -/
  | mistyped
  /-- The instructions ask for something that is not there. -/
  | malformed
deriving DecidableEq

def covers : Operation → Bool
  | .nop | .constNull | .constInt _ | .constLong _ | .pushByte _ | .pushShort _
  | .load _ _ | .store _ _ | .increment _ _ | .stack _
  | .arith _ .int | .arith _ .long | .neg .int | .neg .long | .bits _ _
  | .convert .i2l | .convert .l2i | .narrow _ | .compare .long
  | .ifZero _ _ | .ifInt _ _ | .ifRef _ _ | .ifNull _ _ | .goto _ | .jsr _ | .ret _
  | .tableSwitch _ _ _ | .lookupSwitch _ _ | .result _ => true
  | _ => false

/-! ## Arithmetic -/

def intArith : ArithOp → Int32 → Int32 → Option Int32
  | .add, a, b => some (a + b)
  | .sub, a, b => some (a - b)
  | .mul, a, b => some (a * b)
  | .div, a, b => if b = 0 then none else some (a / b)
  | .rem, a, b => if b = 0 then none else some (a % b)

def longArith : ArithOp → Int64 → Int64 → Option Int64
  | .add, a, b => some (a + b)
  | .sub, a, b => some (a - b)
  | .mul, a, b => some (a * b)
  | .div, a, b => if b = 0 then none else some (a / b)
  | .rem, a, b => if b = 0 then none else some (a % b)

/-- Shifts take the low five bits of their count. -/
def intBits : BitOp → Int32 → Int32 → Int32
  | .shl, a, b => a <<< b
  | .shr, a, b => a >>> b
  | .ushr, a, b => (a.toUInt32 >>> b.toUInt32).toInt32
  | .and, a, b => a &&& b
  | .or, a, b => a ||| b
  | .xor, a, b => a ^^^ b

/-- Shifts of a long have an int as their count; all other operators have two longs. -/
def longBits : BitOp → Int64 → Value → Option Int64
  | .shl, a, .int b => some (a <<< b.toInt64)
  | .shr, a, .int b => some (a >>> b.toInt64)
  | .ushr, a, .int b => some (a.toUInt64 >>> b.toInt64.toUInt64).toInt64
  | .and, a, .long b => some (a &&& b)
  | .or, a, .long b => some (a ||| b)
  | .xor, a, .long b => some (a ^^^ b)
  | _, _, _ => none

def narrowed : Narrowing → Int32 → Int32
  | .byte, v => v.toInt8.toInt32
  | .char, v => v &&& 0xffff
  | .short, v => v.toInt16.toInt32

def longOrder (a b : Int64) : Int32 := if a < b then -1 else if a = b then 0 else 1

def holds : Condition → Int32 → Int32 → Bool
  | .eq, a, b => a = b
  | .ne, a, b => a ≠ b
  | .lt, a, b => a < b
  | .ge, a, b => b ≤ a
  | .gt, a, b => b < a
  | .le, a, b => a ≤ b

/-! ## Shuffles -/

/-- Moves and copies of the values on top of a stack; `wide` values take two slots. -/
def shuffle {α : Type} (wide : α → Bool) : StackOp → List α → Option (List α)
  | .pop, a :: s => if wide a then none else some s
  | .pop2, a :: s =>
    if wide a then some s
    else
      match s with
      | b :: s => if wide b then none else some s
      | [] => none
  | .dup, a :: s => if wide a then none else some (a :: a :: s)
  | .dupX1, a :: b :: s => if wide a || wide b then none else some (a :: b :: a :: s)
  | .dupX2, a :: b :: s =>
    if wide a then none
    else if wide b then some (a :: b :: a :: s)
    else
      match s with
      | c :: s => if wide c then none else some (a :: b :: c :: a :: s)
      | [] => none
  | .dup2, a :: s =>
    if wide a then some (a :: a :: s)
    else
      match s with
      | b :: s => if wide b then none else some (a :: b :: a :: b :: s)
      | [] => none
  | .dup2X1, a :: b :: s =>
    if wide a then if wide b then none else some (a :: b :: a :: s)
    else if wide b then none
    else
      match s with
      | c :: s => if wide c then none else some (a :: b :: c :: a :: b :: s)
      | [] => none
  | .dup2X2, a :: b :: s =>
    if wide a then
      if wide b then some (a :: b :: a :: s)
      else
        match s with
        | c :: s => if wide c then none else some (a :: b :: c :: a :: s)
        | [] => none
    else if wide b then none
    else
      match s with
      | c :: s =>
        if wide c then some (a :: b :: c :: a :: b :: s)
        else
          match s with
          | d :: s => if wide d then none else some (a :: b :: c :: d :: a :: b :: s)
          | [] => none
      | [] => none
  | .swap, a :: b :: s => if wide a || wide b then none else some (b :: a :: s)
  | _, _ => none

def isWide (v : Value) : Bool := v.type.slots = 2

/-! ## Steps -/

def returnSites (instrs : List Instruction) : List Nat :=
  (instrs.filter fun i => FlowGraph.isSubroutineCall i.op).map (·.next)

def tableTarget (default : Nat) (low : Int32) (targets : List Nat) (key : Int32) : Nat :=
  if low ≤ key then (targets[(key.toInt - low.toInt).toNat]?).getD default else default

def lookupTarget (default : Nat) (pairs : List (Int32 × Nat)) (key : Int32) : Nat :=
  ((pairs.find? (·.1 == key)).map (·.2)).getD default

def State.goTo (s : State) (pc : Nat) (stack : List Value) : Step := .next { s with pc, stack }

def State.push (s : State) (i : Instruction) (v : Value) (stack : List Value) : Step :=
  s.goTo i.next (v :: stack)

def State.setLocal (s : State) (i : Instruction) (slot : Nat) (v : Value) (stack : List Value) :
    Step :=
  if slot < s.locals.size then
    .next { pc := i.next, stack, locals := s.locals.setIfInBounds slot v }
  else .malformed

def execute (instrs : List Instruction) (i : Instruction) (s : State) : Step :=
  match i.op, s.stack with
  | .nop, st => s.goTo i.next st
  | .constNull, st => s.push i .null st
  | .constInt v, st => s.push i (.int (Int32.ofInt (v.val - 1))) st
  | .constLong one, st => s.push i (.long (if one then 1 else 0)) st
  | .pushByte v, st | .pushShort v, st => s.push i (.int v) st
  | .load type slot, st =>
    match s.locals[slot]? with
    | some v => if v.type = type then s.push i v st else .mistyped
    | none => .malformed
  | .store _ slot, v :: st => s.setLocal i slot v st
  | .increment slot delta, st =>
    match s.locals[slot]? with
    | some (.int v) => s.setLocal i slot (.int (v + delta)) st
    | some _ => .mistyped
    | none => .malformed
  | .stack op, st =>
    match shuffle isWide op st with
    | some st => s.goTo i.next st
    | none => .malformed
  | .arith op .int, .int b :: .int a :: st =>
    match intArith op a b with
    | some v => s.push i (.int v) st
    | none => .done .zeroDivisor
  | .arith op .long, .long b :: .long a :: st =>
    match longArith op a b with
    | some v => s.push i (.long v) st
    | none => .done .zeroDivisor
  | .neg .int, .int v :: st => s.push i (.int (-v)) st
  | .neg .long, .long v :: st => s.push i (.long (-v)) st
  | .bits op false, .int b :: .int a :: st => s.push i (.int (intBits op a b)) st
  | .bits op true, b :: .long a :: st =>
    match longBits op a b with
    | some v => s.push i (.long v) st
    | none => .malformed
  | .convert .i2l, .int v :: st => s.push i (.long v.toInt64) st
  | .convert .l2i, .long v :: st => s.push i (.int v.toInt32) st
  | .narrow n, .int v :: st => s.push i (.int (narrowed n v)) st
  | .compare .long, .long b :: .long a :: st => s.push i (.int (longOrder a b)) st
  | .ifZero c target, .int v :: st => s.goTo (if holds c v 0 then target else i.next) st
  | .ifInt c target, .int b :: .int a :: st => s.goTo (if holds c a b then target else i.next) st
  | .ifRef equal target, .ref b :: .ref a :: st =>
    s.goTo (if (a = b) = equal then target else i.next) st
  | .ifNull null target, .ref r :: st => s.goTo (if r.isNone = null then target else i.next) st
  | .goto target, st => s.goTo target st
  | .jsr target, st =>
    match (returnSites instrs).findIdx? (· == i.next) with
    | some n => s.goTo target (.int (Int32.ofNat n) :: st)
    | none => .malformed
  | .ret slot, st =>
    match s.locals[slot]? with
    | some (.int n) =>
      match (returnSites instrs)[n.toUInt32.toNat]? with
      | some site => s.goTo site st
      | none => .done .fatal
    | some _ => .mistyped
    | none => .malformed
  | .tableSwitch default low targets, .int key :: st =>
    s.goTo (tableTarget default low targets key) st
  | .lookupSwitch default pairs, .int key :: st => s.goTo (lookupTarget default pairs key) st
  | .result none, _ => .done (.value none)
  | .result (some _), v :: _ => .done (.value (some v))
  | _, _ => .malformed

def step (instrs : List Instruction) (s : State) : Step :=
  match instrs.find? (·.pc == s.pc) with
  | some i => execute instrs i s
  | none => .malformed

def after (instrs : List Instruction) : Nat → Step → Step
  | n + 1, .next s => after instrs n (step instrs s)
  | _, st => st

/-- There are at most 65535 locals, so no number of a slot in use goes beyond 16 bits. -/
def storeArguments : Nat → List Value → Array Value → Option (Array Value)
  | _, [], locals => some locals
  | slot, v :: vs, locals =>
    if slot < locals.size then
      storeArguments (slot + v.type.slots) vs (locals.setIfInBounds slot v)
    else none

/-- A body without room for its arguments is a fatal error. -/
def start (maxLocals : Nat) (args : List Value) : Step :=
  match storeArguments 0 args (Array.replicate maxLocals (.int 0)) with
  | some locals => .next { pc := 0, stack := [], locals }
  | none => .done .fatal

end ManagedCore.Direct
