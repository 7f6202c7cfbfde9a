import ManagedCore.Numeric
import ManagedCore.Ir.Printer

/-!
# Lowered functions

Numeric functions can be lowered to code that works on typed variables and raw 64-bit cells. Each
register is a variable of its type, and so is each pair of a local slot and a type; all start as
zero. Lowering refuses a function at the first thing it cannot express, in the order of the code.
-/

namespace ManagedCore

inductive LoweringError where
  | referenceValue
  | outsideSubset
  | floatOperator
  | raiseOperands
  | propagation
  | untyped (r : Reg)
  | unknownBlock (b : BlockId)
deriving DecidableEq, Repr

namespace LoweringError

def isUnsupported : LoweringError → Bool
  | untyped _ | unknownBlock _ => false
  | _ => true

def message : LoweringError → String
  | referenceValue => "unsupported instruction: reference value"
  | outsideSubset => "unsupported instruction: instruction outside the numeric subset"
  | floatOperator =>
    "unsupported instruction: floating-point remainder or bitwise operator"
  | raiseOperands => "unsupported instruction: raise with operands"
  | propagation => "unsupported instruction: exception propagation"
  | untyped r => "backend error: untyped register " ++ Reg.text r
  | unknownBlock b => "backend error: unknown block " ++ BlockId.text b

end LoweringError

/-- A fault that lowered code can report, by its position among the sites. -/
structure RaiseSite where
  fault : Fault
  detail : Option String
deriving DecidableEq, Repr

namespace Lowering

abbrev Check := Except LoweringError Unit

def typed (f : Function) (r : Reg) : Except LoweringError ValueType :=
  match f.regType? r with
  | some t => .ok t
  | none => .error (.untyped r)

def numeric : ValueType → Check
  | .ref => .error .referenceValue
  | _ => .ok ()

def numericReg (f : Function) (r : Reg) : Check := do
  numeric (← typed f r)

def block (f : Function) (b : BlockId) : Check :=
  if b < f.blocks.size then .ok () else .error (.unknownBlock b)

def floatOperator : BinaryOp → Check
  | .add | .sub | .mul | .div => .ok ()
  | _ => .error .floatOperator

def instr (f : Function) : Instr → Check
  | .constInt d _ | .constLong d _ | .constFloat d _ | .constDouble d _ | .stackCheck d =>
    numericReg f d
  | .move d s | .narrow _ d s => do
    numericReg f s
    numericReg f d
  | .loadLocal d _ => numericReg f d
  | .storeLocal _ s => numericReg f s
  | .binary op d l r => do
    let t ← typed f d
    numericReg f l
    numericReg f r
    if t.isFloat then
      floatOperator op
    numericReg f d
  | .neg d s => do
    let _ ← typed f d
    numericReg f s
    numericReg f d
  | .convert d s => do
    let _ ← typed f s
    let _ ← typed f d
    numericReg f s
    numericReg f d
  | .cmp _ d l r | .compare d l r _ => do
    numericReg f l
    numericReg f r
    numericReg f d
  | .safepoint => .ok ()
  | _ => .error .outsideSubset

def edge (f : Function) (c : BlockCall) : Check := block f c.block

def edgeCopies (f : Function) (c : BlockCall) : Check := do
  c.args.forM (numericReg f)
  match f.block? c.block with
  | some b => (b.params.zip c.args).forM fun p => numericReg f p.1
  | none => .ok ()

def terminator (f : Function) (t : Terminator) : Check := do
  match t with
  | .jump _ | .unreachable => pure ()
  | .branch c _ _ => numericReg f c
  | .switch v _ _ => numericReg f v
  | .result v => v.toList.forM (numericReg f)
  | .raise _ args _ => if args.isEmpty then pure () else throw .raiseOperands
  | .throw _ | .resume _ => throw .propagation
  t.successors.forM (edge f)
  t.successors.forM (edgeCopies f)

def body (f : Function) (b : Block) : Check := do
  b.instrs.toList.forM fun p => instr f p.instr
  terminator f b.terminator

def function (f : Function) : Check := do
  ((f.block? f.entry).map Block.params |>.getD []).forM (numericReg f)
  f.blocks.toList.forM (body f)

end Lowering

def Terminator.raiseSite? : Terminator → Option RaiseSite
  | raise fault _ detail => some ⟨fault, detail⟩
  | _ => none

/-- A function that lowering accepted. -/
structure Lowered where
  function : Function
deriving DecidableEq

def Function.lower (f : Function) : Except LoweringError Lowered := do
  Lowering.function f
  return ⟨f⟩

namespace Lowered

def backend : String × Nat := ("cranelift", 8)

def sites (l : Lowered) : List RaiseSite :=
  l.function.blocks.toList.filterMap (·.terminator.raiseSite?)

def siteNumber (l : Lowered) (b : BlockId) : Nat :=
  ((l.function.blocks.toList.take (b + 1)).filterMap (·.terminator.raiseSite?)).length

def cellOf? : Value → Option UInt64
  | .int v => some v.toUInt32.toUInt64
  | .long v => some v.toUInt64
  | .float v => some v.bits.toUInt64
  | .double v => some v.bits
  | .ref _ => none

/-- Reads as many low bits of a cell as the type has. -/
def ofCell (t : ValueType) (cell : UInt64) : Value :=
  match t with
  | .i32 => .int cell.toUInt32.toInt32
  | .i64 => .long cell.toInt64
  | .f32 => .float ⟨cell.toUInt32⟩
  | .f64 => .double ⟨cell⟩
  | .ref => .null

structure State where
  block : BlockId
  index : Nat
  regs : Array Value
  locals : List ((Nat × ValueType) × Value)

namespace State

def get (s : State) (r : Reg) : Value := s.regs.getD r default

def set (s : State) (r : Reg) (v : Value) : State :=
  { s with regs := s.regs.setIfInBounds r v }

def loadLocal (s : State) (slot : Nat) (t : ValueType) : Value :=
  (s.locals.lookup (slot, t)).getD (.zero t)

def storeLocal (s : State) (slot : Nat) (v : Value) : State :=
  { s with locals := ((slot, v.type), v) :: s.locals.filter fun e => e.1 ≠ (slot, v.type) }

/-- All arguments are read before any parameter is written. -/
def assign (s : State) (params : List Reg) (vs : List Value) : State :=
  (params.zip vs).foldl (fun s p => s.set p.1 p.2) s

end State

def start (l : Lowered) (cells : List UInt64) : State :=
  let f := l.function
  let params := ((f.block? f.entry).map Block.params).getD []
  let typeOf (r : Reg) := (f.regType? r).getD .i32
  let s : State := ⟨f.entry, 0, f.regTypes.map Value.zero, []⟩
  s.assign params ((params.zip cells).map fun p => ofCell (typeOf p.1) p.2)

inductive Step where
  | next (s : State)
  | polled (s : State)
  | result (cell : UInt64)
  | raised (site : Nat)
  | trapped

/-- Shift counts may have either width; the low bits count. -/
def shiftCount : Value → Int64
  | .int v => v.toInt64
  | .long v => v
  | _ => 0

def binary? (op : BinaryOp) (a b : Value) : Option Value :=
  if op.isShift then
    match a with
    | .int v => some (.int (op.onInt v (shiftCount b).toInt32))
    | .long v => some (.long (op.onLong v (shiftCount b)))
    | _ => none
  else (a.binary op b).toOption

/-- Sub-word kinds keep low bits of either width as an int, a boolean keeps the width too; other
kinds copy. -/
def narrow (k : ElementKind) : Value → Value
  | .long v =>
    match k with
    | .byte | .short | .char => .int (k.narrowInt v.toInt32)
    | .boolean => .long (v &&& 1)
    | _ => .long v
  | v => k.narrow v

def isZero (v : Value) : Bool := v = .int 0 || v = .long 0

def hasKey (key : Int32) : Value → Bool
  | .int v => v == key
  | .long v => v.toUInt64 == key.toUInt32.toUInt64
  | _ => false

def instr (l : Lowered) (stackOk : Bool) (s : State) : Instr → Option State
  | .constInt d v => some (s.set d (.int v))
  | .constLong d v => some (s.set d (.long v))
  | .constFloat d v => some (s.set d (.float v))
  | .constDouble d v => some (s.set d (.double v))
  | .move d r => some (s.set d (s.get r))
  | .loadLocal d slot =>
    some (s.set d (s.loadLocal slot ((l.function.regType? d).getD .i32)))
  | .storeLocal slot r => some (s.storeLocal slot (s.get r))
  | .binary op d a b => (binary? op (s.get a) (s.get b)).map (s.set d)
  | .neg d r => (s.get r).neg?.map (s.set d)
  | .convert d r =>
    ((s.get r).convert? ((l.function.regType? d).getD .i32)).map (s.set d)
  | .narrow k d r => some (s.set d (narrow k (s.get r)))
  | .cmp op d a b => ((s.get a).cmp? op (s.get b)).map fun h => s.set d (ofBool h)
  | .compare d a b nan => ((s.get a).compare? nan (s.get b)).map (s.set d)
  | .stackCheck d => some (s.set d (ofBool stackOk))
  | .safepoint => some s
  | _ => none

def enter (l : Lowered) (s : State) (c : BlockCall) : Step :=
  let params := ((l.function.block? c.block).map Block.params).getD []
  .next { s.assign params (c.args.map s.get) with block := c.block, index := 0 }

def terminate (l : Lowered) (s : State) : Terminator → Step
  | .jump c => l.enter s c
  | .branch r t e => l.enter s (if isZero (s.get r) then e else t)
  | .switch r cases d =>
    l.enter s (((cases.find? fun c => hasKey c.1 (s.get r)).map (·.2)).getD d)
  | .result r => .result ((r.bind fun r => cellOf? (s.get r)).getD 0)
  | .raise _ _ _ => .raised (l.siteNumber s.block)
  | .throw _ | .resume _ | .unreachable => .trapped

def step (l : Lowered) (stackOk : Bool) (s : State) : Step :=
  match l.function.block? s.block with
  | none => .trapped
  | some b =>
    match b.instrs[s.index]? with
    | none => l.terminate s b.terminator
    | some p =>
      match p.instr, l.instr stackOk { s with index := s.index + 1 } p.instr with
      | _, none => .trapped
      | .safepoint, some s' => .polled s'
      | _, some s' => .next s'

inductive Outcome where
  | result (cell : UInt64)
  | raised (site : Nat)
  | trapped
  | polled (s : State)
  | outOfFuel
deriving Inhabited

/-- Runs to the end, or to the next poll when `stopAtPoll` is set. -/
def run (l : Lowered) (stackOk stopAtPoll : Bool) : Nat → State → Outcome
  | 0, _ => .outOfFuel
  | fuel + 1, s =>
    match l.step stackOk s with
    | .next s' => l.run stackOk stopAtPoll fuel s'
    | .polled s' => if stopAtPoll then .polled s' else l.run stackOk stopAtPoll fuel s'
    | .result c => .result c
    | .raised n => .raised n
    | .trapped => .trapped

end Lowered

end ManagedCore
