import ManagedCore.Compile.Emitter

/-!
# Code for single instructions

Each function takes the symbolic stack before an instruction, adds the code for it, and gives the
stack after it. Whatever can go wrong when the code runs becomes a guard in front of the
instruction that would otherwise be undefined.
-/

namespace ManagedCore.Emit

/-! ## Constants and locals -/

def push (t : ValueType) (make : Reg → Instr) (s : SymStack) : Emit SymStack :=
  return (← value t make, t) :: s

def pushInt (v : Int32) (s : SymStack) : Emit SymStack := push .i32 (.constInt · v) s

/-- Narrow forms load values of one slot and the wide form those of two. -/
def loadConst (body : Body) (pc : Nat) (op : Operation) (wide : Bool) (index : Nat)
    (s : SymStack) : Emit SymStack := do
  match ← poolEntry body pc (·.constant index), wide with
  | .value (.int v), false => pushInt v s
  | .value (.float v), false => push .f32 (.constFloat · v) s
  | .value (.long v), true => push .i64 (.constLong · v) s
  | .value (.double v), true => push .f64 (.constDouble · v) s
  | .string text, false =>
    let r ← value .ref (.constString · text)
    markNonNull r
    return (r, .ref) :: s
  | .class _, false => throw (.unsupported pc op.opcode "class literals are not loadable")
  | _, _ => throw (.badConstant pc index)

def load (body : Body) (pc : Nat) (t : ValueType) (slot : Nat) (s : SymStack) :
    Emit SymStack := do
  let slot ← localSlot body slot t pc
  push t (.loadLocal · slot) s

/-- A reference store also takes the return tag of a subroutine. -/
def store (body : Body) (pc : Nat) (t : ValueType) (slot : Nat) (s : SymStack) :
    Emit SymStack := do
  let (r, found, s) ← pop pc s
  if found ≠ t ∧ ¬ (t = .ref ∧ found = .i32) then
    throw (.typeMismatch pc t found)
  let slot ← localSlot body slot found pc
  instr (.storeLocal slot r)
  return s

def increment (body : Body) (pc slot : Nat) (delta : Int32) : Emit Unit := do
  let slot ← localSlot body slot .i32 pc
  let v ← value .i32 (.loadLocal · slot)
  let d ← constInt delta
  let sum ← value .i32 (.binary .add · v d)
  instr (.storeLocal slot sum)

/-! ## Arithmetic -/

def ofArith : ArithOp → BinaryOp
  | .add => .add
  | .sub => .sub
  | .mul => .mul
  | .div => .div
  | .rem => .rem

def ofBits : BitOp → BinaryOp
  | .shl => .shl
  | .shr => .shr
  | .ushr => .ushr
  | .and => .and
  | .or => .or
  | .xor => .xor

def divisorCheck (op : BinaryOp) (t : ValueType) (divisor : Reg) : Emit Unit := do
  if (op = .div ∨ op = .rem) ∧ t.isInteger then
    let z ← if t = .i64 then value .i64 (.constLong · 0) else constInt 0
    let isZero ← cmp .eq divisor z
    raiseIf isZero .arithmetic [] (some "/ by zero")

def binary (pc : Nat) (op : BinaryOp) (t : ValueType) (s : SymStack) : Emit SymStack := do
  let (right, s) ← popTyped pc (if op.isShift then .i32 else t) s
  let (left, s) ← popTyped pc t s
  divisorCheck op t right
  push t (.binary op · left right) s

def unary (pc : Nat) (source target : ValueType) (make : Reg → Reg → Instr) (s : SymStack) :
    Emit SymStack := do
  let (src, s) ← popTyped pc source s
  push target (make · src) s

def compareType : Comparison → ValueType
  | .long => .i64
  | .float _ => .f32
  | .double _ => .f64

def nanResult : Comparison → Int32
  | .long => 0
  | .float high | .double high => if high then 1 else -1

def compare (pc : Nat) (c : Comparison) (s : SymStack) : Emit SymStack := do
  let (right, s) ← popTyped pc (compareType c) s
  let (left, s) ← popTyped pc (compareType c) s
  push .i32 (.compare · left right (nanResult c)) s

/-! ## Arrays -/

def elementType : ArrayForm → ValueType
  | .long => .i64
  | .float => .f32
  | .double => .f64
  | .ref => .ref
  | _ => .i32

def boundsCheck (array index : Reg) : Emit Unit := do
  nullCheck array
  let length ← value .i32 (.arrayLength · array)
  let inside ← cmp .ult index length
  raiseUnless inside .arrayIndexOutOfBounds [index, length] none

def arrayLoad (pc : Nat) (form : ArrayForm) (s : SymStack) : Emit SymStack := do
  let (index, s) ← popTyped pc .i32 s
  let (array, s) ← popTyped pc .ref s
  boundsCheck array index
  push (elementType form) (.arrayLoad · array index) s

def arrayStore (pc : Nat) (form : ArrayForm) (s : SymStack) : Emit SymStack := do
  let (v, s) ← popTyped pc (elementType form) s
  let (index, s) ← popTyped pc .i32 s
  let (array, s) ← popTyped pc .ref s
  boundsCheck array index
  if form = .ref then
    let ok ← value .i32 (.storeCheck · array v)
    raiseUnless ok .arrayStore [v, array] none
  instr (.arrayStore array index v)
  return s

def arrayLength (pc : Nat) (s : SymStack) : Emit SymStack := do
  let (array, s) ← popTyped pc .ref s
  nullCheck array
  push .i32 (.arrayLength · array) s

def lengthCheck (length : Reg) : Emit Unit := do
  let z ← constInt 0
  let negative ← cmp .lt length z
  raiseIf negative .negativeArraySize [length] none

def newArray (pc : Nat) (dest : Reg) (cls : Handle ClassRef) (s : SymStack) :
    Emit SymStack := do
  let (length, s) ← popTyped pc .i32 s
  lengthCheck length
  instr (.newArray dest cls length)
  markNonNull dest
  return (dest, .ref) :: s

def newPrimitiveArray (pc : Nat) (op : Operation) (typeCode : Nat) (s : SymStack) :
    Emit SymStack := do
  let dest ← newReg .ref
  match ElementKind.ofTypeCode? typeCode with
  | none => throw (.unsupported pc op.opcode "unknown array type code")
  | some kind =>
    match FieldType.ofElementKind? kind with
    | none => throw (.unsupported pc op.opcode "reference element in newarray")
    | some component => newArray pc dest (← primitiveArrayHandle component) s

def newRefArray (body : Body) (pc index : Nat) (s : SymStack) : Emit SymStack := do
  let dest ← newReg .ref
  newArray pc dest (← arrayOfHandle body index pc) s

def newMultiArray (body : Body) (pc index dims : Nat) (s : SymStack) : Emit SymStack := do
  let dest ← newReg .ref
  let cls ← classHandle body index pc
  let (lengths, s) ← popAll pc (List.replicate dims .i32) s
  lengths.forM lengthCheck
  instr (.newMultiArray dest cls lengths)
  markNonNull dest
  return (dest, .ref) :: s

/-! ## Fields -/

def fieldRef (body : Body) (pc index : Nat) : Emit (MemberRef × ValueType) := do
  let member ← poolEntry body pc (·.field index)
  let type ← liftExcept ((FieldType.parse member.descriptor).mapError .descriptor)
  return (member, type.valueType)

def boundClass (name : String) : Emit (Option Class) := do
  if ← bindsDirectly then lookupClass name else return none

/-- A field bound now is checked for initialization in front of the access; a lazy one
initializes its class when it resolves. -/
def staticHandle (body : Body) (index : Nat) (member : MemberRef) :
    Emit (Handle StaticSlot) := do
  let cls ← boundClass member.owner
  let registry := (← get).registry
  match cls.bind (registry.findStatic? · member.name member.descriptor) with
  | some (owner, slot) =>
    initCheck (.resolved owner.ref)
    bound body index ⟨owner.ref, slot⟩
  | none => lazy index (.static member)

def getStatic (body : Body) (pc index : Nat) (s : SymStack) : Emit SymStack := do
  let (member, t) ← fieldRef body pc index
  let field ← staticHandle body index member
  push t (.getStatic · field) s

def putStatic (body : Body) (pc index : Nat) (s : SymStack) : Emit SymStack := do
  let (member, t) ← fieldRef body pc index
  let field ← staticHandle body index member
  let (v, s) ← popTyped pc t s
  instr (.putStatic field v)
  return s

def fieldHandle (body : Body) (index : Nat) (member : MemberRef) (t : ValueType) :
    Emit (Handle FieldSlot) := do
  match (← boundClass member.owner).bind (·.findField? member.name member.descriptor) with
  | some info => bound body index ⟨info.owner, info.name, info.slot, t⟩
  | none => lazy index (.field member)

def getField (body : Body) (pc index : Nat) (s : SymStack) : Emit SymStack := do
  let (member, t) ← fieldRef body pc index
  let field ← fieldHandle body index member t
  let (object, s) ← popTyped pc .ref s
  nullCheck object
  push t (.getField · object field) s

def putField (body : Body) (pc index : Nat) (s : SymStack) : Emit SymStack := do
  let (member, t) ← fieldRef body pc index
  let field ← fieldHandle body index member t
  let (v, s) ← popTyped pc t s
  let (object, s) ← popTyped pc .ref s
  nullCheck object
  instr (.putField object field v)
  return s

/-! ## Objects -/

def newObject (body : Body) (pc index : Nat) (s : SymStack) : Emit SymStack := do
  let cls ← classHandle body index pc
  initCheck cls
  let r ← value .ref (.new · cls)
  markNonNull r
  return (r, .ref) :: s

def checkCast (body : Body) (pc index : Nat) (s : SymStack) : Emit SymStack := do
  let name ← poolEntry body pc (·.className index)
  let cls ← classHandle body index pc
  let (object, s) ← popTyped pc .ref s
  let ok ← value .i32 (.canCast · object cls)
  raiseUnless ok .classCast [object] (some name)
  return (object, .ref) :: s

def instanceOf (body : Body) (pc index : Nat) (s : SymStack) : Emit SymStack := do
  let cls ← classHandle body index pc
  let (object, s) ← popTyped pc .ref s
  push .i32 (.instanceOf · object cls) s

def monitor (pc : Nat) (make : Reg → Instr) (s : SymStack) : Emit SymStack := do
  let (object, s) ← popTyped pc .ref s
  nullCheck object
  instr (make object)
  return s

/-! ## Control -/

/-- A jump back may loop, so it polls for a pending stop. -/
def backEdgePoll (i : Instruction) : Emit Unit := do
  if i.op.targets.any (· ≤ i.pc) then
    instr .safepoint

def ofCondition : Condition → CmpOp
  | .eq => .eq
  | .ne => .ne
  | .lt => .lt
  | .ge => .ge
  | .gt => .gt
  | .le => .le

/-- Ends the block with a branch; `inverted` swaps the two ways. -/
def branch (body : Body) (i : Instruction) (cond : Reg) (inverted : Bool) (target : Nat)
    (s : SymStack) : Emit Unit := do
  backEdgePoll i
  let taken ← edge body target s
  let next ← edge body i.next s
  if inverted then terminate (.branch cond next taken)
  else terminate (.branch cond taken next)

def ifZero (body : Body) (i : Instruction) (c : Condition) (target : Nat) (s : SymStack) :
    Emit Unit := do
  let (v, s) ← popTyped i.pc .i32 s
  let z ← constInt 0
  branch body i (← cmp (ofCondition c) v z) false target s

def ifCompare (body : Body) (i : Instruction) (t : ValueType) (op : CmpOp) (target : Nat)
    (s : SymStack) : Emit Unit := do
  let (right, s) ← popTyped i.pc t s
  let (left, s) ← popTyped i.pc t s
  branch body i (← cmp op left right) false target s

def ifNull (body : Body) (i : Instruction) (null : Bool) (target : Nat) (s : SymStack) :
    Emit Unit := do
  let (v, s) ← popTyped i.pc .ref s
  branch body i (← value .i32 (.isNull · v)) (!null) target s

def jump (body : Body) (i : Instruction) (target : Nat) (s : SymStack) : Emit Unit := do
  backEdgePoll i
  terminate (.jump (← edge body target s))

def callSubroutine (body : Body) (i : Instruction) (target : Nat) (s : SymStack) :
    Emit Unit := do
  match body.graph.returnTag? i.next with
  | none => throw (.fallsOffEnd i.pc)
  | some tag => jump body i target (← pushInt (Int32.ofNat tag) s)

def returnFromSubroutine (body : Body) (pc slot : Nat) (s : SymStack) : Emit Unit := do
  let sites := body.graph.returnSites
  if sites.isEmpty then
    throw (.unknownReturnSite pc)
  let slot ← localSlot body slot .i32 pc
  let tag ← value .i32 (.loadLocal · slot)
  if sites.any (· ≤ pc) then
    instr .safepoint
  let cases ← sites.zipIdx.mapM fun (site, n) => return (Int32.ofNat n, ← edge body site s)
  let default ← newBlock (← currentHandler)
  terminate (.switch tag cases ⟨default, []⟩)

def switch (body : Body) (i : Instruction) (default : Nat) (pairs : List (Int32 × Nat))
    (s : SymStack) : Emit Unit := do
  let (key, s) ← popTyped i.pc .i32 s
  backEdgePoll i
  let cases ← pairs.mapM fun (v, target) => return (v, ← edge body target s)
  terminate (.switch key cases (← edge body default s))

/-- Keys of a table are consecutive and wrap around. -/
def tableCases (low : Int32) (targets : List Nat) : List (Int32 × Nat) :=
  targets.zipIdx.map fun (t, n) => (low + Int32.ofNat n, t)

def result (body : Body) (pc : Nat) (op : Operation) (t : Option ValueType) (s : SymStack) :
    Emit Unit := do
  if t ≠ body.method.signature.resultType then
    throw (.unsupported pc op.opcode "return kind does not match the descriptor")
  let v ← match t with
    | some t => pure (some (← popTyped pc t s).1)
    | none => pure none
  match body.exit with
  | .result lock =>
    if let some object := lock then
      instr (.monitorExit object)
    terminate (.result v)
  | .inline continuation => terminate (.jump ⟨continuation, v.toList⟩)

def throwTop (pc : Nat) (s : SymStack) : Emit Unit := do
  let (exception, _) ← popTyped pc .ref s
  nullCheck exception
  terminate (.throw exception)

end ManagedCore.Emit
