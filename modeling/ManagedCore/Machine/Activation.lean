import ManagedCore.Machine.Resolve

/-!
# Activations and their instructions

An activation is a function being run: its registers, its local slots and its position. Evaluating
an instruction gives its effect on the activation and leaves the carrying out of calls, waits and
static initialization to the machine.
-/

namespace ManagedCore

/-- What a task puts back when it is left. -/
structure Scope where
  frames : Nat
  chain : Option Nat
  pins : Option Nat
deriving DecidableEq, Repr

/-- What an activation waits for. -/
inductive Wait where
  | nothing
  /-- For nothing any more: the class of the static field at hand is initialized. -/
  | checked
  | call (dest : Option Reg) (pins : Nat)
  /-- For static initialization, after which the instruction is done or is evaluated again. -/
  | initialization (again : Bool)
  | release
  | monitor (o : ObjId)
deriving DecidableEq, Repr

structure Activation where
  method : MethodId
  code : CodeId
  function : Function
  regs : Array Value
  locals : Array Value
  block : BlockId
  index : Nat := 0
  wait : Wait := .nothing
  scope : Scope

namespace Activation

def get (a : Activation) (r : Reg) : Value := a.regs.getD r default

def set (a : Activation) (r : Reg) (v : Value) : Activation :=
  { a with regs := a.regs.setIfInBounds r v }

def enter (a : Activation) (b : BlockId) (vs : List Value) : Activation :=
  let params := ((a.function.block? b).map Block.params).getD []
  { (params.zip vs).foldl (fun a p => a.set p.1 p.2) a with
    block := b, index := 0, wait := .nothing }

def goTo (a : Activation) (c : BlockCall) : Activation := a.enter c.block (c.args.map a.get)

def next (a : Activation) : Activation := { a with index := a.index + 1, wait := .nothing }

/-- Every register and every local slot starts as the int zero. -/
def start (m : MethodId) (code : CodeId) (f : Function) (scope : Scope) (args : List Value) :
    Activation :=
  let a : Activation :=
    { method := m, code, function := f, scope, block := f.entry
      regs := Array.replicate f.regTypes.size default
      locals := Array.replicate f.maxLocals default }
  a.enter f.entry args

/-- References in the live registers at the current instruction and in all local slots. -/
def liveRefs (a : Activation) (maps : StackMaps) : List ObjId :=
  ((maps.at? a.block a.index).getD []).filterMap (fun r => (a.get r).obj?) ++
    a.locals.toList.filterMap Value.obj?

def handler? (a : Activation) : Option BlockId := (a.function.block? a.block).bind (·.handler)

end Activation

/-- What an instruction does beyond the heap. -/
inductive Effect where
  | nothing
  | assign (r : Reg) (v : Value)
  | store (slot : Nat) (v : Value)
  | call (m : MethodId) (args : List Value) (dest : Option Reg)
  | prepare (c : ClassId) (again : Bool)
  | poll
  | acquire (o : ObjId)

/-- Where control goes at the end of a block. -/
inductive Flow where
  | goTo (c : BlockCall)
  | result (v : Option Value)
  /-- The exception leaves the activation, whatever handler the block has. -/
  | unwind (e : ObjId)

namespace Exec

variable {α : Type}

/-! ## Reading registers -/

def mismatch (r : Reg) (v : Value) (expected : String) : Exec α := do
  let found := v.render (← get).describe
  fail (.typeMismatch s!"{Reg.text r} holds {found}, expected {expected}")

def int (a : Activation) (r : Reg) : Exec Int32 :=
  match a.get r with
  | .int v => return v
  | v => mismatch r v "int"

def reference (a : Activation) (r : Reg) : Exec (Option ObjId) :=
  match a.get r with
  | .ref o => return o
  | v => mismatch r v "reference"

/-- A null reference raises an exception. -/
def nonNull (a : Activation) (r : Reg) : Exec ObjId := do
  match ← reference a r with
  | some o => return o
  | none => raise .nullPointer none

def operand (v : Option Value) (r : Reg) (found : Value) (expected : String) : Exec Value :=
  match v with
  | some v => return v
  | none => mismatch r found expected

/-! ## Faults -/

def indexText (index length : Int) : String :=
  s!"Index {index} out of bounds for length {length}"

def castText (source target : String) : String :=
  s!"class {source} cannot be cast to class {target}"

def storeText (value array : String) : String := s!"{value} cannot be stored in {array}"

def nameOf (a : Activation) (r : Reg) : Exec String := do
  match ← reference a r with
  | some o => className o
  | none => return ""

def faultMessage (a : Activation) (fault : Fault) (args : List Reg) (detail : Option String) :
    Exec (Option String) := do
  match fault, args with
  | .nullPointer, _ | .stackOverflow, _ => return none
  | .arrayIndexOutOfBounds, i :: n :: _ =>
    let index ← int a i
    return some (indexText index.toInt (← int a n).toInt)
  | .arrayStore, v :: arr :: _ =>
    let value ← nameOf a v
    return some (storeText value (← nameOf a arr))
  | .arithmetic, _ => return some (detail.getD "/ by zero")
  | .negativeArraySize, n :: _ => return some (toString (← int a n).toInt)
  | .classCast, o :: _ => return some (castText (← nameOf a o) (detail.getD "?"))
  | _, _ => return detail

def raiseFault (a : Activation) (fault : Fault) (args : List Reg) (detail : Option String) :
    Exec α := do
  raise fault (← faultMessage a fault args detail)

/-! ## Arithmetic -/

def binary (a : Activation) (op : BinaryOp) (l r : Reg) : Exec Value :=
  match (a.get l).binary op (a.get r) with
  | .ok v => return v
  | .error .zeroDivisor => raise .arithmetic (some "/ by zero")
  | .error .shiftCount => mismatch r (a.get r) "int shift count"
  | .error .notInteger => mismatch l (a.get l) "integer"
  | .error .unmatched => mismatch r (a.get r) "matching number"

/-! ## Arrays -/

def checkedIndex (o : ObjId) (index : Int32) : Exec Nat := do
  let n ← arrayLength o
  if 0 ≤ index.toInt ∧ index.toInt < n then return index.toInt.toNat
  else raise .arrayIndexOutOfBounds (some (indexText index.toInt n))

/-- Puts a new array into each place from `i` on, `count` of them. -/
def fillWith (o : ObjId) (inner : Exec ObjId) (i : Nat) : Nat → Exec Unit
  | 0 => return ()
  | count + 1 => do
    let e ← inner
    setElement o i (.obj e)
    fillWith o inner (i + 1) count

def newArray : Class → List Int32 → Exec ObjId
  | _, [] => fail (.internal "array allocation without a length")
  | c, n :: rest => do
    if n.toInt < 0 then
      raise .negativeArraySize (some (toString n.toInt))
    match c.element? with
    | none => fail (.notAnArray c.name)
    | some kind =>
      let o ← allocating (fun _ => outOfMemory) (·.allocateArray c kind n.toInt.toNat)
      if rest.isEmpty then
        return o
      match c.component? with
      | none => fail (.notAnArray c.name)
      | some component =>
        let component ← registered component
        fillWith o (newArray component rest) 0 n.toInt.toNat
        return o
termination_by _ lengths => lengths.length

/-! ## Calls -/

def select (a : Activation) (target : CallTarget) (receiver : Option Reg) : Exec MethodId := do
  match target with
  | .direct h => return (← methodHandle h).id
  | .virtual h =>
    let declared ← methodHandle h
    match receiver with
    | none => fail (.internal s!"virtual call to {declared.text} without receiver")
    | some r =>
      let c ← classOf (← nonNull a r)
      match selectVirtual? (← get).registry declared c with
      | some m => return m.id
      | none => raise .noSuchMethod (some declared.text)
  | .cached site =>
    match receiver with
    | none => fail (.internal s!"interface call to {site.member.text} without receiver")
    | some r =>
      let c ← classOf (← nonNull a r)
      match ← lookupSite a.code site c with
      | some m => return m
      | none => raise .noSuchMethod (some site.member.text)

/-! ## Instructions -/

/-- Whether an object may stand where a class is expected; a null reference is `default`. -/
def isInstance (a : Activation) (r : Reg) (h : Handle ClassRef) (default : Bool) : Exec Bool := do
  match ← reference a r with
  | none => return default
  | some o =>
    let target ← classHandle h
    let c ← classOf o
    return (← get).registry.isAssignable c target

def isStorable (a : Activation) (array value : Reg) : Exec Bool := do
  let arr ← nonNull a array
  match ← reference a value with
  | none => return true
  | some v =>
    match (← classOf arr).component? with
    | none => return false
    | some component =>
      let component ← registered component
      let c ← classOf v
      return (← get).registry.isAssignable c component

/-- A static field of a lazily bound class is looked at only once the class is initialized. -/
def static (a : Activation) (h : Handle StaticSlot) (use : StaticSlot → Exec Effect) :
    Exec Effect := do
  let s ← staticHandle h
  if h.isResolved ∨ a.wait = .checked then use s else return .prepare s.owner.id true

def evaluate (a : Activation) (i : Instr) : Exec Effect := do
  match i with
  | .constInt d v => return .assign d (.int v)
  | .constLong d v => return .assign d (.long v)
  | .constFloat d v => return .assign d (.float v)
  | .constDouble d v => return .assign d (.double v)
  | .constNull d => return .assign d .null
  | .constString d s => return .assign d (.obj (← allocating (fun _ => outOfMemory) (·.intern s)))
  | .move d s => return .assign d (a.get s)
  | .loadLocal d slot =>
    match a.locals[slot]? with
    | some v => return .assign d v
    | none => fail (.internal s!"local {slot} out of range")
  | .storeLocal slot s =>
    if slot < a.locals.size then return .store slot (a.get s)
    else fail (.internal s!"local {slot} out of range")
  | .binary op d l r => return .assign d (← binary a op l r)
  | .neg d s => return .assign d (← operand (a.get s).neg? s (a.get s) "number")
  | .convert d s =>
    match a.function.regType? d with
    | none => fail (.internal s!"{Reg.text d} has no type")
    | some t => return .assign d (← operand ((a.get s).convert? t) s (a.get s) "number")
  | .narrow kind d s => return .assign d (.int (kind.narrowInt (← int a s)))
  | .cmp op d l r =>
    return .assign d
      (← operand (((a.get l).cmp? op (a.get r)).map ofBool) r (a.get r) "comparable operand")
  | .compare d l r nan =>
    return .assign d (← operand ((a.get l).compare? nan (a.get r)) r (a.get r) "number")
  | .isNull d s => return .assign d (ofBool (← reference a s).isNone)
  | .initCheck c => return .prepare (← classHandle c).id false
  | .classMonitor d c =>
    let c ← classHandle c
    return .assign d (.obj (← modifyGet (·.classLock c)))
  | .new d c =>
    let c ← classHandle c
    return .assign d (.obj (← allocating (fun _ => outOfMemory) (·.allocate c)))
  | .newArray d c n =>
    let c ← classHandle c
    return .assign d (.obj (← newArray c [← int a n]))
  | .newMultiArray d c dims =>
    let c ← classHandle c
    return .assign d (.obj (← newArray c (← dims.mapM (int a))))
  | .arrayLength d r => return .assign d (.int (Int32.ofNat (← arrayLength (← nonNull a r))))
  | .arrayLoad d r i =>
    let o ← nonNull a r
    return .assign d (← element o (← checkedIndex o (← int a i)))
  | .arrayStore r i v =>
    let o ← nonNull a r
    setElement o (← checkedIndex o (← int a i)) (a.get v)
    return .nothing
  | .storeCheck d r v => return .assign d (ofBool (← isStorable a r v))
  | .getField d r f =>
    let o ← nonNull a r
    return .assign d (← field o (← fieldHandle f))
  | .putField r f v =>
    let o ← nonNull a r
    setField o (← fieldHandle f) (a.get v)
    return .nothing
  | .getStatic d f => static a f fun s => return .assign d (← staticValue s)
  | .putStatic f v => static a f fun s => do
    setStaticValue s (a.get v)
    return .nothing
  | .instanceOf d r c => return .assign d (ofBool (← isInstance a r c false))
  | .canCast d r c => return .assign d (ofBool (← isInstance a r c true))
  | .monitorEnter r => return .acquire (← nonNull a r)
  | .monitorExit r =>
    match ← exitMonitor (← nonNull a r) with
    | .ok () => return .nothing
    | .error (.notOwner _) => raise .illegalMonitorState none
    | .error e => fail (.monitor e)
  | .call d target args => return .call (← select a target args.head?) (args.map a.get) d
  | .safepoint => return .poll
  | .stackCheck d => return .assign d (ofBool !(← thread).stackExhausted)

/-! ## Terminators -/

def setPc (pc : Nat) : Exec Unit := modifyThread fun t => { t with frames := t.frames.setPc pc }

def terminate (a : Activation) (b : Block) : Exec Flow := do
  match b.terminator with
  | .jump c => return .goTo c
  | .branch r t e => return .goTo (if (← int a r) = 0 then e else t)
  | .switch r cases d =>
    let key ← int a r
    return .goTo (((cases.find? fun c => c.1 == key).map (·.2)).getD d)
  | .result v => return .result (v.map a.get)
  | .throw r =>
    setPc b.terminatorPc
    throwObject (← nonNull a r)
  | .raise fault args detail =>
    setPc b.terminatorPc
    raiseFault a fault args detail
  | .resume r => return .unwind (← nonNull a r)
  | .unreachable =>
    fail (.internal s!"{a.function.name} reached the end of {BlockId.text a.block}")

end Exec

end ManagedCore
