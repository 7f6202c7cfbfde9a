import ManagedCore.Compile.Instructions

/-!
# Code for whole bodies

Blocks are filled in rounds, in offset order, until every block with known stack types is done;
blocks that nothing reaches stay empty. A call whose target is known and short enough is replaced
by the body of the target: its locals lie behind those in use, its returns jump to the code after
the call, and its faults go where those of the call go.
-/

namespace ManagedCore

/-- Expands a call of a method in place and gives the register of its result. The offset is that
of the call, and the registers hold the arguments. -/
abbrev Expander := Body → Nat → Method → List (Reg × ValueType) → Emit (Option Reg)

namespace Emit

/-! ## Calls -/

def cachedTarget (index : Nat) (member : MemberRef) : Emit CallTarget := do
  let site : CallSite := ⟨(← get).sites.length, index, member⟩
  modify fun s => { s with sites := s.sites ++ [site] }
  return .cached site

def directTarget (body : Body) (index : Nat) (member : MemberRef) (resolved : Option Method) :
    Emit (Option Method × CallTarget) := do
  match resolved with
  | some m => return (some m, .direct (← bound body index ⟨m.id, m.text⟩))
  | none => return (none, .direct (← lazy index (.method member)))

/-- No subclass can replace the method, as seen from the class that the call names. -/
def isExact (cls : Class) (m : Method) : Bool :=
  !m.isAbstract && (m.isFinal || !m.isVirtual || Flag.has cls.flags Flag.isFinal)

def virtualTarget (body : Body) (index : Nat) (member : MemberRef) (cls : Option Class)
    (resolved : Option Method) : Emit (Option Method × CallTarget) := do
  match cls, resolved with
  | some cls, some m =>
    if isExact cls m then directTarget body index member (some m)
    else if m.isVirtual then
      return (none, .virtual (← bound body index ⟨m.id, m.text⟩))
    else return (none, ← cachedTarget index member)
  | some _, none => return (none, ← cachedTarget index member)
  | none, _ => return (none, .virtual (← lazy index (.method member)))

/-- A static call initializes the class that declares the method. -/
def staticTarget (body : Body) (index : Nat) (member : MemberRef) (resolved : Option Method) :
    Emit (Option Method × CallTarget) := do
  let owner ← match resolved with
    | some m => bound body index ⟨m.owner, m.ownerName⟩
    | none => lazy index (.class member.owner)
  initCheck owner
  directTarget body index member resolved

/-- The target of a call and, where it is the only one possible, its method. -/
def selectTarget (body : Body) (op : Operation) (index : Nat) (member : MemberRef) :
    Emit (Option Method × CallTarget) := do
  let cls ← boundClass member.owner
  let registry := (← get).registry
  let resolved := cls.bind (registry.findMethod? · member.name member.descriptor)
  match op with
  | .invokeStatic _ => staticTarget body index member resolved
  | .invokeSpecial _ => directTarget body index member resolved
  | .invokeVirtual _ => virtualTarget body index member cls resolved
  | _ => return (none, ← cachedTarget index member)

/-- Expansion never repeats a method on the way in, stays within one loader, and keeps the local
slots addressable. -/
def canExpand (body : Body) (m : Method) : Emit Bool := do
  let s ← get
  match m.code with
  | none => return false
  | some code =>
    return m.isInlinable s.config.maxInlineLength && !body.chain.contains m.id &&
      m.loader == body.method.loader && s.function.maxLocals + code.maxLocals ≤ 65535

def call (target : CallTarget) (args : List Reg) (t : Option ValueType) (s : SymStack) :
    Emit SymStack := do
  match t with
  | none =>
    instr (.call none target args)
    return s
  | some t => push t (fun r => .call (some r) target args) s

/-- Arguments of a call and the stack below them; a receiver must not be null. -/
def popArguments (pc : Nat) (hasReceiver : Bool) (types : List ValueType) (s : SymStack) :
    Emit (List (Reg × ValueType) × SymStack) := do
  let (regs, s) ← popAll pc types s
  if hasReceiver then
    let (receiver, s) ← popTyped pc .ref s
    nullCheck receiver
    return ((receiver, .ref) :: regs.zip types, s)
  return (regs.zip types, s)

def isStaticCall : Operation → Bool
  | .invokeStatic _ => true
  | _ => false

def invoke (expand : Option Expander) (body : Body) (pc : Nat) (op : Operation) (index : Nat)
    (s : SymStack) : Emit SymStack := do
  let member ← poolEntry body pc (·.method index)
  let signature ← liftExcept ((Signature.parse member.descriptor).mapError .descriptor)
  let (args, s) ← popArguments pc (!isStaticCall op) signature.paramTypes s
  let (exact, target) ← selectTarget body op index member
  let plain := call target (args.map (·.1)) signature.resultType s
  match exact, expand with
  | some m, some expand =>
    if ← canExpand body m then
      match ← expand body pc m args, signature.resultType with
      | some r, some t => return (r, t) :: s
      | _, _ => return s
    else plain
  | _, _ => plain

/-! ## Instructions -/

/-- Adds the code of one instruction; there is no stack behind one that ends its block. -/
def instruction (expand : Option Expander) (body : Body) (i : Instruction) (s : SymStack) :
    Emit (Option SymStack) :=
  let pc := i.pc
  match i.op with
  | .nop => pure (some s)
  | .constNull => some <$> push .ref (.constNull ·) s
  | .constInt v => some <$> pushInt (Int32.ofInt (v.val - 1)) s
  | .constLong one => some <$> push .i64 (.constLong · (if one then 1 else 0)) s
  | .constFloat v => some <$> push .f32 (.constFloat · (.ofNat v.val)) s
  | .constDouble one => some <$> push .f64 (.constDouble · (.ofNat (if one then 1 else 0))) s
  | .pushByte v | .pushShort v => some <$> pushInt v s
  | .loadConst form index => some <$> loadConst body pc i.op (form == .wide) index s
  | .load t slot => some <$> load body pc t slot s
  | .store t slot => some <$> store body pc t slot s
  | .increment slot delta => do
    increment body pc slot delta
    return some s
  | .arrayLoad form => some <$> arrayLoad pc form s
  | .arrayStore form => some <$> arrayStore pc form s
  | .arrayLength => some <$> arrayLength pc s
  | .newArray code => some <$> newPrimitiveArray pc i.op code s
  | .newRefArray index => some <$> newRefArray body pc index s
  | .newMultiArray index dims => some <$> newMultiArray body pc index dims s
  | .stack op => some <$> liftExcept (s.shuffle pc op)
  | .arith op t => some <$> binary pc (ofArith op) t.valueType s
  | .bits op long => some <$> binary pc (ofBits op) (if long then .i64 else .i32) s
  | .neg t => some <$> unary pc t.valueType t.valueType .neg s
  | .convert c => some <$> unary pc c.source.valueType c.target.valueType .convert s
  | .narrow n => some <$> unary pc .i32 .i32 (.narrow n.elementKind) s
  | .compare c => some <$> compare pc c s
  | .getStatic index => some <$> getStatic body pc index s
  | .putStatic index => some <$> putStatic body pc index s
  | .getField index => some <$> getField body pc index s
  | .putField index => some <$> putField body pc index s
  | .invokeVirtual index | .invokeSpecial index | .invokeStatic index
  | .invokeInterface index _ => some <$> invoke expand body pc i.op index s
  | .new index => some <$> newObject body pc index s
  | .checkCast index => some <$> checkCast body pc index s
  | .instanceOf index => some <$> instanceOf body pc index s
  | .monitorEnter => some <$> monitor pc .monitorEnter s
  | .monitorExit => some <$> monitor pc .monitorExit s
  | .ifZero c target => (fun _ => none) <$> ifZero body i c target s
  | .ifInt c target => (fun _ => none) <$> ifCompare body i .i32 (ofCondition c) target s
  | .ifRef equal target =>
    (fun _ => none) <$> ifCompare body i .ref (if equal then .eq else .ne) target s
  | .ifNull null target => (fun _ => none) <$> ifNull body i null target s
  | .goto target => (fun _ => none) <$> jump body i target s
  | .jsr target => (fun _ => none) <$> callSubroutine body i target s
  | .ret slot => (fun _ => none) <$> returnFromSubroutine body pc slot s
  | .tableSwitch default low targets =>
    (fun _ => none) <$> switch body i default (tableCases low targets) s
  | .lookupSwitch default pairs => (fun _ => none) <$> switch body i default pairs s
  | .result t => (fun _ => none) <$> result body pc i.op t s
  | .throw => (fun _ => none) <$> throwTop pc s

/-! ## Blocks -/

/-- Adds instructions up to the end of the block: one that ends it, or the start of the next. -/
def instructions (expand : Option Expander) (body : Body) :
    List Node → SymStack → Emit Unit
  | [], _ => pure ()
  | node :: rest, s => do
    setPc body node.instr.pc
    match ← instruction expand body node.instr s with
    | none => pure ()
    | some s =>
      match rest with
      | [] => throw (.fallsOffEnd node.instr.pc)
      | next :: _ =>
        if next.block.isSome then terminate (.jump (← edge body next.instr.pc s))
        else instructions expand body rest s

def block (expand : Option Expander) (body : Body) (nodes : List Node) (start : Nat)
    (b : BlockId) (params : List (Reg × ValueType)) : Emit Unit := do
  modify fun s => { s with emitted := b :: s.emitted }
  setHandler b (handlerFor body start)
  switchTo b
  instructions expand body nodes params.reverse

/-- Fills the blocks that can be filled, and says whether there were any. -/
def round (expand : Option Expander) (body : Body) : List Node → Emit Bool
  | [] => pure false
  | node :: rest => do
    let state ← get
    let ready := node.block.filter fun b => !state.emitted.contains b
    match ready, ready.bind (state.shapes.lookup ·) with
    | some b, some params =>
      block expand body (node :: rest) node.instr.pc b params
      discard (round expand body rest)
      return true
    | _, _ => round expand body rest

/-- Each round but the last fills a block, so the number of blocks bounds the rounds. -/
def rounds (expand : Option Expander) (body : Body) : Nat → Emit Unit
  | 0 => pure ()
  | fuel + 1 => do
    if ← round expand body body.graph.nodes then rounds expand body fuel

/-! ## Exceptions -/

/-- Where an exception goes that no row of the region catches. -/
def unmatched (body : Body) (exception : Reg) : Terminator :=
  match body.fallback with
  | some outer => .jump ⟨outer, [exception]⟩
  | none => .resume exception

/-- Tests the rows in order, up to the first that catches everything. -/
def dispatchRows (body : Body) (exception : Reg) : List HandlerRow → Emit Unit
  | [] => terminate (unmatched body exception)
  | row :: rest => do
    setPc body row.handler
    let target ← edge body row.handler [(exception, .ref)]
    match row.catchType with
    | none => terminate (.jump target)
    | some index =>
      let cls ← classHandle body index row.handler
      let caught ← value .i32 (.instanceOf · exception cls)
      let next ← newBlock body.fallback
      terminate (.branch caught target ⟨next, []⟩)
      switchTo next
      dispatchRows body exception rest

def dispatch (body : Body) (region : Region) : Emit Unit := do
  switchTo region.dispatch
  setHandler region.dispatch body.fallback
  dispatchRows body region.exception (region.rows.filterMap (body.code.handlers[·]?))

/-! ## Bodies -/

def flowGraph (code : Code) : Emit FlowGraph := do
  let (graph, f) ← liftExcept (FlowGraph.ofCode code (← get).function)
  modifyFunction fun _ => f
  return graph

def enterBody (body : Body) : Emit Unit := do
  terminate (.jump (← edge body 0 []))

def fillBody (expand : Option Expander) (body : Body) : Emit Unit := do
  body.graph.regions.forM (dispatch body)
  rounds expand body (body.graph.starts.length + 1)

/-- A body has at most 65535 slots, its arguments included. Numbers of slots are not cut to 16 bits:
an argument that would come to stand beyond that has no slot. -/
def storeArguments : Nat → List (Reg × ValueType) → Emit Unit
  | _, [] => pure ()
  | slot, (r, t) :: rest => do
    instr (.storeLocal slot r)
    storeArguments (slot + t.slots) rest

def expandCall (inner : Option Expander) : Expander := fun body pc m args => do
  match m.code with
  | none => throw (.noCode m.text)
  | some code =>
    let base := (← get).function.maxLocals
    modifyFunction fun f => { f with maxLocals := f.maxLocals + code.maxLocals }
    let handler ← currentHandler
    let continuation ← newBlock handler
    let result ← m.signature.resultType.mapM (newParam continuation)
    storeArguments base args
    let graph ← flowGraph code
    let callee : Body :=
      { method := m
        code
        graph
        localBase := base
        fallback := handler
        exit := .inline continuation
        chain := m.id :: body.chain
        callPc := some (body.callPc.getD pc) }
    enterBody callee
    fillBody inner callee
    modify fun s => { s with stats := { s.stats with inlined := s.stats.inlined + 1 } }
    switchTo continuation
    setPc body pc
    return result

def expander : Nat → Option Expander
  | 0 => none
  | depth + 1 => some (expandCall (expander depth))

/-! ## Methods -/

/-- Takes the monitor of a synchronized method, which gives the register of its object and the
block that releases it when an exception leaves the method. -/
def acquire (m : Method) (params : List Reg) : Emit (Option (Reg × BlockId)) := do
  if !m.isSynchronized then
    return none
  let object ← match m.isStatic, params with
    | false, receiver :: _ => pure receiver
    | _, _ => value .ref (.classMonitor · (.resolved ⟨m.owner, m.ownerName⟩))
  instr (.monitorEnter object)
  let unwind ← newBlock none
  let exception ← newParam unwind .ref
  switchTo unwind
  instr (.monitorExit object)
  terminate (.resume exception)
  return some (object, unwind)

def method (m : Method) (code : Code) : Emit Unit := do
  let entry ← newBlock none
  modifyFunction fun f => { f with entry }
  switchTo entry
  let params ← parameters entry 0 m.paramTypes
  let lock ← acquire m params
  let unwind := lock.map (·.2)
  let start ← newBlock unwind
  switchTo entry
  terminate (.jump ⟨start, []⟩)
  switchTo start
  let graph ← flowGraph code
  let body : Body :=
    { method := m
      code
      graph
      localBase := 0
      fallback := unwind
      exit := .result (lock.map (·.1))
      chain := [m.id]
      callPc := none }
  let ok ← value .i32 (.stackCheck ·)
  raiseUnless ok .stackOverflow [] none
  instr .safepoint
  enterBody body
  let s ← get
  -- The methods of a chain of expansions differ, so there is none longer than their number.
  fillBody (expander (min s.config.maxInlineDepth s.registry.methods.size)) body
where
  /-- Adds parameters, each stored into its slot at once. Of the slots holds what is said of
  `storeArguments`. -/
  parameters (entry : BlockId) (slot : Nat) : List ValueType → Emit (List Reg)
    | [] => pure []
    | t :: ts => do
      let r ← newParam entry t
      instr (.storeLocal slot r)
      return r :: (← parameters entry (slot + t.slots) ts)

end Emit

end ManagedCore
