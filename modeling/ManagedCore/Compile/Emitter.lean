import ManagedCore.Class.Registry
import ManagedCore.Compile.FlowGraph
import ManagedCore.Config

/-!
# Emitting code

State and primitive steps of the pass that turns a flow graph into blocks of typed instructions.
The operand stack is symbolic: it lists the registers that hold the values, top first. The first
edge into a block fixes the types on its stack, and every later edge has to agree.
-/

namespace ManagedCore

/-- Symbolic operand stack, top first. -/
abbrev SymStack := List (Reg × ValueType)

namespace SymStack

def shape (s : SymStack) : List ValueType := (s.map (·.2)).reverse

def regs (s : SymStack) : List Reg := (s.map (·.1)).reverse

/-- Takes values that fill exactly `n` slots off the top. -/
def popSlots (pc : Nat) : Nat → SymStack → Except CompileError (SymStack × SymStack)
  | 0, s => .ok ([], s)
  | _ + 1, [] => .error (.stackUnderflow pc)
  | n + 1, e :: s =>
    if e.2.slots ≤ n + 1 then do
      let (taken, rest) ← popSlots pc (n + 1 - e.2.slots) s
      return (e :: taken, rest)
    else .error (.splitsWideValue pc)
termination_by _ s => s.length

def shuffle (pc : Nat) (op : StackOp) (s : SymStack) : Except CompileError SymStack :=
  match op with
  | .pop => return (← popSlots pc 1 s).2
  | .pop2 => return (← popSlots pc 2 s).2
  | .dup => copy 1
  | .dup2 => copy 2
  | .dupX1 => copyUnder 1 1
  | .dupX2 => copyUnder 1 2
  | .dup2X1 => copyUnder 2 1
  | .dup2X2 => copyUnder 2 2
  | .swap => do
    let (top, s) ← popSlots pc 1 s
    let (under, s) ← popSlots pc 1 s
    return under ++ top ++ s
where
  copy (n : Nat) : Except CompileError SymStack := do
    let (top, s) ← popSlots pc n s
    return top ++ top ++ s
  copyUnder (n k : Nat) : Except CompileError SymStack := do
    let (top, s) ← popSlots pc n s
    let (under, s) ← popSlots pc k s
    return top ++ under ++ top ++ s

end SymStack

structure CompileStats where
  blocks : Nat := 0
  instrs : Nat := 0
  inlined : Nat := 0
  lazyHandles : Nat := 0
  boundHandles : Nat := 0
  gcPoints : Nat := 0
deriving DecidableEq, Repr

/-- Where the returns of a body go. -/
inductive Exit where
  | result (lock : Option Reg)
  | inline (continuation : BlockId)
deriving DecidableEq, Repr

/-- A body being emitted: the method itself or one expanded inside it. -/
structure Body where
  method : Method
  code : Code
  graph : FlowGraph
  localBase : Nat
  /-- Receives faults that no region covers. -/
  fallback : Option BlockId
  exit : Exit
  /-- Methods being expanded, the method itself included. -/
  chain : List MethodId
  /-- Offset of the call in the outermost body, for a body expanded inside it. -/
  callPc : Option Nat

structure EmitState where
  config : Config
  registry : Registry
  function : Function
  block : BlockId := 0
  pc : Nat := 0
  /-- Parameters of the blocks reached so far, bottom of the stack first. -/
  shapes : List (BlockId × List (Reg × ValueType)) := []
  emitted : List BlockId := []
  nonNull : List Reg := []
  stats : CompileStats := {}
  sites : List CallSite := []

abbrev Emit := EStateM CompileError EmitState

namespace Emit

def liftExcept {α : Type} : Except CompileError α → Emit α
  | .ok a => pure a
  | .error e => throw e

def modifyFunction (g : Function → Function) : Emit Unit :=
  modify fun s => { s with function := g s.function }

def newReg (t : ValueType) : Emit Reg := do
  let (r, f) := (← get).function.addReg t
  modify fun s => { s with function := f }
  return r

def newBlock (handler : Option BlockId) : Emit BlockId := do
  let (b, f) := (← get).function.addBlock
  modify fun s => { s with function := f.modifyBlock b fun blk => { blk with handler } }
  return b

def newParam (b : BlockId) (t : ValueType) : Emit Reg := do
  let r ← newReg t
  modifyFunction fun f => f.modifyBlock b fun blk => { blk with params := blk.params ++ [r] }
  return r

def switchTo (b : BlockId) : Emit Unit := modify fun s => { s with block := b }

def setHandler (b : BlockId) (handler : Option BlockId) : Emit Unit :=
  modifyFunction fun f => f.modifyBlock b fun blk => { blk with handler }

def currentHandler : Emit (Option BlockId) := do
  let s ← get
  return (s.function.block? s.block).bind (·.handler)

def instr (i : Instr) : Emit Unit :=
  modify fun s =>
    { s with function := s.function.modifyBlock s.block fun blk =>
        { blk with instrs := blk.instrs.push ⟨i, s.pc⟩ } }

def terminate (t : Terminator) : Emit Unit :=
  modify fun s =>
    { s with function := s.function.modifyBlock s.block fun blk =>
        { blk with terminator := t, terminatorPc := s.pc } }

def value (t : ValueType) (make : Reg → Instr) : Emit Reg := do
  let r ← newReg t
  instr (make r)
  return r

def constInt (v : Int32) : Emit Reg := value .i32 (.constInt · v)

def cmp (op : CmpOp) (l r : Reg) : Emit Reg := value .i32 (.cmp op · l r)

def markNonNull (r : Reg) : Emit Unit := modify fun s => { s with nonNull := r :: s.nonNull }

/-- Instructions of an expanded body count for the call that it replaces. -/
def setPc (body : Body) (pc : Nat) : Emit Unit :=
  modify fun s => { s with pc := body.callPc.getD pc }

/-! ## Operands -/

def pop (pc : Nat) : SymStack → Emit (Reg × ValueType × SymStack)
  | [] => throw (.stackUnderflow pc)
  | (r, t) :: s => pure (r, t, s)

def popTyped (pc : Nat) (expected : ValueType) (s : SymStack) : Emit (Reg × SymStack) := do
  let (r, found, s) ← pop pc s
  if found = expected then return (r, s)
  else throw (.typeMismatch pc expected found)

/-- Pops values of these types, the last of them on top; the registers come first one first. -/
def popAll (pc : Nat) : List ValueType → SymStack → Emit (List Reg × SymStack)
  | [], s => pure ([], s)
  | t :: ts, s => do
    let (rs, s) ← popAll pc ts s
    let (r, s) ← popTyped pc t s
    return (r :: rs, s)

def localSlot (body : Body) (slot : Nat) (t : ValueType) (pc : Nat) : Emit Nat :=
  if body.code.maxLocals < slot + t.slots then throw (.badLocal pc slot)
  else pure (body.localBase + slot)

/-! ## Edges and guards -/

def edge (body : Body) (target : Nat) (stack : SymStack) : Emit BlockCall := do
  match body.graph.blockAt? target with
  | none => throw (.fallsOffEnd target)
  | some block =>
    match (← get).shapes.lookup block with
    | some params =>
      let expected := params.map (·.2)
      if expected ≠ stack.shape then
        throw (.stackShapeMismatch target expected stack.shape)
    | none =>
      let params ← stack.shape.mapM fun t => return (← newParam block t, t)
      modify fun s => { s with shapes := (block, params) :: s.shapes }
    return ⟨block, stack.regs⟩

def handlerFor (body : Body) (pc : Nat) : Option BlockId :=
  ((body.graph.regionAt? pc).map (·.dispatch)) <|> body.fallback

/-- Raises a fault in a block of its own when the condition is as given, and goes on otherwise. -/
def guard (cond : Reg) (raiseWhen : Bool) (fault : Fault) (args : List Reg)
    (detail : Option String) : Emit Unit := do
  let handler ← currentHandler
  let fail ← newBlock handler
  let ok ← newBlock handler
  if raiseWhen then terminate (.branch cond ⟨fail, []⟩ ⟨ok, []⟩)
  else terminate (.branch cond ⟨ok, []⟩ ⟨fail, []⟩)
  switchTo fail
  terminate (.raise fault args detail)
  switchTo ok

def raiseIf (cond : Reg) (fault : Fault) (args : List Reg) (detail : Option String) : Emit Unit :=
  guard cond true fault args detail

def raiseUnless (cond : Reg) (fault : Fault) (args : List Reg) (detail : Option String) :
    Emit Unit :=
  guard cond false fault args detail

def nullCheck (object : Reg) : Emit Unit := do
  if !(← get).nonNull.contains object then
    let null ← value .i32 (.isNull · object)
    raiseIf null .nullPointer [] none
    markNonNull object

/-! ## Handles -/

def ownPool (body : Body) : Emit Pool :=
  return (((← get).registry.class? body.method.owner).map (·.pool)).getD { entries := #[] }

def poolEntry {α : Type} (body : Body) (pc : Nat) (read : Pool → Except PoolError α) : Emit α := do
  match read (← ownPool body) with
  | .ok a => pure a
  | .error e => throw (.pool pc e)

def countBound : Emit Unit :=
  modify fun s => { s with stats := { s.stats with boundHandles := s.stats.boundHandles + 1 } }

/-- A handle bound now; the pool entry remembers that. -/
def bound {α : Type} (body : Body) (index : Nat) (a : α) : Emit (Handle α) := do
  let mark (c : Class) : Class := { c with pool := c.pool.markBound index }
  modify fun s => { s with registry := s.registry.modifyClass body.method.owner mark }
  countBound
  return .resolved a

def lazy {α : Type} (index : Nat) (symbol : Symbol) : Emit (Handle α) := do
  modify fun s => { s with stats := { s.stats with lazyHandles := s.stats.lazyHandles + 1 } }
  return .lazy index symbol

def bindsDirectly : Emit Bool := return (← get).config.bindsDirectly

def lookupClass (name : String) : Emit (Option Class) := do
  let (c, r) := (← get).registry.lookup name
  modify fun s => { s with registry := r }
  return c

def arrayClass? (component : FieldType) : Emit (Option Class) := do
  let (c, r) := (← get).registry.arrayClass component
  modify fun s => { s with registry := r }
  return c.toOption

def classHandle (body : Body) (index pc : Nat) : Emit (Handle ClassRef) := do
  let name ← poolEntry body pc (·.className index)
  if ← bindsDirectly then
    if let some c ← lookupClass name then
      return ← bound body index c.ref
  lazy index (.class name)

def arrayOfHandle (body : Body) (index pc : Nat) : Emit (Handle ClassRef) := do
  let name ← poolEntry body pc (·.className index)
  if ← bindsDirectly then
    let component ← liftExcept ((FieldType.ofClassName name).mapError .descriptor)
    if (← lookupClass name).isSome then
      if let some c ← arrayClass? component then
        return ← bound body index c.ref
  lazy index (.arrayOf name)

/-- Arrays of primitives need no pool entry. -/
def primitiveArrayHandle (component : FieldType) : Emit (Handle ClassRef) := do
  if ← bindsDirectly then
    if let some c ← arrayClass? component then
      countBound
      return .resolved c.ref
  lazy 0 (.class (FieldType.array component).text)

/-- The check is left out for a class bound now that is already initialized. -/
def initCheck (c : Handle ClassRef) : Emit Unit := do
  let registry := (← get).registry
  let done := match c with
    | .resolved r => (registry.class? r.id).any (·.isInitialized)
    | .lazy _ _ => false
  if !done then
    instr (.initCheck c)

end Emit

end ManagedCore
