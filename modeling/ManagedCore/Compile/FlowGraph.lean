import ManagedCore.Bytecode.Code
import ManagedCore.Compile.Error
import ManagedCore.Ir.Basic

/-!
# Flow graphs of method bodies

Before any code is emitted, the instructions of a body are cut into basic blocks: a block starts at
offset zero, at every target, behind every branch, and at every boundary of an exception table row.
Instructions covered by the same rows form a region, and each region has one block that receives
its exceptions.
-/

namespace ManagedCore

/-- An instruction with the block that starts there and the region that covers it. -/
structure Node where
  instr : Instruction
  block : Option BlockId
  region : Option Nat
  handlerEntry : Bool
deriving DecidableEq, Repr

/-- Rows of the exception table that cover a run of instructions, in table order. -/
structure Region where
  rows : List Nat
  dispatch : BlockId
  exception : Reg
deriving DecidableEq, Repr

structure FlowGraph where
  nodes : List Node
  regions : List Region
  /-- Offsets behind the subroutine calls, in order; a call pushes the place of its own. -/
  returnSites : List Nat
deriving DecidableEq, Repr

namespace FlowGraph

def indexOf? (g : FlowGraph) (pc : Nat) : Option Nat := g.nodes.findIdx? (·.instr.pc == pc)

def nodeAt? (g : FlowGraph) (pc : Nat) : Option Node := g.nodes.find? (·.instr.pc == pc)

def blockAt? (g : FlowGraph) (pc : Nat) : Option BlockId := (g.nodeAt? pc).bind (·.block)

def regionAt? (g : FlowGraph) (pc : Nat) : Option Region :=
  ((g.nodeAt? pc).bind (·.region)).bind fun i => g.regions[i]?

def returnTag? (g : FlowGraph) (pc : Nat) : Option Nat := g.returnSites.findIdx? (· == pc)

def starts (g : FlowGraph) : List Nat :=
  (g.nodes.filter (·.block.isSome)).map (·.instr.pc)

/-- A row has to be a non-empty range between instruction starts with a handler at one. -/
def rowOk (pcs : List Nat) (size : Nat) (row : HandlerRow) : Bool :=
  row.start < row.stop && pcs.contains row.start &&
    (row.stop == size || pcs.contains row.stop) && pcs.contains row.handler

def isSubroutineCall : Operation → Bool
  | .jsr _ => true
  | _ => false

/-- Offsets at which a block has to start; some may lie behind the last instruction. -/
def startOffsets (code : Code) (instrs : List Instruction) : List Nat :=
  0 :: code.handlers.flatMap (fun row => [row.start, row.handler, row.stop]) ++
    instrs.flatMap fun i =>
      if i.op.endsBlock || i.op.isConditional then i.next :: i.op.targets else i.op.targets

def addBlocks (starts : List Nat) :
    List Instruction → Function → List (Instruction × Option BlockId) × Function
  | [], f => ([], f)
  | i :: rest, f =>
    if starts.contains i.pc then
      let (b, f) := f.addBlock
      let (tail, f) := addBlocks starts rest f
      ((i, some b) :: tail, f)
    else
      let (tail, f) := addBlocks starts rest f
      ((i, none) :: tail, f)

def addDispatch (f : Function) : BlockId × Reg × Function :=
  let (b, f) := f.addBlock
  let (r, f) := f.addReg .ref
  (b, r, f.modifyBlock b fun blk => { blk with params := blk.params ++ [r] })

def coveringRows (handlers : List HandlerRow) (pc : Nat) : List Nat :=
  (handlers.zipIdx.filter fun (row, _) => row.covers pc).map (·.2)

def addRegions (handlers : List HandlerRow) :
    List (Instruction × Option BlockId) → List Region → Function →
      List Node × List Region × Function
  | [], regions, f => ([], regions, f)
  | (instr, block) :: rest, regions, f =>
    let handlerEntry := handlers.any (·.handler == instr.pc)
    let rows := coveringRows handlers instr.pc
    if rows.isEmpty then
      let (tail, regions, f) := addRegions handlers rest regions f
      ({ instr, block, region := none, handlerEntry } :: tail, regions, f)
    else
      match regions.findIdx? (·.rows == rows) with
      | some i =>
        let (tail, regions, f) := addRegions handlers rest regions f
        ({ instr, block, region := some i, handlerEntry } :: tail, regions, f)
      | none =>
        let (dispatch, exception, f) := addDispatch f
        let i := regions.length
        let (tail, regions, f) :=
          addRegions handlers rest (regions ++ [{ rows, dispatch, exception }]) f
        ({ instr, block, region := some i, handlerEntry } :: tail, regions, f)

/-- Decodes a body and adds its blocks, then those of its regions, to `f`. -/
def ofCode (code : Code) (f : Function) : Except CompileError (FlowGraph × Function) := do
  let instrs ← (Bytecode.decode code.bytes).mapError CompileError.decode
  let pcs := instrs.map (·.pc)
  match code.handlers.findIdx? fun row => !rowOk pcs code.bytes.length row with
  | some row => throw (.badHandler row)
  | none => pure ()
  let (blocked, f) := addBlocks (startOffsets code instrs) instrs f
  let (nodes, regions, f) := addRegions code.handlers blocked [] f
  let returnSites := (instrs.filter fun i => isSubroutineCall i.op).map (·.next)
  return ({ nodes, regions, returnSites }, f)

end FlowGraph

end ManagedCore
