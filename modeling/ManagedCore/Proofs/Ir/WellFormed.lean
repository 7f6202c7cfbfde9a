import ManagedCore.Ir.Basic

/-!
# Well-formed functions

What running code relies on: control goes only to blocks that exist, with arguments of the types of
their parameters, exceptions go to blocks with one parameter for them, and whatever is read was
assigned before, on every way there, exceptional ones included.
-/

namespace ManagedCore.Function

def HasTypes (f : Function) (rs : List Reg) (ts : List ValueType) : Prop :=
  rs.map f.regType? = ts.map some

/-- Ways through a function from its entry: a place, and the registers that the way there has
assigned. A fault may leave a block in front of any of its instructions. -/
inductive Walk (f : Function) : BlockId → Nat → List Reg → Prop where
  | entry {blk : Block} : f.block? f.entry = some blk → Walk f f.entry 0 blk.params
  | next {b i : Nat} {rs : List Reg} {blk : Block} {p : PlacedInstr} :
      Walk f b i rs → f.block? b = some blk → blk.instrs[i]? = some p →
      Walk f b (i + 1) (p.instr.dest?.toList ++ rs)
  | jump {b : BlockId} {rs : List Reg} {blk target : Block} {c : BlockCall} :
      Walk f b blk.instrs.size rs → f.block? b = some blk → c ∈ blk.terminator.successors →
      f.block? c.block = some target → Walk f c.block 0 (target.params ++ rs)
  | fault {b i h : Nat} {rs : List Reg} {blk target : Block} :
      Walk f b i rs → f.block? b = some blk → blk.handler = some h →
      f.block? h = some target → Walk f h 0 (target.params ++ rs)

/-- Registers read at a place: by the instruction there, or at the end of the block. -/
def reads (blk : Block) (i : Nat) : List Reg :=
  match blk.instrs[i]? with
  | some p => p.instr.uses
  | none => blk.terminator.uses

/-- Blocks are numbered by their places and each instruction holds its own offset, so these two parts
of being well formed are in the representation. -/
structure WellFormed (f : Function) : Prop where
  entry : ∃ blk, f.block? f.entry = some blk
  edges : ∀ b blk, f.block? b = some blk → ∀ c ∈ blk.terminator.successors,
    ∃ target ts, f.block? c.block = some target ∧ f.HasTypes c.args ts ∧ f.HasTypes target.params ts
  handlers : ∀ b blk h, f.block? b = some blk → blk.handler = some h →
    ∃ target r, f.block? h = some target ∧ target.params = [r] ∧ f.regType? r = some .ref
  results : ∀ b blk v, f.block? b = some blk → blk.terminator = .result v →
    v.isSome = f.result.isSome ∧ ∀ r, v = some r → f.regType? r = f.result
  assigned : ∀ b i rs blk, f.Walk b i rs → f.block? b = some blk → ∀ r ∈ reads blk i, r ∈ rs

end ManagedCore.Function
