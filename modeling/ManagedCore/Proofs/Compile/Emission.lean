import ManagedCore.Compile.Body

/-!
# What emission keeps

Code is only ever added to the block that is being filled. The blocks of the flow graph that were
not started are empty, and every other block is as it will be in the finished function. The
statements concern bodies without exception handlers.
-/

namespace ManagedCore

open Array Option

def FlowGraph.blocks (g : FlowGraph) : List BlockId := g.nodes.filterMap (·.block)

namespace EmitState

variable {g : FlowGraph} {st st' : EmitState} {f : Block → Block} {blk : Block}
  {branch : Terminator} {st₁ st₂ st₃ : EmitState} {failure t : Terminator}

/-- A block of the graph that was not started. -/
def Pending (g : FlowGraph) (st : EmitState) (b : BlockId) : Prop := b ∈ g.blocks ∧ b ∉ st.emitted

/-- A block that no code is added to any more. -/
def Fixed (g : FlowGraph) (st : EmitState) (b : BlockId) : Prop :=
  ∃ blk, st.function.block? b = some blk ∧ ¬ st.Pending g b ∧
    (b = st.block → blk.terminator ≠ .unreachable)

def Open (st : EmitState) : Prop :=
  ∃ blk, st.function.block? st.block = some blk ∧ blk.terminator = .unreachable

def Begins (old new : Array PlacedInstr) : Prop := ∀ (k : Nat) p, old[k]? = some p → new[k]? = some p

structure Sound (g : FlowGraph) (st : EmitState) : Prop where
  current : ¬ st.Pending g st.block
  inRange : ∃ blk, st.function.block? st.block = some blk
  handlers : ∀ b blk, st.function.block? b = some blk → blk.handler = none
  graph : ∀ b ∈ g.blocks, ∃ blk, st.function.block? b = some blk ∧
    (b ∉ st.emitted → blk.instrs = #[] ∧ blk.terminator = .unreachable) ∧
    (st.shapes.lookup b = none → blk.params = [] ∧ b ∉ st.emitted)
  shaped : ∀ b ps, st.shapes.lookup b = some ps → b ∈ g.blocks ∧
    (ps.map (·.1)).Nodup ∧ (∀ p ∈ ps, p.1 < st.function.regTypes.size) ∧
    ∃ blk, st.function.block? b = some blk ∧ blk.params = ps.map (·.1)

def frame (st : EmitState) : BlockId × Nat := (st.function.entry, st.function.maxLocals)

/-- A later state of the same emission. -/
structure Extends (g : FlowGraph) (st st' : EmitState) : Prop where
  frame : st'.frame = st.frame
  regs : ∀ r t, st.function.regType? r = some t → st'.function.regType? r = some t
  emitted : ∀ b ∈ st.emitted, b ∈ st'.emitted
  shapes : ∀ b ps, st.shapes.lookup b = some ps → st'.shapes.lookup b = some ps
  fixed : ∀ b, st.Fixed g b → st'.Fixed g b ∧ st'.function.block? b = st.function.block? b
  current : ∀ blk, st.function.block? st.block = some blk →
    ∃ blk', st'.function.block? st.block = some blk' ∧ Begins blk.instrs blk'.instrs
  moved : st'.block = st.block ∨ st'.Fixed g st.block

structure SameSpot (st st' : EmitState) : Prop where
  block : st'.block = st.block
  content : st'.function.block? st.block = st.function.block? st.block
  emitted : st'.emitted = st.emitted

/-! ## Order -/

theorem Begins.refl (is : Array PlacedInstr) : Begins is is := fun _ _ h => h

theorem Begins.trans {is js ks : Array PlacedInstr} (h : Begins is js) (h' : Begins js ks) :
    Begins is ks := fun k p hp => h' k p (h k p hp)

theorem Begins.push (is : Array PlacedInstr) (p : PlacedInstr) : Begins is (is.push p) := by
  intro k q hq
  have hlt : k < is.size := (Array.getElem?_eq_some_iff.mp hq).1
  rw [getElem?_push_lt hlt, ← hq, getElem?_eq_getElem hlt]

theorem Extends.refl {st : EmitState} : Extends g st st where
  frame := rfl
  regs _ _ h := h
  emitted _ h := h
  shapes _ _ h := h
  fixed _ h := ⟨h, rfl⟩
  current blk h := ⟨blk, h, .refl _⟩
  moved := .inl rfl

theorem Extends.trans (h : Extends g st₁ st₂) (h' : Extends g st₂ st₃) : Extends g st₁ st₃ where
  frame := h'.frame.trans h.frame
  regs r t hr := h'.regs r t (h.regs r t hr)
  emitted b hb := h'.emitted b (h.emitted b hb)
  shapes b ps hb := h'.shapes b ps (h.shapes b ps hb)
  fixed b hb := by
    obtain ⟨hfixed, heq⟩ := h.fixed b hb
    obtain ⟨hfixed', heq'⟩ := h'.fixed b hfixed
    exact ⟨hfixed', heq'.trans heq⟩
  current blk hblk := by
    obtain ⟨blk₂, hblk₂, hbegins⟩ := h.current blk hblk
    rcases h.moved with hsame | hfixed
    · rw [← hsame] at hblk₂ ⊢
      obtain ⟨blk₃, hblk₃, hbegins'⟩ := h'.current blk₂ hblk₂
      exact ⟨blk₃, hblk₃, hbegins.trans hbegins'⟩
    · exact ⟨blk₂, (h'.fixed _ hfixed).2.trans hblk₂, hbegins⟩
  moved := by
    rcases h.moved with hsame | hfixed
    · rcases h'.moved with hsame' | hfixed'
      · exact .inl (hsame'.trans hsame)
      · exact .inr (hsame ▸ hfixed')
    · exact .inr (h'.fixed _ hfixed).1

theorem SameSpot.refl {st : EmitState} : SameSpot st st := ⟨rfl, rfl, rfl⟩

theorem SameSpot.trans (h : SameSpot st₁ st₂) (h' : SameSpot st₂ st₃) : SameSpot st₁ st₃ := by
  obtain ⟨hblock, heq, hemitted⟩ := h
  obtain ⟨hblock', heq', hemitted'⟩ := h'
  rw [hblock] at hblock' heq'
  exact ⟨hblock', heq'.trans heq, hemitted'.trans hemitted⟩

theorem SameSpot.open (h : SameSpot st st') (ho : st.Open) : st'.Open := by
  obtain ⟨blk, hblk, hend⟩ := ho
  exact ⟨blk, by rw [h.block, h.content, hblk], hend⟩

/-! ## Registers and instructions -/

def nextReg (st : EmitState) : Nat := st.function.regTypes.size

def addReg (st : EmitState) (t : ValueType) : EmitState :=
  { st with function := (st.function.addReg t).2 }

def onCurrent (st : EmitState) (f : Block → Block) : EmitState :=
  { st with function := st.function.modifyBlock st.block f }

def addInstr (st : EmitState) (i : Instr) : EmitState :=
  st.onCurrent fun blk => { blk with instrs := blk.instrs.push ⟨i, st.pc⟩ }

def close (st : EmitState) (t : Terminator) : EmitState :=
  st.onCurrent fun blk => { blk with terminator := t, terminatorPc := st.pc }

def addValue (st : EmitState) (t : ValueType) (make : Reg → Instr) : EmitState :=
  (st.addReg t).addInstr (make st.nextReg)

theorem sameSpot_addReg (t : ValueType) : SameSpot st (st.addReg t) := ⟨rfl, rfl, rfl⟩

theorem regType_addReg {t : ValueType} : (st.addReg t).function.regType? st.nextReg = some t := by
  simp [addReg, Function.addReg, nextReg, Function.regType?]

theorem Sound.addReg (h : Sound g st) (t : ValueType) : Sound g (st.addReg t) where
  current := h.current
  inRange := h.inRange
  handlers := h.handlers
  graph := h.graph
  shaped b ps hb := by
    obtain ⟨hmem, hnodup, hlt, hblk⟩ := h.shaped b ps hb
    refine ⟨hmem, hnodup, fun p hp => ?_, hblk⟩
    simp only [EmitState.addReg, Function.addReg, size_push]
    exact Nat.lt_succ_of_lt (hlt p hp)

theorem extends_addReg (t : ValueType) : Extends g st (st.addReg t) where
  frame := rfl
  regs r u hr := by
    have hlt := (Array.getElem?_eq_some_iff.mp hr).1
    change (st.function.regTypes.push t)[r]? = some u
    rw [getElem?_push_lt hlt, ← getElem?_eq_getElem hlt]
    exact hr
  emitted _ h := h
  shapes _ _ h := h
  fixed _ h := ⟨h, rfl⟩
  current blk h := ⟨blk, h, .refl _⟩
  moved := .inl rfl

/-- Changes of a block that keep its parameters and its handler and only add instructions. -/
structure Growing (f : Block → Block) : Prop where
  params : ∀ blk, (f blk).params = blk.params
  handler : ∀ blk, (f blk).handler = blk.handler
  instrs : ∀ blk, Begins blk.instrs (f blk).instrs

theorem block_onCurrent (b : BlockId) : (st.onCurrent f).function.block? b =
      if st.block = b then (st.function.block? b).map f else st.function.block? b :=
  getElem?_modify

theorem Sound.onCurrent (h : Sound g st) (hf : Growing f) : Sound g (st.onCurrent f) where
  current := h.current
  inRange := by
    obtain ⟨blk, hblk⟩ := h.inRange
    exact ⟨f blk, by rw [block_onCurrent, show (st.onCurrent f).block = st.block from rfl,
      if_pos rfl, hblk, map_some]⟩
  handlers b blk hb := by
    rw [block_onCurrent] at hb
    split at hb
    · obtain ⟨old, hold, rfl⟩ := map_eq_some_iff.mp hb
      rw [hf.handler]
      exact h.handlers b old hold
    · exact h.handlers b blk hb
  graph b hb := by
    obtain ⟨blk, hblk, hempty, hparams⟩ := h.graph b hb
    by_cases hcur : st.block = b
    · refine ⟨f blk, by rw [block_onCurrent, if_pos hcur, hblk, map_some], ?_, ?_⟩
      · intro hnot
        exact absurd ⟨hb, hnot⟩ (hcur ▸ h.current)
      · intro hnone
        rw [hf.params]
        exact hparams hnone
    · exact ⟨blk, by rw [block_onCurrent, if_neg hcur, hblk], hempty, hparams⟩
  shaped b ps hb := by
    obtain ⟨hmem, hnodup, hlt, blk, hblk, hparams⟩ := h.shaped b ps hb
    refine ⟨hmem, hnodup, hlt, ?_⟩
    by_cases hcur : st.block = b
    · exact ⟨f blk, by rw [block_onCurrent, if_pos hcur, hblk, map_some],
        (hf.params blk).trans hparams⟩
    · exact ⟨blk, by rw [block_onCurrent, if_neg hcur, hblk], hparams⟩

theorem Open.not_fixed (ho : st.Open) : ¬ st.Fixed g st.block := by
  rintro ⟨blk, hblk, -, hclosed⟩
  obtain ⟨blk', hblk', hopen⟩ := ho
  rw [hblk, some.injEq] at hblk'
  exact hclosed rfl (hblk' ▸ hopen)

theorem Open.extends_onCurrent (ho : st.Open) (hf : Growing f) : Extends g st (st.onCurrent f) where
  frame := rfl
  regs _ _ h := h
  emitted _ h := h
  shapes _ _ h := h
  fixed b hb := by
    have hne : st.block ≠ b := by
      rintro rfl
      exact ho.not_fixed hb
    have heq : (st.onCurrent f).function.block? b = st.function.block? b := by
      rw [block_onCurrent, if_neg hne]
    obtain ⟨blk, hblk, hpending, hclosed⟩ := hb
    exact ⟨⟨blk, heq.trans hblk, hpending, hclosed⟩, heq⟩
  current blk hblk :=
    ⟨f blk, by rw [block_onCurrent, if_pos rfl, hblk, map_some], hf.instrs blk⟩
  moved := .inl rfl

theorem growing_push (p : PlacedInstr) :
    Growing fun blk => { blk with instrs := blk.instrs.push p } :=
  ⟨fun _ => rfl, fun _ => rfl, fun blk => .push blk.instrs p⟩

theorem growing_close (t : Terminator) (pc : Nat) :
    Growing fun blk => { blk with terminator := t, terminatorPc := pc } :=
  ⟨fun _ => rfl, fun _ => rfl, fun blk => .refl blk.instrs⟩

theorem Open.addInstr (ho : st.Open) (i : Instr) : (st.addInstr i).Open := by
  obtain ⟨blk, hblk, hend⟩ := ho
  refine ⟨{ blk with instrs := blk.instrs.push ⟨i, st.pc⟩ }, ?_, hend⟩
  rw [EmitState.addInstr, block_onCurrent]
  exact (if_pos rfl).trans (by rw [show (st.onCurrent _).block = st.block from rfl, hblk]; rfl)

theorem Sound.addInstr (h : Sound g st) (i : Instr) : Sound g (st.addInstr i) :=
  h.onCurrent (growing_push _)

theorem Open.extends_addInstr (ho : st.Open) (i : Instr) : Extends g st (st.addInstr i) :=
  ho.extends_onCurrent (growing_push _)

theorem Sound.close (h : Sound g st) (t : Terminator) : Sound g (st.close t) :=
  h.onCurrent (growing_close t st.pc)

theorem Open.extends_close (ho : st.Open) (t : Terminator) : Extends g st (st.close t) :=
  ho.extends_onCurrent (growing_close t st.pc)

theorem Open.addValue (ho : st.Open) (t : ValueType) (make : Reg → Instr) :
    (st.addValue t make).Open :=
  ((sameSpot_addReg t).open ho).addInstr _

theorem Sound.addValue (h : Sound g st) (t : ValueType) (make : Reg → Instr) :
    Sound g (st.addValue t make) :=
  (h.addReg t).addInstr _

theorem Open.extends_addValue (ho : st.Open) (t : ValueType) (make : Reg → Instr) :
    Extends g st (st.addValue t make) :=
  (extends_addReg t).trans (((sameSpot_addReg t).open ho).extends_addInstr _)

def Closed (g : FlowGraph) (st : EmitState) : Prop := st.Fixed g st.block

theorem Open.closed_close (ho : st.Open) (h : Sound g st)
    (ht : t ≠ .unreachable) : (st.close t).Closed g := by
  obtain ⟨blk, hblk, -⟩ := ho
  refine ⟨{ blk with terminator := t, terminatorPc := st.pc }, ?_, h.current, fun _ => ht⟩
  rw [EmitState.close, block_onCurrent]
  exact (if_pos rfl).trans (by rw [show (st.onCurrent _).block = st.block from rfl, hblk]; rfl)

/-! ## Stretches of code -/

/-- Code was added to the blocks at hand, and more can follow. -/
structure Continues (g : FlowGraph) (st st' : EmitState) : Prop where
  sound : Sound g st'
  opened : st'.Open
  later : Extends g st st'
  emitted : st'.emitted = st.emitted

/-- Code was added up to the end of a block. -/
structure Ends (g : FlowGraph) (st st' : EmitState) : Prop where
  sound : Sound g st'
  closed : st'.Closed g
  later : Extends g st st'
  emitted : st'.emitted = st.emitted

namespace Continues

variable {mid : EmitState}

theorem refl (hs : Sound g st) (ho : st.Open) : Continues g st st := ⟨hs, ho, .refl, rfl⟩

theorem of_sameSpot (h : SameSpot st st') (ho : st.Open) (hs : Sound g st')
    (he : Extends g st st') : Continues g st st' :=
  ⟨hs, h.open ho, he, h.emitted⟩

section

variable (h : Continues g st mid)

include h

theorem trans (h' : Continues g mid st') : Continues g st st' :=
  ⟨h'.sound, h'.opened, h.later.trans h'.later, h'.emitted.trans h.emitted⟩

theorem addInstr (i : Instr) : Continues g st (mid.addInstr i) :=
  ⟨h.sound.addInstr i, h.opened.addInstr i, h.later.trans (h.opened.extends_addInstr i),
    h.emitted⟩

theorem addValue (t : ValueType) (make : Reg → Instr) : Continues g st (mid.addValue t make) :=
  ⟨h.sound.addValue t make, h.opened.addValue t make,
    h.later.trans (h.opened.extends_addValue t make), h.emitted⟩

theorem close (ht : t ≠ .unreachable) : Ends g st (mid.close t) :=
  ⟨h.sound.close t, h.opened.closed_close h.sound ht, h.later.trans (h.opened.extends_close t),
    h.emitted⟩

theorem ends (h' : Ends g mid st') : Ends g st st' :=
  ⟨h'.sound, h'.closed, h.later.trans h'.later, h'.emitted.trans h.emitted⟩

end

end Continues

/-! ## New blocks -/

def nextBlock (st : EmitState) : Nat := st.function.blocks.size

def addBlock (st : EmitState) : EmitState := { st with function := st.function.addBlock.2 }

def addHandled (st : EmitState) (handler : Option BlockId) : EmitState :=
  { st with function := { st.function with blocks := st.function.blocks.push { handler } } }

theorem modify_push {α : Type} (xs : Array α) (x : α) (f : α → α) :
    (xs.push x).modify xs.size f = xs.push (f x) := by
  apply ext_getElem?
  intro b
  rw [getElem?_modify]
  split
  · rename_i h
    rw [← h, getElem?_push_size, getElem?_push_size]
    rfl
  · rename_i h
    rw [getElem?_push, getElem?_push, if_neg (Ne.symm h), if_neg (Ne.symm h)]

theorem newBlock_eq (st : EmitState) (handler : Option BlockId) :
    Emit.newBlock handler st = .ok st.nextBlock (st.addHandled handler) := by
  let build (blocks : Array Block) : EStateM.Result CompileError EmitState BlockId :=
    .ok st.nextBlock { st with function := { st.function with blocks } }
  exact congrArg build (modify_push st.function.blocks {} fun blk => { blk with handler })

theorem block_addBlock (b : BlockId) : st.addBlock.function.block? b =
      if b = st.nextBlock then some {} else st.function.block? b :=
  getElem?_push

theorem lt_nextBlock {b : Nat} (h : st.function.block? b = some blk) : b < st.nextBlock :=
  (Array.getElem?_eq_some_iff.mp h).1

theorem block_addBlock_of_some {b : BlockId} (h : st.function.block? b = some blk) :
    st.addBlock.function.block? b = some blk := by
  rw [block_addBlock, if_neg (Nat.ne_of_lt (lt_nextBlock h)), h]

theorem Sound.nextBlock_not_mem (h : Sound g st) {n : Nat} : st.nextBlock + n ∉ g.blocks := by
  intro hmem
  obtain ⟨blk, hblk, -⟩ := h.graph _ hmem
  have hlt := lt_nextBlock hblk
  omega

theorem Sound.sameSpot_addBlock (h : Sound g st) : SameSpot st st.addBlock := by
  obtain ⟨blk, hblk⟩ := h.inRange
  exact ⟨rfl, (block_addBlock_of_some hblk).trans hblk.symm, rfl⟩

theorem Sound.addBlock (h : Sound g st) : Sound g st.addBlock where
  current := h.current
  inRange := by
    obtain ⟨blk, hblk⟩ := h.inRange
    exact ⟨blk, block_addBlock_of_some hblk⟩
  handlers b blk hb := by
    rw [block_addBlock] at hb
    split at hb
    · cases hb
      rfl
    · exact h.handlers b blk hb
  graph b hb := by
    obtain ⟨blk, hblk, hrest⟩ := h.graph b hb
    exact ⟨blk, block_addBlock_of_some hblk, hrest⟩
  shaped b ps hb := by
    obtain ⟨hmem, hnodup, hlt, blk, hblk, hparams⟩ := h.shaped b ps hb
    exact ⟨hmem, hnodup, hlt, blk, block_addBlock_of_some hblk, hparams⟩

theorem extends_addBlock : Extends g st st.addBlock where
  frame := rfl
  regs _ _ h := h
  emitted _ h := h
  shapes _ _ h := h
  fixed b hb := by
    obtain ⟨blk, hblk, hrest⟩ := hb
    have hblk' := block_addBlock_of_some hblk
    exact ⟨⟨blk, hblk', hrest⟩, hblk'.trans hblk.symm⟩
  current blk hblk := ⟨blk, block_addBlock_of_some hblk, .refl _⟩
  moved := .inl rfl

/-- Ends the block with a branch to two new ones, of which the first ends at once and the second
is filled next. -/
def fork (st : EmitState) (branch failure : Terminator) : EmitState :=
  { st with
    function := { st.function with
      blocks := ((st.function.blocks.modify st.block fun blk =>
        { blk with terminator := branch, terminatorPc := st.pc }).push
          { terminator := failure, terminatorPc := st.pc }).push {} }
    block := st.nextBlock + 1 }

theorem block_fork (branch failure : Terminator) (b : Nat) :
    (st.fork branch failure).function.block? b = if b = st.nextBlock + 1 then some {}
      else if b = st.nextBlock then some { terminator := failure, terminatorPc := st.pc }
      else if st.block = b then (st.function.block? b).map fun blk =>
          { blk with terminator := branch, terminatorPc := st.pc }
      else st.function.block? b := by
  simp only [fork, Function.block?, getElem?_push, size_push, size_modify,
    getElem?_modify]
  rfl

theorem block_fork_current (h : st.function.block? st.block = some blk) :
    (st.fork branch failure).function.block? st.block =
      some { blk with terminator := branch, terminatorPc := st.pc } := by
  have hlt := lt_nextBlock h
  rw [block_fork, if_neg (Nat.ne_of_lt (Nat.lt_succ_of_lt hlt)), if_neg (Nat.ne_of_lt hlt),
    if_pos rfl, h, map_some]

theorem block_fork_of_ne {b : Nat} (h : st.function.block? b = some blk)
    (hne : b ≠ st.block) : (st.fork branch failure).function.block? b = some blk := by
  have hlt := lt_nextBlock h
  rw [block_fork, if_neg (Nat.ne_of_lt (Nat.lt_succ_of_lt hlt)), if_neg (Nat.ne_of_lt hlt),
    if_neg (Ne.symm hne), h]

theorem block_fork_failure (branch failure : Terminator) :
    (st.fork branch failure).function.block? st.nextBlock =
      some { terminator := failure, terminatorPc := st.pc } := by
  rw [block_fork, if_neg (Nat.ne_of_lt (Nat.lt_succ_self _)), if_pos rfl]

theorem block_fork_next (branch failure : Terminator) :
    (st.fork branch failure).function.block? (st.nextBlock + 1) = some {} := by
  rw [block_fork, if_pos rfl]

theorem open_fork (branch failure : Terminator) : (st.fork branch failure).Open :=
  ⟨{}, block_fork_next branch failure, rfl⟩

theorem Sound.fork (h : Sound g st) (branch failure : Terminator) :
    Sound g (st.fork branch failure) where
  current hp := h.nextBlock_not_mem hp.1
  inRange := ⟨{}, block_fork_next branch failure⟩
  handlers b blk hb := by
    rw [block_fork] at hb
    split at hb
    · cases hb
      rfl
    · split at hb
      · cases hb
        rfl
      · split at hb
        · obtain ⟨old, hold, rfl⟩ := map_eq_some_iff.mp hb
          exact h.handlers b old hold
        · exact h.handlers b blk hb
  graph b hb := by
    obtain ⟨blk, hblk, hempty, hparams⟩ := h.graph b hb
    by_cases hcur : b = st.block
    · subst hcur
      exact ⟨_, block_fork_current hblk, fun hnot => absurd ⟨hb, hnot⟩ h.current, hparams⟩
    · exact ⟨blk, block_fork_of_ne hblk hcur, hempty, hparams⟩
  shaped b ps hb := by
    obtain ⟨hmem, hnodup, hlt, blk, hblk, hparams⟩ := h.shaped b ps hb
    refine ⟨hmem, hnodup, hlt, ?_⟩
    by_cases hcur : b = st.block
    · subst hcur
      exact ⟨_, block_fork_current hblk, hparams⟩
    · exact ⟨blk, block_fork_of_ne hblk hcur, hparams⟩

theorem Open.extends_fork (ho : st.Open) (h : Sound g st) (hbranch : branch ≠ .unreachable)
    (failure : Terminator) : Extends g st (st.fork branch failure) where
  frame := rfl
  regs _ _ h := h
  emitted _ h := h
  shapes _ _ h := h
  fixed b hb := by
    have hne : b ≠ st.block := by
      rintro rfl
      exact ho.not_fixed hb
    obtain ⟨blk, hblk, hpending, -⟩ := hb
    have hlt := lt_nextBlock hblk
    have hnew : (st.fork branch failure).function.block? b = some blk := block_fork_of_ne hblk hne
    refine ⟨⟨blk, hnew, hpending, fun heq => ?_⟩, hnew.trans hblk.symm⟩
    rw [heq] at hlt
    exact absurd hlt (Nat.not_lt.mpr (Nat.le_succ _))
  current blk hblk := ⟨_, block_fork_current hblk, .refl blk.instrs⟩
  moved := by
    obtain ⟨blk, hblk⟩ := h.inRange
    exact .inr ⟨_, block_fork_current hblk, h.current, fun _ => hbranch⟩

theorem Continues.fork (hs : Sound g st) (ho : st.Open) (hbranch : branch ≠ .unreachable)
    (failure : Terminator) : Continues g st (st.fork branch failure) :=
  ⟨hs.fork _ _, open_fork _ _, ho.extends_fork hs hbranch failure, rfl⟩

end EmitState

end ManagedCore
