import ManagedCore.Proofs.Class.Growth
import ManagedCore.Proofs.Compile.Emission
import ManagedCore.Proofs.Ir.WellFormed

/-!
# Outlines of unfinished functions

While code is emitted, an outline keeps what the code itself does not say: the registers that every
way into a block has assigned, the blocks whose parameters wait for their first edge, the blocks
that hold code of instructions, and the handler that each offset of the method has. A state is laid
out when every block agrees with the outline, be it finished or not.
-/

namespace ManagedCore

open EmitState Option Array

structure Outline where
  /-- Registers that every way into the block has assigned. -/
  given : BlockId → Reg → Prop
  /-- Blocks of flow graphs, whose parameters are fixed by the first edge. -/
  joins : BlockId → Prop
  /-- Blocks with code of instructions. -/
  coded : BlockId → Prop
  /-- Handlers by offset in the method. -/
  route : Nat → Option BlockId

/-- Registers assigned by the block in front of one of its places. -/
def Block.Assigns (blk : Block) (k : Nat) (r : Reg) : Prop :=
  r ∈ blk.params ∨ ∃ j p, j < k ∧ blk.instrs[j]? = some p ∧ p.instr.dest? = some r

theorem Block.Assigns.mono {blk blk' : Block} {k k' : Nat} {r : Reg} (h : blk.Assigns k r)
    (hparams : blk'.params = blk.params) (hbegins : Begins blk.instrs blk'.instrs)
    (hle : k ≤ k') : blk'.Assigns k' r := by
  rcases h with hp | ⟨j, p, hj, hp, hr⟩
  · exact .inl (hparams.symm ▸ hp)
  · exact .inr ⟨j, p, Nat.lt_of_lt_of_le hj hle, hbegins j p hp, hr⟩

namespace Outline

variable {o o' : Outline} {st st' : EmitState} {b : BlockId} {blk : Block} {o₁ o₂ o₃ : Outline}
  {st₁ st₂ st₃ : EmitState} {f : Function} {ts : List ValueType} {rs : List Reg} {h : BlockId}
  {i : Instr}

def Known (o : Outline) (b : BlockId) (blk : Block) (k : Nat) (r : Reg) : Prop :=
  o.given b r ∨ blk.Assigns k r

/-- An edge to a block that exists, with arguments for its parameters. No edge leads back to the
entry. -/
def Edge (o : Outline) (st : EmitState) (b : BlockId) (blk : Block) (c : BlockCall) : Prop :=
  (∃ target ts, st.function.block? c.block = some target ∧ st.function.HasTypes c.args ts ∧
    st.function.HasTypes target.params ts) ∧
  (∀ r, o.given c.block r → o.Known b blk blk.instrs.size r) ∧
  (o.joins c.block → (st.shapes.lookup c.block).isSome) ∧ (o.coded b → o.coded c.block) ∧
  0 < c.block

def Catches (o : Outline) (st : EmitState) (h : BlockId) : Prop :=
  ¬ o.joins h ∧ 0 < h ∧ ∃ target r, st.function.block? h = some target ∧ target.params = [r] ∧
    st.function.regType? r = some .ref

structure BlockOk (o : Outline) (st : EmitState) (b : BlockId) (blk : Block) : Prop where
  reads : ∀ k p, blk.instrs[k]? = some p → ∀ r ∈ p.instr.uses, o.Known b blk k r
  ends : ∀ r ∈ blk.terminator.uses, o.Known b blk blk.instrs.size r
  edges : ∀ c ∈ blk.terminator.successors, o.Edge st b blk c
  caught : ∀ h, blk.handler = some h →
    o.Catches st h ∧ ∀ r, o.given h r → o.Known b blk 0 r
  results : ∀ v, blk.terminator = .result v →
    v.isSome = st.function.result.isSome ∧ ∀ r, v = some r → st.function.regType? r = st.function.result
  routed : o.coded b → (∀ p ∈ blk.instrs, o.route p.pc = blk.handler) ∧
    (blk.terminator ≠ .unreachable → o.route blk.terminatorPc = blk.handler)
  sited : ∀ p ∈ blk.instrs, ∀ site, p.instr.callSite? = some site →
    st.sites[site.number]? = some site

structure Laid (o : Outline) (st : EmitState) : Prop where
  blocks : ∀ b blk, st.function.block? b = some blk → o.BlockOk st b blk
  joins : ∀ b, o.joins b → st.shapes.lookup b = none →
    ∃ blk, st.function.block? b = some blk ∧ blk.params = []
  shaped : ∀ b ps, st.shapes.lookup b = some ps → ∃ blk, st.function.block? b = some blk ∧
    blk.params = ps.map (·.1) ∧ ∀ p ∈ ps, st.function.regType? p.1 = some p.2
  pending : ∀ b, o.joins b → b ∉ st.emitted → ∀ blk, st.function.block? b = some blk →
    blk.instrs = #[] ∧ blk.terminator = .unreachable
  taken : ∀ b ∈ st.emitted, (st.shapes.lookup b).isSome
  current : o.joins st.block → st.block ∈ st.emitted
  here : ∃ blk, st.function.block? st.block = some blk ∧
    (o.coded st.block → o.route st.pc = blk.handler)

theorem Laid.nextBlock_pos (h : o.Laid st) : 0 < st.nextBlock := by
  obtain ⟨blk, hblk, -⟩ := h.here
  exact Nat.zero_lt_of_lt (lt_nextBlock hblk)

def Here (o : Outline) (st : EmitState) (r : Reg) : Prop :=
  ∃ blk, st.function.block? st.block = some blk ∧ o.Known st.block blk blk.instrs.size r

def Settled (o : Outline) (st : EmitState) (b : BlockId) : Prop :=
  b < st.nextBlock ∧ (o.joins b → b ∈ st.emitted)

/-- The outlines differ only for blocks from `n` on. -/
structure Agrees (o o' : Outline) (n : Nat) : Prop where
  given : ∀ b, b < n → o'.given b = o.given b
  joins : ∀ b, b < n → o'.joins b = o.joins b
  coded : ∀ b, b < n → o'.coded b = o.coded b
  route : o'.route = o.route

theorem Agrees.refl {o : Outline} {n : Nat} : o.Agrees o n :=
  ⟨fun _ _ => rfl, fun _ _ => rfl, fun _ _ => rfl, rfl⟩

theorem Agrees.trans {n m : Nat} (h : o₁.Agrees o₂ n) (h' : o₂.Agrees o₃ m) (hle : n ≤ m) :
    o₁.Agrees o₃ n where
  given b hb := (h'.given b (Nat.lt_of_lt_of_le hb hle)).trans (h.given b hb)
  joins b hb := (h'.joins b (Nat.lt_of_lt_of_le hb hle)).trans (h.joins b hb)
  coded b hb := (h'.coded b (Nat.lt_of_lt_of_le hb hle)).trans (h.coded b hb)
  route := h'.route.trans h.route

/-- What was there stays as far as other blocks refer to it. -/
structure Keeps (o : Outline) (st : EmitState) (o' : Outline) (st' : EmitState) : Prop where
  outline : o.Agrees o' st.nextBlock
  size : st.nextBlock ≤ st'.nextBlock
  regs : ∀ r t, st.function.regType? r = some t → st'.function.regType? r = some t
  shapes : ∀ b ps, st.shapes.lookup b = some ps → st'.shapes.lookup b = some ps
  emitted : ∀ b ∈ st.emitted, b ∈ st'.emitted
  sites : st.sites <+: st'.sites
  result : st'.function.result = st.function.result
  entry : st'.function.entry = st.function.entry
  registry : st.registry.Grown st'.registry
  params : ∀ b blk, st.function.block? b = some blk → (o.joins b → (st.shapes.lookup b).isSome) →
    ∃ blk', st'.function.block? b = some blk' ∧ blk'.params = blk.params

/-- Code was added. -/
structure Adds (o : Outline) (st : EmitState) (o' : Outline) (st' : EmitState) : Prop
    extends Keeps o st o' st' where
  laid : o'.Laid st'
  kept : ∀ b, o.Settled st b → b ≠ st.block → st'.function.block? b = st.function.block? b
  moved : st'.block = st.block ∨ ¬ o.Settled st st'.block

/-- Code was added, and more can follow where it ends. -/
structure Proceeds (o : Outline) (st : EmitState) (o' : Outline) (st' : EmitState) : Prop
    extends Adds o st o' st' where
  pc : st'.pc = st.pc
  known : ∀ r, o.Here st r → o'.Here st' r
  coded : o.coded st.block → o'.coded st'.block

/-! ## Order -/

theorem Keeps.refl (o : Outline) (st : EmitState) : Keeps o st o st where
  outline := .refl
  size := Nat.le_refl _
  regs _ _ h := h
  shapes _ _ h := h
  emitted _ h := h
  sites := List.prefix_refl _
  result := rfl
  entry := rfl
  registry := .same
  params _ blk h _ := ⟨blk, h, rfl⟩

theorem Keeps.trans (h : Keeps o₁ st₁ o₂ st₂) (h' : Keeps o₂ st₂ o₃ st₃) : Keeps o₁ st₁ o₃ st₃ where
  outline := h.outline.trans h'.outline h.size
  size := Nat.le_trans h.size h'.size
  regs r t hr := h'.regs r t (h.regs r t hr)
  shapes b ps hb := h'.shapes b ps (h.shapes b ps hb)
  emitted b hb := h'.emitted b (h.emitted b hb)
  sites := h.sites.trans h'.sites
  result := h'.result.trans h.result
  entry := h'.entry.trans h.entry
  registry := h.registry.trans h'.registry
  params b blk hb hshape := by
    obtain ⟨blk', hblk', hparams⟩ := h.params b blk hb hshape
    have hshape' : o₂.joins b → (st₂.shapes.lookup b).isSome := by
      intro hjoin
      rw [h.outline.joins b (lt_nextBlock hb)] at hjoin
      obtain ⟨ps, hps⟩ := isSome_iff_exists.mp (hshape hjoin)
      rw [h.shapes b ps hps]
      rfl
    obtain ⟨blk'', hblk'', hparams'⟩ := h'.params b blk' hblk' hshape'
    exact ⟨blk'', hblk'', hparams'.trans hparams⟩

theorem Keeps.settled (h : Keeps o st o' st') (hb : o.Settled st b) : o'.Settled st' b := by
  refine ⟨Nat.lt_of_lt_of_le hb.1 h.size, fun hjoin => h.emitted b (hb.2 ?_)⟩
  rwa [h.outline.joins b hb.1] at hjoin

theorem Adds.trans (h : Adds o₁ st₁ o₂ st₂) (h' : Adds o₂ st₂ o₃ st₃) : Adds o₁ st₁ o₃ st₃ where
  toKeeps := h.toKeeps.trans h'.toKeeps
  laid := h'.laid
  kept b hb hne := by
    have hne' : b ≠ st₂.block := by
      rintro rfl
      rcases h.moved with hsame | hnot
      · exact hne hsame
      · exact hnot hb
    exact (h'.kept b (h.settled hb) hne').trans (h.kept b hb hne)
  moved := by
    rcases h'.moved with hsame | hnot
    · rw [hsame]
      exact h.moved
    · exact .inr fun hb => hnot (h.settled hb)

theorem Proceeds.refl (h : o.Laid st) : Proceeds o st o st where
  toKeeps := .refl o st
  laid := h
  kept _ _ _ := rfl
  moved := .inl rfl
  pc := rfl
  known _ hr := hr
  coded hc := hc

theorem Proceeds.trans (h : Proceeds o₁ st₁ o₂ st₂) (h' : Proceeds o₂ st₂ o₃ st₃) :
    Proceeds o₁ st₁ o₃ st₃ where
  toAdds := h.toAdds.trans h'.toAdds
  pc := h'.pc.trans h.pc
  known r hr := h'.known r (h.known r hr)
  coded hc := h'.coded (h.coded hc)

/-! ## Blocks that other code refers to -/

theorem hasTypes_keep {f' : Function}
    (hregs : ∀ r t, f.regType? r = some t → f'.regType? r = some t) (h : f.HasTypes rs ts) :
    f'.HasTypes rs ts := by
  unfold Function.HasTypes at h ⊢
  induction rs generalizing ts with
  | nil =>
    cases ts with
    | nil => rfl
    | cons t ts => cases h
  | cons r rs ih =>
    cases ts with
    | nil => cases h
    | cons t ts =>
      rw [List.map_cons, List.map_cons, List.cons.injEq] at h ⊢
      exact ⟨hregs r t h.1, ih h.2⟩

theorem regType_of_zip (h : f.HasTypes rs ts)
    {e : Reg × ValueType} (he : e ∈ rs.zip ts) : f.regType? e.1 = some e.2 := by
  unfold Function.HasTypes at h
  induction rs generalizing ts with
  | nil => cases he
  | cons r rs ih =>
    cases ts with
    | nil => cases he
    | cons t ts =>
      rw [List.map_cons, List.map_cons, List.cons.injEq] at h
      rcases List.mem_cons.mp he with rfl | he
      · exact h.1
      · exact ih h.2 he

theorem Edge.keep {c : BlockCall} (h : o.Edge st b blk c) (hk : Keeps o st o' st')
    (hb : b < st.nextBlock) : o'.Edge st' b blk c := by
  obtain ⟨⟨target, ts, htarget, hargs, hparams⟩, hgiven, hjoin, hcoded, hpos⟩ := h
  have hlt := lt_nextBlock htarget
  obtain ⟨target', htarget', heq⟩ := hk.params _ target htarget hjoin
  refine ⟨⟨target', ts, htarget', hasTypes_keep hk.regs hargs,
    heq ▸ hasTypes_keep hk.regs hparams⟩, ?_, ?_, ?_, hpos⟩
  · intro r hr
    rw [hk.outline.given _ hlt] at hr
    rw [Known, hk.outline.given b hb]
    exact hgiven r hr
  · intro hj
    rw [hk.outline.joins _ hlt] at hj
    obtain ⟨ps, hps⟩ := isSome_iff_exists.mp (hjoin hj)
    rw [hk.shapes _ ps hps]
    rfl
  · rw [hk.outline.coded _ hlt, hk.outline.coded b hb]
    exact hcoded

theorem Catches.keep (hc : o.Catches st h) (hk : Keeps o st o' st') : o'.Catches st' h := by
  obtain ⟨hjoin, hpos, target, r, htarget, hparams, hr⟩ := hc
  obtain ⟨target', htarget', heq⟩ := hk.params _ target htarget fun hj => absurd hj hjoin
  refine ⟨?_, hpos, target', r, htarget', heq.trans hparams, hk.regs r _ hr⟩
  rwa [hk.outline.joins _ (lt_nextBlock htarget)]

theorem Catches.lt (hc : o.Catches st h) : h < st.nextBlock := by
  obtain ⟨-, -, target, r, htarget, -⟩ := hc
  exact lt_nextBlock htarget

theorem sites_keep {sites sites' : List CallSite} {n : Nat} {site : CallSite}
    (h : sites <+: sites') (hn : sites[n]? = some site) : sites'[n]? = some site := by
  obtain ⟨tail, rfl⟩ := h
  have hlt := (List.getElem?_eq_some_iff.mp hn).1
  rw [List.getElem?_append_left hlt, hn]

theorem BlockOk.keep (h : o.BlockOk st b blk) (hk : Keeps o st o' st') (hb : b < st.nextBlock) :
    o'.BlockOk st' b blk where
  reads k p hp r hr := by
    rw [Known, hk.outline.given b hb]
    exact h.reads k p hp r hr
  ends r hr := by
    rw [Known, hk.outline.given b hb]
    exact h.ends r hr
  edges c hc := (h.edges c hc).keep hk hb
  caught x hx := by
    obtain ⟨hcatch, hgiven⟩ := h.caught x hx
    refine ⟨hcatch.keep hk, fun r hr => ?_⟩
    rw [hk.outline.given x hcatch.lt] at hr
    rw [Known, hk.outline.given b hb]
    exact hgiven r hr
  results v hv := by
    obtain ⟨hsome, htype⟩ := h.results v hv
    rw [hk.result]
    refine ⟨hsome, fun r hr => ?_⟩
    have hres : st.function.result.isSome := by
      rw [← hsome, hr]
      rfl
    obtain ⟨t, ht⟩ := isSome_iff_exists.mp hres
    rw [ht]
    exact hk.regs r t ((htype r hr).trans ht)
  routed hc := by
    rw [hk.outline.coded b hb] at hc
    rw [hk.outline.route]
    exact h.routed hc
  sited p hp site hsite := sites_keep hk.sites (h.sited p hp site hsite)

theorem BlockOk.empty (hinstrs : blk.instrs = #[]) (hend : blk.terminator = .unreachable)
    (hcaught : ∀ h, blk.handler = some h → o.Catches st h ∧ ∀ r, o.given h r → o.Known b blk 0 r) :
    o.BlockOk st b blk where
  reads k p hp := by
    rw [hinstrs] at hp
    cases hp
  ends r hr := by
    rw [hend] at hr
    cases hr
  edges c hc := by
    rw [hend] at hc
    cases hc
  caught := hcaught
  results v hv := by
    rw [hend] at hv
    cases hv
  routed _ := by
    refine ⟨fun p hp => ?_, fun hne => absurd hend hne⟩
    rw [hinstrs] at hp
    exact absurd hp (not_mem_empty p)
  sited p hp := by
    rw [hinstrs] at hp
    exact absurd hp (not_mem_empty p)

/-! ## Steps outside the code -/

theorem Laid.proceeds_same (h : o.Laid st) (hfun : st'.function = st.function)
    (hblock : st'.block = st.block) (hpc : st'.pc = st.pc) (hshapes : st'.shapes = st.shapes)
    (hemitted : st'.emitted = st.emitted) (hsites : st.sites <+: st'.sites)
    (hregistry : st.registry.Grown st'.registry) : Proceeds o st o st' := by
  have hnext : st'.nextBlock = st.nextBlock := by rw [nextBlock, hfun]; rfl
  have hkeeps : Keeps o st o st' :=
    { outline := .refl
      size := Nat.le_of_eq hnext.symm
      regs := fun r t hr => by rwa [hfun]
      shapes := fun b ps hb => by rwa [hshapes]
      emitted := fun b hb => by rwa [hemitted]
      sites := hsites
      result := by rw [hfun]
      entry := by rw [hfun]
      registry := hregistry
      params := fun b blk hb _ => ⟨blk, by rwa [hfun], rfl⟩ }
  refine ⟨⟨hkeeps, ⟨?_, ?_, ?_, ?_, ?_, ?_, ?_⟩, fun b _ _ => by rw [hfun], .inl hblock⟩, hpc, ?_, ?_⟩
  · intro b blk hb
    rw [hfun] at hb
    exact (h.blocks b blk hb).keep hkeeps (lt_nextBlock hb)
  · rw [hfun, hshapes]
    exact h.joins
  · rw [hfun, hshapes]
    exact h.shaped
  · rw [hfun, hemitted]
    exact h.pending
  · rw [hemitted, hshapes]
    exact h.taken
  · rw [hblock, hemitted]
    exact h.current
  · rw [hfun, hblock, hpc]
    exact h.here
  · intro r hr
    rwa [Here, hfun, hblock]
  · rw [hblock]
    exact id

theorem Laid.addReg (h : o.Laid st) (t : ValueType) : Proceeds o st o (st.addReg t) := by
  have hregs : ∀ r u, st.function.regType? r = some u →
      (st.addReg t).function.regType? r = some u :=
    (extends_addReg (g := ⟨[], [], []⟩) t).regs
  have hkeeps : Keeps o st o (st.addReg t) :=
    { Keeps.refl o st with
      outline := .refl
      regs := hregs }
  refine ⟨⟨hkeeps, ⟨?_, h.joins, ?_, h.pending, h.taken, h.current, h.here⟩, fun _ _ _ => rfl, .inl rfl⟩,
    rfl, fun _ hr => hr, id⟩
  · intro b blk hb
    exact (h.blocks b blk hb).keep hkeeps (lt_nextBlock hb)
  · intro b ps hps
    obtain ⟨blk, hblk, hparams, htypes⟩ := h.shaped b ps hps
    exact ⟨blk, hblk, hparams, fun p hp => hregs _ _ (htypes p hp)⟩

/-! ## Code for the current block -/

theorem Known.mono {blk' : Block} {k k' : Nat} {r : Reg} (h : o.Known b blk k r)
    (hparams : blk'.params = blk.params) (hbegins : Begins blk.instrs blk'.instrs)
    (hle : k ≤ k') : o.Known b blk' k' r :=
  h.imp id fun ha => ha.mono hparams hbegins hle

theorem size_le {is js : Array PlacedInstr} (h : Begins is js) : is.size ≤ js.size := by
  rcases Nat.eq_zero_or_pos is.size with hz | hpos
  · exact hz ▸ Nat.zero_le _
  · have hlt : is.size - 1 < is.size := Nat.sub_one_lt_of_lt hpos
    have hlast := (Array.getElem?_eq_some_iff.mp (h _ _ (Array.getElem?_eq_getElem hlt))).1
    omega

theorem params_onCurrent {f : Block → Block} (hf : Growing f)
    (h : st.function.block? b = some blk) :
    ∃ blk', (st.onCurrent f).function.block? b = some blk' ∧ blk'.params = blk.params := by
  rw [block_onCurrent]
  split
  · exact ⟨f blk, by rw [h, map_some], hf.params blk⟩
  · exact ⟨blk, h, rfl⟩

theorem keeps_onCurrent {f : Block → Block} (hf : Growing f) :
    Keeps o st o (st.onCurrent f) :=
  { Keeps.refl o st with
    outline := .refl
    size := Nat.le_of_eq size_modify.symm
    params := fun _ _ hb _ => params_onCurrent hf hb }

theorem Laid.onCurrent (h : o.Laid st) {f : Block → Block} (hf : Growing f)
    (hok : ∀ blk, st.function.block? st.block = some blk →
      o.BlockOk (st.onCurrent f) st.block blk → o.BlockOk (st.onCurrent f) st.block (f blk)) :
    Proceeds o st o (st.onCurrent f) := by
  have hkeeps : Keeps o st o (st.onCurrent f) := keeps_onCurrent hf
  obtain ⟨cur, hcur, hroute⟩ := h.here
  have hnew : (st.onCurrent f).function.block? st.block = some (f cur) := by
    rw [block_onCurrent, if_pos rfl, hcur, map_some]
  have hother : ∀ b, b ≠ st.block →
      (st.onCurrent f).function.block? b = st.function.block? b := by
    intro b hne
    rw [block_onCurrent, if_neg (Ne.symm hne)]
  refine ⟨⟨hkeeps, ⟨?_, ?_, ?_, ?_, h.taken, h.current, f cur, hnew, ?_⟩, fun b _ hne => hother b hne,
    .inl rfl⟩, rfl, ?_, id⟩
  · intro b blk hb
    by_cases hbc : b = st.block
    · subst hbc
      cases hnew.symm.trans hb
      exact hok cur hcur ((h.blocks _ cur hcur).keep hkeeps (lt_nextBlock hcur))
    · rw [hother b hbc] at hb
      exact (h.blocks b blk hb).keep hkeeps (lt_nextBlock hb)
  · intro b hjoin hnone
    obtain ⟨blk, hblk, hparams⟩ := h.joins b hjoin hnone
    obtain ⟨blk', hblk', heq⟩ := params_onCurrent hf hblk
    exact ⟨blk', hblk', heq.trans hparams⟩
  · intro b ps hps
    obtain ⟨blk, hblk, hparams, htypes⟩ := h.shaped b ps hps
    obtain ⟨blk', hblk', heq⟩ := params_onCurrent hf hblk
    exact ⟨blk', hblk', heq.trans hparams, htypes⟩
  · intro b hjoin hnot blk hb
    have hne : b ≠ st.block := by
      rintro rfl
      exact hnot (h.current hjoin)
    rw [hother b hne] at hb
    exact h.pending b hjoin hnot blk hb
  · rw [hf.handler]
    exact hroute
  · rintro r ⟨blk, hblk, hknown⟩
    cases hcur.symm.trans hblk
    exact ⟨f cur, hnew, hknown.mono (hf.params cur) (hf.instrs cur) (size_le (hf.instrs cur))⟩

theorem Laid.addInstr (h : o.Laid st) (huses : ∀ r ∈ i.uses, o.Here st r)
    (hsite : ∀ site, i.callSite? = some site → st.sites[site.number]? = some site) :
    Proceeds o st o (st.addInstr i) := by
  refine h.onCurrent (growing_push _) fun blk hblk hok => ?_
  have hpush : Begins blk.instrs (blk.instrs.push ⟨i, st.pc⟩) := .push _ _
  have hle : blk.instrs.size ≤ (blk.instrs.push ⟨i, st.pc⟩).size := size_le hpush
  have hroute : o.coded st.block → o.route st.pc = blk.handler := by
    obtain ⟨cur, hcur, hroute⟩ := h.here
    rw [hblk, some.injEq] at hcur
    exact hcur ▸ hroute
  refine ⟨?_, fun r hr => (hok.ends r hr).mono rfl hpush hle, ?_, ?_, hok.results, ?_, ?_⟩
  · intro k p hp r hr
    by_cases hk : k < blk.instrs.size
    · have hold : blk.instrs[k]? = some p := by
        rw [← hp, getElem?_push_lt hk, Array.getElem?_eq_getElem hk]
      exact (hok.reads k p hold r hr).mono rfl hpush (Nat.le_refl k)
    · have hlast : k = blk.instrs.size := by
        have hlt := (Array.getElem?_eq_some_iff.mp hp).1
        rw [size_push] at hlt
        omega
      subst hlast
      cases getElem?_push_size.symm.trans hp
      obtain ⟨cur, hcur, hknown⟩ := huses r hr
      cases hblk.symm.trans hcur
      exact hknown.mono rfl hpush (Nat.le_refl _)
  · intro c hc
    obtain ⟨htarget, hgiven, hrest⟩ := hok.edges c hc
    exact ⟨htarget, fun r hr => (hgiven r hr).mono rfl hpush hle, hrest⟩
  · intro x hx
    obtain ⟨hcatch, hgiven⟩ := hok.caught x hx
    exact ⟨hcatch, fun r hr => (hgiven r hr).mono rfl hpush (Nat.le_refl 0)⟩
  · intro hc
    obtain ⟨hinstrs, hend⟩ := hok.routed hc
    refine ⟨fun p hp => ?_, hend⟩
    rcases mem_push.mp hp with hp | rfl
    · exact hinstrs p hp
    · exact hroute hc
  · intro p hp site hs
    rcases mem_push.mp hp with hp | rfl
    · exact hok.sited p hp site hs
    · exact hsite site hs

theorem Laid.here_addInstr (h : o.Laid st) {r : Reg} (hr : i.dest? = some r) :
    o.Here (st.addInstr i) r := by
  obtain ⟨blk, hblk, -⟩ := h.here
  refine ⟨{ blk with instrs := blk.instrs.push ⟨i, st.pc⟩ }, ?_, .inr (.inr ?_)⟩
  · rw [show (st.addInstr i).block = st.block from rfl, EmitState.addInstr,
      block_onCurrent, if_pos rfl, hblk, map_some]
  · exact ⟨blk.instrs.size, ⟨i, st.pc⟩, by simp, by simp, hr⟩

def Leads (o : Outline) (st : EmitState) (c : BlockCall) : Prop :=
  (∃ target ts, st.function.block? c.block = some target ∧ st.function.HasTypes c.args ts ∧
    st.function.HasTypes target.params ts) ∧
  (∀ r, o.given c.block r → o.Here st r) ∧
  (o.joins c.block → (st.shapes.lookup c.block).isSome) ∧
  (o.coded st.block → o.coded c.block) ∧ 0 < c.block

theorem Laid.close (h : o.Laid st) {t : Terminator} (huses : ∀ r ∈ t.uses, o.Here st r)
    (hedges : ∀ c ∈ t.successors, o.Leads st c)
    (hresult : ∀ v, t = .result v → v.isSome = st.function.result.isSome ∧
      ∀ r, v = some r → st.function.regType? r = st.function.result) :
    Proceeds o st o (st.close t) := by
  refine h.onCurrent (growing_close t st.pc) fun blk hblk hok => ?_
  have hhere : ∀ r, o.Here st r → o.Known st.block blk blk.instrs.size r := by
    rintro r ⟨cur, hcur, hknown⟩
    rw [hblk, some.injEq] at hcur
    exact hcur ▸ hknown
  refine ⟨hok.reads, fun r hr => hhere r (huses r hr), ?_, hok.caught, hresult, ?_, hok.sited⟩
  · intro c hc
    obtain ⟨⟨target, ts, htarget, hargs, hparams⟩, hgiven, hrest⟩ := hedges c hc
    obtain ⟨target', htarget', heq⟩ := params_onCurrent (growing_close t st.pc) htarget
    exact ⟨⟨target', ts, htarget', hargs, heq ▸ hparams⟩, fun r hr => hhere r (hgiven r hr), hrest⟩
  · intro hc
    refine ⟨(hok.routed hc).1, fun _ => ?_⟩
    obtain ⟨cur, hcur, hroute⟩ := h.here
    rw [hblk, some.injEq] at hcur
    exact hcur ▸ hroute hc

/-! ## New blocks -/

/-- The second function has everything of the first, and possibly more blocks and registers. -/
structure Widens (f f' : Function) : Prop where
  blocks : ∀ b, b < f.blocks.size → f'.block? b = f.block? b
  size : f.blocks.size ≤ f'.blocks.size
  regs : ∀ r t, f.regType? r = some t → f'.regType? r = some t
  result : f'.result = f.result
  entry : f'.entry = f.entry

/-- New blocks without code, of which the outline has to say what it says of all blocks. -/
theorem Laid.widen (h : o.Laid st) (hf : Widens st.function f) (hagree : o.Agrees o' st.nextBlock)
    (hjoins : ∀ b, st.nextBlock ≤ b → o'.joins b → ∃ blk, f.block? b = some blk ∧ blk.params = [])
    (hnew : ∀ b blk, st.nextBlock ≤ b → f.block? b = some blk → blk.instrs = #[] ∧
      blk.terminator = .unreachable ∧ ∀ h, blk.handler = some h →
      o'.Catches { st with function := f } h ∧ ∀ r, o'.given h r → o'.given b r) :
    Proceeds o st o' { st with function := f } := by
  have hkeeps : Keeps o st o' { st with function := f } :=
    { outline := hagree
      size := hf.size
      regs := hf.regs
      shapes := fun _ _ hb => hb
      emitted := fun _ hb => hb
      sites := List.prefix_refl _
      result := hf.result
      entry := hf.entry
      registry := .same
      params := fun b blk hb _ =>
        ⟨blk, (hf.blocks b (lt_nextBlock hb)).trans hb, rfl⟩ }
  obtain ⟨cur, hcur, hroute⟩ := h.here
  have hlt := lt_nextBlock hcur
  have hcur' : f.block? st.block = some cur := (hf.blocks _ hlt).trans hcur
  refine ⟨⟨hkeeps, ⟨?_, ?_, ?_, ?_, h.taken, ?_, cur, hcur', ?_⟩, fun b hb _ => hf.blocks b hb.1,
    .inl rfl⟩, rfl, ?_, ?_⟩
  · intro b blk hb
    by_cases hlt : b < st.nextBlock
    · have hold : st.function.block? b = some blk := (hf.blocks b hlt).symm.trans hb
      exact (h.blocks b blk hold).keep hkeeps hlt
    · obtain ⟨hinstrs, hend, hcaught⟩ := hnew b blk (Nat.not_lt.mp hlt) hb
      refine .empty hinstrs hend fun x hx => ?_
      exact ⟨(hcaught x hx).1, fun r hr => .inl ((hcaught x hx).2 r hr)⟩
  · intro b hjoin hnone
    by_cases hlt : b < st.nextBlock
    · rw [hagree.joins b hlt] at hjoin
      obtain ⟨blk, hblk, hparams⟩ := h.joins b hjoin hnone
      exact ⟨blk, (hf.blocks b hlt).trans hblk, hparams⟩
    · exact hjoins b (Nat.not_lt.mp hlt) hjoin
  · intro b ps hps
    obtain ⟨blk, hblk, hparams, htypes⟩ := h.shaped b ps hps
    exact ⟨blk, (hf.blocks b (lt_nextBlock hblk)).trans hblk, hparams,
      fun p hp => hf.regs _ _ (htypes p hp)⟩
  · intro b hjoin hnot blk hb
    by_cases hlt : b < st.nextBlock
    · rw [hagree.joins b hlt] at hjoin
      exact h.pending b hjoin hnot blk ((hf.blocks b hlt).symm.trans hb)
    · obtain ⟨hinstrs, hend, -⟩ := hnew b blk (Nat.not_lt.mp hlt) hb
      exact ⟨hinstrs, hend⟩
  · rw [hagree.joins _ hlt]
    exact h.current
  · rw [hagree.coded _ hlt, hagree.route]
    exact hroute
  · rintro r ⟨blk, hblk, hknown⟩
    refine ⟨blk, (hf.blocks _ hlt).trans hblk, ?_⟩
    rwa [Known, hagree.given _ hlt]
  · rw [hagree.coded _ hlt]
    exact id

def add (o : Outline) (n : BlockId) (given : Reg → Prop) (coded : Prop) : Outline where
  given b r := if b = n then given r else o.given b r
  joins b := b ≠ n ∧ o.joins b
  coded b := if b = n then coded else o.coded b
  route := o.route

theorem agrees_add {n : Nat} {given : Reg → Prop} {coded : Prop} :
    o.Agrees (o.add n given coded) n where
  given b hb := by
    simp only [add, if_neg (Nat.ne_of_lt hb)]
  joins b hb := by simp only [add, ne_eq, Nat.ne_of_lt hb, not_false_eq_true, true_and]
  coded b hb := by simp only [add, if_neg (Nat.ne_of_lt hb)]
  route := rfl

end Outline

namespace EmitState

variable {handler : Option BlockId} {st : EmitState}

theorem block_addHandled (b : BlockId) : (st.addHandled handler).function.block? b =
      if b = st.nextBlock then some { handler } else st.function.block? b :=
  getElem?_push

theorem nextBlock_addHandled : (st.addHandled handler).nextBlock = st.nextBlock + 1 :=
  size_push _

end EmitState

namespace Outline

variable {o o' : Outline} {st st' : EmitState} {b : BlockId} {blk : Block}
  {handler : Option BlockId}

theorem widens_addHandled (handler : Option BlockId) :
    Widens st.function (st.addHandled handler).function where
  blocks b hb := by
    rw [block_addHandled]
    exact if_neg (Nat.ne_of_lt hb)
  size := by
    change st.nextBlock ≤ (st.addHandled handler).nextBlock
    rw [nextBlock_addHandled]
    exact Nat.le_succ _
  regs _ _ h := h
  result := rfl
  entry := rfl

theorem Laid.join_lt (h : o.Laid st) (hjoin : o.joins b) : b < st.nextBlock := by
  cases hl : st.shapes.lookup b with
  | none =>
    obtain ⟨blk, hblk, -⟩ := h.joins b hjoin hl
    exact lt_nextBlock hblk
  | some ps =>
    obtain ⟨blk, hblk, -⟩ := h.shaped b ps hl
    exact lt_nextBlock hblk

theorem Laid.addBlock (h : o.Laid st) {f : Function} (hf : Widens st.function f)
    (hsize : f.blocks.size = st.nextBlock + 1) {params : List Reg}
    (hblk : f.block? st.nextBlock = some { params, handler }) {given : Reg → Prop} (coded : Prop)
    (hcaught : ∀ x, handler = some x → o.Catches st x ∧ ∀ r, o.given x r → given r) :
    Proceeds o st (o.add st.nextBlock given coded) { st with function := f } := by
  refine h.widen hf agrees_add (fun b hle hjoin => ?_) fun b blk hle hb => ?_
  · exact absurd (h.join_lt hjoin.2) (Nat.not_lt.mpr hle)
  · have hlast : b = st.nextBlock := by
      have hlt : b < f.blocks.size := (Array.getElem?_eq_some_iff.mp hb).1
      rw [hsize] at hlt
      exact Nat.le_antisymm (Nat.le_of_lt_succ hlt) hle
    subst hlast
    cases hblk.symm.trans hb
    refine ⟨rfl, rfl, fun x hx => ?_⟩
    obtain ⟨⟨hjoin, hpos, target, r, htarget, hparams, hr⟩, hgiven⟩ := hcaught x hx
    have hlt := lt_nextBlock htarget
    refine ⟨⟨fun hj => hjoin hj.2, hpos, target, r, (hf.blocks x hlt).trans htarget, hparams,
      hf.regs r _ hr⟩, fun r hr => ?_⟩
    simp only [add, if_neg (Nat.ne_of_lt hlt)] at hr
    simp only [add]
    exact hgiven r hr

theorem Laid.addHandled (h : o.Laid st) {given : Reg → Prop} (coded : Prop)
    (hcaught : ∀ x, handler = some x → o.Catches st x ∧ ∀ r, o.given x r → given r) :
    Proceeds o st (o.add st.nextBlock given coded) (st.addHandled handler) :=
  h.addBlock (widens_addHandled handler) nextBlock_addHandled
    (by rw [block_addHandled, if_pos rfl]) coded hcaught

end Outline

end ManagedCore
