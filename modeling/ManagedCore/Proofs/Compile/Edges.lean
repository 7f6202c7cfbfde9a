import ManagedCore.Proofs.Compile.Emission

/-!
# Edges, guards and starts of blocks

The first edge into a block gives it new parameters, one for each value on the stack, and every
later edge finds them there. Either way nothing changes at the place where code is being added. A
guard goes on in a block of its own, and so does emission when it takes up the next block.
-/

namespace ManagedCore

open Emit List

namespace Emit

variable {α β : Type} {st st' : EmitState} {x : Emit α} {f : α → Emit β} {a : α} {b : β}

theorem bind_ok (h : (x >>= f) st = .ok b st') :
    ∃ a mid, x st = .ok a mid ∧ f a mid = .ok b st' := by
  change EStateM.bind x f st = _ at h
  unfold EStateM.bind at h
  cases hx : x st with
  | error e s => simp [hx] at h
  | ok a s => exact ⟨a, s, rfl, by simpa [hx] using h⟩

theorem get_ok {f : EmitState → Emit β}
    (h : ((get : Emit EmitState) >>= f) st = .ok b st') : f st st = .ok b st' := h

theorem liftExcept_ok {x : Except CompileError α} (h : liftExcept x st = .ok a st') :
    x = .ok a ∧ st' = st := by
  cases x with
  | error e => cases h
  | ok b =>
    cases h
    exact ⟨rfl, rfl⟩

theorem map_ok {f : α → β} (h : (f <$> x) st = .ok b st') : ∃ a, x st = .ok a st' ∧ f a = b := by
  change EStateM.map f x st = _ at h
  unfold EStateM.map at h
  cases hx : x st with
  | error e s => simp [hx] at h
  | ok a s =>
    simp only [hx, EStateM.Result.ok.injEq] at h
    exact ⟨a, by rw [h.2], h.1⟩

theorem map_some_ok (h : (some <$> x) st = .ok (some a) st') : x st = .ok a st' := by
  obtain ⟨_, h, hsome⟩ := map_ok h
  cases hsome
  exact h

theorem bind_eq {mid : EmitState} (h : x st = .ok a mid) : (x >>= f) st = f a mid := by
  change EStateM.bind x f st = _
  simp only [EStateM.bind, h]

end Emit

namespace EmitState

variable {g : FlowGraph} {st st' : EmitState} {b : BlockId} {ps : List (Reg × ValueType)}
  {c : BlockCall} {target : Nat} {s : SymStack} {body : Body}

theorem Extends.nextReg_le (h : Extends g st st') : st.nextReg ≤ st'.nextReg := by
  rcases Nat.eq_zero_or_pos st.nextReg with hz | hpos
  · exact hz ▸ Nat.zero_le _
  · have hlt : st.nextReg - 1 < st.function.regTypes.size := Nat.sub_one_lt_of_lt hpos
    have hlast := h.regs _ _ (Array.getElem?_eq_getElem hlt)
    have hlt' : st.nextReg - 1 < st'.nextReg := (Array.getElem?_eq_some_iff.mp hlast).1
    omega

/-- A state that differs only by new parameters of one block. -/
structure AddsParams (b : BlockId) (ps : List (Reg × ValueType)) (st st' : EmitState) : Prop where
  same : st' = { st with function := { st.function with
    blocks := st'.function.blocks, regTypes := st'.function.regTypes } }
  blocks : st'.nextBlock = st.nextBlock
  others : ∀ c, c ≠ b → st'.function.block? c = st.function.block? c
  target : st'.function.block? b =
    (st.function.block? b).map fun blk => { blk with params := blk.params ++ ps.map (·.1) }
  regs : ∀ r t, st.function.regType? r = some t → st'.function.regType? r = some t
  size : st.nextReg ≤ st'.nextReg
  fresh : ∀ p ∈ ps, st.nextReg ≤ p.1 ∧ p.1 < st'.nextReg
  typed : ∀ p ∈ ps, st'.function.regType? p.1 = some p.2
  nodup : (ps.map (·.1)).Nodup

def addParam (st : EmitState) (b : BlockId) (t : ValueType) : EmitState :=
  { st.addReg t with
    function := (st.addReg t).function.modifyBlock b fun blk =>
      { blk with params := blk.params ++ [st.nextReg] } }

theorem block_addParam (b c : BlockId) (t : ValueType) : (st.addParam b t).function.block? c =
      if b = c then (st.function.block? c).map fun blk =>
        { blk with params := blk.params ++ [st.nextReg] }
      else st.function.block? c :=
  Array.getElem?_modify

theorem nextReg_addParam (b : BlockId) (t : ValueType) :
    (st.addParam b t).nextReg = st.nextReg + 1 :=
  Array.size_push _

theorem AddsParams.nil (b : BlockId) (st : EmitState) : AddsParams b [] st st where
  same := rfl
  blocks := rfl
  others _ _ := rfl
  target := by simp
  regs _ _ h := h
  size := Nat.le_refl _
  fresh := nofun
  typed := nofun
  nodup := nodup_nil

theorem regs_addParam {t u : ValueType} {r : Reg} (h : st.function.regType? r = some u) :
    (st.addParam b t).function.regType? r = some u :=
  (extends_addReg (g := ⟨[], [], []⟩) t).regs r u h

theorem AddsParams.cons {t : ValueType} (h : AddsParams b ps (st.addParam b t) st') :
    AddsParams b ((st.nextReg, t) :: ps) st st' where
  same := h.same
  blocks := h.blocks.trans Array.size_modify
  others c hc := by rw [h.others c hc, block_addParam, if_neg (Ne.symm hc)]
  target := by
    rw [h.target, block_addParam, if_pos rfl, Option.map_map]
    congr 1
    funext blk
    simp
  regs r u hr := h.regs r u (regs_addParam hr)
  size := by
    have hsize := h.size
    rw [nextReg_addParam] at hsize
    omega
  fresh p hp := by
    have hsize := h.size
    rw [nextReg_addParam] at hsize
    rcases mem_cons.mp hp with rfl | hmem
    · exact ⟨Nat.le_refl _, hsize⟩
    · have hfresh := h.fresh p hmem
      rw [nextReg_addParam] at hfresh
      exact ⟨Nat.le_of_succ_le hfresh.1, hfresh.2⟩
  typed p hp := by
    rcases mem_cons.mp hp with rfl | hmem
    · exact h.regs _ _ regType_addReg
    · exact h.typed p hmem
  nodup := by
    rw [map_cons, nodup_cons]
    refine ⟨fun hmem => ?_, h.nodup⟩
    obtain ⟨p, hp, heq⟩ := mem_map.mp hmem
    have hfresh := (h.fresh p hp).1
    rw [nextReg_addParam, heq] at hfresh
    exact absurd hfresh (Nat.not_succ_le_self _)

theorem addsParams_of_mapM {ts : List ValueType}
    (h : (ts.mapM fun t => return (← newParam b t, t)) st = .ok ps st') :
    ps.map (·.2) = ts ∧ AddsParams b ps st st' := by
  induction ts generalizing st ps with
  | nil =>
    cases h
    exact ⟨rfl, .nil b _⟩
  | cons t ts ih =>
    rw [mapM_cons] at h
    have hfirst : (do return (← newParam b t, t)) st =
        .ok (st.nextReg, t) (st.addParam b t) := rfl
    rw [Emit.bind_eq hfirst] at h
    obtain ⟨qs, mid, hqs, hrest⟩ := bind_ok h
    cases hrest
    obtain ⟨htypes, hadds⟩ := ih hqs
    exact ⟨by rw [map_cons, htypes], hadds.cons⟩

theorem AddsParams.shape (h : AddsParams b ps st st') (hs : Sound g st) (hb : b ∈ g.blocks)
    (hnone : st.shapes.lookup b = none) :
    let new : EmitState := { st' with shapes := (b, ps) :: st'.shapes }
    Sound g new ∧ Extends g st new ∧ SameSpot st new := by
  obtain ⟨hblock, hemitted, hshapes, hframe⟩ : st'.block = st.block ∧ st'.emitted = st.emitted ∧
      st'.shapes = st.shapes ∧ st'.frame = st.frame := by
    rw [h.same]
    exact ⟨rfl, rfl, rfl, rfl⟩
  obtain ⟨blk, hblk, hempty, hparams⟩ := hs.graph b hb
  obtain ⟨hnil, hpending⟩ := hparams hnone
  have htarget : st'.function.block? b = some { blk with params := ps.map (·.1) } := by
    rw [h.target, hblk, Option.map_some, hnil, nil_append]
  have hcur : st.block ≠ b := by
    rintro rfl
    exact hs.current ⟨hb, hpending⟩
  have hlookup : ∀ c, c ≠ b → ((b, ps) :: st.shapes).lookup c = st.shapes.lookup c := by
    intro c hc
    rw [lookup_cons, beq_eq_false_iff_ne.mpr hc]
  intro new
  have hspot : SameSpot st new := ⟨hblock, h.others _ hcur, hemitted⟩
  refine ⟨⟨?_, ?_, ?_, ?_, ?_⟩, ⟨hframe, h.regs, ?_, ?_, ?_, ?_, .inl hblock⟩, hspot⟩
  · rw [hspot.block]
    exact fun hp => hs.current ⟨hp.1, hemitted ▸ hp.2⟩
  · obtain ⟨old, hold⟩ := hs.inRange
    exact ⟨old, by rw [hspot.block, hspot.content, hold]⟩
  · intro c old hold
    by_cases hc : c = b
    · subst hc
      rw [htarget, Option.some.injEq] at hold
      rw [← hold]
      exact hs.handlers c blk hblk
    · rw [h.others c hc] at hold
      exact hs.handlers c old hold
  · intro c hmem
    by_cases hc : c = b
    · subst hc
      refine ⟨_, htarget, fun _ => hempty hpending, fun hlook => ?_⟩
      rw [show new.shapes.lookup c = some ps by simp [new]] at hlook
      cases hlook
    · obtain ⟨old, hold, hrest⟩ := hs.graph c hmem
      refine ⟨old, (h.others c hc).trans hold, ?_, ?_⟩
      · exact fun hnot => hrest.1 (hemitted ▸ hnot)
      · intro hlook
        rw [show new.shapes.lookup c = _ by simp only [new, hshapes]; exact hlookup c hc] at hlook
        exact ⟨(hrest.2 hlook).1, hemitted ▸ (hrest.2 hlook).2⟩
  · intro c qs hlook
    by_cases hc : c = b
    · subst hc
      cases (show new.shapes.lookup c = some ps by simp [new]).symm.trans hlook
      exact ⟨hb, h.nodup, fun p hp => (h.fresh p hp).2, _, htarget, rfl⟩
    · rw [show new.shapes.lookup c = _ by simp only [new, hshapes]; exact hlookup c hc] at hlook
      obtain ⟨hmem, hnodup, hlt, old, hold, hps⟩ := hs.shaped c qs hlook
      exact ⟨hmem, hnodup, fun p hp => Nat.lt_of_lt_of_le (hlt p hp) h.size, old,
        (h.others c hc).trans hold, hps⟩
  · exact fun c hc => hemitted.symm ▸ hc
  · intro c qs hlook
    have hc : c ≠ b := by
      rintro rfl
      rw [hnone] at hlook
      cases hlook
    simp only [new, hshapes]
    rw [hlookup c hc, hlook]
  · intro c hfixed
    have hc : c ≠ b := by
      rintro rfl
      obtain ⟨_, _, hnot, _⟩ := hfixed
      exact hnot ⟨hb, hpending⟩
    obtain ⟨old, hold, hnot, hclosed⟩ := hfixed
    refine ⟨⟨old, (h.others c hc).trans hold, ?_, fun heq => hclosed (heq.trans hblock)⟩,
      h.others c hc⟩
    exact fun hp => hnot ⟨hp.1, hemitted ▸ hp.2⟩
  · intro old hold
    exact ⟨old, hspot.content.trans hold, .refl _⟩

theorem blockAt_mem {pc : Nat} (h : g.blockAt? pc = some b) : b ∈ g.blocks := by
  obtain ⟨node, hnode, hb⟩ := Option.bind_eq_some_iff.mp h
  exact mem_filterMap.mpr ⟨node, mem_of_find?_eq_some hnode, hb⟩

structure Reaches (g : FlowGraph) (target : Nat) (s : SymStack) (c : BlockCall)
    (st : EmitState) : Prop where
  block : g.blockAt? target = some c.block
  args : c.args = s.regs
  shape : ∃ ps, st.shapes.lookup c.block = some ps ∧ ps.map (·.2) = s.shape

theorem Reaches.extend
    (h : Reaches g target s c st) (he : Extends g st st') : Reaches g target s c st' := by
  obtain ⟨ps, hlook, htypes⟩ := h.shape
  exact ⟨h.block, h.args, ps, he.shapes _ _ hlook, htypes⟩

/-- An edge finds the parameters of its block, or it is the first one and adds them. -/
theorem edge_cases (h : edge body target s st = .ok c st') :
    body.graph.blockAt? target = some c.block ∧ c.args = s.regs ∧ ∃ ps, ps.map (·.2) = s.shape ∧
        (st.shapes.lookup c.block = some ps ∧ st' = st ∨
          st.shapes.lookup c.block = none ∧ ∃ mid, AddsParams c.block ps st mid ∧
            st' = { mid with shapes := (c.block, ps) :: mid.shapes }) := by
  unfold edge at h
  cases hb : body.graph.blockAt? target with
  | none =>
    simp only [hb] at h
    cases h
  | some b =>
    simp only [hb] at h
    have h := get_ok h
    cases hl : st.shapes.lookup b with
    | some ps =>
      simp only [hl] at h
      split at h
      · cases h
      · rename_i htypes
        cases h
        exact ⟨rfl, rfl, ps, Decidable.not_not.mp htypes, .inl ⟨hl, rfl⟩⟩
    | none =>
      simp only [hl] at h
      obtain ⟨ps, mid, hps, h⟩ := bind_ok h
      obtain ⟨htypes, hadds⟩ := addsParams_of_mapM hps
      cases h
      exact ⟨rfl, rfl, ps, htypes, .inr ⟨hl, mid, hadds, rfl⟩⟩

theorem edge_ok (hs : Sound body.graph st) (h : edge body target s st = .ok c st') :
    Reaches body.graph target s c st' ∧ Sound body.graph st' ∧ Extends body.graph st st' ∧
      SameSpot st st' := by
  obtain ⟨hb, hargs, ps, htypes, ⟨hl, rfl⟩ | ⟨hl, mid, hadds, rfl⟩⟩ := edge_cases h
  · exact ⟨⟨hb, hargs, ps, hl, htypes⟩, hs, .refl, .refl⟩
  · exact ⟨⟨hb, hargs, ps, by simp, htypes⟩, hadds.shape hs (blockAt_mem hb) hl⟩

/-! ## Guards -/

theorem newBlock_none : newBlock none st = .ok st.nextBlock st.addBlock := newBlock_eq st none

theorem Sound.currentHandler (h : Sound g st) : currentHandler st = .ok none st := by
  obtain ⟨blk, hblk⟩ := h.inRange
  change EStateM.Result.ok ((st.function.block? st.block).bind (·.handler)) st = _
  rw [hblk, Option.bind_some, h.handlers _ _ hblk]

def guardBranch (st : EmitState) (cond : Reg) (raiseWhen : Bool) : Terminator :=
  if raiseWhen then .branch cond ⟨st.nextBlock, []⟩ ⟨st.nextBlock + 1, []⟩
  else .branch cond ⟨st.nextBlock + 1, []⟩ ⟨st.nextBlock, []⟩

theorem guardBranch_ne (cond : Reg) (raiseWhen : Bool) :
    st.guardBranch cond raiseWhen ≠ .unreachable := by
  cases raiseWhen <;> nofun

theorem Sound.guard (h : Sound g st) (cond : Reg) (raiseWhen : Bool) (fault : Fault)
    (args : List Reg) (detail : Option String) : Emit.guard cond raiseWhen fault args detail st =
      .ok () (st.fork (st.guardBranch cond raiseWhen) (.raise fault args detail)) := by
  have hblocks : ∀ t : Terminator, ((((st.function.blocks.push {}).push {}).modify st.block
      fun blk => { blk with terminator := t, terminatorPc := st.pc }).modify st.nextBlock
      fun blk => { blk with terminator := .raise fault args detail, terminatorPc := st.pc }) =
      (st.fork t (.raise fault args detail)).function.blocks := by
    intro t
    apply Array.ext_getElem?
    intro b
    obtain ⟨blk, hblk⟩ := h.inRange
    have hlt := lt_nextBlock hblk
    have hb := @block_fork st t (.raise fault args detail) b
    rw [Function.block?] at hb
    rw [hb]
    simp only [Array.getElem?_modify, nextBlock, Function.block?] at hlt ⊢
    grind
  have hnext : st.addBlock.nextBlock = st.nextBlock + 1 := Array.size_push _
  rw [Emit.guard, Emit.bind_eq h.currentHandler, Emit.bind_eq newBlock_none,
    Emit.bind_eq newBlock_none, hnext]
  let build (blocks : Array Block) : EStateM.Result CompileError EmitState Unit :=
    .ok () { st with function := { st.function with blocks }, block := st.nextBlock + 1 }
  cases raiseWhen with
  | true | false => exact congrArg build (hblocks _)

/-! ## Starting a block -/

def startBlock (st : EmitState) (b : BlockId) : EmitState :=
  { st with
    emitted := b :: st.emitted
    function := st.function.modifyBlock b fun blk => { blk with handler := none }
    block := b }

theorem Sound.block_startBlock (h : Sound g st) (b c : BlockId) :
    (st.startBlock b).function.block? c = st.function.block? c := by
  change (st.function.blocks.modify b _)[c]? = st.function.blocks[c]?
  rw [Array.getElem?_modify]
  split
  · cases hc : st.function.blocks[c]? with
    | none => rfl
    | some blk =>
      have hnone := h.handlers c blk hc
      rw [Option.map_some, ← hnone]
  · rfl

theorem Sound.startBlock (h : Sound g st) (hb : st.Pending g b)
    (hshape : st.shapes.lookup b = some ps) (hclosed : st.Closed g) :
    Sound g (st.startBlock b) ∧ (st.startBlock b).Open ∧ Extends g st (st.startBlock b) := by
  obtain ⟨blk, hblk, hempty, -⟩ := h.graph b hb.1
  have hsame := h.block_startBlock b
  have hpending : ∀ c, (st.startBlock b).Pending g c → st.Pending g c :=
    fun c hc => ⟨hc.1, fun hmem => hc.2 (mem_cons_of_mem _ hmem)⟩
  have hfixed : ∀ c, st.Fixed g c → (st.startBlock b).Fixed g c := by
    rintro c ⟨old, hold, hnot, -⟩
    refine ⟨old, (hsame c).trans hold, fun hp => hnot (hpending c hp), ?_⟩
    rintro rfl
    exact absurd hb hnot
  refine ⟨⟨fun hp => hp.2 mem_cons_self, ⟨blk, (hsame b).trans hblk⟩, ?_, ?_, ?_⟩,
    ⟨blk, (hsame b).trans hblk, (hempty hb.2).2⟩, rfl, fun _ _ hr => hr,
      fun c hc => mem_cons_of_mem _ hc, fun _ _ hl => hl,
      fun c hc => ⟨hfixed c hc, hsame c⟩, fun old hold => ⟨old, (hsame _).trans hold, .refl _⟩,
      .inr (hfixed _ hclosed)⟩
  · intro c old hold
    rw [hsame] at hold
    exact h.handlers c old hold
  · intro c hc
    obtain ⟨old, hold, hnew, hparams⟩ := h.graph c hc
    refine ⟨old, (hsame c).trans hold, ?_, ?_⟩
    · exact fun hnot => hnew fun hmem => hnot (mem_cons_of_mem _ hmem)
    · intro hlook
      have hne : c ≠ b := by
        rintro rfl
        rw [show (st.startBlock c).shapes.lookup c = _ from hshape] at hlook
        cases hlook
      refine ⟨(hparams hlook).1, fun hmem => ?_⟩
      rcases mem_cons.mp hmem with heq | hmem
      · exact hne heq
      · exact (hparams hlook).2 hmem
  · intro c qs hlook
    obtain ⟨hmem, hnodup, hlt, old, hold, hps⟩ := h.shaped c qs hlook
    exact ⟨hmem, hnodup, hlt, old, (hsame c).trans hold, hps⟩

end EmitState

end ManagedCore
