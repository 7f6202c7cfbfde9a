import ManagedCore.Proofs.Compile.Edges
import ManagedCore.Proofs.Compile.Outline

/-!
# Laying out edges and guards

New parameters do no harm to a block that nothing refers to yet. So the first edge into a block of
a flow graph can give it parameters, and later edges find them. A guard goes on in a block of its
own, in which everything is at hand that was at hand before.
-/

namespace ManagedCore

open List

namespace EmitState

variable {st : EmitState} {b : BlockId}

theorem block_onCurrent_self {f : Block → Block} {blk : Block}
    (h : st.function.block? st.block = some blk) :
    (st.onCurrent f).function.block? st.block = some (f blk) := by
  rw [block_onCurrent, if_pos rfl, h, Option.map_some]

theorem block_close_ne {t : Terminator} (h : b ≠ st.block) :
    (st.close t).function.block? b = st.function.block? b := by
  rw [close, block_onCurrent, if_neg (Ne.symm h)]

end EmitState

namespace Outline

open EmitState

variable {o o' : Outline} {st st' : EmitState} {b : BlockId} {blk : Block}
  {ps : List (Reg × ValueType)} {s : SymStack} {handler : Option BlockId} {base : Reg → Prop}

/-! ## Parameters -/

/-- The first edge into a block of a flow graph fixes its parameters. -/
theorem Laid.shape (h : o.Laid st) (hjoin : o.joins b) (hnone : st.shapes.lookup b = none)
    (hp : AddsParams b ps st st') :
    Proceeds o st o { st' with shapes := (b, ps) :: st'.shapes } := by
  obtain ⟨f, rfl⟩ : ∃ f, st' = { st with function := f } := ⟨_, hp.same⟩
  obtain ⟨old, hold, hparams⟩ := h.joins b hjoin hnone
  have hnew : b ∉ st.emitted := fun hmem => by
    have hsome := h.taken b hmem
    rw [hnone] at hsome
    cases hsome
  have hempty := h.pending b hjoin hnew old hold
  have htarget : f.block? b = some { old with params := ps.map (·.1) } := by
    have ht := hp.target
    rwa [hold, Option.map_some, hparams] at ht
  have hlook : ∀ c, c ≠ b → ((b, ps) :: st.shapes).lookup c = st.shapes.lookup c := by
    intro c hc
    rw [lookup_cons, beq_eq_false_iff_ne.mpr hc]
  have hshapes : ∀ c qs, st.shapes.lookup c = some qs →
      ((b, ps) :: st.shapes).lookup c = some qs := by
    intro c qs hqs
    rw [hlook c, hqs]
    rintro rfl
    rw [hnone] at hqs
    cases hqs
  have hself : ((b, ps) :: st.shapes).lookup b = some ps := lookup_cons_self
  let new : EmitState := { st with function := f, shapes := (b, ps) :: st.shapes }
  have hkeeps : Keeps o st o new :=
    { outline := .refl
      size := Nat.le_of_eq hp.blocks.symm
      regs := hp.regs
      shapes := hshapes
      emitted := fun _ hc => hc
      sites := prefix_refl _
      result := congrArg (·.function.result) hp.same
      entry := congrArg (·.function.entry) hp.same
      registry := .same
      params := fun c blk hc hshape => by
        have hne : c ≠ b := by
          rintro rfl
          have hsome := hshape hjoin
          rw [hnone] at hsome
          cases hsome
        exact ⟨blk, (hp.others c hne).trans hc, rfl⟩ }
  have hcur : st.block ≠ b := by
    rintro rfl
    exact hnew (h.current hjoin)
  have hsame : f.block? st.block = st.function.block? st.block := hp.others _ hcur
  refine ⟨⟨hkeeps, ⟨?_, ?_, ?_, ?_, ?_, h.current, ?_⟩, ?_, .inl rfl⟩, rfl, ?_, id⟩
  · intro c blk hc
    by_cases hcb : c = b
    · subst hcb
      cases htarget.symm.trans hc
      refine .empty hempty.1 hempty.2 fun x hx => ?_
      obtain ⟨hcatch, hgiven⟩ := (h.blocks c old hold).caught x hx
      refine ⟨hcatch.keep hkeeps, fun r hr => (hgiven r hr).imp id fun ha => ?_⟩
      rcases ha with hmem | ⟨j, _, hj, _⟩
      · rw [hparams] at hmem
        cases hmem
      · exact absurd hj (Nat.not_lt_zero j)
    · have hc' : st.function.block? c = some blk := (hp.others c hcb).symm.trans hc
      exact (h.blocks c blk hc').keep hkeeps (lt_nextBlock hc')
  · intro c hj hn
    have hcb : c ≠ b := by
      rintro rfl
      rw [hself] at hn
      cases hn
    rw [hlook c hcb] at hn
    obtain ⟨blk, hblk, heq⟩ := h.joins c hj hn
    exact ⟨blk, (hp.others c hcb).trans hblk, heq⟩
  · intro c qs hqs
    by_cases hcb : c = b
    · subst hcb
      cases hself.symm.trans hqs
      exact ⟨_, htarget, rfl, hp.typed⟩
    · rw [hlook c hcb] at hqs
      obtain ⟨blk, hblk, heq, htypes⟩ := h.shaped c qs hqs
      exact ⟨blk, (hp.others c hcb).trans hblk, heq, fun p hmem => hp.regs _ _ (htypes p hmem)⟩
  · intro c hj hn blk hc
    by_cases hcb : c = b
    · subst hcb
      cases htarget.symm.trans hc
      exact hempty
    · exact h.pending c hj hn blk ((hp.others c hcb).symm.trans hc)
  · intro c hc
    obtain ⟨qs, hqs⟩ := Option.isSome_iff_exists.mp (h.taken c hc)
    rw [hshapes c qs hqs]
    rfl
  · obtain ⟨cur, hblk, hroute⟩ := h.here
    exact ⟨cur, hsame.trans hblk, hroute⟩
  · intro c hc _
    refine hp.others c ?_
    rintro rfl
    exact hnew (hc.2 hjoin)
  · rintro r ⟨blk, hblk, hknown⟩
    exact ⟨blk, hsame.trans hblk, hknown⟩

/-! ## Edges -/

def Holds (o : Outline) (st : EmitState) (s : SymStack) : Prop :=
  ∀ e ∈ s, st.function.regType? e.1 = some e.2 ∧ o.Here st e.1

theorem Holds.proceed (h : o.Holds st s) (hp : Proceeds o st o' st') : o'.Holds st' s :=
  fun e he => ⟨hp.regs _ _ (h e he).1, hp.known _ (h e he).2⟩

theorem Holds.hasTypes (h : o.Holds st s) : st.function.HasTypes s.regs s.shape := by
  unfold Function.HasTypes SymStack.regs SymStack.shape
  rw [map_reverse, map_reverse, map_map, map_map]
  exact congrArg reverse (map_congr_left fun e he => (h e he).1)

/-- What the blocks of a graph are to the code that leads to them. -/
structure Graph (o : Outline) (g : FlowGraph) (base : Reg → Prop) : Prop where
  joins : ∀ b ∈ g.blocks, o.joins b
  coded : ∀ b ∈ g.blocks, o.coded b
  given : ∀ b ∈ g.blocks, o.given b = base
  behind : ∀ b ∈ g.blocks, 0 < b

theorem Laid.lead (h : o.Laid st) {g : FlowGraph} (hg : o.Graph g base)
    (hbase : ∀ r, base r → o.Here st r) (hs : o.Holds st s) (hb : b ∈ g.blocks)
    (hshape : st.shapes.lookup b = some ps) (htypes : ps.map (·.2) = s.shape) :
    o.Leads st ⟨b, s.regs⟩ := by
  obtain ⟨blk, hblk, hparams, htyped⟩ := h.shaped b ps hshape
  refine ⟨⟨blk, s.shape, hblk, hs.hasTypes, ?_⟩, ?_, ?_, fun _ => hg.coded b hb,
    hg.behind b hb⟩
  · unfold Function.HasTypes
    rw [hparams, ← htypes, map_map, map_map]
    exact map_congr_left htyped
  · intro r hr
    rw [hg.given b hb] at hr
    exact hbase r hr
  · intro _
    rw [hshape]
    rfl

theorem Laid.edge {body : Body} {target : Nat} {c : BlockCall} (h : o.Laid st)
    (hg : o.Graph body.graph base) (hbase : ∀ r, base r → o.Here st r) (hs : o.Holds st s)
    (he : Emit.edge body target s st = .ok c st') :
    Proceeds o st o st' ∧ o.Leads st' c ∧ body.graph.blockAt? target = some c.block ∧
      c.args = s.regs ∧ st'.block = st.block ∧
      st'.function.block? st.block = st.function.block? st.block := by
  obtain ⟨hb, hargs, ps, htypes, hcases⟩ := edge_cases he
  have hmem := blockAt_mem hb
  obtain ⟨b, args⟩ := c
  obtain rfl : args = s.regs := hargs
  rcases hcases with ⟨hl, rfl⟩ | ⟨hl, mid, hadds, rfl⟩
  · exact ⟨.refl h, h.lead hg hbase hs hmem hl htypes, hb, rfl, rfl, rfl⟩
  · have hstep := h.shape (hg.joins b hmem) hl hadds
    have hself : ((b, ps) :: mid.shapes).lookup b = some ps := lookup_cons_self
    have hblock : mid.block = st.block := by rw [hadds.same]
    have hcur : st.block ≠ b := by
      rintro rfl
      have hsome := h.taken _ (h.current (hg.joins _ hmem))
      rw [hl] at hsome
      cases hsome
    exact ⟨hstep, hstep.laid.lead hg (fun r hr => hstep.known r (hbase r hr)) (hs.proceed hstep)
      hmem hself htypes, hb, rfl, hblock, hadds.others _ hcur⟩

/-! ## Guards -/

theorem keeps_switchTo {pc : Nat} : Keeps o st o { st with block := b, pc } :=
  { Keeps.refl o st with outline := .refl }

theorem Laid.switchTo {pc : Nat} (h : o.Laid st) (hblk : st.function.block? b = some blk)
    (hjoin : o.joins b → b ∈ st.emitted) (hroute : o.coded b → o.route pc = blk.handler) :
    o.Laid { st with block := b, pc } :=
  { h with
    blocks := fun c blk' hc => (h.blocks c blk' hc).keep keeps_switchTo (lt_nextBlock hc)
    current := hjoin
    here := ⟨blk, hblk, hroute⟩ }

theorem Laid.currentHandler (h : o.Laid st) : ∃ handler, Emit.currentHandler st = .ok handler st ∧
    (∀ blk, st.function.block? st.block = some blk → blk.handler = handler) ∧
    (o.coded st.block → o.route st.pc = handler) ∧
    ∀ x, handler = some x → o.Catches st x ∧ ∀ r, o.given x r → o.Here st r := by
  obtain ⟨blk, hblk, hroute⟩ := h.here
  refine ⟨blk.handler, ?_, ?_, hroute, fun x hx => ?_⟩
  · change EStateM.Result.ok ((st.function.block? st.block).bind (·.handler)) st = _
    rw [hblk, Option.bind_some]
  · intro blk' hblk'
    rw [hblk, Option.some.injEq] at hblk'
    rw [hblk']
  · obtain ⟨hcatch, hgiven⟩ := (h.blocks _ blk hblk).caught x hx
    exact ⟨hcatch, fun r hr =>
      ⟨blk, hblk, (hgiven r hr).mono rfl (.refl _) (Nat.zero_le _)⟩⟩

theorem leads_nil (hblk : st.function.block? b = some blk) (hparams : blk.params = [])
    (hgiven : ∀ r, o.given b r → o.Here st r) (hjoin : ¬ o.joins b)
    (hcoded : o.coded st.block → o.coded b) (hpos : 0 < b) : o.Leads st ⟨b, []⟩ :=
  ⟨⟨blk, [], hblk, rfl, by rw [hparams]; rfl⟩, hgiven, fun hj => absurd hj hjoin, hcoded, hpos⟩

theorem Laid.addPair (h : o.Laid st)
    (hcaught : ∀ x, handler = some x → o.Catches st x ∧ ∀ r, o.given x r → o.Here st r) :
    ∃ o', Proceeds o st o' ((st.addHandled handler).addHandled handler) ∧
      ∀ b, b = st.nextBlock ∨ b = st.nextBlock + 1 →
        ((st.addHandled handler).addHandled handler).function.block? b = some { handler } ∧
        o'.given b = o.Here st ∧ ¬ o'.joins b ∧ o'.coded b = o.coded st.block := by
  have h₁ := h.addHandled (o.coded st.block) hcaught
  have hn₁ : (st.addHandled handler).nextBlock = st.nextBlock + 1 := nextBlock_addHandled
  have hcaught₁ : ∀ x, handler = some x →
      (o.add st.nextBlock (o.Here st) (o.coded st.block)).Catches (st.addHandled handler) x ∧
      ∀ r, (o.add st.nextBlock (o.Here st) (o.coded st.block)).given x r → o.Here st r := by
    intro x hx
    obtain ⟨hcatch, hgiven⟩ := hcaught x hx
    refine ⟨hcatch.keep h₁.toKeeps, fun r hr => hgiven r ?_⟩
    rwa [h₁.outline.given x hcatch.lt] at hr
  have h₂ := h₁.laid.addHandled (o.coded st.block) hcaught₁
  rw [hn₁] at h₂
  refine ⟨_, h₁.trans h₂, ?_⟩
  rintro b (rfl | rfl)
  · refine ⟨?_, by simp [add], by simp [add], by simp [add]⟩
    rw [block_addHandled, hn₁, if_neg (Nat.ne_of_lt (Nat.lt_succ_self _)), block_addHandled,
      if_pos rfl]
  · refine ⟨?_, by simp [add], by simp [add], by simp [add]⟩
    rw [block_addHandled, hn₁, if_pos rfl]

theorem guard_eq (hh : Emit.currentHandler st = .ok handler st) (cond : Reg) (raiseWhen : Bool)
    (fault : Fault) (args : List Reg) (detail : Option String) :
    ∃ t, (t = .branch cond ⟨st.nextBlock, []⟩ ⟨st.nextBlock + 1, []⟩ ∨
        t = .branch cond ⟨st.nextBlock + 1, []⟩ ⟨st.nextBlock, []⟩) ∧
      Emit.guard cond raiseWhen fault args detail st = .ok ()
        { ({ (((st.addHandled handler).addHandled handler).close t) with
          block := st.nextBlock } : EmitState).close (.raise fault args detail) with
            block := st.nextBlock + 1 } := by
  have hn : (st.addHandled handler).nextBlock = st.nextBlock + 1 := nextBlock_addHandled
  rw [Emit.guard, Emit.bind_eq hh, Emit.bind_eq (newBlock_eq st handler),
    Emit.bind_eq (newBlock_eq _ handler), hn]
  cases raiseWhen with
  | true => exact ⟨_, .inl rfl, rfl⟩
  | false => exact ⟨_, .inr rfl, rfl⟩

theorem Laid.guard (h : o.Laid st) {cond : Reg} {raiseWhen : Bool} {fault : Fault}
    {args : List Reg} {detail : Option String} (hcond : o.Here st cond)
    (hargs : ∀ r ∈ args, o.Here st r)
    (hg : Emit.guard cond raiseWhen fault args detail st = .ok () st') :
    ∃ o', Proceeds o st o' st' := by
  obtain ⟨handler, hhandler, -, hroute, hcaught⟩ := h.currentHandler
  obtain ⟨t, ht, heq⟩ := guard_eq hhandler cond raiseWhen fault args detail
  rw [heq] at hg
  obtain ⟨-, rfl⟩ := hg
  obtain ⟨o', hnew, hblocks⟩ := h.addPair hcaught
  have hlt : st.block < st.nextBlock := lt_nextBlock h.here.choose_spec.1
  have hsame : ((st.addHandled handler).addHandled handler).block = st.block := rfl
  have hpc : ((st.addHandled handler).addHandled handler).pc = st.pc := rfl
  generalize (st.addHandled handler).addHandled handler = mid at hnew hblocks hsame hpc
  have hlead : ∀ b, b = st.nextBlock ∨ b = st.nextBlock + 1 → o'.Leads mid ⟨b, []⟩ := by
    intro b hb
    obtain ⟨hblk, hgiven, hjoin, hcoded⟩ := hblocks b hb
    have hpos : 0 < b := by
      rcases hb with rfl | rfl
      · exact h.nextBlock_pos
      · exact Nat.succ_pos _
    refine leads_nil hblk rfl (fun r hr => hnew.known r (by rwa [hgiven] at hr)) hjoin
      (fun hc => ?_) hpos
    rwa [hcoded, ← hnew.outline.coded _ hlt, ← hsame]
  have hclose : Proceeds o' mid o' (mid.close t) := by
    refine hnew.laid.close ?_ ?_ ?_
    · intro r hr
      have hr : r = cond := by rcases ht with rfl | rfl <;> simpa [Terminator.uses] using hr
      exact hr ▸ hnew.known cond hcond
    · intro c hc
      obtain ⟨b, hb, rfl⟩ : ∃ b, (b = st.nextBlock ∨ b = st.nextBlock + 1) ∧ c = ⟨b, []⟩ := by
        rcases ht with rfl | rfl <;> grind [Terminator.successors]
      exact hlead b hb
    · rcases ht with rfl | rfl <;> nofun
  -- The block that fails, and then the one that goes on.
  have hcur : ∀ b, b = st.nextBlock ∨ b = st.nextBlock + 1 →
      (mid.close t).function.block? b = some { handler } := by
    intro b hb
    have hne : b ≠ mid.block := by
      rw [hsame]
      rcases hb with rfl | rfl
      · exact Nat.ne_of_gt hlt
      · exact Nat.ne_of_gt (Nat.lt_succ_of_lt hlt)
    rw [block_close_ne hne]
    exact (hblocks b hb).1
  have hroutes : ∀ b, b = st.nextBlock ∨ b = st.nextBlock + 1 → o'.coded b →
      o'.route mid.pc = handler := by
    intro b hb hc
    rw [(hblocks b hb).2.2.2] at hc
    rw [hpc, hnew.outline.route]
    exact hroute hc
  have hswitch : o'.Laid { mid.close t with block := st.nextBlock } :=
    hclose.laid.switchTo (hcur _ (.inl rfl)) (fun hj => absurd hj (hblocks _ (.inl rfl)).2.2.1)
      (hroutes _ (.inl rfl))
  have hraise : Proceeds o' { mid.close t with block := st.nextBlock } o'
      ({ mid.close t with block := st.nextBlock }.close
        (.raise fault args detail)) := by
    refine hswitch.close (fun r hr => ⟨{ handler }, hcur _ (.inl rfl), .inl ?_⟩) nofun nofun
    rw [(hblocks _ (.inl rfl)).2.1]
    exact hargs r hr
  have hok : ({ mid.close t with block := st.nextBlock }.close
      (.raise fault args detail)).function.block? (st.nextBlock + 1) = some { handler } := by
    rw [block_close_ne (Nat.succ_ne_self _)]
    exact hcur _ (.inr rfl)
  refine ⟨o', ⟨hnew.toKeeps.trans (hclose.toKeeps.trans (keeps_switchTo.trans
    (hraise.toKeeps.trans keeps_switchTo))), ?_, ?_, ?_⟩, hpc, ?_, ?_⟩
  · exact hraise.laid.switchTo hok (fun hj => absurd hj (hblocks _ (.inr rfl)).2.2.1)
      (hroutes _ (.inr rfl))
  · intro b hb hne
    calc ({ mid.close t with block := st.nextBlock }.close
          (.raise fault args detail)).function.block? b
        = (mid.close t).function.block? b := by rw [block_close_ne (Nat.ne_of_lt hb.1)]
      _ = mid.function.block? b := by rw [block_close_ne (hsame ▸ hne)]
      _ = st.function.block? b := hnew.kept b hb hne
  · exact .inr fun hb => absurd hb.1 (Nat.not_lt.mpr (Nat.le_succ _))
  · intro r hr
    refine ⟨{ handler }, hok, .inl ?_⟩
    rwa [(hblocks _ (.inr rfl)).2.1]
  · intro hc
    rwa [(hblocks _ (.inr rfl)).2.2.2]

end Outline

end ManagedCore
