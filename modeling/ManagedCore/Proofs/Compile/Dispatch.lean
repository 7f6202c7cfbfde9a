import ManagedCore.Proofs.Compile.Bodies
import ManagedCore.Proofs.Compile.Regions

/-!
# Laying out flow graphs and dispatch blocks

The blocks of a graph start out empty, with the registers at hand that are at hand where the graph
is drawn.
-/

namespace ManagedCore

open EmitState Emit List Array

variable {body : Body} {st st' : EmitState} {b : BlockId} {blk : Block}

namespace Outline

variable {o o' : Outline} {st st' : EmitState}

/-! ## Graphs -/

/-- The outline with `k` blocks of a graph from `n` on, and dispatch blocks behind them. -/
def draw (o : Outline) (n k : Nat) (base : Reg → Prop) : Outline where
  given b r := if b < n then o.given b r else base r
  joins b := if b < n then o.joins b else b < n + k
  coded b := if b < n then o.coded b else b < n + k
  route := o.route

theorem agrees_draw {n k : Nat} {base : Reg → Prop} : o.Agrees (o.draw n k base) n where
  given b hb := by
    simp only [draw, if_pos hb]
  joins b hb := by simp only [draw, if_pos hb]
  coded b hb := by simp only [draw, if_pos hb]
  route := rfl

def Awaits (o : Outline) (st : EmitState) (base : Reg → Prop) (region : Region) : Prop :=
  st.function.block? region.dispatch = some { params := [region.exception] } ∧
    st.function.regType? region.exception = some .ref ∧ ¬ o.joins region.dispatch ∧
    o.given region.dispatch = base ∧ ¬ o.coded region.dispatch

theorem Laid.draw {code : Code} {g : FlowGraph} {f : Function} (h : o.Laid st)
    (hd : FlowGraph.Drawn code st.function g f) :
    ∃ o', Proceeds o st o' { st with function := f } ∧ o'.Graph g (o.Here st) ∧
      ∀ region ∈ g.regions, o'.Awaits { st with function := f } (o.Here st) region := by
  obtain ⟨k, hblocks, hdispatch⟩ := hd.blocks
  have hsize : (st.function.blocks ++ Array.replicate k ({} : Block)).size = st.nextBlock + k := by
    rw [size_append, size_replicate]
    rfl
  -- Blocks of instructions first, then those of the regions.
  have hcode : ∀ b, st.nextBlock ≤ b → b < st.nextBlock + k → f.block? b = some {} := by
    intro b hle hlt
    rw [hdispatch.block_lt (hsize ▸ hlt)]
    change (st.function.blocks ++ _)[b]? = _
    rw [Array.getElem?_append_right hle, Array.getElem?_replicate]
    exact if_pos (Nat.sub_lt_left_of_lt_add hle hlt)
  have hregion : ∀ region ∈ g.regions, st.nextBlock + k ≤ region.dispatch ∧
      f.block? region.dispatch = some { params := [region.exception] } ∧
      f.regType? region.exception = some .ref := by
    intro region hmem
    obtain ⟨i, hi⟩ := mem_iff_getElem?.mp hmem
    obtain ⟨hid, hblk, hreg⟩ := hdispatch.region hi
    refine ⟨?_, hblk, hreg⟩
    rw [hid]
    exact hsize ▸ Nat.le_add_right _ _
  have hwidens : Widens st.function f := by
    refine ⟨fun b hb => hd.block_lt hb, hd.size_le, fun r t hr => hdispatch.regType hr, ?_, ?_⟩
    · rw [hdispatch.function]
    · rw [hdispatch.function]
  refine ⟨o.draw st.nextBlock k (o.Here st), h.widen hwidens agrees_draw ?_ ?_, ?_, ?_⟩
  · intro b hle hjoin
    simp only [Outline.draw, if_neg (Nat.not_lt.mpr hle)] at hjoin
    exact ⟨{}, hcode b hle hjoin, rfl⟩
  · intro b blk hle hb
    obtain ⟨hinstrs, hend, hnone, -⟩ := hd.block_new hle hb
    exact ⟨hinstrs, hend, fun x hx => by rw [hnone] at hx; cases hx⟩
  · have hmem : ∀ b ∈ g.blocks, st.nextBlock ≤ b ∧ b < st.nextBlock + k := by
      intro b hb
      rw [hblocks] at hb
      exact mem_range'_1.mp hb
    refine ⟨fun b hb => ?_, fun b hb => ?_, fun b hb => ?_, fun b hb => ?_⟩
    · simp only [Outline.draw, if_neg (Nat.not_lt.mpr (hmem b hb).1)]
      exact (hmem b hb).2
    · simp only [Outline.draw, if_neg (Nat.not_lt.mpr (hmem b hb).1)]
      exact (hmem b hb).2
    · simp only [Outline.draw, if_neg (Nat.not_lt.mpr (hmem b hb).1)]
    · exact Nat.lt_of_lt_of_le h.nextBlock_pos (hmem b hb).1
  · intro region hmem
    obtain ⟨hle, hblk, hreg⟩ := hregion region hmem
    have hge : ¬ region.dispatch < st.nextBlock :=
      Nat.not_lt.mpr (Nat.le_trans (Nat.le_add_right _ _) hle)
    refine ⟨hblk, hreg, ?_, ?_, ?_⟩
    · simp only [Outline.draw, if_neg hge]
      exact Nat.not_lt.mpr hle
    · simp only [Outline.draw, if_neg hge]
    · simp only [Outline.draw, if_neg hge]
      exact Nat.not_lt.mpr hle

end Outline

/-! ## Handles -/

theorem Emit.poolEntry_ok {α : Type} {pc : Nat} {read : Pool → Except PoolError α}
    {a : α} (h : poolEntry body pc read st = .ok a st') :
    st' = st ∧ read (((st.registry.class? body.method.owner).map (·.pool)).getD { entries := #[] }) =
      .ok a := by
  obtain ⟨pool, mid, hpool, hrest⟩ := bind_ok h
  cases hpool
  cases hread : read (((st.registry.class? body.method.owner).map (·.pool)).getD
      { entries := #[] }) with
  | ok b =>
    rw [hread] at hrest
    cases hrest
    exact ⟨rfl, rfl⟩
  | error e =>
    rw [hread] at hrest
    cases hrest

theorem Emit.classHandle_ok {index pc : Nat} {h : Handle ClassRef}
    (hh : classHandle body index pc st = .ok h st') :
    ∃ name, st.registry.poolName? body.method.owner index = some name ∧
      st'.registry.Names h name := by
  obtain ⟨name, mid, hname, hrest⟩ := bind_ok hh
  obtain ⟨rfl, hread⟩ := poolEntry_ok hname
  refine ⟨name, ?_, ?_⟩
  · cases hc : mid.registry.class? body.method.owner with
    | none =>
      rw [hc] at hread
      cases hread
    | some c =>
      rw [hc] at hread
      rw [Registry.poolName?, hc, Option.bind_some, show c.pool.className index = .ok name from hread]
      rfl
  · obtain ⟨direct, mid', hdirect, hrest⟩ := bind_ok hrest
    split at hrest
    · obtain ⟨found, mid', hfound, hrest⟩ := bind_ok hrest
      cases found with
      | none =>
        cases hrest
        exact .inl ⟨index, rfl⟩
      | some c =>
        cases hrest
        have hloaded : mid'.registry.loaded? name = some c := by
          injection hfound with hc hmid
          rw [← hmid]
          exact Registry.loaded_lookup (Prod.ext hc rfl)
        exact (Registry.Names.grow (.inr ⟨c, rfl, hloaded⟩) (.mark _ _ .same))
    · cases hrest
      exact .inl ⟨index, rfl⟩

/-! ## Tests -/

def EmitState.tested (st : EmitState) (body : Body) (x : Reg) (cls : Handle ClassRef)
    (e : BlockCall) : EmitState :=
  { ((st.addValue .i32 (.instanceOf · x cls)).addHandled body.fallback).close
      (.branch st.nextReg e ⟨st.nextBlock, []⟩) with block := st.nextBlock }

/-- The tests of an exception against rows in order, from a block on, in blocks of their own. -/
inductive Chain (r : Registry) (body : Body) (f : Function) (x : Reg) (own : BlockId → Prop) :
    BlockId → List HandlerRow → Prop where
  | unmatched {b : BlockId} {blk : Block} : own b → f.block? b = some blk → blk.instrs = #[] →
      blk.terminator = unmatched body x → Chain r body f x own b []
  | all {b target : BlockId} {blk : Block} {row : HandlerRow} {rest : List HandlerRow} :
      own b → f.block? b = some blk → blk.instrs = #[] → row.catchType = none →
      body.graph.blockAt? row.handler = some target → blk.terminator = .jump ⟨target, [x]⟩ →
      Chain r body f x own b (row :: rest)
  | test {b target next : BlockId} {blk : Block} {row : HandlerRow} {rest : List HandlerRow}
      {index pc : Nat} {name : String} {cls : Handle ClassRef} {caught : Reg} :
      own b → f.block? b = some blk → blk.instrs = #[⟨.instanceOf caught x cls, pc⟩] →
      caught ≠ x → f.regType? caught = some .i32 → row.catchType = some index →
      r.poolName? body.method.owner index = some name → r.Names cls name →
      body.graph.blockAt? row.handler = some target →
      blk.terminator = .branch caught ⟨target, [x]⟩ ⟨next, []⟩ → Chain r body f x own next rest →
      Chain r body f x own b (row :: rest)

theorem Chain.keep {r r' : Registry} {f f' : Function} {x : Reg} {own own' : BlockId → Prop}
    {rows : List HandlerRow} (h : Chain r body f x own b rows) (hr : r.Grown r')
    (hregs : ∀ r t, f.regType? r = some t → f'.regType? r = some t)
    (hkept : ∀ c, own c → own' c ∧ f'.block? c = f.block? c) : Chain r' body f' x own' b rows := by
  induction h with
  | unmatched hown hblk hinstrs hend =>
    exact .unmatched (hkept _ hown).1 ((hkept _ hown).2.trans hblk) hinstrs hend
  | all hown hblk hinstrs hcatch hat hend =>
    exact .all (hkept _ hown).1 ((hkept _ hown).2.trans hblk) hinstrs hcatch hat hend
  | test hown hblk hinstrs hne htype hcatch hname hnames hat hend _ ih =>
    exact .test (hkept _ hown).1 ((hkept _ hown).2.trans hblk) hinstrs hne (hregs _ _ htype) hcatch
      (Registry.poolName_grow hname hr) (hnames.grow hr) hat hend ih

namespace Outline

variable {o o' : Outline} {st st' : EmitState} {body : Body} {base : Reg → Prop} {x : Reg}
  {e : BlockCall}

structure Dispatching (o : Outline) (st : EmitState) (body : Body) (base : Reg → Prop)
    (x : Reg) : Prop where
  between : o.Between st body base
  base : ∀ r, base r → o.Here st r
  plain : ¬ o.coded st.block
  exception : o.Holds st [(x, .ref)]
  blank : ∃ blk, st.function.block? st.block = some blk ∧ blk.instrs = #[]

theorem Dispatching.edge {pc : Nat} (h : o.Dispatching st body base x)
    (he : edge body pc [(x, .ref)] { st with pc := body.callPc.getD pc } = .ok e st') :
    Adds o st o st' ∧ o.Dispatching st' body base x ∧ o.Leads st' e ∧
      body.graph.blockAt? pc = some e.block ∧ e.args = [x] ∧ st'.block = st.block := by
  have hset : Adds o st o { st with pc := body.callPc.getD pc } :=
    h.between.laid.setPc fun _ _ hc => absurd hc h.plain
  have hframes := h.between.frames.keep h.between.laid hset.toKeeps
  obtain ⟨hp, hlead, hat, hargs, hblock, hsame⟩ :=
    hset.laid.edge hframes.graph h.base h.exception he
  have hadds := hset.trans hp.toAdds
  refine ⟨hadds, ?_, hlead, hat, hargs, hblock⟩
  obtain ⟨blk, hblk, hempty⟩ := h.blank
  refine ⟨⟨hadds.laid, h.between.frames.keep h.between.laid hadds.toKeeps,
    parsed_keep h.between.parsed hadds.toKeeps⟩, fun r hr => hp.known r (h.base r hr), ?_,
    fun e he => ⟨hp.regs _ _ (h.exception e he).1, hp.known _ (h.exception e he).2⟩,
    blk, ?_, hempty⟩
  · rw [hblock]
    exact h.plain
  · rw [hblock, hsame]
    exact hblk

theorem Dispatching.test (cls : Handle ClassRef)
    (h : o.Dispatching st body base x) (hlead : o.Leads st e) (hargs : e.args = [x]) :
    ∃ o', Adds o st o' (st.tested body x cls e) ∧
      o'.Dispatching (st.tested body x cls e) body base x := by
  obtain ⟨⟨hlaid, hframes, hparsed⟩, hbase, hplain, hx, -⟩ := h
  have hhere : o.Here st x := (hx _ mem_cons_self).2
  -- The test itself.
  obtain ⟨hp₁, hcaught⟩ : Proceeds o st o (st.addValue .i32 (.instanceOf · x cls)) ∧
      o.Holds (st.addValue .i32 (.instanceOf · x cls)) [(st.nextReg, .i32)] := by
    refine hlaid.addValue (fun u hu => ?_) rfl (by simp [Instr.callSite?])
    rw [mem_singleton.mp hu]
    exact hhere
  have hblock₁ : (st.addValue .i32 (.instanceOf · x cls)).block = st.block := rfl
  have hnext₁ : (st.addValue .i32 (.instanceOf · x cls)).nextBlock = st.nextBlock :=
    size_modify
  unfold tested
  generalize st.addValue .i32 (.instanceOf · x cls) = mid at *
  -- The block for what it does not catch.
  have hp₂ : Proceeds o mid (o.add mid.nextBlock (o.Here mid) False)
      (mid.addHandled body.fallback) := by
    refine hp₁.laid.addHandled False fun y hy => ?_
    obtain ⟨hcatch, hgiven⟩ := hframes.fallback y hy
    exact ⟨hcatch.keep hp₁.toKeeps, fun r hr => hp₁.known r (hbase r (hgiven r hr))⟩
  have hlt : st.block < st.nextBlock := lt_nextBlock hlaid.here.choose_spec.1
  have hp := hp₁.trans hp₂
  have hblk : (mid.addHandled body.fallback).function.block? st.nextBlock =
      some { handler := body.fallback } := by rw [block_addHandled, if_pos hnext₁.symm]
  have hblock₂ : (mid.addHandled body.fallback).block = st.block := hblock₁
  rw [hnext₁] at hp hp₂
  have hplain₂ : ¬ (o.add st.nextBlock (o.Here mid) False).coded
      (mid.addHandled body.fallback).block := by
    rw [hblock₂, hp.outline.coded _ hlt]
    exact hplain
  have hadded : (o.add st.nextBlock (o.Here mid) False).given st.nextBlock = o.Here mid := by
    simp [add]
  generalize mid.addHandled body.fallback = last at *
  have hclose : Proceeds (o.add st.nextBlock (o.Here mid) False) last
      (o.add st.nextBlock (o.Here mid) False)
      (last.close (.branch st.nextReg e ⟨st.nextBlock, []⟩)) := by
    refine hp.laid.close (fun r hr => ?_) (fun c hc => ?_) (by simp)
    · have hr : r = st.nextReg ∨ r = x := by simpa [Terminator.uses, hargs] using hr
      rcases hr with rfl | rfl
      · exact hp₂.known _ (hcaught _ mem_cons_self).2
      · exact hp.known _ hhere
    · have hc : c = e ∨ c = ⟨st.nextBlock, []⟩ := by simpa [Terminator.successors] using hc
      rcases hc with rfl | rfl
      · exact hlead.proceed hp fun hcoded => absurd hcoded hplain₂
      · refine leads_nil hblk rfl (fun r hr => hp₂.known r ?_) (by simp [add])
          (fun hcoded => absurd hcoded hplain₂) hlaid.nextBlock_pos
        rwa [hadded] at hr
  have hdone : (last.close (.branch st.nextReg e ⟨st.nextBlock, []⟩)).function.block?
      st.nextBlock = some { handler := body.fallback } := by
    rw [block_close_ne (by rw [hblock₂]; exact Nat.ne_of_gt hlt)]
    exact hblk
  have hswitch : (o.add st.nextBlock (o.Here mid) False).Laid
      { last.close (.branch st.nextReg e ⟨st.nextBlock, []⟩) with block := st.nextBlock } :=
    hclose.laid.switchTo hdone (fun hj => absurd hj (by simp [add]))
      (fun hc => absurd hc (by simp [add]))
  have hkeeps : Keeps o st (o.add st.nextBlock (o.Here mid) False)
      { last.close (.branch st.nextReg e ⟨st.nextBlock, []⟩) with block := st.nextBlock } :=
    (hp.toKeeps.trans hclose.toKeeps).trans keeps_switchTo
  have hgiven : ∀ r, o.Here mid r → (o.add st.nextBlock (o.Here mid) False).Here
      { last.close (.branch st.nextReg e ⟨st.nextBlock, []⟩) with block := st.nextBlock } r := by
    intro r hr
    refine ⟨_, hdone, .inl ?_⟩
    rw [hadded]
    exact hr
  refine ⟨_, ⟨hkeeps, hswitch, fun b hb hne => ?_, .inr fun hb => ?_⟩,
    ⟨hswitch, hframes.keep hlaid hkeeps, parsed_keep hparsed hkeeps⟩,
    fun r hr => hgiven r (hp₁.known r (hbase r hr)), by simp [add], fun p hp' => ?_,
    _, hdone, rfl⟩
  · exact (block_close_ne (by rwa [hblock₂])).trans (hp.kept b hb hne)
  · exact absurd hb.1 (Nat.lt_irrefl _)
  · exact ⟨hkeeps.regs _ _ (hx p hp').1, hgiven _ (hp₁.known _ (hx p hp').2)⟩

theorem block_tested (body : Body) (x : Reg) (cls : Handle ClassRef) (e : BlockCall)
    (h : st.function.block? st.block = some blk) (hempty : blk.instrs = #[]) :
    ∃ blk', (st.tested body x cls e).function.block? st.block = some blk' ∧
      blk'.instrs = #[⟨.instanceOf st.nextReg x cls, st.pc⟩] ∧
      blk'.terminator = .branch st.nextReg e ⟨st.nextBlock, []⟩ := by
  have hmid : (st.addValue .i32 (.instanceOf · x cls)).function.block? st.block =
      some { blk with instrs := #[⟨.instanceOf st.nextReg x cls, st.pc⟩] } := by
    have hpush : (st.addValue .i32 (.instanceOf · x cls)).function.block? st.block =
        some { blk with instrs := blk.instrs.push ⟨.instanceOf st.nextReg x cls, st.pc⟩ } :=
      @block_onCurrent_self (st.addReg .i32) _ blk h
    rwa [hempty] at hpush
  have hadded : ((st.addValue .i32 (.instanceOf · x cls)).addHandled
      body.fallback).function.block? st.block =
      some { blk with instrs := #[⟨.instanceOf st.nextReg x cls, st.pc⟩] } := by
    rw [block_addHandled, if_neg (Nat.ne_of_lt (lt_nextBlock hmid)), hmid]
  exact ⟨_, block_onCurrent_self hadded, rfl, rfl⟩

theorem Dispatching.closeUnmatched (h : o.Dispatching st body base x) :
    Proceeds o st o (st.close (unmatched body x)) := by
  obtain ⟨⟨hlaid, hframes, -⟩, hbase, hplain, hx, -⟩ := h
  obtain ⟨htype, hhere⟩ := hx _ mem_cons_self
  unfold unmatched
  split
  · rename_i outer houter
    obtain ⟨⟨hjoin, hpos, target, r, htarget, hparams, hr⟩, hgiven⟩ := hframes.fallback outer houter
    refine hlaid.close (fun u hu => ?_) (fun c hc => ?_) nofun
    · rw [mem_singleton.mp hu]
      exact hhere
    · rw [mem_singleton.mp hc]
      refine ⟨⟨target, [.ref], htarget, congrArg (· :: []) htype, ?_⟩,
        fun r hr => hbase r (hgiven r hr), fun hj => absurd hj hjoin,
        fun hcoded => absurd hcoded hplain, hpos⟩
      rw [hparams]
      exact congrArg (· :: []) hr
  · refine hlaid.close (fun u hu => ?_) nofun nofun
    rw [mem_singleton.mp hu]
    exact hhere

theorem Dispatching.same (h : o.Dispatching st body base x) (hp : Proceeds o st o st')
    (hfun : st'.function = st.function) (hblock : st'.block = st.block) :
    o.Dispatching st' body base x where
  between :=
    ⟨hp.laid, h.between.frames.keep h.between.laid hp.toKeeps, parsed_keep h.between.parsed hp.toKeeps⟩
  base r hr := hp.known r (h.base r hr)
  plain := by
    rw [hblock]
    exact h.plain
  exception := h.exception.proceed hp
  blank := by
    rw [hfun, hblock]
    exact h.blank

theorem Dispatching.rows {rows : List HandlerRow} (h : o.Dispatching st body base x)
    (hrows : dispatchRows body x rows st = .ok () st') :
    ∃ o', Adds o st o' st' ∧ Chain st'.registry body st'.function x
      (fun c => o'.Settled st' c ∧ (c = st.block ∨ st.nextBlock ≤ c)) st.block rows := by
  have hsettled : ∀ {o : Outline} {st : EmitState}, o.Laid st → o.Settled st st.block :=
    fun hlaid => ⟨lt_nextBlock hlaid.here.choose_spec.1, hlaid.current⟩
  induction rows generalizing o st with
  | nil =>
    cases hrows
    obtain ⟨blk, hblk, hempty⟩ := h.blank
    refine ⟨o, h.closeUnmatched.toAdds, .unmatched ⟨?_, .inl rfl⟩ (block_onCurrent_self hblk)
      hempty rfl⟩
    exact hsettled h.closeUnmatched.laid
  | cons row rest ih =>
    obtain ⟨_, _, hpc, hrows⟩ := bind_ok hrows
    cases hpc
    obtain ⟨e, mid, hedge, hrows⟩ := bind_ok hrows
    obtain ⟨hadds, hmid, hlead, hat, hargs, hblock⟩ := h.edge hedge
    obtain ⟨blk, hblk, hempty⟩ := hmid.blank
    obtain ⟨target, args⟩ := e
    cases hargs
    cases hcatch : row.catchType with
    | none =>
      simp only [hcatch] at hrows
      cases hrows
      have hclose : Proceeds o mid o (mid.close (.jump ⟨target, [x]⟩)) := by
        refine hmid.between.laid.close (fun u hu => ?_) (fun c hc => ?_) nofun
        · rw [mem_singleton.mp hu]
          exact (hmid.exception _ mem_cons_self).2
        · rw [mem_singleton.mp hc]
          exact hlead
      have hall := hadds.trans hclose.toAdds
      refine ⟨o, hall, ?_⟩
      rw [← hblock]
      exact .all ⟨hsettled hclose.laid, .inl rfl⟩ (block_onCurrent_self hblk) hempty hcatch hat rfl
    | some index =>
      simp only [hcatch] at hrows
      obtain ⟨cls, mid', hcls, hrows⟩ := bind_ok hrows
      obtain ⟨hfun, hcur, hpc, hshapes, hemitted, hsites, hregistry⟩ :=
        (silent_classHandle body index _).kept mid cls mid' hcls
      obtain ⟨name, hname, hnames⟩ := classHandle_ok hcls
      have hsilent := hmid.between.laid.proceeds_same hfun hcur hpc hshapes hemitted
        (hsites ▸ prefix_refl _) hregistry
      have hmid' := hmid.same hsilent hfun hcur
      have hlead' := hlead.proceed hsilent fun hcoded => hcur ▸ hcoded
      obtain ⟨o₁, hadds₁, hdisp₁⟩ := hmid'.test cls hlead' rfl
      have hrest : dispatchRows body x rest (mid'.tested body x cls ⟨target, [x]⟩) =
          .ok () st' := by
        have hvalue : value .i32 (.instanceOf · x cls) mid' =
            .ok mid'.nextReg (mid'.addValue .i32 (.instanceOf · x cls)) := rfl
        have hnext : (mid'.addValue .i32 (.instanceOf · x cls)).nextBlock = mid'.nextBlock :=
          size_modify
        rw [bind_eq hvalue, bind_eq (newBlock_eq _ body.fallback), hnext] at hrows
        exact hrows
      obtain ⟨o₂, hadds₂, hchain⟩ := ih hdisp₁ hrest
      have hall := ((hadds.trans hsilent.toAdds).trans hadds₁).trans hadds₂
      refine ⟨o₂, hall, ?_⟩
      -- The block of the test is left alone by the tests behind it.
      obtain ⟨blk', hblk', hempty'⟩ := hmid'.blank
      obtain ⟨tested, htested, hinstrs, hend⟩ := block_tested body x cls ⟨target, [x]⟩ hblk' hempty'
      have hlt := lt_nextBlock hblk'
      have hkept : st'.function.block? mid'.block = some tested := by
        refine (hadds₂.kept _ (hadds₁.settled ⟨hlt, hmid'.between.laid.current⟩) ?_).trans htested
        exact Nat.ne_of_lt hlt
      have hne : mid'.nextReg ≠ x := by
        rintro rfl
        have hreg := (hmid'.exception _ mem_cons_self).1
        exact absurd (Array.getElem?_eq_some_iff.mp hreg).1 (Nat.lt_irrefl _)
      have htype : (mid'.tested body x cls ⟨target, [x]⟩).function.regType? mid'.nextReg =
          some .i32 := getElem?_push_size
      have hgrown := (hadds₁.trans hadds₂).registry
      have hsize : st.nextBlock ≤ mid'.nextBlock := (hadds.trans hsilent.toAdds).size
      rw [← hblock, ← hcur]
      refine .test ⟨?_, .inl rfl⟩ hkept hinstrs hne (hadds₂.regs _ _ htype) hcatch
        (Registry.poolName_grow hname (hsilent.registry.trans hgrown)) (hnames.grow hgrown) hat
        hend (hchain.keep .same (fun _ _ h => h) fun c hc => ⟨⟨hc.1, .inr ?_⟩, rfl⟩)
      · exact (hadds₁.trans hadds₂).settled (hsettled hmid'.between.laid)
      · rcases hc.2 with rfl | hle
        · exact hsize
        · exact Nat.le_trans hsize (Nat.le_trans (hadds₁.size) hle)

/-! ## Regions -/

end Outline

def EmitState.turnTo (st : EmitState) (b : BlockId) (handler : Option BlockId) : EmitState :=
  { st with
    function := st.function.modifyBlock b fun blk => { blk with handler }
    block := b }

theorem EmitState.block_turnTo {handler : Option BlockId} (b c : BlockId) :
    (st.turnTo b handler).function.block? c =
      if b = c then (st.function.block? c).map fun blk => { blk with handler }
      else st.function.block? c :=
  getElem?_modify

namespace Outline

variable {o o' : Outline} {st st' : EmitState} {body : Body} {base : Reg → Prop} {x : Reg}
  {handler : Option BlockId} {region : Region}

theorem keeps_turnTo : Keeps o st o (st.turnTo b handler) :=
  { Keeps.refl o st with
    outline := .refl
    size := Nat.le_of_eq size_modify.symm
    params := fun c blk hc _ => by
      rw [block_turnTo]
      split
      · rw [hc]
        exact ⟨_, rfl, rfl⟩
      · exact ⟨blk, hc, rfl⟩ }

theorem Laid.turnTo (h : o.Laid st)
    (hblk : st.function.block? b = some blk) (hjoin : ¬ o.joins b) (hcoded : ¬ o.coded b)
    (hcaught : ∀ y, handler = some y → o.Catches st y ∧ ∀ r, o.given y r → o.given b r) :
    Fills [b] o st o (st.turnTo b handler) := by
  have hkeeps : Keeps o st o (st.turnTo b handler) := keeps_turnTo
  have hself : (st.turnTo b handler).function.block? b = some { blk with handler } := by
    rw [block_turnTo, if_pos rfl, hblk, Option.map_some]
  have hother : ∀ c, c ≠ b → (st.turnTo b handler).function.block? c = st.function.block? c := by
    intro c hc
    rw [block_turnTo, if_neg (Ne.symm hc)]
  refine ⟨hkeeps, ⟨?_, ?_, ?_, ?_, h.taken, fun hj => absurd hj hjoin,
    _, hself, fun hc => absurd hc hcoded⟩, ?_⟩
  · intro c found hc
    by_cases hcb : c = b
    · subst hcb
      cases hself.symm.trans hc
      have hok := (h.blocks c blk hblk).keep hkeeps (lt_nextBlock hblk)
      exact { hok with
        caught := fun y hy =>
          ⟨(hcaught y hy).1.keep hkeeps, fun r hr => .inl ((hcaught y hy).2 r hr)⟩
        routed := fun hc => absurd hc hcoded }
    · rw [hother c hcb] at hc
      exact (h.blocks c found hc).keep hkeeps (lt_nextBlock hc)
  · intro c hj hn
    have hcb : c ≠ b := fun heq => hjoin (heq ▸ hj)
    rw [hother c hcb]
    exact h.joins c hj hn
  · intro c qs hqs
    obtain ⟨found, hfound, heq, htypes⟩ := h.shaped c qs hqs
    obtain ⟨blk', hblk', hparams⟩ := hkeeps.params c found hfound fun _ =>
      Option.isSome_iff_exists.mpr ⟨qs, hqs⟩
    exact ⟨blk', hblk', hparams.trans heq, htypes⟩
  · intro c hj hn found hc
    have hcb : c ≠ b := fun heq => hjoin (heq ▸ hj)
    rw [hother c hcb] at hc
    exact h.pending c hj hn found hc
  · intro c _ hnot
    exact hother c fun heq => hnot (heq ▸ mem_singleton_self _)

theorem Between.dispatch (h : o.Between st body base) (hawaits : o.Awaits st base region)
    (hd : Emit.dispatch body region st = .ok () st') : ∃ o', Fills [region.dispatch] o st o' st' ∧
      Chain st'.registry body st'.function region.exception
        (fun c => o'.Settled st' c ∧ (c = region.dispatch ∨ st.nextBlock ≤ c)) region.dispatch
        (region.rows.filterMap (body.code.handlers[·]?)) := by
  obtain ⟨hblk, htype, hjoin, hgiven, hcoded⟩ := hawaits
  have hfills : Fills [region.dispatch] o st o (st.turnTo region.dispatch body.fallback) := by
    refine h.laid.turnTo hblk hjoin hcoded fun y hy => ?_
    rw [hgiven]
    exact h.frames.fallback y hy
  have hself : (st.turnTo region.dispatch body.fallback).function.block? region.dispatch =
      some { params := [region.exception], handler := body.fallback } := by
    rw [block_turnTo, if_pos rfl, hblk, Option.map_some]
  have hdisp : o.Dispatching (st.turnTo region.dispatch body.fallback) body base
      region.exception := by
    refine ⟨h.fill hfills, fun r hr => ⟨_, hself, .inl ?_⟩, hcoded, fun e he => ?_, _, hself, rfl⟩
    · change o.given region.dispatch r
      rwa [hgiven]
    · rw [mem_singleton.mp he]
      exact ⟨htype, _, hself, .inr (.inl mem_cons_self)⟩
  obtain ⟨o', hadds, hchain⟩ := hdisp.rows hd
  refine ⟨o', ⟨hfills.toKeeps.trans hadds.toKeeps, hadds.laid, fun b hb hnot => ?_⟩,
    hchain.keep .same (fun _ _ h => h) fun c hc => ⟨⟨hc.1, hc.2.imp id fun hle => ?_⟩, rfl⟩⟩
  · exact (hadds.kept b (hfills.settled hb)
      fun heq => hnot (heq ▸ mem_singleton_self _)).trans (hfills.kept b hb hnot)
  · exact Nat.le_trans hfills.size hle

theorem Awaits.keep (h : o.Awaits st base region) (hk : Keeps o st o' st')
    (hsame : o.Settled st region.dispatch →
      st'.function.block? region.dispatch = st.function.block? region.dispatch) :
    o'.Awaits st' base region := by
  obtain ⟨hblk, htype, hjoin, hgiven, hcoded⟩ := h
  have hlt := lt_nextBlock hblk
  refine ⟨(hsame ⟨hlt, fun hj => absurd hj hjoin⟩).trans hblk, hk.regs _ _ htype, ?_⟩
  rw [hk.outline.joins _ hlt, hk.outline.given _ hlt, hk.outline.coded _ hlt]
  exact ⟨hjoin, hgiven, hcoded⟩

theorem Awaits.fill {others : List BlockId} (h : o.Awaits st base region)
    (hf : Fills others o st o' st') (hnot : region.dispatch ∉ others) : o'.Awaits st' base region :=
  h.keep hf.toKeeps fun hb => hf.kept _ hb hnot

theorem Between.dispatches {regions : List Region} (h : o.Between st body base)
    (hawaits : ∀ region ∈ regions, o.Awaits st base region)
    (hnodup : (regions.map (·.dispatch)).Nodup)
    (hd : regions.forM (Emit.dispatch body) st = .ok () st') :
    ∃ o', Fills (regions.map (·.dispatch)) o st o' st' ∧ ∀ region ∈ regions,
      Chain st'.registry body st'.function region.exception (o'.Settled st') region.dispatch
        (region.rows.filterMap (body.code.handlers[·]?)) := by
  induction regions generalizing o st with
  | nil =>
    cases hd
    exact ⟨o, .refl h.laid, nofun⟩
  | cons region rest ih =>
    obtain ⟨_, mid, hmid, hrest⟩ := bind_ok hd
    obtain ⟨hfirst, hothers⟩ := forall_mem_cons.mp hawaits
    rw [map_cons, nodup_cons] at hnodup
    obtain ⟨o₁, hfills₁, hchain₁⟩ := h.dispatch hfirst hmid
    have hmore : ∀ other ∈ rest, o₁.Awaits mid base other := by
      intro other hother
      refine (hothers other hother).fill hfills₁ fun hmem => hnodup.1 ?_
      rw [← mem_singleton.mp hmem]
      exact mem_map_of_mem hother
    obtain ⟨o₂, hfills₂, hchains₂⟩ := ih (h.fill hfills₁) hmore hnodup.2 hrest
    refine ⟨o₂, hfills₁.trans hfills₂, forall_mem_cons.mpr ⟨?_, hchains₂⟩⟩
    refine hchain₁.keep hfills₂.registry hfills₂.regs fun c hc => ⟨hfills₂.settled hc.1, ?_⟩
    refine hfills₂.kept c hc.1 fun hmem => ?_
    rcases hc.2 with rfl | hle
    · exact hnodup.1 hmem
    · obtain ⟨other, hother, rfl⟩ := mem_map.mp hmem
      exact absurd (lt_nextBlock (hothers other hother).1) (Nat.not_lt.mpr hle)

theorem Between.fillBody {expand : Option Expander} (hexpand : ∀ e ∈ expand, Expands e)
    (h : o.Between st body base) (hawaits : ∀ region ∈ body.graph.regions, o.Awaits st base region)
    (hnodup : (body.graph.regions.map (·.dispatch)).Nodup)
    (hfill : fillBody expand body st = .ok () st') :
    ∃ o', Fills (body.graph.regions.map (·.dispatch)) o st o' st' ∧
      ∀ region ∈ body.graph.regions, Chain st'.registry body st'.function region.exception
        (o'.Settled st') region.dispatch (region.rows.filterMap (body.code.handlers[·]?)) := by
  obtain ⟨_, mid, hmid, hrounds⟩ := bind_ok hfill
  obtain ⟨o₁, hfills₁, hchains⟩ := h.dispatches hawaits hnodup hmid
  obtain ⟨o₂, hfills₂⟩ := (h.fill hfills₁).rounds hexpand hrounds
  refine ⟨o₂, ?_, fun region hregion => (hchains region hregion).keep hfills₂.registry hfills₂.regs
    fun c hc => ⟨hfills₂.settled hc, hfills₂.kept c hc nofun⟩⟩
  simpa using hfills₁.trans hfills₂

end Outline

end ManagedCore
