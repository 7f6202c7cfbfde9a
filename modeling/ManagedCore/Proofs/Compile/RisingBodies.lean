import ManagedCore.Proofs.Compile.Levels

/-!
# Bodies that rise

The code of a body rises from level to level. An expanded call fits between the block of the call
and the block behind it, so its levels lie there, and so on for the calls expanded inside it.
-/

namespace ManagedCore

open EmitState List

theorem EmitState.alike_addContinuation (st : EmitState) (handler : Option BlockId)
    (t : Option ValueType) : (st.addHandled handler).Alike (st.addContinuation handler t) := by
  cases t with
  | none => exact .of_same rfl rfl
  | some t => exact .addsParams (.cons (.nil st.nextBlock _))

namespace Emit

variable {caught : Prop} {body : Body} {expand : Option Expander} {st st' : EmitState}
  {height : BlockId → ℚ} {level : Nat → ℚ} {nodes : List Node} {b : BlockId}

def Climbs (caught : Prop) (e : Expander) : Prop :=
  ∀ body pc m args limit top, m.isInlinable limit → Ascends caught top (e body pc m args)

/-! ## Instructions -/

theorem ascends_invoke (hexpand : ∀ e ∈ expand, Climbs caught e) (body : Body) (pc : Nat)
    (op : Operation) (index : Nat) (s : SymStack) (top : ℚ) :
    Ascends caught top (invoke expand body pc op index s) := by
  rw [invoke_eq]
  refine .bind ((silent_poolEntry _ _ _).straight.ascends (k := 0)) fun member => ?_
  refine .bind ((silent_liftExcept _).straight.ascends (k := 0)) fun signature => ?_
  refine .bind ((wired_popArguments _ _ _ s).straight.ascends (k := 0)) fun ⟨args, s₁⟩ => ?_
  refine .bind ((straight_selectTarget _ _ _ _).ascends (k := 0)) fun ⟨single, target⟩ => ?_
  intro height st a st' hc h
  have h := get_ok h
  cases hexp : expansion? expand body single st with
  | none =>
    simp only [hexp] at h
    exact (straight_call ..).ascends (k := 1) height st a st' hc h
  | some found =>
    simp only [hexp] at h
    obtain ⟨-, he, hfits⟩ := expansion?_some hexp
    obtain ⟨v, hv, -⟩ := map_ok h
    exact hexpand _ he body pc _ args _ top (fits_ok hfits).1 height st v st' hc hv

def Progresses (caught : Prop) (body : Body) (pc : Nat) (x : Emit (Option SymStack)) : Prop :=
  ∀ height level st a st', Levels caught height st.nextBlock body level →
    Climbing caught height (level (2 * pc + 2)) st → x st = .ok a st' →
    ∃ height', Stretches height st.nextBlock height' st'.nextBlock ∧
      st'.function.Rises caught height' ∧
      (a.isSome → Climbing caught height' (level (2 * pc + 2)) st')

theorem progresses_instruction (hexpand : ∀ e ∈ expand, Climbs caught e) {i : Instruction}
    (hnext : i.pc < i.next) (s : SymStack) :
    Progresses caught body i.pc (instruction expand body i s) := by
  have hgoes : ∀ {x : Emit SymStack}, (∀ top, Ascends caught top x) →
      Progresses caught body i.pc (some <$> x) := by
    intro x hx height level st a st' hl hc h
    obtain ⟨s', hs', rfl⟩ := map_ok h
    obtain ⟨height', hstretch, hc'⟩ := hx _ height st s' st' hc hs'
    exact ⟨height', hstretch, hc'.rises, fun _ => hc'⟩
  have hform := instruction_form body i s
  change Progresses caught body i.pc ((fun e => instruction e body i s) expand)
  generalize (fun e => instruction e body i s) = x at hform ⊢
  cases hform with
  | straight hx => exact hgoes fun _ => hx.straight.ascends
  | access hx => exact hgoes fun _ => hx.wired.straight.ascends
  | invoke op index => exact hgoes (ascends_invoke hexpand _ _ _ _ s)
  | ending hx =>
    intro height level st a st' hl hc h
    obtain ⟨_, hx', rfl⟩ := map_ok h
    obtain ⟨height', hstretch, hrises⟩ := hx.closes hnext height level st st' hl hc hx'
    exact ⟨height', hstretch, hrises, nofun⟩

/-! ## Blocks -/

theorem rises_instructions (hexpand : ∀ e ∈ expand, Climbs caught e)
    {s : SymStack} (hl : Levels caught height st.nextBlock body level)
    (hnodes : nodes <:+ body.graph.nodes) (hne : nodes ≠ [])
    (hc : ∀ node ∈ nodes.head?, Climbing caught height (level (2 * node.instr.pc + 2)) st)
    (h : instructions expand body nodes s st = .ok () st') :
    ∃ height', Stretches height st.nextBlock height' st'.nextBlock ∧
      st'.function.Rises caught height' := by
  induction nodes generalizing s st height with
  | nil => exact absurd rfl hne
  | cons node rest ih =>
    obtain ⟨_, _, hpc, h⟩ := bind_ok h
    cases hpc
    obtain ⟨s', mid, hmid, h⟩ := bind_ok h
    obtain ⟨height₁, hstretch₁, hrises₁, hgoes⟩ := progresses_instruction hexpand
      (hl.lt_next (hnodes.subset (by simp))) s height level
      { st with pc := body.callPc.getD node.instr.pc } s' mid hl
      ((hc node rfl).alike (.of_same rfl rfl)) hmid
    cases s' with
    | none =>
      cases h
      exact ⟨height₁, hstretch₁, hrises₁⟩
    | some s' =>
      have hc₁ := hgoes rfl
      have hl₁ := hl.stretch hstretch₁
      cases rest with
      | nil => cases h
      | cons next rest =>
        have hlt := hl.lt_following hnodes
        dsimp only at h
        split at h
        · obtain ⟨c, mid', hedge, h⟩ := bind_ok h
          obtain ⟨halike, hup⟩ := hc₁.edge hl₁ (.inr hlt) hedge
          obtain ⟨hstretch₂, hrises₂⟩ := rises_terminate (hc₁.alike halike).rises
            (by simpa [Terminator.successors] using hup) h
          exact ⟨height₁, hstretch₁.trans (halike.size ▸ hstretch₂), hrises₂⟩
        · obtain ⟨height₂, hstretch₂, hrises₂⟩ := ih hl₁ ((suffix_cons node _).trans hnodes)
            (cons_ne_nil _ _)
            (fun _ hhead => Option.some.inj hhead ▸ hc₁.mono (hl.mono.monotone (by omega))) h
          exact ⟨height₂, hstretch₁.trans hstretch₂, hrises₂⟩

theorem rises_takeUp {handler : Option BlockId} {pc : Nat} (hr : st.function.Rises caught height)
    (hx : caught → ∀ x, handler = some x → x < st.nextBlock ∧ height b < height x) :
    (st.takeUp b handler pc).function.Rises caught height := by
  intro c blk hc
  change blk.Rises caught height (st.takeUp b handler pc).nextBlock c
  rw [nextBlock_takeUp]
  rw [block_takeUp] at hc
  split at hc
  · rename_i hcb
    subst hcb
    obtain ⟨old, hold, rfl⟩ := Option.map_eq_some_iff.mp hc
    exact ⟨(hr b old hold).successors, hx⟩
  · exact hr c blk hc

theorem rises_block (hexpand : ∀ e ∈ expand, Climbs caught e) {node : Node} {rest : List Node}
    {ps : List (Reg × ValueType)}
    (hl : Levels caught height st.nextBlock body level) (hr : st.function.Rises caught height)
    (hnodes : node :: rest <:+ body.graph.nodes) (hb : node.block = some b)
    (h : block expand body (node :: rest) node.instr.pc b ps st = .ok () st') :
    ∃ height', Stretches height st.nextBlock height' st'.nextBlock ∧
      st'.function.Rises caught height' := by
  have hnode : node ∈ body.graph.nodes := hnodes.subset mem_cons_self
  obtain ⟨hlt, heq⟩ := hl.starts node hnode b hb
  let new := st.takeUp b (handlerFor body node.instr.pc) st.pc
  have hsize : new.nextBlock = st.nextBlock := nextBlock_takeUp
  have hc : Climbing caught height (level (2 * node.instr.pc + 2)) new := by
    refine ⟨rises_takeUp hr fun hcaught x hx => heq ▸ hl.handlerFor hcaught hnode hx, ?_, ?_⟩
    · rw [hsize]
      exact hlt
    · change height b < _
      rw [heq]
      exact hl.mono (Nat.lt_succ_self _)
  have hinstrs : instructions expand body (node :: rest) ps.reverse new = .ok () st' := h
  rw [← hsize]
  exact rises_instructions hexpand (hsize ▸ hl) hnodes (cons_ne_nil _ _)
    (fun _ hhead => Option.some.inj hhead ▸ hc) hinstrs

def Fills {α : Type} (caught : Prop) (body : Body) (x : Emit α) : Prop :=
  ∀ height level st a st', Levels caught height st.nextBlock body level →
    st.function.Rises caught height → x st = .ok a st' →
    ∃ height', Stretches height st.nextBlock height' st'.nextBlock ∧
      st'.function.Rises caught height'

theorem Fills.pure {α : Type} (a : α) : Fills caught body (pure a) := by
  intro height level st a st' hl hr h
  cases h
  exact ⟨height, .refl _ _, hr⟩

theorem Fills.bind {α β : Type} {x : Emit α} {f : α → Emit β} (hx : Fills caught body x)
    (hf : ∀ a, Fills caught body (f a)) : Fills caught body (x >>= f) := by
  intro height level st b st' hl hr h
  obtain ⟨a, mid, hmid, h⟩ := bind_ok h
  obtain ⟨height₁, hstretch₁, hr₁⟩ := hx height level st a mid hl hr hmid
  obtain ⟨height₂, hstretch₂, hr₂⟩ := hf a height₁ level mid b st' (hl.stretch hstretch₁) hr₁ h
  exact ⟨height₂, hstretch₁.trans hstretch₂, hr₂⟩

theorem fills_round (hexpand : ∀ e ∈ expand, Climbs caught e)
    (hnodes : nodes <:+ body.graph.nodes) : Fills caught body (round expand body nodes) := by
  induction nodes with
  | nil => exact .pure false
  | cons node rest ih =>
    have ih := ih ((suffix_cons node rest).trans hnodes)
    intro height level st more st' hl hr h
    rcases round_cons h with ⟨b, ps, mid, _, hb, -, -, hblock, hround, -⟩ | ⟨-, h⟩
    · obtain ⟨height₁, hstretch₁, hr₁⟩ := rises_block hexpand hl hr hnodes hb hblock
      obtain ⟨height₂, hstretch₂, hr₂⟩ := ih _ _ _ _ _ (hl.stretch hstretch₁) hr₁ hround
      exact ⟨height₂, hstretch₁.trans hstretch₂, hr₂⟩
    · exact ih _ _ _ _ _ hl hr h

theorem fills_rounds (hexpand : ∀ e ∈ expand, Climbs caught e) (fuel : Nat) :
    Fills caught body (rounds expand body fuel) := by
  induction fuel with
  | zero => exact .pure ()
  | succ fuel ih =>
    refine .bind (fills_round hexpand (suffix_refl _)) fun more => ?_
    cases more with
    | false => exact .pure ()
    | true => exact ih

/-! ## Exceptions -/

theorem rises_dispatchRows {x : Reg} {top : ℚ} {rows : List HandlerRow}
    (hl : Levels caught height st.nextBlock body level) (hregions : body.graph.regions ≠ [])
    (hc : Climbing caught height top st) (htop : ∃ i, top ≤ level i)
    (hrows : ∀ row ∈ rows, top ≤ level (2 * row.handler + 1))
    (h : dispatchRows body x rows st = .ok () st') :
    ∃ height', Stretches height st.nextBlock height' st'.nextBlock ∧
      st'.function.Rises caught height' := by
  obtain ⟨last, hlast⟩ := htop
  induction rows generalizing st height with
  | nil =>
    refine ⟨height, rises_terminate hc.rises (fun c hmem => ?_) h⟩
    unfold unmatched at hmem
    split at hmem
    · rename_i outer houter
      obtain ⟨hlt, habove⟩ := hl.fallback (.inr hregions) outer houter
      rw [mem_singleton.mp hmem]
      exact ⟨hlt, .inr ((hc.below.trans_le hlast).trans (habove last))⟩
    · cases hmem
  | cons row rest ih =>
    obtain ⟨_, _, hpc, h⟩ := bind_ok h
    cases hpc
    obtain ⟨e, st₁, hedge, h⟩ := bind_ok h
    have halike₀ : st.Alike { st with pc := body.callPc.getD row.handler } := .of_same rfl rfl
    obtain ⟨halike, hup⟩ := (hc.alike halike₀).edgeAbove hl (.inr (hrows row (by simp))) hedge
    have hc₁ := (hc.alike halike₀).alike halike
    have hl₁ : Levels caught height st₁.nextBlock body level := halike.size ▸ hl
    cases hcatch : row.catchType with
    | none =>
      simp only [hcatch] at h
      obtain ⟨hstretch, hrises⟩ := rises_terminate hc₁.rises
        (by simpa [Terminator.successors] using hup) h
      exact ⟨height, halike.size ▸ hstretch, hrises⟩
    | some index =>
      simp only [hcatch] at h
      obtain ⟨cls, st₂, hcls, h⟩ := bind_ok h
      obtain ⟨hfun, hcur, -⟩ := (silent_classHandle body index _).kept st₁ cls st₂ hcls
      have halike₂ : st₁.Alike st₂ := .of_same hfun hcur
      obtain ⟨matched, st₃, hvalue, h⟩ := bind_ok h
      have halike₃ : st₂.Alike st₃ := by
        cases hvalue
        exact (Alike.addReg st₂ .i32).trans (.addInstr _ _)
      have halike' := halike₂.trans halike₃
      have hc₃ := hc₁.alike halike'
      have hl₃ : Levels caught height st₃.nextBlock body level := halike'.size ▸ hl₁
      have hup₃ := hup.alike halike'
      rw [bind_eq (newBlock_eq st₃ body.fallback)] at h
      -- The block for what the row does not catch lies between the test and the handlers.
      obtain ⟨z, hlow, hhigh⟩ := exists_between hc₃.below
      have hstretch := Stretches.update height st₃.nextBlock z
      obtain ⟨hadd, hnew, hkeep⟩ := hc₃.addHandled hlow fun _ y hy => by
        obtain ⟨hlt, habove⟩ := hl₃.fallback (.inr hregions) y hy
        exact ⟨hlt, (hhigh.trans_le hlast).trans (habove last)⟩
      obtain ⟨_, st₄, hclose, h⟩ := bind_ok h
      obtain ⟨hstretch₄, hrises₄⟩ := rises_terminate hadd.rises
        (by simpa [Terminator.successors] using ⟨hkeep _ hup₃, hnew []⟩) hclose
      rw [nextBlock_addHandled] at hstretch₄
      have hall := hstretch.trans hstretch₄
      have hnext : st₃.nextBlock < st₄.nextBlock :=
        Nat.lt_of_lt_of_le (Nat.lt_succ_self _) hstretch₄.size
      obtain ⟨_, _, hswitch, h⟩ := bind_ok h
      cases hswitch
      have hc₄ : Climbing caught (Function.update height st₃.nextBlock z) top
          { st₄ with block := st₃.nextBlock } := ⟨hrises₄, hnext, by rwa [Function.update_self]⟩
      obtain ⟨height', hstretch', hrises'⟩ := ih (show Levels caught _
        { st₄ with block := st₃.nextBlock }.nextBlock body level from
          hl₃.stretch hall) hc₄ (fun r hr => hrows r (by simp [hr])) h
      refine ⟨height', ?_, hrises'⟩
      have hsize : st₃.nextBlock = st.nextBlock := (halike.trans halike').size
      rw [← hsize]
      exact hall.trans hstretch'

theorem fills_dispatch {region : Region} (hregion : region ∈ body.graph.regions) :
    Fills caught body (dispatch body region) := by
  intro height level st _ st' hl hr h
  obtain ⟨hlt, first, heq, hrows, -⟩ := hl.regions region hregion
  let new := st.turnTo region.dispatch body.fallback
  have hsize : new.nextBlock = st.nextBlock := Array.size_modify
  have hne : body.graph.regions ≠ [] := ne_nil_of_mem hregion
  have hc : Climbing caught height (level (2 * first + 1)) new := by
    have hrises : (st.takeUp region.dispatch body.fallback st.pc).function.Rises caught height :=
      rises_takeUp hr fun _ x hx => by
        obtain ⟨hlt', habove⟩ := hl.fallback (.inr hne) x hx
        exact ⟨hlt', heq ▸ habove _⟩
    refine ⟨hrises, ?_, ?_⟩
    · rw [hsize]
      exact hlt
    · change height region.dispatch < _
      rw [heq]
      exact hl.mono (Nat.lt_succ_self _)
  rw [← hsize]
  refine rises_dispatchRows (hsize ▸ hl) hne hc ⟨_, le_rfl⟩ (fun row hrow => ?_) h
  have hle := hrows row hrow
  exact hl.mono.monotone (by omega)

theorem fills_fillBody (hexpand : ∀ e ∈ expand, Climbs caught e) :
    Fills caught body (fillBody expand body) := by
  have hdispatches : ∀ regions : List Region, (∀ region ∈ regions, region ∈ body.graph.regions) →
      Fills caught body (regions.forM (dispatch body)) := by
    intro regions hregions
    induction regions with
    | nil => exact .pure ()
    | cons region rest ih =>
      obtain ⟨hregion, hrest⟩ := forall_mem_cons.mp hregions
      exact .bind (fills_dispatch hregion) fun _ => ih hrest
  exact .bind (hdispatches _ fun _ => id) fun _ => fills_rounds hexpand _

/-! ## Expanded calls -/

theorem rises_enterBody {body : Body} (hl : Levels caught height st.nextBlock body level)
    (hc : Climbing caught height (level 1) st) (h : enterBody body st = .ok () st') :
    Stretches height st.nextBlock height st'.nextBlock ∧ st'.function.Rises caught height := by
  obtain ⟨c, mid, hedge, h⟩ := bind_ok h
  obtain ⟨halike, hup⟩ := hc.edgeAbove hl (.inr le_rfl) hedge
  obtain ⟨hstretch, hrises⟩ := rises_terminate (hc.alike halike).rises
    (by simpa [Terminator.successors] using hup) h
  exact ⟨halike.size ▸ hstretch, hrises⟩

/-- An expanded body lies between the call and the block behind it. -/
theorem climbs_expandCall {inner : Option Expander} (hinner : ∀ e ∈ inner, Climbs caught e) :
    Climbs caught (expandCall inner) := by
  intro body pc m args limit top hinline height st v st' hc h
  cases hcode : m.code with
  | none =>
    simp only [expandCall, hcode] at h
    cases h
  | some code =>
    have hhandlers : code.handlers = [] := by
      simp only [Method.isInlinable, hcode, Bool.and_eq_true, List.isEmpty_iff] at hinline
      exact hinline.2.1
    simp only [expandCall, hcode] at h
    have h := get_ok h
    obtain ⟨_, st₁, hlocals, h⟩ := bind_ok h
    have halike₁ : st.Alike st₁ := by
      cases hlocals
      exact ⟨rfl, rfl, fun _ blk hb => ⟨blk, hb, rfl, rfl, id⟩⟩
    have hc₁ := hc.alike halike₁
    -- The block behind the call.
    obtain ⟨handler, z, hhandler, hlow, htop, hz⟩ := hc₁.room
    rw [bind_eq hhandler, bind_eq (newBlock_eq st₁ handler),
      bind_eq (mapM_newParam_result m.signature.resultType)] at h
    have halike₂ := alike_addContinuation st₁ handler m.signature.resultType
    have hstretch₂ := Stretches.update height st₁.nextBlock z
    have hn₂ : (st₁.addContinuation handler m.signature.resultType).nextBlock =
        st₁.nextBlock + 1 := nextBlock_addContinuation _
    have hc₂ : Climbing caught (Function.update height st₁.nextBlock z) z
        (st₁.addContinuation handler m.signature.resultType) := by
      refine ⟨halike₂.rises (hc₁.rises.addHandled handler z hz), ?_, ?_⟩
      · rw [halike₂.block, hn₂]
        exact Nat.lt_succ_of_lt hc₁.current
      · rw [halike₂.block]
        exact (hstretch₂.same _ hc₁.current).symm ▸ hlow
    generalize st₁.addContinuation handler m.signature.resultType = st₂ at *
    rw [← hn₂] at hstretch₂
    obtain ⟨_, st₃, hstore, h⟩ := bind_ok h
    obtain ⟨height₃, hstretch₃, hc₃⟩ :=
      (wired_storeArguments fun _ => id).straight.ascends (k := 0) _ _ _ _ hc₂ hstore
    have hstretch := hstretch₂.trans hstretch₃
    have hk : st₁.nextBlock < st₂.nextBlock := hn₂ ▸ Nat.lt_succ_self _
    have hkz : height₃ st₁.nextBlock = z := (hstretch₃.same _ hk).trans (Function.update_self ..)
    obtain ⟨graph, st₄, hdraw, h⟩ := bind_ok h
    obtain ⟨f, hof, rfl⟩ := flowGraph_ok hdraw
    obtain ⟨_, st₅, henter, h⟩ := bind_ok h
    obtain ⟨_, st₆, hfill, h⟩ := bind_ok h
    have hd := FlowGraph.drawn_ofCode hof
    obtain ⟨-, -, hregions, -⟩ := FlowGraph.ofCode_ok hhandlers hd.decoded hof
    obtain ⟨height₄, hstretch₄, hrises₄, hlevels⟩ := levels_draw hd hc₃.rises
      (strictMono_between hc₃.below) (fun _ row hrow => by rw [hhandlers] at hrow; cases hrow)
    have hbounds := between_bounds hc₃.below
    have hl := hlevels
      { method := m, code, graph, localBase := st.function.maxLocals, fallback := handler
        exit := .inline st₁.nextBlock, chain := m.id :: body.chain
        callPc := some (body.callPc.getD pc) } rfl rfl
      (by
        rintro k hk'
        cases hk'
        exact ⟨Nat.lt_of_lt_of_le hk hstretch₃.size, fun i => hkz ▸ (hbounds i).2⟩)
      (by
        rintro (hcaught | hne) x hx
        · obtain ⟨hlt, hzx⟩ := hz hcaught x hx
          rw [hstretch.same x hlt]
          exact ⟨Nat.lt_of_lt_of_le hlt hstretch.size, fun i => (hbounds i).2.trans hzx⟩
        · exact absurd hregions hne)
    have hc₄ : Climbing caught height₄ (between (height₃ st₃.block) z 1)
        { st₃ with function := f } := by
      refine ⟨hrises₄, Nat.lt_of_lt_of_le hc₃.current hstretch₄.size, ?_⟩
      exact (hstretch₄.same _ hc₃.current).symm ▸ (hbounds 1).1
    obtain ⟨hstretch₅, hrises₅⟩ := rises_enterBody hl hc₄ henter
    obtain ⟨height₆, hstretch₆, hrises₆⟩ :=
      fills_fillBody hinner _ _ _ _ _ (hl.stretch hstretch₅) hrises₅ hfill
    have hlater := hstretch₃.trans (hstretch₄.trans (hstretch₅.trans hstretch₆))
    cases h
    rw [← halike₁.size]
    refine ⟨height₆, hstretch₂.trans hlater, hrises₆, Nat.lt_of_lt_of_le hk hlater.size, ?_⟩
    have hz₆ : height₆ st₁.nextBlock = z := (hlater.same _ hk).trans (Function.update_self ..)
    exact hz₆.symm ▸ htop

theorem climbs_expander (caught : Prop) (depth : Nat) : ∀ e ∈ expander depth, Climbs caught e := by
  induction depth with
  | zero => nofun
  | succ depth ih =>
    intro e he
    cases he
    exact climbs_expandCall ih

end Emit

end ManagedCore
