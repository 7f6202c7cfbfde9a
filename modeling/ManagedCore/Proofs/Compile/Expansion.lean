import ManagedCore.Proofs.Compile.Dispatch

/-!
# Expanded calls

The body of an expanded method has no exception table, so all its blocks have the handler of the
call, and its code counts for the offset of the call. Everything at hand at the call is at hand all
through the body and again behind it.
-/

namespace ManagedCore

open EmitState

namespace EmitState

variable {st : EmitState} {handler : Option BlockId}

/-- Adds a block with a handler and a parameter for the result of a call, if it has one. -/
def addContinuation (st : EmitState) (handler : Option BlockId) : Option ValueType → EmitState
  | none => st.addHandled handler
  | some t => (st.addHandled handler).addParam st.nextBlock t

def resultReg (st : EmitState) (t : Option ValueType) : Option Reg := t.map fun _ => st.nextReg

section

variable (t : Option ValueType)

include t

theorem mapM_newParam_result : t.mapM (Emit.newParam st.nextBlock) (st.addHandled handler) =
      .ok (st.resultReg t) (st.addContinuation handler t) := by
  cases t with
  | none | some => rfl

theorem block_addContinuation (b : BlockId) : (st.addContinuation handler t).function.block? b =
      if b = st.nextBlock then some { params := (st.resultReg t).toList, handler }
      else st.function.block? b := by
  cases t with
  | none => exact block_addHandled b
  | some t =>
    change ((st.addHandled handler).addParam st.nextBlock t).function.block? b = _
    rw [block_addParam, block_addHandled]
    by_cases hb : b = st.nextBlock
    · subst hb
      simp
      rfl
    · rw [if_neg hb, if_neg (Ne.symm hb), if_neg hb]

theorem nextBlock_addContinuation :
    (st.addContinuation handler t).nextBlock = st.nextBlock + 1 := by
  cases t with
  | none => exact nextBlock_addHandled
  | some t => exact Array.size_modify.trans nextBlock_addHandled

theorem regType_addContinuation {r : Reg} {u : ValueType} (h : st.function.regType? r = some u) :
    (st.addContinuation handler t).function.regType? r = some u := by
  cases t with
  | none => exact h
  | some t => exact regs_addParam h

theorem hasTypes_resultReg :
    (st.addContinuation handler t).function.HasTypes (st.resultReg t).toList t.toList := by
  cases t with
  | none => rfl
  | some t =>
    have hreg : ((st.addHandled handler).addReg t).function.regType? (st.addHandled handler).nextReg =
        some t := regType_addReg
    exact congrArg (· :: []) hreg

end

end EmitState

namespace Outline

variable {o o' : Outline} {st st' : EmitState} {handler : Option BlockId}

/-- A block with a parameter, such as the one behind an expanded call, to which its result goes. -/
theorem Laid.addContinuation (h : o.Laid st) (t : Option ValueType) {given : Reg → Prop}
    (coded : Prop) (hcaught : ∀ x, handler = some x → o.Catches st x ∧ ∀ r, o.given x r → given r) :
    Proceeds o st (o.add st.nextBlock given coded) (st.addContinuation handler t) := by
  have hwiden : Widens st.function (st.addContinuation handler t).function := by
    refine ⟨fun b hb => ?_, ?_, fun r u hr => regType_addContinuation t hr, ?_, ?_⟩
    · rw [block_addContinuation]
      exact if_neg (Nat.ne_of_lt hb)
    · exact Nat.le_of_lt (Nat.lt_of_lt_of_eq (Nat.lt_succ_self _) (nextBlock_addContinuation t).symm)
    · cases t <;> rfl
    · cases t <;> rfl
  have hsame : st.addContinuation handler t =
      { st with function := (st.addContinuation handler t).function } := by
    cases t <;> rfl
  have hblk : (st.addContinuation handler t).function.block? st.nextBlock =
      some { params := (st.resultReg t).toList, handler } := by
    rw [block_addContinuation, if_pos rfl]
  rw [hsame]
  exact h.addBlock hwiden (nextBlock_addContinuation t) hblk coded hcaught

theorem Laid.addLocals (h : o.Laid st) (n : Nat) :
    Proceeds o st o { st with function := { st.function with maxLocals := n } } := by
  refine h.widen ⟨fun _ _ => rfl, Nat.le_refl _, fun _ _ hr => hr, rfl, rfl⟩ .refl
    (fun b hle hjoin => ?_) fun b blk hle hb => ?_
  · exact absurd (h.join_lt hjoin) (Nat.not_lt.mpr hle)
  · exact absurd (Array.getElem?_eq_some_iff.mp hb).1 (Nat.not_lt.mpr hle)

end Outline

namespace Emit

open Outline

variable {c : Spot} {s : SymStack} {st st' : EmitState} {o : Outline} {inner : Option Expander}
  {mid last : EmitState} {k : BlockId}

theorem supplies_enterBody : Supplies c s (enterBody c.body) fun _ => [] := by
  refine supplies_edge nofun fun e => ?_
  exact supplies_terminate (fun r hr => .inr ⟨e, by simp, hr⟩) (by simp [Terminator.successors])
    nofun

theorem handlerFor_plain {body : Body} (h : body.graph.regions = []) (pc : Nat) :
    handlerFor body pc = body.fallback := by
  have hregion : body.graph.regionAt? pc = none := by
    rw [FlowGraph.regionAt?, h, Option.bind_eq_none_iff]
    exact fun _ _ => rfl
  rw [handlerFor, hregion]
  rfl

theorem inside_callee (callee : Body) {f : Function} (h : o.Laid st)
    (hcoded : o.coded st.block) (hparsed : st.registry.Parsed)
    (hroute : o.route st.pc = callee.fallback)
    (hcaught : ∀ x, callee.fallback = some x → o.Catches st x ∧ ∀ r, o.given x r → o.Here st r)
    (hk : ¬ o.joins k ∧ o.coded k ∧ 0 < k ∧ (∀ r, o.given k r → o.Here st r) ∧ ∃ blk,
      st.function.block? k = some blk ∧
      st.function.HasTypes blk.params callee.method.signature.resultType.toList)
    (hof : FlowGraph.ofCode callee.code st.function = .ok (callee.graph, f))
    (hhandlers : callee.code.handlers = []) (hexit : callee.exit = .inline k)
    (hpc : callee.callPc = some st.pc) : ∃ o', Proceeds o st o' { st with function := f } ∧
      o'.Inside { st with function := f } ⟨callee, o.Here st, 0, [], []⟩ ∧
      callee.graph.regions = [] := by
  have hd := FlowGraph.drawn_ofCode hof
  obtain ⟨n, -, hregions, -⟩ := FlowGraph.ofCode_ok hhandlers hd.decoded hof
  obtain ⟨o', hp, hgraph, -⟩ := h.draw hd
  have hframes : o'.Frames { st with function := f } callee (o.Here st) := by
    refine ⟨hgraph, fun x hx => ?_, ?_, ?_, fun b hb => ?_, fun node hnode => ?_, ?_⟩
    · obtain ⟨hcatch, hgiven⟩ := hcaught x hx
      refine ⟨hcatch.keep hp.toKeeps, fun r hr => hgiven r ?_⟩
      rwa [hp.outline.given x hcatch.lt] at hr
    · rw [hregions]
      nofun
    · rw [hexit]
      nofun
    · rw [hexit] at hb
      cases hb
      obtain ⟨hjoin, hkcoded, hpos, hgiven, blk, hblk, htypes⟩ := hk
      have hlt := lt_nextBlock hblk
      obtain ⟨blk', hblk', hparams⟩ := hp.params k blk hblk fun hj => absurd hj hjoin
      rw [hp.outline.joins k hlt, hp.outline.coded k hlt, hp.outline.given k hlt]
      exact ⟨hjoin, hkcoded, hpos, hgiven, blk', hblk', hparams ▸ hasTypes_keep hp.regs htypes⟩
    · rw [hpc, handlerFor_plain hregions, hp.outline.route]
      exact hroute
    · intro node next rest _ _
      rw [handlerFor_plain hregions, handlerFor_plain hregions]
  refine ⟨o', hp, ⟨hp.laid, hframes, fun r hr => hp.known r hr, hp.coded hcoded, ?_,
    parsed_keep hparsed hp.toKeeps, nofun, nofun⟩, hregions⟩
  rw [hpc]
  rfl

theorem callee_filled {callee : Body} {base : Reg → Prop}
    (hinner : ∀ e ∈ inner, Expands e) (hin : o.Inside st ⟨callee, base, 0, [], []⟩)
    (hregions : callee.graph.regions = []) (henter : enterBody callee st = .ok () mid)
    (hfill : fillBody inner callee mid = .ok () last) :
    ∃ o₁ o₂, Proceeds o st o₁ mid ∧ Fills [] o₁ mid o₂ last := by
  have hsupplies : Supplies ⟨callee, base, 0, [], []⟩ [] (enterBody callee) fun _ => [] :=
    supplies_enterBody
  obtain ⟨o₁, hp, -⟩ := hsupplies o st () mid hin nofun henter
  have hin₁ := hin.proceed hp
  obtain ⟨o₂, hfills, -⟩ := Between.fillBody hinner ⟨hin₁.laid, hin₁.frames, hin₁.parsed⟩
    (by rw [hregions]; nofun) (by rw [hregions]; exact List.nodup_nil) hfill
  refine ⟨o₁, o₂, hp, ?_⟩
  rwa [hregions] at hfills

theorem proceeds_return {o₁ o₂ : Outline} {blk : Block}
    (stats : CompileStats) (hp : Proceeds o st o₁ mid) (hf : Fills [] o₁ mid o₂ last)
    (hnew : st.nextBlock ≤ k) (hblk : last.function.block? k = some blk) (hjoin : ¬ o₂.joins k)
    (hcoded : o₂.coded k) (hgiven : ∀ r, o.Here st r → o₂.given k r)
    (hroute : o.route st.pc = blk.handler) :
    Proceeds o st o₂ { last with stats, block := k, pc := st.pc } := by
  have hstats : Proceeds o₂ last o₂ { last with stats } :=
    hf.laid.proceeds_same rfl rfl rfl rfl rfl (List.prefix_refl _) .same
  have hswitch : o₂.Laid { last with stats, block := k, pc := st.pc } := by
    refine hstats.laid.switchTo hblk (fun hj => absurd hj hjoin) fun _ => ?_
    rw [hf.outline.route, hp.outline.route]
    exact hroute
  have hkeeps : Keeps o st o₂ { last with stats, block := k, pc := st.pc } :=
    ((hp.toKeeps.trans hf.toKeeps).trans hstats.toKeeps).trans keeps_switchTo
  refine ⟨⟨hkeeps, hswitch, fun b hb hne => ?_, .inr fun hb => ?_⟩, rfl, fun r hr => ?_,
    fun _ => hcoded⟩
  · exact (hf.kept b (hp.settled hb) nofun).trans (hp.kept b hb hne)
  · exact absurd hb.1 (Nat.not_lt.mpr hnew)
  · exact ⟨blk, hblk, .inl (hgiven r hr)⟩

theorem expands_expandCall (hinner : ∀ e ∈ inner, Expands e) : Expands (expandCall inner) := by
  intro c s m args limit hargs hinline o st v st' hin hs h
  cases hcode : m.code with
  | none =>
    simp only [expandCall, hcode] at h
    cases h
  | some code =>
    have hhandlers : code.handlers = [] := by
      simp only [Method.isInlinable, hcode, Bool.and_eq_true, List.isEmpty_iff] at hinline
      exact hinline.2.1
    simp only [expandCall, hcode] at h
    have h := get_ok h
    obtain ⟨_, st₁, hlocals, h⟩ := bind_ok h
    have hp₁ : Proceeds o st o st₁ := by
      cases hlocals
      exact hin.laid.addLocals _
    have hin₁ := hin.proceed hp₁
    have hs₁ := hs.proceed hp₁
    -- The block behind the call, with the handler of the call.
    obtain ⟨handler, hhandler, -, hroute, hcaught⟩ := hin₁.laid.currentHandler
    rw [bind_eq hhandler, bind_eq (newBlock_eq st₁ handler),
      bind_eq (mapM_newParam_result m.signature.resultType)] at h
    have hp₂ := hin₁.laid.addContinuation m.signature.resultType True hcaught
    obtain ⟨hblk₂, htypes₂⟩ : (st₁.addContinuation handler m.signature.resultType).function.block?
          st₁.nextBlock = some ⟨(st₁.resultReg m.signature.resultType).toList, #[], .unreachable, 0,
            handler⟩ ∧
        (st₁.addContinuation handler m.signature.resultType).function.HasTypes
          (st₁.resultReg m.signature.resultType).toList m.signature.resultType.toList := by
      refine ⟨?_, hasTypes_resultReg _⟩
      rw [block_addContinuation, if_pos rfl]
    have hblock₂ : (st₁.addContinuation handler m.signature.resultType).block = st₁.block := by
      cases m.signature.resultType <;> rfl
    generalize st₁.addContinuation handler m.signature.resultType = st₂ at *
    have hin₂ := hin₁.proceed hp₂
    have hs₂ := hs₁.proceed hp₂
    obtain ⟨_, st₃, hstore, h⟩ := bind_ok h
    have hstores : Wired 0 [] s (storeArguments st.function.maxLocals args) fun _ => [] :=
      wired_storeArguments hargs
    obtain ⟨o₃, hp₃, -⟩ := hstores.supplies _ _ _ _ hin₂ hs₂ hstore
    have hin₃ := hin₂.proceed hp₃
    obtain ⟨graph, st₄, hdraw, h⟩ := bind_ok h
    obtain ⟨f, hof, rfl⟩ := flowGraph_ok hdraw
    obtain ⟨_, st₅, henter, h⟩ := bind_ok h
    obtain ⟨_, st₆, hfill, h⟩ := bind_ok h
    have hlt : st₁.nextBlock < st₂.nextBlock := lt_nextBlock hblk₂
    have hadded : (o.add st₁.nextBlock (o.Here st₁) True).given st₁.nextBlock = o.Here st₁ := by
      simp [add]
    have hk : ¬ o₃.joins st₁.nextBlock ∧ o₃.coded st₁.nextBlock ∧ 0 < st₁.nextBlock ∧
        (∀ r, o₃.given st₁.nextBlock r → o₃.Here st₃ r) ∧
        ∃ blk, st₃.function.block? st₁.nextBlock = some blk ∧
          st₃.function.HasTypes blk.params m.signature.resultType.toList := by
      obtain ⟨blk, hblk, hparams⟩ := hp₃.params _ _ hblk₂ fun hj => absurd rfl hj.1
      rw [hp₃.outline.joins _ hlt, hp₃.outline.coded _ hlt, hp₃.outline.given _ hlt, hadded]
      refine ⟨fun hj => hj.1 rfl, by simp [add], hin₁.laid.nextBlock_pos,
        fun r hr => hp₃.known r (hp₂.known r hr), blk, hblk, ?_⟩
      rw [hparams]
      exact hasTypes_keep hp₃.regs htypes₂
    have hpc₃ : st₃.pc = st₁.pc := hp₃.pc.trans hp₂.pc
    have hroute₃ : o₃.route st₃.pc = handler := by
      rw [hpc₃, hp₃.outline.route]
      exact hroute hin₁.coded
    have hcaught₃ : ∀ x, handler = some x →
        o₃.Catches st₃ x ∧ ∀ r, o₃.given x r → o₃.Here st₃ r := by
      intro x hx
      obtain ⟨hcatch, hgiven⟩ := hcaught x hx
      have hp := hp₂.trans hp₃
      refine ⟨hcatch.keep hp.toKeeps, fun r hr => hp.known r (hgiven r ?_)⟩
      rwa [hp.outline.given x hcatch.lt] at hr
    obtain ⟨o₄, hp₄, hin₄, hregions⟩ := inside_callee
      { method := m, code, graph, localBase := st.function.maxLocals, fallback := handler
        exit := .inline st₁.nextBlock, chain := m.id :: c.body.chain
        callPc := some (c.body.callPc.getD c.pc) }
      hin₃.laid hin₃.coded hin₃.parsed hroute₃ hcaught₃ hk hof hhandlers rfl
      (by rw [← hin.pc, hpc₃, hp₁.pc])
    obtain ⟨o₅, o₆, hp₅, hfills⟩ := callee_filled hinner hin₄ hregions henter hfill
    -- The block behind the call has not been touched meanwhile.
    have hlater := (hp₃.trans hp₄).trans hp₅
    have hsettled : (o.add st₁.nextBlock (o.Here st₁) True).Settled st₂ st₁.nextBlock :=
      ⟨hlt, fun hj => absurd rfl hj.1⟩
    have hne : st₁.nextBlock ≠ st₂.block := by
      rw [hblock₂]
      exact Nat.ne_of_gt (lt_nextBlock hin₁.laid.here.choose_spec.1)
    have hblk₆ := (hfills.kept _ (hlater.settled hsettled) (by simp)).trans
      ((hlater.kept _ hsettled hne).trans hblk₂)
    have hkeeps := hlater.toKeeps.trans hfills.toKeeps
    cases h
    rw [← hin.pc]
    have hdone := proceeds_return { st₆.stats with inlined := st₆.stats.inlined + 1 }
      ((hp₁.trans hp₂).trans hlater) hfills hp₁.size hblk₆
      (by rw [hkeeps.outline.joins _ hlt]; exact fun hj => hj.1 rfl)
      (by rw [hkeeps.outline.coded _ hlt]; simp [add])
      (fun r hr => by rw [hkeeps.outline.given _ hlt, hadded]; exact hp₁.known r hr)
      (by rw [← hp₁.pc]; exact hroute hin₁.coded)
    refine ⟨o₆, hdone, fun e he => ⟨hkeeps.regs _ _ (regType_of_zip htypes₂ he), _, hblk₆, ?_⟩⟩
    exact .inr (.inl (List.of_mem_zip he).1)

theorem expands_expander (depth : Nat) : ∀ e ∈ expander depth, Expands e := by
  induction depth with
  | zero => nofun
  | succ depth ih =>
    intro e he
    cases he
    exact expands_expandCall ih

end Emit

end ManagedCore
