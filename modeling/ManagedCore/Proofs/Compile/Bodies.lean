import ManagedCore.Proofs.Compile.Forms
import ManagedCore.Proofs.Compile.Rounds

/-!
# Laying out whole bodies

Taking up a block of a flow graph leaves every block with code as it is. Inside a block the handler
stays the same, because a block starts wherever the rows of the exception table change.
-/

namespace ManagedCore

open EmitState Emit List

namespace Outline

variable {o o' : Outline} {st st' : EmitState} {body : Body} {base : Reg → Prop}

/-- Code was added to blocks without any, and to some others. -/
structure Fills (others : List BlockId) (o : Outline) (st : EmitState) (o' : Outline)
    (st' : EmitState) : Prop extends Keeps o st o' st' where
  laid : o'.Laid st'
  kept : ∀ b, o.Settled st b → b ∉ others → st'.function.block? b = st.function.block? b

theorem Fills.refl (h : o.Laid st) : Fills [] o st o st where
  toKeeps := .refl o st
  laid := h
  kept _ _ _ := rfl

theorem Fills.trans {o₁ o₂ o₃ : Outline} {st₁ st₂ st₃ : EmitState} {bs cs : List BlockId}
    (h : Fills bs o₁ st₁ o₂ st₂) (h' : Fills cs o₂ st₂ o₃ st₃) :
    Fills (bs ++ cs) o₁ st₁ o₃ st₃ where
  toKeeps := h.toKeeps.trans h'.toKeeps
  laid := h'.laid
  kept b hb hnot := by
    rw [mem_append, not_or] at hnot
    exact (h'.kept b (h.settled hb) hnot.2).trans (h.kept b hb hnot.1)

/-- A state in which the code of the body can be added to. -/
structure Between (o : Outline) (st : EmitState) (body : Body) (base : Reg → Prop) : Prop where
  laid : o.Laid st
  frames : o.Frames st body base
  parsed : st.registry.Parsed

theorem Between.fill {others : List BlockId} (h : o.Between st body base)
    (hf : Fills others o st o' st') : o'.Between st' body base where
  laid := hf.laid
  frames := h.frames.keep h.laid hf.toKeeps
  parsed := parsed_keep h.parsed hf.toKeeps

theorem Laid.setPc (h : o.Laid st) {pc : Nat}
    (hpc : ∀ blk, st.function.block? st.block = some blk → o.coded st.block →
      o.route pc = blk.handler) : Adds o st o { st with pc } := by
  have hkeeps : Keeps o st o { st with pc } := { Keeps.refl o st with outline := .refl }
  refine ⟨hkeeps, ?_, fun _ _ _ => rfl, .inl rfl⟩
  obtain ⟨blk, hblk, -⟩ := h.here
  exact { h with
    blocks := fun b blk hb => (h.blocks b blk hb).keep hkeeps (lt_nextBlock hb)
    here := ⟨blk, hblk, hpc blk hblk⟩ }

theorem Inside.next {node next : Node} {rest : List Node}
    (h : o.Inside st ⟨body, base, node.instr.pc, [], []⟩)
    (hnodes : node :: next :: rest <:+ body.graph.nodes) (hnext : next.block = none) :
    Adds o st o { st with pc := body.callPc.getD next.instr.pc } ∧
      o.Inside { st with pc := body.callPc.getD next.instr.pc }
        ⟨body, base, next.instr.pc, [], []⟩ := by
  have hroute : ∀ blk, st.function.block? st.block = some blk → o.coded st.block →
      o.route (body.callPc.getD next.instr.pc) = blk.handler := by
    intro blk hblk hcoded
    obtain ⟨cur, hcur, hroute⟩ := h.laid.here
    cases hblk.symm.trans hcur
    rw [h.frames.routes next (hnodes.subset (by simp)),
      h.frames.steady node next rest hnodes hnext,
      ← h.frames.routes node (hnodes.subset (by simp)), ← hroute hcoded, h.pc]
  have hadds := h.laid.setPc hroute
  exact ⟨hadds, { h with
    laid := hadds.laid
    frames := h.frames.keep h.laid hadds.toKeeps
    pc := rfl
    fresh := nofun
    ways := nofun }⟩

/-! ## Blocks -/

variable {expand : Option Expander} {node : Node} {rest : List Node} {s : SymStack}

theorem Inside.instructions (hexpand : ∀ e ∈ expand, Expands e)
    (hnodes : node :: rest <:+ body.graph.nodes)
    (hin : o.Inside { st with pc := body.callPc.getD node.instr.pc }
      ⟨body, base, node.instr.pc, [], []⟩)
    (hs : o.Holds { st with pc := body.callPc.getD node.instr.pc } s)
    (h : instructions expand body (node :: rest) s st = .ok () st') :
    ∃ o', Adds o { st with pc := body.callPc.getD node.instr.pc } o' st' := by
  induction rest generalizing node s o st with
  | nil =>
    obtain ⟨_, _, hpc, h⟩ := bind_ok h
    cases hpc
    obtain ⟨s', mid, hmid, h⟩ := bind_ok h
    obtain ⟨o₁, hp, -⟩ := supplies_instruction hexpand rfl s o _ _ _ hin hs hmid
    cases s' with
    | none =>
      cases h
      exact ⟨o₁, hp.toAdds⟩
    | some s' => cases h
  | cons next rest ih =>
    obtain ⟨_, _, hpc, h⟩ := bind_ok h
    cases hpc
    obtain ⟨s', mid, hmid, h⟩ := bind_ok h
    obtain ⟨o₁, hp, hs'⟩ := supplies_instruction hexpand rfl s o _ _ _ hin hs hmid
    have hin₁ := hin.proceed hp
    cases s' with
    | none =>
      cases h
      exact ⟨o₁, hp.toAdds⟩
    | some s' =>
      dsimp only at h
      split at h
      · have hjump : Supplies ⟨body, base, node.instr.pc, [], []⟩ s'
            (edge body next.instr.pc s' >>= fun e => terminate (.jump e))
            fun _ => [] := by
          refine supplies_edge (fun _ he => he) fun e => ?_
          exact supplies_terminate (fun r hr => .inr ⟨e, by simp, hr⟩)
            (by simp [Terminator.successors]) nofun
        obtain ⟨o₂, hp', -⟩ := hjump o₁ mid () st' hin₁ hs' h
        exact ⟨o₂, (hp.trans hp').toAdds⟩
      · rename_i hnone
        obtain ⟨hadds, hin₂⟩ := hin₁.next hnodes (by simpa using hnone)
        obtain ⟨o₂, hadds'⟩ := ih ((suffix_cons node _).trans hnodes) hin₂ hs' h
        exact ⟨o₂, (hp.toAdds.trans hadds).trans hadds'⟩

end Outline

namespace EmitState

variable {handler : Option BlockId} {st : EmitState}

def takeUp (st : EmitState) (b : BlockId) (handler : Option BlockId) (pc : Nat) : EmitState :=
  { st with
    emitted := b :: st.emitted
    function := st.function.modifyBlock b fun blk => { blk with handler }
    block := b
    pc }

theorem block_takeUp {pc : Nat} (b c : BlockId) : (st.takeUp b handler pc).function.block? c =
      if b = c then (st.function.block? c).map fun blk => { blk with handler }
      else st.function.block? c :=
  Array.getElem?_modify

theorem nextBlock_takeUp {b : BlockId} {pc : Nat} :
    (st.takeUp b handler pc).nextBlock = st.nextBlock :=
  Array.size_modify

end EmitState

namespace Outline

variable {o o' : Outline} {st st' : EmitState} {body : Body} {base : Reg → Prop}
  {expand : Option Expander} {node : Node} {rest : List Node} {b : BlockId}
  {handler : Option BlockId} {ps : List (Reg × ValueType)}

theorem Frames.handlerFor (h : o.Frames st body base) {pc : Nat} {x : BlockId}
    (hx : Emit.handlerFor body pc = some x) : o.Catches st x ∧ ∀ r, o.given x r → base r := by
  unfold Emit.handlerFor at hx
  cases hregion : body.graph.regionAt? pc with
  | none =>
    rw [hregion] at hx
    exact h.fallback x hx
  | some region =>
    rw [hregion] at hx
    cases hx
    obtain ⟨i, -, hi⟩ := Option.bind_eq_some_iff.mp hregion
    obtain ⟨hcatch, hgiven, -⟩ := h.regions region (mem_of_getElem? hi)
    exact ⟨hcatch, fun r hr => by rwa [hgiven] at hr⟩

theorem keeps_takeUp {pc : Nat} : Keeps o st o (st.takeUp b handler pc) :=
  { Keeps.refl o st with
    outline := .refl
    size := Nat.le_of_eq nextBlock_takeUp.symm
    emitted := fun _ hc => mem_cons_of_mem _ hc
    params := fun c blk hc _ => by
      rw [block_takeUp]
      split
      · rw [hc]
        exact ⟨_, rfl, rfl⟩
      · exact ⟨blk, hc, rfl⟩ }

theorem Laid.takeUp {pc : Nat} (h : o.Laid st) (hjoin : o.joins b)
    (hshape : st.shapes.lookup b = some ps) (hnew : b ∉ st.emitted)
    (hroute : o.coded b → o.route pc = handler)
    (hcaught : ∀ x, handler = some x → o.Catches st x ∧ ∀ r, o.given x r → o.given b r) :
    Fills [] o st o (st.takeUp b handler pc) := by
  obtain ⟨old, hold, hparams, htyped⟩ := h.shaped b ps hshape
  have hempty := h.pending b hjoin hnew old hold
  have hself : (st.takeUp b handler pc).function.block? b = some { old with handler } := by
    rw [block_takeUp, if_pos rfl, hold, Option.map_some]
  have hother : ∀ c, c ≠ b →
      (st.takeUp b handler pc).function.block? c = st.function.block? c := by
    intro c hc
    rw [block_takeUp, if_neg (Ne.symm hc)]
  have hkeeps : Keeps o st o (st.takeUp b handler pc) := keeps_takeUp
  refine ⟨hkeeps, ⟨?_, ?_, ?_, ?_, ?_, fun _ => mem_cons_self, _, hself, hroute⟩, ?_⟩
  · intro c blk hc
    by_cases hcb : c = b
    · subst hcb
      cases hself.symm.trans hc
      refine .empty hempty.1 hempty.2 fun x hx => ?_
      obtain ⟨hcatch, hgiven⟩ := hcaught x hx
      exact ⟨hcatch.keep hkeeps, fun r hr => .inl (hgiven r hr)⟩
    · rw [hother c hcb] at hc
      exact (h.blocks c blk hc).keep hkeeps (lt_nextBlock hc)
  · intro c hj hn
    have hcb : c ≠ b := by
      rintro rfl
      rw [show (st.takeUp c handler pc).shapes = st.shapes from rfl, hshape] at hn
      cases hn
    rw [hother c hcb]
    exact h.joins c hj hn
  · intro c qs hqs
    obtain ⟨blk, hblk, heq, htypes⟩ := h.shaped c qs hqs
    by_cases hcb : c = b
    · subst hcb
      cases hold.symm.trans hblk
      exact ⟨_, hself, heq, htypes⟩
    · exact ⟨blk, (hother c hcb).trans hblk, heq, htypes⟩
  · intro c hj hn blk hc
    have hcb : c ≠ b := by
      rintro rfl
      exact hn mem_cons_self
    rw [hother c hcb] at hc
    exact h.pending c hj (fun hmem => hn (mem_cons_of_mem _ hmem)) blk hc
  · intro c hc
    rcases mem_cons.mp hc with rfl | hc
    · exact Option.isSome_iff_exists.mpr ⟨ps, hshape⟩
    · exact h.taken c hc
  · intro c hc _
    refine hother c ?_
    rintro rfl
    exact hnew (hc.2 hjoin)

theorem Between.takeUp (h : o.Between st body base) (hnode : node ∈ body.graph.nodes)
    (hb : node.block = some b) (hshape : st.shapes.lookup b = some ps) (hnew : b ∉ st.emitted) :
    let new := st.takeUp b (Emit.handlerFor body node.instr.pc) (body.callPc.getD node.instr.pc)
    Fills [] o st o new ∧ o.Inside new ⟨body, base, node.instr.pc, [], []⟩ ∧
      o.Holds new ps.reverse := by
  intro new
  have hmem : b ∈ body.graph.blocks := mem_filterMap.mpr ⟨node, hnode, hb⟩
  have hgraph := h.frames.graph
  have hfills : Fills [] o st o new := by
    refine h.laid.takeUp (hgraph.joins b hmem) hshape hnew (fun _ => h.frames.routes node hnode) ?_
    intro x hx
    rw [hgraph.given b hmem]
    exact h.frames.handlerFor hx
  have hnext := h.fill hfills
  obtain ⟨blk, hblk, hparams, htyped⟩ := hfills.laid.shaped b ps hshape
  refine ⟨hfills, ⟨hnext.laid, hnext.frames, fun r hr => ⟨blk, hblk, .inl ?_⟩,
    hgraph.coded b hmem, rfl, hnext.parsed, nofun, nofun⟩, fun e he => ?_⟩
  · rw [show new.block = b from rfl, hgraph.given b hmem]
    exact hr
  · have he := mem_reverse.mp he
    refine ⟨htyped e he, blk, hblk, .inr (.inl ?_)⟩
    rw [hparams]
    exact mem_map_of_mem he

section

variable (hexpand : ∀ e ∈ expand, Expands e) (hbetween : o.Between st body base)
include hexpand hbetween

theorem Between.block (hnodes : node :: rest <:+ body.graph.nodes) (hb : node.block = some b)
    (hshape : st.shapes.lookup b = some ps) (hnew : b ∉ st.emitted)
    (h : block expand body (node :: rest) node.instr.pc b ps st = .ok () st') :
    ∃ o', Fills [] o st o' st' := by
  obtain ⟨hfills, hin, hs⟩ := hbetween.takeUp (hnodes.subset mem_cons_self) hb hshape hnew
  have hinstrs : instructions expand body (node :: rest) ps.reverse
      { st.takeUp b (Emit.handlerFor body node.instr.pc) (body.callPc.getD node.instr.pc) with
        pc := st.pc } = .ok () st' := h
  obtain ⟨o', hadds⟩ := Inside.instructions hexpand hnodes hin hs hinstrs
  refine ⟨o', hfills.toKeeps.trans hadds.toKeeps, hadds.laid, fun c hc _ => ?_⟩
  have hjoin := hbetween.frames.graph.joins b
    (mem_filterMap.mpr ⟨node, hnodes.subset mem_cons_self, hb⟩)
  refine (hadds.kept c (hfills.settled hc) ?_).trans (hfills.kept c hc nofun)
  rintro rfl
  exact hnew (hc.2 hjoin)

/-! ## Rounds -/

theorem Between.round {nodes : List Node} {more : Bool} (hnodes : nodes <:+ body.graph.nodes)
    (h : round expand body nodes st = .ok more st') : ∃ o', Fills [] o st o' st' := by
  induction nodes generalizing o st more with
  | nil =>
    cases h
    exact ⟨o, .refl hbetween.laid⟩
  | cons node rest ih =>
    have hrest : rest <:+ body.graph.nodes := (suffix_cons node rest).trans hnodes
    rcases round_cons h with ⟨b, ps, mid, _, hb, hnew, hshape, hblock, hround, -⟩ | ⟨-, h⟩
    · obtain ⟨o₁, hfills⟩ := hbetween.block hexpand hnodes hb hshape hnew hblock
      obtain ⟨o₂, hfills'⟩ := ih (hbetween.fill hfills) hrest hround
      exact ⟨o₂, hfills.trans hfills'⟩
    · exact ih hbetween hrest h

theorem Between.rounds {fuel : Nat} (h : rounds expand body fuel st = .ok () st') :
    ∃ o', Fills [] o st o' st' := by
  induction fuel generalizing o st with
  | zero =>
    cases h
    exact ⟨o, .refl hbetween.laid⟩
  | succ fuel ih =>
    obtain ⟨more, mid, hmid, h⟩ := bind_ok h
    obtain ⟨o₁, hfills⟩ := hbetween.round hexpand (suffix_refl _) hmid
    cases more with
    | false =>
      cases h
      exact ⟨o₁, hfills⟩
    | true =>
      obtain ⟨o₂, hfills'⟩ := ih (hbetween.fill hfills) h
      exact ⟨o₂, hfills.trans hfills'⟩

end

end Outline

end ManagedCore
