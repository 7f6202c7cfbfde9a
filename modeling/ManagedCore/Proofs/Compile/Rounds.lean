import ManagedCore.Proofs.Compile.Blocks

/-!
# Filling the blocks in rounds

Each round but the last takes up a block that no round took up before, so the rounds do not run
out. When a round finds no more blocks to fill, every block with known stack types has its code.
-/

namespace ManagedCore

open EmitState Emit List

section

variable {expand : Option Expander} {body : Body} {instrs : List Instruction}
  {st st' : EmitState} {node : Node} {rest : List Node} {b : BlockId} {ps : List (Reg × ValueType)}
  {more : Bool}

/-- Between two blocks: those that were taken up have their code. -/
structure Filling (expand : Option Expander) (body : Body) (st : EmitState) : Prop where
  sound : Sound body.graph st
  closed : st.Closed body.graph
  code : ∀ b ∈ body.graph.blocks, b ∈ st.emitted → HasCode expand body st b

theorem HasCode.extend (h : HasCode expand body st b) (he : Extends body.graph st st') :
    HasCode expand body st' b := by
  obtain ⟨node, rest, ps, mid, hnodes, hblock, hcode, hrest⟩ := h
  obtain ⟨after, hinstrs, hlater⟩ := hcode.code
  exact ⟨node, rest, ps, mid, hnodes, hblock,
    ⟨hcode.sound, hcode.opened, after, hinstrs, hlater.trans he⟩, hrest⟩

theorem PlainBody.handlerFor_none (h : PlainBody body instrs) (pc : Nat) :
    handlerFor body pc = none := by
  have hregion : body.graph.regionAt? pc = none := by
    rw [FlowGraph.regionAt?, h.regions, Option.bind_eq_none_iff]
    exact fun _ _ => rfl
  rw [handlerFor, hregion, h.fallback]
  rfl

theorem block_ok (hbody : PlainBody body instrs) (hfill : Filling expand body st)
    (hnodes : (node :: rest) <:+ body.graph.nodes) (hb : node.block = some b)
    (hnew : b ∉ st.emitted) (hshape : st.shapes.lookup b = some ps)
    (h : Emit.block expand body (node :: rest) node.instr.pc b ps st = .ok () st') :
    Filling expand body st' ∧ Extends body.graph st st' ∧ b ∈ st'.emitted := by
  have hmem : b ∈ body.graph.blocks :=
    mem_filterMap.mpr ⟨node, hnodes.subset mem_cons_self, hb⟩
  obtain ⟨hs, ho, he⟩ := hfill.sound.startBlock ⟨hmem, hnew⟩ hshape hfill.closed
  have hinstrs : instructions expand body (node :: rest) ps.reverse (st.startBlock b) =
      .ok () st' := by
    rwa [Emit.block, hbody.handlerFor_none] at h
  have hends := instructions_ok hbody hnodes hs ho hinstrs
  have hlater := he.trans hends.later
  refine ⟨⟨hends.sound, hends.closed, fun c hc hemitted => ?_⟩, hlater, ?_⟩
  · rw [hends.emitted] at hemitted
    rcases mem_cons.mp hemitted with rfl | hold
    · obtain ⟨blk, hblk, hempty, -⟩ := hfill.sound.graph c hmem
      refine ⟨node, rest, ps, st.startBlock c, hnodes, hb,
        ⟨hs, ho, st', hinstrs, .refl⟩, rfl, hshape, blk, ?_, (hempty hnew).1⟩
      rw [hfill.sound.block_startBlock, hblk]
    · exact (hfill.code c hc hold).extend hlater
  · rw [hends.emitted]
    exact mem_cons_self

/-! ## Rounds -/

def pending (body : Body) (st : EmitState) : List BlockId :=
  body.graph.blocks.filter fun b => !st.emitted.contains b

theorem pending_lt_fuel (body : Body) (st : EmitState) :
    (pending body st).length < body.graph.starts.length + 1 := by
  refine Nat.lt_succ_of_le ?_
  calc (pending body st).length
      ≤ body.graph.blocks.length := List.length_filter_le _ _
    _ = body.graph.starts.length := by
      rw [FlowGraph.blocks, FlowGraph.starts, List.length_map, List.length_filterMap_eq_countP,
        List.countP_eq_length_filter]

theorem pending_lt (he : st.emitted ⊆ st'.emitted) (hb : b ∈ body.graph.blocks)
    (hold : b ∉ st.emitted) (hnew : b ∈ st'.emitted) :
    (pending body st').length < (pending body st).length := by
  have hsub : pending body st' = (pending body st).filter fun b => !st'.emitted.contains b := by
    rw [pending, pending, filter_filter]
    refine filter_congr fun c _ => ?_
    have hle : c ∈ st.emitted → c ∈ st'.emitted := @he c
    grind
  rw [hsub, length_filter_lt_length_iff_exists]
  refine ⟨b, ?_, by simpa using hnew⟩
  simpa [pending] using ⟨hb, hold⟩

/-- A round fills the block that starts at a node if an edge leads there, and goes on behind it. -/
theorem round_cons (h : Emit.round expand body (node :: rest) st = .ok more st') :
    (∃ b ps mid later, node.block = some b ∧ b ∉ st.emitted ∧ st.shapes.lookup b = some ps ∧
      Emit.block expand body (node :: rest) node.instr.pc b ps st = .ok () mid ∧
      Emit.round expand body rest mid = .ok later st' ∧ more = true) ∨
    (∀ b, node.block = some b → b ∈ st.emitted ∨ st.shapes.lookup b = none) ∧
      Emit.round expand body rest st = .ok more st' := by
  rw [Emit.round, bind_eq (rfl : (get : Emit EmitState) st = .ok st st)] at h
  cases hnew : node.block.filter fun b => !st.emitted.contains b with
  | none =>
    rw [hnew] at h
    refine .inr ⟨fun b hb => .inl ?_, h⟩
    simpa using Option.filter_eq_none_iff.mp hnew b hb
  | some b =>
    obtain ⟨hb, hold⟩ := Option.filter_eq_some_iff.mp hnew
    cases hshape : st.shapes.lookup b with
    | none =>
      simp only [hnew, Option.bind_some, hshape] at h
      refine .inr ⟨fun c hc => .inr ?_, h⟩
      rw [hb, Option.some.injEq] at hc
      rw [← hc, hshape]
    | some ps =>
      simp only [hnew, Option.bind_some, hshape] at h
      obtain ⟨_, mid, hblock, htail⟩ := bind_ok h
      obtain ⟨_, _, hdiscard, htrue⟩ := bind_ok htail
      cases htrue
      obtain ⟨later, hround, -⟩ := map_ok hdiscard
      exact .inl ⟨b, ps, mid, later, hb, by simpa using hold, hshape, hblock, hround, rfl⟩

theorem round_ok (hbody : PlainBody body instrs) {nodes : List Node}
    (hnodes : nodes <:+ body.graph.nodes) (hfill : Filling expand body st)
    (h : Emit.round expand body nodes st = .ok more st') :
    Filling expand body st' ∧ Extends body.graph st st' ∧
      if more then (pending body st').length < (pending body st).length
      else st' = st ∧ ∀ node ∈ nodes, ∀ b, node.block = some b →
        b ∈ st.emitted ∨ st.shapes.lookup b = none := by
  induction nodes generalizing st more with
  | nil =>
    cases h
    refine ⟨hfill, .refl, ?_⟩
    exact ⟨rfl, fun _ hmem => absurd hmem not_mem_nil⟩
  | cons node rest ih =>
    have hrest : rest <:+ body.graph.nodes := (suffix_cons _ _).trans hnodes
    rcases round_cons h with ⟨b, ps, mid, _, hb, hnew, hshape, hblock, hround, rfl⟩ | ⟨hskip, h⟩
    · obtain ⟨hfill₁, he₁, hemitted⟩ := block_ok hbody hfill hnodes hb hnew hshape hblock
      obtain ⟨hfill₂, he₂, -⟩ := ih hrest hfill₁ hround
      have hmem : b ∈ body.graph.blocks :=
        mem_filterMap.mpr ⟨node, hnodes.subset mem_cons_self, hb⟩
      have he := he₁.trans he₂
      exact ⟨hfill₂, he, pending_lt he.emitted hmem hnew (he₂.emitted b hemitted)⟩
    · obtain ⟨hfill', he, hmore⟩ := ih hrest hfill h
      refine ⟨hfill', he, ?_⟩
      cases more with
      | true => exact hmore
      | false =>
        refine ⟨hmore.1, fun other hother b hb => ?_⟩
        rcases mem_cons.mp hother with rfl | hother
        · exact hskip b hb
        · exact hmore.2 other hother b hb

theorem rounds_ok (hbody : PlainBody body instrs) {fuel : Nat} (hfill : Filling expand body st)
    (hfuel : (pending body st).length < fuel) (h : rounds expand body fuel st = .ok () st') :
    Complete expand body st' ∧ Extends body.graph st st' := by
  induction fuel generalizing st with
  | zero => cases hfuel
  | succ fuel ih =>
    obtain ⟨more, mid, hround, hrest⟩ := bind_ok h
    obtain ⟨hfill', he, hmore⟩ := round_ok hbody (suffix_refl _) hfill hround
    cases more with
    | true =>
      rw [if_pos rfl] at hmore
      obtain ⟨hcomplete, he'⟩ := ih hfill' (by omega) hrest
      exact ⟨hcomplete, he.trans he'⟩
    | false =>
      obtain ⟨rfl, hnone⟩ := hmore
      cases hrest
      refine ⟨⟨hfill.sound, fun b ps hlook => ?_⟩, .refl⟩
      have hb := (hfill.sound.shaped b ps hlook).1
      obtain ⟨node, hnode, hblock⟩ := mem_filterMap.mp hb
      rcases hnone node hnode b hblock with hemitted | hshape
      · exact hfill.code b hb hemitted
      · rw [hshape] at hlook
        cases hlook

theorem fillBody_ok (hbody : PlainBody body instrs) (hfill : Filling expand body st)
    (h : fillBody expand body st = .ok () st') :
    Complete expand body st' ∧ Extends body.graph st st' := by
  rw [fillBody, hbody.regions] at h
  exact rounds_ok hbody hfill (pending_lt_fuel body st) h

end

end ManagedCore
