import ManagedCore.Proofs.Compile.Ascent
import ManagedCore.Proofs.Compile.Expansion

/-!
# Levels of a body

The blocks of a body lie on levels, one for each offset at which a block may start, with room for
the code of each instruction and for the tests of the exceptions that a handler catches. A branch
to an offset behind its own goes up, and any other branch polls first.
-/

namespace ManagedCore

open EmitState List Option

/-- The blocks of a body lie on levels by offset. The tests of a region lie right below the first
handler that they lead to, and everything lies below the place that the body returns to. -/
structure Levels (caught : Prop) (height : BlockId → ℚ) (n : Nat) (body : Body)
    (level : Nat → ℚ) : Prop where
  mono : StrictMono level
  consecutive : Consecutive 0 (body.graph.nodes.map (·.instr))
  starts : ∀ node ∈ body.graph.nodes, ∀ b, node.block = some b →
    b < n ∧ height b = level (2 * node.instr.pc + 1)
  exit : ∀ k, body.exit = .inline k → k < n ∧ ∀ i, level i < height k
  fallback : caught ∨ body.graph.regions ≠ [] →
    ∀ x, body.fallback = some x → x < n ∧ ∀ i, level i < height x
  regions : ∀ region ∈ body.graph.regions, region.dispatch < n ∧ ∃ first,
    height region.dispatch = level (2 * first) ∧
    (∀ row ∈ region.rows.filterMap (body.code.handlers[·]?), first ≤ row.handler) ∧
    (caught → ∀ node ∈ body.graph.nodes, body.graph.regionAt? node.instr.pc = some region →
      node.instr.pc < first)

section

variable {caught : Prop} {height height' : BlockId → ℚ} {n n' : Nat} {body : Body}
  {level : Nat → ℚ} {st st' : EmitState}

section

variable (h : Levels caught height n body level)

include h

theorem Levels.stretch
    (hs : Stretches height n height' n') : Levels caught height' n' body level where
  mono := h.mono
  consecutive := h.consecutive
  starts node hnode b hb := by
    obtain ⟨hlt, heq⟩ := h.starts node hnode b hb
    exact ⟨Nat.lt_of_lt_of_le hlt hs.size, (hs.same b hlt).trans heq⟩
  exit k hk := by
    obtain ⟨hlt, habove⟩ := h.exit k hk
    rw [hs.same k hlt]
    exact ⟨Nat.lt_of_lt_of_le hlt hs.size, habove⟩
  fallback hneeded x hx := by
    obtain ⟨hlt, habove⟩ := h.fallback hneeded x hx
    rw [hs.same x hlt]
    exact ⟨Nat.lt_of_lt_of_le hlt hs.size, habove⟩
  regions region hregion := by
    obtain ⟨hlt, first, heq, hrest⟩ := h.regions region hregion
    exact ⟨Nat.lt_of_lt_of_le hlt hs.size, first, (hs.same _ hlt).trans heq, hrest⟩

theorem Levels.blockAt {pc : Nat} {b : BlockId}
    (hb : body.graph.blockAt? pc = some b) : b < n ∧ height b = level (2 * pc + 1) := by
  obtain ⟨node, hnode, hblock⟩ := bind_eq_some_iff.mp hb
  have hpc := find?_some hnode
  rw [beq_iff_eq] at hpc
  exact hpc ▸ h.starts node (mem_of_find?_eq_some hnode) b hblock

theorem Levels.lt_next {node : Node}
    (hnode : node ∈ body.graph.nodes) : node.instr.pc < node.instr.next := by
  obtain ⟨before, rest, hnodes⟩ := append_of_mem hnode
  have hcons := h.consecutive
  rw [hnodes, map_append] at hcons
  exact Nat.lt_add_of_pos_right (Consecutive.suffix _ hcons).2.1

theorem Levels.lt_following {node next : Node}
    {rest : List Node} (hnodes : node :: next :: rest <:+ body.graph.nodes) :
    node.instr.pc < next.instr.pc := by
  obtain ⟨before, hbefore⟩ := hnodes
  have hcons := h.consecutive
  rw [← hbefore, map_append] at hcons
  rw [hcons.pc_following]
  exact h.lt_next (hbefore ▸ mem_append_right _ mem_cons_self)

theorem Levels.handlerFor (hcaught : caught)
    {node : Node} (hnode : node ∈ body.graph.nodes) {x : BlockId}
    (hx : Emit.handlerFor body node.instr.pc = some x) :
    x < n ∧ level (2 * node.instr.pc + 1) < height x := by
  unfold Emit.handlerFor at hx
  cases hregion : body.graph.regionAt? node.instr.pc with
  | none =>
    rw [hregion] at hx
    obtain ⟨hlt, habove⟩ := h.fallback (.inl hcaught) x hx
    exact ⟨hlt, habove _⟩
  | some region =>
    rw [hregion] at hx
    cases hx
    obtain ⟨i, -, hi⟩ := bind_eq_some_iff.mp hregion
    obtain ⟨hlt, first, heq, -, hfirst⟩ := h.regions region (mem_of_getElem? hi)
    have hpc := hfirst hcaught node hnode hregion
    refine ⟨hlt, heq ▸ h.mono ?_⟩
    omega

end

theorem Upward.alike {c : BlockCall} (h : Upward height st c) (ha : st.Alike st') :
    Upward height st' c := by
  rw [Upward, ha.size, ha.block]
  exact ⟨h.1, h.2.imp_left ha.polls⟩

/-! ## Edges -/

variable {pc target : Nat} {top : ℚ} {s : SymStack} {c : BlockCall}

theorem EmitState.alike_edge (he : Emit.edge body target s st = .ok c st') :
    st.Alike st' ∧ body.graph.blockAt? target = some c.block := by
  obtain ⟨hb, -, ps, -, ⟨-, rfl⟩ | ⟨-, mid, hadds, rfl⟩⟩ := edge_cases he
  · exact ⟨.of_same rfl rfl, hb⟩
  · exact ⟨(Alike.addsParams hadds).trans (.of_same rfl rfl), hb⟩

theorem Climbing.edgeAbove (hc : Climbing caught height top st)
    (hl : Levels caught height st.nextBlock body level)
    (hpc : st.function.Polls st.block ∨ top ≤ level (2 * target + 1))
    (he : Emit.edge body target s st = .ok c st') : st.Alike st' ∧ Upward height st' c := by
  obtain ⟨halike, hat⟩ := alike_edge he
  obtain ⟨hlt, heq⟩ := hl.blockAt hat
  refine ⟨halike, Upward.alike ⟨hlt, hpc.imp_right fun hpc => ?_⟩ halike⟩
  exact heq ▸ hc.below.trans_le hpc

/-- An edge to a later offset goes up from the code of an instruction. -/
theorem Climbing.edge (hc : Climbing caught height (level (2 * pc + 2)) st)
    (hl : Levels caught height st.nextBlock body level)
    (hpc : st.function.Polls st.block ∨ pc < target)
    (he : Emit.edge body target s st = .ok c st') : st.Alike st' ∧ Upward height st' c :=
  hc.edgeAbove hl (hpc.imp_right fun hpc => hl.mono.monotone (by omega)) he

theorem Climbing.edges {α β : Type} {f : α → β × Nat} {s : SymStack} {xs : List α}
    {cases : List (β × BlockCall)} (hc : Climbing caught height (level (2 * pc + 2)) st)
    (hl : Levels caught height st.nextBlock body level)
    (hpc : ∀ x ∈ xs, st.function.Polls st.block ∨ pc < (f x).2)
    (he : (xs.mapM fun x => return ((f x).1, ← Emit.edge body (f x).2 s)) st = .ok cases st') :
    st.Alike st' ∧ ∀ c ∈ cases, Upward height st' c.2 := by
  induction xs generalizing st cases with
  | nil =>
    cases he
    exact ⟨.of_same rfl rfl, nofun⟩
  | cons x xs ih =>
    rw [mapM_cons] at he
    obtain ⟨first, mid, hfirst, he⟩ := Emit.bind_ok he
    obtain ⟨c, mid', hedge, hpair⟩ := Emit.bind_ok hfirst
    cases hpair
    obtain ⟨rest, mid', hrest, he⟩ := Emit.bind_ok he
    cases he
    obtain ⟨halike, hup⟩ := hc.edge hl (hpc x (by simp)) hedge
    obtain ⟨halike', hups⟩ := ih (hc.alike halike) (halike.size ▸ hl)
      (fun y hy => (hpc y (by simp [hy])).imp_left fun hp => halike.block ▸ halike.polls hp) hrest
    exact ⟨halike.trans halike', forall_mem_cons.mpr ⟨hup.alike halike', hups⟩⟩

end

/-! ## Ends of blocks -/

namespace Emit

variable {α : Type} {caught : Prop} {body : Body} {pc : Nat} {i : Instruction} {t : Terminator}
  {st st' : EmitState} {height : BlockId → ℚ} {target : Nat}

def Closes (caught : Prop) (body : Body) (pc : Nat) (x : Emit Unit) : Prop :=
  ∀ height level st st', Levels caught height st.nextBlock body level →
    Climbing caught height (level (2 * pc + 2)) st → x st = .ok () st' →
    ∃ height', Stretches height st.nextBlock height' st'.nextBlock ∧
      st'.function.Rises caught height'

theorem Closes.straight {x : Emit α} {f : α → Emit Unit} (hx : Straight 0 0 x)
    (hf : ∀ a, Closes caught body pc (f a)) : Closes caught body pc (x >>= f) := by
  intro height level st st' hl hc h
  obtain ⟨a, mid, hmid, hrest⟩ := bind_ok h
  obtain ⟨height₁, hstretch₁, hc₁⟩ := hx.ascends height st a mid hc hmid
  obtain ⟨height₂, hstretch₂, hrises⟩ := hf a height₁ level mid st' (hl.stretch hstretch₁) hc₁ hrest
  exact ⟨height₂, hstretch₁.trans hstretch₂, hrises⟩

theorem Closes.throw {e : CompileError} : Closes caught body pc (throw e) :=
  fun _ _ _ _ _ _ h => nomatch h

theorem rises_terminate
    (hr : st.function.Rises caught height) (ht : ∀ c ∈ t.successors, Upward height st c)
    (h : terminate t st = .ok () st') :
    Stretches height st.nextBlock height st'.nextBlock ∧ st'.function.Rises caught height := by
  cases h
  exact ⟨⟨Nat.le_of_eq nextBlock_close.symm, fun _ _ => rfl⟩, hr.close ht⟩

theorem closes_terminate (ht : t.successors = []) : Closes caught body pc (terminate t) := by
  intro height level st st' hl hc h
  exact ⟨height, rises_terminate hc.rises (by rw [ht]; nofun) h⟩

/-- Behind the poll of a branch, each of its targets is a later one or was polled for. -/
theorem backEdgePoll_ok (hcur : st.block < st.nextBlock) (h : backEdgePoll i st = .ok () st') :
    st.Alike st' ∧ ∀ t ∈ i.op.targets, st'.function.Polls st'.block ∨ i.pc < t := by
  unfold backEdgePoll at h
  split at h
  · cases h
    refine ⟨.addInstr st _, fun t _ => .inl ⟨_, block_onCurrent_self
      (Array.getElem?_eq_getElem hcur), _, Array.mem_push_self, rfl⟩⟩
  · rename_i hnot
    cases h
    refine ⟨.of_same rfl rfl, fun t ht => .inr (Nat.lt_of_not_le fun hle => hnot ?_)⟩
    exact any_eq_true.mpr ⟨t, ht, decide_eq_true hle⟩

theorem closes_branch (hnext : i.pc < i.next) {cond : Reg} {inverted : Bool}
    (htarget : target ∈ i.op.targets) (s : SymStack) :
    Closes caught body i.pc (branch body i cond inverted target s) := by
  intro height level st st' hl hc h
  obtain ⟨_, st₁, hpoll, h⟩ := bind_ok h
  obtain ⟨halike₁, hways⟩ := backEdgePoll_ok hc.current hpoll
  have hc₁ := hc.alike halike₁
  have hl₁ : Levels caught height st₁.nextBlock body level := halike₁.size ▸ hl
  obtain ⟨taken, st₂, htaken, h⟩ := bind_ok h
  obtain ⟨halike₂, hup⟩ := hc₁.edge hl₁ (hways target htarget) htaken
  have hc₂ := hc₁.alike halike₂
  have hl₂ : Levels caught height st₂.nextBlock body level := halike₂.size ▸ hl₁
  obtain ⟨next, st₃, hnext, h⟩ := bind_ok h
  obtain ⟨halike₃, hup'⟩ := hc₂.edge hl₂ (.inr ‹_›) hnext
  have hup := hup.alike halike₃
  have hsize : st₃.nextBlock = st.nextBlock := ((halike₁.trans halike₂).trans halike₃).size
  rw [← hsize]
  refine ⟨height, ?_⟩
  cases inverted with
  | true =>
    refine rises_terminate (hc₂.alike halike₃).rises ?_ h
    simpa [Terminator.successors] using ⟨hup', hup⟩
  | false =>
    refine rises_terminate (hc₂.alike halike₃).rises ?_ h
    simpa [Terminator.successors] using ⟨hup, hup'⟩

theorem closes_jump (htarget : target ∈ i.op.targets)
    (s : SymStack) : Closes caught body i.pc (jump body i target s) := by
  intro height level st st' hl hc h
  obtain ⟨_, st₁, hpoll, h⟩ := bind_ok h
  obtain ⟨halike₁, hways⟩ := backEdgePoll_ok hc.current hpoll
  have hc₁ := hc.alike halike₁
  obtain ⟨c, st₂, hedge, h⟩ := bind_ok h
  obtain ⟨halike₂, hup⟩ := hc₁.edge (halike₁.size ▸ hl) (hways target htarget) hedge
  rw [← (halike₁.trans halike₂).size]
  refine ⟨height, rises_terminate (hc₁.alike halike₂).rises ?_ h⟩
  simpa [Terminator.successors] using hup

theorem rises_returnTable {level : Nat → ℚ}
    {tag : Reg} {s : SymStack} (hl : Levels caught height st.nextBlock body level)
    (hc : Climbing caught height (level (2 * pc + 2)) st)
    (hways : ∀ site ∈ body.graph.returnSites, st.function.Polls st.block ∨ pc < site)
    (h : returnTable body tag s st = .ok () st') :
    ∃ height', Stretches height st.nextBlock height' st'.nextBlock ∧
      st'.function.Rises caught height' := by
  obtain ⟨cases, mid, hcases, h⟩ := bind_ok h
  obtain ⟨halike, hups⟩ := hc.edges (f := fun x : Nat × Nat => (Int32.ofNat x.2, x.1)) hl
    (fun x hx => hways x.1 ((mem_zipIdx hx).2.2 ▸ getElem_mem _)) hcases
  have hc₁ := hc.alike halike
  obtain ⟨handler, z, hhandler, hlow, -, hz⟩ := hc₁.room
  rw [bind_eq hhandler, bind_eq (newBlock_eq mid handler)] at h
  have hstretch := Stretches.update height mid.nextBlock z
  obtain ⟨hadd, hnew, hkeep⟩ := hc₁.addHandled hlow hz
  obtain ⟨hstretch', hrises⟩ := rises_terminate hadd.rises (fun c hmem => by
    rcases mem_append.mp hmem with hmem | hmem
    · obtain ⟨x, hx, rfl⟩ := mem_map.mp hmem
      exact hkeep _ (hups x hx)
    · rw [mem_singleton.mp hmem]
      exact hnew []) h
  rw [nextBlock_addHandled] at hstretch'
  rw [← halike.size]
  exact ⟨_, hstretch.trans hstretch', hrises⟩

theorem closes_polledTable (tag : Reg) (s : SymStack) :
    Closes caught body pc (instr .safepoint >>= fun _ => returnTable body tag s) := by
  intro height level st st' hl hc h
  obtain ⟨_, mid, hpoll, h⟩ := bind_ok h
  cases hpoll
  have halike := Alike.addInstr st .safepoint
  have hpolls : (st.addInstr .safepoint).function.Polls st.block :=
    ⟨_, block_onCurrent_self (Array.getElem?_eq_getElem hc.current), _, Array.mem_push_self, rfl⟩
  rw [← halike.size]
  exact rises_returnTable (halike.size ▸ hl) (hc.alike halike) (fun _ _ => .inl hpolls) h

theorem closes_switchOn {key : Reg} {default : Nat} {pairs : List (Int32 × Nat)}
    (hdefault : default ∈ i.op.targets) (hpairs : ∀ p ∈ pairs, p.2 ∈ i.op.targets)
    (s : SymStack) : Closes caught body i.pc (switchOn body i key default pairs s) := by
  intro height level st st' hl hc h
  obtain ⟨_, st₁, hpoll, h⟩ := bind_ok h
  obtain ⟨halike₁, hways⟩ := backEdgePoll_ok hc.current hpoll
  have hc₁ := hc.alike halike₁
  have hl₁ : Levels caught height st₁.nextBlock body level := halike₁.size ▸ hl
  obtain ⟨cases, st₂, hcases, h⟩ := bind_ok h
  obtain ⟨halike₂, hups⟩ := hc₁.edges hl₁ (fun p hp => hways _ (hpairs p hp)) hcases
  have hc₂ := hc₁.alike halike₂
  obtain ⟨e, st₃, hedge, h⟩ := bind_ok h
  obtain ⟨halike₃, hup⟩ := hc₂.edge (halike₂.size ▸ hl₁)
    ((hways default hdefault).imp_left fun hp => halike₂.block ▸ halike₂.polls hp) hedge
  rw [← ((halike₁.trans halike₂).trans halike₃).size]
  refine ⟨height, rises_terminate (hc₂.alike halike₃).rises (fun c hmem => ?_) h⟩
  rcases mem_append.mp hmem with hmem | hmem
  · obtain ⟨x, hx, rfl⟩ := mem_map.mp hmem
    exact (hups x hx).alike halike₃
  · rw [mem_singleton.mp hmem]
    exact hup

theorem closes_leave (v : Option Reg) : Closes caught body pc (leave body v) := by
  unfold leave
  split
  · rename_i lock _
    cases lock with
    | none => exact closes_terminate rfl
    | some object => exact .straight (straight_instr rfl) fun _ => closes_terminate rfl
  · rename_i k hexit
    intro height level st st' hl hc h
    obtain ⟨hlt, habove⟩ := hl.exit k hexit
    refine ⟨height, rises_terminate hc.rises (fun c hmem => ?_) h⟩
    rw [mem_singleton.mp hmem]
    exact ⟨hlt, .inr (hc.below.trans (habove _))⟩

theorem Ending.closes {s : SymStack} {x : Emit Unit} (h : Ending body i s x)
    (hnext : i.pc < i.next) : Closes caught body i.pc x := by
  induction h with
  | throw e => exact .throw
  | wired hx _ ih => exact .straight hx.straight ih
  | branch _ _ htarget => exact closes_branch hnext htarget _
  | jump _ htarget => exact closes_jump htarget _
  | switch _ _ hdefault hpairs => exact closes_switchOn hdefault hpairs _
  | polledTable _ _ => exact closes_polledTable _ _
  | table _ _ hlater =>
    exact fun _ _ _ _ hl hc h => rises_returnTable hl hc (fun site hsite => .inr (hlater site hsite)) h
  | leave _ _ => exact closes_leave _
  | terminate _ hend _ => exact closes_terminate hend

end Emit

/-! ## Graphs -/

def Code.firstHandler (code : Code) (region : Region) : Nat :=
  ((region.rows.filterMap (code.handlers[·]?)).map (·.handler)).min?.getD 0

def FlowGraph.heightOf (g : FlowGraph) (code : Code) (level : Nat → ℚ) (b : BlockId) : ℚ :=
  match g.nodes.find? (·.block == some b), g.regions.find? (·.dispatch == b) with
  | some node, _ => level (2 * node.instr.pc + 1)
  | none, some region => level (2 * code.firstHandler region)
  | none, none => 0

namespace FlowGraph

variable {code : Code} {f f' : Function} {g : FlowGraph} {region : Region}

theorem Drawn.node_of_block (h : Drawn code f g f') {node other : Node} (hnode : node ∈ g.nodes)
    (hother : other ∈ g.nodes) {b : BlockId} (hb : node.block = some b)
    (hb' : other.block = some b) : node = other := by
  obtain ⟨k, hblocks, -⟩ := h.blocks
  have hnodup : g.blocks.Nodup := hblocks ▸ nodup_range'
  have hpairs := pairwise_filterMap.mp hnodup
  by_contra hne
  have : Std.Symm fun a a' : Node =>
      ∀ b, a.block = some b → ∀ b', a'.block = some b' → b ≠ b' :=
    ⟨fun _ _ hrel b hb b' hb' => (hrel b' hb' b hb).symm⟩
  exact hpairs.forall hnode hother hne b hb b hb' rfl

theorem Drawn.heightOf_node (h : Drawn code f g f') (level : Nat → ℚ) {node : Node}
    (hnode : node ∈ g.nodes) {b : BlockId} (hb : node.block = some b) :
    g.heightOf code level b = level (2 * node.instr.pc + 1) := by
  have hsome : (g.nodes.find? (·.block == some b)).isSome :=
    find?_isSome.mpr ⟨node, hnode, beq_iff_eq.mpr hb⟩
  obtain ⟨other, hother⟩ := isSome_iff_exists.mp hsome
  have hblock := find?_some hother
  rw [beq_iff_eq] at hblock
  have hsame := h.node_of_block hnode (mem_of_find?_eq_some hother) hb hblock
  rw [heightOf, hother, hsame]

theorem Drawn.heightOf_region (h : Drawn code f g f') (level : Nat → ℚ)
    (hregion : region ∈ g.regions) :
    g.heightOf code level region.dispatch = level (2 * code.firstHandler region) := by
  obtain ⟨k, hblocks, hdispatch⟩ := h.blocks
  obtain ⟨i, hi⟩ := mem_iff_getElem?.mp hregion
  have hnone : g.nodes.find? (·.block == some region.dispatch) = none := by
    refine find?_eq_none.mpr fun node hnode hb => ?_
    have hmem : region.dispatch ∈ g.blocks := mem_filterMap.mpr ⟨node, hnode, beq_iff_eq.mp hb⟩
    rw [hblocks, (hdispatch.region hi).1, Array.size_append, Array.size_replicate] at hmem
    have hlt := (mem_range'_1.mp hmem).2
    omega
  have hsome : (g.regions.find? (·.dispatch == region.dispatch)).isSome :=
    find?_isSome.mpr ⟨region, hregion, beq_self_eq_true _⟩
  obtain ⟨other, hother⟩ := isSome_iff_exists.mp hsome
  have hnodup : (g.regions.map (·.dispatch)).Nodup := hdispatch.ids ▸ nodup_range'
  have hid := find?_some hother
  rw [beq_iff_eq] at hid
  have hsame : other = region :=
    inj_on_of_nodup_map hnodup (mem_of_find?_eq_some hother) hregion hid
  rw [heightOf, hnone, hother, hsame]

theorem firstHandler_le {row : HandlerRow} (h : row ∈ region.rows.filterMap (code.handlers[·]?)) :
    code.firstHandler region ≤ row.handler :=
  min?_getD_le_of_mem (mem_map_of_mem h)

/-- Where handlers lie behind what they protect, the first handler of a region lies behind each of
its instructions. -/
theorem Drawn.lt_firstHandler (h : Drawn code f g f')
    (hforward : ∀ row ∈ code.handlers, row.stop ≤ row.handler) {node : Node}
    (hnode : node ∈ g.nodes) (hregion : g.regionAt? node.instr.pc = some region) :
    node.instr.pc < code.firstHandler region := by
  rw [regionAt?, h.nodeAt hnode, bind_some] at hregion
  obtain ⟨i, hi, hget⟩ := bind_eq_some_iff.mp hregion
  rcases h.covered node hnode with ⟨-, hnone⟩ | ⟨hne, j, hj, hfind⟩
  · rw [hi] at hnone
    cases hnone
  · cases hi.symm.trans hj
    obtain ⟨hlt, hrows, -⟩ := findIdx?_eq_some_iff_getElem.mp hfind
    have hrows : region.rows = coveringRows code.handlers node.instr.pc := by
      rw [getElem?_eq_getElem hlt, some.injEq] at hget
      rw [← hget]
      exact beq_iff_eq.mp hrows
    have hcovers : ∀ row ∈ region.rows.filterMap (code.handlers[·]?),
        node.instr.pc < row.handler := by
      intro row hrow
      obtain ⟨n, hn, hget⟩ := mem_filterMap.mp hrow
      rw [hrows] at hn
      obtain ⟨⟨row', n'⟩, hmem, rfl⟩ := mem_map.mp hn
      obtain ⟨hzip, hcov⟩ := mem_filter.mp hmem
      have hget' := mk_mem_zipIdx_iff_getElem?.mp hzip
      rw [hget', some.injEq] at hget
      subst hget
      have hstop := hforward row' (mem_of_getElem? hget')
      simp only [HandlerRow.covers, Bool.and_eq_true, decide_eq_true_eq] at hcov
      omega
    rw [Code.firstHandler]
    cases hmin : ((region.rows.filterMap (code.handlers[·]?)).map (·.handler)).min? with
    | some first =>
      obtain ⟨row, hrow, rfl⟩ := mem_map.mp (min?_mem hmin)
      exact hcovers row hrow
    | none =>
      rw [min?_eq_none_iff, map_eq_nil_iff, filterMap_eq_nil_iff] at hmin
      obtain ⟨n, hn⟩ := exists_mem_of_ne_nil _ hne
      have hnone := hmin n (hrows ▸ hn)
      obtain ⟨⟨row, n'⟩, hmem, rfl⟩ := mem_map.mp hn
      rw [mk_mem_zipIdx_iff_getElem?.mp (mem_filter.mp hmem).1] at hnone
      cases hnone

end FlowGraph

section

variable {caught : Prop} {height : BlockId → ℚ} {level : Nat → ℚ} {top : ℚ} {st st' : EmitState}
  {code : Code} {g : FlowGraph} {f : Function} {low high : ℚ}

theorem levels_draw (hd : FlowGraph.Drawn code st.function g f)
    (hr : st.function.Rises caught height) (hmono : StrictMono level)
    (hforward : caught → ∀ row ∈ code.handlers, row.stop ≤ row.handler) :
    ∃ height', Stretches height st.nextBlock height' f.blocks.size ∧ f.Rises caught height' ∧
      ∀ body : Body, body.graph = g → body.code = code →
        (∀ k, body.exit = .inline k → k < st.nextBlock ∧ ∀ i, level i < height k) →
        (caught ∨ g.regions ≠ [] →
          ∀ x, body.fallback = some x → x < st.nextBlock ∧ ∀ i, level i < height x) →
        Levels caught height' f.blocks.size body level := by
  let height' (b : BlockId) : ℚ := if b < st.nextBlock then height b else g.heightOf code level b
  have hold : ∀ b, b < st.nextBlock → height' b = height b := fun b hb => if_pos hb
  have hnew : ∀ b, st.nextBlock ≤ b → height' b = g.heightOf code level b :=
    fun b hb => if_neg (Nat.not_lt.mpr hb)
  have hstretch : Stretches height st.nextBlock height' f.blocks.size := ⟨hd.size_le, hold⟩
  refine ⟨height', hstretch, fun b blk hb => ?_, ?_⟩
  · by_cases hlt : b < st.nextBlock
    · rw [hd.block_lt hlt] at hb
      exact (hr b blk hb).keep hlt hd.size_le hold rfl rfl id
    · obtain ⟨-, hend, hnone, -⟩ := hd.block_new (Nat.not_lt.mp hlt) hb
      refine .empty (by rw [hend]; rfl) fun _ x hx => ?_
      rw [hnone] at hx
      cases hx
  rintro body rfl rfl hexit hfallback
  obtain ⟨k, hblocks, hdispatch⟩ := hd.blocks
  have hsize : f.blocks.size = st.nextBlock + k + body.graph.regions.length := by
    rw [hdispatch.function]
    simp [nextBlock, Nat.add_assoc]
  refine ⟨hmono, hd.consecutive, fun node hnode b hb => ?_, fun c hc => ?_, fun hneeded x hx => ?_,
    fun region hregion => ?_⟩
  · have hmem : b ∈ body.graph.blocks := mem_filterMap.mpr ⟨node, hnode, hb⟩
    rw [hblocks] at hmem
    obtain ⟨hle, hlt⟩ := mem_range'_1.mp hmem
    rw [hnew b hle, hd.heightOf_node level hnode hb]
    exact ⟨Nat.lt_of_lt_of_le hlt (hsize ▸ Nat.le_add_right _ _), rfl⟩
  · obtain ⟨hlt, habove⟩ := hexit c hc
    rw [hold c hlt]
    exact ⟨Nat.lt_of_lt_of_le hlt hd.size_le, habove⟩
  · obtain ⟨hlt, habove⟩ := hfallback hneeded x hx
    rw [hold x hlt]
    exact ⟨Nat.lt_of_lt_of_le hlt hd.size_le, habove⟩
  · obtain ⟨i, hi⟩ := mem_iff_getElem?.mp hregion
    have hid := (hdispatch.region hi).1
    rw [Array.size_append, Array.size_replicate] at hid
    have hlt := (List.getElem?_eq_some_iff.mp hi).1
    have hle : st.nextBlock ≤ region.dispatch := by
      rw [hid]
      exact Nat.le_trans (Nat.le_add_right _ k) (Nat.le_add_right _ i)
    refine ⟨?_, body.code.firstHandler region, ?_, fun row => FlowGraph.firstHandler_le,
      fun hcaught node hnode => hd.lt_firstHandler (hforward hcaught) hnode⟩
    · rw [hid, hsize]
      exact Nat.add_lt_add_left hlt _
    · rw [hnew _ hle, hd.heightOf_region level hregion]

def between (low high : ℚ) (i : Nat) : ℚ := high - (high - low) / (i + 2)

theorem between_bounds (h : low < high) (i : Nat) :
    low < between low high i ∧ between low high i < high := by
  have hpos : 0 < high - low := sub_pos.mpr h
  have hi : (1 : ℚ) < i + 2 := by
    linarith
  have hdiv : 0 < (high - low) / (i + 2) := div_pos hpos (zero_lt_one.trans hi)
  have hlt : (high - low) / (i + 2) < high - low := div_lt_self hpos hi
  unfold between
  constructor <;> linarith

theorem strictMono_between (h : low < high) : StrictMono (between low high) := by
  intro i j hij
  have hcast : (i : ℚ) + 2 < j + 2 := by
    have : (i : ℚ) < j := Nat.cast_lt.mpr hij
    linarith
  have hi : (0 : ℚ) < i + 2 := by
    linarith
  have hdiv : (high - low) / (j + 2) < (high - low) / (i + 2) :=
    div_lt_div_of_pos_left (sub_pos.mpr h) hi hcast
  unfold between
  linarith

end

end ManagedCore
