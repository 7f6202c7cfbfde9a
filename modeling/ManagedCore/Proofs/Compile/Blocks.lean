import ManagedCore.Proofs.Compile.Branches

/-!
# Code of whole blocks

The code of a block follows its instructions one by one, up to one that ends the block or to the
start of the next. An activation in the middle of such code matches a state of the body that is
run directly, and one step of the body takes it to another match. Steps without code shorten what
is left of the block, so there are only finitely many of them in a row.
-/

namespace ManagedCore

open EmitState List

/-- A method body of its own, without rows that catch exceptions, of covered instructions. -/
structure PlainBody (body : Body) (instrs : List Instruction) : Prop where
  base : body.localBase = 0
  fallback : body.fallback = none
  exit : body.exit = .result none
  nodes : body.graph.nodes.map (·.instr) = instrs
  regions : body.graph.regions = []
  sites : body.graph.returnSites = Direct.returnSites instrs
  blocks : body.graph.blocks.Nodup
  consecutive : Consecutive 0 instrs
  covered : ∀ i ∈ instrs, Direct.covers i.op = true
  fits : ∀ i ∈ instrs, TableFits i.op

section

variable {expand : Option Expander} {body : Body} {instrs : List Instruction}
  {fin st st' : EmitState} {s : SymStack} {d : Direct.State} {a : Activation} {tid : ThreadId}
  {node next : Node} {rest : List Node}

namespace PlainBody

section

variable (h : PlainBody body instrs)

include h

theorem instr_mem (hnodes : (node :: rest) <:+ body.graph.nodes) : node.instr ∈ instrs := by
  rw [← h.nodes]
  exact mem_map_of_mem (hnodes.subset mem_cons_self)

theorem pc_next (hnodes : (node :: next :: rest) <:+ body.graph.nodes) :
    next.instr.pc = node.instr.next := by
  obtain ⟨before, heq⟩ := hnodes
  have hcons := h.consecutive
  rw [← h.nodes, ← heq, map_append] at hcons
  exact hcons.pc_following

theorem find_instr (hnodes : (node :: rest) <:+ body.graph.nodes) :
    instrs.find? (·.pc == node.instr.pc) = some node.instr := by
  obtain ⟨before, heq⟩ := hnodes
  have hcons := h.consecutive
  rw [← h.nodes, ← heq, map_append] at hcons ⊢
  exact hcons.find?_pc

theorem pc_of_block {b : BlockId} {pc : Nat}
    (hmem : node ∈ body.graph.nodes) (hb : node.block = some b)
    (hat : body.graph.blockAt? pc = some b) : node.instr.pc = pc := by
  obtain ⟨found, hfind, hfound⟩ := Option.bind_eq_some_iff.mp hat
  have hpc : found.instr.pc = pc := by simpa using find?_some hfind
  have hpairs := pairwise_iff_getElem.mp (pairwise_filterMap.mp h.blocks)
  obtain ⟨i, hi, rfl⟩ := getElem_of_mem hmem
  obtain ⟨j, hj, rfl⟩ := getElem_of_mem (mem_of_find?_eq_some hfind)
  rcases Nat.lt_trichotomy i j with hij | rfl | hji
  · exact absurd rfl (hpairs i j hi hj hij b hb b hfound)
  · exact hpc
  · exact absurd rfl (hpairs j i hj hi hji b hfound b hb)

end

end PlainBody

/-! ## Adding the code -/

theorem EmitState.Continues.setPc (hs : Sound body.graph st) (ho : st.Open) (pc : Nat) :
    Continues body.graph st { st with pc } :=
  ⟨⟨hs.current, hs.inRange, hs.handlers, hs.graph, hs.shaped⟩, ho,
    ⟨rfl, fun _ _ h => h, fun _ h => h, fun _ _ h => h, fun _ h => ⟨h, rfl⟩,
      fun blk h => ⟨blk, h, .refl _⟩, .inl rfl⟩, rfl⟩

section

variable (hbody : PlainBody body instrs) (hnodes : (node :: rest) <:+ body.graph.nodes)
  (hs : Sound body.graph st) (ho : st.Open)
  (h : Emit.instructions expand body (node :: rest) s st = .ok () st')
include hbody hnodes hs ho h

/-- One instruction of a block is added, with the offset set to its own. -/
theorem instruction_cases :
    ∃ mid, Continues body.graph st mid ∧ (∀ ⦃fin d a⦄, Tracks body fin st s d a →
        Tracks body fin mid s d a) ∧ (Branches body (Direct.execute instrs node.instr) mid st' s ∨
        ∃ s' st₁ next rest', rest = next :: rest' ∧ Straight body instrs node.instr mid st₁ s s' ∧
          if next.block.isSome then
            (Emit.edge body next.instr.pc s' >>= fun c => Emit.terminate (.jump c)) st₁ = .ok () st'
          else Emit.instructions expand body rest s' st₁ = .ok () st') := by
  have hmem := hbody.instr_mem hnodes
  obtain ⟨_, mid, hpc, hcode⟩ := Emit.bind_ok h
  cases hpc
  have hset := Continues.setPc hs ho (body.callPc.getD node.instr.pc)
  refine ⟨_, hset, fun fin d a htr => ?_, ?_⟩
  · exact htr.sameSpot ⟨rfl, rfl, rfl⟩ (Nat.le_refl _)
  · obtain ⟨r, st₁, hinstr, hrest⟩ := Emit.bind_ok hcode
    cases r with
    | none =>
      cases hrest
      exact .inl (instruction_none hset.sound hset.opened hbody.base hbody.exit hbody.sites
        (hbody.covered _ hmem) (hbody.fits _ hmem) hinstr)
    | some s' =>
      have hstraight : Straight body instrs node.instr _ st₁ s s' :=
        instruction_some hset.sound hset.opened hbody.base (hbody.covered _ hmem) hinstr
      cases rest with
      | nil => cases hrest
      | cons next rest =>
        refine .inr ⟨s', st₁, next, rest, rfl, hstraight, ?_⟩
        dsimp only at hrest
        split at hrest
        · rename_i hblock
          rw [if_pos hblock]
          exact hrest
        · rename_i hblock
          rw [if_neg hblock]
          exact hrest

theorem instructions_ok : Ends body.graph st st' := by
  induction rest generalizing node s st with
  | nil =>
    obtain ⟨mid, hcont, -, hends | ⟨_, _, _, _, hnil, -⟩⟩ := instruction_cases hbody hnodes hs ho h
    · exact hcont.ends hends.toEnds
    · cases hnil
  | cons next rest ih =>
    obtain ⟨mid, hcont, -, hends | ⟨s', st₁, _, _, hcons, hstraight, hrest⟩⟩ :=
      instruction_cases hbody hnodes hs ho h
    · exact hcont.ends hends.toEnds
    · refine hcont.ends (hstraight.ends ?_)
      split at hrest
      · exact (jumpTo_ok hstraight.sound hstraight.opened hrest).1
      · exact ih ((suffix_cons _ _).trans hnodes) hstraight.sound hstraight.opened hrest

end

/-! ## Running the code -/

structure CodeAt (expand : Option Expander) (body : Body) (fin : EmitState) (nodes : List Node)
    (s : SymStack) (st : EmitState) : Prop where
  sound : Sound body.graph st
  opened : st.Open
  code : ∃ st', Emit.instructions expand body nodes s st = .ok () st' ∧
    Extends body.graph st' fin

def HasCode (expand : Option Expander) (body : Body) (fin : EmitState) (b : BlockId) : Prop :=
  ∃ node rest ps st, (node :: rest) <:+ body.graph.nodes ∧ node.block = some b ∧
    CodeAt expand body fin (node :: rest) ps.reverse st ∧ st.block = b ∧
    st.shapes.lookup b = some ps ∧ ∃ blk, st.function.block? b = some blk ∧ blk.instrs = #[]

structure Complete (expand : Option Expander) (body : Body) (fin : EmitState) : Prop where
  sound : Sound body.graph fin
  code : ∀ b ps, fin.shapes.lookup b = some ps → HasCode expand body fin b

/-- The activation stands in front of the code of the instruction at the offset of the direct
state, with so many more instructions behind it. -/
def Matches (expand : Option Expander) (body : Body) (fin : EmitState) (n : Nat)
    (d : Direct.State) (a : Activation) : Prop :=
  ∃ node rest s st, rest.length = n ∧ (node :: rest) <:+ body.graph.nodes ∧
    node.instr.pc = d.pc ∧ CodeAt expand body fin (node :: rest) s st ∧ Tracks body fin st s d a

theorem AtBlock.matches (hbody : PlainBody body instrs) (hfin : Complete expand body fin)
    (h : AtBlock body fin d a) : ∃ n, Matches expand body fin n d a := by
  obtain ⟨ps, hlook, hcarries⟩ := h.stack
  obtain ⟨node, rest, qs, st, hnodes, hblock, hcode, hst, hshape, blk, hblk, hempty⟩ :=
    hfin.code _ _ hlook
  obtain ⟨st', hinstrs, hefin⟩ := hcode.code
  have hends := instructions_ok hbody hnodes hcode.sound hcode.opened hinstrs
  obtain rfl : qs = ps := by
    have hlook' := hefin.shapes _ _ (hends.later.shapes _ _ hshape)
    rw [hlook, Option.some.injEq] at hlook'
    exact hlook'.symm
  refine ⟨rest.length, node, rest, _, st, rfl, hnodes, ?_, hcode, ?_, ?_, h.locals, h.room⟩
  · exact hbody.pc_of_block (hnodes.subset mem_cons_self) hblock h.block
  · refine ⟨h.function, h.wait, hst.symm, fun blk' hblk' => ?_, h.regs⟩
    rw [hst, hblk, Option.some.injEq] at hblk'
    rw [h.index, ← hblk', hempty]
    rfl
  · -- The parameters were there before the code of the block.
    obtain ⟨-, -, hlt, -⟩ := hcode.sound.shaped _ _ hshape
    exact ⟨hcarries.values, fun e he => ⟨hlt e (mem_reverse.mp he), (hcarries.typed e he).2⟩⟩

/-- One step of the body: the code takes turns, or less of the block is left. -/
theorem Matches.step (tid : ThreadId) (hbody : PlainBody body instrs)
    (hfin : Complete expand body fin) {n : Nat} (h : Matches expand body fin n d a) :
    Simulates tid 1 (fun d' b => ∃ m, Matches expand body fin m d' b) a (Direct.step instrs d) ∨
      Simulates tid 0 (fun d' b => ∃ m, m < n ∧ Matches expand body fin m d' b) a
        (Direct.step instrs d) := by
  obtain ⟨node, rest, s, st, hlen, hnodes, hpc, hcode, htr⟩ := h
  obtain ⟨st', hinstrs, hefin⟩ := hcode.code
  have hstep : Direct.step instrs d = Direct.execute instrs node.instr d := by
    rw [Direct.step, ← hpc, hbody.find_instr hnodes]
  rw [hstep]
  obtain ⟨mid, -, hset, hends | ⟨s', st₁, next, rest', rfl, hstraight, hrest⟩⟩ :=
    instruction_cases hbody hnodes hcode.sound hcode.opened hinstrs
  · refine .inl ((hends.runs hfin.sound hefin (hset htr)).andThen 0 fun d' b hb => ?_)
    exact ⟨b, .here b, hb.matches hbody hfin⟩
  · have hnext := hbody.pc_next hnodes
    split at hrest
    · -- The next instruction starts a block, and the code jumps there.
      obtain ⟨hends, hruns⟩ := jumpTo_ok hstraight.sound hstraight.opened hrest
      refine .inl ((hstraight.runs hfin.sound (hends.later.trans hefin) (hset htr)).andThen 1 ?_)
      rintro d' b ⟨hpc', htr'⟩
      obtain ⟨b', hleads, hblock⟩ := hruns tid hfin.sound hefin htr'
      rw [hnext, ← hpc'] at hblock
      exact ⟨b', hleads, hblock.matches hbody hfin⟩
    · have hnodes' := (suffix_cons _ _).trans hnodes
      have hends := instructions_ok hbody hnodes' hstraight.sound hstraight.opened hrest
      refine .inr ((hstraight.runs hfin.sound (hends.later.trans hefin) (hset htr)).andThen 0 ?_)
      rintro d' b ⟨hpc', htr'⟩
      refine ⟨b, .here b, rest'.length, ?_, next, rest', s', st₁, rfl, hnodes', ?_, ?_, htr'⟩
      · rw [← hlen]
        exact Nat.lt_succ_self _
      · rw [hnext, hpc']
      · exact ⟨hstraight.sound, hstraight.opened, st', hrest, hefin⟩

end

end ManagedCore
