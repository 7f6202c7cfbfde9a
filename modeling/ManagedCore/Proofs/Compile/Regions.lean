import ManagedCore.Proofs.Compile.Prologue

/-!
# Flow graphs with exception tables

The blocks of the instructions come first, then one block for each region. A region holds exactly
the rows that cover its instructions, and two neighbours that start no block in between belong to
the same region.
-/

namespace ManagedCore.FlowGraph

open List

variable {f f' : Function} {new : List Region} {g : FlowGraph} {code : Code}

/-! ## Blocks -/

theorem addBlocks_isSome {starts : List Nat} {instrs : List Instruction} {i : Instruction}
    {b : Option BlockId} (h : (i, b) ∈ (addBlocks starts instrs f).1) :
    b.isSome = true ↔ i.pc ∈ starts := by
  induction instrs generalizing f with
  | nil => cases h
  | cons j rest ih =>
    rw [addBlocks] at h
    split at h
    · rename_i hstart
      rcases mem_cons.mp h with heq | h
      · cases heq
        simpa using hstart
      · exact ih h
    · rename_i hnot
      rcases mem_cons.mp h with heq | h
      · cases heq
        simpa using hnot
      · exact ih h

/-! ## Regions -/

theorem addDispatch_eq (f : Function) : addDispatch f = (f.blocks.size, f.regTypes.size, { f with
        blocks := f.blocks.push { params := [f.regTypes.size] }
        regTypes := f.regTypes.push .ref }) := by
  let build (blocks : Array Block) : BlockId × Reg × Function :=
    (f.blocks.size, f.regTypes.size, { f with blocks, regTypes := f.regTypes.push .ref })
  exact congrArg build (EmitState.modify_push f.blocks {} fun blk =>
    { blk with params := blk.params ++ [f.regTypes.size] })

structure Dispatches (f : Function) (new : List Region) (f' : Function) : Prop where
  ids : new.map (·.dispatch) = range' f.blocks.size new.length
  regs : new.map (·.exception) = range' f.regTypes.size new.length
  function : f' = { f with
    blocks := f.blocks ++ (new.map fun region => ({ params := [region.exception] } : Block)).toArray
    regTypes := f.regTypes ++ Array.replicate new.length .ref }

theorem Dispatches.nil (f : Function) : Dispatches f [] f where
  ids := rfl
  regs := rfl
  function := by simp

theorem Dispatches.cons (rows : List Nat) (h : Dispatches (addDispatch f).2.2 new f') :
    Dispatches f (⟨rows, (addDispatch f).1, (addDispatch f).2.1⟩ :: new) f' := by
  rw [addDispatch_eq] at h ⊢
  obtain ⟨hids, hregs, hfun⟩ := h
  rw [Array.size_push] at hids hregs
  refine ⟨?_, ?_, ?_⟩
  · rw [map_cons, hids, length_cons, range'_succ]
  · rw [map_cons, hregs, length_cons, range'_succ]
  · rw [hfun, length_cons, Array.replicate_succ']
    simp

section

variable (h : Dispatches f new f')

include h

theorem Dispatches.block_lt {b : BlockId} (hb : b < f.blocks.size) : f'.block? b = f.block? b := by
  rw [h.function]
  exact Array.getElem?_append_left hb

theorem Dispatches.block_ge (i : Nat) : f'.block? (f.blocks.size + i) =
      (new[i]?).map fun region => { params := [region.exception] } := by
  rw [h.function]
  change (f.blocks ++ _)[f.blocks.size + i]? = _
  rw [Array.getElem?_append_right (Nat.le_add_right _ _), Nat.add_sub_cancel_left,
    getElem?_toArray, getElem?_map]

theorem Dispatches.regType {r : Reg} {t : ValueType}
    (hr : f.regType? r = some t) : f'.regType? r = some t := by
  rw [h.function]
  change (f.regTypes ++ _)[r]? = _
  have hlt : r < f.regTypes.size := (Array.getElem?_eq_some_iff.mp hr).1
  rw [Array.getElem?_append_left hlt]
  exact hr

theorem Dispatches.region {i : Nat} {region : Region}
    (hi : new[i]? = some region) : region.dispatch = f.blocks.size + i ∧
      f'.block? region.dispatch = some { params := [region.exception] } ∧
      f'.regType? region.exception = some .ref := by
  obtain ⟨hlt, hregion⟩ := List.getElem?_eq_some_iff.mp hi
  have hdispatch : region.dispatch = f.blocks.size + i := by
    have hids := congrArg (·[i]?) h.ids
    simpa [hlt, hregion] using hids
  have hexception : region.exception = f.regTypes.size + i := by
    have hregs := congrArg (·[i]?) h.regs
    simpa [hlt, hregion] using hregs
  refine ⟨hdispatch, ?_, ?_⟩
  · rw [hdispatch, h.block_ge, hi, Option.map_some]
  · rw [hexception, h.function]
    change (f.regTypes ++ _)[f.regTypes.size + i]? = _
    rw [Array.getElem?_append_right (Nat.le_add_right _ _), Nat.add_sub_cancel_left,
      Array.getElem?_replicate, if_pos hlt]

end

def Covered (handlers : List HandlerRow) (regions : List Region) (node : Node) : Prop :=
  (coveringRows handlers node.instr.pc = [] ∧ node.region = none) ∨
  (coveringRows handlers node.instr.pc ≠ [] ∧ ∃ i, node.region = some i ∧
    regions.findIdx? (·.rows == coveringRows handlers node.instr.pc) = some i)

theorem addRegions_ok (handlers : List HandlerRow) (pairs : List (Instruction × Option BlockId))
    (regions : List Region) (f : Function) :
    ∃ new, (addRegions handlers pairs regions f).1.map (fun n => (n.instr, n.block)) = pairs ∧
      (addRegions handlers pairs regions f).2.1 = regions ++ new ∧
      Dispatches f new (addRegions handlers pairs regions f).2.2 ∧
      ∀ node ∈ (addRegions handlers pairs regions f).1, Covered handlers (regions ++ new) node := by
  induction pairs generalizing regions f with
  | nil => exact ⟨[], rfl, by simp [addRegions], .nil f, nofun⟩
  | cons pair rest ih =>
    obtain ⟨instr, block⟩ := pair
    rw [addRegions]
    split
    · rename_i hrows
      obtain ⟨new, hpairs, hregions, hnew, hcovered⟩ := ih regions f
      refine ⟨new, congrArg (_ :: ·) hpairs, hregions, hnew, ?_⟩
      exact forall_mem_cons.mpr ⟨.inl ⟨isEmpty_iff.mp hrows, rfl⟩, hcovered⟩
    · rename_i hrows
      have hne : coveringRows handlers instr.pc ≠ [] := fun h => hrows (by rw [h]; rfl)
      split
      · rename_i i hi
        obtain ⟨new, hpairs, hregions, hnew, hcovered⟩ := ih regions f
        refine ⟨new, congrArg (_ :: ·) hpairs, hregions, hnew, ?_⟩
        refine forall_mem_cons.mpr ⟨.inr ⟨hne, i, rfl, ?_⟩, hcovered⟩
        rw [findIdx?_append, hi]
        rfl
      · rename_i hi
        let region : Region :=
          ⟨coveringRows handlers instr.pc, (addDispatch f).1, (addDispatch f).2.1⟩
        obtain ⟨new, hpairs, hregions, hnew, hcovered⟩ :=
          ih (regions ++ [region]) (addDispatch f).2.2
        rw [append_assoc] at hregions hcovered
        refine ⟨region :: new, congrArg (_ :: ·) hpairs, hregions, hnew.cons _, ?_⟩
        refine forall_mem_cons.mpr ⟨.inr ⟨hne, regions.length, rfl, ?_⟩, hcovered⟩
        rw [findIdx?_append, hi, findIdx?_cons, if_pos (beq_self_eq_true _)]
        simp

/-! ## Whole graphs -/

/-- The graph of a body, with the function that has its blocks. -/
structure Drawn (code : Code) (f : Function) (g : FlowGraph) (f' : Function) : Prop where
  decoded : Bytecode.decode code.bytes = .ok (g.nodes.map (·.instr))
  rows : ∀ row ∈ code.handlers, rowOk (g.nodes.map (·.instr.pc)) code.bytes.length row
  starts : ∀ node ∈ g.nodes, node.block.isSome = true ↔
    node.instr.pc ∈ startOffsets code (g.nodes.map (·.instr))
  covered : ∀ node ∈ g.nodes, Covered code.handlers g.regions node
  blocks : ∃ k, g.blocks = range' f.blocks.size k ∧
    Dispatches { f with blocks := f.blocks ++ Array.replicate k {} } g.regions f'

theorem ofCode_adds (h : ofCode code f = .ok (g, f')) :
    ∃ instrs, Bytecode.decode code.bytes = .ok instrs ∧
      code.handlers.findIdx? (fun row => !rowOk (instrs.map (·.pc)) code.bytes.length row) = none ∧
      addRegions code.handlers (addBlocks (startOffsets code instrs) instrs f).1 []
        (addBlocks (startOffsets code instrs) instrs f).2 = (g.nodes, g.regions, f') := by
  obtain ⟨instrs, hdecode, h⟩ := Except.bind_ok_iff.mp h
  dsimp only at h
  split at h
  · cases h
  · rename_i hrows
    cases h
    exact ⟨instrs, Except.mapError_ok hdecode, hrows, rfl⟩

theorem drawn_ofCode (h : ofCode code f = .ok (g, f')) : Drawn code f g f' := by
  obtain ⟨instrs, hdecode, hrows, hadd⟩ := ofCode_adds h
  obtain ⟨k, hinstrs, hblocks, hfun⟩ := addBlocks_ok (startOffsets code instrs) instrs f
  obtain ⟨new, hnodes, hregions, hnew, hcovered⟩ := addRegions_ok code.handlers
    (addBlocks (startOffsets code instrs) instrs f).1 []
    (addBlocks (startOffsets code instrs) instrs f).2
  rw [hadd] at hnodes hregions hnew hcovered
  subst hregions
  have hsame : g.nodes.map (·.instr) = instrs := by
    rw [← hinstrs, ← hnodes, map_map]
    rfl
  refine ⟨hsame ▸ hdecode, ?_, ?_, hcovered, k, ?_, ?_⟩
  · intro row hrow
    have hok := findIdx?_eq_none_iff.mp hrows row hrow
    rw [Bool.not_eq_false'] at hok
    rwa [← hsame, map_map] at hok
  · intro node hnode
    rw [hsame]
    apply addBlocks_isSome
    rw [← hnodes]
    exact mem_map_of_mem hnode
  · rw [← hblocks, ← hnodes, filterMap_map]
    rfl
  · rw [← hfun]
    exact hnew

/-! ## Neighbours -/

section

variable {code : Code} {f f' : Function} {g : FlowGraph} {node next : Node} {b : BlockId}
  {rest : List Node}

section

variable (h : Drawn code f g f')

include h

theorem Drawn.consecutive : Consecutive 0 (g.nodes.map (·.instr)) :=
  Bytecode.decode_consecutive h.decoded

theorem Drawn.nodeAt (hnode : node ∈ g.nodes) : g.nodeAt? node.instr.pc = some node := by
  obtain ⟨before, rest, hnodes⟩ := append_of_mem hnode
  have hcons := h.consecutive
  rw [hnodes, map_append] at hcons
  rw [nodeAt?, hnodes, find?_append]
  have hnone : before.find? (·.instr.pc == node.instr.pc) = none := by
    refine find?_eq_none.mpr fun other hother => ?_
    have hlt := hcons.lt_pc (mem_map_of_mem hother)
    simpa using Nat.ne_of_lt hlt
  rw [hnone]
  simp

theorem Drawn.block_lt (hb : b < f.blocks.size) : f'.block? b = f.block? b := by
  obtain ⟨k, -, hdispatch⟩ := h.blocks
  rw [hdispatch.block_lt (by rw [Array.size_append]; exact Nat.lt_add_right _ hb)]
  exact Array.getElem?_append_left hb

theorem Drawn.size_le : f.blocks.size ≤ f'.blocks.size := by
  obtain ⟨k, -, hdispatch⟩ := h.blocks
  rw [hdispatch.function]
  simp only [Array.size_append]
  omega

theorem Drawn.block_new {blk : Block} (hle : f.blocks.size ≤ b) (hb : f'.block? b = some blk) :
    blk.instrs = #[] ∧ blk.terminator = .unreachable ∧ blk.handler = none ∧
      ∀ r ∈ blk.params, f.regTypes.size ≤ r := by
  obtain ⟨k, -, hdispatch⟩ := h.blocks
  have hsize : (f.blocks ++ Array.replicate k ({} : Block)).size = f.blocks.size + k := by
    rw [Array.size_append, Array.size_replicate]
  by_cases hlt : b < f.blocks.size + k
  · rw [hdispatch.block_lt (hsize ▸ hlt)] at hb
    change (f.blocks ++ _)[b]? = _ at hb
    rw [Array.getElem?_append_right hle, Array.getElem?_replicate,
      if_pos (Nat.sub_lt_left_of_lt_add hle hlt)] at hb
    cases hb
    exact ⟨rfl, rfl, rfl, nofun⟩
  · obtain ⟨i, rfl⟩ := Nat.exists_eq_add_of_le (Nat.not_lt.mp hlt)
    rw [← hsize, hdispatch.block_ge, Option.map_eq_some_iff] at hb
    obtain ⟨region, hregion, rfl⟩ := hb
    have hregs := congrArg (·[i]?) hdispatch.regs
    have hi := (List.getElem?_eq_some_iff.mp hregion).1
    simp only [getElem?_map, hregion, Option.map_some, getElem?_range' hi,
      Option.some.injEq] at hregs
    refine ⟨rfl, rfl, rfl, fun r hr => ?_⟩
    rw [mem_singleton.mp hr, hregs]
    exact Nat.le_add_right _ _

section

variable (hnodes : node :: next :: rest <:+ g.nodes) (hnext : next.block = none)

include hnodes hnext

/-- Rows change only where a block starts. -/
theorem Drawn.covers_next {row : HandlerRow} (hrow : row ∈ code.handlers) :
    row.covers next.instr.pc = row.covers node.instr.pc := by
  obtain ⟨before, hbefore⟩ := hnodes
  have hcons := h.consecutive
  rw [← hbefore, map_append, map_cons] at hcons
  have hmem : next ∈ g.nodes := by simp [← hbefore]
  -- No instruction starts strictly between the two.
  have hgap : ∀ pc ∈ g.nodes.map (·.instr.pc), pc ≤ node.instr.pc ∨ next.instr.pc ≤ pc := by
    intro pc hpc
    obtain ⟨other, hother, rfl⟩ := mem_map.mp hpc
    rw [← hbefore, mem_append, mem_cons] at hother
    rcases hother with hother | rfl | hother
    · exact .inl (Nat.le_of_lt (hcons.lt_pc (mem_map_of_mem hother)))
    · exact .inl (Nat.le_refl _)
    · obtain ⟨-, -, hrest⟩ := Consecutive.suffix _ hcons
      rw [← hcons.pc_following] at hrest
      exact .inr (hrest.le_pc (mem_map_of_mem hother))
  have hlt : node.instr.pc < next.instr.pc := by
    obtain ⟨-, hlen, -⟩ := Consecutive.suffix _ hcons
    rw [hcons.pc_following, Instruction.next]
    omega
  have hsize : next.instr.pc < code.bytes.length :=
    Bytecode.decode_lt h.decoded (mem_map_of_mem hmem)
  have hedges : next.instr.pc ≠ row.start ∧ next.instr.pc ≠ row.stop := by
    have hbounds : ∀ pc ∈ [row.start, row.handler, row.stop],
        pc ∈ startOffsets code (g.nodes.map (·.instr)) := fun pc hpc =>
      mem_append_left _ (mem_cons_of_mem _ (mem_flatMap.mpr ⟨row, hrow, hpc⟩))
    have hstarts := mt (h.starts next hmem).mpr (by simp [hnext])
    constructor
    · intro heq
      exact hstarts (heq ▸ hbounds row.start (by simp))
    · intro heq
      exact hstarts (heq ▸ hbounds row.stop (by simp))
  have hok := h.rows row hrow
  simp only [rowOk, Bool.and_eq_true, Bool.or_eq_true, contains_iff_mem, beq_iff_eq] at hok
  obtain ⟨⟨⟨-, hstart⟩, hstop⟩, -⟩ := hok
  have hfirst := hgap _ hstart
  have hlast : row.stop ≤ node.instr.pc ∨ next.instr.pc ≤ row.stop := by
    rcases hstop with hstop | hstop
    · omega
    · exact hgap _ hstop
  rw [Bool.eq_iff_iff]
  simp only [HandlerRow.covers, Bool.and_eq_true, decide_eq_true_eq]
  omega

theorem Drawn.rows_next :
    coveringRows code.handlers next.instr.pc = coveringRows code.handlers node.instr.pc := by
  unfold coveringRows
  congr 1
  apply filter_congr
  intro ⟨row, n⟩ hmem
  refine h.covers_next hnodes hnext ?_
  exact mem_of_getElem? (mk_mem_zipIdx_iff_getElem?.mp hmem)

theorem Drawn.region_next : next.region = node.region := by
  have hrows := h.rows_next hnodes hnext
  have hthis := h.covered node (hnodes.subset (by simp))
  have hthat := h.covered next (hnodes.subset (by simp))
  unfold Covered at hthis hthat
  grind

end

end

end

end ManagedCore.FlowGraph
