import ManagedCore.Proofs.Compile.Regions

/-!
# Exploration finds the basic blocks and the handler regions

A block starts exactly where control can arrive or where the rows of the exception table that apply
change. So one handler is enough for each block: its instructions are covered by the same rows.
-/

namespace ManagedCore.FlowGraph

open Option

variable {code : Code} {f f' : Function} {g : FlowGraph} {node : Node} {instrs : List Instruction}
  {pc : Nat}

/-! ## What exploration has to find -/

/-- Offsets at which a block starts, if an instruction does. -/
inductive Leader (code : Code) (instrs : List Instruction) : Nat → Prop where
  | entry : Leader code instrs 0
  | target {i : Instruction} {pc : Nat} : i ∈ instrs → pc ∈ i.op.targets → Leader code instrs pc
  | behind {i : Instruction} : i ∈ instrs → i.op.isConditional = true ∨ i.op.endsBlock = true →
      Leader code instrs i.next
  | boundary {row : HandlerRow} {pc : Nat} : row ∈ code.handlers →
      pc = row.start ∨ pc = row.handler ∨ pc = row.stop → Leader code instrs pc

/-- The rows that cover an offset, in table order. -/
def ListsRows (code : Code) (pc : Nat) (rows : List Nat) : Prop :=
  rows.Pairwise (· < ·) ∧
    ∀ n, n ∈ rows ↔ ∃ row, code.handlers[n]? = some row ∧ row.start ≤ pc ∧ pc < row.stop

/-- A range that is not empty, between instructions, with a handler at one. -/
def RowFits (code : Code) (instrs : List Instruction) (row : HandlerRow) : Prop :=
  row.start < row.stop ∧ (∃ i ∈ instrs, i.pc = row.start) ∧
    (row.stop = code.bytes.length ∨ ∃ i ∈ instrs, i.pc = row.stop) ∧
    ∃ i ∈ instrs, i.pc = row.handler

/-- The graph has the blocks and the regions of the code, and the function has a block for each. -/
structure Explores (code : Code) (f : Function) (g : FlowGraph) (f' : Function) : Prop where
  leaders : ∀ node ∈ g.nodes, (g.blockAt? node.instr.pc).isSome = true ↔
    Leader code (g.nodes.map (·.instr)) node.instr.pc
  ascending : g.starts.Pairwise (· < ·)
  numbered : g.starts.map g.blockAt? = (List.range' f.blocks.size g.starts.length).map some
  uncovered : ∀ node ∈ g.nodes, g.regionAt? node.instr.pc = none →
    ListsRows code node.instr.pc []
  covered : ∀ node ∈ g.nodes, ∀ region, g.regionAt? node.instr.pc = some region →
    region ∈ g.regions ∧ region.rows ≠ [] ∧ ListsRows code node.instr.pc region.rows
  shared : ∀ a ∈ g.nodes, ∀ b ∈ g.nodes, g.regionAt? a.instr.pc = g.regionAt? b.instr.pc ↔
    ∀ rows, ListsRows code a.instr.pc rows ↔ ListsRows code b.instr.pc rows
  distinct : (g.regions.map (·.dispatch)).Nodup
  receives : ∀ region ∈ g.regions, ∃ blk r, f'.block? region.dispatch = some blk ∧
    blk.params = [r] ∧ f'.regType? r = some .ref
  straight : ∀ before start inner behind, g.nodes = before ++ start :: (inner ++ behind) →
    start.block.isSome = true → (∀ node ∈ inner, node.block = none) →
    ∀ node ∈ inner, g.regionAt? node.instr.pc = g.regionAt? start.instr.pc

/-! ## Leaders -/

theorem leader_iff : pc ∈ startOffsets code instrs ↔ Leader code instrs pc := by
  simp only [startOffsets, List.mem_append, List.mem_cons, List.mem_flatMap]
  constructor
  · rintro ((rfl | ⟨row, hrow, hpc⟩) | ⟨i, hi, hpc⟩)
    · exact .entry
    · exact .boundary hrow (by simpa using hpc)
    · split at hpc
      · rename_i hends
        rcases List.mem_cons.mp hpc with rfl | hpc
        · exact .behind hi (by simpa [or_comm] using hends)
        · exact .target hi hpc
      · exact .target hi hpc
  · rintro (_ | ⟨hi, hpc⟩ | ⟨hi, hends⟩ | ⟨hrow, hpc⟩)
    · exact .inl (.inl rfl)
    · refine .inr ⟨_, hi, ?_⟩
      split
      · exact List.mem_cons_of_mem _ hpc
      · exact hpc
    · refine .inr ⟨_, hi, ?_⟩
      rw [if_pos (by simpa [or_comm] using hends)]
      exact List.mem_cons_self
    · exact .inl (.inr ⟨_, hrow, by simpa using hpc⟩)

theorem Drawn.blockAt (h : Drawn code f g f') (hnode : node ∈ g.nodes) :
    g.blockAt? node.instr.pc = node.block := by
  rw [blockAt?, h.nodeAt hnode, bind_some]

theorem Drawn.numbered (h : Drawn code f g f') :
    g.starts.map g.blockAt? = (List.range' f.blocks.size g.starts.length).map some := by
  have hstarts : g.starts.map g.blockAt? = g.blocks.map some := by
    have hsub : ∀ node ∈ g.nodes, g.blockAt? node.instr.pc = node.block := fun _ => h.blockAt
    rw [FlowGraph.starts, FlowGraph.blocks]
    generalize g.nodes = nodes at hsub
    induction nodes with
    | nil => rfl
    | cons node rest ih =>
      have hrest := ih fun other hother => hsub other (List.mem_cons_of_mem _ hother)
      have hthis := hsub node List.mem_cons_self
      cases hblock : node.block with
      | none => simpa [hblock] using hrest
      | some b => simpa [hblock, hthis] using hrest
  obtain ⟨k, hblocks, -⟩ := h.blocks
  have hlength : g.starts.length = k := by simpa [hblocks] using congrArg List.length hstarts
  rw [hstarts, hblocks, hlength]

theorem Consecutive.ascending (h : Consecutive pc instrs) :
    (instrs.map (·.pc)).Pairwise (· < ·) := by
  induction instrs generalizing pc with
  | nil => exact .nil
  | cons i rest ih =>
    obtain ⟨-, hlen, hrest⟩ := h
    refine List.pairwise_cons.mpr ⟨fun n hn => ?_, ih hrest⟩
    obtain ⟨j, hj, rfl⟩ := List.mem_map.mp hn
    exact Nat.lt_of_lt_of_le (Nat.lt_add_of_pos_right hlen) (hrest.le_pc hj)

theorem Drawn.ascending (h : Drawn code f g f') : g.starts.Pairwise (· < ·) := by
  have hall := Consecutive.ascending h.consecutive
  rw [List.map_map] at hall
  exact hall.sublist (List.filter_sublist.map _)

/-! ## Rows -/

theorem listsRows_coveringRows (code : Code) (pc : Nat) :
    ListsRows code pc (coveringRows code.handlers pc) := by
  constructor
  · refine List.Pairwise.sublist (List.filter_sublist.map _) ?_
    rw [List.zipIdx_map_snd]
    exact List.pairwise_lt_range'
  · simp [coveringRows, List.mk_mem_zipIdx_iff_getElem?, HandlerRow.covers]

theorem ListsRows.unique {rows rows' : List Nat} (h : ListsRows code pc rows)
    (h' : ListsRows code pc rows') : rows = rows' := by
  have hperm : rows.Perm rows' :=
    (List.perm_ext_iff_of_nodup (h.1.imp Nat.ne_of_lt) (h'.1.imp Nat.ne_of_lt)).mpr fun n =>
      (h.2 n).trans (h'.2 n).symm
  exact hperm.eq_of_pairwise (fun _ _ _ _ hlt hgt => absurd hlt (Nat.lt_asymm hgt)) h.1 h'.1

theorem listsRows_iff {rows : List Nat} :
    ListsRows code pc rows ↔ rows = coveringRows code.handlers pc :=
  ⟨fun h => h.unique (listsRows_coveringRows code pc), fun h => h ▸ listsRows_coveringRows code pc⟩

section

variable (h : Drawn code f g f')

include h

theorem Drawn.regionAt_eq (hnode : node ∈ g.nodes) :
    g.regionAt? node.instr.pc = node.region.bind fun i => g.regions[i]? := by
  rw [regionAt?, h.nodeAt hnode, bind_some]

/-- The region of an instruction is the one with the rows that cover it. -/
theorem Drawn.regionAt_find (hnode : node ∈ g.nodes) :
    if coveringRows code.handlers node.instr.pc = [] then g.regionAt? node.instr.pc = none
    else g.regionAt? node.instr.pc =
        g.regions.find? (·.rows == coveringRows code.handlers node.instr.pc) ∧
      (g.regionAt? node.instr.pc).isSome = true := by
  rw [h.regionAt_eq hnode]
  rcases h.covered node hnode with ⟨hrows, hnone⟩ | ⟨hrows, i, hsome, hfind⟩
  · rw [if_pos hrows, hnone]
    rfl
  · obtain ⟨hlt, -⟩ := List.findIdx?_eq_some_iff_getElem.mp hfind
    rw [if_neg hrows, hsome, List.find?_eq_bind_findIdx?_getElem?, hfind]
    exact ⟨rfl, by simp [hlt]⟩

theorem Drawn.rows_regionAt (hnode : node ∈ g.nodes) : (g.regionAt? node.instr.pc).map (·.rows) =
      if coveringRows code.handlers node.instr.pc = [] then none
      else some (coveringRows code.handlers node.instr.pc) := by
  have hregion := h.regionAt_find hnode
  split at hregion
  · rename_i hempty
    rw [hregion, if_pos hempty]
    rfl
  · rename_i hne
    obtain ⟨region, hsome⟩ := isSome_iff_exists.mp hregion.2
    have hrows := List.find?_some (hregion.1.symm.trans hsome)
    rw [hsome, map_some, beq_iff_eq.mp hrows, if_neg hne]

/-- Up to the next start, each instruction belongs to the region of the one in front of it. -/
theorem Drawn.region_inner {before inner behind : List Node} {start : Node}
    (hnodes : g.nodes = before ++ start :: (inner ++ behind))
    (hinner : ∀ node ∈ inner, node.block = none) : ∀ node ∈ inner, node.region = start.region := by
  induction inner generalizing before start with
  | nil => nofun
  | cons next inner ih =>
    have hsuffix : start :: next :: (inner ++ behind) <:+ g.nodes := ⟨before, hnodes.symm⟩
    have hnext := h.region_next hsuffix (hinner next List.mem_cons_self)
    have hsplit : g.nodes = (before ++ [start]) ++ next :: (inner ++ behind) := by simp [hnodes]
    refine List.forall_mem_cons.mpr ⟨hnext, fun node hnode => ?_⟩
    rw [← hnext]
    exact ih hsplit (fun other hother => hinner other (List.mem_cons_of_mem _ hother)) node hnode

theorem explores_of_drawn : Explores code f g f' where
  leaders node hnode := by rw [h.blockAt hnode, h.starts node hnode, leader_iff]
  ascending := h.ascending
  numbered := h.numbered
  uncovered node hnode hnone := by
    have hrows := h.rows_regionAt hnode
    rw [hnone] at hrows
    split at hrows
    · rename_i hempty
      exact listsRows_iff.mpr hempty.symm
    · cases hrows
  covered node hnode region hregion := by
    have hrows := h.rows_regionAt hnode
    rw [hregion] at hrows
    split at hrows
    · cases hrows
    · rename_i hne
      rw [map_some, some.injEq] at hrows
      obtain ⟨i, -, hi⟩ := bind_eq_some_iff.mp hregion
      exact ⟨List.mem_of_getElem? hi, hrows ▸ hne, listsRows_iff.mpr hrows⟩
  shared a ha b hb := by
    simp only [listsRows_iff]
    constructor
    · intro heq
      have hrows := congrArg (Option.map (·.rows)) heq
      rw [h.rows_regionAt ha, h.rows_regionAt hb] at hrows
      grind
    · intro hlists
      have hrows := (hlists _).mp rfl
      have ha := h.regionAt_find ha
      have hb := h.regionAt_find hb
      grind
  distinct := by
    obtain ⟨k, -, hdispatch⟩ := h.blocks
    rw [hdispatch.ids]
    exact List.nodup_range' ..
  receives region hregion := by
    obtain ⟨k, -, hdispatch⟩ := h.blocks
    obtain ⟨i, hi⟩ := List.mem_iff_getElem?.mp hregion
    obtain ⟨-, hblk, hr⟩ := hdispatch.region hi
    exact ⟨_, _, hblk, rfl, hr⟩
  straight before start inner behind hnodes _ hinner node hnode := by
    rw [h.regionAt_eq (by simp [hnodes, hnode]), h.regionAt_eq (by simp [hnodes]),
      h.region_inner hnodes hinner node hnode]

end

/-! ## Rows that do not fit -/

theorem rowOk_iff {row : HandlerRow} :
    rowOk (instrs.map (·.pc)) code.bytes.length row = true ↔ RowFits code instrs row := by
  simp only [rowOk, RowFits, Bool.and_eq_true, Bool.or_eq_true, decide_eq_true_eq, beq_iff_eq,
    List.contains_iff_mem, List.mem_map, and_assoc]

theorem ofCode_badHandler (h : Bytecode.decode code.bytes = .ok instrs) (n : Nat) :
    ofCode code f = .error (.badHandler n) ↔ code.handlers.findIdx? (fun row =>
      !rowOk (instrs.map (·.pc)) code.bytes.length row) = some n := by
  unfold ofCode
  cases hfind : code.handlers.findIdx? fun row =>
      !rowOk (instrs.map (·.pc)) code.bytes.length row with
  | none =>
    simp [h, Except.mapError, bind, Except.bind, hfind, pure, Except.pure]
  | some m =>
    simp [h, Except.mapError, bind, Except.bind, hfind, throw, throwThe, MonadExceptOf.throw]

/-- The first row that does not fit is the one that is reported. -/
theorem badHandler_iff (h : Bytecode.decode code.bytes = .ok instrs)
    (n : Nat) : ofCode code f = .error (.badHandler n) ↔
      (∃ row, code.handlers[n]? = some row ∧ ¬ RowFits code instrs row) ∧
      ∀ m < n, ∀ row, code.handlers[m]? = some row → RowFits code instrs row := by
  rw [ofCode_badHandler h, List.findIdx?_eq_some_iff_getElem]
  simp only [← rowOk_iff, Bool.not_eq_true', Bool.not_eq_true, List.getElem?_eq_some_iff]
  constructor
  · rintro ⟨hlt, hbad, hfirst⟩
    refine ⟨⟨_, ⟨hlt, rfl⟩, hbad⟩, fun m hm row ⟨_, hrow⟩ => ?_⟩
    simpa [hrow] using hfirst m hm
  · rintro ⟨⟨row, ⟨hlt, rfl⟩, hbad⟩, hfirst⟩
    refine ⟨hlt, hbad, fun m hm => ?_⟩
    simpa using hfirst m hm _ ⟨Nat.lt_trans hm hlt, rfl⟩

/-- Exploration that succeeds finds the blocks and regions of the code. It fails with the first row
of the exception table that does not fit. -/
theorem explores_blocks_and_regions (code : Code) (f : Function) :
    (∀ g f', ofCode code f = .ok (g, f') →
      Bytecode.decode code.bytes = .ok (g.nodes.map (·.instr)) ∧ Explores code f g f') ∧
    ∀ instrs, Bytecode.decode code.bytes = .ok instrs → ∀ n,
      ofCode code f = .error (.badHandler n) ↔
        (∃ row, code.handlers[n]? = some row ∧ ¬ RowFits code instrs row) ∧
        ∀ m < n, ∀ row, code.handlers[m]? = some row → RowFits code instrs row :=
  ⟨fun _ _ h => ⟨(drawn_ofCode h).decoded, explores_of_drawn (drawn_ofCode h)⟩,
    fun _ h n => badHandler_iff h n⟩

/-- Four instructions with two rows, of which the first covers the first two. -/
def overlapping (second : HandlerRow) : Code where
  bytes := [0x00, 0x00, 0x00, 0xb1]
  maxLocals := 0
  maxStack := 0
  handlers := [⟨0, 2, 3, none⟩, second]

theorem explores_blocks_and_regions_overlapping :
    (∃ g f', ofCode (overlapping ⟨1, 4, 3, none⟩) ⟨"T.f()V", [], none, 0, #[], 0, #[]⟩ = .ok (g, f') ∧
      g.regions.map (·.rows) = [[0], [0, 1], [1]] ∧
      Explores (overlapping ⟨1, 4, 3, none⟩) ⟨"T.f()V", [], none, 0, #[], 0, #[]⟩ g f') ∧
    ∃ instrs, Bytecode.decode (overlapping ⟨3, 3, 0, none⟩).bytes = .ok instrs ∧
      ¬ RowFits (overlapping ⟨3, 3, 0, none⟩) instrs ⟨3, 3, 0, none⟩ := by
  have hbad := explores_blocks_and_regions (overlapping ⟨3, 3, 0, none⟩)
    ⟨"T.f()V", [], none, 0, #[], 0, #[]⟩
  obtain ⟨⟨row, hrow, hfits⟩, -⟩ := (hbad.2 _ rfl 1).mp rfl
  cases hrow
  exact ⟨⟨_, _, rfl, rfl, ((explores_blocks_and_regions _ _).1 _ _ rfl).2⟩, _, rfl, hfits⟩

end ManagedCore.FlowGraph
