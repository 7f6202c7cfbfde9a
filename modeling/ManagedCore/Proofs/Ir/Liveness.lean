import Mathlib.Data.Finset.Prod
import Mathlib.Logic.Relation
import ManagedCore.Ir.Liveness

/-!
# Stack maps are exactly liveness

A register is live at a point of a function if some way leads from there to a read of it and does
not assign it. The computed sets are the least solution of the backward equations: what a pass adds
is live, and a solution has room for everything that is live. Passes only add registers, so there
are no more of them than places for one.
-/

namespace ManagedCore

open List

/-! ## Sets of registers -/

namespace RegSet

variable {s t : RegSet} {r q : Reg}

theorem ext (h : ∀ r, s.contains r = t.contains r) : s = t := by
  exact congrArg RegSet.mk (Nat.eq_of_testBit_eq h)

@[simp] theorem contains_empty : empty.contains r = false := Nat.zero_testBit r

@[simp] theorem contains_union : (s.union t).contains r = (s.contains r || t.contains r) :=
  Nat.testBit_or ..

@[simp] theorem contains_insert : (s.insert q).contains r = (s.contains r || decide (q = r)) := by
  simp [insert, contains, Nat.one_shiftLeft, Nat.testBit_two_pow]

@[simp] theorem contains_erase : (s.erase q).contains r = (s.contains r && decide (q ≠ r)) := by
  unfold erase
  split
  · by_cases h : q = r
    · simp_all [contains]
    · simp [contains, Nat.one_shiftLeft, h]
  · by_cases h : q = r
    · simp_all
    · simp [h]

@[simp] theorem contains_eraseAll {rs : List Reg} :
    (s.eraseAll rs).contains r = (s.contains r && decide (r ∉ rs)) := by
  unfold eraseAll
  induction rs generalizing s with
  | nil => simp
  | cons q rs ih =>
    rw [foldl_cons, ih, contains_erase, Bool.and_assoc, ← Bool.decide_and]
    simp only [mem_cons, not_or, ne_comm]

@[simp] theorem mem_toList {bound : Nat} :
    r ∈ s.toList bound ↔ r < bound ∧ s.contains r = true := by
  simp [toList]

end RegSet

namespace LiveIn

def Has (live : LiveIn) (b : BlockId) (r : Reg) : Prop := (live.getD b .empty).contains r = true

/-- Every register of the first sets is in the second ones. -/
def Within (live live' : LiveIn) : Prop :=
  live.size = live'.size ∧ ∀ b r, live.Has b r → live'.Has b r

variable {live live' : LiveIn} {b : BlockId} {r : Reg}

theorem Within.antisymm (h : live.Within live') (h' : live'.Within live) : live = live' := by
  refine Array.ext h.1 fun b hb hb' => RegSet.ext fun r => Bool.eq_iff_iff.mpr ⟨?_, ?_⟩
  · simpa [Has, hb, hb'] using h.2 b r
  · simpa [Has, hb, hb'] using h'.2 b r

theorem Has.lt_size (h : live.Has b r) : b < live.size := by
  by_contra hb
  simp [Has, hb] at h

theorem has_set {i : BlockId} {s : RegSet} : LiveIn.Has (live.setIfInBounds i s) b r ↔
    if b = i then i < live.size ∧ s.contains r = true else live.Has b r := by
  unfold Has
  rw [Array.getD_eq_getD_getElem?, Array.getElem?_setIfInBounds]
  split
  · rename_i h
    subst h
    by_cases hlt : i < live.size <;> simp [hlt]
  · rename_i h
    rw [if_neg (Ne.symm h), ← Array.getD_eq_getD_getElem?]

end LiveIn

namespace Function

variable {f : Function} {live live' : LiveIn} {b : BlockId} {blk : Block} {r : Reg} {k : Nat}
  {ps : List (Block × BlockId)}

/-! ## Ways through a function -/

/-- A place in a block: in front of the instruction with that number, or behind the last one. -/
structure Point where
  block : BlockId
  index : Nat

/-- Control can go from one point to the next, and the register keeps its value. -/
inductive Passes (f : Function) (r : Reg) : Point → Point → Prop where
  | next {b : BlockId} {blk : Block} {k : Nat} {p : PlacedInstr} : f.block? b = some blk →
      blk.instrs[k]? = some p → p.instr.dest? ≠ some r → Passes f r ⟨b, k⟩ ⟨b, k + 1⟩
  | jump {b : BlockId} {blk target : Block} {c : BlockCall} : f.block? b = some blk →
      c ∈ blk.terminator.successors → f.block? c.block = some target → r ∉ target.params →
      Passes f r ⟨b, blk.instrs.size⟩ ⟨c.block, 0⟩
  | fault {b h : BlockId} {blk target : Block} {k : Nat} : f.block? b = some blk →
      k ≤ blk.instrs.size → blk.handler = some h → f.block? h = some target →
      r ∉ target.params → Passes f r ⟨b, k⟩ ⟨h, 0⟩

def Reads (f : Function) (r : Reg) (p : Point) : Prop :=
  ∃ blk, f.block? p.block = some blk ∧
    ((∃ i, blk.instrs[p.index]? = some i ∧ r ∈ i.instr.uses) ∨
      (p.index = blk.instrs.size ∧ r ∈ blk.terminator.uses))

/-- Some way leads from the point to a read of the register and does not assign it. -/
def LiveAt (f : Function) (r : Reg) (p : Point) : Prop :=
  ∃ q, Relation.ReflTransGen (f.Passes r) p q ∧ f.Reads r q

theorem LiveAt.pass {p q : Point} (h : f.Passes r p q) (hq : f.LiveAt r q) : f.LiveAt r p := by
  obtain ⟨last, hway, hread⟩ := hq
  exact ⟨last, hway.head h, hread⟩

/-- The register is live on entry to the block, whose parameters are assigned there. -/
def LiveInto (f : Function) (r : Reg) (b : BlockId) : Prop :=
  ∃ blk, f.block? b = some blk ∧ r ∉ blk.params ∧ f.LiveAt r ⟨b, 0⟩

/-! ## The equations -/

theorem isRef_iff : f.isRef r = true ↔ f.regType? r = some .ref := beq_iff_eq

theorem contains_insertRefs {rs : List Reg} {s : RegSet} : (f.insertRefs rs s).contains r = true ↔
    s.contains r = true ∨ r ∈ rs ∧ f.isRef r = true := by
  unfold insertRefs
  induction rs generalizing s with
  | nil => simp
  | cons q rs ih =>
    by_cases hq : f.isRef q = true
    · rw [filter_cons_of_pos hq, foldl_cons, ih, RegSet.contains_insert]
      grind
    · grind

theorem contains_successors {cs : List BlockCall} {s : RegSet} :
    (cs.foldl (fun s c => s.union (live.getD c.block .empty)) s).contains r = true ↔
      s.contains r = true ∨ ∃ c ∈ cs, live.Has c.block r := by
  induction cs generalizing s with
  | nil => simp
  | cons c cs ih =>
    rw [foldl_cons, ih]
    simp [LiveIn.Has, or_assoc]

theorem contains_liveOnFault :
    (liveOnFault live blk).contains r = true ↔ ∃ h, blk.handler = some h ∧ live.Has h r := by
  unfold liveOnFault
  cases blk.handler with
  | none => simp
  | some h => simp [LiveIn.Has]

theorem contains_liveOut : (f.liveOut live blk).contains r = true ↔
    (r ∈ blk.terminator.uses ∧ f.isRef r = true) ∨
      (∃ c ∈ blk.terminator.successors, live.Has c.block r) ∨
      (liveOnFault live blk).contains r = true := by
  unfold liveOut
  rw [contains_insertRefs, contains_successors, or_comm]
  exact or_congr_right or_comm

theorem contains_liveBefore {onFault after : RegSet} {i : Instr} :
    (f.liveBefore onFault i after).contains r = true ↔
      (r ∈ i.uses ∧ f.isRef r = true) ∨ (after.contains r = true ∧ i.dest? ≠ some r) ∨
      onFault.contains r = true := by
  unfold liveBefore
  rw [RegSet.contains_union, Bool.or_eq_true, contains_insertRefs, RegSet.contains_eraseAll]
  simp only [Bool.and_eq_true, decide_eq_true_eq, Option.mem_toList]
  tauto

def liveFrom (f : Function) (live : LiveIn) (blk : Block) (rest : List PlacedInstr) : RegSet :=
  rest.foldr (fun p s => f.liveBefore (liveOnFault live blk) p.instr s) (f.liveOut live blk)

theorem contains_blockLiveIn : (f.blockLiveIn live blk).contains r = true ↔
    (f.liveFrom live blk blk.instrs.toList).contains r = true ∧ r ∉ blk.params := by
  unfold blockLiveIn liveFrom
  simp

/-- What the handler needs is live throughout the block. -/
theorem liveFrom_of_fault (rest : List PlacedInstr) (h : (liveOnFault live blk).contains r = true) :
    (f.liveFrom live blk rest).contains r = true := by
  cases rest with
  | nil => exact contains_liveOut.mpr (.inr (.inr h))
  | cons p rest => exact contains_liveBefore.mpr (.inr (.inr h))

theorem liveFrom_mono (h : live.Within live') (rest : List PlacedInstr)
    (hr : (f.liveFrom live blk rest).contains r = true) :
    (f.liveFrom live' blk rest).contains r = true := by
  have hfault : (liveOnFault live blk).contains r = true →
      (liveOnFault live' blk).contains r = true := by
    simp only [contains_liveOnFault]
    rintro ⟨x, hx, hhas⟩
    exact ⟨x, hx, h.2 x r hhas⟩
  induction rest with
  | nil =>
    refine contains_liveOut.mpr ((contains_liveOut.mp hr).imp_right (.imp ?_ hfault))
    rintro ⟨c, hc, hhas⟩
    exact ⟨c, hc, h.2 _ r hhas⟩
  | cons p rest ih =>
    exact contains_liveBefore.mpr
      ((contains_liveBefore.mp hr).imp_right (.imp (.imp_left ih) hfault))

/-! ## What the sets hold is live -/

/-- All that the sets hold are references that are live on entry. -/
def Justified (f : Function) (live : LiveIn) : Prop :=
  ∀ b r, live.Has b r → f.isRef r = true ∧ f.LiveInto r b

section

variable (h : f.Justified live) (hb : f.block? b = some blk)

include h hb

theorem Justified.onFault
    (hk : k ≤ blk.instrs.size) (hr : (liveOnFault live blk).contains r = true) :
    f.isRef r = true ∧ f.LiveAt r ⟨b, k⟩ := by
  obtain ⟨x, hx, hhas⟩ := contains_liveOnFault.mp hr
  obtain ⟨href, target, htarget, hparams, hlive⟩ := h x r hhas
  exact ⟨href, hlive.pass (.fault hb hk hx htarget hparams)⟩

theorem Justified.liveFrom
    (before rest : List PlacedInstr) (hsplit : blk.instrs.toList = before ++ rest)
    (hr : (f.liveFrom live blk rest).contains r = true) :
    f.isRef r = true ∧ f.LiveAt r ⟨b, before.length⟩ := by
  have hsize : blk.instrs.size = before.length + rest.length := by
    rw [← Array.length_toList, hsplit, length_append]
  -- Backwards through the block: what is live behind an instruction is known from the rest.
  induction rest generalizing before with
  | nil =>
    rcases contains_liveOut.mp hr with ⟨hread, href⟩ | ⟨c, hc, hhas⟩ | hfault
    · exact ⟨href, _, .refl, blk, hb, .inr ⟨hsize.symm, hread⟩⟩
    · obtain ⟨href, target, htarget, hparams, hlive⟩ := h c.block r hhas
      have hpass := Passes.jump hb hc htarget hparams
      rw [hsize] at hpass
      exact ⟨href, hlive.pass hpass⟩
    · exact h.onFault hb (Nat.le_of_eq hsize.symm) hfault
  | cons p rest ih =>
    have hp : blk.instrs[before.length]? = some p := by
      rw [← Array.getElem?_toList, hsplit]
      simp
    rcases contains_liveBefore.mp hr with ⟨hread, href⟩ | ⟨hafter, hdest⟩ | hfault
    · exact ⟨href, _, .refl, blk, hb, .inl ⟨p, hp, hread⟩⟩
    · obtain ⟨href, hlive⟩ := ih (before ++ [p]) (by simp [hsplit]) hafter (by simp [hsize]; omega)
      rw [length_append] at hlive
      exact ⟨href, hlive.pass (.next hb hp hdest)⟩
    · exact h.onFault hb (by omega) hfault

theorem Justified.blockLiveIn
    (hr : (f.blockLiveIn live blk).contains r = true) : f.isRef r = true ∧ f.LiveInto r b := by
  obtain ⟨hfrom, hparams⟩ := contains_blockLiveIn.mp hr
  obtain ⟨href, hlive⟩ := h.liveFrom hb [] _ rfl hfrom
  exact ⟨href, blk, hb, hparams, hlive⟩

end

/-! ## What is live is in the sets -/

/-- The sets have room for what the equations give. -/
def Closed (f : Function) (live : LiveIn) : Prop :=
  ∀ b blk, f.block? b = some blk → ∀ r, (f.blockLiveIn live blk).contains r = true → live.Has b r

theorem Closed.liveFrom (h : f.Closed live) (href : f.isRef r = true) {p : Point}
    (hlive : f.LiveAt r p) (hb : f.block? p.block = some blk) :
    (f.liveFrom live blk (blk.instrs.toList.drop p.index)).contains r = true := by
  obtain ⟨last, hway, blk', hb', hread⟩ := hlive
  -- Along the way backwards from the read.
  induction hway using Relation.ReflTransGen.head_induction_on generalizing blk with
  | refl =>
    cases hb.symm.trans hb'
    rcases hread with ⟨i, hi, hread⟩ | ⟨hindex, hread⟩
    · rw [← Array.getElem?_toList] at hi
      rw [drop_eq_getElem?_toList_append, hi]
      exact contains_liveBefore.mpr (.inl ⟨hread, href⟩)
    · rw [hindex, drop_of_length_le (Nat.le_of_eq Array.length_toList)]
      exact contains_liveOut.mpr (.inl ⟨hread, href⟩)
  | head hpass _ ih =>
    have hinto {x : BlockId} {target : Block} (htarget : f.block? x = some target)
        (hparams : r ∉ target.params)
        (hr : (f.liveFrom live target target.instrs.toList).contains r = true) : live.Has x r :=
      h x target htarget r (contains_blockLiveIn.mpr ⟨hr, hparams⟩)
    cases hpass with
    | next hblk hp hdest =>
      cases hb.symm.trans hblk
      rw [← Array.getElem?_toList] at hp
      rw [drop_eq_getElem?_toList_append, hp]
      exact contains_liveBefore.mpr (.inr (.inl ⟨ih hb, hdest⟩))
    | jump hblk hc htarget hparams =>
      cases hb.symm.trans hblk
      rw [drop_of_length_le (Nat.le_of_eq Array.length_toList)]
      exact contains_liveOut.mpr (.inr (.inl ⟨_, hc, hinto htarget hparams (ih htarget)⟩))
    | fault hblk hk hx htarget hparams =>
      cases hb.symm.trans hblk
      refine liveFrom_of_fault _ (contains_liveOnFault.mpr ⟨_, hx, ?_⟩)
      exact hinto htarget hparams (ih htarget)

/-! ## Passes -/

def refresh (f : Function) (p : Block × BlockId) (live : LiveIn) : LiveIn :=
  live.setIfInBounds p.2 (f.blockLiveIn live p.1)

theorem livenessPass_eq : f.livenessPass live = f.blocks.toList.zipIdx.foldr f.refresh live := rfl

theorem Within.refresh (p : Block × BlockId) (h : live.Within live') :
    (f.refresh p live).Within (f.refresh p live') := by
  refine ⟨by simp [Function.refresh, h.1], fun b r => ?_⟩
  unfold Function.refresh
  rw [LiveIn.has_set, LiveIn.has_set, h.1]
  split
  · rintro ⟨hlt, hr⟩
    obtain ⟨hfrom, hparams⟩ := contains_blockLiveIn.mp hr
    exact ⟨hlt, contains_blockLiveIn.mpr ⟨liveFrom_mono h _ hfrom, hparams⟩⟩
  · exact h.2 b r

theorem Within.livenessPass (h : live.Within live') :
    (f.livenessPass live).Within (f.livenessPass live') := by
  rw [livenessPass_eq, livenessPass_eq]
  induction f.blocks.toList.zipIdx with
  | nil => exact h
  | cons p rest ih => exact Within.refresh p ih

theorem Justified.livenessPass (h : f.Justified live) : f.Justified (f.livenessPass live) := by
  rw [livenessPass_eq]
  have hmem : ∀ p ∈ f.blocks.toList.zipIdx, f.block? p.2 = some p.1 := fun p hp =>
    Array.getElem?_toList.symm.trans (mk_mem_zipIdx_iff_getElem?.mp hp)
  generalize f.blocks.toList.zipIdx = ps at hmem
  induction ps with
  | nil => exact h
  | cons p rest ih =>
    intro b r hr
    have hrest := ih fun q hq => hmem q (mem_cons_of_mem p hq)
    rw [foldr_cons, Function.refresh, LiveIn.has_set] at hr
    split at hr
    · rename_i heq
      subst heq
      exact hrest.blockLiveIn (hmem p mem_cons_self) hr.2
    · exact hrest b r hr

theorem refreshed_of_not_mem (h : b ∉ ps.map (·.2)) : (ps.foldr f.refresh live)[b]? = live[b]? := by
  induction ps with
  | nil => rfl
  | cons p ps ih =>
    rw [map_cons, mem_cons, not_or] at h
    rw [foldr_cons, refresh, Array.getElem?_setIfInBounds, if_neg (Ne.symm h.1), ih h.2]

/-- Where a pass changes nothing, each of its steps changes nothing. -/
theorem refresh_of_fixed (hnodup : (ps.map (·.2)).Nodup)
    (h : ps.foldr f.refresh live = live) : ∀ p ∈ ps, f.refresh p live = live := by
  induction ps with
  | nil => nofun
  | cons p ps ih =>
    rw [map_cons, nodup_cons] at hnodup
    have hrest : ps.foldr f.refresh live = live := by
      refine Array.ext_getElem? fun b => ?_
      by_cases hb : b = p.2
      · exact hb ▸ refreshed_of_not_mem hnodup.1
      · conv_rhs => rw [← h]
        rw [foldr_cons, refresh, Array.getElem?_setIfInBounds, if_neg (Ne.symm hb)]
    rw [foldr_cons, hrest] at h
    exact forall_mem_cons.mpr ⟨h, ih hnodup.2 hrest⟩

theorem closed_of_fixed (hsize : live.size = f.blocks.size) (h : f.livenessPass live = live) :
    f.Closed live := by
  intro b blk hb r hr
  have hmem : (blk, b) ∈ f.blocks.toList.zipIdx :=
    mk_mem_zipIdx_iff_getElem?.mpr (Array.getElem?_toList.trans hb)
  have hnodup : (f.blocks.toList.zipIdx.map (·.2)).Nodup := by
    rw [zipIdx_map_snd]
    exact nodup_range' ..
  rw [← refresh_of_fixed hnodup h _ hmem, refresh, LiveIn.has_set, if_pos rfl, hsize]
  exact ⟨(Array.getElem?_eq_some_iff.mp hb).1, hr⟩

/-! ## The loop ends -/

open Classical in
/-- Places in the sets that are taken. -/
noncomputable def taken (f : Function) (live : LiveIn) : Finset (BlockId × Reg) :=
  (Finset.range f.blocks.size ×ˢ Finset.range f.regTypes.size).filter fun p => live.Has p.1 p.2

theorem card_taken_le : (f.taken live).card ≤ f.blocks.size * f.regTypes.size := by
  classical
  refine (Finset.card_filter_le _ _).trans ?_
  simp

theorem card_taken_lt (hsize : live'.size = f.blocks.size) (hj : f.Justified live')
    (h : live.Within live') (hne : live' ≠ live) : (f.taken live).card < (f.taken live').card := by
  classical
  refine Finset.card_lt_card ⟨Finset.monotone_filter_right _ fun p _ => h.2 p.1 p.2, ?_⟩
  intro hsub
  refine hne (LiveIn.Within.antisymm ⟨h.1.symm, fun b r hr => ?_⟩ h)
  have hlt : r < f.regTypes.size := (Array.getElem?_eq_some_iff.mp (isRef_iff.mp (hj b r hr).1)).1
  have hmem : (b, r) ∈ f.taken live' := by simp [taken, hr, hlt, hsize ▸ hr.lt_size]
  exact (Finset.mem_filter.mp (hsub hmem)).2

theorem size_livenessPass : (f.livenessPass live).size = live.size := by
  rw [livenessPass_eq]
  induction f.blocks.toList.zipIdx with
  | nil => rfl
  | cons p rest ih => rw [foldr_cons, refresh, Array.size_setIfInBounds, ih]

/-- Sets that the loop comes across. -/
structure Growing (f : Function) (live : LiveIn) : Prop where
  size : live.size = f.blocks.size
  justified : f.Justified live
  grows : live.Within (f.livenessPass live)

theorem Growing.pass (h : f.Growing live) : f.Growing (f.livenessPass live) where
  size := size_livenessPass.trans h.size
  justified := h.justified.livenessPass
  grows := Within.livenessPass h.grows

theorem growing_empty (f : Function) : f.Growing (Array.replicate f.blocks.size .empty) := by
  have hnone : ∀ b r, ¬ LiveIn.Has (Array.replicate f.blocks.size .empty) b r := by
    intro b r h
    by_cases hb : b < f.blocks.size <;> simp [LiveIn.Has, Array.getD] at h
  refine ⟨by simp, fun b r h => (hnone b r h).elim, ?_, fun b r h => (hnone b r h).elim⟩
  rw [size_livenessPass]

/-- With more passes left than free places, the loop stops because nothing changes. -/
theorem Growing.fixpoint (n : Nat) (h : f.Growing live)
    (hroom : f.blocks.size * f.regTypes.size < (f.taken live).card + n) :
    f.Growing (f.livenessFixpoint n live) ∧
      f.livenessPass (f.livenessFixpoint n live) = f.livenessFixpoint n live ∧
      ∃ k < n, f.livenessFixpoint n live = f.livenessPass^[k] live := by
  induction n generalizing live with
  | zero => exact absurd card_taken_le (Nat.not_le.mpr hroom)
  | succ n ih =>
    rw [livenessFixpoint]
    split
    · rename_i hfixed
      exact ⟨h, hfixed, 0, Nat.succ_pos n, rfl⟩
    · rename_i hchanged
      have hlt := card_taken_lt h.pass.size h.pass.justified h.grows hchanged
      obtain ⟨hgrowing, hfixed, k, hk, heq⟩ := ih h.pass (by omega)
      exact ⟨hgrowing, hfixed, k + 1, Nat.succ_lt_succ hk, heq⟩

theorem liveIn_solves (f : Function) : f.Growing f.liveIn ∧ f.livenessPass f.liveIn = f.liveIn ∧
    ∃ k ≤ f.blocks.size * f.regTypes.size,
      f.liveIn = f.livenessPass^[k] (Array.replicate f.blocks.size .empty) := by
  obtain ⟨hgrowing, hfixed, k, hk, heq⟩ :=
    (growing_empty f).fixpoint (f.blocks.size * f.regTypes.size + 1) (by omega)
  exact ⟨hgrowing, hfixed, k, Nat.le_of_lt_succ hk, heq⟩

/-- The computed sets are exactly what is live at each point. -/
theorem contains_liveFrom (hb : f.block? b = some blk) (hk : k ≤ blk.instrs.size) :
    (f.liveFrom f.liveIn blk (blk.instrs.toList.drop k)).contains r = true ↔
      f.regType? r = some .ref ∧ f.LiveAt r ⟨b, k⟩ := by
  obtain ⟨hgrowing, hfixed, -⟩ := liveIn_solves f
  rw [← isRef_iff]
  constructor
  · intro hr
    have hlive := hgrowing.justified.liveFrom hb _ _ (take_append_drop k _).symm hr
    rwa [length_take_of_le (by simpa using hk)] at hlive
  · rintro ⟨href, hlive⟩
    exact (closed_of_fixed hgrowing.size hfixed).liveFrom href hlive hb

/-! ## Maps -/

theorem mapsFrom_fst (rest : List PlacedInstr) (index : Nat) :
    (f.mapsFrom (liveOnFault live blk) (f.liveOut live blk) rest index).1 =
      f.liveFrom live blk rest := by
  induction rest generalizing index with
  | nil => rfl
  | cons p rest ih =>
    rw [mapsFrom]
    dsimp only
    rw [ih]
    split <;> rfl

/-- The map of a point lists what is live behind its instruction. -/
theorem mapsFrom_lookup {rest : List PlacedInstr} {p : PlacedInstr} {i : Nat} (index : Nat)
    (hp : rest[i]? = some p) (hgc : p.instr.isGcPoint = true) :
    (f.mapsFrom (liveOnFault live blk) (f.liveOut live blk) rest index).2.lookup (index + i) =
      some (((f.liveFrom live blk (rest.drop (i + 1))).eraseAll p.instr.dest?.toList).toList
        f.regTypes.size) := by
  induction rest generalizing index i with
  | nil => cases hp
  | cons q rest ih =>
    rw [mapsFrom]
    dsimp only
    rw [mapsFrom_fst]
    cases i with
    | zero =>
      cases hp
      rw [if_pos hgc, lookup_cons, Nat.add_zero, beq_self_eq_true]
      rfl
    | succ i =>
      have hrest := ih (index + 1) hp
      rw [Nat.add_assoc, Nat.add_comm 1 i] at hrest
      split
      · rw [lookup_cons, beq_eq_false_iff_ne.mpr (by omega)]
        exact hrest
      · exact hrest

/-- The map of a call or safepoint lists the references, other than its own result, that some way
from behind it reads before they are assigned. The sets are those of the first pass that changes
nothing, of which there is one. -/
theorem stackMaps_exactly_liveness (f : Function) :
    (∃ k ≤ f.blocks.size * f.regTypes.size,
      f.liveIn = f.livenessPass^[k] (Array.replicate f.blocks.size .empty) ∧
      f.livenessPass f.liveIn = f.liveIn) ∧
    ∀ b blk i p, f.block? b = some blk → blk.instrs[i]? = some p → p.instr.isGcPoint = true →
      ∃ regs, f.stackMaps.at? b i = some regs ∧
        ∀ r, r ∈ regs ↔
          f.regType? r = some .ref ∧ p.instr.dest? ≠ some r ∧ f.LiveAt r ⟨b, i + 1⟩ := by
  obtain ⟨-, hfixed, k, hk, heq⟩ := liveIn_solves f
  refine ⟨⟨k, hk, heq, hfixed⟩, fun b blk i p hb hp hgc => ?_⟩
  have hat : f.stackMaps.at? b i = some (((f.liveFrom f.liveIn blk
      (blk.instrs.toList.drop (i + 1))).eraseAll p.instr.dest?.toList).toList f.regTypes.size) := by
    have hlookup := @mapsFrom_lookup f f.liveIn blk _ p i 0 (Array.getElem?_toList.trans hp) hgc
    rw [Nat.zero_add] at hlookup
    rw [StackMaps.at?, stackMaps, Array.getElem?_map, show f.blocks[b]? = some blk from hb]
    exact hlookup
  refine ⟨_, hat, fun r => ?_⟩
  have hlt := (Array.getElem?_eq_some_iff.mp hp).1
  have hbound : f.regType? r = some .ref → r < f.regTypes.size := fun h =>
    (Array.getElem?_eq_some_iff.mp h).1
  rw [RegSet.mem_toList, RegSet.contains_eraseAll, Bool.and_eq_true, contains_liveFrom hb hlt]
  simp only [decide_eq_true_eq, Option.mem_toList]
  tauto

/-- A loop that polls; its handler reads the register that was assigned in front of it. -/
def guardedLoop : Function where
  name := "T.f()V"
  params := []
  result := none
  maxLocals := 0
  regTypes := #[.ref, .i32]
  blocks := #[
    { instrs := #[⟨.constNull 0, 0⟩], terminator := .jump ⟨1, []⟩ },
    { instrs := #[⟨.safepoint, 1⟩, ⟨.constInt 1 0, 1⟩], terminator := .jump ⟨1, []⟩, handler := some 2 },
    { terminator := .throw 0 }]

theorem stackMaps_exactly_liveness_guardedLoop :
    guardedLoop.stackMaps.at? 1 0 = some [0] ∧ guardedLoop.LiveAt 0 ⟨1, 1⟩ := by
  have hmap : guardedLoop.stackMaps.at? 1 0 = some [0] := by decide +kernel
  obtain ⟨regs, hat, hregs⟩ := (stackMaps_exactly_liveness guardedLoop).2 1 _ 0 _ rfl rfl rfl
  rw [hmap, Option.some.injEq] at hat
  subst hat
  exact ⟨hmap, ((hregs 0).mp List.mem_cons_self).2.2⟩

end Function

end ManagedCore
