import ManagedCore.Thread.Frames
import Mathlib.Logic.Function.Iterate

/-!
# Walks over frames

A cursor that is put on a stack of frames and moved on until it stands nowhere meets the accepted
frames from the innermost to the oldest. To move on and to move back undo each other. Both follow
from what lies between two neighbours: no accepted frame.
-/

namespace ManagedCore.Walker

open List

variable {w : Walker} {s : FrameStack} {i n : Nat} {o : Option Nat} {o' : Option Nat}
  {p : Nat → Bool}

/-- The places below `n` that a cursor stops at. -/
def accepted (w : Walker) (s : FrameStack) (n : Nat) : List Nat :=
  (range n).filter (w.accepts s)

theorem accepted_succ (w : Walker) (s : FrameStack) (n : Nat) :
    w.accepted s (n + 1) = w.accepted s n ++ if w.accepts s n then [n] else [] := by
  rw [accepted, range_succ, filter_append, accepted, filter_cons, filter_nil]

theorem settleFrom_eq (w : Walker) (s : FrameStack) (i : Nat) :
    w.settleFrom s i = (w.accepted s (i + 1)).getLast? := by
  induction i with
  | zero => by_cases h : w.accepts s 0 <;> simp [settleFrom, accepted]
  | succ i ih =>
    rw [settleFrom, accepted_succ]
    by_cases h : w.accepts s (i + 1) <;> simp [h, ih]

theorem lt_size (h : w.accepts s i) : i < s.size := by
  rw [accepts, FrameStack.at?] at h
  by_contra hi
  rw [Array.getElem?_eq_none (Nat.le_of_not_lt hi)] at h
  simp at h

theorem settle_below (h : n ≤ s.size) :
    w.settle s (below n) = { w with index := (w.accepted s n).getLast? } := by
  cases n with
  | zero => rfl
  | succ n =>
    have hn : n < s.size := h
    simp [settle, below, hn, settleFrom_eq]

theorem begin_eq (s : FrameStack) (only : Bool) :
    begin s only = ⟨(accepted ⟨none, only⟩ s s.size).getLast?, only⟩ :=
  settle_below (Nat.le_refl _)

theorem advance_eq (hi : w.index = some i) (h : i < s.size) :
    w.advance s = { w with index := (w.accepted s i).getLast? } := by
  rw [advance, hi]
  exact settle_below (Nat.le_of_lt h)

/-! ## The walk to the end -/

theorem index_iterate_advance (hn : n ≤ s.size) (k : Nat) :
    (advance · s)^[k] { w with index := (w.accepted s n).getLast? } =
      { w with index := (w.accepted s n).reverse[k]? } := by
  induction n generalizing k with
  | zero => exact Function.iterate_fixed rfl k
  | succ n ih =>
    rw [accepted_succ]
    by_cases h : w.accepts s n
    · cases k with
      | zero => simp [h]
      | succ k =>
        have hstep : advance ⟨some n, w.onlyManaged⟩ s = ⟨(w.accepted s n).getLast?, _⟩ :=
          advance_eq rfl hn
        simpa [h, hstep] using ih (Nat.le_of_lt hn) k
    · simpa [h] using ih (Nat.le_of_lt hn) k

theorem mem_walk {only : Bool} {x : Nat × Frame} (h : x ∈ s.walk only) : s.at? x.1 = some x.2 := by
  obtain ⟨y, hy, rfl⟩ := mem_map.mp h
  have hmem := (mem_filter.mp (mem_reverse.mp hy)).1
  simpa [FrameStack.at?] using mem_zipIdx_iff_getElem?.mp hmem

theorem walk_places (s : FrameStack) (only : Bool) :
    (s.walk only).map Prod.fst = (accepted ⟨none, only⟩ s s.size).reverse := by
  have hkept : ∀ x ∈ s.frames.toList.zipIdx,
      (!only || x.1.isManaged) = accepts ⟨none, only⟩ s x.2 := by
    intro x hx
    have hat : s.at? x.2 = some x.1 := by
      simpa [FrameStack.at?] using mem_zipIdx_iff_getElem?.mp hx
    rw [accepts, hat]
  rw [FrameStack.walk, filter_congr hkept, map_map, map_reverse, accepted]
  rw [FrameStack.size, range_eq_range', ← s.frames.length_toList, ← zipIdx_map_snd,
    filter_map]
  rfl

theorem current?_iterate_advance (s : FrameStack) (only : Bool) (k : Nat) :
    ((advance · s)^[k] (begin s only)).current? s = (s.walk only)[k]? := by
  rw [begin_eq, index_iterate_advance (Nat.le_refl _), ← walk_places, getElem?_map, current?]
  cases h : (s.walk only)[k]? with
  | none => rfl
  | some x => simp [mem_walk (mem_of_getElem? h)]

/-! ## Neighbours -/

/-- The cursor stands at a frame that it accepts, or past the oldest frame. -/
def Stands (w : Walker) (s : FrameStack) : Prop := ∀ i ∈ w.index, w.accepts s i

/-- Of the places below `n` with `p` the last is `o`, if there is any. -/
structure Last (p : Nat → Bool) (n : Nat) (o : Option Nat) : Prop where
  below : ∀ j ∈ o, j < n ∧ p j
  nearest : ∀ k < n, p k → ∃ j ∈ o, k ≤ j

theorem Last.mem (h : Last p n o) (h' : Last p n o') {j : Nat} (hj : j ∈ o) : j ∈ o' := by
  obtain ⟨i, hi, hle⟩ := h'.nearest j (h.below j hj).1 (h.below j hj).2
  obtain ⟨k, hk, hge⟩ := h.nearest i (h'.below i hi).1 (h'.below i hi).2
  obtain rfl := Option.mem_unique hj hk
  rwa [Nat.le_antisymm hle hge]

theorem Last.unique (h : Last p n o) (h' : Last p n o') : o = o' :=
  Option.ext fun _ => ⟨h.mem h', h'.mem h⟩

theorem last_accepted (w : Walker) (s : FrameStack) (n : Nat) :
    Last (w.accepts s) n (w.accepted s n).getLast? := by
  induction n with
  | zero => exact ⟨by simp [accepted], by simp⟩
  | succ n ih =>
    rw [accepted_succ]
    by_cases h : w.accepts s n
    · simp only [h, if_true, getLast?_concat]
      exact ⟨by simp [h], fun k hk _ => ⟨n, rfl, Nat.le_of_lt_succ hk⟩⟩
    · rw [if_neg h, append_nil]
      refine ⟨fun j hj => ⟨Nat.lt_succ_of_lt (ih.below j hj).1, (ih.below j hj).2⟩, ?_⟩
      intro k hk hacc
      obtain hlt | rfl := Nat.lt_succ_iff_lt_or_eq.mp hk
      · exact ih.nearest k hlt hacc
      · exact absurd hacc h

/-- The place above the cursor. -/
def next (w : Walker) : Nat := (w.index.map (· + 1)).getD 0

theorem last_index_iff (h : w.Stands s) :
    Last (w.accepts s) n w.index ↔ w.next ≤ n ∧ ∀ k, w.next ≤ k → k < n → ¬ w.accepts s k := by
  obtain ⟨_ | j, only⟩ := w
  · constructor
    · intro hlast
      refine ⟨Nat.zero_le n, fun k _ hk hacc => ?_⟩
      obtain ⟨j, hj, -⟩ := hlast.nearest k hk hacc
      cases hj
    · intro hfree
      exact ⟨by simp, fun k hk hacc => absurd hacc (hfree.2 k (Nat.zero_le k) hk)⟩
  · constructor
    · intro hlast
      refine ⟨(hlast.below j rfl).1, fun k hle hk hacc => ?_⟩
      obtain ⟨i, hi, hki⟩ := hlast.nearest k hk hacc
      cases hi
      exact Nat.not_lt_of_le hki hle
    · intro hfree
      refine ⟨fun i hi => ?_, fun k hk hacc => ⟨j, rfl, ?_⟩⟩
      · cases hi
        exact ⟨hfree.1, h j rfl⟩
      · by_contra hkj
        exact hfree.2 k (Nat.lt_of_not_le hkj) hk hacc

/-- The accepted frame nearest above the cursor. -/
def above (w : Walker) (s : FrameStack) : Option Nat :=
  ((range s.size).drop w.next).find? (w.accepts s)

theorem retreat_eq (w : Walker) (s : FrameStack) :
    w.retreat s = (w.above s).elim w fun i => { w with index := some i } := by
  rw [retreat, above, next]
  split <;> simp [*]

theorem above_eq_some (h : w.Stands s) :
    w.above s = some i ↔ w.accepts s i ∧ Last (w.accepts s) i w.index := by
  rw [last_index_iff h, above, range_eq_range', drop_range', find?_range'_eq_some]
  refine and_congr_right fun hacc => ?_
  have hsize := lt_size hacc
  grind

theorem above_eq_none (h : w.Stands s) : w.above s = none ↔ Last (w.accepts s) s.size w.index := by
  have hnext : w.next ≤ s.size := by
    rw [next]
    cases hindex : w.index with
    | none => exact Nat.zero_le _
    | some j => exact lt_size (h j hindex)
  rw [last_index_iff h, above, range_eq_range']
  grind

theorem eq_begin_iff : w = begin s w.onlyManaged ↔ Last (w.accepts s) s.size w.index := by
  rw [begin_eq]
  constructor
  · intro h
    rw [congrArg Walker.index h]
    exact last_accepted w s s.size
  · intro h
    rw [show accepted ⟨none, w.onlyManaged⟩ s s.size = w.accepted s s.size from rfl,
      (last_accepted w s s.size).unique h]

theorem retreat_advance (h : w.Stands s) (hi : w.index = some i) : (w.advance s).retreat s = w := by
  have hlast := last_accepted w s i
  have hadvance := advance_eq hi (lt_size (h i hi))
  have hstands : (w.advance s).Stands s := hadvance ▸ fun j hj => (hlast.below j hj).2
  have habove : (w.advance s).above s = some i :=
    (above_eq_some hstands).mpr (hadvance ▸ ⟨h i hi, hlast⟩)
  rw [retreat_eq, habove, hadvance]
  exact congrArg (Walker.mk · w.onlyManaged) hi.symm

theorem advance_retreat (h : w.Stands s) (hi : w.above s = some i) :
    (w.retreat s).advance s = w := by
  obtain ⟨hacc, hlast⟩ := (above_eq_some h).mp hi
  rw [retreat_eq, hi]
  exact (advance_eq rfl (lt_size hacc)).trans
    (congrArg (Walker.mk · w.onlyManaged) ((last_accepted w s i).unique hlast))

theorem retreat_eq_self (h : w.Stands s) : w.retreat s = w ↔ w.above s = none := by
  rw [retreat_eq]
  cases hi : w.above s with
  | none => exact ⟨fun _ => rfl, fun _ => rfl⟩
  | some i =>
    obtain ⟨-, hlast⟩ := (above_eq_some h).mp hi
    have hne : w.index ≠ some i := fun hindex => Nat.lt_irrefl i (hlast.below i hindex).1
    exact ⟨fun heq => absurd (congrArg Walker.index heq).symm hne, fun hnone => by cases hnone⟩

/-- Put on a stack and moved on to the end, a cursor meets the accepted frames from the innermost to
the oldest, each with its place and class, and then stands nowhere for good. From every place that
it can stand at, the step back undoes the step on, the step on undoes a step back that moved, and
the step back does not move on the innermost accepted frame alone. -/
theorem walks_and_returns (s : FrameStack) (only : Bool) :
    (∀ n, ((advance · s)^[n] (begin s only)).current? s = (s.walk only)[n]? ∧
      ((advance · s)^[n] (begin s only)).state s = ((s.walk only)[n]?).elim .invalid fun x =>
        if x.2.isManaged then .validWithMetadata else .valid) ∧
    ∀ w : Walker, w.onlyManaged = only → w.Stands s →
      (w.index ≠ none → (w.advance s).retreat s = w) ∧
      (w.retreat s ≠ w → (w.retreat s).advance s = w) ∧
      (w.retreat s = w ↔ w = begin s only) := by
  refine ⟨fun n => ?_, ?_⟩
  · have hcurrent := current?_iterate_advance s only n
    refine ⟨hcurrent, ?_⟩
    rw [state, hcurrent]
    cases (s.walk only)[n]? <;> rfl
  · rintro w rfl hstands
    refine ⟨fun hindex => ?_, fun hmoved => ?_, ?_⟩
    · obtain ⟨i, hi⟩ := Option.ne_none_iff_exists'.mp hindex
      exact retreat_advance hstands hi
    · obtain ⟨i, hi⟩ := Option.ne_none_iff_exists'.mp
        (mt (retreat_eq_self hstands).mpr hmoved)
      exact advance_retreat hstands hi
    · rw [retreat_eq_self hstands, above_eq_none hstands, eq_begin_iff]

/-- Two frames of compiled code, the older one under work of the engine and the other under native
code. -/
def twoManaged : FrameStack where
  frames := #[.managed 3 0, .internal "boot", .managed 4 7, .known (some 5) none]
  lastKnown := some 3

theorem walks_and_returns_twoManaged :
    twoManaged.walk true = [(2, .managed 4 7), (0, .managed 3 0)] ∧
    ((advance · twoManaged)^[1] (begin twoManaged true)).current? twoManaged =
      some (0, .managed 3 0) ∧
    advance ⟨some 0, true⟩ twoManaged = ⟨none, true⟩ ∧
    (advance ⟨some 0, true⟩ twoManaged).retreat twoManaged = ⟨some 0, true⟩ :=
  have h := walks_and_returns twoManaged true
  ⟨by decide, (h.1 1).1, by decide, (h.2 ⟨some 0, true⟩ rfl (by simp [Stands]; decide)).1 (by simp)⟩

end ManagedCore.Walker
