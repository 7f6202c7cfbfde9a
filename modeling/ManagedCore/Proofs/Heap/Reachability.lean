import Mathlib.Data.List.Nodup
import Mathlib.Logic.Relation
import ManagedCore.Heap.Basic

/-!
# Reachable objects

Tracing marks an object when it is put on the work list, so no object is put there twice, and the
objects that are not marked yet bound what is left to do. When the work list is empty, everything
that a marked object refers to is marked as well.
-/

namespace ManagedCore.Heap

open List

variable {h : Heap} {a b o : ObjId} {os work out : List ObjId} {seen : Array Bool} {n : Nat}

/-- An object refers to another one by a field, or by an element of an array of references. -/
inductive Refers (h : Heap) (a b : ObjId) : Prop where
  | field {x : Object} {fields : Array Value} : h.get? a = some x →
      x.content = .instance fields → .ref (some b) ∈ fields → Refers h a b
  | element {x : Object} {data : Array Value} : h.get? a = some x →
      x.content = .array .ref data → .ref (some b) ∈ data → Refers h a b

def children (h : Heap) (o : ObjId) : List ObjId := ((h.get? o).map (·.references)).getD []

/-- The loop over the work list, run until the list is empty. -/
inductive Traces (h : Heap) : List ObjId → Array Bool → List ObjId → Prop where
  | done (seen : Array Bool) : Traces h [] seen []
  | next {o : ObjId} {work out : List ObjId} {seen : Array Bool} :
      Traces h ((unseen seen (h.children o)).1.reverse ++ work) (unseen seen (h.children o)).2 out →
      Traces h (o :: work) seen (o :: out)

theorem mem_obj? {vs : Array Value} : b ∈ vs.toList.filterMap Value.obj? ↔ .ref (some b) ∈ vs := by
  rw [mem_filterMap]
  constructor
  · rintro ⟨v, hv, hb⟩
    cases v <;> cases hb
    simpa using hv
  · exact fun hb => ⟨_, by simpa using hb, rfl⟩

theorem mem_children : b ∈ h.children a ↔ h.Refers a b := by
  unfold children
  constructor
  · intro hb
    cases hx : h.get? a with
    | none => simp [hx] at hb
    | some x =>
      simp only [hx, Option.map_some, Object.references] at hb
      split at hb
      · exact .field hx ‹_› (mem_obj?.mp hb)
      · exact .element hx ‹_› (mem_obj?.mp hb)
      · cases hb
  · rintro (⟨hx, hc, hb⟩ | ⟨hx, hc, hb⟩) <;>
      simpa only [hx, Option.map_some, Option.getD_some, Object.references, hc] using mem_obj?.mpr hb

/-! ## Marks -/

/-- Numbers without an object count as marked. -/
def Marked (seen : Array Bool) (o : ObjId) : Prop := seen[o]? ≠ some false

theorem marked_iff : Marked seen o ↔ seen.getD o true = true := by
  rw [Marked, Array.getD_eq_getD_getElem?]
  cases seen[o]? <;> simp

theorem marked_mark (ha : ¬ Marked seen a) :
    Marked (seen.setIfInBounds a true) b ↔ Marked seen b ∨ b = a := by
  unfold Marked at *
  grind

theorem mem_unseen : o ∈ (unseen seen os).1 ↔ o ∈ os ∧ ¬ Marked seen o := by
  fun_induction unseen seen os with
  | case1 => simp
  | case2 seen a os ha ih =>
    have hmarked : o = a → Marked seen o := fun h => h ▸ marked_iff.mpr ha
    grind
  | case3 seen a os ha tail seen' heq ih =>
    rw [← marked_iff] at ha
    rw [marked_mark ha] at ih
    grind

theorem marked_unseen : Marked (unseen seen os).2 o ↔ Marked seen o ∨ o ∈ (unseen seen os).1 := by
  fun_induction unseen seen os with
  | case1 => simp
  | case2 seen a os ha ih => exact ih
  | case3 seen a os ha tail seen' heq ih =>
    rw [← marked_iff] at ha
    rw [marked_mark ha] at ih
    grind

theorem nodup_unseen : (unseen seen os).1.Nodup := by
  fun_induction unseen seen os with
  | case1 => exact .nil
  | case2 seen a os ha ih => exact ih
  | case3 seen a os ha tail seen' heq ih =>
    rw [← marked_iff] at ha
    have hmem := @mem_unseen a os (seen.setIfInBounds a true)
    rw [heq, marked_mark ha] at hmem
    rw [heq] at ih
    exact nodup_cons.mpr ⟨by simp [hmem], ih⟩

/-- What is put on the work list is no longer there to be marked. -/
theorem length_unseen :
    (unseen seen os).1.length + (unseen seen os).2.count false = seen.count false := by
  fun_induction unseen seen os with
  | case1 => simp
  | case2 seen a os ha ih => exact ih
  | case3 seen a os ha tail seen' heq ih =>
    rw [← marked_iff] at ha
    obtain ⟨hlt, hget⟩ := Array.getElem?_eq_some_iff.mp (Decidable.not_not.mp ha)
    have hcount := Array.boole_getElem_le_count (a := false) hlt
    rw [heq, Array.setIfInBounds, dif_pos hlt, Array.count_set] at ih
    simp only [hget, beq_self_eq_true, if_true] at hcount ih
    simp only [length_cons]
    simp at ih
    omega

/-! ## The loop -/

theorem traces_traceWork {fuel : Nat} (hfuel : work.length + seen.count false ≤ fuel) :
    h.Traces work seen (h.traceWork fuel work seen) := by
  induction fuel generalizing work seen with
  | zero =>
    rw [eq_nil_of_length_eq_zero (by omega : work.length = 0)]
    exact .done seen
  | succ fuel ih =>
    cases work with
    | nil => exact .done seen
    | cons o work =>
      refine .next (ih ?_)
      have hlen := @length_unseen (h.children o) seen
      rw [length_append, length_reverse]
      rw [length_cons] at hfuel
      omega

namespace Traces

section

variable (ht : h.Traces work seen out)

include ht

theorem subset : work ⊆ out := by
  induction ht with
  | done => exact Subset.refl _
  | next _ ih => exact cons_subset_cons _ (append_subset.mp ih).2

theorem mem_or_unmarked (ho : o ∈ out) : o ∈ work ∨ ¬ Marked seen o := by
  induction ht with
  | done => cases ho
  | next _ ih =>
    rcases mem_cons.mp ho with rfl | ho
    · exact .inl mem_cons_self
    · have := ih ho
      rw [mem_append, mem_reverse, mem_unseen, marked_unseen] at this
      grind

theorem nodup (hwork : work.Nodup) (hseen : ∀ o ∈ work, Marked seen o) : out.Nodup := by
  induction ht with
  | done => exact .nil
  | @next o work out seen ht ih =>
    obtain ⟨hout, hwork⟩ := nodup_cons.mp hwork
    obtain ⟨ho, hseen⟩ := forall_mem_cons.mp hseen
    have hfresh : o ∉ out := fun hmem => by
      have := ht.mem_or_unmarked hmem
      rw [mem_append, mem_reverse, mem_unseen, marked_unseen] at this
      grind
    refine nodup_cons.mpr ⟨hfresh, ih ?_ fun b hb => ?_⟩
    · refine nodup_append'.mpr ⟨nodup_reverse.mpr nodup_unseen, hwork, ?_⟩
      exact fun b hb hb' => (mem_unseen.mp (mem_reverse.mp hb)).2 (hseen b hb')
    · rw [marked_unseen]
      exact (mem_append.mp hb).symm.imp (hseen b) mem_reverse.mp

/-- Whatever is found leads from the work list. -/
theorem sound (ho : o ∈ out) : ∃ r ∈ work, Relation.ReflTransGen h.Refers r o := by
  induction ht with
  | done => cases ho
  | @next a work out seen _ ih =>
    rcases mem_cons.mp ho with rfl | ho
    · exact ⟨o, mem_cons_self, .refl⟩
    · obtain ⟨r, hr, hpath⟩ := ih ho
      rcases mem_append.mp hr with hr | hr
      · rw [mem_reverse, mem_unseen, mem_children] at hr
        exact ⟨a, mem_cons_self, .head hr.1 hpath⟩
      · exact ⟨r, mem_cons_of_mem a hr, hpath⟩

/-- What is found refers only to what is found or was marked from the start. -/
theorem closed (ha : a ∈ out) (hab : h.Refers a b) : b ∈ out ∨ Marked seen b := by
  induction ht with
  | done => cases ha
  | @next o work out seen ht ih =>
    have hmarked : b ∈ out ∨ Marked (unseen seen (h.children o)).2 b := by
      rcases mem_cons.mp ha with rfl | ha
      · rw [marked_unseen, mem_unseen, mem_children]
        by_cases hb : Marked seen b
        · exact .inr (.inl hb)
        · exact .inr (.inr ⟨hab, hb⟩)
      · exact ih ha
    rw [marked_unseen] at hmarked
    rcases hmarked with hb | hb | hb
    · exact .inl (mem_cons_of_mem o hb)
    · exact .inr hb
    · exact .inl (mem_cons_of_mem o (ht.subset (by simp [hb])))

end

end Traces

theorem marked_start : Marked (Array.replicate n false) o ↔ n ≤ o := by
  simp [Marked, Array.getElem?_replicate]

/-- Tracing ends, and it gives the objects that some root leads to, each of them once. -/
theorem reachable_exact (h : Heap) (roots : List ObjId) :
    h.Traces (unseen (Array.replicate h.objects.size false) roots).1.reverse
      (unseen (Array.replicate h.objects.size false) roots).2 (h.reachable roots) ∧
    (h.reachable roots).Nodup ∧
    ∀ o, o ∈ h.reachable roots ↔
      (h.get? o).isSome ∧ ∃ r ∈ roots, Relation.ReflTransGen h.Refers r o := by
  have hrun : h.Traces _ _ (h.reachable roots) := traces_traceWork (by
    have hlen := @length_unseen roots (Array.replicate h.objects.size false)
    rw [Array.count_replicate_self] at hlen
    rw [List.length_reverse]
    omega)
  have hroot : ∀ o, o ∈ (unseen (Array.replicate h.objects.size false) roots).1 ↔
      o ∈ roots ∧ o < h.objects.size := fun o => by rw [mem_unseen, marked_start, Nat.not_le]
  have hlt : ∀ o, (h.get? o).isSome ↔ o < h.objects.size := by simp [get?]
  refine ⟨hrun, hrun.nodup (List.nodup_reverse.mpr nodup_unseen) fun o ho => ?_, fun o => ⟨?_, ?_⟩⟩
  · exact marked_unseen.mpr (.inr (List.mem_reverse.mp ho))
  · intro ho
    obtain ⟨r, hr, hpath⟩ := hrun.sound ho
    have hmem := hrun.mem_or_unmarked ho
    rw [marked_unseen, marked_start, List.mem_reverse] at hmem
    refine ⟨(hlt o).mpr ?_, r, ((hroot r).mp (List.mem_reverse.mp hr)).1, hpath⟩
    rcases hmem with hmem | hmem
    · exact ((hroot o).mp hmem).2
    · exact Nat.not_le.mp fun hle => hmem (.inl hle)
  · rintro ⟨ho, r, hr, hpath⟩
    -- An object on the way to another one refers to something, so it is an object of the heap.
    induction hpath with
    | refl => exact hrun.subset (List.mem_reverse.mpr ((hroot r).mpr ⟨hr, (hlt r).mp ho⟩))
    | @tail a b _ hab ih =>
      have ha : (h.get? a).isSome := by
        rcases hab with ⟨hx, -, -⟩ | ⟨hx, -, -⟩ <;> simp [hx]
      rcases hrun.closed (ih ha) hab with hb | hb
      · exact hb
      · rw [marked_unseen, marked_start] at hb
        exact hrun.subset (List.mem_reverse.mpr (hb.resolve_left (Nat.not_le.mpr ((hlt b).mp ho))))

end ManagedCore.Heap
