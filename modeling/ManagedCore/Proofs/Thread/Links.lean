import ManagedCore.Thread.Frames
import Mathlib.Data.Nat.Basic

/-!
# Links between native frames

Frames are put on a stack one at a time and cut off down to any place. The stack knows its innermost
native frame, and each native frame the next one below it, so that the links lead through all native
frames and through no others.
-/

namespace ManagedCore.FrameStack

variable {s s' : FrameStack} {i n fuel : Nat}

def isKnown (s : FrameStack) (i : Nat) : Bool :=
  match s.frames[i]? with
  | some (.known _ _) => true
  | _ => false

/-- The places of the native frames below `n`, innermost first. -/
def knownPlaces (s : FrameStack) (n : Nat) : List Nat := ((List.range n).filter s.isKnown).reverse

/-- The places that are met by following the links, from one on. -/
inductive Follows (s : FrameStack) : Option Nat → List Nat → Prop
  | done : Follows s none []
  | next {i : Nat} {m : Option MethodId} {previous : Option Nat} {is : List Nat}
      (h : s.frames[i]? = some (.known m previous)) (hrest : Follows s previous is) :
      Follows s (some i) (i :: is)

inductive Act where
  | pushManaged (m : MethodId)
  | pushKnown (m : Option MethodId)
  | pushInternal (label : String)
  | popTo (index : Nat)

def act (s : FrameStack) : Act → FrameStack
  | .pushManaged m => s.pushManaged m
  | .pushKnown m => s.pushKnown m
  | .pushInternal label => s.pushInternal label
  | .popTo index => s.popTo index

theorem isKnown_iff : s.isKnown i ↔ ∃ m previous, s.frames[i]? = some (.known m previous) := by
  unfold isKnown
  split
  · simp_all
  · simp_all

theorem knownPlaces_succ (s : FrameStack) (n : Nat) :
    s.knownPlaces (n + 1) = if s.isKnown n then n :: s.knownPlaces n else s.knownPlaces n := by
  rw [knownPlaces, List.range_succ]
  by_cases h : s.isKnown n <;> simp [h, knownPlaces]

theorem knownPlaces_congr (h : ∀ i < n, s'.frames[i]? = s.frames[i]?) :
    s'.knownPlaces n = s.knownPlaces n := by
  rw [knownPlaces, knownPlaces, List.filter_congr fun i hi => ?_]
  rw [isKnown, h i (List.mem_range.mp hi), isKnown]

/-- The head and each link lead to the next native frame below. -/
structure Linked (s : FrameStack) : Prop where
  last : s.lastKnown = (s.knownPlaces s.size).head?
  previous : ∀ i m p, s.frames[i]? = some (.known m p) → p = (s.knownPlaces i).head?

/-- Whatever happens above a place, the links below it lead where they did. -/
theorem Linked.link (h : s.Linked) (hsame : ∀ i < n, s'.frames[i]? = s.frames[i]?) (hi : i < n)
    {m : Option MethodId} {p : Option Nat} (hf : s'.frames[i]? = some (.known m p)) :
    p = (s'.knownPlaces i).head? := by
  rw [h.previous i m p (hsame i hi ▸ hf),
    knownPlaces_congr fun j hj => hsame j (Nat.lt_trans hj hi)]

theorem Linked.follows (h : s.Linked) : s.Follows (s.knownPlaces n).head? (s.knownPlaces n) := by
  induction n with
  | zero => exact .done
  | succ n ih =>
    rw [knownPlaces_succ]
    split
    · rename_i hknown
      obtain ⟨m, p, hf⟩ := isKnown_iff.mp hknown
      exact .next hf (h.previous n m p hf ▸ ih)
    · exact ih

theorem Linked.push {f : Frame} (h : s.Linked) (hframes : s'.frames = s.frames.push f)
    (hlast : s'.lastKnown = if s'.isKnown s.size then some s.size else s.lastKnown)
    (hlink : ∀ m p, f = .known m p → p = s.lastKnown) : s'.Linked := by
  have hsame (i : Nat) (hi : i < s.size) : s'.frames[i]? = s.frames[i]? := by
    rw [hframes, Array.getElem?_push, if_neg (Nat.ne_of_lt hi : i ≠ s.frames.size)]
  have hplaces := knownPlaces_congr hsame
  have hsize : s'.size = s.size + 1 := by simp [size, hframes]
  refine ⟨?_, fun i m p hf => ?_⟩
  · rw [hlast, hsize, knownPlaces_succ, hplaces, h.last]
    split <;> rfl
  · have hi : i < s'.size := (Array.getElem?_eq_some_iff.mp hf).1
    obtain hlt | rfl := Nat.lt_succ_iff_lt_or_eq.mp (hsize ▸ hi)
    · exact h.link hsame hlt hf
    · have htop : s'.frames[s.size]? = some f := hframes ▸ Array.getElem?_push_size
      rw [htop, Option.some.injEq] at hf
      rw [hlink m p hf, hplaces, h.last]

theorem Linked.knownBelow (h : s.Linked) (index : Nat) (hfuel : n ≤ fuel) :
    s.knownBelow index fuel (s.knownPlaces n).head? = (s.knownPlaces (min index n)).head? := by
  induction n generalizing fuel with
  | zero =>
    rw [Nat.min_zero]
    cases fuel <;> rfl
  | succ n ih =>
    by_cases hknown : s.isKnown n
    · obtain ⟨m, p, hf⟩ := isKnown_iff.mp hknown
      obtain ⟨fuel, rfl⟩ := Nat.exists_eq_add_one_of_ne_zero (Nat.ne_zero_of_lt hfuel)
      rw [knownPlaces_succ, if_pos hknown, List.head?_cons, FrameStack.knownBelow]
      split
      · rename_i hlt
        rw [Nat.min_eq_right hlt, knownPlaces_succ, if_pos hknown, List.head?_cons]
      · rw [previousKnown, hf, h.previous n m p hf, ih (Nat.le_of_succ_le_succ hfuel)]
        congr 2
        omega
    · rw [knownPlaces_succ, if_neg hknown, ih (Nat.le_of_succ_le hfuel)]
      obtain hle | hlt := Nat.lt_or_ge n index
      · rw [Nat.min_eq_right hle, knownPlaces_succ, if_neg hknown,
          Nat.min_eq_right (Nat.le_of_lt hle)]
      · rw [Nat.min_eq_left hlt, Nat.min_eq_left (Nat.le_succ_of_le hlt)]

theorem Linked.popTo (h : s.Linked) (index : Nat) : (s.popTo index).Linked := by
  have hsize : (s.popTo index).size = min index s.size := Array.size_shrink ..
  have hsame (i : Nat) (hi : i < min index s.size) :
      (s.popTo index).frames[i]? = s.frames[i]? := by
    simp [FrameStack.popTo, Array.getElem?_extract]
    omega
  refine ⟨?_, fun i m p hf => h.link hsame ?_ hf⟩
  · rw [hsize, knownPlaces_congr hsame, ← h.knownBelow index (Nat.le_succ s.size), ← h.last]
    rfl
  · rw [← hsize]
    exact (Array.getElem?_eq_some_iff.mp hf).1

theorem Linked.act (h : s.Linked) (a : Act) : (s.act a).Linked := by
  cases a with
  | pushManaged m => exact h.push rfl (by simp [FrameStack.act, pushManaged, isKnown, size]) nofun
  | pushKnown m =>
    refine h.push rfl (by simp [FrameStack.act, pushKnown, isKnown, size]) fun _ _ hf => ?_
    cases hf
    rfl
  | pushInternal label =>
    exact h.push rfl (by simp [FrameStack.act, pushInternal, isKnown, size]) nofun
  | popTo index => exact h.popTo index

theorem Linked.run (h : s.Linked) (acts : List Act) : (acts.foldl FrameStack.act s).Linked := by
  induction acts generalizing s with
  | nil => exact h
  | cons a acts ih => exact ih (h.act a)

/-- Whatever is pushed and popped, the stack knows its innermost native frame, and the links from
there lead through all native frames, from the innermost to the oldest. -/
theorem links_follow_known (acts : List Act) :
    let s := acts.foldl act {}
    s.lastKnown = (s.knownPlaces s.size).head? ∧ s.Follows s.lastKnown (s.knownPlaces s.size) := by
  have h : (acts.foldl FrameStack.act {}).Linked := Linked.run ⟨rfl, by simp⟩ acts
  exact ⟨h.last, h.last ▸ h.follows⟩

end ManagedCore.FrameStack
