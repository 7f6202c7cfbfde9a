import ManagedCore.Proofs.Class.Selection
import Mathlib.Logic.Relation

/-!
# Phases of static initialization

Only requests for a class change its phase. Searches and compiling bring in array classes, which
count as initialized from the start, and leave all other classes in the phase they are in.
-/

namespace ManagedCore.Registry

variable {r r' r'' : Registry} {c s : ClassId} {cls : Class}

def phase (r : Registry) (c : ClassId) : InitPhase := ((r.class? c).map (·.init)).getD .initialized

theorem phase_of_class (h : r.class? c = some cls) : r.phase c = cls.init := by
  rw [phase, h]
  rfl

def phase? (r : Registry) (c : ClassId) : Option InitPhase := (r.class? c).map (·.init)

theorem phase?_eq_some {p : InitPhase} :
    r.phase? c = some p ↔ (∃ cls, r.class? c = some cls) ∧ r.phase c = p := by
  unfold phase? phase
  cases r.class? c with
  | none | some => simp

structure SamePhases (r r' : Registry) : Prop where
  phase : ∀ c, r'.phase c = r.phase c
  plain : ∀ n c, r'.class? n = some c → c.isArray = false →
    ∃ c', r.class? n = some c' ∧ c'.isArray = false

namespace SamePhases

theorem refl : r.SamePhases r := ⟨fun _ => rfl, fun _ c hc ha => ⟨c, hc, ha⟩⟩

theorem trans (h : r.SamePhases r') (h' : r'.SamePhases r'') : r.SamePhases r'' := by
  refine ⟨fun c => (h'.phase c).trans (h.phase c), fun n c hc ha => ?_⟩
  obtain ⟨c', hc', ha'⟩ := h'.plain n c hc ha
  exact h.plain n c' hc' ha'

theorem modifyClass (id : ClassId) {f : Class → Class}
    (hf : ∀ c : Class, (f c).init = c.init ∧ (f c).kind = c.kind) :
    r.SamePhases (r.modifyClass id f) := by
  refine ⟨fun n => ?_, fun n c hc ha => ?_⟩
  · unfold Registry.phase
    rw [class_modifyClass]
    split
    · rw [Option.map_map]
      congr 2
      funext c
      exact (hf c).1
    · rfl
  · rw [class_modifyClass] at hc
    split at hc
    · obtain ⟨c', hc', rfl⟩ := Option.map_eq_some_iff.mp hc
      refine ⟨c', hc', ?_⟩
      unfold Class.isArray at ha
      rwa [(hf c').2] at ha
    · exact ⟨c, hc, ha⟩

theorem modifyMethod (id : MethodId) (f : Method → Method) : r.SamePhases (r.modifyMethod id f) :=
  ⟨fun _ => rfl, fun _ c hc ha => ⟨c, hc, ha⟩⟩

theorem addArray (object : Class) (component : FieldType) (cls : Option ClassId) :
    r.SamePhases (r.addArray object component cls).2 := by
  have hclass : ∀ n, (r.addArray object component cls).2.class? n =
      if n = r.classes.size + 1 then some (makeArray object component cls (r.classes.size + 1))
      else r.class? n := fun n => class_push
  refine ⟨fun n => ?_, fun n c hc ha => ?_⟩
  · unfold Registry.phase
    rw [hclass]
    split
    · rename_i hn
      subst hn
      unfold class?
      rw [Nat.add_sub_cancel, Array.getElem?_size]
      rfl
    · rfl
  · rw [hclass] at hc
    split at hc
    · cases hc
      cases ha
    · exact ⟨c, hc, ha⟩

theorem arraysAdded (h : ArraysAdded r r') : r.SamePhases r' := by
  induction h with
  | none => exact .refl
  | add component cls _ _ _ ih => exact ih.trans (addArray _ component cls)

theorem grown (h : r.Grown r') : r.SamePhases r' := by
  induction h with
  | same => exact .refl
  | arrays _ hadded ih => exact ih.trans (arraysAdded hadded)
  | mark id index _ ih => exact ih.trans (modifyClass id fun _ => ⟨rfl, rfl⟩)

end SamePhases

theorem Grown.later (h : r.Grown r') : r.Later r' := by
  induction h with
  | same => exact .same
  | arrays _ hadded ih => exact .arrays ih hadded
  | mark id index _ ih => exact .change id ih fun c => Grown.sameLink_mark c index

/-! ## Superclasses -/

def superclass? (r : Registry) (c : ClassId) : Option ClassId := (r.class? c).bind (·.superclass)

def Above (r : Registry) : ClassId → ClassId → Prop :=
  Relation.TransGen fun c s => r.superclass? c = some s

theorem Keeps.superclass (h : r.Keeps r') (hs : r.superclass? c = some s) :
    r'.superclass? c = some s := by
  obtain ⟨cls, hcls, hs⟩ := Option.bind_eq_some_iff.mp hs
  obtain ⟨cls', hcls', hsame⟩ := h.classes c cls hcls
  rw [superclass?, hcls', hsame]
  exact hs

theorem Keeps.superclass_back (h : r.Keeps r') (hc : r.class? c = some cls)
    (hs : r'.superclass? c = some s) : r.superclass? c = some s := by
  obtain ⟨cls', hcls', hsame⟩ := h.classes c cls hc
  rw [superclass?, hcls', hsame] at hs
  rw [superclass?, hc]
  exact hs

theorem Orderly.above_back (ho : r.Orderly) (h : r.Keeps r') (hc : r.class? c = some cls)
    (hs : r'.Above c s) : r.Above c s := by
  induction hs using Relation.TransGen.head_induction_on generalizing cls with
  | single hs => exact .single (h.superclass_back hc hs)
  | head hs _ ih =>
    have hs := h.superclass_back hc hs
    rw [superclass?, hc] at hs
    obtain ⟨cls', hcls', -⟩ := ho.exists_below hc hs
    refine .head ?_ (ih hcls')
    rw [superclass?, hc]
    exact hs

theorem Orderly.above_plain (h : r.Orderly) (hs : r.Above c s) :
    ∃ cls, r.class? s = some cls ∧ cls.isArray = false := by
  obtain ⟨b, -, hb⟩ := Relation.TransGen.tail'_iff.mp hs
  obtain ⟨bcls, hbcls, hsuper⟩ := Option.bind_eq_some_iff.mp hb
  obtain ⟨cls, hcls, -, hbelow⟩ := h.exists_below hbcls hsuper
  exact ⟨cls, hcls, hbelow.plain⟩

theorem Orderly.above_lt (h : r.Orderly) (hs : r.Above c s) : s < c := by
  have hone : ∀ {c s : ClassId}, r.superclass? c = some s → s < c := by
    intro c s hs
    obtain ⟨cls, hcls, hsuper⟩ := Option.bind_eq_some_iff.mp hs
    obtain ⟨above, -, rfl, hbelow⟩ := h.exists_below hcls hsuper
    exact (h.formed c cls hcls).id ▸ hbelow.lt
  induction hs with
  | single hs => exact hone hs
  | tail _ hs ih => exact Nat.lt_trans (hone hs) ih

/-! ## Phases that follow -/

/-- How phases of the classes that are there may change. -/
structure Onward (r r' : Registry) : Prop where
  later : r.Later r'
  initialized : ∀ k cls, r.class? k = some cls → r.phase k = .initialized →
    r'.phase k = .initialized
  failed : ∀ k, r.phase k = .failed → r'.phase k = .failed
  begun : ∀ k cls, r.class? k = some cls → r.phase k ≠ .uninitialized →
    r'.phase k ≠ .uninitialized

namespace Onward

theorem of_samePhases (hlater : r.Later r') (h : r.SamePhases r') : r.Onward r' where
  later := hlater
  initialized k _ _ hk := (h.phase k).trans hk
  failed k hk := (h.phase k).trans hk
  begun k _ _ hk := by rwa [h.phase k]

theorem trans (h : r.Onward r') (h' : r'.Onward r'') : r.Onward r'' where
  later := h.later.trans h'.later
  initialized k cls hcls hk := by
    obtain ⟨cls', hcls', -⟩ := h.later.keeps.classes k cls hcls
    exact h'.initialized k cls' hcls' (h.initialized k cls hcls hk)
  failed k hk := h'.failed k (h.failed k hk)
  begun k cls hcls hk := by
    obtain ⟨cls', hcls', -⟩ := h.later.keeps.classes k cls hcls
    exact h'.begun k cls' hcls' (h.begun k cls hcls hk)

theorem phase? (h : r.Onward r') {c : ClassId} (hc : r.phase? c = some .initialized) :
    r'.phase? c = some .initialized := by
  obtain ⟨⟨cls, hcls⟩, hphase⟩ := phase?_eq_some.mp hc
  obtain ⟨cls', hcls', -⟩ := h.later.keeps.classes c cls hcls
  exact phase?_eq_some.mpr ⟨⟨cls', hcls'⟩, h.initialized c cls hcls hphase⟩

end Onward

theorem Grown.onward (h : r.Grown r') : r.Onward r' := .of_samePhases h.later (.grown h)

/-! ## Phases of classes that are defined -/

theorem phase_of_missing (h : r.class? c = none) : r.phase c = .initialized := by
  rw [phase, h]
  rfl

theorem define_phase (r : Registry) (d : ClassDef) (k : ClassId) :
    (r.define d).2.phase k = r.phase k ∨
      r.class? k = none ∧ (r.define d).2.phase k = .uninitialized := by
  rcases define_cases r d with hadded | ⟨r₁, s, is, c, hadded, hlinked⟩
  · exact .inl ((SamePhases.arraysAdded hadded).phase k)
  · rw [← (SamePhases.arraysAdded hadded).phase k]
    obtain ⟨-, placed, -, -, hr, hc⟩ := link_ok hlinked.link
    rw [hr]
    by_cases hk : k = r₁.classes.size + 1
    · refine .inr ⟨?_, ?_⟩
      · cases hclass : r.class? k with
        | none => rfl
        | some cls =>
          obtain ⟨cls', hcls', -⟩ := (Later.arrays .same hadded).keeps.classes k cls hclass
          exact absurd (hk ▸ class_le_size hcls') (Nat.not_succ_le_self _)
      · rw [phase, class_push, if_pos hk, hc]
        rfl
    · left
      rw [phase, class_push, if_neg hk]
      rfl

theorem define_plain {d : ClassDef} {n : ClassId} {c : Class}
    (hc : (r.define d).2.class? n = some c) (ha : c.isArray = false) :
    (∃ c', r.class? n = some c' ∧ c'.isArray = false) ∨
      (r.define d).2.phase n = .uninitialized := by
  rcases define_cases r d with hadded | ⟨r₁, s, is, cls, hadded, hlinked⟩
  · exact .inl ((SamePhases.arraysAdded hadded).plain n c hc ha)
  · obtain ⟨-, placed, -, -, hr, hcls⟩ := link_ok hlinked.link
    rw [hr, class_push] at hc
    split at hc
    · rename_i hn
      right
      rw [hr, phase, class_push, if_pos hn, hcls]
      rfl
    · exact .inl ((SamePhases.arraysAdded hadded).plain n c hc ha)

def Fresh (r : Registry) : Prop :=
  ∀ c cls, r.class? c = some cls →
    cls.init = if cls.isArray then .initialized else .uninitialized

theorem Fresh.empty : Fresh {} := by
  intro c cls hcls
  unfold class? at hcls
  split at hcls <;> cases hcls

theorem Fresh.define (h : r.Fresh) (d : ClassDef) : (r.define d).2.Fresh := by
  have hpush : ∀ {r : Registry} {c : Class} {ms : Array Method}, r.Fresh →
      (c.init = if c.isArray then .initialized else .uninitialized) →
      (⟨r.classes.push c, ms⟩ : Registry).Fresh := by
    intro r c ms h hc n cls hcls
    rw [class_push] at hcls
    split at hcls
    · cases hcls
      exact hc
    · exact h n cls hcls
  have harrays : ∀ {r r' : Registry}, ArraysAdded r r' → r.Fresh → r'.Fresh := by
    intro r r' hadded h
    induction hadded with
    | none => exact h
    | add component cls _ _ _ ih => exact hpush ih rfl
  rcases define_cases r d with hadded | ⟨r₁, s, is, c, hadded, hlinked⟩
  · exact harrays hadded h
  · obtain ⟨-, placed, -, -, hr, hc⟩ := link_ok hlinked.link
    rw [hr]
    refine hpush (harrays hadded h) ?_
    rw [hc]
    cases Flag.has d.flags Flag.isInterface <;> simp [Class.isArray]

theorem Onward.define (r : Registry) (d : ClassDef) : r.Onward (r.define d).2 where
  later := .define d .same
  initialized k cls hcls hk := by
    rcases define_phase r d k with hsame | ⟨hnone, -⟩
    · exact hsame.trans hk
    · rw [hcls] at hnone
      cases hnone
  failed k hk := by
    rcases define_phase r d k with hsame | ⟨hnone, -⟩
    · exact hsame.trans hk
    · rw [phase_of_missing hnone] at hk
      cases hk
  begun k cls hcls hk := by
    rcases define_phase r d k with hsame | ⟨hnone, -⟩
    · rwa [hsame]
    · rw [hcls] at hnone
      cases hnone

end ManagedCore.Registry
