import ManagedCore.Proofs.Class.Names

/-!
# How registries grow

A search for a class may bring array classes into being, and compiling marks entries of pools as
bound. What linking fixed stays, so a class once found by its name is found again.
-/

namespace ManagedCore

open Array

/-- The classes differ at most in what may change after linking. -/
def Class.SameLink (c c' : Class) : Prop :=
  c' = { c with
    staticValues := c'.staticValues
    pool := { c.pool with bound := c'.pool.bound }
    init := c'.init
    lock := c'.lock }

theorem Class.SameLink.refl {c : Class} : c.SameLink c := rfl

theorem Class.SameLink.trans {c₁ c₂ c₃ : Class} (h : c₁.SameLink c₂) (h' : c₂.SameLink c₃) :
    c₁.SameLink c₃ := by
  rw [h] at h'
  exact h'

def Method.SameLink (m m' : Method) : Prop := m' = { m with entry := m'.entry }

theorem Method.SameLink.refl {m : Method} : m.SameLink m := rfl

theorem Method.SameLink.trans {m₁ m₂ m₃ : Method} (h : m₁.SameLink m₂) (h' : m₂.SameLink m₃) :
    m₁.SameLink m₃ := by
  rw [h] at h'
  exact h'

namespace Registry

variable {r r' : Registry} {f : Class → Class} {name : String} {r₁ r₂ r₃ : Registry} {c : Class}

/-- The second registry has more array classes, each made from the root class and from the class of
its component. -/
inductive ArraysAdded (r : Registry) : Registry → Prop where
  | none : ArraysAdded r r
  | add {r' : Registry} {object : Class} (component : FieldType) (cls : Option ClassId) :
      ArraysAdded r r' → r'.loaded? objectClass = some object →
      (∀ i ∈ cls, ∃ name c, r'.loaded? name = some c ∧ c.id = i) →
      ArraysAdded r (r'.addArray object component cls).2

namespace ArraysAdded

theorem trans (h : ArraysAdded r₁ r₂) (h' : ArraysAdded r₂ r₃) : ArraysAdded r₁ r₃ := by
  induction h' with
  | none => exact h
  | add component cls _ hobject hcls ih => exact .add component cls ih hobject hcls

theorem methods (h : ArraysAdded r r') : r'.methods = r.methods := by
  induction h with
  | none => rfl
  | add _ _ _ _ _ ih => exact ih

theorem loaded (h : ArraysAdded r r') {name : String}
    (hc : r.loaded? name = some c) : r'.loaded? name = some c := by
  induction h with
  | none => exact hc
  | add component cls _ _ _ ih =>
    change (push _ _).find? _ = _
    rw [find?_push, show find? _ _ = _ from ih]
    rfl

theorem eq_of_none (h : ArraysAdded r r') (hnone : r.loaded? objectClass = Option.none) :
    r' = r := by
  induction h with
  | none => rfl
  | add _ _ _ hobject _ ih =>
    rw [ih, hnone] at hobject
    cases hobject

end ArraysAdded

theorem arraysAdded_arrayClassFrom (fuel : Nat) (r : Registry) (component : FieldType) :
    ArraysAdded r (arrayClassFrom fuel r component).2 := by
  have hnamed : ∀ {r : Registry} {name : String} {c : Class}, r.loaded? name = some c →
      ∀ i ∈ some c.id, ∃ name c, r.loaded? name = some c ∧ c.id = i := by
    rintro r name c hc _ ⟨⟩
    exact ⟨name, c, hc, rfl⟩
  induction fuel generalizing r component with
  | zero => exact .none
  | succ fuel ih =>
    rw [arrayClassFrom]
    split
    · exact .none
    · exact .none
    · rename_i hnone hobject
      split
      · split
        · rename_i hc
          exact .add _ _ .none hobject (hnamed hc)
        · rename_i inner _ _
          have hinner := ih r inner
          split
          · rename_i heq
            rw [heq] at hinner
            exact .add _ _ hinner (hinner.loaded hobject) (hnamed (loaded_arrayClassFrom heq))
          · rename_i heq
            rw [heq] at hinner
            exact hinner
        · exact .none
      · rename_i inner
        have hinner := ih r inner
        split
        · rename_i heq
          rw [heq] at hinner
          exact .add _ _ hinner (hinner.loaded hobject) (hnamed (loaded_arrayClassFrom heq))
        · rename_i heq
          rw [heq] at hinner
          exact hinner
      · exact .add _ _ .none hobject (by simp)

theorem arraysAdded_arrayClass (r : Registry) (component : FieldType) :
    ArraysAdded r (r.arrayClass component).2 :=
  arraysAdded_arrayClassFrom _ r component

theorem arraysAdded_lookup (r : Registry) (name : String) : ArraysAdded r (r.lookup name).2 := by
  rw [lookup]
  split
  · exact .none
  · rename_i component _ _
    have harray := arraysAdded_arrayClass r component
    split
    all_goals
      rename_i heq
      rwa [heq] at harray
  · exact .none

/-! ## What stays -/

/-- Everything linked in the first registry is in the second, under the same numbers. -/
structure Keeps (r r' : Registry) : Prop where
  classes : ∀ n c, r.class? n = some c → ∃ c', r'.class? n = some c' ∧ c.SameLink c'
  methods : ∀ n m, r.method? n = some m → ∃ m', r'.method? n = some m' ∧ m.SameLink m'
  names : ∀ name c, r.loaded? name = some c → ∃ c', r'.loaded? name = some c' ∧ c.SameLink c'

theorem Keeps.refl {r : Registry} : r.Keeps r :=
  ⟨fun _ c h => ⟨c, h, .refl⟩, fun _ m h => ⟨m, h, .refl⟩, fun _ c h => ⟨c, h, .refl⟩⟩

theorem Keeps.trans (h : r₁.Keeps r₂) (h' : r₂.Keeps r₃) : r₁.Keeps r₃ := by
  refine ⟨fun n c hc => ?_, fun n m hm => ?_, fun name c hc => ?_⟩
  · obtain ⟨c', hc', hsame⟩ := h.classes n c hc
    obtain ⟨c'', hc'', hsame'⟩ := h'.classes n c' hc'
    exact ⟨c'', hc'', hsame.trans hsame'⟩
  · obtain ⟨m', hm', hsame⟩ := h.methods n m hm
    obtain ⟨m'', hm'', hsame'⟩ := h'.methods n m' hm'
    exact ⟨m'', hm'', hsame.trans hsame'⟩
  · obtain ⟨c', hc', hsame⟩ := h.names name c hc
    obtain ⟨c'', hc'', hsame'⟩ := h'.names name c' hc'
    exact ⟨c'', hc'', hsame.trans hsame'⟩

section

variable {c : Class} {ms : Array Method} {n : Nat}

theorem class_push : (⟨r.classes.push c, ms⟩ : Registry).class? n =
      if n = r.classes.size + 1 then some c else r.class? n := by
  unfold class?
  by_cases hn : n = 0
  · subst hn
    simp
  · rw [if_neg hn, if_neg hn, getElem?_push]
    have hiff : n - 1 = r.classes.size ↔ n = r.classes.size + 1 := by omega
    simp only [hiff]

theorem class_push_old {c' : Class} (h : r.class? n = some c) :
    (⟨r.classes.push c', ms⟩ : Registry).class? n = some c := by
  rw [class_push, if_neg, h]
  rintro rfl
  unfold class? at h
  rw [Nat.add_sub_cancel, getElem?_size] at h
  cases h

theorem keeps_push : r.Keeps ⟨r.classes.push c, r.methods ++ ms⟩ := by
  refine ⟨fun n c' hc => ⟨c', class_push_old hc, .refl⟩, fun n m hm => ⟨m, ?_, .refl⟩,
    fun name c' hc => ⟨c', ?_, .refl⟩⟩
  · have hlt := (Array.getElem?_eq_some_iff.mp hm).1
    exact (getElem?_append_left hlt).trans hm
  · unfold loaded? at hc ⊢
    rw [find?_push, hc]
    rfl

theorem keeps_addArray (object : Class) (component : FieldType) (cls : Option ClassId) :
    r.Keeps (r.addArray object component cls).2 := by
  have hpush := @keeps_push r (makeArray object component cls (r.classes.size + 1)) #[]
  rwa [append_empty] at hpush

end

theorem ArraysAdded.keeps (h : ArraysAdded r r') : r.Keeps r' := by
  induction h with
  | none => exact .refl
  | add component cls _ _ _ ih => exact ih.trans (keeps_addArray _ component cls)

theorem class_modifyClass {id : Nat} (n : Nat) :
    (r.modifyClass id f).class? n = if n = id then (r.class? n).map f else r.class? n := by
  unfold modifyClass class?
  by_cases hid : id = 0
  · subst hid
    by_cases hn : n = 0 <;> simp [hn]
  · by_cases hn : n = 0
    · simp [hn]
    · have hiff : id - 1 = n - 1 ↔ n = id := by omega
      simp [hn, hid, getElem?_modify, hiff]

theorem find_modify {p : Class → Bool} (hf : ∀ c, p (f c) = p c) {cs : List Class} {k : Nat}
    (h : cs.find? p = some c) : ∃ c', (cs.modify k f).find? p = some c' ∧ (c' = c ∨ c' = f c) := by
  induction cs generalizing k with
  | nil => cases h
  | cons d cs ih =>
    rw [List.find?_cons] at h
    cases k with
    | zero =>
      rw [List.modify_zero_cons, List.find?_cons, hf]
      split at h
      · exact ⟨f d, rfl, .inr (by cases h; rfl)⟩
      · exact ⟨c, h, .inl rfl⟩
    | succ k =>
      rw [List.modify_succ_cons, List.find?_cons]
      split at h
      · exact ⟨d, rfl, .inl (by cases h; rfl)⟩
      · exact ih h

theorem loaded_modifyClass (id : ClassId) (hf : ∀ c, (f c).name = c.name)
    (hc : r.loaded? name = some c) :
    ∃ c', (r.modifyClass id f).loaded? name = some c' ∧ (c' = c ∨ c' = f c) := by
  unfold modifyClass
  split
  · exact ⟨c, hc, .inl rfl⟩
  · unfold loaded? at hc ⊢
    rw [← find?_toList] at hc ⊢
    rw [toList_modify]
    exact find_modify (fun c => by rw [hf]) hc

theorem keeps_modifyClass (id : ClassId) (hf : ∀ c : Class, c.SameLink (f c)) :
    r.Keeps (r.modifyClass id f) := by
  refine ⟨fun n c hc => ?_, fun n m hm => ⟨m, ?_, .refl⟩, fun name c hc => ?_⟩
  · rw [class_modifyClass, hc]
    split
    · exact ⟨f c, rfl, hf c⟩
    · exact ⟨c, rfl, .refl⟩
  · unfold modifyClass
    split <;> exact hm
  · obtain ⟨c', hc', heq⟩ := loaded_modifyClass id (f := f) (fun c => by rw [hf c]) hc
    refine ⟨c', hc', ?_⟩
    rcases heq with rfl | rfl
    · exact .refl
    · exact hf c

/-- The second registry comes from the first by searches for classes and by marks in pools. -/
inductive Grown (r : Registry) : Registry → Prop where
  | same : Grown r r
  | arrays {r₁ r₂ : Registry} : Grown r r₁ → ArraysAdded r₁ r₂ → Grown r r₂
  | mark {r₁ : Registry} (id : ClassId) (index : Nat) : Grown r r₁ →
      Grown r (r₁.modifyClass id fun c => { c with pool := c.pool.markBound index })

namespace Grown

variable {r r' r'' : Registry}

theorem trans (h : r.Grown r') (h' : r'.Grown r'') : r.Grown r'' := by
  induction h' with
  | same => exact h
  | arrays _ ha ih => exact .arrays ih ha
  | mark id index _ ih => exact .mark id index ih

theorem methods (h : r.Grown r') : r'.methods = r.methods := by
  induction h with
  | same => rfl
  | arrays _ ha ih => exact ha.methods.trans ih
  | mark id index _ ih =>
    rw [← ih]
    unfold modifyClass
    split <;> rfl

theorem sameLink_mark (c : Class) (index : Nat) :
    c.SameLink { c with pool := c.pool.markBound index } := by
  unfold Class.SameLink Pool.markBound
  split <;> rfl

theorem keeps (h : r.Grown r') : r.Keeps r' := by
  induction h with
  | same => exact .refl
  | arrays _ ha ih => exact ih.trans ha.keeps
  | mark id index _ ih => exact ih.trans (keeps_modifyClass id fun c => sameLink_mark c index)

end Grown

/-- Every method has the signature that its descriptor spells out. -/
def Parsed (r : Registry) : Prop :=
  ∀ id m, r.method? id = some m → Signature.parse m.descriptor = .ok m.signature

theorem Parsed.grow (h : r.Parsed) (hg : r.Grown r') : r'.Parsed := by
  intro id m hm
  refine h id m ?_
  rwa [method?, hg.methods] at hm

/-! ## Handles -/

/-- The handle stands for the class of this name. -/
def Names (r : Registry) (h : Handle ClassRef) (name : String) : Prop :=
  (∃ index, h = .lazy index (.class name)) ∨ ∃ c, h = .resolved c.ref ∧ r.loaded? name = some c

theorem Names.grow {h : Handle ClassRef} (hn : r.Names h name) (hg : r.Grown r') :
    r'.Names h name := by
  rcases hn with hlazy | ⟨c, rfl, hc⟩
  · exact .inl hlazy
  · obtain ⟨c', hc', hsame⟩ := hg.keeps.names _ c hc
    refine .inr ⟨c', ?_, hc'⟩
    rw [hsame]
    rfl

def poolName? (r : Registry) (owner : ClassId) (index : Nat) : Option String :=
  (r.class? owner).bind fun c => (c.pool.className index).toOption

theorem poolName_grow {owner : ClassId} {index : Nat} (h : r.poolName? owner index = some name)
    (hg : r.Grown r') : r'.poolName? owner index = some name := by
  obtain ⟨c, hc, hname⟩ := Option.bind_eq_some_iff.mp h
  obtain ⟨c', hc', hsame⟩ := hg.keeps.classes _ c hc
  rw [poolName?, hc', ← hname, hsame]
  rfl

end Registry

end ManagedCore
