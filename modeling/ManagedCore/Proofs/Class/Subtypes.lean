import ManagedCore.Proofs.Class.Layout

/-!
# Subtypes

A class is declared to be a subtype of its superclass and of its interfaces, and an array of the root
and of arrays of what its component is a subtype of. Linking records interfaces and ancestors apart,
so the test of assignability follows declarations up to an interface, but only superclasses up to a
class. The two agree wherever interfaces stand directly below the root.
-/

namespace ManagedCore.Registry

open ManagedCore.Class

variable {r r' : Registry} {a b c d : Class} {i : ClassId} {is : List Class}

/-! ## Declarations -/

structure Declares (r : Registry) (c d : Class) : Prop where
  known : r.class? d.id = some d
  named : c.superclass = some d.id ∨ d.id ∈ c.interfaces

/-- The second class can be reached from the first by following declarations. -/
def Reaches (r : Registry) : Class → Class → Prop := Relation.ReflTransGen r.Declares

/-- The declared subtypes: the least reflexive and transitive relation that holds between a class and
its superclass, a class and its interfaces, an array and the root, and two arrays with related
components or with the same kind of primitive elements. -/
inductive DeclaredSubtype (r : Registry) : Class → Class → Prop where
  | refl (c : Class) : DeclaredSubtype r c c
  | trans {a b c : Class} : DeclaredSubtype r a b → DeclaredSubtype r b c → DeclaredSubtype r a c
  | superclass {c s : Class} : c.superclass = some s.id → r.class? s.id = some s →
      DeclaredSubtype r c s
  | interface {c i : Class} : i.id ∈ c.interfaces → r.class? i.id = some i → DeclaredSubtype r c i
  | root {a object : Class} : a.isArray = true → r.loaded? objectClass = some object →
      DeclaredSubtype r a object
  | component {a b c d : Class} : a.component? = some c.id → b.component? = some d.id →
      r.class? b.id = some b → r.class? c.id = some c → r.class? d.id = some d →
      DeclaredSubtype r c d → DeclaredSubtype r a b
  | element {a b : Class} {k : ElementKind} : a.element? = some k → b.element? = some k →
      a.component? = none → b.component? = none → r.class? b.id = some b → DeclaredSubtype r a b

/-- What the test of assignability follows: superclasses alone lead to a class, all declarations lead
to an interface, and arrays are compared by their components. -/
inductive Conforms (r : Registry) : Class → Class → Prop where
  | ancestor {a b : Class} : r.Extends a b → Conforms r a b
  | implements {a b : Class} : b.isInterface = true → r.Reaches a b → Conforms r a b
  | component {a b c d : Class} : a.component? = some c.id → b.component? = some d.id →
      r.class? c.id = some c → r.class? d.id = some d → Conforms r c d → Conforms r a b
  | element {a b : Class} {k : ElementKind} : a.element? = some k → b.element? = some k →
      a.component? = none → b.component? = none → Conforms r a b

def InterfacesRooted (r : Registry) : Prop :=
  ∀ i ∈ r.classes, i.isInterface = true → i.superclass = (r.loaded? objectClass).map (·.id)

theorem Extends.reaches (h : r.Extends a b) : r.Reaches a b := by
  induction h with
  | refl => exact .refl
  | step hs hclass _ ih => exact .head ⟨hclass, .inl hs⟩ ih

theorem Reaches.declaredSubtype (h : r.Reaches a b) : r.DeclaredSubtype a b := by
  induction h with
  | refl => exact .refl a
  | tail _ hd ih =>
    rcases hd.named with hs | hi
    · exact ih.trans (.superclass hs hd.known)
    · exact ih.trans (.interface hi hd.known)

theorem DeclaredSubtype.registered (ho : r.Orderly) (h : r.DeclaredSubtype a b)
    (ha : r.class? a.id = some a) : r.class? b.id = some b := by
  induction h with
  | refl => exact ha
  | trans _ _ ih ih' => exact ih' (ih ha)
  | superclass _ hs => exact hs
  | interface _ hi => exact hi
  | root _ hobject => exact (ho.of_loaded hobject).1
  | component _ _ hb | element _ _ _ _ hb => exact hb

/-! ## What linking records -/

theorem mem_unionIds_iff {xs ys : List ClassId} : i ∈ unionIds xs ys ↔ i ∈ xs ∨ i ∈ ys := by
  unfold unionIds
  by_cases hi : i ∈ xs <;> simp [hi]

theorem mem_implemented_iff {xs : List ClassId} :
    i ∈ is.foldl (fun s c => unionIds s c.implemented) xs ↔
      i ∈ xs ∨ ∃ c ∈ is, i ∈ c.implemented := by
  induction is generalizing xs with
  | nil => simp
  | cons c is ih =>
    rw [List.foldl_cons, ih, mem_unionIds_iff]
    simp only [List.mem_cons, exists_eq_or_imp, or_assoc]

/-- What a class records of the interfaces above it, and where its component stands. -/
structure Recorded (r : Registry) (c : Class) : Prop where
  plain : c.isArray = false → ∀ i, i ∈ c.implemented ↔
    (i = c.id ∧ c.isInterface = true) ∨ ∃ d, r.Declares c d ∧ i ∈ d.implemented
  array : c.isArray = true → c.implemented = []
  component : ∀ k : Nat, c.component? = some k → k < c.id
  interfaces : ∀ d, r.class? d.id = some d → d.id ∈ c.interfaces → d.isInterface = true

theorem Orderly.declared_known (h : r.Orderly) {n k : ClassId} (hc : r.class? n = some c)
    (hk : c.superclass = some k ∨ k ∈ c.interfaces) : ∃ d, r.class? k = some d ∧ d.id = k := by
  rcases hk with hs | hi
  · obtain ⟨d, hd, -⟩ := h.exists_below hc hs
    exact ⟨d, hd, (h.formed k d hd).id⟩
  · obtain ⟨-, d, hd⟩ := (h.formed n c hc).interfaces k hi
    exact ⟨d, hd, (h.formed k d hd).id⟩

theorem Recorded.keep {c' : Class} (h : r.Recorded c) (ho : r.Orderly)
    (hc : r.class? c.id = some c) (hk : r.Keeps r') (hsame : c.SameLink c') : r'.Recorded c' := by
  have hid : c'.id = c.id := by rw [hsame]
  have himplemented : c'.implemented = c.implemented := by rw [hsame]
  have hkind : c'.kind = c.kind := by rw [hsame]
  have hnamed : ∀ k, (c'.superclass = some k ∨ k ∈ c'.interfaces) ↔
      (c.superclass = some k ∨ k ∈ c.interfaces) := by
    intro k
    rw [hsame]
  have hdeclares : ∀ i, (∃ d, r'.Declares c' d ∧ i ∈ d.implemented) ↔
      ∃ d, r.Declares c d ∧ i ∈ d.implemented := by
    intro i
    constructor
    · rintro ⟨d', ⟨hknown', hd'⟩, hi⟩
      rw [hnamed] at hd'
      obtain ⟨d, hd, hdid⟩ := ho.declared_known hc hd'
      obtain ⟨d'', hd'', hsame'⟩ := hk.classes _ d hd
      rw [hknown', Option.some.injEq] at hd''
      rw [hd'', hsame'] at hi
      exact ⟨d, ⟨hdid ▸ hd, hdid ▸ hd'⟩, hi⟩
    · rintro ⟨d, ⟨hknown, hd⟩, hi⟩
      obtain ⟨d', hd', hsame'⟩ := hk.classes _ d hknown
      have hdid : d'.id = d.id := by rw [hsame']
      refine ⟨d', ⟨hdid ▸ hd', (hnamed _).mpr (hdid ▸ hd)⟩, ?_⟩
      rw [hsame']
      exact hi
  refine ⟨fun hplain i => ?_, fun harray => ?_, fun k hcomponent => ?_, fun d' hd' hmem => ?_⟩
  · have hinterface : c'.isInterface = c.isInterface := by rw [isInterface, hkind]; rfl
    rw [isArray, hkind] at hplain
    rw [himplemented, hdeclares, hid, hinterface]
    exact h.plain hplain i
  · rw [isArray, hkind] at harray
    rw [himplemented]
    exact h.array harray
  · rw [component?, hkind] at hcomponent
    rw [hid]
    exact h.component k hcomponent
  · have hmem' : d'.id ∈ c.interfaces := by rwa [hsame] at hmem
    obtain ⟨d, hd, hdid⟩ := ho.declared_known hc (.inr hmem')
    obtain ⟨d'', hd'', hsame'⟩ := hk.classes _ d hd
    rw [hd', Option.some.injEq] at hd''
    rw [hd'', hsame']
    exact h.interfaces d (hdid ▸ hd) (hdid ▸ hmem')

theorem Recorded.link {d : ClassDef} {s : Option Class} (ho : r.Orderly)
    (hl : Linked r d s is c r') : r'.Recorded c := by
  obtain ⟨-, placed, -, -, hr', hnew⟩ := link_ok hl.link
  have hknown : ∀ x, s = some x ∨ x ∈ is → r'.class? x.id = some x := by
    intro x hx
    rw [hr']
    rcases hx with hs | hi
    · obtain ⟨⟨name, hname⟩, -⟩ := hl.superclass x hs
      exact class_push_old (ho.of_loaded hname).1
    · obtain ⟨⟨name, hname⟩, -⟩ := hl.interfaces x hi
      exact class_push_old (ho.of_loaded hname).1
  -- the classes that the new one names are those that it was linked to
  have hdeclares : ∀ i, (∃ x, r'.Declares c x ∧ i ∈ x.implemented) ↔
      i ∈ (s.map (·.implemented)).getD [] ∨ ∃ x ∈ is, i ∈ x.implemented := by
    intro i
    constructor
    · rintro ⟨x, ⟨hx, hnamed⟩, hi⟩
      rw [hnew] at hnamed
      rcases hnamed with hs | hmem
      · obtain ⟨sc, rfl, hid⟩ := Option.map_eq_some_iff.mp hs
        rw [eq_of_id hx (hknown sc (.inl rfl)) hid.symm] at hi
        exact .inl hi
      · obtain ⟨ic, hic, hid⟩ := List.mem_map.mp hmem
        rw [eq_of_id hx (hknown ic (.inr hic)) hid.symm] at hi
        exact .inr ⟨ic, hic, hi⟩
    · rintro (hs | ⟨ic, hic, hi⟩)
      · cases s with
        | none => cases hs
        | some sc =>
          refine ⟨sc, ⟨hknown sc (.inl rfl), .inl ?_⟩, hs⟩
          rw [hnew]
          rfl
      · refine ⟨ic, ⟨hknown ic (.inr hic), .inr ?_⟩, hi⟩
        rw [hnew]
        exact List.mem_map_of_mem hic
  have hkind : ∀ t k i, c.kind ≠ .array t k i := by
    rw [hnew]
    split <;> nofun
  refine ⟨fun _ i => ?_, fun harray => ?_, fun k hk => ?_, fun x hx hmem => ?_⟩
  · rw [hdeclares, hl.kind.1, hnew]
    split
    · rename_i hflag
      rw [mem_unionIds_iff, mem_implemented_iff]
      simp [hflag, or_comm]
    · rename_i hflag
      rw [mem_implemented_iff]
      simp [hflag]
  · rw [hl.kind.2] at harray
    cases harray
  · unfold component? at hk
    split at hk
    · exact absurd ‹_› (hkind _ _ _)
    · cases hk
  · rw [hnew] at hmem
    obtain ⟨ic, hic, hid⟩ := List.mem_map.mp hmem
    rw [eq_of_id hx (hknown ic (.inr hic)) hid.symm]
    exact (hl.interfaces ic hic).2

theorem Built.recorded (h : r.Built) {n : Nat} (hc : r.class? n = some c) : r.Recorded c := by
  refine h.forall_class (P := Recorded) (fun ho _ hc _ hk hsame hrec => hrec.keep ho hc hk hsame)
    (fun component cls ho hobject hcls => ?_) (fun ho _ => Recorded.link ho) hc
  refine ⟨nofun, fun _ => rfl, fun k hk => ?_, nofun⟩
  obtain ⟨name, component, hloaded, rfl⟩ := hcls k hk
  exact Nat.lt_succ_of_le (class_le_size (ho.of_loaded hloaded).1)

/-! ## The root -/

theorem Built.eq_root (h : r.Built) {n : Nat} (hc : r.class? n = some c)
    (hnone : c.superclass = none) : r.loaded? objectClass = some c := by
  refine h.forall_class (P := fun r c => c.superclass = none → r.loaded? objectClass = some c)
    (fun {_ _ _ c'} _ ho' _ hc' hk hsame ih hnone => ?_) (fun _ _ _ _ _ => nofun)
    (fun {r r' d s is c} ho _ hl hnone => ?_) hc hnone
  · obtain ⟨c'', hc'', hsame'⟩ := hk.names _ _ (ih (by rwa [hsame] at hnone))
    have hid : c''.id = c'.id := by rw [hsame', hsame]
    rw [hc'', eq_of_id (ho'.of_loaded hc'').1 hc' hid]
  · obtain ⟨-, placed, -, -, hr', hnew⟩ := link_ok hl.link
    have hs : s = none := by
      rw [hnew] at hnone
      exact Option.map_eq_none_iff.mp hnone
    obtain ⟨hname, hmissing⟩ := hl.root hs
    have hempty : r.classes = #[] := by
      rcases ho.root with hempty | ⟨object, hobject, -⟩
      · exact hempty
      · rw [hmissing] at hobject
        cases hobject
    have hname' : c.name = objectClass := by rw [hnew]; exact hname
    rw [hr', loaded?, hempty]
    simp [hname']

/-! ## What is above a class -/

theorem Orderly.declares_lt (h : r.Orderly) (hc : r.class? c.id = some c) (hd : r.Declares c d) :
    (d.id : Nat) < c.id := by
  rcases hd.named with hs | hi
  · exact (h.below hc hs hd.known).lt
  · exact ((h.formed _ c hc).interfaces d.id hi).1

theorem Orderly.eq_of_extends_array (h : r.Orderly) (ha : r.class? a.id = some a)
    (hab : r.Extends a b) (harray : b.isArray = true) : a = b := by
  induction hab with
  | refl => rfl
  | step hs hclass _ ih =>
    have hplain := (h.below ha hs hclass).plain
    rw [ih hclass harray, harray] at hplain
    cases hplain

theorem Built.extends_root (h : r.Built) (ha : r.class? a.id = some a) :
    ∃ object, r.loaded? objectClass = some object ∧ r.Extends a object := by
  have ho := h.orderly
  induction hn : a.id using Nat.strongRecOn generalizing a with
  | _ n ih =>
    rcases ho.display ha with ⟨hnone, -⟩ | ⟨s, hs, hclass, -⟩
    · exact ⟨a, h.eq_root ha hnone, .refl a⟩
    · obtain ⟨object, hobject, hext⟩ := ih s.id (hn ▸ (ho.below ha hs hclass).lt) hclass rfl
      exact ⟨object, hobject, .step hs hclass hext⟩

def RootPlain (r : Registry) : Prop :=
  ∀ object, r.loaded? objectClass = some object → object.isInterface = false

section

variable (h : r.Built) (hroot : r.RootPlain) {object : Class} {fuel : Nat}

include h

theorem Built.root_declares (hobject : r.loaded? objectClass = some object) :
    ¬r.Declares object d := by
  rintro ⟨-, hnamed⟩
  rcases h.orderly.root with hempty | ⟨object', hobject', hnone, hno⟩
  · rw [loaded?, hempty] at hobject
    cases hobject
  · cases hobject.symm.trans hobject'
    rw [hnone, hno] at hnamed
    rcases hnamed with hs | hi
    · cases hs
    · cases hi

theorem Built.array_reaches (ha : r.class? a.id = some a) (harray : a.isArray = true)
    (hab : r.Reaches a b) : a = b ∨ r.loaded? objectClass = some b := by
  rcases Relation.ReflTransGen.cases_head hab with heq | ⟨d, hd, hrest⟩
  · exact .inl heq
  · obtain ⟨-, object, hobject, hs⟩ := (h.fieldsLaid ha).array harray
    have hnone : a.interfaces = [] := by
      cases h.orderly.ancestry ha with
      | root _ hplain | linked _ _ _ hplain => rw [harray] at hplain; cases hplain
      | array _ _ _ _ _ _ hno => exact hno
    have hdo : d = object := by
      refine eq_of_id hd.known (h.orderly.of_loaded hobject).1 ?_
      rcases hd.named with hs' | hi
      · rw [hs, Option.some.injEq] at hs'
        exact hs'.symm
      · rw [hnone] at hi
        cases hi
    subst hdo
    rcases Relation.ReflTransGen.cases_head hrest with rfl | ⟨e, he, -⟩
    · exact .inr hobject
    · exact absurd he (h.root_declares hobject)

include hroot

theorem Built.array_not_reaches (ha : r.class? a.id = some a) (harray : a.isArray = true)
    (hb : b.isInterface = true) : ¬r.Reaches a b := by
  intro hab
  rcases h.array_reaches ha harray hab with rfl | hobject
  · rw [isInterface, beq_iff_eq] at hb
    rw [isArray, hb] at harray
    cases harray
  · rw [hroot b hobject] at hb
    cases hb

theorem Built.mem_implemented (ha : r.class? a.id = some a) (hb : r.class? b.id = some b) :
    b.id ∈ a.implemented ↔ b.isInterface = true ∧ r.Reaches a b := by
  have ho := h.orderly
  induction hn : a.id using Nat.strongRecOn generalizing a with
  | _ n ih =>
    have hrecorded := h.recorded ha
    cases harray : a.isArray with
    | true =>
      rw [hrecorded.array harray]
      refine ⟨nofun, fun ⟨hinterface, hab⟩ => ?_⟩
      exact absurd hab (h.array_not_reaches hroot ha harray hinterface)
    | false =>
      rw [hrecorded.plain harray]
      constructor
      · rintro (⟨hid, hinterface⟩ | ⟨d, hd, hmem⟩)
        · rw [eq_of_id hb ha hid]
          exact ⟨hinterface, .refl⟩
        · obtain ⟨hinterface, hdb⟩ := (ih d.id (hn ▸ ho.declares_lt ha hd) hd.known rfl).mp hmem
          exact ⟨hinterface, .head hd hdb⟩
      · rintro ⟨hinterface, hab⟩
        rcases Relation.ReflTransGen.cases_head hab with rfl | ⟨d, hd, hrest⟩
        · exact .inl ⟨rfl, hinterface⟩
        · exact .inr ⟨d, hd,
            (ih d.id (hn ▸ ho.declares_lt ha hd) hd.known rfl).mpr ⟨hinterface, hrest⟩⟩

/-! ## Assignability -/

omit h hroot in
/-- What conforms to a class that is neither an interface nor an array extends it. -/
theorem Conforms.extends_of_plain (hab : r.Conforms a b) (hkind : b.kind = .plain) :
    r.Extends a b := by
  cases hab with
  | ancestor hext => exact hext
  | implements hinterface =>
    rw [isInterface, hkind] at hinterface
    cases hinterface
  | component _ hd =>
    rw [component?, hkind] at hd
    cases hd
  | element _ hl =>
    rw [element?, hkind] at hl
    cases hl

omit h hroot in
theorem Conforms.reaches_of_interface (hab : r.Conforms a b) (hkind : b.kind = .interface) :
    r.Reaches a b := by
  cases hab with
  | ancestor hext => exact hext.reaches
  | implements _ hreaches => exact hreaches
  | component _ hd =>
    rw [component?, hkind] at hd
    cases hd
  | element _ hl =>
    rw [element?, hkind] at hl
    cases hl

omit h hroot in
/-- Array classes are compared by the classes of their components, or by the kinds of their elements
where these are primitive. -/
theorem assignableFrom_array (hid : a.id ≠ b.id) (harray : b.isArray = true) :
    r.assignableFrom (fuel + 1) a b = true ↔
      (∃ i j c d, a.component? = some i ∧ b.component? = some j ∧ r.class? i = some c ∧
        r.class? j = some d ∧ r.assignableFrom fuel c d = true) ∨
      (∃ k, a.element? = some k ∧ b.element? = some k ∧ a.component? = none ∧
        b.component? = none) := by
  unfold isArray at harray
  unfold component? element?
  rw [assignableFrom, if_neg hid]
  cases hb : b.kind with
  | plain | interface => rw [hb] at harray; cases harray
  | array t l j =>
    cases ha : a.kind with
    | plain | interface => simp
    | array t k i =>
      cases i with
      | none => cases j with
        | none => simp only [beq_iff_eq, reduceCtorEq]; grind
        | some j => simp
      | some i => cases j with
        | none => simp
        | some j =>
          cases hi : r.class? i with
          | none => simp [hi]
          | some c => cases hj : r.class? j <;> simp [hi, hj]

omit hroot in
/-- What conforms to an array class is an array class with the same kind of elements. -/
theorem Conforms.of_array (ha : r.class? a.id = some a) (hne : a ≠ b) (hab : r.Conforms a b)
    (harray : b.isArray = true) :
    (∃ c d, a.component? = some c.id ∧ b.component? = some d.id ∧ r.class? c.id = some c ∧
      r.class? d.id = some d ∧ r.Conforms c d) ∨
    (∃ k, a.element? = some k ∧ b.element? = some k ∧ a.component? = none ∧
      b.component? = none) := by
  cases hab with
  | ancestor hext => exact absurd (h.orderly.eq_of_extends_array ha hext harray) hne
  | implements hinterface =>
    rw [isArray, beq_iff_eq.mp hinterface] at harray
    cases harray
  | @component _ _ c d hc hd hc' hd' hcd => exact .inl ⟨c, d, hc, hd, hc', hd', hcd⟩
  | @element _ _ k hk hl hc hd => exact .inr ⟨k, hk, hl, hc, hd⟩

/-- The test of assignability follows declarations. Each comparison of components goes to classes
linked earlier, so there is fuel for all of them. -/
theorem Built.assignableFrom_iff (hfuel : a.id ≤ fuel) (ha : r.class? a.id = some a)
    (hb : r.class? b.id = some b) : r.assignableFrom fuel a b = true ↔ r.Conforms a b := by
  have ho := h.orderly
  induction fuel generalizing a b with
  | zero => exact absurd (Nat.le_zero.mp hfuel) (id_ne_zero ha)
  | succ fuel ih =>
    by_cases hid : a.id = b.id
    · rw [eq_of_id ha hb hid, assignableFrom, if_pos rfl]
      exact ⟨fun _ => .ancestor (.refl b), fun _ => rfl⟩
    · have hne : a ≠ b := fun heq => hid (by rw [heq])
      cases hkind : b.kind with
      | plain =>
        have htest : r.assignableFrom (fuel + 1) a b = a.isSubclassOf b := by
          rw [assignableFrom, if_neg hid, hkind]
        rw [htest, ho.isSubclassOf_iff ha hb]
        exact ⟨.ancestor, fun hab => hab.extends_of_plain hkind⟩
      | interface =>
        have hinterface : b.isInterface = true := by rw [isInterface, hkind]; rfl
        have htest : r.assignableFrom (fuel + 1) a b = a.implemented.contains b.id := by
          rw [assignableFrom, if_neg hid, hkind]
        rw [htest, List.contains_iff_mem, h.mem_implemented hroot ha hb]
        exact ⟨fun hab => .implements hab.1 hab.2, fun hab =>
          ⟨hinterface, hab.reaches_of_interface hkind⟩⟩
      | array t k i =>
        have harray : b.isArray = true := by rw [isArray, hkind]
        rw [assignableFrom_array hid harray]
        constructor
        · rintro (⟨i, j, c, d, hi, hj, hc, hd, hcd⟩ | ⟨k, hk, hl, hc, hd⟩)
          · obtain rfl := (ho.formed i c hc).id
            obtain rfl := (ho.formed j d hd).id
            have hless : c.id ≤ fuel :=
              Nat.le_of_lt_succ (Nat.lt_of_lt_of_le ((h.recorded ha).component c.id hi) hfuel)
            exact .component hi hj hc hd ((ih hless hc hd).mp hcd)
          · exact .element hk hl hc hd
        · intro hab
          rcases hab.of_array h ha hne harray with ⟨c, d, hc, hd, hc', hd', hcd⟩ | helement
          · have hless : c.id ≤ fuel :=
              Nat.le_of_lt_succ (Nat.lt_of_lt_of_le ((h.recorded ha).component c.id hc) hfuel)
            exact .inl ⟨c.id, d.id, c, d, hc, hd, hc', hd', (ih hless hc' hd').mpr hcd⟩
          · exact .inr helement

/-! ## The closure of the declarations -/

omit h hroot in
theorem isArray_of_component (hc : a.component? = some i) : a.isArray = true := by
  unfold component? at hc
  unfold isArray
  cases hkind : a.kind with
  | array => rfl
  | plain | interface => rw [hkind] at hc; cases hc

omit h hroot in
theorem isArray_of_element {k : ElementKind} (hk : a.element? = some k) : a.isArray = true := by
  unfold element? at hk
  unfold isArray
  cases hkind : a.kind with
  | array => rfl
  | plain | interface => rw [hkind] at hk; cases hk

omit hroot in
theorem Built.extends_object (ha : r.class? a.id = some a)
    (hobject : r.loaded? objectClass = some object) : r.Extends a object := by
  obtain ⟨object', hobject', hext⟩ := h.extends_root ha
  rw [hobject, Option.some.injEq] at hobject'
  exact hobject' ▸ hext

omit hroot in
theorem Built.interface_extends (hrooted : r.InterfacesRooted) (hb : r.class? b.id = some b)
    (hinterface : b.isInterface = true) (hbc : r.Extends b c) :
    b = c ∨ r.loaded? objectClass = some c := by
  cases hbc with
  | refl => exact .inl rfl
  | @step _ s _ hs hclass hrest =>
    rw [hrooted b (mem_of_class hb) hinterface] at hs
    obtain ⟨object, hobject, hid⟩ := Option.map_eq_some_iff.mp hs
    obtain rfl := eq_of_id hclass (h.orderly.of_loaded hobject).1 hid.symm
    cases hrest with
    | refl => exact .inr hobject
    | step hs' hclass' _ => exact absurd ⟨hclass', .inl hs'⟩ (h.root_declares hobject)

theorem Conforms.trans (hrooted : r.InterfacesRooted) (ha : r.class? a.id = some a)
    (hb : r.class? b.id = some b) (hab : r.Conforms a b) (hbc : r.Conforms b c) :
    r.Conforms a c := by
  induction hbc generalizing a with
  | @ancestor b c hext =>
    have habove : b = c ∨ r.loaded? objectClass = some c → r.Conforms a c := by
      rintro (rfl | hobject)
      · exact hab
      · exact .ancestor (h.extends_object ha hobject)
    cases hab with
    | ancestor hext' => exact .ancestor (hext'.trans hext)
    | implements hinterface => exact habove (h.interface_extends hrooted hb hinterface hext)
    | component _ hd => exact habove (h.array_reaches hb (isArray_of_component hd) hext.reaches)
    | element _ hl => exact habove (h.array_reaches hb (isArray_of_element hl) hext.reaches)
  | implements hinterface hreaches =>
    cases hab with
    | ancestor hext => exact .implements hinterface (hext.reaches.trans hreaches)
    | implements _ hreaches' => exact .implements hinterface (hreaches'.trans hreaches)
    | component _ hd =>
      exact absurd hreaches (h.array_not_reaches hroot hb (isArray_of_component hd) hinterface)
    | element _ hl =>
      exact absurd hreaches (h.array_not_reaches hroot hb (isArray_of_element hl) hinterface)
  | @component b c d e hd he hd' he' hde ih =>
    by_cases heq : a = b
    · exact heq ▸ .component hd he hd' he' hde
    · rcases hab.of_array h ha heq (isArray_of_component hd) with
        ⟨x, y, hx, hy, hx', hy', hxy⟩ | ⟨_, _, _, _, hnone⟩
      · rw [hd, Option.some.injEq] at hy
        obtain rfl := eq_of_id hd' hy' hy
        exact .component hx he hx' he' (ih hx' hd' hxy)
      · rw [hd] at hnone
        cases hnone
  | @element b c k hk hl hd he =>
    by_cases heq : a = b
    · exact heq ▸ .element hk hl hd he
    · rcases hab.of_array h ha heq (isArray_of_element hk) with
        ⟨x, y, hx, hy, hx', hy', hxy⟩ | ⟨k', hk', hl', hnone, -⟩
      · rw [hd] at hy
        cases hy
      · rw [hk] at hl'
        exact .element hk' (hl' ▸ hl) hnone he

omit h hroot in
theorem Conforms.declaredSubtype (hb : r.class? b.id = some b) (hab : r.Conforms a b) :
    r.DeclaredSubtype a b := by
  induction hab with
  | ancestor hext => exact hext.reaches.declaredSubtype
  | implements _ hreaches => exact hreaches.declaredSubtype
  | component hc hd hc' hd' _ ih => exact .component hc hd hb hc' hd' (ih hd')
  | element hk hl hc hd => exact .element hk hl hc hd hb

theorem DeclaredSubtype.conforms (hrooted : r.InterfacesRooted) (ha : r.class? a.id = some a)
    (hab : r.DeclaredSubtype a b) : r.Conforms a b := by
  have ho := h.orderly
  induction hab with
  | refl c => exact .ancestor (.refl c)
  | trans hab _ ih ih' =>
    have hb := hab.registered ho ha
    exact (ih ha).trans h hroot hrooted ha hb (ih' hb)
  | superclass hs hclass => exact .ancestor (.step hs hclass (.refl _))
  | interface hi hclass =>
    exact .implements ((h.recorded ha).interfaces _ hclass hi) (.single ⟨hclass, .inr hi⟩)
  | root _ hobject => exact .ancestor (h.extends_object ha hobject)
  | component hc hd _ hc' hd' _ ih => exact .component hc hd hc' hd' (ih hc')
  | element hk hl hc hd => exact .element hk hl hc hd

end

/-! ## Assignability and declarations -/

/-- **Subtyping.** Assignability leads to a class through superclasses, to an interface through
everything that is declared, and to an array through components. All that it relates is declared, and
where every interface has the root as its superclass it relates all that is declared. -/
theorem isAssignable_iff_declared (h : r.Built) (hroot : r.RootPlain) (ha : a ∈ r.classes)
    (hb : b ∈ r.classes) :
    (r.isAssignable a b = true ↔ r.Conforms a b) ∧
      (r.isAssignable a b = true → r.DeclaredSubtype a b) ∧
      (r.InterfacesRooted → (r.isAssignable a b = true ↔ r.DeclaredSubtype a b)) := by
  have ha' := h.orderly.class_of_mem ha
  have hb' := h.orderly.class_of_mem hb
  have hiff : r.isAssignable a b = true ↔ r.Conforms a b :=
    h.assignableFrom_iff hroot Nat.le.refl ha' hb'
  have hdeclared : r.isAssignable a b = true → r.DeclaredSubtype a b :=
    fun hab => (hiff.mp hab).declaredSubtype hb'
  exact ⟨hiff, hdeclared, fun hrooted =>
    ⟨hdeclared, fun hab => hiff.mpr (hab.conforms h hroot hrooted ha')⟩⟩

def bare (name : String) (superclass : Option String) (interfaces : List String) (flags : Nat) :
    ClassDef :=
  { name, superclass, interfaces, flags }

/-- An interface below another, a class that implements it, a class below that class, and arrays of
arrays of the last and of the first. -/
def animals : Registry :=
  let classes :=
    [bare objectClass none [] 0, bare "Moves" (some objectClass) [] Flag.isInterface,
      bare "Runs" (some objectClass) ["Moves"] Flag.isInterface,
      bare "Animal" (some objectClass) ["Runs"] 0, bare "Dog" (some "Animal") [] 0]
  let linked : Registry := classes.foldl (fun r d => (r.define d).2) {}
  ((linked.arrayClass (.array (.object "Dog"))).2.arrayClass (.array (.object "Moves"))).2

theorem built_animals : animals.Built :=
  .arrays (.arrays (.define _ (.define _ (.define _ (.define _ (.define _ .same)))))
    (arraysAdded_arrayClass _ _)) (arraysAdded_arrayClass _ _)

theorem isAssignable_iff_declared_animals :
    animals.Built ∧ animals.RootPlain ∧ animals.InterfacesRooted ∧
      ∃ dogs ∈ animals.classes, ∃ movers ∈ animals.classes, dogs.name = "[[LDog;" ∧
        movers.name = "[[LMoves;" ∧ animals.isAssignable dogs movers = true ∧
        animals.DeclaredSubtype dogs movers ∧ ¬animals.DeclaredSubtype movers dogs := by
  have hroot : animals.RootPlain := by
    have hkind : (animals.loaded? objectClass).map (·.isInterface) = some false := by decide +kernel
    intro object hobject
    rwa [hobject, Option.map_some, Option.some.injEq] at hkind
  have hrooted : animals.InterfacesRooted := by
    unfold InterfacesRooted
    decide +kernel
  have hfound : ∃ dogs ∈ animals.classes, ∃ movers ∈ animals.classes, dogs.name = "[[LDog;" ∧
      movers.name = "[[LMoves;" ∧ animals.isAssignable dogs movers = true ∧
      animals.isAssignable movers dogs = false := by decide +kernel
  obtain ⟨dogs, hdogs, movers, hmovers, hname, hname', htrue, hfalse⟩ := hfound
  refine ⟨built_animals, hroot, hrooted, dogs, hdogs, movers, hmovers, hname, hname', htrue, ?_,
    fun hdeclared => ?_⟩
  · exact ((isAssignable_iff_declared built_animals hroot hdogs hmovers).2.2 hrooted).mp htrue
  · have hiff := (isAssignable_iff_declared built_animals hroot hmovers hdogs).2.2 hrooted
    rw [hiff.mpr hdeclared] at hfalse
    cases hfalse

/-- An interface below a class other than the root, and a class that implements it. -/
def detached : Registry :=
  [bare objectClass none [] 0, bare "K" (some objectClass) [] 0,
    bare "I" (some "K") [] Flag.isInterface, bare "A" (some objectClass) ["I"] 0].foldl
      (fun r d => (r.define d).2) {}

/-- What implements an interface is not assignable to the superclass of that interface. -/
theorem detached_not_assignable : detached.Built ∧
    ∃ a ∈ detached.classes, ∃ k ∈ detached.classes, a.name = "A" ∧ k.name = "K" ∧
      detached.DeclaredSubtype a k ∧ detached.isAssignable a k = false := by
  have hfound : ∃ a ∈ detached.classes, ∃ i ∈ detached.classes, ∃ k ∈ detached.classes,
      a.name = "A" ∧ k.name = "K" ∧ i.id ∈ a.interfaces ∧ i.superclass = some k.id ∧
      detached.isAssignable a k = false := by decide +kernel
  obtain ⟨a, ha, i, hi, k, hk, hname, hname', hinterface, hsuper, hfalse⟩ := hfound
  have hbuilt : detached.Built := .define _ (.define _ (.define _ (.define _ .same)))
  have hi' := hbuilt.orderly.class_of_mem hi
  have hk' := hbuilt.orderly.class_of_mem hk
  exact ⟨hbuilt, a, ha, k, hk, hname, hname', .trans (.interface hinterface hi')
    (.superclass hsuper hk'), hfalse⟩

end ManagedCore.Registry
