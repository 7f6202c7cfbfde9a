import ManagedCore.Machine.Resolve
import ManagedCore.Proofs.Class.Hierarchy
import ManagedCore.Proofs.Class.Search

/-!
# Which method a receiver selects

The first place of a name in the table of a class holds a method of the nearest class on the chain
of superclasses that declares one. A method that resolves a reference stands at that place too, and
neither a final method nor a final class leaves room for another one below it.
-/

namespace ManagedCore.Registry

open ManagedCore.Flag ManagedCore.Class List Option

variable {r r' : Registry} {name descriptor : String} {a b c : Class} {n fuel : Nat} {m : Method}
  {d c' : Class}

/-! ## Chains of superclasses -/

/-- The second class is the first or stands above it. -/
inductive Extends (r : Registry) : Class → Class → Prop where
  | refl (c : Class) : Extends r c c
  | step {c s d : Class} : c.superclass = some s.id → r.class? s.id = some s → Extends r s d →
      Extends r c d

namespace Extends

variable {a b c : Class}

theorem trans (h : r.Extends a b) (h' : r.Extends b c) : r.Extends a c := by
  induction h with
  | refl => exact h'
  | step hs hclass _ ih => exact .step hs hclass (ih h')

theorem registered (h : r.Extends a b) (ha : r.class? a.id = some a) : r.class? b.id = some b := by
  induction h with
  | refl => exact ha
  | step _ hclass _ ih => exact ih hclass

end Extends

theorem eq_of_id (ha : r.class? a.id = some a) (hb : r.class? b.id = some b) (hid : a.id = b.id) :
    a = b := by
  rw [hid, hb, some.injEq] at ha
  exact ha.symm

theorem id_ne_zero (hc : r.class? c.id = some c) : (c.id : Nat) ≠ 0 := by
  intro hzero
  rw [class?, if_pos hzero] at hc
  cases hc

theorem isAssignable_eq (ha : r.class? a.id = some a) :
    ∃ fuel, r.isAssignable a b = r.assignableFrom (fuel + 1) a b :=
  ⟨a.id - 1, by rw [isAssignable, Nat.sub_add_cancel (Nat.pos_of_ne_zero (id_ne_zero ha))]⟩

theorem isAssignable_interface (ha : r.class? a.id = some a) (hinterface : b.isInterface = true) :
    r.isAssignable a b = true ↔ a.id = b.id ∨ b.id ∈ a.implemented := by
  obtain ⟨fuel, hfuel⟩ := isAssignable_eq ha
  rw [hfuel, assignableFrom]
  split
  · rename_i hid
    exact ⟨fun _ => .inl hid, fun _ => rfl⟩
  · rename_i hid
    rw [beq_iff_eq.mp hinterface]
    cases a.kind <;> simp [hid]

theorem isArray_of_isAssignable (ha : r.class? a.id = some a) (hb : r.class? b.id = some b)
    (harray : b.isArray = true) (hab : r.isAssignable a b = true) : a.isArray = true := by
  obtain ⟨fuel, hfuel⟩ := isAssignable_eq ha
  rw [hfuel, assignableFrom] at hab
  split at hab
  · rename_i hid
    rw [eq_of_id ha hb hid]
    exact harray
  · unfold isArray at harray ⊢
    cases hkind : b.kind with
    | plain | interface =>
      rw [hkind] at harray
      cases harray
    | array _ _ _ =>
      rw [hkind] at hab
      cases hkind' : a.kind with
      | array _ _ _ => rfl
      | plain | interface =>
        rw [hkind'] at hab
        cases hab

section

variable (h : r.Orderly) {a b c : Class}

include h

theorem Orderly.ancestry (hc : r.class? c.id = some c) : Ancestry r c := (h.formed _ c hc).ancestry

theorem Orderly.extends_lt (ha : r.class? a.id = some a) (hab : r.Extends a b) :
    a = b ∨ (b.id : Nat) < a.id := by
  induction hab with
  | refl => exact .inl rfl
  | @step a s d hs hclass _ ih =>
    have hbelow := h.below ha hs hclass
    rcases ih hclass with rfl | hlt'
    · exact .inr hbelow.lt
    · exact .inr (Nat.lt_trans hlt' hbelow.lt)

theorem Orderly.extends_antisymm (ha : r.class? a.id = some a) (hab : r.Extends a b)
    (hba : r.Extends b a) : a = b := by
  rcases h.extends_lt ha hab with heq | hlt
  · exact heq
  · rcases h.extends_lt (hab.registered ha) hba with heq | hlt'
    · exact heq.symm
    · exact absurd hlt (Nat.lt_asymm hlt')

/-- The display of a class ends with the class itself, below that of its superclass. -/
theorem Orderly.display (hc : r.class? c.id = some c) : (c.superclass = none ∧ c.display = [c.id]) ∨
    ∃ s, c.superclass = some s.id ∧ r.class? s.id = some s ∧ c.display = s.display ++ [c.id] := by
  cases h.ancestry hc with
  | root hnone _ hdisplay => exact .inl ⟨hnone, hdisplay⟩
  | linked hs hclass _ _ _ hdisplay | array hs hclass _ _ _ _ _ _ _ hdisplay =>
    exact .inr ⟨_, hs, hclass, hdisplay⟩

theorem Orderly.display_depth (hc : r.class? c.id = some c) :
    c.display.length = c.depth + 1 ∧ c.display[c.depth]? = some c.id := by
  rcases h.display hc with ⟨-, hdisplay⟩ | ⟨s, -, -, hdisplay⟩
  · rw [depth, hdisplay]
    exact ⟨rfl, rfl⟩
  · rw [depth, hdisplay, length_append]
    exact ⟨rfl, getElem?_concat_length⟩

section

variable (ha : r.class? a.id = some a)

include ha

/-- Displays record the chain above a class. -/
theorem Orderly.isSubclassOf_iff (hb : r.class? b.id = some b) :
    a.isSubclassOf b = true ↔ r.Extends a b := by
  rw [isSubclassOf, beq_iff_eq]
  constructor
  · intro hdisplay
    -- on the number of the class, which is greater than that of its superclass
    induction hn : a.id using Nat.strongRecOn generalizing a with
    | _ n ih =>
      rcases h.display ha with ⟨-, hroot⟩ | ⟨s, hs, hclass, hbelow⟩
      · rw [hroot, getElem?_singleton] at hdisplay
        split at hdisplay
        · rw [some.injEq] at hdisplay
          rw [eq_of_id ha hb hdisplay]
          exact .refl b
        · cases hdisplay
      · rw [hbelow, getElem?_append] at hdisplay
        split at hdisplay
        · exact .step hs hclass (ih s.id (hn ▸ (h.below ha hs hclass).lt) hclass hdisplay rfl)
        · rw [getElem?_singleton] at hdisplay
          split at hdisplay
          · rw [some.injEq] at hdisplay
            rw [eq_of_id ha hb hdisplay]
            exact .refl b
          · cases hdisplay
  · intro hab
    induction hab with
    | refl => exact (h.display_depth ha).2
    | @step a s d hs hclass _ ih =>
      have hbegins := ih hclass hb
      rw [(h.below ha hs hclass).display, getElem?_append_left
        (List.getElem?_eq_some_iff.mp hbegins).1, hbegins]

/-! ## Assignability -/

theorem Orderly.isAssignable_plain (hb : r.class? b.id = some b)
    (hplain : b.isInterface = false) (harray : b.isArray = false) :
    r.isAssignable a b = true ↔ r.Extends a b := by
  obtain ⟨fuel, hfuel⟩ := isAssignable_eq ha
  have hkind : b.kind = .plain := by
    cases hkind : b.kind with
    | plain => rfl
    | interface =>
      rw [Class.isInterface, hkind] at hplain
      cases hplain
    | array _ _ _ =>
      rw [isArray, hkind] at harray
      cases harray
  rw [hfuel, assignableFrom, ← h.isSubclassOf_iff ha hb]
  split
  · rename_i hid
    rw [eq_of_id ha hb hid, h.isSubclassOf_iff hb hb]
    exact ⟨fun _ => .refl b, fun _ => rfl⟩
  · rw [hkind]

theorem Orderly.implemented (harray : a.isArray = false)
    (hab : r.Extends a b) : ∀ i ∈ b.implemented, i ∈ a.implemented := by
  induction hab with
  | refl => exact fun i hi => hi
  | @step a s d hs hclass _ ih =>
    have hbelow := h.below ha hs hclass
    exact fun i hi => (hbelow.linked harray).2 i (ih hclass hbelow.plain i hi)

/-- What a class on the chain is assignable to, the class below it is assignable to. -/
theorem Orderly.isAssignable_of_extends
    (hd : r.class? d.id = some d) (harray : a.isArray = false) (hdarray : d.isArray = false)
    (hb : b.isInterface = false) (hab : r.Extends a b) (hbd : r.isAssignable b d = true) :
    r.isAssignable a d = true := by
  have hb' := hab.registered ha
  cases hinterface : d.isInterface with
  | false =>
    rw [h.isAssignable_plain hb' hd hinterface hdarray] at hbd
    rw [h.isAssignable_plain ha hd hinterface hdarray]
    exact hab.trans hbd
  | true =>
    rw [isAssignable_interface hb' hinterface] at hbd
    rw [isAssignable_interface ha hinterface]
    rcases hbd with hid | himpl
    · rw [eq_of_id hb' hd hid, hinterface] at hb
      cases hb
    · exact .inr (h.implemented ha harray hab _ himpl)

end

/-! ## Overriding -/

def Places (r : Registry) (name descriptor : String) (c : Class) : Prop :=
  ∃ m ∈ r.declares c, hasPlace c.isInterface m = true ∧ m.isNamed name descriptor = true

/-- The table of a class is arranged over that of its superclass. -/
theorem Orderly.arranged (hc : r.class? c.id = some c) : ∃ inherited,
    Arranged c.isInterface inherited inherited.length (r.declares c) ∧
      IsTable inherited (r.declares c) (r.table c) ∧
      ∀ s, c.superclass = some s.id → r.class? s.id = some s → inherited = r.table s := by
  have heq : ∀ {s s' : Class}, c.superclass = some s.id → r.class? s.id = some s →
      c.superclass = some s'.id → r.class? s'.id = some s' → r.table s = r.table s' := by
    intro s s' hs hclass hs' hclass'
    rw [hs, some.injEq] at hs'
    rw [eq_of_id hclass hclass' hs']
  cases h.ancestry hc with
  | root hnone _ _ harranged htable =>
    refine ⟨[], harranged, htable, fun s hs => ?_⟩
    rw [hnone] at hs
    cases hs
  | linked hs hclass _ _ _ _ _ harranged htable =>
    exact ⟨_, harranged, htable, fun _ hs' hclass' => heq hs hclass hs' hclass'⟩
  | @array s hs hclass _ _ _ hmethods _ _ _ _ htable =>
    have hdeclares : r.declares c = [] := by
      rw [declares, hmethods]
      rfl
    refine ⟨r.table s, ?_, fun i => ?_, fun _ hs' hclass' => heq hs hclass hs' hclass'⟩
    · rw [hdeclares]
      exact .nil _
    · rw [hdeclares, htable]
      rfl

/-- Having a place and having a number in the table are the same for declared methods. -/
theorem Orderly.isVirtual_iff (hc : r.class? c.id = some c) (hm : m ∈ r.declares c) :
    m.isVirtual = true ↔ hasPlace c.isInterface m = true := by
  obtain ⟨inherited, harranged, -, -⟩ := h.arranged hc
  rw [Method.isVirtual]
  rcases harranged.offset hm with ⟨hno, hnone⟩ | ⟨hplace, i, hi, -⟩
  · rw [hno, hnone]
    exact Iff.rfl
  · rw [hplace, hi]
    exact Iff.rfl

theorem Orderly.firstNamed_found {i : Nat} (hd : r.class? d.id = some d)
    (hdeclared : r.declared? d name descriptor = some m) (hoffset : m.offset = some i) :
    ∃ x, FirstNamed (r.table d) name descriptor i x := by
  have hmem : m ∈ r.declares d := mem_of_find?_eq_some hdeclared
  have hnamed : m.isNamed name descriptor = true := by simpa using find?_some hdeclared
  obtain ⟨inherited, harranged, htable, -⟩ := h.arranged hd
  have hplace := (harranged.of_offset hmem hoffset).1
  obtain ⟨j, x, hx, -, -, hfirst⟩ := harranged.firstNamed_declared htable hmem hplace hnamed
  have hj := hfirst m hdeclared hplace
  rw [hoffset, some.injEq] at hj
  exact ⟨x, hj ▸ hx⟩

section

variable (ha : r.class? a.id = some a) (hab : r.Extends a b)

include ha hab

theorem Orderly.firstNamed_extends {i : Nat} {y : Method}
    (hy : FirstNamed (r.table b) name descriptor i y) :
    ∃ x, FirstNamed (r.table a) name descriptor i x := by
  induction hab with
  | refl => exact ⟨y, hy⟩
  | step hs hclass _ ih =>
    obtain ⟨x, hx⟩ := ih hclass hy
    obtain ⟨inherited, harranged, htable, hinherited⟩ := h.arranged ha
    rw [← hinherited _ hs hclass] at hx
    exact harranged.firstNamed_keep htable hx

/-- The name leads to a method of the nearest class that declares one with a place. -/
theorem Orderly.firstNamed_nearest (hb : r.Places name descriptor b) :
    ∃ c i x, r.Extends a c ∧ r.Extends c b ∧ FirstNamed (r.table a) name descriptor i x ∧
      x ∈ r.declares c ∧ hasPlace c.isInterface x = true ∧
      ∀ c', r.Extends a c' → r.Places name descriptor c' → r.Extends c c' := by
  have hhere : ∀ {a : Class}, r.class? a.id = some a → r.Places name descriptor a →
      ∃ i x, FirstNamed (r.table a) name descriptor i x ∧
        x ∈ r.declares a ∧ hasPlace a.isInterface x = true := by
    rintro a ha ⟨m, hm, hplace, hnamed⟩
    obtain ⟨inherited, harranged, htable, -⟩ := h.arranged ha
    obtain ⟨i, x, hx, hmem, hoffset, -⟩ := harranged.firstNamed_declared htable hm hplace hnamed
    exact ⟨i, x, hx, hmem, (harranged.of_offset hmem hoffset).1⟩
  induction hab with
  | refl =>
    obtain ⟨i, x, hx, hmem, hplace⟩ := hhere ha hb
    exact ⟨_, i, x, .refl _, .refl _, hx, hmem, hplace, fun c' hc' _ => hc'⟩
  | @step a s d hs hclass hrest ih =>
    by_cases hplaces : r.Places name descriptor a
    · obtain ⟨i, x, hx, hmem, hplace⟩ := hhere ha hplaces
      exact ⟨a, i, x, .refl a, .step hs hclass hrest, hx, hmem, hplace, fun c' hc' _ => hc'⟩
    · obtain ⟨c, i, x, hsc, hcd, hx, hmem, hplace, hnearest⟩ := ih hclass hb
      obtain ⟨inherited, harranged, htable, hinherited⟩ := h.arranged ha
      refine ⟨c, i, x, .step hs hclass hsc, hcd, ?_, hmem, hplace, fun c' hc' hplaces' => ?_⟩
      · rw [harranged.firstNamed_inherited htable, hinherited _ hs hclass]
        · exact hx
        · intro m hm hplace
          by_contra hnamed
          exact hplaces ⟨m, hm, hplace, eq_true_of_ne_false hnamed⟩
      · cases hc' with
        | refl => exact absurd hplaces' hplaces
        | step hs' hclass' hrest' =>
          rw [hs, some.injEq] at hs'
          obtain rfl := eq_of_id hclass hclass' hs'
          exact hnearest c' hrest' hplaces'

/-- Nothing below a class overrides its only method of a name if that is final. -/
theorem Orderly.eq_of_final {m : Method}
    (hm : m ∈ r.declares b) (hplace : hasPlace b.isInterface m = true)
    (hnamed : m.isNamed name descriptor = true) (hfinal : has m.flags isFinal = true)
    (honly : ∀ x ∈ r.declares b, x.isNamed name descriptor = true →
      hasPlace b.isInterface x = true → x = m) (hplaces : r.Places name descriptor a) : a = b := by
  have hfirst : ∃ i, FirstNamed (r.table b) name descriptor i m := by
    obtain ⟨inherited, harranged, htable, -⟩ := h.arranged (hab.registered ha)
    obtain ⟨i, x, hx, hmem, hoffset, -⟩ := harranged.firstNamed_declared htable hm hplace hnamed
    rw [honly x hmem hx.2.1 (harranged.of_offset hmem hoffset).1] at hx
    exact ⟨i, hx⟩
  obtain ⟨i, hi⟩ := hfirst
  -- on the way down the place keeps the final method, so no class overrides it
  suffices hkeep : FirstNamed (r.table a) name descriptor i m ∧
      (r.Places name descriptor a → a = b) from hkeep.2 hplaces
  clear hplaces
  induction hab with
  | refl => exact ⟨hi, fun _ => rfl⟩
  | @step a s d hs hclass _ ih =>
    obtain ⟨hx, -⟩ := ih hclass hm hplace honly hi
    obtain ⟨inherited, harranged, htable, hinherited⟩ := h.arranged ha
    rw [← hinherited _ hs hclass] at hx
    have hno : ¬ r.Places name descriptor a := by
      rintro ⟨x, hmem, hplace', hnamed'⟩
      have hopen := (harranged.offset_of_firstNamed hmem hplace' hnamed' hx).2
      rw [hfinal] at hopen
      cases hopen
    refine ⟨?_, fun hplaces => absurd hplaces hno⟩
    rw [harranged.firstNamed_inherited htable]
    · exact hx
    · intro x hmem hplace'
      by_contra hnamed'
      exact hno ⟨x, hmem, hplace', eq_true_of_ne_false hnamed'⟩

end

theorem Orderly.isArray_of_declares {m : Method} (hc : r.class? c.id = some c)
    (hm : m ∈ r.declares c) : c.isArray = false := by
  cases h.ancestry hc with
  | root _ harray | linked _ _ _ harray => exact harray
  | array _ _ _ _ _ hmethods =>
    rw [declares, hmethods] at hm
    cases hm

end

/-! ## Methods found by name -/

theorem Orderly.findMethod_owner (h : r.Orderly) (hm : r.findMethod? c name descriptor = some m) :
    ∃ d, r.class? m.owner = some d ∧ d.id = m.owner ∧ r.declared? d name descriptor = some m := by
  obtain ⟨n, d, hd, hdeclared⟩ := findMethodFrom_declared hm
  obtain ⟨⟨k, hk, hkm⟩, -⟩ := declared_some hdeclared
  have hformed := h.formed n d hd
  obtain ⟨m', hm', howner⟩ := hformed.methods k hk
  rw [hkm, some.injEq] at hm'
  rw [hm', howner]
  exact ⟨d, hd, hformed.id, hm' ▸ hdeclared⟩

/-- If a class on the chain declares the name, the search finds it in the nearest such class. -/
theorem Orderly.findMethodFrom_chain (h : r.Orderly) (ha : r.class? a.id = some a)
    (hab : r.Extends a b) (hb : (r.declared? b name descriptor).isSome)
    (hfuel : (a.id : Nat) ≤ fuel) : ∃ c m, r.findMethodFrom name descriptor fuel a.id = some m ∧
      r.declared? c name descriptor = some m ∧ r.Extends a c ∧ r.Extends c b := by
  have hpos := id_ne_zero ha
  induction hab generalizing fuel with
  | @refl c =>
    obtain ⟨m, hm⟩ := isSome_iff_exists.mp hb
    obtain ⟨fuel, rfl⟩ := Nat.exists_eq_succ_of_ne_zero
      (Nat.ne_zero_of_lt (Nat.lt_of_lt_of_le (Nat.pos_of_ne_zero hpos) hfuel))
    refine ⟨c, m, ?_, hm, .refl c, .refl c⟩
    simp only [findMethodFrom, ha, hm]
  | @step c s d hs hclass hrest ih =>
    obtain ⟨fuel, rfl⟩ := Nat.exists_eq_succ_of_ne_zero
      (Nat.ne_zero_of_lt (Nat.lt_of_lt_of_le (Nat.pos_of_ne_zero hpos) hfuel))
    cases hdeclared : r.declared? c name descriptor with
    | some m =>
      refine ⟨c, m, ?_, hdeclared, .refl c, .step hs hclass hrest⟩
      simp only [findMethodFrom, ha, hdeclared]
    | none =>
      have hlt := (h.below ha hs hclass).lt
      obtain ⟨k, m, hfound, hk, hsk, hkd⟩ :=
        ih hclass hb (Nat.le_of_lt_succ (Nat.lt_of_lt_of_le hlt hfuel)) (id_ne_zero hclass)
      refine ⟨k, m, ?_, hk, .step hs hclass hsk, hkd⟩
      simp only [findMethodFrom, ha, hdeclared, hs, bind_some, hfound]

/-! ## Searches in later registries -/

theorem findSome?_congr {α β : Type} {l : List α} {f f' : α → Option β}
    (h : ∀ a ∈ l, f' a = f a) : l.findSome? f' = l.findSome? f := by
  induction l with
  | nil => rfl
  | cons a l ih =>
    rw [findSome?_cons, findSome?_cons, h a mem_cons_self,
      ih fun b hb => h b (mem_cons_of_mem a hb)]

section

variable (h : r.Orderly) {g : Method → Method} (hg : ∀ m : Method, m.SameLink (g m))
  (hmethods : ∀ n m, r.method? n = some m → r'.method? n = some (g m))

include h hg hmethods

theorem Orderly.declared_keep {n : Nat} {c c' : Class} (hc : r.class? n = some c)
    (hsame : c.SameLink c') :
    r'.declared? c' name descriptor = (r.declared? c name descriptor).map g := by
  have hvalid := (h.formed n c hc).methods
  rw [declared?, declared?, hsame]
  rw [filterMap_method hmethods fun k hk => (hvalid k hk).imp fun _ => And.left, find?_map,
    isNamed_comp hg]

theorem Orderly.findVirtual_keep {n : Nat} {c c' : Class} (hc : r.class? n = some c)
    (hsame : c.SameLink c') :
    r'.findVirtual? c' name descriptor = (r.findVirtual? c name descriptor).map g := by
  rw [findVirtual?, findVirtual?, hsame]
  change (c.slotMethods.filterMap r'.method?).find? _ = _
  rw [filterMap_method hmethods (h.formed n c hc).slots, find?_map, isNamed_comp hg]

theorem Orderly.findMethodFrom_keep (hk : r.Keeps r') {fuel n : Nat} {c : Class}
    (hc : r.class? n = some c) : r'.findMethodFrom name descriptor fuel n =
      (r.findMethodFrom name descriptor fuel n).map g := by
  induction fuel generalizing n c with
  | zero => rfl
  | succ fuel ih =>
    obtain ⟨c', hc', hsame⟩ := hk.classes n c hc
    have hformed := h.formed n c hc
    have hsuper : c.superclass.bind (r'.findMethodFrom name descriptor fuel) =
        (c.superclass.bind (r.findMethodFrom name descriptor fuel)).map g := by
      cases hs : c.superclass with
      | none => rfl
      | some s =>
        obtain ⟨sc, hsc, -⟩ := h.exists_below hc hs
        exact ih hsc
    have hinterfaces : c.interfaces.findSome? (r'.findMethodFrom name descriptor fuel) =
        (c.interfaces.findSome? (r.findMethodFrom name descriptor fuel)).map g := by
      rw [map_findSome?]
      refine findSome?_congr fun i hi => ?_
      obtain ⟨-, ic, hic⟩ := hformed.interfaces i hi
      exact ih hic
    have hsuper' : c'.superclass = c.superclass := by rw [hsame]
    have hinterfaces' : c'.interfaces = c.interfaces := by rw [hsame]
    rw [findMethodFrom, findMethodFrom, hc, hc']
    simp only [h.declared_keep hg hmethods hc hsame, hsuper', hinterfaces', hsuper,
      hinterfaces]
    cases r.declared? c name descriptor with
    | some m => rfl
    | none => cases c.superclass.bind (r.findMethodFrom name descriptor fuel) <;> rfl

end

theorem Orderly.findMethod_later (h : r.Orderly) (hk : r.Keeps r')
    (hc : r.class? c.id = some c) (hsame : c.SameLink c')
    (hm : r.findMethod? c name descriptor = some m) :
    ∃ m', r'.findMethod? c' name descriptor = some m' ∧ m.SameLink m' := by
  obtain ⟨g, hg, hmethods⟩ := hk.entries h.methodId
  have hid : c'.id = c.id := by rw [hsame]
  refine ⟨g m, ?_, hg m⟩
  rw [findMethod?, hid, h.findMethodFrom_keep hg hmethods hk hc, ← findMethod?, hm, map_some]

theorem Orderly.cacheTarget_later (h : r.Orderly) (hk : r.Keeps r')
    (hc : r.class? n = some c) (hsame : c.SameLink c') (member : MemberRef) :
    Exec.cacheTarget? r' member c' = Exec.cacheTarget? r member c := by
  obtain ⟨g, hg, hmethods⟩ := hk.entries h.methodId
  rw [Exec.cacheTarget?, Exec.cacheTarget?, h.findVirtual_keep hg hmethods hc hsame]
  cases r.findVirtual? c member.name member.descriptor with
  | none => rfl
  | some m =>
    have hsame : (g m).isAbstract = m.isAbstract ∧ (g m).id = m.id := by
      rw [hg m]
      exact ⟨rfl, rfl⟩
    rw [map_some, filter_some, filter_some, hsame.1]
    split
    · exact congrArg some hsame.2
    · rfl

theorem Orderly.component_known (h : r.Orderly) (hc : r.class? n = some c) :
    ∀ i ∈ c.component?, ∃ k, r.class? i = some k := by
  have hplain : c.isArray = false → ∀ i ∈ c.component?, ∃ k, r.class? i = some k := by
    intro hno i hi
    unfold isArray at hno
    unfold component? at hi
    split at hno
    · cases hno
    · rename_i hkind
      split at hi
      · rename_i heq
        exact absurd heq (hkind _ _ _)
      · cases hi
  cases (h.formed n c hc).ancestry with
  | root _ hno | linked _ _ _ hno => exact hplain hno
  | array _ _ _ _ _ _ _ _ _ _ _ hcomponent => exact hcomponent

section

variable {k : Nat} {a' b' : Class} (h : r.Orderly) (hk : r.Keeps r') (ha : r.class? n = some a)
  (hb : r.class? k = some b) (hsame : a.SameLink a') (hsame' : b.SameLink b')
include h hk ha hb hsame hsame'

theorem Orderly.assignableFrom_keep : r'.assignableFrom fuel a' b' = r.assignableFrom fuel a b := by
  induction fuel generalizing n k a b a' b' with
  | zero => rfl
  | succ fuel ih =>
    rw [hsame, hsame']
    simp only [assignableFrom]
    split
    · rfl
    · cases hkind : a.kind <;> cases hkind' : b.kind <;> try rfl
      rename_i c _ _ d
      cases c <;> cases d <;> try rfl
      rename_i i j
      obtain ⟨c, hc⟩ := h.component_known ha i (by simp [component?, hkind])
      obtain ⟨d, hd⟩ := h.component_known hb j (by simp [component?, hkind'])
      obtain ⟨c', hc', hsamec⟩ := hk.classes i c hc
      obtain ⟨d', hd', hsamed⟩ := hk.classes j d hd
      simp only [hc, hd, hc', hd']
      exact ih hc hd hsamec hsamed

theorem Orderly.isAssignable_later : r'.isAssignable a' b' = r.isAssignable a b := by
  rw [isAssignable, show a'.id = a.id by rw [hsame]]
  exact h.assignableFrom_keep hk ha hb hsame hsame'

end

/-! ## Selection -/

/-- A method with code that calls through receivers can run. -/
structure Body (r : Registry) (c : Class) (name descriptor : String) (m : Method) : Prop where
  declared : m ∈ r.declares c
  named : m.isNamed name descriptor = true
  concrete : m.isAbstract = false
  visible : has m.flags isPrivate = false
  onInstance : m.isStatic = false

/-- The nearest class above the receiver that has a body for the name, among those assignable to
the class where the name was declared. -/
structure MostDerived (r : Registry) (declaring : Class) (name descriptor : String)
    (receiver c : Class) : Prop where
  chain : r.Extends receiver c
  assignable : r.isAssignable c declaring = true
  body : ∃ m, r.Body c name descriptor m
  nearest : ∀ c', r.Extends receiver c' → r.isAssignable c' declaring = true →
    (∃ m, r.Body c' name descriptor m) → r.Extends c c'

/-- A reference to a virtual method by way of a class, and the class of a receiver for it. -/
structure Reference (r : Registry) (cls : Class) (name descriptor : String) (m : Method)
    (declaring receiver : Class) : Prop where
  known : r.class? cls.id = some cls
  found : r.findMethod? cls name descriptor = some m
  owner : r.class? m.owner = some declaring
  visible : has m.flags isPrivate = false
  onInstance : m.isStatic = false
  receiverKnown : r.class? receiver.id = some receiver
  assignable : r.isAssignable receiver cls = true

/-- What tables do not provide for is left out: names that start with a mark, bodies declared in
interfaces, methods declared again as abstract ones or twice in one class, and final interfaces. -/
structure Regular (r : Registry) (cls : Class) (name descriptor : String) (m : Method)
    (declaring receiver c : Class) : Prop where
  unmarked : name.toList.head? ≠ some '<'
  plain : c.isInterface = false
  concrete : ∀ c', r.Extends receiver c' → r.Extends c' c → ∀ x ∈ r.declares c',
    x.isNamed name descriptor = true → hasPlace c'.isInterface x = true → x.isAbstract = false
  noDefault : declaring.isInterface = true → m.isAbstract = true
  once : m.isFinal = true → ∀ x ∈ r.declares declaring, x.isNamed name descriptor = true →
    hasPlace declaring.isInterface x = true → x = m
  extensible : cls.isInterface = true → has cls.flags isFinal = false

theorem hasPlace_of_unmarked {inInterface : Bool} (hplain : inInterface = false)
    (hnamed : m.isNamed name descriptor = true) (hmark : name.toList.head? ≠ some '<')
    (hvisible : has m.flags isPrivate = false) (hinstance : m.isStatic = false) :
    hasPlace inInterface m = true := by
  obtain ⟨rfl, -⟩ := eq_of_isNamed hnamed
  rw [hasPlace, hplain, hvisible, hinstance]
  simpa using hmark

section

variable {cls declaring receiver c : Class} {m : Method} (h : r.Orderly)
  (href : r.Reference cls name descriptor m declaring receiver)
  (hmost : r.MostDerived declaring name descriptor receiver c)
  (hreg : r.Regular cls name descriptor m declaring receiver c)

include h href

theorem Reference.declared : r.class? declaring.id = some declaring ∧
    r.declared? declaring name descriptor = some m ∧ m ∈ r.declares declaring ∧
    m.isNamed name descriptor = true := by
  obtain ⟨d, hd, hid, hdeclared⟩ := h.findMethod_owner href.found
  cases href.owner.symm.trans hd
  refine ⟨hid ▸ href.owner, hdeclared, mem_of_find?_eq_some hdeclared, ?_⟩
  simpa using find?_some hdeclared

include hmost hreg

theorem Reference.firstNamed : ∃ i b, FirstNamed (r.table receiver) name descriptor i b ∧
    r.Body c name descriptor b := by
  obtain ⟨hdclass, -, hdm, -⟩ := href.declared h
  obtain ⟨m', hm'⟩ := hmost.body
  have hplace := hasPlace_of_unmarked hreg.plain hm'.named hreg.unmarked hm'.visible hm'.onInstance
  obtain ⟨c', i, b, hchain, habove, hfirst, hmem, hplace', -⟩ := h.firstNamed_nearest
    href.receiverKnown hmost.chain ⟨m', hm'.declared, hplace, hm'.named⟩
  have hbody : r.Body c' name descriptor b := by
    have hconcrete := hreg.concrete c' hchain habove b hmem hfirst.2.1 hplace'
    rw [hasPlace] at hplace'
    simp only [Bool.and_eq_true, Bool.not_eq_true'] at hplace'
    exact ⟨hmem, hfirst.2.1, hconcrete, hplace'.1.2, hplace'.1.1.2⟩
  have hknown := hchain.registered href.receiverKnown
  have hassignable : r.isAssignable c' declaring = true :=
    h.isAssignable_of_extends hknown hdclass (h.isArray_of_declares hknown hmem)
      (h.isArray_of_declares hdclass hdm) hreg.plain habove hmost.assignable
  have hbelow := hmost.nearest c' hchain hassignable ⟨b, hbody⟩
  rw [h.extends_antisymm (hmost.chain.registered href.receiverKnown) hbelow habove]
  exact ⟨i, b, hfirst, hbody⟩

theorem Reference.findVirtual : ∃ b, r.findVirtual? receiver name descriptor = some b ∧
    r.Body c name descriptor b := by
  obtain ⟨i, b, hfirst, hbody⟩ := href.firstNamed h hmost hreg
  exact ⟨b, hfirst.find, hbody⟩

omit hreg in
/-- A class whose method is found by name is on the chain of the receiver, if it is no interface. -/
theorem Reference.extends_declaring (hplain : declaring.isInterface = false) :
    r.Extends c declaring := by
  obtain ⟨hdclass, -, hdm, -⟩ := href.declared h
  rw [← h.isAssignable_plain (hmost.chain.registered href.receiverKnown) hdclass hplain
    (h.isArray_of_declares hdclass hdm)]
  exact hmost.assignable

theorem Reference.selectVirtual : ∃ b, Exec.selectVirtual? r m receiver = some b ∧
    r.Body c name descriptor b := by
  obtain ⟨i, b, hfirst, hbody⟩ := href.firstNamed h hmost hreg
  refine ⟨b, ?_, hbody⟩
  obtain ⟨hdclass, hdeclared, hdm, hnamed⟩ := href.declared h
  obtain ⟨rfl, rfl⟩ := eq_of_isNamed hnamed
  unfold Exec.selectVirtual?
  cases hoffset : m.offset with
  | none => exact hfirst.find
  | some k =>
    obtain ⟨x, hx⟩ := h.firstNamed_found hdclass hdeclared hoffset
    have hplain : declaring.isInterface = false := by
      have hplace := (h.isVirtual_iff hdclass hdm).mp (by rw [Method.isVirtual, hoffset]; rfl)
      rw [hasPlace] at hplace
      simp only [Bool.and_eq_true, Bool.not_eq_true'] at hplace
      exact hplace.1.1.1
    have hchain := hmost.chain.trans (href.extends_declaring h hmost hplain)
    obtain ⟨y, hy⟩ := h.firstNamed_extends href.receiverKnown hchain hx
    obtain ⟨rfl, rfl⟩ := hfirst.unique hy
    have hslot : (receiver.slotMethod? i).bind r.method? = some b :=
      (h.slot_eq href.receiverKnown i).trans hfirst.1
    simp only [bind_some, hslot, filter_some, hfirst.2.1, if_true, some_or]

end

theorem Orderly.eq_of_array (h : r.Orderly) (ha : r.class? a.id = some a)
    (harray : a.isArray = true) (hc : c.isArray = false) (hac : r.Extends a c)
    (hcd : r.Extends c d) : c = d := by
  cases hac with
  | refl =>
    rw [harray] at hc
    cases hc
  | @step _ s _ hs hclass hrest =>
    have htop : ∀ {d : Class}, r.Extends s d → s = d := by
      intro d hd
      cases hd with
      | refl => rfl
      | step hs' =>
        rw [(h.below ha hs hclass).array harray] at hs'
        cases hs'
    obtain rfl := htop hrest
    exact htop hcd

theorem Orderly.eq_of_finalClass (h : r.Orderly) (ha : r.class? a.id = some a) (hac : r.Extends a c)
    (hfinal : has c.flags isFinal = true) : a = c ∨ a.isArray = true := by
  induction hac with
  | refl => exact .inl rfl
  | @step a s d hs hclass _ ih =>
    have hbelow := h.below ha hs hclass
    cases harray : a.isArray with
    | true => exact .inr rfl
    | false =>
      rcases ih hclass hfinal with rfl | hs'
      · rw [(hbelow.linked harray).1] at hfinal
        cases hfinal
      · rw [hbelow.plain] at hs'
        cases hs'

/-- A method that no subclass can replace is a body of the most derived class. -/
theorem Reference.exact {cls declaring receiver : Class} (h : r.Orderly)
    (href : r.Reference cls name descriptor m declaring receiver)
    (hmost : r.MostDerived declaring name descriptor receiver c)
    (hreg : r.Regular cls name descriptor m declaring receiver c)
    (hexact : Emit.isExact cls m = true) : r.Body c name descriptor m := by
  obtain ⟨hdclass, hdeclared, hdm, hnamed⟩ := href.declared h
  rw [Emit.isExact, Bool.and_eq_true, Bool.not_eq_true'] at hexact
  obtain ⟨hconcrete, hground⟩ := hexact
  have hplain : declaring.isInterface = false := by
    by_contra hinterface
    rw [hreg.noDefault (eq_true_of_ne_false hinterface)] at hconcrete
    cases hconcrete
  have hplace := hasPlace_of_unmarked hplain hnamed hreg.unmarked href.visible href.onInstance
  have habove := href.extends_declaring h hmost hplain
  have hknown := hmost.chain.registered href.receiverKnown
  obtain ⟨b, hb⟩ := hmost.body
  have hcarray := h.isArray_of_declares hknown hb.declared
  suffices heq : c = declaring by
    rw [heq]
    exact ⟨hdm, hnamed, hconcrete, href.visible, href.onInstance⟩
  rw [(h.isVirtual_iff hdclass hdm).mpr hplace, Bool.not_true, Bool.or_false, Bool.or_eq_true] at hground
  rcases hground with hfinal | hfinal
  · have hflag : has m.flags isFinal = true := by
      rwa [Method.isFinal, href.visible, Bool.or_false] at hfinal
    refine h.eq_of_final hknown habove hdm hplace hnamed hflag (hreg.once hfinal) ⟨b, hb.declared, ?_,
      hb.named⟩
    exact hasPlace_of_unmarked hreg.plain hb.named hreg.unmarked hb.visible hb.onInstance
  · cases harray : receiver.isArray with
    | true => exact h.eq_of_array href.receiverKnown harray hcarray hmost.chain habove
    | false =>
      -- the class that the reference names has no other class below it
      have hclsArray : cls.isArray = false := by
        by_contra hcls
        rw [isArray_of_isAssignable href.receiverKnown href.known (eq_true_of_ne_false hcls)
          href.assignable] at harray
        cases harray
      have hclsPlain : cls.isInterface = false := by
        by_contra hinterface
        rw [hreg.extensible (eq_true_of_ne_false hinterface)] at hfinal
        cases hfinal
      have hchain := (h.isAssignable_plain href.receiverKnown href.known hclsPlain hclsArray).mp
        href.assignable
      have hsame : receiver = cls := by
        rcases h.eq_of_finalClass href.receiverKnown hchain hfinal with heq | harray'
        · exact heq
        · rw [harray] at harray'
          cases harray'
      have hsome : (r.declared? c name descriptor).isSome := by
        rw [declared?, find?_isSome]
        exact ⟨b, hb.declared, hb.named⟩
      obtain ⟨k, m', hfound, hk, hclsk, hkc⟩ := h.findMethodFrom_chain href.known
        (hsame ▸ hmost.chain) hsome (Nat.le_refl _)
      have hm' : m' = m := some.inj (hfound.symm.trans href.found)
      have hkd : k = declaring := by
        obtain ⟨⟨n, hn, hnm⟩, -⟩ := declared_some hk
        have hkclass := hclsk.registered href.known
        obtain ⟨m'', hm'', howner⟩ := (h.formed _ k hkclass).methods n hn
        rw [hnm, some.injEq, hm'] at hm''
        rw [← hm''] at howner
        have hd := href.owner
        rw [howner, hkclass, some.injEq] at hd
        exact hd
      exact h.extends_antisymm hknown habove (hkd ▸ hkc)

end ManagedCore.Registry
