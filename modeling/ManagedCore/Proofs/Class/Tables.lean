import ManagedCore.Proofs.Class.History

/-!
# Virtual tables

The table of a class starts as that of its superclass. A declared method stands where the first
inherited method of its name and descriptor stands, or behind all others, so the first place with a
name never changes, and what stands there was declared by the class if it declares any such method.
-/

namespace ManagedCore.Registry

open List Option

variable {r r' : Registry} {slots : Array MethodId} {m : Method}

/-! ## Installing methods -/

/-- Each place lies within the table or right behind it, as the table grows. -/
def Fit : Nat → List Method → Prop
  | _, [] => True
  | n, m :: ms =>
    match m.offset with
    | none => Fit n ms
    | some i => i ≤ n ∧ Fit (max n (i + 1)) ms

theorem getElem_installMethod {k : Nat} (hoffset : m.offset = some k)
    (hk : k ≤ slots.size) (i : Nat) :
    (installMethod slots m)[i]? = if i = k then some m.id else slots[i]? := by
  rw [installMethod, hoffset]
  dsimp only
  split
  · rename_i hlt
    rw [Array.getElem?_setIfInBounds]
    by_cases hik : i = k
    · subst hik
      rw [if_pos rfl, if_pos rfl, if_pos hlt]
    · rw [if_neg (Ne.symm hik), if_neg hik]
  · have hsize : k = slots.size := by omega
    rw [Array.getElem?_push, hsize]

theorem size_installMethod {k : Nat} (hoffset : m.offset = some k)
    (hk : k ≤ slots.size) : (installMethod slots m).size = max slots.size (k + 1) := by
  rw [installMethod, hoffset]
  dsimp only
  split
  · rw [Array.size_setIfInBounds]
    omega
  · rw [Array.size_push]
    omega

theorem getElem_installed {ms : List Method} (h : Fit slots.size ms) (i : Nat) :
    (ms.foldl installMethod slots)[i]? =
      ((ms.reverse.find? (·.offset == some i)).map (·.id)).or slots[i]? := by
  induction ms generalizing slots with
  | nil => rfl
  | cons m ms ih =>
    rw [foldl_cons, reverse_cons, find?_append]
    cases hoffset : m.offset with
    | none =>
      rw [Fit, hoffset] at h
      rw [show installMethod slots m = slots by rw [installMethod, hoffset], ih h]
      simp [hoffset]
    | some k =>
      rw [Fit, hoffset] at h
      rw [ih (by rw [size_installMethod hoffset h.1]; exact h.2), getElem_installMethod hoffset h.1]
      cases ms.reverse.find? (·.offset == some i) with
      | some m' => rfl
      | none =>
        by_cases hik : i = k
        · simp [hoffset, hik]
        · simp [hoffset, hik, Ne.symm hik]

/-! ## Placing methods -/

def hasPlace (inInterface : Bool) (m : Method) : Bool :=
  !inInterface && !m.isStatic && !Flag.has m.flags Flag.isPrivate && m.name.toList.head? ≠ some '<'

/-- Methods with places, in order, given the table of the superclass and the place behind all
others. -/
inductive Arranged (inInterface : Bool) (inherited : List Method) : Nat → List Method → Prop where
  | nil (n : Nat) : Arranged inInterface inherited n []
  | outside {n : Nat} {m : Method} {ms : List Method} : hasPlace inInterface m = false →
      m.offset = none → Arranged inInterface inherited n ms →
      Arranged inInterface inherited n (m :: ms)
  | override {n i : Nat} {m : Method} {ms : List Method} : hasPlace inInterface m = true →
      inherited.findIdx? (·.isNamed m.name m.descriptor) = some i →
      (inherited[i]?).any (fun old => Flag.has old.flags Flag.isFinal) = false →
      m.offset = some i → Arranged inInterface inherited n ms →
      Arranged inInterface inherited n (m :: ms)
  | new {n : Nat} {m : Method} {ms : List Method} : hasPlace inInterface m = true →
      inherited.findIdx? (·.isNamed m.name m.descriptor) = none → m.offset = some n →
      Arranged inInterface inherited (n + 1) ms → Arranged inInterface inherited n (m :: ms)

theorem arranged_placeMethods {owner : String} {inInterface : Bool} {inherited : List Method}
    {n : Nat} {defs : List MethodDef} {placed : List PlacedMethod}
    (h : placeMethods owner inInterface inherited n defs = .ok placed) (c : ClassId) (d : ClassDef)
    (first k : Nat) : Arranged inInterface inherited n
      ((placed.zipIdx k).map fun p => linkMethod c d (first + p.2) p.1) := by
  induction defs generalizing n k placed with
  | nil =>
    cases h
    exact .nil n
  | cons m rest ih =>
    obtain ⟨signature, offset, next, tail, -, hplaced, htail, rfl⟩ := placeMethods_cons h
    have hrest := ih htail (k + 1)
    cases hplaced with
    | outside hvirtual => exact .outside hvirtual rfl hrest
    | override hvirtual hi hfinal => exact .override hvirtual hi hfinal rfl hrest
    | new hvirtual hnone => exact .new hvirtual hnone rfl hrest

section

variable {inInterface : Bool} {inherited ms : List Method} {n : Nat} {m m' x y : Method} {i : Nat}

section

variable (h : Arranged inInterface inherited n ms)

include h

theorem Arranged.fit (hn : inherited.length ≤ n) : Fit n ms := by
  induction h with
  | nil => trivial
  | outside _ hoffset _ ih =>
    rw [Fit, hoffset]
    exact ih hn
  | @override n i m ms _ hi _ hoffset _ ih =>
    have hlt : i < n := Nat.lt_of_lt_of_le (findIdx?_eq_some_iff_getElem.mp hi).1 hn
    rw [Fit, hoffset]
    refine ⟨Nat.le_of_lt hlt, ?_⟩
    rw [Nat.max_eq_left hlt]
    exact ih hn
  | @new n m ms _ _ hoffset _ ih =>
    rw [Fit, hoffset]
    refine ⟨Nat.le_refl n, ?_⟩
    rw [Nat.max_eq_right (Nat.le_succ n)]
    exact ih (Nat.le_succ_of_le hn)

theorem Arranged.offset (hm : m ∈ ms) :
    (hasPlace inInterface m = false ∧ m.offset = none) ∨ (hasPlace inInterface m = true ∧ ∃ i,
      m.offset = some i ∧ ((inherited.findIdx? (·.isNamed m.name m.descriptor) = some i ∧
      (inherited[i]?).any (fun old => Flag.has old.flags Flag.isFinal) = false) ∨
      (inherited.findIdx? (·.isNamed m.name m.descriptor) = none ∧ n ≤ i))) := by
  induction h with
  | nil => cases hm
  | outside hplace hoffset _ ih =>
    rcases mem_cons.mp hm with rfl | hm
    · exact .inl ⟨hplace, hoffset⟩
    · exact ih hm
  | override hplace hi hfinal hoffset _ ih =>
    rcases mem_cons.mp hm with rfl | hm
    · exact .inr ⟨hplace, _, hoffset, .inl ⟨hi, hfinal⟩⟩
    · exact ih hm
  | new hplace hnone hoffset _ ih =>
    rcases mem_cons.mp hm with rfl | hm
    · exact .inr ⟨hplace, _, hoffset, .inr ⟨hnone, Nat.le_refl _⟩⟩
    · refine (ih hm).imp id fun ⟨hplace, i, hi, hcases⟩ => ⟨hplace, i, hi, hcases.imp id ?_⟩
      exact fun ⟨hnone, hle⟩ => ⟨hnone, Nat.le_of_succ_le hle⟩

theorem Arranged.of_offset (hm : m ∈ ms) (hoffset : m.offset = some i) :
    hasPlace inInterface m = true ∧ ((inherited.findIdx? (·.isNamed m.name m.descriptor) = some i ∧
      (inherited[i]?).any (fun old => Flag.has old.flags Flag.isFinal) = false) ∨
      (inherited.findIdx? (·.isNamed m.name m.descriptor) = none ∧ n ≤ i)) := by
  rcases h.offset hm with ⟨-, hnone⟩ | ⟨hplace, j, hj, hcases⟩
  · rw [hnone] at hoffset
    cases hoffset
  · obtain rfl := some.inj (hj.symm.trans hoffset)
    exact ⟨hplace, hcases⟩

theorem Arranged.increasing :
    ms.Pairwise fun x y => ∀ i j, x.offset = some i → y.offset = some j → inherited.length ≤ i →
      inherited.length ≤ j → i < j := by
  induction h with
  | nil => exact .nil
  | outside _ hnone _ ih =>
    refine pairwise_cons.mpr ⟨fun y _ i j hx => ?_, ih⟩
    rw [hnone] at hx
    cases hx
  | override _ hfound _ hover _ ih =>
    refine pairwise_cons.mpr ⟨fun y _ i j hx _ hi => ?_, ih⟩
    obtain rfl := some.inj (hover.symm.trans hx)
    exact absurd (findIdx?_eq_some_iff_getElem.mp hfound).1 (Nat.not_lt.mpr hi)
  | new _ _ hnew hrest ih =>
    refine pairwise_cons.mpr ⟨fun y hy i j hx hj _ hle => ?_, ih⟩
    obtain rfl := some.inj (hnew.symm.trans hx)
    rcases (hrest.of_offset hy hj).2 with ⟨hfound, -⟩ | ⟨-, hlt⟩
    · exact absurd (findIdx?_eq_some_iff_getElem.mp hfound).1 (Nat.not_lt.mpr hle)
    · exact hlt

theorem Arranged.new_eq (hi : inherited.length ≤ i) (hm : m ∈ ms) (hm' : m' ∈ ms)
    (hoffset : m.offset = some i) (hoffset' : m'.offset = some i) : m = m' := by
  obtain ⟨before, after, rfl⟩ := append_of_mem hm
  obtain ⟨-, hafter, hbefore⟩ := pairwise_append.mp h.increasing
  rcases mem_append.mp hm' with hmem | hmem
  · have hlt := hbefore m' hmem m mem_cons_self i i hoffset' hoffset hi hi
    exact absurd hlt (Nat.lt_irrefl i)
  rcases mem_cons.mp hmem with rfl | hmem
  · rfl
  · have hlt := (pairwise_cons.mp hafter).1 m' hmem i i hoffset hoffset' hi hi
    exact absurd hlt (Nat.lt_irrefl i)

theorem Arranged.new_le {p : Method → Bool} {j : Nat} (hfirst : ms.find? p = some m) (hm' : m' ∈ ms)
    (hp : p m' = true) (hoffset : m.offset = some i) (hoffset' : m'.offset = some j)
    (hj : inherited.length ≤ j) : i ≤ j := by
  by_contra hlt
  obtain ⟨-, before, after, rfl, hbefore⟩ := find?_eq_some_iff_append.mp hfirst
  have hpair := (pairwise_append.mp h.increasing).2.1
  rcases mem_append.mp hm' with hmem | hmem
  · exact absurd hp (by simpa using hbefore m' hmem)
  rcases mem_cons.mp hmem with rfl | hmem
  · exact hlt (Nat.le_of_eq (some.inj (hoffset.symm.trans hoffset')))
  · have hup := (pairwise_cons.mp hpair).1 m' hmem i j hoffset hoffset'
    omega

end

/-! ## Names in tables -/

def FirstNamed (table : List Method) (name descriptor : String) (i : Nat) (m : Method) : Prop :=
  table[i]? = some m ∧ m.isNamed name descriptor = true ∧
    ∀ j x, j < i → table[j]? = some x → x.isNamed name descriptor = false

theorem findIdx_eq_some_iff {table : List Method} {name descriptor : String} :
    table.findIdx? (·.isNamed name descriptor) = some i ↔
      ∃ m, FirstNamed table name descriptor i m := by
  rw [findIdx?_eq_some_iff_getElem]
  constructor
  · rintro ⟨hlt, hnamed, hbefore⟩
    refine ⟨table[i], getElem?_eq_getElem hlt, hnamed, fun j x hj hx => ?_⟩
    obtain ⟨hlt', rfl⟩ := List.getElem?_eq_some_iff.mp hx
    exact eq_false_of_ne_true (hbefore j hj)
  · rintro ⟨m, hm, hnamed, hbefore⟩
    obtain ⟨hlt, rfl⟩ := List.getElem?_eq_some_iff.mp hm
    refine ⟨hlt, hnamed, fun j hj => ?_⟩
    rw [hbefore j _ hj (getElem?_eq_getElem (Nat.lt_trans hj hlt))]
    exact Bool.false_ne_true

theorem FirstNamed.find {table : List Method} {name descriptor : String}
    (h : FirstNamed table name descriptor i m) :
    table.find? (·.isNamed name descriptor) = some m := by
  obtain ⟨hm, hnamed, hbefore⟩ := h
  obtain ⟨hlt, rfl⟩ := List.getElem?_eq_some_iff.mp hm
  rw [find?_eq_some_iff_getElem]
  refine ⟨hnamed, i, hlt, rfl, fun j hj => ?_⟩
  rw [hbefore j _ hj (getElem?_eq_getElem (Nat.lt_trans hj hlt))]
  rfl

theorem FirstNamed.unique {table : List Method} {name descriptor : String} {j : Nat}
    (h : FirstNamed table name descriptor i m) (h' : FirstNamed table name descriptor j m') :
    i = j ∧ m = m' := by
  have hij : i = j := by
    rcases Nat.lt_trichotomy i j with hlt | heq | hlt
    · exact absurd h.2.1 (Bool.eq_false_iff.mp (h'.2.2 i m hlt h.1))
    · exact heq
    · exact absurd h'.2.1 (Bool.eq_false_iff.mp (h.2.2 j m' hlt h'.1))
  subst hij
  exact ⟨rfl, some.inj (h.1.symm.trans h'.1)⟩

def IsTable (inherited ms table : List Method) : Prop :=
  ∀ i, table[i]? = (ms.reverse.find? (·.offset == some i)).or inherited[i]?

variable {table : List Method} {name descriptor : String}

theorem IsTable.get (h : IsTable inherited ms table) (hx : table[i]? = some x) :
    (x ∈ ms ∧ x.offset = some i) ∨ ((∀ m ∈ ms, m.offset ≠ some i) ∧ inherited[i]? = some x) := by
  rw [h] at hx
  cases hfind : ms.reverse.find? (·.offset == some i) with
  | some m =>
    rw [hfind] at hx
    cases hx
    exact .inl ⟨mem_reverse.mp (mem_of_find?_eq_some hfind),
      by simpa using find?_some hfind⟩
  | none =>
    rw [hfind] at hx
    refine .inr ⟨fun m hm => ?_, hx⟩
    simpa using find?_eq_none.mp hfind m (mem_reverse.mpr hm)

theorem IsTable.get_declared (h : IsTable inherited ms table) (hm : m ∈ ms)
    (hoffset : m.offset = some i) : ∃ x ∈ ms, x.offset = some i ∧ table[i]? = some x := by
  have hsome : (ms.reverse.find? (·.offset == some i)).isSome := by
    rw [find?_isSome]
    exact ⟨m, mem_reverse.mpr hm, by simp [hoffset]⟩
  obtain ⟨x, hx⟩ := isSome_iff_exists.mp hsome
  refine ⟨x, mem_reverse.mp (mem_of_find?_eq_some hx),
    by simpa using find?_some hx, ?_⟩
  rw [h, hx]
  rfl

theorem IsTable.get_inherited (h : IsTable inherited ms table) (hy : inherited[i]? = some y) :
    ∃ x, table[i]? = some x := by
  rw [h, hy]
  cases ms.reverse.find? (·.offset == some i) <;> exact ⟨_, rfl⟩

section

variable (h : Arranged inInterface inherited inherited.length ms)

include h

theorem Arranged.named_of_lt (hm : m ∈ ms) (hoffset : m.offset = some i)
    (hy : inherited[i]? = some y) : y.isNamed m.name m.descriptor = true := by
  have hlt := (List.getElem?_eq_some_iff.mp hy).1
  rcases (h.of_offset hm hoffset).2 with ⟨hfound, -⟩ | ⟨-, hle⟩
  · obtain ⟨y', hy', hnamed, -⟩ := findIdx_eq_some_iff.mp hfound
    rw [hy, some.injEq] at hy'
    exact hy' ▸ hnamed
  · omega

omit h in
theorem isNamed_of_isNamed (h : y.isNamed m.name m.descriptor = true) :
    m.isNamed name descriptor = y.isNamed name descriptor := by
  rw [Method.isNamed, Bool.and_eq_true, beq_iff_eq, beq_iff_eq] at h
  rw [Method.isNamed, Method.isNamed, h.1, h.2]

theorem Arranged.isNamed_table (htable : IsTable inherited ms table) (hy : inherited[i]? = some y)
    (hx : table[i]? = some x) : x.isNamed name descriptor = y.isNamed name descriptor := by
  rcases htable.get hx with ⟨hmem, hoffset⟩ | ⟨-, hx'⟩
  · exact isNamed_of_isNamed (h.named_of_lt hmem hoffset hy)
  · rw [hy, some.injEq] at hx'
    rw [hx']

theorem Arranged.firstNamed_keep (htable : IsTable inherited ms table)
    (hy : FirstNamed inherited name descriptor i y) :
    ∃ x, FirstNamed table name descriptor i x := by
  obtain ⟨hget, hnamed, hbefore⟩ := hy
  obtain ⟨x, hx⟩ := htable.get_inherited hget
  refine ⟨x, hx, (h.isNamed_table htable hget hx).trans hnamed, fun j z hj hz => ?_⟩
  have hlt := Nat.lt_trans hj (List.getElem?_eq_some_iff.mp hget).1
  rw [h.isNamed_table htable (getElem?_eq_getElem hlt) hz]
  exact hbefore j _ hj (getElem?_eq_getElem hlt)

end

theorem eq_of_isNamed (h : m.isNamed name descriptor = true) :
    m.name = name ∧ m.descriptor = descriptor := by
  simpa [Method.isNamed] using h

section

variable (h : Arranged inInterface inherited n ms) (hm : m ∈ ms)
  (hplace : hasPlace inInterface m = true) (hnamed : m.isNamed name descriptor = true)
include h hm hplace hnamed

theorem Arranged.offset_of_firstNamed (hy : FirstNamed inherited name descriptor i y) :
    m.offset = some i ∧ Flag.has y.flags Flag.isFinal = false := by
  obtain ⟨rfl, rfl⟩ := eq_of_isNamed hnamed
  have hi := findIdx_eq_some_iff.mpr ⟨y, hy⟩
  rcases h.offset hm with ⟨hno, -⟩ | ⟨-, j, hj, ⟨hfound, hfinal⟩ | ⟨hnone, -⟩⟩
  · rw [hno] at hplace
    cases hplace
  · cases hi.symm.trans hfound
    rw [hy.1] at hfinal
    exact ⟨hj, hfinal⟩
  · rw [hi] at hnone
    cases hnone

theorem Arranged.offset_of_new (hnew : inherited.findIdx? (·.isNamed name descriptor) = none) :
    ∃ i, m.offset = some i ∧ n ≤ i := by
  obtain ⟨rfl, rfl⟩ := eq_of_isNamed hnamed
  rcases h.offset hm with ⟨hno, -⟩ | ⟨-, j, hj, ⟨hfound, -⟩ | ⟨-, hle⟩⟩
  · rw [hno] at hplace
    cases hplace
  · rw [hnew] at hfound
    cases hfound
  · exact ⟨j, hj, hle⟩

end

/-- A name that the class declares leads to one of its own methods, at the place of the first. -/
theorem Arranged.firstNamed_declared (h : Arranged inInterface inherited inherited.length ms)
    (htable : IsTable inherited ms table) (hm : m ∈ ms) (hplace : hasPlace inInterface m = true)
    (hnamed : m.isNamed name descriptor = true) :
    ∃ i x, FirstNamed table name descriptor i x ∧ x ∈ ms ∧ x.offset = some i ∧
      ∀ first, ms.find? (·.isNamed name descriptor) = some first →
        hasPlace inInterface first = true → first.offset = some i := by
  cases hinherited : inherited.findIdx? (·.isNamed name descriptor) with
  | some i =>
    obtain ⟨y, hy⟩ := findIdx_eq_some_iff.mp hinherited
    obtain ⟨x, hx⟩ := h.firstNamed_keep htable hy
    obtain ⟨x', hx', hoffset, hget⟩ :=
      htable.get_declared hm (h.offset_of_firstNamed hm hplace hnamed hy).1
    obtain rfl : x = x' := some.inj (hx.1.symm.trans hget)
    refine ⟨i, x, hx, hx', hoffset, fun first hfirst hplace' => ?_⟩
    have hfnamed : first.isNamed name descriptor = true := by simpa using find?_some hfirst
    exact (h.offset_of_firstNamed (mem_of_find?_eq_some hfirst) hplace' hfnamed hy).1
  | none =>
    -- the first of the placed methods of this name has the least of the new places
    have hsome : (ms.find? fun x => hasPlace inInterface x && x.isNamed name descriptor).isSome := by
      rw [find?_isSome]
      exact ⟨m, hm, by rw [hplace, hnamed]; rfl⟩
    obtain ⟨x, hx⟩ := isSome_iff_exists.mp hsome
    have hmem := mem_of_find?_eq_some hx
    have hprop := find?_some hx
    rw [Bool.and_eq_true] at hprop
    obtain ⟨i, hi, hle⟩ := h.offset_of_new hmem hprop.1 hprop.2 hinherited
    have hleast : ∀ x' ∈ ms, ∀ j, x'.offset = some j → x'.isNamed name descriptor = true →
        i ≤ j := by
      intro x' hmem' j hj hnamed'
      have hplace' := (h.of_offset hmem' hj).1
      obtain ⟨j', hj', hle'⟩ := h.offset_of_new hmem' hplace' hnamed' hinherited
      obtain rfl : j' = j := some.inj (hj'.symm.trans hj)
      exact h.new_le hx hmem' (by rw [hplace', hnamed']; rfl) hi hj hle'
    obtain ⟨x', hmem', hoffset', hget⟩ := htable.get_declared hmem hi
    obtain rfl : x = x' := h.new_eq hle hmem hmem' hi hoffset'
    refine ⟨i, x, ⟨hget, hprop.2, fun j z hj hz => ?_⟩, hmem, hi, fun first hfirst hplace' => ?_⟩
    · rcases htable.get hz with ⟨hzmem, hzoffset⟩ | ⟨-, hz'⟩
      · by_contra hcon
        exact absurd (hleast z hzmem j hzoffset (eq_true_of_ne_false hcon)) (Nat.not_le.mpr hj)
      · exact findIdx?_eq_none_iff.mp hinherited z (mem_of_getElem? hz')
    · have hfmem := mem_of_find?_eq_some hfirst
      have hfnamed : first.isNamed name descriptor = true := by simpa using find?_some hfirst
      obtain ⟨j, hj, -⟩ := h.offset_of_new hfmem hplace' hfnamed hinherited
      have hij := hleast first hfmem j hj hfnamed
      have hji := h.new_le hfirst hmem hprop.2 hj hi hle
      rw [hj, Nat.le_antisymm hij hji]

/-- A name that the class does not declare leads where it led before. -/
theorem Arranged.firstNamed_inherited (h : Arranged inInterface inherited inherited.length ms)
    (htable : IsTable inherited ms table)
    (hnone : ∀ m ∈ ms, hasPlace inInterface m = true → m.isNamed name descriptor = false) :
    FirstNamed table name descriptor i x ↔ FirstNamed inherited name descriptor i x := by
  have hget : ∀ {j : Nat} {z : Method}, table[j]? = some z → z.isNamed name descriptor = true →
      inherited[j]? = some z := by
    intro j z hz hnamed
    rcases htable.get hz with ⟨hmem, hoffset⟩ | ⟨-, hz'⟩
    · rw [hnone z hmem (h.of_offset hmem hoffset).1] at hnamed
      cases hnamed
    · exact hz'
  constructor
  · rintro ⟨hx, hnamed, hbefore⟩
    have hx' := hget hx hnamed
    refine ⟨hx', hnamed, fun j z hj hz => ?_⟩
    by_contra hcon
    obtain ⟨z', hz'⟩ := htable.get_inherited hz
    rw [← h.isNamed_table htable hz hz'] at hcon
    exact hcon (hbefore j z' hj hz')
  · intro hx
    obtain ⟨x', hx'⟩ := h.firstNamed_keep htable hx
    have hold := hget hx'.1 hx'.2.1
    rw [hx.1, some.injEq] at hold
    rw [hold]
    exact hx'

end

end ManagedCore.Registry
