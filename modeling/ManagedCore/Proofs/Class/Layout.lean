import ManagedCore.Proofs.Class.Phases

/-!
# Layout of classes

A class starts with the fields and the table of its superclass. Its own fields come behind the
inherited ones, and its own methods behind the inherited ones or in place of those they override, so
code that was made for the superclass finds fields and methods at the same places.
-/

namespace ManagedCore.Registry

open List Option

variable {r r' : Registry} {c : Class}

/-! ## Fields -/

def InOrder (fields : List FieldInfo) : Prop :=
  ∀ (i : Nat) (f : FieldInfo), fields[i]? = some f → f.slot = i

theorem InOrder.concat {fields : List FieldInfo} {f : FieldInfo} (h : InOrder fields)
    (hf : f.slot = fields.length) : InOrder (fields ++ [f]) := by
  intro i g hg
  rw [getElem?_append] at hg
  split at hg
  · exact h i g hg
  · rw [getElem?_singleton] at hg
    split at hg
    · cases hg
      omega
    · cases hg

theorem layOutFields_ok {owner : String} {defs : List FieldDef}
    {fields statics fields' statics' : List FieldInfo}
    (h : layOutFields owner defs fields statics = .ok (fields', statics')) :
    fields <+: fields' ∧ (InOrder fields → InOrder fields') := by
  induction defs generalizing fields statics with
  | nil =>
    cases h
    exact ⟨prefix_rfl, id⟩
  | cons d defs ih =>
    obtain ⟨type, -, h⟩ := Except.bind_ok_iff.mp h
    split at h
    · exact ih h
    · obtain ⟨hbegins, horder⟩ := ih h
      exact ⟨(prefix_append _ _).trans hbegins, fun hin => horder (hin.concat rfl)⟩

/-- The fields of a class: those of its superclass come first. Array classes have none, and the class
above them is the root. -/
structure FieldsLaid (r : Registry) (c : Class) : Prop where
  inOrder : InOrder c.fields
  inherited : c.isArray = false → ∀ n s, c.superclass = some n → r.class? n = some s →
    s.fields <+: c.fields
  array : c.isArray = true → c.fields = [] ∧
    ∃ object, r.loaded? objectClass = some object ∧ c.superclass = some object.id

theorem FieldsLaid.keep {c c' : Class} (h : r.FieldsLaid c) (ho : r.Orderly)
    (hc : r.class? c.id = some c) (hk : r.Keeps r') (hsame : c.SameLink c') : r'.FieldsLaid c' := by
  have hfields : c'.fields = c.fields := by rw [hsame]
  have hsuper : c'.superclass = c.superclass := by rw [hsame]
  have harray : c'.isArray = c.isArray := by
    rw [hsame]
    rfl
  refine ⟨hfields ▸ h.inOrder, fun hplain k s' hs hs' => ?_, fun ha => ?_⟩
  · rw [hsuper] at hs
    obtain ⟨s, hclass, -⟩ := ho.exists_below hc hs
    obtain ⟨s'', hclass', hsame'⟩ := hk.classes k s hclass
    rw [hs', some.injEq] at hclass'
    rw [hfields, hclass', hsame']
    exact h.inherited (harray ▸ hplain) k s hs hclass
  · obtain ⟨hnone, object, hobject, hs⟩ := h.array (harray ▸ ha)
    obtain ⟨object', hobject', hsame'⟩ := hk.names _ object hobject
    refine ⟨hfields ▸ hnone, object', hobject', ?_⟩
    rw [hsuper, hs, hsame']

theorem FieldsLaid.link {d : ClassDef} {s : Option Class} {is : List Class}
    (ho : r.Orderly) (h : ∀ n c, r.class? n = some c → r.FieldsLaid c)
    (hl : Linked r d s is c r') : r'.FieldsLaid c := by
  obtain ⟨statics, placed, hfields, -, -, hnew⟩ := link_ok hl.link
  obtain ⟨hbegins, horder⟩ := layOutFields_ok hfields
  cases s with
  | none =>
    refine ⟨horder (fun _ _ hf => nomatch hf), fun _ k sc' hs _ => ?_, by simp [hl.kind.2]⟩
    rw [hnew] at hs
    cases hs
  | some sc =>
    obtain ⟨⟨name, hname⟩, -⟩ := hl.superclass sc rfl
    refine ⟨horder (h _ sc (ho.of_loaded hname).1).inOrder, fun _ k sc' hs hsc' => ?_,
      by simp [hl.kind.2]⟩
    obtain ⟨sc'', hsc'', hsame⟩ := hl.keeps.classes _ sc (ho.of_loaded hname).1
    rw [hnew] at hs
    cases hs
    rw [hsc'', some.injEq] at hsc'
    rw [← hsc', hsame]
    exact hbegins

theorem Built.fieldsLaid (h : r.Built) {n : Nat} (hc : r.class? n = some c) : r.FieldsLaid c := by
  refine h.forall_class (P := FieldsLaid) (fun ho _ hc _ hk hsame hlaid => hlaid.keep ho hc hk hsame)
    (fun {r object} component cls ho hobject _ => ?_) FieldsLaid.link hc
  obtain ⟨object', hobject', hsame⟩ := (keeps_addArray object component cls).names _ object hobject
  refine ⟨nofun, nofun, fun _ => ⟨rfl, object', hobject', ?_⟩⟩
  rw [hsame]
  rfl

/-! ## Tables -/

theorem Orderly.length_table (h : r.Orderly) (hc : r.class? c.id = some c) :
    (r.table c).length = c.slots.size := by
  rw [table, length_filterMap (h.formed _ c hc).slots, Class.slotMethods, length_map,
    Array.length_toList]

section

variable {inInterface : Bool} {inherited ms table : List Method} {i : Nat} {m : Method}
  (h : Arranged inInterface inherited inherited.length ms) (htable : IsTable inherited ms table)
include h htable

theorem Arranged.inherited_place (hm : inherited[i]? = some m) :
    ∃ m', table[i]? = some m' ∧ m'.name = m.name ∧ m'.descriptor = m.descriptor ∧
      (Flag.has m.flags Flag.isFinal = true → m' = m) := by
  obtain ⟨x, hx⟩ := htable.get_inherited hm
  refine ⟨x, hx, ?_⟩
  rcases htable.get hx with ⟨hmem, hoffset⟩ | ⟨-, hold⟩
  · obtain ⟨hname, hdescriptor⟩ := eq_of_isNamed (h.named_of_lt hmem hoffset hm)
    refine ⟨hname.symm, hdescriptor.symm, fun hfinal => ?_⟩
    have hlt := (List.getElem?_eq_some_iff.mp hm).1
    rcases (h.of_offset hmem hoffset).2 with ⟨-, hopen⟩ | ⟨-, hle⟩
    · rw [hm, any_some, hfinal] at hopen
      cases hopen
    · omega
  · cases hm.symm.trans hold
    exact ⟨rfl, rfl, fun _ => rfl⟩

theorem Arranged.own_place (hm : m ∈ ms) (hoffset : m.offset = some i) :
    ∃ m' ∈ ms, table[i]? = some m' ∧ m'.name = m.name ∧ m'.descriptor = m.descriptor := by
  obtain ⟨x, hx, hoffset', hget⟩ := htable.get_declared hm hoffset
  refine ⟨x, hx, hget, ?_⟩
  cases hy : inherited[i]? with
  | some y =>
    obtain ⟨hn, hd⟩ := eq_of_isNamed (h.named_of_lt hm hoffset hy)
    obtain ⟨hn', hd'⟩ := eq_of_isNamed (h.named_of_lt hx hoffset' hy)
    exact ⟨hn'.symm.trans hn, hd'.symm.trans hd⟩
  | none =>
    rw [h.new_eq (getElem?_eq_none_iff.mp hy) hx hm hoffset' hoffset]
    exact ⟨rfl, rfl⟩

end

/-! ## Whole registries -/

theorem mem_of_class {n : Nat} (h : r.class? n = some c) : c ∈ r.classes := by
  unfold class? at h
  split at h
  · cases h
  · exact Array.mem_of_getElem? h

theorem Orderly.id_of_getElem (h : r.Orderly) {i : Nat} (hc : r.classes[i]? = some c) :
    c.id = i + 1 ∧ r.class? c.id = some c := by
  have hclass : r.class? (i + 1) = some c := by
    rw [class?, if_neg (Nat.succ_ne_zero i), Nat.add_sub_cancel, hc]
  have hid := (h.formed _ c hclass).id
  exact ⟨hid, hid ▸ hclass⟩

theorem Orderly.class_of_mem (h : r.Orderly) (hc : c ∈ r.classes) : r.class? c.id = some c := by
  obtain ⟨i, hi⟩ := Array.mem_iff_getElem?.mp hc
  exact (h.id_of_getElem hi).2

/-- How a class goes on from its superclass. -/
structure Continues (r : Registry) (s c : Class) : Prop where
  fields : s.fields <+: c.fields
  size : s.slots.size ≤ c.slots.size
  inherited : ∀ i < s.slots.size, ∃ m m', r.slot? s i = some m ∧ r.slot? c i = some m' ∧
    m'.name = m.name ∧ m'.descriptor = m.descriptor ∧
    (Flag.has m.flags Flag.isFinal = true → m' = m)
  display : c.display = s.display ++ [c.id]

/-- Every place that the class gives a method holds a method of this class with the same name. -/
def OwnPlaces (r : Registry) (c : Class) : Prop :=
  ∀ k ∈ c.methods, ∃ m, r.method? k = some m ∧ ∀ i, m.offset = some i →
    ∃ k' ∈ c.methods, ∃ m', c.slotMethod? i = some k' ∧ r.method? k' = some m' ∧
      m'.owner = c.id ∧ m'.name = m.name ∧ m'.descriptor = m.descriptor

theorem core_object_fields : (Registry.core.loaded? objectClass).map (·.fields) = some [] := by
  decide +kernel

section

variable (h : Registry.core.Later r)

include h

theorem Later.object_fields : ∃ object, r.loaded? objectClass = some object ∧
    object.fields = [] := by
  obtain ⟨object, hobject, hfields⟩ := map_eq_some_iff.mp core_object_fields
  obtain ⟨object', hobject', hsame⟩ := h.keeps.names _ object hobject
  refine ⟨object', hobject', ?_⟩
  rw [hsame]
  exact hfields

theorem Later.continues {c s : Class} (hc : r.class? c.id = some c) (hs : r.class? s.id = some s)
    (hsuper : c.superclass = some s.id) : r.Continues s c := by
  have hbuilt : r.Built := built_core.trans h
  have ho := hbuilt.orderly
  obtain ⟨inherited, harranged, htable, hinherited⟩ := ho.arranged hc
  obtain rfl := hinherited s hsuper hs
  have hplace : ∀ i < s.slots.size, ∃ m m', (r.table s)[i]? = some m ∧ (r.table c)[i]? = some m' ∧
      m'.name = m.name ∧ m'.descriptor = m.descriptor ∧
      (Flag.has m.flags Flag.isFinal = true → m' = m) := by
    intro i hi
    rw [← ho.length_table hs] at hi
    obtain ⟨m', hm'⟩ := harranged.inherited_place htable (getElem?_eq_getElem hi)
    exact ⟨_, m', getElem?_eq_getElem hi, hm'⟩
  refine ⟨?_, ?_, fun i hi => ?_, ?_⟩
  · have hlaid := hbuilt.fieldsLaid hc
    cases harray : c.isArray with
    | false => exact hlaid.inherited harray s.id s hsuper hs
    | true =>
      -- an array class has the root above it, which has no fields
      obtain ⟨-, object, hobject, hroot⟩ := hlaid.array harray
      obtain ⟨object', hobject', hnone⟩ := h.object_fields
      rw [hobject, some.injEq] at hobject'
      rw [hsuper, some.injEq] at hroot
      rw [eq_of_id hs (ho.of_loaded hobject).1 hroot, hobject', hnone]
      exact nil_prefix
  · by_contra hlt
    obtain ⟨-, m', -, hm', -⟩ := hplace c.slots.size (Nat.not_le.mp hlt)
    have hsize := (List.getElem?_eq_some_iff.mp hm').1
    rw [ho.length_table hc] at hsize
    exact Nat.lt_irrefl _ hsize
  · rw [ho.slot_eq hs, ho.slot_eq hc]
    exact hplace i hi
  · exact (ho.below hc hsuper hs).display

omit h in
theorem Orderly.ownPlaces (ho : r.Orderly) (hc : r.class? c.id = some c) : r.OwnPlaces c := by
  intro k hk
  have hformed := ho.formed _ c hc
  obtain ⟨m, hm, -⟩ := hformed.methods k hk
  refine ⟨m, hm, fun i hoffset => ?_⟩
  obtain ⟨inherited, harranged, htable, -⟩ := ho.arranged hc
  obtain ⟨m', hmem, hget, hname, hdescriptor⟩ :=
    harranged.own_place htable (mem_filterMap.mpr ⟨k, hk, hm⟩) hoffset
  obtain ⟨k', hk', hm'⟩ := mem_filterMap.mp hmem
  obtain ⟨m'', hm'', howner⟩ := hformed.methods k' hk'
  rw [hm', some.injEq] at hm''
  rw [← ho.slot_eq hc, slot?] at hget
  obtain ⟨k'', hslot, hm₂⟩ := bind_eq_some_iff.mp hget
  have hkk : k'' = k' := (ho.methodId _ _ hm₂).symm.trans (ho.methodId _ _ hm')
  exact ⟨k', hk', m', hkk ▸ hslot, hm', hm''.symm ▸ howner, hname, hdescriptor⟩

/-- **Layout of classes.** However classes are defined on top of the core classes and array classes
come into being: no number is given to two classes, each field has its position as its slot, and each
method that has a place shares it only with methods of its class and name. A class begins with the
fields of its superclass, keeps the names of all places of the table above it and the final methods
in it, and adds itself to the display. -/
theorem layout_continues :
    (r.classes.toList.map (·.id)).Nodup ∧
    ∀ c ∈ r.classes, InOrder c.fields ∧ r.OwnPlaces c ∧
      ∀ n, c.superclass = some n → ∃ s ∈ r.classes, s.id = n ∧ r.Continues s c := by
  have hbuilt : r.Built := built_core.trans h
  have ho := hbuilt.orderly
  have hid : ∀ (i : Nat) (c : Class), r.classes.toList[i]? = some c → c.id = i + 1 :=
    fun i c hc => (ho.id_of_getElem (Array.getElem?_toList.symm.trans hc)).1
  have hknown : ∀ c ∈ r.classes, r.class? c.id = some c := fun c hc => ho.class_of_mem hc
  refine ⟨?_, fun c hc => ⟨(hbuilt.fieldsLaid (hknown c hc)).inOrder, ho.ownPlaces (hknown c hc),
    fun n hn => ?_⟩⟩
  · rw [List.Nodup, List.pairwise_map, List.pairwise_iff_getElem]
    intro i j hi hj hij heq
    rw [hid i _ (List.getElem?_eq_getElem hi), hid j _ (List.getElem?_eq_getElem hj)] at heq
    exact Nat.ne_of_lt hij (Nat.succ.inj heq)
  · obtain ⟨s, hs, hsid, -⟩ := ho.exists_below (hknown c hc) hn
    exact ⟨s, mem_of_class hs, hsid, h.continues (hknown c hc) (hsid ▸ hs) (hsid ▸ hn)⟩

end

/-- A class with a field that overrides a method of the root and declares it once more, and a class
below it that has a method of its own. -/
def shapes : Registry :=
  let hash (flags : Nat) : MethodDef := .ofAbstract "hashCode" "()I" flags
  let shape : ClassDef :=
    { name := "Shape", superclass := some objectClass, fields := [⟨"area", "I", false⟩],
      methods := [hash Flag.isPublic, hash Flag.isFinal] }
  let circle : ClassDef :=
    { name := "Circle", superclass := some "Shape", fields := [⟨"radius", "J", false⟩],
      methods := [.ofAbstract "grow" "(I)V" Flag.isPublic] }
  ((((Registry.core.define shape).2.define circle).2).arrayClass (.object "Circle")).2

theorem later_shapes : Registry.core.Later shapes :=
  .arrays (.define _ (.define _ .same)) (arraysAdded_arrayClass _ _)

theorem layout_continues_shapes : Registry.core.Later shapes ∧
    (shapes.classes.toList.map (·.id)).Nodup ∧
    ∀ c ∈ shapes.classes, InOrder c.fields ∧ shapes.OwnPlaces c ∧
      ∀ n, c.superclass = some n → ∃ s ∈ shapes.classes, s.id = n ∧ shapes.Continues s c :=
  ⟨later_shapes, layout_continues later_shapes⟩

end ManagedCore.Registry
