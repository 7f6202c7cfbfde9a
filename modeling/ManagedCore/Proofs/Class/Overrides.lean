import ManagedCore.Proofs.Class.Layout

/-!
# Overrides

A method that a search finds stands at the first place of its name in the table of its class, and the
name keeps that place in every table below. So reading the place and searching the table by name
select the same method for a receiver, one of the nearest class that declares the name as a virtual
method.
-/

namespace ManagedCore.Registry

open Option

variable {r : Registry} {name descriptor : String}

/-- The class declares this method, under this name and with a place in its table. -/
structure DeclaresVirtual (r : Registry) (c : Class) (name descriptor : String) (m : Method) :
    Prop where
  declared : ∃ k ∈ c.methods, r.method? k = some m
  owner : m.owner = c.id
  named : m.name = name ∧ m.descriptor = descriptor
  isVirtual : m.isVirtual = true

/-- Of the classes from the receiver up to the declaring class that declare the name as a virtual
method, this one is nearest to the receiver. -/
structure NearestOverride (r : Registry) (name descriptor : String) (receiver declaring c : Class)
    (m : Method) : Prop where
  below : r.Extends receiver c
  above : r.Extends c declaring
  declares : r.DeclaresVirtual c name descriptor m
  nearest : ∀ c' m', r.Extends receiver c' → r.Extends c' declaring →
    r.DeclaresVirtual c' name descriptor m' → r.Extends c c'

section

variable (h : r.Orderly) {c : Class} {m : Method}

include h

theorem Orderly.declaresVirtual_iff (hc : r.class? c.id = some c) :
    r.DeclaresVirtual c name descriptor m ↔
      m ∈ r.declares c ∧ hasPlace c.isInterface m = true ∧ m.isNamed name descriptor = true := by
  constructor
  · rintro ⟨⟨k, hk, hm⟩, -, ⟨rfl, rfl⟩, hvirtual⟩
    have hmem : m ∈ r.declares c := List.mem_filterMap.mpr ⟨k, hk, hm⟩
    exact ⟨hmem, (h.isVirtual_iff hc hmem).mp hvirtual, by simp [Method.isNamed]⟩
  · rintro ⟨hmem, hplace, hnamed⟩
    obtain ⟨k, hk, hm⟩ := List.mem_filterMap.mp hmem
    obtain ⟨m', hm', howner⟩ := (h.formed _ c hc).methods k hk
    rw [hm, some.injEq] at hm'
    exact ⟨⟨k, hk, hm⟩, hm' ▸ howner, eq_of_isNamed hnamed, (h.isVirtual_iff hc hmem).mpr hplace⟩

end

/-- **Selection finds the nearest override.** A method that the search in some class finds and that
has a place leads every receiver below its class to the same method, whether the place is read or the
table is searched by name: to a method of that name of the nearest class that declares one as a
virtual method. Reading the place never comes back empty. -/
theorem select_nearest {cls declaring receiver : Class} {m : Method} {i : Nat} (h : r.Built)
    (hfound : r.findMethod? cls name descriptor = some m) (hoffset : m.offset = some i)
    (hdeclaring : r.class? m.owner = some declaring)
    (hreceiver : r.class? receiver.id = some receiver)
    (hsubclass : receiver.isSubclassOf declaring = true) :
    ∃ c b, r.NearestOverride name descriptor receiver declaring c b ∧
      ((receiver.slotMethod? i).bind r.method?).filter (·.isNamed m.name m.descriptor) = some b ∧
      Exec.selectVirtual? r m receiver = some b ∧
      r.findVirtual? receiver name descriptor = some b := by
  have ho := h.orderly
  obtain ⟨d, hd, hid, hdeclared⟩ := ho.findMethod_owner hfound
  rw [hdeclaring, Option.some.injEq] at hd
  subst hd
  have hknown : r.class? declaring.id = some declaring := hid ▸ hdeclaring
  have hchain := (ho.isSubclassOf_iff hreceiver hknown).mp hsubclass
  -- the place of the name is the same in the tables of both classes
  obtain ⟨x, hx⟩ := ho.firstNamed_found hknown hdeclared hoffset
  obtain ⟨b, hb⟩ := ho.firstNamed_extends hreceiver hchain hx
  have hmem : m ∈ r.declares declaring := List.mem_of_find?_eq_some hdeclared
  have hnamed : m.isNamed name descriptor = true := by simpa using List.find?_some hdeclared
  have hplace : hasPlace declaring.isInterface m = true := by
    rw [← ho.isVirtual_iff hknown hmem, Method.isVirtual, hoffset]
    rfl
  obtain ⟨c, j, b', hbelow, habove, hfirst, hdeclares, hplaced, hnearest⟩ :=
    ho.firstNamed_nearest hreceiver hchain ⟨m, hmem, hplace, hnamed⟩
  obtain ⟨rfl, rfl⟩ := hb.unique hfirst
  have hslot : ((receiver.slotMethod? i).bind r.method?).filter
      (·.isNamed m.name m.descriptor) = some b := by
    obtain ⟨rfl, rfl⟩ := eq_of_isNamed hnamed
    change (r.slot? receiver i).filter _ = _
    rw [ho.slot_eq hreceiver, hb.1, Option.filter_some, if_pos hb.2.1]
  refine ⟨c, b, ⟨hbelow, habove, ?_, fun c' m' hc' _ hm' => ?_⟩, hslot, ?_, hb.find⟩
  · exact (ho.declaresVirtual_iff (hbelow.registered hreceiver)).mpr ⟨hdeclares, hplaced, hb.2.1⟩
  · exact hnearest c' hc'
      ⟨m', (ho.declaresVirtual_iff (hc'.registered hreceiver)).mp hm'⟩
  · unfold Exec.selectVirtual?
    simp only [hoffset, Option.bind_some, hslot, Option.some_or]

/-- A method that is hidden by a private one, declared twice further down, and inherited from there. -/
def figures : Registry :=
  let area (flags : Nat) : MethodDef := .ofAbstract "area" "()I" flags
  let below (superclass name : String) (methods : List MethodDef) : ClassDef :=
    { name, superclass := some superclass, methods }
  [below objectClass "Figure" [area Flag.isPublic],
    below "Figure" "Polygon" [area Flag.isPrivate],
    below "Polygon" "Square" [area Flag.isPublic, area Flag.isPublic],
    below "Square" "Tile" []].foldl (fun r d => (r.define d).2) Registry.core

theorem built_figures : figures.Built := .define _ (.define _ (.define _ (.define _ built_core)))

theorem figures_found : ((figures.class? 23).bind (figures.findMethod? · "area" "()I")).map
    (fun m => (m.owner, m.offset)) = some (23, some 1) := by
  decide +kernel

theorem figures_below : ((figures.class? 23).bind fun d =>
    (figures.class? 26).map fun c => (c.id, c.isSubclassOf d)) = some (26, true) := by
  decide +kernel

theorem select_nearest_figures : ∃ figure m tile, figures.class? 23 = some figure ∧
    figures.class? 26 = some tile ∧ figures.findMethod? figure "area" "()I" = some m ∧
    m.offset = some 1 ∧ tile.isSubclassOf figure = true ∧
    ∃ c b, figures.NearestOverride "area" "()I" tile figure c b ∧
      ((tile.slotMethod? 1).bind figures.method?).filter (·.isNamed m.name m.descriptor) = some b ∧
      Exec.selectVirtual? figures m tile = some b ∧
      figures.findVirtual? tile "area" "()I" = some b := by
  obtain ⟨m, hm, hplace⟩ := Option.map_eq_some_iff.mp figures_found
  obtain ⟨figure, hfigure, hfound⟩ := Option.bind_eq_some_iff.mp hm
  obtain ⟨figure', hfigure', hbelow⟩ := Option.bind_eq_some_iff.mp figures_below
  obtain ⟨tile, htile, hsub⟩ := Option.map_eq_some_iff.mp hbelow
  rw [hfigure, Option.some.injEq] at hfigure'
  subst hfigure'
  simp only [Prod.mk.injEq] at hplace hsub
  exact ⟨figure, m, tile, hfigure, htile, hfound, hplace.2, hsub.2, select_nearest built_figures
    hfound hplace.2 (hplace.1.symm ▸ hfigure) (hsub.1.symm ▸ htile) hsub.2⟩

end ManagedCore.Registry
