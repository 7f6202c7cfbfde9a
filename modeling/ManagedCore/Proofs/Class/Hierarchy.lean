import ManagedCore.Class.Core
import ManagedCore.Proofs.Class.Tables
import Mathlib.Data.List.Basic

/-!
# Class hierarchies

A registry that comes about keeps its classes and methods in order: each stands under its own
number, and a class refers to classes linked before it. Its table is arranged over that of its
superclass, so what a class inherits can be followed along the chain of superclasses.
-/

namespace ManagedCore

open ManagedCore.Flag List

namespace Registry

variable {r r' : Registry} {c : Class} {ms : Array Method} {n : Nat} {ids : List MethodId}
  {f : Method → Method} {is : List Class}

def table (r : Registry) (c : Class) : List Method := c.slotMethods.filterMap r.method?

def declares (r : Registry) (c : Class) : List Method := c.methods.filterMap r.method?

theorem keeps_modifyMethod (id : MethodId)
    (hf : ∀ m : Method, m.SameLink (f m)) : r.Keeps (r.modifyMethod id f) := by
  refine ⟨fun n c hc => ⟨c, hc, .refl⟩, fun n m hm => ?_, fun name c hc => ⟨c, hc, .refl⟩⟩
  rw [method_modifyMethod, hm]
  split
  · exact ⟨f m, rfl, hf m⟩
  · exact ⟨m, rfl, .refl⟩

theorem Linked.keeps {d : ClassDef} {s : Option Class} (h : Linked r d s is c r') : r.Keeps r' := by
  obtain ⟨-, placed, -, -, rfl, -⟩ := link_ok h.link
  exact keeps_push

theorem Later.keeps (h : r.Later r') : r.Keeps r' := by
  refine h.induction .refl ?_ ?_ ?_ ?_
  · exact fun r₁ object component cls ih _ _ => ih.trans (keeps_addArray object component cls)
  · exact fun r₁ d s is c r₂ ih hlinked => ih.trans hlinked.keeps
  · exact fun r₁ id f ih hf => ih.trans (keeps_modifyClass id hf)
  · exact fun r₁ id f ih hf => ih.trans (keeps_modifyMethod id hf)

theorem Later.trans {r'' : Registry} (h : r.Later r') (h' : r'.Later r'') : r.Later r'' := by
  induction h' with
  | same => exact h
  | define d _ ih => exact .define d ih
  | arrays _ hadded ih => exact .arrays ih hadded
  | change id _ hf ih => exact .change id ih hf
  | publish id _ hf ih => exact .publish id ih hf

theorem Built.later (h : r.Built) (hl : r.Later r') : r'.Built := Later.trans h hl

theorem later_foldl (ds : List ClassDef) (r : Registry) :
    r.Later (ds.foldl (fun r d => (r.define d).2) r) := by
  induction ds generalizing r with
  | nil => exact .same
  | cons d ds ih => exact Later.trans (.define d .same) (ih _)

theorem built_core : Registry.core.Built := later_foldl coreClasses {}

/-- The core classes and then those of a list. -/
def defining (ds : List ClassDef) : Registry := ds.foldl (fun r d => (r.define d).2) Registry.core

theorem later_defining (ds : List ClassDef) : Registry.core.Later (defining ds) := later_foldl ds _

/-! ## Tables after a change of entries -/

section

variable {g : Method → Method} (hg : ∀ m : Method, m.SameLink (g m)) {inherited : List Method}

include hg

theorem isNamed_comp (name descriptor : String) :
    (fun m : Method => m.isNamed name descriptor) ∘ g = fun m => m.isNamed name descriptor := by
  funext m
  rw [Function.comp_apply, hg m]
  rfl

theorem Arranged.map {inInterface : Bool} {ms : List Method} {n : Nat}
    (h : Arranged inInterface inherited n ms) :
    Arranged inInterface (inherited.map g) n (ms.map g) := by
  have hplace : ∀ m, hasPlace inInterface (g m) = hasPlace inInterface m := by
    intro m
    rw [hg m]
    rfl
  have hoffset : ∀ m : Method, (g m).offset = m.offset := by
    intro m
    rw [hg m]
  have hfind : ∀ m : Method, (inherited.map g).findIdx? (·.isNamed (g m).name (g m).descriptor) =
      inherited.findIdx? (·.isNamed m.name m.descriptor) := by
    intro m
    rw [findIdx?_map, isNamed_comp hg, hg m]
  have hfinal : ∀ i : Nat, ((inherited.map g)[i]?).any (fun old => has old.flags isFinal) =
      (inherited[i]?).any fun old => has old.flags isFinal := by
    intro i
    rw [getElem?_map, Option.any_map]
    congr 1
    funext m
    rw [hg m]
  induction h with
  | nil n => exact .nil n
  | outside hp ho _ ih => exact .outside ((hplace _).trans hp) ((hoffset _).trans ho) ih
  | override hp hi hf ho _ ih =>
    exact .override ((hplace _).trans hp) ((hfind _).trans hi) ((hfinal _).trans hf)
      ((hoffset _).trans ho) ih
  | new hp hi ho _ ih =>
    exact .new ((hplace _).trans hp) ((hfind _).trans hi) ((hoffset _).trans ho) ih

theorem IsTable.map {ms table : List Method} (h : IsTable inherited ms table) :
    IsTable (inherited.map g) (ms.map g) (table.map g) := by
  intro i
  have hcomp : (fun m : Method => m.offset == some i) ∘ g = fun m => m.offset == some i := by
    funext m
    rw [Function.comp_apply, hg m]
  rw [getElem?_map, h i, ← map_reverse, find?_map, hcomp, getElem?_map]
  cases ms.reverse.find? (·.offset == some i) <;> rfl

end

/-! ## Order -/

inductive Ancestry (r : Registry) (c : Class) : Prop where
  | root : c.superclass = none → c.isArray = false → c.display = [c.id] →
      Arranged c.isInterface [] 0 (r.declares c) → IsTable [] (r.declares c) (r.table c) →
      Ancestry r c
  | linked {s : Class} : c.superclass = some s.id → r.class? s.id = some s → s.id < c.id →
      c.isArray = false → has s.flags isFinal = false →
      c.display = s.display ++ [c.id] → (∀ i ∈ s.implemented, i ∈ c.implemented) →
      Arranged c.isInterface (r.table s) (r.table s).length (r.declares c) →
      IsTable (r.table s) (r.declares c) (r.table c) → Ancestry r c
  | array {s : Class} : c.superclass = some s.id → r.class? s.id = some s → s.id < c.id →
      c.isArray = true → has c.flags isFinal = true → c.methods = [] →
      c.interfaces = [] → s.superclass = none → s.interfaces = [] →
      c.display = s.display ++ [c.id] → r.table c = r.table s →
      (∀ i ∈ c.component?, ∃ k, r.class? i = some k) → Ancestry r c

structure Formed (r : Registry) (n : Nat) (c : Class) : Prop where
  id : c.id = n
  methods : ∀ k ∈ c.methods, ∃ m, r.method? k = some m ∧ m.owner = n
  slots : ∀ k ∈ c.slotMethods, ∃ m, r.method? k = some m
  interfaces : ∀ i : Nat, i ∈ c.interfaces → i < n ∧ ∃ ic, r.class? i = some ic
  ancestry : Ancestry r c

/-- All classes and methods are in order, and the first class is the root. -/
structure Orderly (r : Registry) : Prop where
  formed : ∀ n c, r.class? n = some c → r.Formed n c
  methodId : ∀ n m, r.method? n = some m → m.id = n
  root : r.classes = #[] ∨ ∃ object, r.loaded? objectClass = some object ∧
    object.superclass = none ∧ object.interfaces = []

structure Below (c s : Class) : Prop where
  lt : s.id < c.id
  plain : s.isArray = false
  display : c.display = s.display ++ [c.id]
  linked : c.isArray = false →
    has s.flags isFinal = false ∧ ∀ i ∈ s.implemented, i ∈ c.implemented
  array : c.isArray = true → s.superclass = none

theorem Orderly.exists_below (h : r.Orderly) {k : Nat} (hc : r.class? n = some c)
    (hs : c.superclass = some k) : ∃ s, r.class? k = some s ∧ s.id = k ∧ Below c s := by
  cases (h.formed n c hc).ancestry with
  | root hnone =>
    rw [hnone] at hs
    cases hs
  | @linked s hs' hclass hlt hplain hfinal hdisplay himpl =>
    obtain rfl := Option.some.inj (hs'.symm.trans hs)
    refine ⟨s, hclass, rfl, hlt, ?_, hdisplay, fun _ => ⟨hfinal, himpl⟩, by simp [hplain]⟩
    cases (h.formed _ _ hclass).ancestry with
    | root _ hplain | linked _ _ _ hplain => exact hplain
    | array _ _ _ _ hfinal' =>
      rw [hfinal] at hfinal'
      cases hfinal'
  | @array s hs' hclass hlt harray _ _ _ hroot _ hdisplay =>
    obtain rfl := Option.some.inj (hs'.symm.trans hs)
    refine ⟨s, hclass, rfl, hlt, ?_, hdisplay, by simp [harray], fun _ => hroot⟩
    cases (h.formed _ _ hclass).ancestry with
    | root _ hplain => exact hplain
    | linked hsuper | array hsuper =>
      rw [hroot] at hsuper
      cases hsuper

theorem Orderly.below (h : r.Orderly) {s : Class} (hc : r.class? n = some c)
    (hs : c.superclass = some s.id) (hclass : r.class? s.id = some s) : Below c s := by
  obtain ⟨s', hs', -, hbelow⟩ := h.exists_below hc hs
  rw [hclass, Option.some.injEq] at hs'
  exact hs' ▸ hbelow

theorem filterMap_method {g : Method → Method}
    (hg : ∀ n m, r.method? n = some m → r'.method? n = some (g m))
    (h : ∀ k ∈ ids, ∃ m, r.method? k = some m) :
    ids.filterMap r'.method? = (ids.filterMap r.method?).map g := by
  rw [map_filterMap]
  refine filterMap_congr fun k hk => ?_
  obtain ⟨m, hm⟩ := h k hk
  rw [hg k m hm, hm, Option.map_some]

theorem Keeps.entries (h : r.Keeps r') (hid : ∀ n m, r.method? n = some m → m.id = n) :
    ∃ g : Method → Method, (∀ m : Method, m.SameLink (g m)) ∧
      ∀ n m, r.method? n = some m → r'.method? n = some (g m) := by
  refine ⟨fun m => { m with entry := ((r'.method? m.id).map (·.entry)).getD m.entry },
    fun m => rfl, fun n m hm => ?_⟩
  obtain ⟨m', hm', hsame⟩ := h.methods n m hm
  have hid' : m.id = n := hid n m hm
  simp only [hid', hm']
  exact congrArg some (hid' ▸ hsame)

theorem Formed.keep {c' : Class} (hc : r.Formed n c)
    (hr : ∀ n c, r.class? n = some c → r.Formed n c) (hid : ∀ n m, r.method? n = some m → m.id = n)
    (h : r.Keeps r') (hsame : c.SameLink c') : r'.Formed n c' := by
  obtain ⟨g, hg, hmethods⟩ := h.entries hid
  have htable : ∀ {n : Nat} {c c' : Class}, r.Formed n c → c.SameLink c' →
      r'.table c' = (r.table c).map g := by
    intro n c c' hc hsame
    rw [hsame]
    exact filterMap_method hmethods hc.slots
  have hdeclares : r'.declares c' = (r.declares c).map g := by
    rw [hsame]
    exact filterMap_method hmethods fun k hk => (hc.methods k hk).imp fun _ => And.left
  have hsuper : ∀ {s : Class}, r.class? s.id = some s → ∃ s', r'.class? s.id = some s' ∧
      s.SameLink s' ∧ s'.id = s.id ∧ r'.table s' = (r.table s).map g := by
    intro s hs
    obtain ⟨s', hs', hsame'⟩ := h.classes _ s hs
    exact ⟨s', hs', hsame', by rw [hsame'], htable (hr _ s hs) hsame'⟩
  refine ⟨?_, fun k hk => ?_, fun k hk => ?_, fun i hi => ?_, ?_⟩
  · rw [hsame]
    exact hc.id
  · rw [hsame] at hk
    obtain ⟨m, hm, howner⟩ := hc.methods k hk
    refine ⟨g m, hmethods k m hm, ?_⟩
    rw [hg m]
    exact howner
  · rw [hsame] at hk
    obtain ⟨m, hm⟩ := hc.slots k hk
    exact ⟨g m, hmethods k m hm⟩
  · rw [hsame] at hi
    obtain ⟨hlt, ic, hic⟩ := hc.interfaces i hi
    obtain ⟨ic', hic', -⟩ := h.classes i ic hic
    exact ⟨hlt, ic', hic'⟩
  · have htable' := htable hc hsame
    rw [hsame] at htable' hdeclares ⊢
    cases hc.ancestry with
    | root hnone hplain hdisplay harranged htab =>
      refine .root hnone hplain hdisplay ?_ ?_
      · rw [hdeclares]
        exact harranged.map hg
      · rw [hdeclares, htable']
        exact htab.map hg
    | linked hs hclass hlt hplain hfinal hdisplay himpl harranged htab =>
      obtain ⟨s', hs', hsame', hid', hstable⟩ := hsuper hclass
      refine .linked (hid' ▸ hs) (hid' ▸ hs') (hid' ▸ hlt) hplain ?_ ?_ ?_ ?_ ?_
      · rw [hsame']
        exact hfinal
      · rw [hsame']
        exact hdisplay
      · rw [hsame']
        exact himpl
      · have hmap := harranged.map hg
        rw [← length_map g] at hmap
        rw [hdeclares, hstable]
        exact hmap
      · rw [hdeclares, htable', hstable]
        exact htab.map hg
    | array hs hclass hlt harray hfinal hnone hno hsnone hsno hdisplay htab hcomponent =>
      obtain ⟨s', hs', hsame', hid', hstable⟩ := hsuper hclass
      refine .array (hid' ▸ hs) (hid' ▸ hs') (hid' ▸ hlt) harray hfinal hnone hno ?_ ?_ ?_ ?_
        fun i hi => ?_
      · rw [hsame']
        exact hsnone
      · rw [hsame']
        exact hsno
      · rw [hsame']
        exact hdisplay
      · rw [htable', hstable, htab]
      · obtain ⟨k, hk⟩ := hcomponent i hi
        exact (h.classes i k hk).imp fun _ => And.left

theorem class_le_size (h : r.class? n = some c) : n ≤ r.classes.size := by
  unfold class? at h
  split at h
  · cases h
  · have hlt := (Array.getElem?_eq_some_iff.mp h).1
    omega

theorem Orderly.of_loaded (h : r.Orderly) {name : String} (hc : r.loaded? name = some c) :
    r.class? c.id = some c ∧ c.name = name := by
  have hname : c.name = name := by simpa using Array.find?_some hc
  obtain ⟨i, hi⟩ := Array.mem_iff_getElem?.mp (Array.mem_of_find?_eq_some hc)
  have hclass : r.class? (i + 1) = some c := by
    unfold class?
    rw [if_neg (Nat.succ_ne_zero i), Nat.add_sub_cancel, hi]
  rw [(h.formed (i + 1) c hclass).id]
  exact ⟨hclass, hname⟩

theorem getElem_filterMap (h : ∀ k ∈ ids, ∃ m, r.method? k = some m) (i : Nat) :
    (ids.filterMap r.method?)[i]? = ids[i]?.bind r.method? := by
  induction ids generalizing i with
  | nil => rfl
  | cons k ids ih =>
    obtain ⟨m, hm⟩ := h k mem_cons_self
    rw [filterMap_cons_some hm]
    cases i with
    | zero => exact hm.symm
    | succ i => exact ih (fun k hk => h k (mem_cons_of_mem _ hk)) i

def slot? (r : Registry) (c : Class) (i : Nat) : Option Method := (c.slotMethod? i).bind r.method?

theorem Orderly.slot_eq (h : r.Orderly) (hc : r.class? c.id = some c) (i : Nat) :
    r.slot? c i = (r.table c)[i]? := by
  rw [table, getElem_filterMap (h.formed _ c hc).slots, slot?, Class.slotMethod?, Class.slotMethods,
    getElem?_map, Array.getElem?_toList]

theorem length_filterMap (h : ∀ k ∈ ids, ∃ m, r.method? k = some m) :
    (ids.filterMap r.method?).length = ids.length :=
  filterMap_length_eq_length.mpr fun k hk => Option.isSome_iff_exists.mpr (h k hk)

theorem filterMap_ids {ms : List Method} (h : ∀ m ∈ ms, r.method? m.id = some m) :
    (ms.map (·.id)).filterMap r.method? = ms := by
  rw [filterMap_map]
  exact (filterMap_congr h).trans filterMap_some

theorem Orderly.root_keep (h : r.Orderly) (hkeeps : r.Keeps r')
    (hempty : r.classes = #[] → r'.classes = #[] ∨ ∃ object, r'.loaded? objectClass = some object ∧
      object.superclass = none ∧ object.interfaces = []) :
    r'.classes = #[] ∨ ∃ object, r'.loaded? objectClass = some object ∧
      object.superclass = none ∧ object.interfaces = [] := by
  rcases h.root with hnone | ⟨object, hobject, hrest⟩
  · exact hempty hnone
  · obtain ⟨object', hobject', hsame⟩ := hkeeps.names _ _ hobject
    refine .inr ⟨object', hobject', ?_⟩
    rw [hsame]
    exact hrest

/-! ## Array classes -/

theorem Orderly.addArray (h : r.Orderly) {object : Class} (component : FieldType)
    (cls : Option ClassId) (hobject : r.loaded? objectClass = some object)
    (hcls : ∀ i ∈ cls, ∃ name c, r.loaded? name = some c ∧ c.id = i) :
    (r.addArray object component cls).2.Orderly := by
  set a := makeArray object component cls (r.classes.size + 1) with ha
  have hkeeps : r.Keeps ⟨r.classes.push a, r.methods⟩ := keeps_addArray object component cls
  have hroot : object.superclass = none ∧ object.interfaces = [] := by
    rcases h.root with hempty | ⟨object', hobject', hrest⟩
    · rw [loaded?, hempty] at hobject
      cases hobject
    · rw [hobject, Option.some.injEq] at hobject'
      rwa [hobject']
  obtain ⟨hclass, -⟩ := h.of_loaded hobject
  have hformed := h.formed _ object hclass
  have hslots : a.slotMethods = object.slotMethods := by simp [Class.slotMethods, ha, makeArray]
  have hdisplay : object.display = [object.id] := by
    cases hformed.ancestry with
    | root _ _ hdisplay => exact hdisplay
    | linked hs | array hs => rw [hroot.1] at hs; cases hs
  refine ⟨fun n c hc => ?_, h.methodId, h.root_keep hkeeps fun hempty => ?_⟩
  · change (⟨r.classes.push a, r.methods⟩ : Registry).class? n = some c at hc
    rw [class_push] at hc
    split at hc
    · rename_i hn
      cases hc
      refine ⟨hn.symm, by rintro _ ⟨⟩, ?_, by rintro _ ⟨⟩, ?_⟩
      · rw [hslots]
        exact hformed.slots
      · refine .array rfl (class_push_old hclass)
          (Nat.lt_succ_of_le (class_le_size hclass)) rfl ?_ rfl rfl hroot.1 hroot.2 ?_ ?_
          fun i hi => ?_
        · change has (isPublic ||| isFinal) isFinal = true
          decide
        · rw [hdisplay]
          rfl
        · rw [table, hslots]
          rfl
        · obtain ⟨name, k, hk, rfl⟩ := hcls i hi
          exact ⟨k, class_push_old (h.of_loaded hk).1⟩
    · exact (h.formed n c hc).keep h.formed h.methodId hkeeps .refl
  · rw [loaded?, hempty] at hobject
    cases hobject

/-! ## Linked classes -/

section

variable {d : ClassDef} {s : Option Class} {is : List Class} {c : Class} {i : ClassId}

theorem method_link {placed : List PlacedMethod} {cls : ClassId} {cs : Array Class} :
    let methods := placed.zipIdx.map fun p => linkMethod cls d (r.methods.size + p.2) p.1
    ∀ m ∈ methods, (⟨cs, r.methods ++ methods.toArray⟩ : Registry).method? m.id = some m := by
  intro methods m hm
  obtain ⟨⟨p, i⟩, hp, rfl⟩ := mem_map.mp hm
  have hget : methods[i]? = some (linkMethod cls d (r.methods.size + i) p) := by
    rw [mem_zipIdx_iff_getElem?] at hp
    rw [getElem?_map, getElem?_zipIdx, hp]
    simp
  change (r.methods ++ methods.toArray)[r.methods.size + i]? = _
  rw [Array.getElem?_append_right (Nat.le_add_right _ _), Nat.add_sub_cancel_left,
    getElem?_toArray, hget]

theorem Linked.kind (h : Linked r d s is c r') :
    c.isInterface = has d.flags isInterface ∧ c.isArray = false := by
  obtain ⟨-, placed, -, -, -, hc⟩ := link_ok h.link
  rw [hc]
  cases has d.flags isInterface <;> exact ⟨rfl, rfl⟩

def inheritedSlots (s : Option Class) : List MethodId := (s.map (·.slotMethods)).getD []

theorem link_tables (hids : ∀ k ∈ inheritedSlots s, ∃ m, r.method? k = some m)
    (h : Linked r d s is c r') : (∀ k m, r.method? k = some m → r'.method? k = some m) ∧
    (∀ k m, r'.method? k = some m → r.method? k = some m ∨ m.id = k) ∧
    (∀ k ∈ c.methods, ∃ m, r'.method? k = some m ∧ m.owner = r.classes.size + 1) ∧
    (∀ k ∈ c.slotMethods, ∃ m, r'.method? k = some m) ∧
    Arranged c.isInterface ((inheritedSlots s).filterMap r.method?)
      ((inheritedSlots s).filterMap r.method?).length (r'.declares c) ∧
    IsTable ((inheritedSlots s).filterMap r.method?) (r'.declares c) (r'.table c) := by
  obtain ⟨-, placed, -, hplaced, hr', hc⟩ := link_ok h.link
  set methods := placed.zipIdx.map fun p =>
    linkMethod (r.classes.size + 1) d (r.methods.size + p.2) p.1 with hmethods
  have hold : ∀ k m, r.method? k = some m → r'.method? k = some m := by
    intro k m hm
    rw [hr']
    exact (Array.getElem?_append_left (Array.getElem?_eq_some_iff.mp hm).1).trans hm
  have hnew : ∀ m ∈ methods, r'.method? m.id = some m := by
    rw [hr']
    exact method_link
  have hdeclares : r'.declares c = methods := by
    rw [hc]
    exact filterMap_ids hnew
  have harranged : Arranged (has d.flags isInterface)
      ((inheritedSlots s).filterMap r.method?) (inheritedSlots s).length methods :=
    arranged_placeMethods hplaced _ d r.methods.size 0
  have hlength := length_filterMap hids
  have hslots : c.slotMethods = (methods.foldl installMethod (inheritedSlots s).toArray).toList := by
    rw [hc, Class.slotMethods]
    rw [Array.toList_map, map_map]
    exact map_id _
  have hget : ∀ i : Nat, c.slotMethods[i]? =
      ((methods.reverse.find? (·.offset == some i)).map (·.id)).or (inheritedSlots s)[i]? := by
    intro i
    have hfit : Fit (inheritedSlots s).toArray.size methods := harranged.fit (Nat.le_of_eq hlength)
    rw [hslots, Array.getElem?_toList, getElem_installed hfit i, getElem?_toArray]
  have hvalid : ∀ k ∈ c.slotMethods, ∃ m, r'.method? k = some m := by
    intro k hk
    obtain ⟨i, hi⟩ := mem_iff_getElem?.mp hk
    rw [hget] at hi
    cases hfind : methods.reverse.find? (·.offset == some i) with
    | some m =>
      rw [hfind] at hi
      cases hi
      exact ⟨m, hnew m (mem_reverse.mp (mem_of_find?_eq_some hfind))⟩
    | none =>
      rw [hfind] at hi
      obtain ⟨m, hm⟩ := hids k (mem_of_getElem? hi)
      exact ⟨m, hold k m hm⟩
  refine ⟨hold, fun k m hm => ?_, fun k hk => ?_, hvalid, ?_, fun i => ?_⟩
  · rw [hr'] at hm
    change (r.methods ++ methods.toArray)[k]? = some m at hm
    rw [Array.getElem?_append] at hm
    split at hm
    · exact .inl hm
    · rename_i hlt
      rw [getElem?_toArray, getElem?_map, getElem?_zipIdx] at hm
      obtain ⟨p, hp, rfl⟩ := Option.map_eq_some_iff.mp hm
      obtain ⟨q, -, rfl⟩ := Option.map_eq_some_iff.mp hp
      refine .inr ?_
      change r.methods.size + (0 + (k - r.methods.size)) = k
      have hle : r.methods.size ≤ k := Nat.not_lt.mp hlt
      rw [Nat.zero_add, Nat.add_sub_cancel' hle]
  · rw [hc] at hk
    obtain ⟨m, hm, rfl⟩ := mem_map.mp hk
    obtain ⟨p, -, rfl⟩ := mem_map.mp hm
    exact ⟨_, hnew _ hm, rfl⟩
  · rw [h.kind.1, hdeclares, hlength]
    exact harranged
  · rw [hdeclares, table, getElem_filterMap hvalid, hget, getElem_filterMap hids]
    cases hfind : methods.reverse.find? (·.offset == some i) with
    | some m => exact hnew m (mem_reverse.mp (mem_of_find?_eq_some hfind))
    | none =>
      cases hid : (inheritedSlots s)[i]? with
      | none => rfl
      | some k =>
        obtain ⟨m, hm⟩ := hids k (mem_of_getElem? hid)
        exact (hold k m hm).trans hm.symm

theorem mem_unionIds {a b : List ClassId} (h : i ∈ a) : i ∈ unionIds a b := mem_append_left _ h

theorem mem_foldl_unionIds {a : List ClassId} (h : i ∈ a) :
    i ∈ is.foldl (fun s c => unionIds s c.implemented) a := by
  induction is generalizing a with
  | nil => exact h
  | cons c is ih => exact ih (mem_unionIds h)

theorem Orderly.link (h : r.Orderly) (hl : Linked r d s is c r') : r'.Orderly := by
  have hids : ∀ k ∈ inheritedSlots s, ∃ m, r.method? k = some m := by
    cases s with
    | none => nofun
    | some sc =>
      obtain ⟨⟨name, hname⟩, -⟩ := hl.superclass sc rfl
      exact (h.formed _ sc (h.of_loaded hname).1).slots
  obtain ⟨hold, hnew, hmethods, hslots, harranged, htable⟩ := link_tables hids hl
  obtain ⟨-, placed, -, -, hr', hc⟩ := link_ok hl.link
  have hkeeps := hl.keeps
  have hid : c.id = r.classes.size + 1 := by rw [hc]
  refine ⟨fun n c' hc' => ?_, fun n m hm => ?_, h.root_keep hkeeps fun hempty => ?_⟩
  · rw [hr', class_push] at hc'
    split at hc'
    · rename_i hn
      cases hc'
      refine ⟨hid.trans hn.symm, hn ▸ hmethods, hslots, fun i hi => ?_, ?_⟩
      · rw [hc] at hi
        obtain ⟨ic, hic, rfl⟩ := mem_map.mp hi
        obtain ⟨⟨name, hname⟩, -⟩ := hl.interfaces ic hic
        obtain ⟨hclass, -⟩ := h.of_loaded hname
        rw [hn]
        exact ⟨Nat.lt_succ_of_le (class_le_size hclass), ic, hr' ▸ class_push_old hclass⟩
      · cases s with
        | none =>
          refine .root ?_ hl.kind.2 ?_ harranged htable
          · rw [hc]
            rfl
          · rw [hc]
            rfl
        | some sc =>
          obtain ⟨⟨name, hname⟩, -, hfinal⟩ := hl.superclass sc rfl
          obtain ⟨hclass, -⟩ := h.of_loaded hname
          have hinherited : r'.table sc = (inheritedSlots (some sc)).filterMap r.method? := by
            rw [table, filterMap_method (g := id) hold (h.formed _ sc hclass).slots, map_id]
            rfl
          refine .linked ?_ (hr' ▸ class_push_old hclass) ?_ hl.kind.2 hfinal ?_ ?_ ?_ ?_
          · rw [hc]
            rfl
          · rw [hid]
            exact Nat.lt_succ_of_le (class_le_size hclass)
          · rw [hc]
            rfl
          · intro i hi
            rw [hc]
            split
            · exact mem_unionIds (mem_foldl_unionIds hi)
            · exact mem_foldl_unionIds hi
          · rw [hinherited]
            exact harranged
          · rw [hinherited]
            exact htable
    · exact (h.formed n c' hc').keep h.formed h.methodId hkeeps .refl
  · rcases hnew n m hm with hm' | hid'
    · exact h.methodId n m hm'
    · exact hid'
  · -- nothing is found by name before the first class, so it has no superclass and no interfaces
    have hnone : ∀ {name : String} {k : Class}, r.loaded? name ≠ some k := by
      intro name k hk
      rw [loaded?, hempty] at hk
      cases hk
    have hs : s = none := by
      cases s with
      | none => rfl
      | some sc =>
        obtain ⟨⟨name, hname⟩, -⟩ := hl.superclass sc rfl
        exact absurd hname hnone
    have his : is = [] := by
      cases is with
      | nil => rfl
      | cons ic is =>
        obtain ⟨⟨name, hname⟩, -⟩ := hl.interfaces ic mem_cons_self
        exact absurd hname hnone
    refine .inr ⟨c, ?_, by rw [hc, hs]; rfl, by rw [hc, his]; rfl⟩
    have hname : c.name = objectClass := by
      rw [hc]
      exact (hl.root hs).1
    rw [hr', loaded?, hempty]
    simp [hname]

end

theorem Orderly.modifyClass (h : r.Orderly) (id : ClassId) {f : Class → Class}
    (hf : ∀ c : Class, c.SameLink (f c)) : (r.modifyClass id f).Orderly := by
  have hkeeps := keeps_modifyClass (r := r) id hf
  refine ⟨fun n c' hc' => ?_, fun n m hm => ?_, h.root_keep hkeeps fun hempty => .inl ?_⟩
  · rw [class_modifyClass] at hc'
    split at hc'
    · obtain ⟨c, hc, rfl⟩ := Option.map_eq_some_iff.mp hc'
      exact (h.formed n c hc).keep h.formed h.methodId hkeeps (hf c)
    · exact (h.formed n c' hc').keep h.formed h.methodId hkeeps .refl
  · refine h.methodId n m ?_
    unfold Registry.modifyClass at hm
    split at hm <;> exact hm
  · unfold Registry.modifyClass
    split
    · exact hempty
    · simp [hempty]

theorem Orderly.modifyMethod (h : r.Orderly) (id : MethodId)
    (hf : ∀ m : Method, m.SameLink (f m)) : (r.modifyMethod id f).Orderly := by
  have hkeeps := keeps_modifyMethod (r := r) id hf
  refine ⟨fun n c hc => ?_, fun n m hm => ?_, h.root_keep hkeeps .inl⟩
  · exact (h.formed n c hc).keep h.formed h.methodId hkeeps .refl
  · rw [method_modifyMethod] at hm
    split at hm
    · obtain ⟨m', hm', rfl⟩ := Option.map_eq_some_iff.mp hm
      rw [hf m']
      exact h.methodId n m' hm'
    · exact h.methodId n m hm

theorem Built.orderly (h : r.Built) : r.Orderly := by
  refine h.induction ⟨?_, nofun, .inl rfl⟩ ?_ ?_ ?_ ?_
  · intro n c hc
    unfold class? at hc
    split at hc <;> cases hc
  · exact fun r object component cls ih hobject hcls => ih.addArray component cls hobject hcls
  · exact fun r d s is c r' ih hlinked => ih.link hlinked
  · exact fun r id f ih hf => ih.modifyClass id hf
  · exact fun r id f ih hf => ih.modifyMethod id hf

/-- What holds of each class when it comes into being, and is kept with the class, holds of all
classes. -/
theorem Built.forall_class {P : Registry → Class → Prop}
    (hkeep : ∀ {r r' : Registry} {c c' : Class}, r.Orderly → r'.Orderly → r.class? c.id = some c →
      r'.class? c'.id = some c' → r.Keeps r' → c.SameLink c' → P r c → P r' c')
    (harray : ∀ {r : Registry} {object : Class} (component : FieldType) (cls : Option ClassId),
      r.Orderly → r.loaded? objectClass = some object → (∀ i ∈ cls, ∃ name c, r.loaded? name = some c ∧ c.id = i) →
        P (r.addArray object component cls).2 (makeArray object component cls (r.classes.size + 1)))
    (hlink : ∀ {r r' : Registry} {d s is c}, r.Orderly → (∀ n c, r.class? n = some c → P r c) →
      Linked r d s is c r' → P r' c) (h : r.Built) (hc : r.class? n = some c) : P r c := by
  suffices hall : r.Orderly ∧ ∀ n c, r.class? n = some c → P r c from hall.2 n c hc
  -- what is not new comes from a class under the same number
  have hstep : ∀ {r r' : Registry}, r.Orderly ∧ (∀ n c, r.class? n = some c → P r c) → r'.Orderly →
      r.Keeps r' → (∀ n c', r'.class? n = some c' → P r' c' ∨ ∃ c, r.class? n = some c) →
      r'.Orderly ∧ ∀ n c', r'.class? n = some c' → P r' c' := by
    intro r r' ⟨ho, hr⟩ ho' hk hold
    refine ⟨ho', fun n c' hc' => ?_⟩
    rcases hold n c' hc' with hnew | ⟨c, hc⟩
    · exact hnew
    · obtain ⟨c'', hc'', hsame⟩ := hk.classes n c hc
      cases hc'.symm.trans hc''
      refine hkeep ho ho' ?_ ?_ hk hsame (hr n c hc)
      · rw [(ho.formed n c hc).id, hc]
      · rw [(ho'.formed n c' hc').id, hc']
  refine h.induction (P := fun r => r.Orderly ∧ ∀ n c, r.class? n = some c → P r c)
    ⟨Built.orderly .same, fun n c hc => ?_⟩ ?_ ?_ ?_ ?_
  · unfold class? at hc
    split at hc <;> cases hc
  · intro r object component cls hr hobject hcls
    refine hstep hr (hr.1.addArray component cls hobject hcls) (keeps_addArray ..) fun n c hc => ?_
    rw [show (r.addArray object component cls).2.class? n = _ from class_push] at hc
    split at hc
    · cases hc
      exact .inl (harray component cls hr.1 hobject hcls)
    · exact .inr ⟨c, hc⟩
  · intro r d s is new r' hr hlinked
    refine hstep hr (hr.1.link hlinked) hlinked.keeps fun n c hc => ?_
    obtain ⟨-, placed, -, -, hr', -⟩ := link_ok hlinked.link
    rw [hr', class_push] at hc
    split at hc
    · cases hc
      exact .inl (hlink hr.1 hr.2 hlinked)
    · exact .inr ⟨c, hc⟩
  · intro r id f hr hf
    refine hstep hr (hr.1.modifyClass id hf) (keeps_modifyClass id hf) fun n c hc => .inr ?_
    rw [class_modifyClass] at hc
    split at hc
    · exact (Option.map_eq_some_iff.mp hc).imp fun _ => And.left
    · exact ⟨c, hc⟩
  · exact fun r id f hr hf => hstep hr (hr.1.modifyMethod id hf) (keeps_modifyMethod id hf)
      fun n c hc => .inr ⟨c, hc⟩

end Registry

end ManagedCore
