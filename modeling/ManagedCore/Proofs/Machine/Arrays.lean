import ManagedCore.Proofs.Class.Subtypes
import ManagedCore.Proofs.Machine.Exceptions
import ManagedCore.Proofs.Machine.Start

/-!
# Nested arrays

An array of arrays is built from the outside in, each array before its elements. Its arrays are new
and have consecutive numbers, and the heap counts their bytes. The class of an array in a registry
has as many dimensions as there are classes of arrays on the way along the components.
-/

namespace ManagedCore

/-- An array class and the length of its arrays. -/
structure Dimension where
  cls : Class
  kind : ElementKind
  element : cls.element? = some kind
  length : Int32
  nonneg : 0 ≤ length.toInt

namespace Dimension

variable {d : Dimension} {ds : List Dimension} {base i : Nat}

def size (d : Dimension) : Nat := d.length.toInt.toNat

def cost (d : Dimension) : Nat := Heap.arraySize d.kind d.size

/-- An array as it is allocated. -/
def blank (d : Dimension) : Object := Heap.arrayOf d.cls.ref d.kind d.size

/-- The elements of the arrays of the one are arrays of the other. -/
def Holds (r : Registry) (d e : Dimension) : Prop :=
  ∃ i, d.cls.component? = some i ∧ r.class? i = some e.cls

def count : List Dimension → Nat
  | [] => 0
  | d :: ds => 1 + d.size * count ds

def bytes : List Dimension → Nat
  | [] => 0
  | d :: ds => d.cost + d.size * bytes ds

def elements (d : Dimension) (ds : List Dimension) (base i : Nat) : Array Value :=
  Array.ofFn fun j : Fin d.size =>
    if j < i then .obj (base + 1 + j * count ds) else .zero d.kind.valueType

/-- An array with its first `i` elements in place. -/
def outer (d : Dimension) (ds : List Dimension) (base i : Nat) : Object :=
  { cls := d.cls.ref, content := .array d.kind (d.elements ds base i) }

/-- All arrays in the order of their numbers, which start at `base`. -/
def arrays (base : Nat) : List Dimension → List Object
  | [] => []
  | d :: ds => d.outer ds base (if ds.isEmpty then 0 else d.size) ::
      (List.range d.size).flatMap fun j => arrays (base + 1 + j * count ds) ds

/-- The arrays in the first `i` elements of an array. -/
def nested (ds : List Dimension) (base i : Nat) : List Object :=
  (List.range i).flatMap fun j => arrays (base + 1 + j * count ds) ds

theorem length_arrays (base : Nat) (ds : List Dimension) : (arrays base ds).length = count ds := by
  induction ds generalizing base with
  | nil => rfl
  | cons d ds ih => simp [arrays, count, ih, Nat.add_comm]

theorem length_nested : (nested ds base i).length = i * count ds := by
  simp [nested, length_arrays]

theorem nested_succ :
    nested ds base (i + 1) = nested ds base i ++ arrays (base + 1 + i * count ds) ds := by
  rw [nested, List.range_succ, List.flatMap_append, List.flatMap_singleton]
  rfl

theorem storeElement_outer (hi : i < d.size) :
    Exec.storeElement i (.obj (base + 1 + i * count ds)) (d.outer ds base i) =
      d.outer ds base (i + 1) := by
  have hdata : (d.elements ds base i).setIfInBounds i (.obj (base + 1 + i * count ds)) =
      d.elements ds base (i + 1) := by
    apply Array.ext_getElem?
    intro j
    simp only [elements, Array.getElem?_setIfInBounds, Array.getElem?_ofFn, Array.size_ofFn]
    grind
  exact congrArg (fun data => ({ cls := d.cls.ref, content := .array d.kind data } : Object)) hdata

theorem outer_zero : d.outer ds base 0 = d.blank := by
  have hdata : d.elements ds base 0 = Array.replicate d.size (Value.zero d.kind.valueType) := by
    apply Array.ext <;> simp [elements]
  rw [outer, hdata]
  rfl

end Dimension

open Dimension

/-! ## Dimensions of classes -/

namespace Registry

variable {r : Registry} {c : Class} {fuel : Nat}

/-- How many dimensions the arrays of a class have. The class of their components has a smaller
number, so the number of the class is fuel enough. -/
def rankFrom (r : Registry) : Nat → Class → Nat
  | 0, _ => 0
  | fuel + 1, c =>
    if c.isArray then (c.component?.bind r.class?).elim 1 (r.rankFrom fuel · + 1) else 0

def rank (r : Registry) (c : Class) : Nat := r.rankFrom c.id c

theorem Built.rankFrom_eq (h : r.Built) {fuel' : Nat} (hc : r.class? c.id = some c)
    (hle : c.id ≤ fuel) (hle' : c.id ≤ fuel') : r.rankFrom fuel c = r.rankFrom fuel' c := by
  induction fuel generalizing c fuel' with
  | zero => exact absurd (Nat.le_zero.mp hle) (id_ne_zero hc)
  | succ fuel ih =>
    obtain ⟨n, rfl⟩ : ∃ n, fuel' = n + 1 :=
      Nat.exists_eq_succ_of_ne_zero fun hzero => id_ne_zero hc (Nat.le_zero.mp (hzero ▸ hle'))
    rw [rankFrom, rankFrom]
    cases hk : c.component?.bind r.class? with
    | none => rfl
    | some k =>
      obtain ⟨i, hi, hk⟩ := Option.bind_eq_some_iff.mp hk
      obtain rfl := (h.orderly.formed i k hk).id
      have hlt := (h.recorded hc).component k.id hi
      have hsame : r.rankFrom fuel k = r.rankFrom n k := ih hk
        (Nat.le_of_lt_succ (Nat.lt_of_lt_of_le hlt hle))
        (Nat.le_of_lt_succ (Nat.lt_of_lt_of_le hlt hle'))
      simp only [Option.elim, hsame]

/-- The components of an array have one dimension less. -/
theorem Built.rank_component (h : r.Built) {i : ClassId} (hc : r.class? c.id = some c)
    (hi : c.component? = some i) : ∃ k, r.class? i = some k ∧ r.rank c = r.rank k + 1 := by
  obtain ⟨k, hk⟩ := h.orderly.component_known hc i hi
  obtain ⟨n, hn⟩ := Nat.exists_eq_succ_of_ne_zero (id_ne_zero hc)
  obtain rfl := (h.orderly.formed i k hk).id
  have hlt := (h.recorded hc).component k.id hi
  have hsame : r.rankFrom n k = r.rank k :=
    h.rankFrom_eq hk (Nat.le_of_lt_succ (hn ▸ hlt)) le_rfl
  refine ⟨k, hk, ?_⟩
  rw [rank, hn, rankFrom, if_pos (isArray_of_component hi), hi, Option.bind_some, hk, Option.elim,
    hsame]

theorem rank_le_one (hi : c.component? = none) : r.rank c ≤ 1 := by
  unfold rank
  cases c.id with
  | zero => exact Nat.zero_le _
  | succ n =>
    rw [rankFrom, hi]
    split
    · exact le_rfl
    · exact Nat.zero_le _

theorem exists_element (h : 0 < r.rank c) : ∃ k, c.element? = some k := by
  have harray : c.isArray = true := by
    unfold rank at h
    cases hid : c.id with
    | zero => simp [hid, rankFrom] at h
    | succ n =>
      by_contra hno
      simp [hid, rankFrom, hno] at h
  unfold Class.isArray at harray
  unfold Class.element?
  split at harray
  · exact ⟨_, rfl⟩
  · cases harray

/-- Each dimension of an array class is there, down to the last one that has a length. -/
theorem Built.exists_dimensions (h : r.Built) {n : Int32} {ns : List Int32}
    (hc : r.class? c.id = some c) (hrank : (n :: ns).length ≤ r.rank c)
    (hlengths : ∀ k ∈ n :: ns, 0 ≤ k.toInt) : ∃ d ds, d.cls = c ∧
      (d :: ds).map (·.length) = n :: ns ∧ (d :: ds).IsChain (Holds r) := by
  induction ns generalizing c n with
  | nil =>
    obtain ⟨k, hk⟩ := exists_element hrank
    exact ⟨⟨c, k, hk, n, hlengths n List.mem_cons_self⟩, [], rfl, rfl, .singleton _⟩
  | cons n' ns ih =>
    rw [List.length_cons] at hrank
    obtain ⟨k, hk⟩ := exists_element (Nat.lt_of_lt_of_le (Nat.succ_pos _) hrank)
    obtain ⟨hn, hns⟩ := List.forall_mem_cons.mp hlengths
    cases hi : c.component? with
    | none =>
      have hone := rank_le_one (r := r) hi
      rw [List.length_cons] at hrank
      omega
    | some i =>
      obtain ⟨e, he, hrank'⟩ := h.rank_component hc hi
      have hid := (h.orderly.formed i e he).id
      obtain ⟨d, ds, rfl, hds, hchain⟩ := ih (hid ▸ he) (by omega) hns
      exact ⟨⟨c, k, hk, n, hn⟩, d :: ds, rfl, congrArg (n :: ·) hds,
        .cons_cons ⟨i, hi, he⟩ hchain⟩

end Registry

/-! ## New objects -/

/-- The most bytes that a heap counts. -/
def Heap.most : Nat := 18446744073709551615

/-- Whether so many bytes more are within the limit. -/
def Heap.Fits (h : Heap) (n : Nat) : Prop := h.limit = 0 ∨ min (h.allocated + n) most ≤ h.limit

/-- The world with new objects. -/
def World.put (w : World) (os : List Object) (n : Nat) : World :=
  { w with heap := { w.heap with
      objects := w.heap.objects ++ os.toArray, allocated := min (w.heap.allocated + n) Heap.most } }

variable {t : ThreadId} {w w' : World} {os os' : List Object} {m n : Nat}

theorem Heap.Fits.mono {h : Heap} (hfits : h.Fits n) (hmn : m ≤ n) : h.Fits m := by
  unfold Heap.Fits at *
  omega

theorem World.allocateSized_put (w : World) (os : List Object) (m n : Nat) (o : Unit → Object) :
    (w.put os m).heap.allocateSized n o =
    if 0 < w.heap.limit ∧ w.heap.limit < min (w.heap.allocated + (m + n)) Heap.most then
      (.error ⟨n, (w.put os m).heap.allocated, w.heap.limit⟩, (w.put os m).heap)
    else (.ok (w.heap.objects.size + os.length), (w.put (os ++ [o ()]) (m + n)).heap) := by
  have hnext : min ((w.put os m).heap.allocated + n) 18446744073709551615 =
      min (w.heap.allocated + (m + n)) Heap.most := by
    simp only [put, Heap.most]
    omega
  simp only [Heap.allocateSized, Heap.grant, hnext]
  split <;> rename_i h
  · split at h <;> cases h
    exact (if_pos ‹_›).symm
  · split at h <;> cases h
    refine .trans ?_ (if_neg ‹_›).symm
    simp [put, Heap.add]

theorem World.modify_put {o : Object} {f : Object → Object} {k : ObjId}
    (hk : k = w.heap.objects.size + os.length) :
    { w.put (os ++ o :: os') n with heap := (w.put (os ++ o :: os') n).heap.modify k f } =
      w.put (os ++ f o :: os') n := by
  have hobjects : (w.heap.objects ++ (os ++ o :: os').toArray).modify k f =
      w.heap.objects ++ (os ++ f o :: os').toArray := by
    apply Array.ext_getElem?
    intro i
    rw [Array.getElem?_modify]
    grind
  simp only [put, Heap.modify, hobjects]

namespace Exec

variable {α β : Type}

theorem setElement_runOn {o : ObjId} {obj : Object} {i : Nat} {v : Value}
    (ho : w.object? o = some obj) (hn : obj.length? = some n) (hi : i < n) :
    (setElement o i v).runOn t w =
      .ok () { w with heap := w.heap.modify o (storeElement i v) } := by
  have hobject : (object o).runOn t w = .ok obj w := by
    rw [object, get_runOn, ho]
    rfl
  have hlength : (arrayLength o).runOn t w = .ok n w := by
    rw [arrayLength, bind_runOn hobject, hn]
    rfl
  rw [setElement, bind_runOn hlength, if_pos hi]
  rfl

theorem allocating_runOn {full : AllocError → Exec α}
    {alloc : World → Except AllocError α × World} {a : Except AllocError α}
    (h : alloc w = (a, w')) :
    (allocating full alloc).runOn t w = (a.casesOn full pure : Exec α).runOn t w' := by
  have hget : (modifyGet alloc : Exec (Except AllocError α)).runOn t w = .ok a w' := by
    change EStateM.Result.ok (alloc w).1 (alloc w).2 = _
    rw [h]
  rw [allocating, bind_runOn hget]
  cases a <;> rfl

variable (t w) in
/-- From a world with some new objects the computation comes to one with others, and gives `a`. If
their bytes do not fit, it ends in the exception for that, with the counter within its limit. -/
def Makes (os : List Object) (m : Nat) (x : Exec α) (a : α) (os' : List Object) (n : Nat) : Prop :=
  w.heap.Fits m →
    (w.heap.Fits n → x.runOn t (w.put os m) = .ok a (w.put os' n)) ∧
    (¬w.heap.Fits n → ∃ w', x.runOn t (w.put os m) = .error (.thrown w.outOfMemory) w' ∧
      w'.heap.allocated ≤ w'.heap.limit)

theorem Makes.of_ok {x : Exec α} {a : α} (h : x.runOn t (w.put os m) = .ok a (w.put os' m)) :
    Makes t w os m x a os' m :=
  fun hm => ⟨fun _ => h, fun hn => absurd hm hn⟩

theorem Makes.bind {x : Exec α} {f : α → Exec β} {a : α} {b : β} {os₁ : List Object} {n₁ : Nat}
    (hx : Makes t w os m x a os₁ n₁) (hf : Makes t w os₁ n₁ (f a) b os' n) (hn : n₁ ≤ n) :
    Makes t w os m (x >>= f) b os' n := by
  intro hm
  obtain ⟨hok, herror⟩ := hx hm
  by_cases h₁ : w.heap.Fits n₁
  · rw [bind_runOn (hok h₁)]
    exact hf h₁
  · obtain ⟨w', hrun, hw'⟩ := herror h₁
    exact ⟨fun h => absurd (h.mono hn) h₁, fun _ => ⟨w', bind_runOn_error hrun, hw'⟩⟩

variable {d : Dimension} {ds : List Dimension} {base i k : Nat}

theorem makes_allocateArray :
    Makes t w os m (allocating (fun _ => outOfMemory) (·.allocateArray d.cls d.kind d.size))
      (w.heap.objects.size + os.length) (os ++ [d.blank]) (m + d.cost) := by
  intro hm
  have halloc := congrArg (fun p => (p.1, { w.put os m with heap := p.2 }))
    (w.allocateSized_put os m d.cost fun _ => d.blank)
  unfold Heap.Fits at hm ⊢
  split at halloc
  · have hwithin : (w.put os m).heap.allocated ≤ (w.put os m).heap.limit := by
      change min _ _ ≤ w.heap.limit
      omega
    refine ⟨by omega, fun _ => ⟨_, (allocating_runOn halloc).trans (by rfl), ?_⟩⟩
    simp only [World.captureTrace]
    split <;> exact hwithin
  · exact ⟨fun _ => (allocating_runOn halloc).trans (by rfl), by omega⟩

theorem makes_setElement (hbase : base = w.heap.objects.size + os.length) (hi : i < d.size) :
    Makes t w (os ++ d.outer ds base i :: os') m
      (setElement base i (.obj (base + 1 + i * count ds))) ()
      (os ++ d.outer ds base (i + 1) :: os') m := by
  have hobject : (w.put (os ++ d.outer ds base i :: os') m).object? base =
      some (d.outer ds base i) := by
    simp [World.object?, Heap.get?, World.put, hbase]
  refine .of_ok ?_
  rw [setElement_runOn hobject (n := d.size) (by simp [Object.length?, outer, elements]) hi,
    World.modify_put hbase, storeElement_outer hi]

/-- The elements from `i` on are put in place after the first `i`. -/
theorem makes_fillWith (os : List Object) (m : Nat) {x : Exec ObjId}
    (hx : ∀ os m, Makes t w os m x (w.heap.objects.size + os.length)
      (os ++ arrays (w.heap.objects.size + os.length) ds) (m + bytes ds))
    (hbase : base = w.heap.objects.size + os.length) (hk : i + k = d.size) :
    Makes t w (os ++ d.outer ds base i :: nested ds base i) (m + i * bytes ds)
      (fillWith base x i k) () (os ++ d.outer ds base d.size :: nested ds base d.size)
      (m + d.size * bytes ds) := by
  induction k generalizing i with
  | zero =>
    obtain rfl : i = d.size := hk
    exact .of_ok rfl
  | succ k ih =>
    have hle : m + (i + 1) * bytes ds ≤ m + d.size * bytes ds :=
      Nat.add_le_add_left (Nat.mul_le_mul_right _ (by omega)) m
    have helement := hx (os ++ d.outer ds base i :: nested ds base i) (m + i * bytes ds)
    have hsize : w.heap.objects.size + (os ++ d.outer ds base i :: nested ds base i).length =
        base + 1 + i * count ds := by
      simp [hbase, length_nested, Nat.add_assoc, Nat.add_comm]
    rw [hsize, List.append_assoc, List.cons_append, ← nested_succ, Nat.add_assoc m,
      ← Nat.succ_mul] at helement
    exact helement.bind (.bind (makes_setElement hbase (by omega)) (ih (by omega)) hle) hle

/-- One array for each dimension, and in it as many of the next one as it has elements. -/
theorem makes_newArray (hd : (d :: ds).IsChain (Holds w.registry)) (os : List Object) (m : Nat) :
    Makes t w os m (newArray d.cls ((d :: ds).map (·.length))) (w.heap.objects.size + os.length)
      (os ++ arrays (w.heap.objects.size + os.length) (d :: ds)) (m + bytes (d :: ds)) := by
  induction ds generalizing d os m with
  | nil =>
    rw [List.map, newArray, if_neg (Int.not_lt.mpr d.nonneg), d.element]
    have hleaf : arrays (w.heap.objects.size + os.length) [d] = [d.blank] := by
      simp [arrays, outer_zero]
    rw [hleaf]
    exact makes_allocateArray.bind (.of_ok rfl) le_rfl
  | cons e ds ih =>
    obtain ⟨⟨i, hi, hclass⟩, hds⟩ := List.isChain_cons_cons.mp hd
    have hle : m + d.cost ≤ m + bytes (d :: e :: ds) :=
      Nat.add_le_add_left (Nat.le_add_right _ _) m
    rw [List.map, newArray, if_neg (Int.not_lt.mpr d.nonneg), d.element, hi]
    refine makes_allocateArray.bind (.bind (.of_ok (registered_runOn hclass)) ?_ hle) hle
    have hfill := makes_fillWith os (m + d.cost) (ih hds) rfl (Nat.zero_add d.size)
    rw [outer_zero, Nat.zero_mul, Nat.add_assoc m _ (d.size * _)] at hfill
    exact hfill.bind (.of_ok rfl) le_rfl

/-- The first array stands first among the new objects. If the bytes of all do not fit, there is the
exception for that, and a counter within its limit. -/
theorem newArray_nested {c : Class} {len : Int32} {lens : List Int32} (hbuilt : w.registry.Built)
    (hc : w.registry.class? c.id = some c) (hrank : (len :: lens).length ≤ w.registry.rank c)
    (hlengths : ∀ k ∈ len :: lens, 0 ≤ k.toInt) (hmost : w.heap.allocated ≤ Heap.most)
    (hfits : w.heap.Fits 0) : ∃ d ds, d.cls = c ∧ (d :: ds).map (·.length) = len :: lens ∧
    (d :: ds).IsChain (Holds w.registry) ∧
    (w.heap.Fits (bytes (d :: ds)) → w.heap.allocated + bytes (d :: ds) ≤ Heap.most →
      (newArray c (len :: lens)).runOn t w = .ok w.heap.objects.size
        { w with heap := { w.heap with
            objects := w.heap.objects ++ (arrays w.heap.objects.size (d :: ds)).toArray
            allocated := w.heap.allocated + bytes (d :: ds) } }) ∧
    (¬w.heap.Fits (bytes (d :: ds)) → ∃ w',
      (newArray c (len :: lens)).runOn t w = .error (.thrown w.outOfMemory) w' ∧
        w'.heap.allocated ≤ w'.heap.limit) := by
  obtain ⟨d, ds, rfl, hds, hchain⟩ := hbuilt.exists_dimensions hc hrank hlengths
  refine ⟨d, ds, rfl, hds, hchain, ?_⟩
  have hput : w.put [] 0 = w := by simp [World.put, hmost]
  have hmakes := makes_newArray (t := t) hchain [] 0 hfits
  rw [hput, Nat.zero_add, hds] at hmakes
  refine ⟨fun h htotal => ?_, hmakes.2⟩
  rw [← Nat.min_eq_left htotal]
  exact hmakes.1 h

/-- A new engine, and in it the class of arrays of arrays of integers. -/
def grid? : Option (Class × World) :=
  (World.start {}).toOption.bind fun w =>
    let r := (w.registry.arrayClass (.array .int)).2
    (r.loaded? "[[I").map fun c => (c, { w with registry := r })

theorem grid_new : grid?.any (fun p => p.2.registry.rank p.1 = 2 ∧ p.2.heap.limit = 0 ∧
    p.2.heap.allocated ≤ 1000 ∧ p.2.heap.objects.size = 1) = true := by
  decide +kernel

theorem built_grid {c : Class} (h : grid? = some (c, w)) : w.registry.Built ∧
    w.registry.class? c.id = some c := by
  obtain ⟨w₀, hstart, h⟩ := Option.bind_eq_some_iff.mp h
  obtain ⟨c', hc, h⟩ := Option.map_eq_some_iff.mp h
  cases h
  have hcore : w₀.registry = Registry.core := by
    cases hw : World.start {} with
    | error e =>
      rw [hw] at hstart
      cases hstart
    | ok w₁ =>
      rw [hw] at hstart
      cases hstart
      exact (World.start_ok hw).1
  have hbuilt : (w₀.registry.arrayClass (.array .int)).2.Built := by
    rw [hcore]
    exact .arrays Registry.built_core (Registry.arraysAdded_arrayClass _ _)
  exact ⟨hbuilt, (hbuilt.orderly.of_loaded hc).1⟩

theorem newArray_nested_grid : ∃ c w w', Registry.Built w.registry ∧ w.registry.rank c = 2 ∧
    (newArray c [2, 2]).runOn 0 w = .ok 1 w' ∧ w'.heap.objects.size = 4 := by
  obtain ⟨⟨c, w⟩, hgrid, hnew⟩ := (Option.any_eq_true _ _).mp grid_new
  simp only [decide_eq_true_eq] at hnew
  obtain ⟨hrank, hlimit, hallocated, hsize⟩ := hnew
  obtain ⟨hbuilt, hc⟩ := built_grid hgrid
  have hle : [(2 : Int32), 2].length ≤ w.registry.rank c := Nat.le_of_eq hrank.symm
  have hlengths : ∀ k ∈ [(2 : Int32), 2], 0 ≤ k.toInt :=
    List.forall_mem_cons.mpr ⟨by decide, List.forall_mem_singleton.mpr (by decide)⟩
  obtain ⟨d, ds, rfl, hds, -, hok, -⟩ := newArray_nested (t := 0) hbuilt hc hle hlengths
    (hallocated.trans (by decide)) (.inl hlimit)
  obtain ⟨e, rfl⟩ : ∃ e, ds = [e] :=
    List.length_eq_one_iff.mp (by simpa using congrArg List.length hds)
  obtain ⟨hd, he⟩ : d.length = 2 ∧ e.length = 2 := by simpa using hds
  have hkind : ∀ k : ElementKind, k.size ≤ 8 := by
    intro k
    cases k <;> decide
  have htwo : d.size = 2 ∧ e.size = 2 := by
    rw [size, size, hd, he]
    exact ⟨rfl, rfl⟩
  have hroom : w.heap.allocated + bytes [d, e] ≤ Heap.most := by
    have hfirst := hkind d.kind
    have hsecond := hkind e.kind
    simp only [bytes, cost, Heap.arraySize, htwo, Heap.most]
    omega
  rw [hsize] at hok
  refine ⟨d.cls, w, _, hbuilt, hrank, hok (.inl hlimit) hroom, ?_⟩
  rw [Array.size_append, hsize, List.size_toArray, length_arrays]
  simp [count, htwo]

end Exec

end ManagedCore
