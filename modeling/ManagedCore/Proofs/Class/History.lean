import ManagedCore.Proofs.Class.Growth

/-!
# Histories of registries

Registries come from the empty one by defining classes, by searches that bring array classes into
being, and by changes of what may change after linking. A property of all of them is shown for each
kind of step, and a class that is defined is linked to classes found before it.
-/

namespace ManagedCore

open ManagedCore.Flag

namespace Registry

variable {r r' : Registry} {inherited : List Method} {placed : List PlacedMethod}
  {inInterface : Bool} {owner : String} {d : ClassDef} {next : Nat}

/-- The second registry comes from the first. -/
inductive Later (r : Registry) : Registry → Prop where
  | same : Later r r
  | define {r₁ : Registry} (d : ClassDef) : Later r r₁ → Later r (r₁.define d).2
  | arrays {r₁ r₂ : Registry} : Later r r₁ → ArraysAdded r₁ r₂ → Later r r₂
  | change {r₁ : Registry} (id : ClassId) {f : Class → Class} : Later r r₁ →
      (∀ c : Class, c.SameLink (f c)) → Later r (r₁.modifyClass id f)
  | publish {r₁ : Registry} (id : MethodId) {f : Method → Method} : Later r r₁ →
      (∀ m : Method, m.SameLink (f m)) → Later r (r₁.modifyMethod id f)

def Built (r : Registry) : Prop := Later {} r

/-! ## Defining a class -/

structure Linked (r : Registry) (d : ClassDef) (s : Option Class) (is : List Class) (c : Class)
    (r' : Registry) : Prop where
  superclass : ∀ sc, s = some sc → (∃ name, r.loaded? name = some sc) ∧
    sc.isInterface = false ∧ has sc.flags isFinal = false
  root : s = none → d.name = objectClass ∧ r.loaded? objectClass = none
  interfaces : ∀ i ∈ is, (∃ name, r.loaded? name = some i) ∧ i.isInterface = true
  link : r.link d s is = .ok (c, r')

theorem resolveSuperclass_cases {s : Except LinkError (Option Class)}
    (h : r.resolveSuperclass d = (s, r')) : ArraysAdded r r' ∧
      ((∃ e, s = .error e) ∨ (s = .ok none ∧ d.name = objectClass) ∨
        ∃ c name, s = .ok (some c) ∧ r'.loaded? name = some c ∧ c.isInterface = false ∧
          has c.flags isFinal = false) := by
  unfold resolveSuperclass at h
  split at h
  · split at h
    · rename_i hname
      cases h
      exact ⟨.none, .inr (.inl ⟨rfl, hname⟩)⟩
    · cases h
      exact ⟨.none, .inl ⟨_, rfl⟩⟩
  · rename_i name _
    have hadded := arraysAdded_lookup r name
    split at h
    · rename_i heq
      rw [heq] at hadded
      cases h
      exact ⟨hadded, .inl ⟨_, rfl⟩⟩
    · rename_i heq
      rw [heq] at hadded
      split at h
      · cases h
        exact ⟨hadded, .inl ⟨_, rfl⟩⟩
      · rename_i hclass
        split at h
        · cases h
          exact ⟨hadded, .inl ⟨_, rfl⟩⟩
        · rename_i hfinal
          cases h
          exact ⟨hadded, .inr (.inr ⟨_, name, rfl, loaded_lookup heq, eq_false_of_ne_true hclass,
            eq_false_of_ne_true hfinal⟩)⟩

theorem resolveInterfaces_cases {names : List String} {is : Except LinkError (List Class)}
    (h : r.resolveInterfaces names = (is, r')) : ArraysAdded r r' ∧
      ∀ cs, is = .ok cs → ∀ c ∈ cs, (∃ name, r'.loaded? name = some c) ∧ c.isInterface = true := by
  induction names generalizing r is with
  | nil =>
    cases h
    refine ⟨.none, fun cs hcs => ?_⟩
    cases hcs
    nofun
  | cons name rest ih =>
    have hadded := arraysAdded_lookup r name
    rw [resolveInterfaces] at h
    split at h
    · rename_i heq
      rw [heq] at hadded
      cases h
      exact ⟨hadded, nofun⟩
    · rename_i heq
      rw [heq] at hadded
      split at h
      · cases h
        exact ⟨hadded, nofun⟩
      · rename_i hinterface
        rw [Bool.not_eq_true, Bool.not_eq_false'] at hinterface
        split at h
        · rename_i cs r₂ hrest
          cases h
          obtain ⟨hadded₂, hcs⟩ := ih hrest
          refine ⟨hadded.trans hadded₂, fun _ heq' => ?_⟩
          cases heq'
          refine List.forall_mem_cons.mpr ⟨⟨⟨name, ?_⟩, hinterface⟩, hcs cs rfl⟩
          exact hadded₂.loaded (loaded_lookup heq)
        · rename_i hrest
          cases h
          exact ⟨hadded.trans (ih hrest).1, nofun⟩

theorem define_cases (r : Registry) (d : ClassDef) : ArraysAdded r (r.define d).2 ∨
    ∃ r₁ s is c, ArraysAdded r r₁ ∧ Linked r₁ d s is c (r.define d).2 := by
  unfold define
  split
  · exact .inl .none
  · rename_i hnew
    split
    · rename_i hsuper
      exact .inl (resolveSuperclass_cases hsuper).1
    · rename_i s r₁ hsuper
      obtain ⟨hadded, hfound⟩ := resolveSuperclass_cases hsuper
      split
      · rename_i hinterfaces
        exact .inl (hadded.trans (resolveInterfaces_cases hinterfaces).1)
      · rename_i is r₂ hinterfaces
        obtain ⟨hadded₂, his⟩ := resolveInterfaces_cases hinterfaces
        split
        · exact .inl (hadded.trans hadded₂)
        · rename_i c r₃ hlink
          refine .inr ⟨r₂, s, is, c, hadded.trans hadded₂, fun sc hs => ?_, fun hs => ?_,
            his is rfl, hlink⟩
          · rcases hfound with ⟨e, he⟩ | ⟨hnone, -⟩ | ⟨c', name, hc', hloaded, hrest⟩
            · cases he
            · cases hnone
              cases hs
            · cases hc'
              cases hs
              exact ⟨⟨name, hadded₂.loaded hloaded⟩, hrest⟩
          · rcases hfound with ⟨e, he⟩ | ⟨-, hname⟩ | ⟨c', name, hc', -⟩
            · cases he
            · rw [hname, Option.not_isSome_iff_eq_none] at hnew
              rw [(hadded.trans hadded₂).eq_of_none hnew]
              exact ⟨hname, hnew⟩
            · cases hc'
              cases hs

/-- What every step keeps holds of all later registries. -/
theorem Later.induction {P : Registry → Prop} (h : r.Later r') (hfirst : P r)
    (harray : ∀ r object component cls, P r → r.loaded? objectClass = some object →
      (∀ i ∈ cls, ∃ name c, r.loaded? name = some c ∧ c.id = i) →
      P (r.addArray object component cls).2)
    (hlink : ∀ r d s is c r', P r → Linked r d s is c r' → P r')
    (hchange : ∀ r id f, P r → (∀ c : Class, c.SameLink (f c)) → P (r.modifyClass id f))
    (hpublish : ∀ r id f, P r → (∀ m : Method, m.SameLink (f m)) → P (r.modifyMethod id f)) :
    P r' := by
  have harrays : ∀ {r r'}, ArraysAdded r r' → P r → P r' := by
    intro r r' hadded hr
    induction hadded with
    | none => exact hr
    | add component cls _ hobject hcls ih => exact harray _ _ component cls ih hobject hcls
  induction h with
  | same => exact hfirst
  | define d _ ih =>
    rcases define_cases _ d with hadded | ⟨r₁, s, is, c, hadded, hlinked⟩
    · exact harrays hadded ih
    · exact hlink r₁ d s is c _ (harrays hadded ih) hlinked
  | arrays _ hadded ih => exact harrays hadded ih
  | change id _ hf ih => exact hchange _ id _ ih hf
  | publish id _ hf ih => exact hpublish _ id _ ih hf

theorem link_ok {superclass : Option Class} {interfaces : List Class} {c : Class}
    (h : r.link d superclass interfaces = .ok (c, r')) :
    ∃ (statics : List FieldInfo) (placed : List PlacedMethod),
      layOutFields d.name d.fields ((superclass.map (·.fields)).getD []) [] =
        .ok (c.fields, statics) ∧ placeMethods d.name (has d.flags isInterface)
        (((superclass.map (·.slotMethods)).getD []).filterMap r.method?)
        ((superclass.map (·.slotMethods)).getD []).length d.methods = .ok placed ∧
      let methods := placed.zipIdx.map fun p =>
        linkMethod (r.classes.size + 1) d (r.methods.size + p.2) p.1
      r' = ⟨r.classes.push c, r.methods ++ methods.toArray⟩ ∧
      c = { c with
        id := r.classes.size + 1
        name := d.name
        flags := d.flags
        kind := if has d.flags isInterface then .interface else .plain
        init := .uninitialized
        superclass := superclass.map (·.id)
        interfaces := interfaces.map (·.id)
        methods := methods.map (·.id)
        display := ((superclass.map (·.display)).getD []) ++ [r.classes.size + 1]
        implemented :=
          let above := interfaces.foldl (fun s c => unionIds s c.implemented)
            ((superclass.map (·.implemented)).getD [])
          if has d.flags isInterface then unionIds above [r.classes.size + 1] else above
        slots := (methods.foldl installMethod
          ((superclass.map (·.slotMethods)).getD []).toArray).map fun m => ⟨m, []⟩
        pool := { entries := d.constants } } := by
  obtain ⟨fields, hfields, h⟩ := Except.bind_ok_iff.mp h
  obtain ⟨placed, hplaced, h⟩ := Except.bind_ok_iff.mp h
  cases h
  exact ⟨_, placed, hfields, hplaced, rfl, rfl⟩

/-! ## Signatures -/

/-- Where a declared method goes, given the place behind all others. -/
inductive Placed (inInterface : Bool) (inherited : List Method) (m : MethodDef) (next : Nat) :
    Option Nat → Nat → Prop where
  | outside : m.isVirtual inInterface = false → Placed inInterface inherited m next none next
  | override {i : Nat} : m.isVirtual inInterface = true →
      inherited.findIdx? (·.isNamed m.name m.descriptor) = some i →
      (inherited[i]?).any (fun old => has old.flags isFinal) = false →
      Placed inInterface inherited m next (some i) next
  | new : m.isVirtual inInterface = true →
      inherited.findIdx? (·.isNamed m.name m.descriptor) = none →
      Placed inInterface inherited m next (some next) (next + 1)

theorem placeMethods_cons {m : MethodDef} {rest : List MethodDef}
    (h : placeMethods owner inInterface inherited next (m :: rest) = .ok placed) :
    ∃ signature offset next' tail, Signature.parse m.descriptor = .ok signature ∧
      Placed inInterface inherited m next offset next' ∧
      placeMethods owner inInterface inherited next' rest = .ok tail ∧
      placed = ⟨m, signature, offset⟩ :: tail := by
  obtain ⟨signature, hparse, h⟩ := Except.bind_ok_iff.mp h
  suffices hplaced : ∃ offset next', Placed inInterface inherited m next offset next' ∧
      (placeMethods owner inInterface inherited next' rest >>= fun tail =>
        pure (⟨m, signature, offset⟩ :: tail)) = .ok placed by
    obtain ⟨offset, next', hplaced, h⟩ := hplaced
    obtain ⟨tail, hrest, h⟩ := Except.bind_ok_iff.mp h
    cases h
    exact ⟨signature, offset, next', tail, Except.mapError_ok hparse, hplaced, hrest, rfl⟩
  split at h
  · rename_i hvirtual
    split at h
    · rename_i hi
      split at h
      · cases h
      · rename_i hfinal
        exact ⟨_, _, .override hvirtual hi (eq_false_of_ne_true hfinal), h⟩
    · rename_i hnone
      exact ⟨_, _, .new hvirtual hnone, h⟩
  · rename_i hvirtual
    exact ⟨_, _, .outside (eq_false_of_ne_true hvirtual), h⟩

theorem parse_of_mem_placeMethods
    {defs : List MethodDef} (h : placeMethods owner inInterface inherited next defs = .ok placed)
    {p : PlacedMethod} (hp : p ∈ placed) :
    Signature.parse p.method.descriptor = .ok p.signature := by
  induction defs generalizing next placed with
  | nil =>
    cases h
    cases hp
  | cons m rest ih =>
    obtain ⟨signature, offset, next', tail, hparse, -, htail, rfl⟩ := placeMethods_cons h
    rcases List.mem_cons.mp hp with rfl | hp
    · exact hparse
    · exact ih htail hp

theorem method_modifyMethod {id : MethodId} {f : Method → Method} (n : MethodId) :
    (r.modifyMethod id f).method? n = if id = n then (r.method? n).map f else r.method? n :=
  Array.getElem?_modify

theorem Built.parsed (h : r.Built) : r.Parsed := by
  refine h.induction nofun (fun r _ _ _ ih _ _ => ih) ?_ ?_ ?_
  · intro r d s is c r' ih hlinked id m hm
    obtain ⟨-, placed, -, hplaced, rfl, -⟩ := link_ok hlinked.link
    rcases Array.mem_append.mp (Array.mem_of_getElem? hm) with hold | hnew
    · obtain ⟨n, hn⟩ := Array.mem_iff_getElem?.mp hold
      exact ih n m hn
    · obtain ⟨⟨p, i⟩, hp, rfl⟩ := List.mem_map.mp (List.mem_toArray.mp hnew)
      exact parse_of_mem_placeMethods hplaced (List.fst_mem_of_mem_zipIdx hp)
  · intro r id f ih _ n m hm
    refine ih n m ?_
    unfold modifyClass at hm
    split at hm <;> exact hm
  · intro r id f ih hf n m hm
    rw [method_modifyMethod] at hm
    split at hm
    · obtain ⟨m', hm', rfl⟩ := Option.map_eq_some_iff.mp hm
      rw [hf m']
      exact ih n m' hm'
    · exact ih n m hm

end Registry

end ManagedCore
