import ManagedCore.Proofs.Machine.Exceptions

/-!
# Resolving handles again

What a handle was resolved to is what it is resolved to from then on. Classes are found under their
names once they are there, and searches for members only read what classes never change.
-/

namespace ManagedCore

/-! ## Static fields -/

section

variable {r r' : Registry} {name descriptor : String} {fuel n : Nat} {c : Class}

/-- Where a search for a static field ends: the number of the class and the place. -/
def Registry.staticPlace? (r : Registry) (name descriptor : String) (fuel : Nat) (n : ClassId) :
    Option (ClassId × Nat) :=
  (r.findStaticFrom name descriptor fuel n).map fun p => (p.1.id, p.2)

theorem Registry.staticPlace?_succ (hc : r.class? n = some c) :
    r.staticPlace? name descriptor (fuel + 1) n =
      match c.statics.find? (·.isNamed name descriptor) with
      | some f => some (c.id, f.slot)
      | none => (c.interfaces.findSome? (r.staticPlace? name descriptor fuel)).or
          (c.superclass.bind (r.staticPlace? name descriptor fuel)) := by
  have hinterfaces : c.interfaces.findSome? (r.staticPlace? name descriptor fuel) =
      (c.interfaces.findSome? (r.findStaticFrom name descriptor fuel)).map
        fun p => (p.1.id, p.2) := List.map_findSome?.symm
  have hsuper : c.superclass.bind (r.staticPlace? name descriptor fuel) =
      (c.superclass.bind (r.findStaticFrom name descriptor fuel)).map fun p => (p.1.id, p.2) :=
    (Option.map_bind ..).symm
  rw [hinterfaces, hsuper, staticPlace?, findStaticFrom, hc]
  cases hown : c.statics.find? (·.isNamed name descriptor) with
  | some f =>
    simp only [hown]
    rfl
  | none =>
    simp only [hown]
    cases c.interfaces.findSome? (r.findStaticFrom name descriptor fuel) <;> rfl

theorem Registry.Orderly.staticPlace_keep (h : r.Orderly) (hk : r.Keeps r')
    (hc : r.class? n = some c) :
    r'.staticPlace? name descriptor fuel n = r.staticPlace? name descriptor fuel n := by
  induction fuel generalizing n c with
  | zero => rfl
  | succ fuel ih =>
    obtain ⟨c', hc', hsame⟩ := hk.classes n c hc
    have hlinks : c'.statics = c.statics ∧ c'.interfaces = c.interfaces ∧
        c'.superclass = c.superclass ∧ c'.id = c.id := by
      rw [hsame]
      exact ⟨rfl, rfl, rfl, rfl⟩
    obtain ⟨hstatics, hinterfaces, hsuper, hid⟩ := hlinks
    have hup : c.superclass.bind (r'.staticPlace? name descriptor fuel) =
        c.superclass.bind (r.staticPlace? name descriptor fuel) := by
      cases hs : c.superclass with
      | none => rfl
      | some s =>
        obtain ⟨k, hk, -⟩ := h.exists_below hc hs
        exact ih hk
    have hacross : c.interfaces.findSome? (r'.staticPlace? name descriptor fuel) =
        c.interfaces.findSome? (r.staticPlace? name descriptor fuel) := by
      refine findSome?_congr fun i hi => ?_
      obtain ⟨-, k, hk⟩ := (h.formed n c hc).interfaces i hi
      exact ih hk
    rw [staticPlace?_succ hc, staticPlace?_succ hc', hstatics, hinterfaces, hsuper, hid, hup, hacross]

theorem Registry.Orderly.staticPlace_known (h : r.Orderly) {fuel slot : Nat} {n c : ClassId}
    (hplace : r.staticPlace? name descriptor fuel n = some (c, slot)) :
    ∃ cls, r.class? c = some cls := by
  induction fuel generalizing n with
  | zero => cases hplace
  | succ fuel ih =>
    cases hc : r.class? n with
    | none =>
      rw [staticPlace?, findStaticFrom, hc] at hplace
      cases hplace
    | some cls =>
      rw [staticPlace?_succ hc] at hplace
      split at hplace
      · cases hplace
        rw [(h.formed n cls hc).id]
        exact ⟨cls, hc⟩
      · rcases Option.or_eq_some_iff.mp hplace with hfound | ⟨-, hfound⟩
        · obtain ⟨i, -, hi⟩ := List.exists_of_findSome?_eq_some hfound
          exact ih hi
        · obtain ⟨s, -, hs⟩ := Option.bind_eq_some_iff.mp hfound
          exact ih hs

end

namespace Exec

variable {t : ThreadId} {w w' : World} {name : String} {c : Class}

theorem gives_nothing {α : Type} {x : Exec α} (h : Gives (fun _ => False) x) {a : α} :
    x.runOn t w ≠ .ok a w' :=
  fun hx => h t w a w' hx

theorem arrayClass_ok {component : FieldType}
    (h : (arrayClass? component).runOn t w = .ok (some c) w') :
    w'.registry.loaded? (FieldType.array component).text = some c := by
  change EStateM.Result.ok (w.registry.arrayClass component).1.toOption
    { w with registry := (w.registry.arrayClass component).2 } = _ at h
  rw [EStateM.Result.ok.injEq] at h
  obtain ⟨hfound, rfl⟩ := h
  cases hclass : w.registry.arrayClass component with
  | mk found r' =>
    rw [hclass] at hfound
    cases found with
    | error e => cases hfound
    | ok c' =>
      cases hfound
      exact Registry.loaded_arrayClassFrom hclass

theorem namedClass_ok (h : (namedClass? name).runOn t w = .ok (some c) w') :
    w'.registry.loaded? name = some c ∧
      (name.startsWith "[" = true → ∃ component, FieldType.parse name = .ok (.array component)) := by
  unfold namedClass? at h
  by_cases hname : name.startsWith "[" = true
  · rw [if_pos hname] at h
    split at h
    · rename_i component hparse
      refine ⟨?_, fun _ => ⟨component, hparse⟩⟩
      rw [← (FieldType.parse_ok_iff.mp hparse).2]
      exact arrayClass_ok h
    · cases h
  · rw [if_neg hname] at h
    refine ⟨?_, fun hstarts => absurd hstarts hname⟩
    change EStateM.Result.ok (w.lookup name).1 (w.lookup name).2 = _ at h
    rw [EStateM.Result.ok.injEq] at h
    obtain ⟨hfound, rfl⟩ := h
    refine Registry.loaded_lookup (Prod.ext hfound ?_)
    rfl

theorem resolveClass_ok (h : (resolveClass (.class name)).runOn t w = .ok c w') :
    w'.registry.loaded? name = some c ∧
      (name.startsWith "[" = true → ∃ component, FieldType.parse name = .ok (.array component)) := by
  obtain ⟨found, w₁, hfound, hrest⟩ := bind_runOn_ok h
  cases found with
  | none => exact absurd hrest (gives_nothing (.raise))
  | some c' =>
    cases hrest
    exact namedClass_ok hfound

theorem resolveClass_loaded {symbol : Symbol} (h : (resolveClass symbol).runOn t w = .ok c w') :
    ∃ name, w'.registry.loaded? name = some c := by
  obtain ⟨found, w₁, hfound, hrest⟩ := bind_runOn_ok h
  cases found with
  | none => exact absurd hrest (gives_nothing (.raise))
  | some c' =>
    cases hrest
    cases symbol with
    | «class» name => exact ⟨name, (namedClass_ok hfound).1⟩
    | arrayOf name =>
      unfold symbolClass? at hfound
      dsimp only at hfound
      split at hfound
      · exact ⟨_, arrayClass_ok hfound⟩
      · cases hfound
    | _ => exact absurd hfound (gives_nothing (.fail))

theorem registered_ok {id : ClassId} (h : (registered id).runOn t w = .ok c w') :
    w' = w ∧ w.registry.class? id = some c := by
  rw [registered, get_runOn] at h
  split at h
  · cases h
    exact ⟨rfl, ‹_›⟩
  · cases h

theorem staticHandle_ok {index : Nat} {m : MemberRef} {s : StaticSlot}
    (h : (staticHandle (.lazy index (.static m))).runOn t w = .ok s w') :
    ∃ c, w'.registry.loaded? m.owner = some c ∧
      w'.registry.staticPlace? m.name m.descriptor c.id c.id = some (s.owner.id, s.slot) := by
  obtain ⟨c, w₁, hc, hrest⟩ := bind_runOn_ok h
  obtain ⟨w₂, w₃, hget, hrest⟩ := bind_runOn_ok hrest
  cases hget
  cases hfound : w₁.registry.findStatic? c m.name m.descriptor with
  | none =>
    simp only [hfound] at hrest
    exact absurd hrest (gives_nothing (.raise))
  | some found =>
    simp only [hfound] at hrest
    cases hrest
    refine ⟨c, (resolveClass_ok hc).1, ?_⟩
    rw [Registry.findStatic?] at hfound
    rw [Registry.staticPlace?, hfound]
    rfl

end Exec

/-! ## Requests of instructions -/

def Instr.isCheck : Instr → Bool
  | .initCheck _ => true
  | _ => false

/-- The class that an instruction asks for, as it is found once it has been resolved. -/
def Instr.Asks (r : Registry) (c : ClassId) : Instr → Prop
  | .initCheck (.resolved ref) => ref.id = c
  | .initCheck (.lazy _ s) => ∀ name, s = .class name → ∃ k, r.loaded? name = some k ∧ k.id = c
  | .getStatic _ h | .putStatic h _ => ∃ index m k slot, h = .lazy index (.static m) ∧
      r.loaded? m.owner = some k ∧ r.staticPlace? m.name m.descriptor k.id k.id = some (c, slot)
  | _ => False

variable {i : Instr}

theorem Instr.Asks.keep {r r' : Registry} {c : ClassId} (h : i.Asks r c)
    (ho : r.Orderly) (hk : r.Keeps r') : i.Asks r' c := by
  have hstatic : ∀ {h : Handle StaticSlot}, (∃ index m k slot, h = .lazy index (.static m) ∧
      r.loaded? m.owner = some k ∧ r.staticPlace? m.name m.descriptor k.id k.id = some (c, slot)) →
      ∃ index m k slot, h = .lazy index (.static m) ∧
        r'.loaded? m.owner = some k ∧
        r'.staticPlace? m.name m.descriptor k.id k.id = some (c, slot) := by
    rintro _ ⟨index, m, k, slot, rfl, hloaded, hplace⟩
    obtain ⟨k', hloaded', hsame⟩ := hk.names _ k hloaded
    have hid : k'.id = k.id := by rw [hsame]
    refine ⟨index, m, k', slot, rfl, hloaded', ?_⟩
    rw [hid, ho.staticPlace_keep hk (ho.of_loaded hloaded).1]
    exact hplace
  cases i with
  | initCheck h' =>
    cases h' with
    | resolved ref => exact h
    | lazy index s =>
      intro name hname
      obtain ⟨k, hloaded, hid⟩ := h name hname
      obtain ⟨k', hloaded', hsame⟩ := hk.names _ k hloaded
      refine ⟨k', hloaded', ?_⟩
      rw [hsame]
      exact hid
  | getStatic | putStatic => exact hstatic h
  | _ => exact h

theorem Exec.evaluate_prepare {t : ThreadId} {w w' : World} {a : Activation}
    {c : ClassId} {again : Bool} (hbuilt : w.registry.Built)
    (h : (evaluate a i).runOn t w = .ok (.prepare c again) w') :
    i.Asks w'.registry c ∧ ∃ cls, w'.registry.class? c = some cls := by
  have hrequests : i.requests = some again := gives_evaluate a i _ _ _ _ h
  have ho : i.callSite? = none → w'.registry.Orderly := fun hsite =>
    (hbuilt.later (within_ok (quiet_evaluate a hsite t w) h).later).orderly
  have hstatic : ∀ {f : Handle StaticSlot} {use : StaticSlot → Exec Effect}
      (_ : ∀ s t w effect w', (use s).runOn t w = .ok effect w' → effect ≠ .prepare c again),
      (static a f use).runOn t w = .ok (.prepare c again) w' → w'.registry.Orderly →
      (∃ index m k slot, f = .lazy index (.static m) ∧ w'.registry.loaded? m.owner = some k ∧
        w'.registry.staticPlace? m.name m.descriptor k.id k.id = some (c, slot)) ∧
      ∃ cls, w'.registry.class? c = some cls := by
    intro f use huse hrun ho
    obtain ⟨s, w₁, hs, hrest⟩ := bind_runOn_ok hrun
    split at hrest
    · exact absurd rfl (huse s _ _ _ _ hrest)
    · rename_i hlazy
      cases hrest
      cases f with
      | resolved s' => exact absurd (.inl rfl) hlazy
      | lazy index symbol =>
        cases symbol with
        | static m =>
          obtain ⟨k, hk, hplace⟩ := staticHandle_ok hs
          refine ⟨⟨index, m, k, s.slot, rfl, hk, hplace⟩, ?_⟩
          exact ho.staticPlace_known hplace
        | _ => exact absurd hs (gives_nothing (.fail))
  cases i with
  | initCheck handle =>
    obtain ⟨cls, w₁, hcls, hrest⟩ := bind_runOn_ok h
    cases hrest
    cases handle with
    | resolved ref =>
      obtain ⟨rfl, hcls⟩ := registered_ok hcls
      have hid := ((ho rfl).formed _ cls hcls).id
      exact ⟨hid.symm, cls, hid ▸ hcls⟩
    | lazy index symbol =>
      obtain ⟨name, hname⟩ := resolveClass_loaded hcls
      refine ⟨?_, cls, ((ho rfl).of_loaded hname).1⟩
      rintro name rfl
      exact ⟨cls, (resolveClass_ok hcls).1, rfl⟩
  | getStatic | putStatic f v =>
    refine hstatic ?_ h (ho rfl)
    rintro s t w effect w' heffect rfl
    obtain ⟨v, w₁, -, hrest⟩ := bind_runOn_ok heffect
    cases hrest
  | _ => cases hrequests

theorem Exec.evaluate_check {t : ThreadId} {w w' : World} {a : Activation}
    {effect : Effect} (hi : i.isCheck = true) (h : (evaluate a i).runOn t w = .ok effect w') :
    ∃ c, effect = .prepare c false := by
  cases i with
  | initCheck handle =>
    obtain ⟨cls, w₁, -, hrest⟩ := bind_runOn_ok h
    cases hrest
    exact ⟨cls.id, rfl⟩
  | _ => cases hi

end ManagedCore
