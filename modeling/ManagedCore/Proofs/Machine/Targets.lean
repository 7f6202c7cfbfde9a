import ManagedCore.Proofs.Machine.Codes
import ManagedCore.Proofs.Machine.Resolution

/-!
# Targets of calls

A call leads to the method that its target is bound to or names, to the one at the place of it in
the table of the receiver, or to what the table has under the name. Inline caches make no difference
to that.
-/

namespace ManagedCore

open Option

def Handle.Gives (r : Registry) (m : Method) : Handle MethodRef → Prop
  | .resolved ref => r.method? ref.id = some m
  | .lazy _ s => ∃ member k, s = .method member ∧ r.loaded? member.owner = some k ∧
      r.findMethod? k member.name member.descriptor = some m

/-- The method that a target leads to, given the class of the receiver if it is asked for. -/
inductive CallTarget.Selects (r : Registry) : CallTarget → Option Class → Method → Prop where
  | direct {h : Handle MethodRef} {m : Method} : h.Gives r m → Selects r (.direct h) none m
  | virtual {h : Handle MethodRef} {declared m : Method} {c : Class} : h.Gives r declared →
      Exec.selectVirtual? r declared c = some m → Selects r (.virtual h) (some c) m
  | cached {site : CallSite} {c : Class} {m : Method} :
      r.findVirtual? c site.member.name site.member.descriptor = some m → m.isAbstract = false →
      Selects r (.cached site) (some c) m

namespace Registry

variable {r : Registry} {name descriptor : String} {m : Method} {c : Class}

theorem Orderly.method_of_mem_table (h : r.Orderly) (hm : m ∈ r.table c) :
    r.method? m.id = some m := by
  obtain ⟨n, -, hn⟩ := List.mem_filterMap.mp hm
  rwa [h.methodId n m hn]

theorem Orderly.method_findMethod (h : r.Orderly) (hm : r.findMethod? c name descriptor = some m) :
    r.method? m.id = some m := by
  obtain ⟨⟨n, hn⟩, -⟩ := findMethod_some hm
  rwa [h.methodId n m hn]

/-- What is found in the table of the receiver has the name and descriptor that were asked for. -/
theorem Orderly.selectVirtual_some (h : r.Orderly) {declared : Method}
    (hm : Exec.selectVirtual? r declared c = some m) :
    r.method? m.id = some m ∧ m.isNamed declared.name declared.descriptor = true := by
  rcases or_eq_some_iff.mp hm with hplaced | ⟨-, hfound⟩
  · obtain ⟨hplaced, hnamed⟩ := filter_eq_some_iff.mp hplaced
    obtain ⟨n, -, hn⟩ := bind_eq_some_iff.mp hplaced
    rw [h.methodId n m hn]
    exact ⟨hn, hnamed⟩
  · exact ⟨h.method_of_mem_table (List.mem_of_find?_eq_some hfound),
      by simpa using List.find?_some hfound⟩

end Registry

variable {m : Method}

theorem Handle.Gives.method {r : Registry} (ho : r.Orderly) {h : Handle MethodRef}
    (hm : h.Gives r m) : r.method? m.id = some m := by
  cases h with
  | resolved ref =>
    rw [ho.methodId ref.id m hm]
    exact hm
  | lazy index s =>
    obtain ⟨member, k, -, -, hfound⟩ := hm
    exact ho.method_findMethod hfound

theorem CallTarget.Selects.method {r : Registry} (ho : r.Orderly) {target : CallTarget}
    {c : Option Class} (h : target.Selects r c m) : r.method? m.id = some m := by
  cases h with
  | direct hm => exact hm.method ho
  | virtual _ hm => exact (ho.selectVirtual_some hm).1
  | cached hm _ => exact ho.method_of_mem_table (List.mem_of_find?_eq_some hm)

namespace Exec

variable {a : Activation} {t : ThreadId} {w w' : World} {id : MethodId}

theorem methodById_ok
    (h : (methodById id).runOn t w = .ok m w') : w' = w ∧ w.registry.method? id = some m := by
  rw [methodById, get_runOn] at h
  split at h
  · cases h
    exact ⟨rfl, ‹_›⟩
  · cases h

theorem methodHandle_ok {h : Handle MethodRef}
    (hrun : (methodHandle h).runOn t w = .ok m w') : h.Gives w'.registry m := by
  cases h with
  | resolved ref =>
    obtain ⟨rfl, hm⟩ := methodById_ok hrun
    exact hm
  | lazy index s =>
    cases s with
    | method member =>
      obtain ⟨c, w₁, hc, hrest⟩ := bind_runOn_ok hrun
      obtain ⟨_, _, hget, hrest⟩ := bind_runOn_ok hrest
      cases hget
      cases hfound : w₁.registry.findMethod? c member.name member.descriptor with
      | none =>
        simp only [hfound] at hrest
        exact absurd hrest (gives_nothing (.raise))
      | some m' =>
        simp only [hfound] at hrest
        cases hrest
        exact ⟨member, c, rfl, (resolveClass_ok hc).1, hfound⟩
    | _ => exact absurd hrun (gives_nothing (.fail))

theorem nonNull_ok {r : Reg} {o : ObjId} (h : (nonNull a r).runOn t w = .ok o w') :
    w' = w ∧ a.get r = .obj o := by
  refine ⟨?_, gives_nonNull a r _ _ _ _ h⟩
  obtain ⟨ref, w₁, href, hrest⟩ := bind_runOn_ok h
  have hw₁ : w₁ = w := by
    unfold reference at href
    split at href
    · cases href
      rfl
    · exact absurd href (gives_nothing (.after fun _ => .fail))
  cases ref with
  | none => exact absurd hrest (gives_nothing (.raise))
  | some o' =>
    cases hrest
    exact hw₁

def ReceiverClass (w : World) (a : Activation) (receiver : Option Reg) (c : Class) : Prop :=
  ∃ r o, receiver = some r ∧ a.get r = .obj o ∧ w.classOf? o = some c

section

variable {site : CallSite} {c : Class} (hcoded : w.Coded)
  (hsite : ∀ live, w.code? a.code = some live → live.compiled.sites[site.number]? = some site)
  (hc : w.registry.class? c.id = some c)
include hcoded hsite hc

/-- A sound cache answers a site with what the table of the receiver has under the name. -/
theorem lookupSite_runOn :
    ∃ w', (lookupSite a.code site c).runOn t w = .ok (cacheTarget? w.registry site.member c) w' ∧
      w'.registry = w.registry ∧ w'.heap = w.heap ∧ w'.threads = w.threads := by
  rw [runOn_lookupSite]
  cases hcache : (w.code? a.code).bind (·.caches[site.number]?) with
  | none => exact ⟨w, rfl, rfl, rfl, rfl⟩
  | some cache =>
    obtain ⟨live, hlive, hcache⟩ := bind_eq_some_iff.mp hcache
    obtain ⟨hsound, site', hsite', hmember⟩ := (hcoded _ live hlive).caches _ cache hcache
    cases (hsite live hlive).symm.trans hsite'
    have hlookup := (hsound.lookup hc).1
    rw [hmember] at hlookup
    dsimp only
    rw [hlookup]
    exact ⟨_, rfl, rfl, rfl, rfl⟩

theorem lookupSite_ok (h : (lookupSite a.code site c).runOn t w = .ok (some id) w') :
    w'.registry = w.registry ∧ w'.heap = w.heap ∧
      cacheTarget? w.registry site.member c = some id := by
  obtain ⟨w₁, hrun, hregistry, hheap, -⟩ := lookupSite_runOn hcoded hsite hc
  rw [h, EStateM.Result.ok.injEq] at hrun
  obtain ⟨hid, rfl⟩ := hrun
  exact ⟨hregistry, hheap, hid.symm⟩

end

theorem select_ok {target : CallTarget} {receiver : Option Reg}
    (hbuilt : w.registry.Built) (hcoded : w.Coded)
    (hsite : ∀ site, target = .cached site → ∀ live, w.code? a.code = some live →
      live.compiled.sites[site.number]? = some site)
    (h : (select a target receiver).runOn t w = .ok id w') :
    ∃ c m, target.Selects w'.registry c m ∧ w'.registry.method? id = some m ∧
      ∀ k ∈ c, ReceiverClass w' a receiver k := by
  have hlater : w.registry.Later w'.registry := (within_ok (calm_select a target receiver t w) h).later
  have ho : w'.registry.Orderly := (hbuilt.later hlater).orderly
  cases target with
  | direct handle =>
    obtain ⟨m, w₁, hm, hrest⟩ := bind_runOn_ok h
    cases hrest
    have hgives := methodHandle_ok hm
    exact ⟨none, m, .direct hgives, hgives.method ho, nofun⟩
  | virtual handle =>
    obtain ⟨declared, w₁, hdeclared, hrest⟩ := bind_runOn_ok h
    cases receiver with
    | none => exact absurd hrest (gives_nothing (.fail))
    | some r =>
      obtain ⟨o, w₂, hnull, htail⟩ := bind_runOn_ok hrest
      obtain ⟨hw₂, hget⟩ := nonNull_ok hnull
      obtain ⟨c, w₃, hclass, hlast⟩ := bind_runOn_ok htail
      obtain ⟨hw₃, hc⟩ := classOf_ok hclass
      subst hw₃ hw₂
      obtain ⟨read, w₄, hread, hend⟩ := bind_runOn_ok hlast
      cases hread
      split at hend
      · rename_i m hselect
        cases hend
        refine ⟨some c, m, .virtual (methodHandle_ok hdeclared) hselect,
          (ho.selectVirtual_some hselect).1, ?_⟩
        rintro k ⟨⟩
        exact ⟨r, o, rfl, hget, hc⟩
      · exact absurd hend (gives_nothing (.raise))
  | cached site =>
    cases receiver with
    | none => exact absurd h (gives_nothing (.fail))
    | some r =>
      obtain ⟨o, w₁, hnull, hrest⟩ := bind_runOn_ok h
      obtain ⟨rfl, hget⟩ := nonNull_ok hnull
      obtain ⟨c, w₂, hclass, htail⟩ := bind_runOn_ok hrest
      obtain ⟨rfl, hc⟩ := classOf_ok hclass
      obtain ⟨found, w₃, hfound, hend⟩ := bind_runOn_ok htail
      cases found with
      | none => exact absurd hend (gives_nothing (.raise))
      | some id' =>
        cases hend
        obtain ⟨obj, hobj, hclass⟩ := bind_eq_some_iff.mp hc
        have hid := (hbuilt.orderly.formed _ c hclass).id
        obtain ⟨hregistry, hheap, htarget⟩ :=
          lookupSite_ok hcoded (hsite site rfl) (hid ▸ hclass) hfound
        obtain ⟨m, hm, rfl⟩ := map_eq_some_iff.mp htarget
        obtain ⟨hm, habstract⟩ := filter_eq_some_iff.mp hm
        rw [← hregistry] at hm
        refine ⟨some c, m, .cached hm (by simpa using habstract),
          ho.method_of_mem_table (List.mem_of_find?_eq_some hm), ?_⟩
        rintro k ⟨⟩
        refine ⟨r, o, rfl, hget, ?_⟩
        rw [World.classOf?, World.object?, hheap, hregistry]
        exact hc

end Exec

end ManagedCore
