import ManagedCore.Proofs.Rendezvous.Coordinator
import ManagedCore.Proofs.Rendezvous.Undisturbed

/-!
# A stopped world stays stopped

From the moment a coordinator has its guard until the guard lowers the flag of a thread, that thread
is in an uncooperative region or inside a call that it cannot leave.
-/

namespace ManagedCore.StopTheWorld

open Rendezvous Control

/-- The call that a thread is in, if it is one of those that may stop the thread. -/
def Control.call : Control → Option Parking
  | poll | joinLock | joinCheck | joinAccount => some .safepoint
  | leaveSub | leavePoll | afterLock | afterCheck | afterSp | afterAccount _ | leaveSave =>
    some .leave
  | parkMark k | parkTest k _ | parkWait k _ | parkClear k | unlockPark k => some k
  | _ => none

/-- The guard is out and has not let the thread go yet. -/
def Stage.holds (id : ThreadId) : Stage → Bool
  | complete _ | relock => true
  | clear todo .finished | clearJoined _ todo .finished => decide (id ∈ todo)
  | _ => false

namespace Machine

/-- A guard holds the thread, which is not its initiator. -/
def Holds (id : ThreadId) (s : Machine) : Prop :=
  ∃ ss, s.session = some ss ∧ id ∈ ss.members ∧ ss.initiator ≠ some id ∧ ss.stage.holds id = true

/-- The thread runs managed code: no region keeps it from being asked to stop, and it is in no call
that would stop it. -/
def Managed (s : Machine) (id : ThreadId) : Prop :=
  regions s.threads id = 0 ∧ (s.control (.thread id)).call = none

def Parked (s : Machine) (id : ThreadId) : Prop :=
  ∃ k, s.control (.thread id) = .parkWait k s.rendezvous.generation

/-- Executions through states with a property. -/
inductive Within (P : Machine → Prop) : Machine → Machine → Prop
  | refl (s : Machine) : Within P s s
  | step {s s' s'' : Machine} {a : Agent} (h : Within P s s') (hs : s'.Step a s'') (hp : P s'') :
      Within P s s''

/-- The thread is in a call that it does not return from as long as it is held. -/
def KeptIn (s : Machine) (id : ThreadId) : Prop :=
  ∃ k, (s.control (.thread id)).call = some k ∧
    ∀ s', Within (Holds id) s s' → (s'.control (.thread id)).call = some k

end Machine

/-! ## Points of a stop -/

section Stops

variable {c c' : Control} {r : Rendezvous} {g : Nat}

theorem Control.call_of_stops (h : c.stops g = true) : ∃ k, c.call = some k := by
  cases c <;> first | exact ⟨_, rfl⟩ | cases h

theorem Control.stops_own {t : Thread} {f : Thread → Thread} (h : c.stops r.generation = true)
    (ho : c.own t r = some (c', f)) (hy : t.yieldFlag = true) (hp : r.phase ≠ .idle) :
    c'.stops r.generation = true ∧ c'.call = c.call := by
  cases c with
  | leavePoll | afterCheck =>
    cases ho
    rw [if_pos hy]
    exact ⟨rfl, rfl⟩
  | afterSp =>
    cases ho
    exact ⟨rfl, rfl⟩
  | parkMark k =>
    cases ho
    exact ⟨beq_self_eq_true _, rfl⟩
  | parkTest k g =>
    simp only [own] at ho
    rw [if_pos ⟨(eq_of_beq h).symm, hp⟩] at ho
    cases ho
  | afterLock | afterAccount | parkWait => cases ho
  | _ => cases h

theorem Control.stops_acquire (h : c.stops g = true) (hc : c.acquire = some c') :
    c'.stops g = true ∧ c'.call = c.call := by
  cases c <;> cases hc
  case joinLock | beforeLock => cases h
  case afterLock => exact ⟨rfl, rfl⟩
  case parkWait => exact ⟨h, rfl⟩

theorem Control.stops_release (h : c.stops r.generation = true) (hc : c.release r = some c') :
    c'.stops r.generation = true ∧ c'.call = c.call := by
  cases c with
  | parkTest k g =>
    simp only [release] at hc
    split at hc <;> cases hc
    exact ⟨h, rfl⟩
  | unlockEnter | unlockPark => cases h
  | _ => cases hc

theorem Control.stops_accounts {status : ThreadStatus} (h : c.stops g = true)
    (hc : c.accounts = some (status, c')) : c'.stops g = true ∧ c'.call = c.call := by
  cases c <;> cases hc
  case joinAccount | beforeAccount => cases h
  case afterAccount => exact ⟨rfl, rfl⟩

end Stops

namespace Machine

variable {s s' : Machine} {id : ThreadId} {a : Agent}

theorem Inv.holds (h : s.Inv) (hh : s.Holds id) :
    shouldYield s.threads id = true ∧ hasJoined s.threads id = true := by
  obtain ⟨ss, hss, hm, hi, hst⟩ := hh
  obtain ⟨_, he⟩ := h.books hss
  cases hstage : ss.stage with
  | complete statuses =>
    rw [hstage] at he
    obtain ⟨_, hraised, _, hall, _⟩ := he
    exact ⟨(hraised.up_iff id).mpr ⟨hm, hi⟩, hall id hm⟩
  | relock =>
    rw [hstage] at he
    obtain ⟨_, hraised, _, hall⟩ := he
    exact ⟨(hraised.up_iff id).mpr ⟨hm, hi⟩, hall id hm⟩
  | clear todo o | clearJoined k todo o =>
    rw [hstage] at he hst
    cases o with
    | cancelled => cases hst
    | finished =>
      have hmem : id ∈ todo := of_decide_eq_true hst
      obtain ⟨_, hclearing⟩ := he
      exact ⟨(hclearing.up_iff id).mpr ⟨hmem, hi⟩, hclearing.stopped rfl id hmem⟩
  | snapshot | lock | raise | scan | swap | record | test | wait | leave =>
    rw [hstage] at hst
    cases hst

theorem Inv.held (h : s.Inv) (hh : s.Holds id) : 0 < regions s.threads id ∨
      (s.control (.thread id)).stops s.rendezvous.generation = true := by
  obtain ⟨hu, hj⟩ := h.holds hh
  exact (h.marked_of_joined id).held hu hj

/-- The generation changes only when a rendezvous opens. -/
theorem Step.generation (hs : s.Step a s') (hopen : ∀ ss, s.session = some ss → ss.stage ≠ .lock) :
    s'.rendezvous.generation = s.rendezvous.generation := by
  cases hs with
  | account => exact (account_keeps _ _ _ _).1
  | coordinate hss _ hcoord =>
    cases hcoord with
    | lock hst => exact absurd hst (hopen _ hss)
    | cleared =>
      rename_i o _
      cases o <;> rfl
    | _ => rfl
  | _ => rfl

theorem Holds.not_lock (hh : s.Holds id) (ss : Session) (hss : s.session = some ss) :
    ss.stage ≠ .lock := by
  obtain ⟨ss', hss', _, _, hst⟩ := hh
  rw [hss'] at hss
  cases hss
  intro hlock
  rw [hlock] at hst
  cases hst

/-- A thread that is held inside a call makes no step out of it. -/
theorem Inv.stays (h : s.Inv) (hh : s.Holds id)
    (hstop : (s.control (.thread id)).stops s.rendezvous.generation = true) (hs : s.Step a s') :
    (s'.control (.thread id)).stops s'.rendezvous.generation = true ∧
      (s'.control (.thread id)).call = (s.control (.thread id)).call := by
  rw [hs.generation hh.not_lock]
  obtain ⟨hu, _⟩ := h.holds hh
  obtain ⟨_, _, hphase⟩ := h.running hu
  have hroute {c : Control} (hself : a = .thread id →
      c.stops s.rendezvous.generation = true ∧ c.call = (s.control (.thread id)).call) :
      (route s.control a c (.thread id)).stops s.rendezvous.generation = true ∧
        (route s.control a c (.thread id)).call = (s.control (.thread id)).call := by
    by_cases ha : a = .thread id
    · rw [ha, route_self]
      exact hself ha
    · rw [route_ne (Ne.symm ha)]
      exact ⟨hstop, rfl⟩
  -- Other points are no part of a stop.
  have helse {c c' : Control} (hc : s.control a = c) (hno : ∀ g, c.stops g = false)
      (ha : a = .thread id) :
      c'.stops s.rendezvous.generation = true ∧ c'.call = (s.control (.thread id)).call := by
    rw [← ha, hc, hno] at hstop
    cases hstop
  cases hs with
  | call hc | registerLock hc | register hc | unregisterLock hc | unregister hc | readUnlock hc
  | membership hc | drop _ hc => exact hroute (helse hc fun _ => rfl)
  | @own k t c f ht ho =>
    refine hroute fun ha => ?_
    cases ha
    have hy : t.yieldFlag = true := by simpa [shouldYield, ht] using hu
    exact stops_own hstop ho hy hphase
  | acquire hc =>
    refine hroute fun ha => ?_
    subst ha
    exact stops_acquire hstop hc
  | release hc =>
    refine hroute fun ha => ?_
    subst ha
    exact stops_release hstop hc
  | account hc =>
    refine hroute fun ha => ?_
    cases ha
    exact stops_accounts hstop hc
  | coordinate _ hc hcoord =>
    cases hcoord with
    | complete | leave => exact hroute (helse hc fun _ => rfl)
    | _ => exact ⟨hstop, rfl⟩

theorem Inv.keptIn (h : s.Inv) (hh : s.Holds id)
    (hstop : (s.control (.thread id)).stops s.rendezvous.generation = true) : s.KeptIn id := by
  obtain ⟨k, hk⟩ := call_of_stops hstop
  refine ⟨k, hk, fun s' hw => ?_⟩
  suffices s'.Inv ∧ s'.Holds id ∧
      (s'.control (.thread id)).stops s'.rendezvous.generation = true ∧
        (s'.control (.thread id)).call = some k from this.2.2.2
  induction hw with
  | refl => exact ⟨h, hh, hstop, hk⟩
  | step _ hs hp ih =>
    obtain ⟨hinv, hheld, hstops, hcall⟩ := ih
    obtain ⟨hstops', hcall'⟩ := hinv.stays hheld hstops hs
    exact ⟨hinv.step hs, hp, hstops', hcall'.trans hcall⟩

/-- Safety of a rendezvous: while a guard holds a thread, the thread runs no managed code. It is
parked, or in an uncooperative region, or in a call that it cannot return from before the guard lets
it go; the latter is also true of one that is parked. -/
theorem stopped_until_released {s : Machine} (hs : s.Reachable) {id : ThreadId}
    (hh : s.Holds id) :
    (s.Parked id ∨ 0 < regions s.threads id ∨ s.KeptIn id) ∧
      (s.Parked id → s.KeptIn id) ∧ ¬ s.Managed id := by
  have hheld := hs.inv.held hh
  refine ⟨?_, ?_, ?_⟩
  · exact hheld.elim (fun hr => .inr (.inl hr)) fun hstop => .inr (.inr (hs.inv.keptIn hh hstop))
  · rintro ⟨k, hk⟩
    exact hs.inv.keptIn hh (by rw [hk]; exact beq_self_eq_true _)
  · rintro ⟨hr, hcall⟩
    rcases hheld with hpos | hstop
    · omega
    · obtain ⟨k, hk⟩ := Control.call_of_stops hstop
      rw [hk] at hcall
      cases hcall

theorem stopped_until_released_trio : ∃ s : Machine, s.Reachable ∧ s.Holds 2 ∧ s.Holds 3 ∧
    ¬ s.Managed 2 ∧ ¬ s.Managed 3 := by
  obtain ⟨s, ss, hs, hss, hinitiator, hmembers, _, _, hst⟩ := exists_guard
  have hholds (id : ThreadId) (hid : id ∈ [1, 2, 3]) (hne : id ≠ 1) : s.Holds id :=
    ⟨ss, hss, hmembers ▸ hid, by rw [hinitiator]; exact fun h => hne (Option.some.inj h).symm,
      by rw [hst]; rfl⟩
  have h₂ := hholds 2 (by decide) (by decide)
  have h₃ := hholds 3 (by decide) (by decide)
  exact ⟨s, hs, h₂, h₃, (stopped_until_released hs h₂).2.2, (stopped_until_released hs h₃).2.2⟩

end Machine

end ManagedCore.StopTheWorld
