import ManagedCore.Proofs.Rendezvous.Coordinator
import ManagedCore.Proofs.Rendezvous.Undisturbed

/-!
# Every thread is counted once

Four places count a thread: the loop over the flags, the scan for regions, and the two ways of a
thread itself. Whoever wins the exchange on the thread's mark counts it, and nobody else does.
-/

namespace ManagedCore.StopTheWorld.Machine

open Rendezvous

variable {s : Machine} {ss : Session}

/-- A rendezvous that runs while nobody has the state lock waits for threads, or has its guard out. -/
theorem Inv.settled (h : s.Inv) (hp : s.rendezvous.phase ≠ .idle) (free : s.mutex = none) :
    ∃ ss, s.session = some ss ∧ ss.members.Nodup ∧
      ss.Raised (shouldYield s.threads) (hasJoined s.threads) ∧
      ss.Tally s.rendezvous (hasJoined s.threads) none := by
  cases hss : s.session with
  | none =>
    have hl := h.ledger
    rw [hss] at hl
    exact absurd hl.1 hp
  | some ss =>
    obtain ⟨hn, he⟩ := h.books hss
    have hopen : ss.stage.locked = false := by
      have hl := h.session_locks hss
      rw [free] at hl
      simpa using hl
    refine ⟨ss, rfl, hn, ?_⟩
    cases hstage : ss.stage with
    | wait =>
      rw [hstage] at he
      exact he.2
    | complete | relock =>
      rw [hstage] at he
      exact ⟨he.2.1, he.2.2.1⟩
    | snapshot | lock | leave =>
      rw [hstage] at he
      exact absurd he.1 hp
    | raise | scan | swap | record | test | clear | clearJoined =>
      rw [hstage] at hopen
      cases hopen

theorem Inv.joined_count (h : s.Inv) (hp : s.rendezvous.phase ≠ .idle) (free : s.mutex = none) :
    ∃ ss, s.session = some ss ∧ s.rendezvous.joined = s.rendezvous.statuses.length ∧
      s.rendezvous.joined = (ss.members.filter (hasJoined s.threads)).length ∧
      s.rendezvous.joined ≤ s.rendezvous.expected ∧ (s.rendezvous.statuses.map (·.1)).Nodup := by
  obtain ⟨ss, hss, hn, hraised, htally⟩ := h.settled hp free
  have hlen := (htally.perm_filter hraised hn).length_eq
  have hle := List.length_filter_le (hasJoined s.threads) ss.members
  have hjoined := htally.joined
  have hexpected := htally.expected
  rw [List.length_map] at hlen
  rw [Option.toList_none, List.length_nil] at hjoined
  exact ⟨ss, hss, by omega, by omega, by omega, htally.nodup⟩

theorem Inv.guard_statuses (h : s.Inv) (hss : s.session = some ss)
    {statuses : List (ThreadId × ThreadStatus)} (hst : ss.stage = .complete statuses) :
    (statuses.map (·.1)).Perm ss.members ∧
      ∀ e ∈ statuses, e.2 = .initiator ↔ ss.initiator = some e.1 := by
  obtain ⟨hn, he⟩ := h.books hss
  rw [hst] at he
  obtain ⟨_, hraised, htally, hall, rfl⟩ := he
  exact ⟨htally.perm hraised hn hall, htally.status⟩

/-- Accounting of a rendezvous. Whenever one runs and nobody has the state lock, the count is the
number of statuses and of members with their mark, no more than expected, and no thread has two
statuses. The statuses of a guard name each member once, the members are the registered threads, and
the initiator is marked as such and no other thread is. -/
theorem accounted_exactly_once {s : Machine} (hs : s.Reachable) :
    (s.rendezvous.phase ≠ .idle → s.mutex = none →
      ∃ ss, s.session = some ss ∧ s.rendezvous.joined = s.rendezvous.statuses.length ∧
        s.rendezvous.joined = (ss.members.filter (hasJoined s.threads)).length ∧
        s.rendezvous.joined ≤ s.rendezvous.expected ∧
        (s.rendezvous.statuses.map (·.1)).Nodup) ∧
    ∀ ss statuses, s.session = some ss → ss.stage = .complete statuses →
      ss.members.Nodup ∧ ss.members.Perm s.registered ∧ (statuses.map (·.1)).Perm ss.members ∧
        ∀ e ∈ statuses, e.2 = .initiator ↔ ss.initiator = some e.1 := by
  refine ⟨hs.inv.joined_count, fun ss statuses hss hst => ?_⟩
  have hmembers := hs.inv.members ss hss (by rw [hst]; nofun)
  obtain ⟨hperm, hinitiator⟩ := hs.inv.guard_statuses hss hst
  exact ⟨(hs.inv.books hss).1, hmembers, hperm, hinitiator⟩

theorem accounted_exactly_once_trio : ∃ (s : Machine) (ss : Session), s.Reachable ∧
    s.session = some ss ∧ s.rendezvous.joined = s.rendezvous.statuses.length ∧
    s.registered.Perm [1, 2, 3] ∧
    ∀ e ∈ [(1, .initiator), (3, .uncooperative true), (2, ThreadStatus.safepoint)],
      e.2 = .initiator ↔ ss.initiator = some e.1 := by
  obtain ⟨s, ss, hs, hss, _, hmembers, hmutex, hphase, hst⟩ := exists_guard
  obtain ⟨hcount, hguard⟩ := accounted_exactly_once hs
  obtain ⟨_, _, hjoined, _⟩ := hcount (by rw [hphase]; nofun) hmutex
  obtain ⟨_, hregistered, _, hinitiator⟩ := hguard ss _ hss hst
  exact ⟨s, ss, hs, hss, hjoined, hmembers ▸ hregistered.symm, hinitiator⟩

end ManagedCore.StopTheWorld.Machine
