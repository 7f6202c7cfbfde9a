import ManagedCore.Proofs.Rendezvous.Invariant

/-!
# Calls without interference

A thread that nobody disturbs goes from point to point by itself. So a call that is not interrupted
comes, by its single steps, to what the engine computes for it at once.
-/

namespace ManagedCore.StopTheWorld

open Rendezvous Threads

theorem route_route (control : Agent → Control) (a : Agent) (c c' : Control) :
    route (route control a c) a c' = route control a c' := by
  funext b
  simp only [route]
  split <;> rfl

theorem route_same (control : Agent → Control) (a : Agent) :
    route control a (control a) = control := by
  funext b
  unfold route
  split
  · rename_i hb
    rw [hb]
  · rfl

theorem modify_id (ts : Threads) (k : ThreadId) : ts.modify k id = ts :=
  modify_self fun _ _ => rfl

variable {id : ThreadId} {t : Thread} {b b' : Rendezvous × Threads} {c c' : Control} {n : Nat}

namespace Control

/-- What a thread comes to next, if the state lock is free whenever it takes it. -/
def next (id : ThreadId) (c : Control) (b : Rendezvous × Threads) :
    Option (Control × Rendezvous × Threads) :=
  (b.2.find? id).bind fun t =>
    match c.own t b.1, c.accounts with
    | some (c', f), _ => some (c', b.1, b.2.modify id f)
    | none, some (status, c') => some (c', b.1.account b.2 id status)
    | none, none => (c.acquire.or (c.release b.1)).map (·, b)

def run (id : ThreadId) :
    Nat → Control → Rendezvous × Threads → Option (Control × Rendezvous × Threads)
  | 0, c, b => some (c, b)
  | n + 1, c, b => (c.next id b).bind fun p => p.1.run id n p.2

end Control

namespace Machine

variable {s s₀ : Machine} {a : Agent}

/-- The agent is at a point, with the state lock if that is inside a critical section. -/
def after (s : Machine) (a : Agent) (c : Control) (b : Rendezvous × Threads) : Machine :=
  { s with
    rendezvous := b.1
    threads := b.2
    mutex := if c.locked then some (.agent a) else none
    control := route s.control a c }

theorem after_goTo {m : Option Holder} (hm : m = if c'.locked then some (.agent a) else none) :
    { s.after a c b with rendezvous := b'.1, threads := b'.2, mutex := m }.goTo a c' =
      s.after a c' b' := by
  rw [hm, goTo, after, route_route]
  rfl

namespace Execution

theorem trans {s' s'' : Machine} (h : Execution s s') (h' : Execution s' s'') :
    Execution s s'' := by
  induction h' with
  | refl => exact h
  | step _ hs ih => exact ih.step hs

theorem next (h : Execution s₀ (s.after (.thread id) c b)) (hnext : c.next id b = some (c', b')) :
    Execution s₀ (s.after (.thread id) c' b') := by
  obtain ⟨t, ht, hnext⟩ := Option.bind_eq_some_iff.mp hnext
  have hc : (s.after (.thread id) c b).control (.thread id) = c := route_self
  split at hnext
  · rename_i ho
    cases hnext
    have hl := (Control.own_frame ho).2.2.2.1
    exact after_goTo (by rw [hl]) ▸ h.step (.own ht (by rw [hc]; exact ho))
  · rename_i haccount
    cases hnext
    obtain ⟨-, hl, hl', -⟩ := accounts_frame haccount
    exact after_goTo (by rw [hl'.trans hl.symm]) ▸ h.step (.account (by rw [hc]; exact haccount))
  · obtain ⟨c', hor, heq⟩ := Option.map_eq_some_iff.mp hnext
    cases heq
    rcases Option.or_eq_some_iff.mp hor with hacquire | ⟨-, hrelease⟩
    · have hl : c.locked = false ∧ c'.locked = true := by
        cases c <;> cases hacquire <;> exact ⟨rfl, rfl⟩
      exact after_goTo (by rw [hl.2]) ▸ h.step (.acquire (by rw [hc]; exact hacquire)
        (by rw [after, hl.1]; rfl))
    · obtain ⟨-, hl, -⟩ := release_frame hrelease
      exact after_goTo (by rw [hl]) ▸ h.step (.release (by rw [hc]; exact hrelease))

theorem run (h : Execution s₀ (s.after (.thread id) c b)) (hrun : c.run id n b = some (c', b')) :
    Execution s₀ (s.after (.thread id) c' b') := by
  induction n generalizing c b with
  | zero =>
    cases hrun
    exact h
  | succ n ih =>
    obtain ⟨p, hnext, hrest⟩ := Option.bind_eq_some_iff.mp hrun
    exact ih (h.next hnext) hrest

end Execution

theorem after_self (hm : s.mutex = if (s.control a).locked then some (.agent a) else none) :
    s.after a (s.control a) (s.rendezvous, s.threads) = s := by
  rw [after, route_same, ← hm]

theorem Execution.call (hm : s.mutex = none) (hc : s.control a = .idle) (h : s.Calls a c) :
    Execution s (s.after a c (s.rendezvous, s.threads)) := by
  have hs := (Execution.refl s).step (.call hc h)
  have hl : c.locked = false := by cases h <;> rfl
  rw [after, hl]
  rw [← hm]
  exact hs

end Machine

theorem account_find? (r : Rendezvous) (ts : Threads) (id : ThreadId) (status : ThreadStatus) :
    (r.account ts id status).2.find? id = (ts.find? id).map (setJoined true) := by
  cases ht : ts.find? id with
  | none => simp only [account, ht, Option.map_none]
  | some t => rw [account_eq r ht, ts.find?_modify_self id (f := setJoined true) fun _ => rfl, ht]

/-- A thread that parks on its way out of a region has its stack pointer saved. -/
def parking (t : Thread) : Parking :=
  if t.savedSp && t.uncooperative == 0 then .leave else .safepoint

namespace Control

variable (ht : b.2.find? id = some t)

include ht

theorem run_poll (hp : t.yieldFlag = true → b.1.phase ≠ .idle) : ∃ n, run id n .poll b = some
      (if t.yieldFlag then .parkWait .safepoint b.1.generation else .idle, b.1.join b.2 id) := by
  by_cases hy : t.yieldFlag = true
  · refine ⟨6, ?_⟩
    simp [run, next, own, accounts, acquire, release, join, shouldYield, park,
      account_keeps, modify_id, account_find?, find?_modify_self, ht, hy,
      hp hy]
  · refine ⟨1, ?_⟩
    simp [run, next, own, join, shouldYield, modify_id, ht, hy]

theorem run_enterLoad (k : Entering) :
    ∃ n, run id n (.enterLoad k) b = some (k.next, b.1.enter b.2 id) := by
  by_cases hn : t.uncooperative = 0
  · by_cases hy : t.yieldFlag = true
    · refine ⟨9, ?_⟩
      simp [run, next, own, accounts, acquire, release, enter, joinBefore,
        shouldYield, savedStatus, account_find?, modify_modify,
        find?_modify_self, ht, hn, hy]
    · refine ⟨4, ?_⟩
      simp [run, next, own, enter, joinBefore, shouldYield,
        modify_modify, find?_modify_self, ht, hn, hy]
  · refine ⟨2, ?_⟩
    simp [run, next, own, enter, modify_id, ht, hn]

theorem run_leaveSub (hp : t.yieldFlag = true → b.1.phase ≠ .idle) :
    ∃ n, run id n .leaveSub b = some
      (if t.yieldFlag ∧ t.uncooperative = 1 then .parkWait .leave b.1.generation else .idle,
        b.1.leave b.2 id) := by
  by_cases hn : t.uncooperative = 1
  · by_cases hy : t.yieldFlag = true
    · refine ⟨8, ?_⟩
      simp [run, next, own, accounts, acquire, release, leave, joinAfter,
        shouldYield, savedStatus, park, account_keeps, modify_id,
        account_find?, find?_modify_self, ht, hn, hy, hp hy]
    · refine ⟨3, ?_⟩
      simp [run, next, own, leave, afterLeave, modify_id,
        find?_modify_self, ht, hn, hy]
  · refine ⟨1, ?_⟩
    simp [run, next, own, leave, ht, hn]

theorem run_parkWait (hp : b.1.phase = .idle) (hin : t.inRendezvous = true) (g : Nat) :
    ∃ n, run id n (.parkWait (parking t) g) b = some (.idle, b.1, b.2.modify id wakeThread) := by
  cases hk : t.savedSp && t.uncooperative == 0 with
  | true =>
    have hwake : (b.2.modify id fun t => { t with inRendezvous := false, savedSp := false }) =
        b.2.modify id wakeThread :=
      modify_congr fun t' ht' => by
        simp_all [wakeThread]
    refine ⟨5, ?_⟩
    rw [← hwake]
    simp [parking, hk, run, next, own, accounts, acquire, release, Parking.next,
      modify_modify, find?_modify_self, ht, hp]
  | false =>
    have hwake : (b.2.modify id fun t => { t with inRendezvous := false }) =
        b.2.modify id wakeThread :=
      modify_congr fun t' ht' => by
        simp_all [wakeThread]
    refine ⟨4, ?_⟩
    rw [← hwake]
    simp [parking, hk, run, next, own, accounts, acquire, release, Parking.next, modify_id,
      find?_modify_self, ht, hp]

end Control

end ManagedCore.StopTheWorld
