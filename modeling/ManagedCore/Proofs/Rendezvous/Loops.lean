import ManagedCore.Proofs.Rendezvous.Alone

/-!
# The loops of a coordinator

A coordinator that is not interrupted goes thread by thread through what the engine computes at once
for the start and the end of a rendezvous.
-/

namespace ManagedCore.StopTheWorld

open Rendezvous

namespace Machine

variable {s s₀ s' : Machine} {ss : Session} {stage : Stage} {todo : List ThreadId}
  {b : Rendezvous × Threads}

/-- The coordinator is at a stage, with the state lock if that is inside its critical section. -/
def during (s : Machine) (ss : Session) (stage : Stage) (b : Rendezvous × Threads) : Machine :=
  { s with
    session := some { ss with stage }
    rendezvous := b.1
    threads := b.2
    mutex := if stage.locked then some .session else none
    control := route s.control ss.agent .coordinating }

theorem during_self (hss : s.session = some ss) (hc : s.control ss.agent = .coordinating)
    (hm : s.mutex = if ss.stage.locked then some .session else none) :
    s.during ss ss.stage (s.rendezvous, s.threads) = s := by
  rw [during, ← hm, ← hss, ← hc, route_same]

namespace Execution

theorem coordinate (h : Execution s₀ (s.during ss stage b))
    (hs : (s.during ss stage b).Coordinates { ss with stage } s') : Execution s₀ s' :=
  h.step (.coordinate rfl route_self hs)

theorem raiseLoop (h : Execution s₀ (s.during ss (.raise todo) b)) :
    Execution s₀ (s.during ss (.scan ss.members) (todo.foldl (raiseOne ss.initiator) b)) := by
  induction todo generalizing b with
  | nil => exact h.coordinate (.raised rfl)
  | cons id todo ih =>
    apply ih
    rw [raiseOne]
    split
    · rename_i hi
      exact h.coordinate (.raiseInitiator rfl hi)
    · rename_i hi
      exact h.coordinate (.raiseFlag rfl hi)

theorem scanLoop (h : Execution s₀ (s.during ss (.scan todo) b)) : Execution s₀ (s.during ss .test
      ({ (todo.foldl scanOne b).1 with phase := .rendezvousing }, (todo.foldl scanOne b).2)) := by
  induction todo generalizing b with
  | nil => exact h.coordinate (.scanned rfl)
  | cons id todo ih =>
    apply ih
    rw [scanOne]
    by_cases hr : 0 < regions b.2 id
    · have hswap : Execution s₀ (s.during ss (.swap id todo) b) :=
        h.coordinate (.uncooperative rfl hr)
      cases hj : hasJoined b.2 id with
      | true =>
        rw [if_neg (by simp)]
        exact hswap.coordinate (.swapJoined rfl hj)
      | false =>
        rw [if_pos ⟨hr, rfl⟩]
        have hrecord : Execution s₀ (s.during ss (.record id todo)
            (b.1.count, b.2.modify id (setJoined true))) := hswap.coordinate (.swapFresh rfl hj)
        have hstatus : savedStatus (b.2.modify id (setJoined true)) id = savedStatus b.2 id :=
          congrArg _ (flag_modify_keep (f := setJoined true) (fun _ => rfl) (fun _ => rfl) id)
        rw [← hstatus]
        exact hrecord.coordinate (.record rfl)
    · rw [if_neg fun h => hr h.1]
      exact h.coordinate (.cooperative rfl (Nat.eq_zero_of_not_pos hr))

theorem clearLoop {o : Outcome} (h : Execution s₀ (s.during ss (.clear todo o) b)) :
    Execution s₀ (s.during ss .leave (o.tally { b.1 with phase := .idle },
      b.2.modifyAll clearThread todo)) := by
  induction todo generalizing b with
  | nil => exact h.coordinate (.cleared rfl)
  | cons id todo ih =>
    have hlowered : Execution s₀ (s.during ss (.clearJoined id todo o)
        (b.1, b.2.modify id (setYield false))) := h.coordinate (.clear rfl)
    have hcleared : Execution s₀ (s.during ss (.clear todo o)
        (b.1, (b.2.modify id (setYield false)).modify id (setJoined false))) :=
      hlowered.coordinate (.clearJoined rfl)
    rw [b.2.modify_modify id (f := setYield false) fun _ => rfl] at hcleared
    exact ih hcleared

/-- A coordinator that waits for the membership lock goes through its snapshot and both loops. -/
theorem convene {a : Agent} {i : Bool} (h : Execution s₀ (s.after a (.membership i) b))
    (free : s.session = none) (unread : s.readers = []) (hsorted : b.2.ids.Pairwise (· < ·))
    (hperm : b.2.ids.Perm s.registered) :
    Execution s₀ (s.during { agent := a, initiator := a.initiator i, members := b.2.ids } .test
      (b.1.convene b.2 (a.initiator i))) := by
  have hstep := Step.membership (s := s.after a (.membership i) b) route_self free unread
  rw [goTo, after, route_route] at hstep
  have hheld : Execution s₀ (s.during { agent := a, initiator := a.initiator i } .snapshot b) :=
    h.step hstep
  have hsnapshot : Execution s₀ (s.during
      { agent := a, initiator := a.initiator i, members := b.2.ids } .lock b) :=
    hheld.coordinate (.snapshot rfl hperm hsorted)
  have hlocked : Execution s₀ (s.during
      { agent := a, initiator := a.initiator i, members := b.2.ids } (.raise b.2.ids)
      (b.1.opened b.2.ids.length, b.2)) := hsnapshot.coordinate (.lock rfl rfl)
  exact hlocked.raiseLoop.scanLoop

end Execution

end Machine

end ManagedCore.StopTheWorld
