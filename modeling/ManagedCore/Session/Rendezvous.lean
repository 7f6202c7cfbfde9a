import ManagedCore.Session.Threads

/-!
# Sessions on a rendezvous
-/

namespace ManagedCore

/-- How threads take part in stopping the world. -/
structure Sync where
  initiator : Option ThreadId
  /-- Threads that stop at a safepoint. -/
  join : List ThreadId
  /-- Threads on their way into an uncooperative region. -/
  before : List ThreadId
  /-- Threads on their way out of one. -/
  after : List ThreadId

inductive RendezvousStep where
  | enter (t : ThreadId)
  | leave (t : ThreadId)
  | poll (t : ThreadId)
  | attach
  | detach (t : ThreadId)
  | sync (s : Sync)

structure RendezvousSession where
  rendezvous : Rendezvous := {}
  threads : Threads

namespace RendezvousSession

def stateReport (r : Rendezvous) : Report :=
  .list [.text r.phase.name, .nat r.generation, .nat r.completed, .nat r.timeouts]

def bit (b : Bool) : String := if b then "1" else "0"

def flagText (t : Thread) : String :=
  toString t.id ++ ":" ++ bit t.yieldFlag ++ bit t.inRendezvous ++ bit t.isUncooperative ++
    bit t.savedSp

def flags (s : RendezvousSession) : Report := .texts (s.threads.members.toList.map flagText)

def modify (s : RendezvousSession)
    (f : Rendezvous → Threads → Rendezvous × Threads) : RendezvousSession :=
  let (rendezvous, threads) := f s.rendezvous s.threads
  { rendezvous, threads }

def modifyEach (s : RendezvousSession) (ts : List ThreadId)
    (f : Rendezvous → Threads → ThreadId → Rendezvous × Threads) : RendezvousSession :=
  ts.foldl (fun s t => s.modify fun r threads => f r threads t) s

def sync (s : RendezvousSession) (how : Sync) : Report × RendezvousSession :=
  let s := s.modify fun r ts => r.request ts how.initiator
  let s := s.modifyEach how.join Rendezvous.join
  let s := s.modifyEach how.before Rendezvous.joinBefore
  let s := s.modifyEach how.after Rendezvous.joinAfter
  if s.rendezvous.isComplete then
    let s := { s with rendezvous := s.rendezvous.stopWorld }
    let r := s.rendezvous
    let seen : Report := .record
      [("statuses", statusReport r.statuses), ("generation", .nat r.generation),
        ("threads", .nat r.expected), ("during", stateReport r), ("flags", s.flags)]
    (seen, s.modify fun r ts => r.finish ts how.initiator)
  else
    let (e, rendezvous, threads) := s.rendezvous.cancel s.threads how.initiator
    ((EngineError.rendezvous e).report, { rendezvous, threads })

def act (s : RendezvousSession) : RendezvousStep → Report × RendezvousSession
  | .enter t => (.null, s.modify fun r ts => r.enter ts t)
  | .leave t =>
    if (s.threads.find? t).any (·.isUncooperative) then
      (.null, s.modify fun r ts => r.leave ts t)
    else (.null, s)
  | .poll t =>
    (.null, [Rendezvous.join, Rendezvous.join, Rendezvous.joinBefore, Rendezvous.joinAfter].foldl
      (fun s f => s.modify fun r ts => f r ts t) s)
  | .attach =>
    let (id, threads) := s.threads.attach "" 0
    (.nat id, { s with threads })
  | .detach t =>
    (.bool (s.threads.find? t).isSome, { s with threads := s.threads.detach t })
  | .sync how => s.sync how

def run (s : RendezvousSession) : List RendezvousStep → List Report
  | [] => []
  | c :: rest =>
    let (r, s) := s.act c
    .list [r, stateReport s.rendezvous, s.flags, .nat s.threads.size] :: s.run rest

def attachMany : Nat → Threads → Threads
  | 0, ts => ts
  | n + 1, ts => attachMany n (ts.attach "" 0).2

def report (threads : Nat) (steps : List RendezvousStep) : Report :=
  let s : RendezvousSession := { threads := attachMany threads {} }
  .record [("steps", .list (s.run steps))]

end RendezvousSession

end ManagedCore
