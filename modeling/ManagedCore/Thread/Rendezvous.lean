import ManagedCore.Thread.Basic

/-!
# Rendezvous

A coordinator stops the world by raising the yield flag of every thread and waiting until each is
accounted for exactly once: itself as the initiator, a thread in an uncooperative region with the
stack pointer it saved, and any other thread when it parks at a safepoint. Threads that leave an
uncooperative region meanwhile park on the way out. The end of the rendezvous clears all flags.
-/

namespace ManagedCore

inductive Phase where
  | idle | requested | rendezvousing | complete
deriving DecidableEq, Repr

def Phase.name : Phase → String
  | idle => "Idle"
  | requested => "Requested"
  | rendezvousing => "Rendezvousing"
  | complete => "Complete"

/-- How a thread was accounted for. -/
inductive ThreadStatus where
  | initiator
  | safepoint
  | uncooperative (savedSp : Bool)
deriving DecidableEq, Repr

def ThreadStatus.text : ThreadStatus → String
  | initiator => "initiator"
  | safepoint => "safepoint"
  | uncooperative true => "uncooperative:sp"
  | uncooperative false => "uncooperative:0"

structure RendezvousTimeout where
  joined : Nat
  expected : Nat
deriving DecidableEq, Repr

def RendezvousTimeout.message (e : RendezvousTimeout) : String :=
  s!"rendezvous timed out with {e.joined} of {e.expected} threads accounted for"

structure Rendezvous where
  phase : Phase := .idle
  generation : Nat := 0
  expected : Nat := 0
  joined : Nat := 0
  statuses : List (ThreadId × ThreadStatus) := []
  completed : Nat := 0
  timeouts : Nat := 0
deriving DecidableEq, Repr

namespace Rendezvous

def isComplete (r : Rendezvous) : Bool := r.expected ≤ r.joined

/-- A new generation for so many threads, none of them counted yet. -/
def opened (r : Rendezvous) (expected : Nat) : Rendezvous :=
  { r with
    phase := .requested
    generation := r.generation + 1
    expected := expected
    joined := 0
    statuses := [] }

def count (r : Rendezvous) : Rendezvous := { r with joined := r.joined + 1 }

def record (r : Rendezvous) (id : ThreadId) (status : ThreadStatus) : Rendezvous :=
  { r with statuses := r.statuses ++ [(id, status)] }

def setYield (b : Bool) (t : Thread) : Thread := { t with yieldFlag := b }

def setJoined (b : Bool) (t : Thread) : Thread := { t with joined := b }

def account (r : Rendezvous) (ts : Threads) (id : ThreadId) (status : ThreadStatus) :
    Rendezvous × Threads :=
  match ts.find? id with
  | none => (r, ts)
  | some t =>
    if t.joined then (r, ts)
    else (r.count.record id status, ts.modify id (setJoined true))

def park (ts : Threads) (id : ThreadId) : Threads :=
  ts.modify id fun t => { t with inRendezvous := true }

def shouldYield (ts : Threads) (id : ThreadId) : Bool := (ts.find? id).any (·.yieldFlag)

/-- A thread that is asked to yield stops at a safepoint. -/
def join (r : Rendezvous) (ts : Threads) (id : ThreadId) : Rendezvous × Threads :=
  if shouldYield ts id then
    let (r, ts) := r.account ts id .safepoint
    (r, park ts id)
  else (r, ts)

def savedStatus (ts : Threads) (id : ThreadId) : ThreadStatus :=
  .uncooperative ((ts.find? id).any (·.savedSp))

/-- A thread that enters an uncooperative region while asked to yield is counted and goes on. -/
def joinBefore (r : Rendezvous) (ts : Threads) (id : ThreadId) : Rendezvous × Threads :=
  if shouldYield ts id then r.account ts id (savedStatus ts id) else (r, ts)

/-- A thread that leaves an uncooperative region while asked to yield is counted and stops. -/
def joinAfter (r : Rendezvous) (ts : Threads) (id : ThreadId) : Rendezvous × Threads :=
  if shouldYield ts id then
    let (r, ts) := r.account ts id (savedStatus ts id)
    (r, park ts id)
  else (r, ts)

def enter (r : Rendezvous) (ts : Threads) (id : ThreadId) : Rendezvous × Threads :=
  match ts.find? id with
  | none => (r, ts)
  | some t =>
    if t.uncooperative = 0 then
      r.joinBefore (ts.modify id fun t =>
        { t with savedSp := true, uncooperative := t.uncooperative + 1 }) id
    else (r, ts.modify id fun t => { t with uncooperative := t.uncooperative + 1 })

/-- The saved stack pointer is dropped once the thread may run again. -/
def afterLeave (ts : Threads) (id : ThreadId) : Threads :=
  ts.modify id fun t => { t with savedSp := false }

/-- Leaves an uncooperative region. A thread asked to yield stops with its stack pointer still
saved. -/
def leave (r : Rendezvous) (ts : Threads) (id : ThreadId) : Rendezvous × Threads :=
  match ts.find? id with
  | none => (r, ts)
  | some t =>
    let ts := ts.modify id fun t => { t with uncooperative := t.uncooperative - 1 }
    if t.uncooperative ≠ 1 then (r, ts)
    else if t.yieldFlag then r.joinAfter ts id
    else (r, afterLeave ts id)

def regions (ts : Threads) (id : ThreadId) : Nat := ((ts.find? id).map (·.uncooperative)).getD 0

def hasJoined (ts : Threads) (id : ThreadId) : Bool := (ts.find? id).any (·.joined)

def enterInitiator (r : Rendezvous) (ts : Threads) : Option ThreadId → Rendezvous × Threads
  | some id => r.enter ts id
  | none => (r, ts)

/-- The initiator counts itself, and any other thread is asked to yield. -/
def raiseOne (initiator : Option ThreadId) (b : Rendezvous × Threads) (id : ThreadId) :
    Rendezvous × Threads :=
  if initiator = some id then
    (b.1.count.record id .initiator, b.2.modify id (setJoined true))
  else (b.1, b.2.modify id (setYield true))

/-- A thread in an uncooperative region is stopped already. -/
def scanOne (b : Rendezvous × Threads) (id : ThreadId) : Rendezvous × Threads :=
  if 0 < regions b.2 id ∧ hasJoined b.2 id = false then
    (b.1.count.record id (savedStatus b.2 id), b.2.modify id (setJoined true))
  else b

/-- Raises the flags and counts the threads that are stopped already. -/
def convene (r : Rendezvous) (ts : Threads) (initiator : Option ThreadId) : Rendezvous × Threads :=
  let (r, ts) := ts.ids.foldl scanOne
    (ts.ids.foldl (raiseOne initiator) (r.opened ts.ids.length, ts))
  ({ r with phase := .rendezvousing }, ts)

def request (r : Rendezvous) (ts : Threads) (initiator : Option ThreadId) :
    Rendezvous × Threads :=
  let (r, ts) := r.enterInitiator ts initiator
  r.convene ts initiator

def stopWorld (r : Rendezvous) : Rendezvous := { r with phase := .complete }

def clearThread (t : Thread) : Thread := setJoined false (setYield false t)

/-- A thread that was parked on its way out of a region drops its stack pointer. -/
def wakeThread (t : Thread) : Thread :=
  { t with
    inRendezvous := false
    savedSp := t.savedSp && !(t.inRendezvous && t.uncooperative == 0) }

/-- All flags are cleared before the parked threads go on. -/
def release (r : Rendezvous) (ts : Threads) : Rendezvous × Threads :=
  ({ r with phase := .idle }, (ts.modifyAll clearThread ts.ids).modifyAll wakeThread ts.ids)

def leaveInitiator (r : Rendezvous) (ts : Threads) (initiator : Option ThreadId) :
    Rendezvous × Threads :=
  match initiator with
  | some id => r.leave ts id
  | none => (r, ts)

def finish (r : Rendezvous) (ts : Threads) (initiator : Option ThreadId) :
    Rendezvous × Threads :=
  let (r, ts) := r.release ts
  { r with completed := r.completed + 1 }.leaveInitiator ts initiator

def cancel (r : Rendezvous) (ts : Threads) (initiator : Option ThreadId) :
    RendezvousTimeout × Rendezvous × Threads :=
  let e : RendezvousTimeout := ⟨r.joined, r.expected⟩
  let (r, ts) := r.release ts
  (e, { r with timeouts := r.timeouts + 1 }.leaveInitiator ts initiator)

end Rendezvous

end ManagedCore
