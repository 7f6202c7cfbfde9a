import ManagedCore.Thread.Rendezvous

/-!
# Rendezvous in single steps

Threads and coordinators of a rendezvous interleave. Each load, store, exchange or addition on a
thread's flags is one step, also inside the critical sections of the state lock; what only the
holder of that lock may read or write goes along with one of these steps. Waiting gives the lock up,
and a waiter may come back at any time.
-/

namespace ManagedCore.StopTheWorld

open Rendezvous

/-- Who takes steps: a thread of the engine, or a host that has none and only coordinates. -/
inductive Agent where
  | thread (id : ThreadId)
  | host (n : Nat)
deriving DecidableEq

inductive Entering where
  | region | unregister | synchronize
deriving DecidableEq

inductive Parking where
  | safepoint | leave
deriving DecidableEq

/-- What an agent is about to do. An idle thread runs its own code. -/
inductive Control where
  | idle
  | poll | joinLock | joinCheck | joinAccount
  | enterLoad (k : Entering) | enterSave (k : Entering) | enterAdd (k : Entering)
  | enterPoll (k : Entering) | beforeLock (k : Entering) | beforeCheck (k : Entering)
  | beforeSp (k : Entering) | beforeAccount (k : Entering) (savedSp : Bool)
  | leaveSub | leavePoll | afterLock | afterCheck | afterSp | afterAccount (savedSp : Bool)
  | leaveSave
  | parkMark (k : Parking) | parkTest (k : Parking) (generation : Nat)
  | parkWait (k : Parking) (generation : Nat) | parkClear (k : Parking)
  | unlockEnter (k : Entering) | unlockPark (k : Parking)
  | registerLock (id : ThreadId) | registerInsert (id : ThreadId)
  | unregisterLock | unregisterRemove | readUnlock
  | membership (asInitiator : Bool)
  | coordinating
deriving DecidableEq

def Entering.next : Entering → Control
  | region => .idle
  | unregister => .unregisterLock
  | synchronize => .membership true

def Parking.next : Parking → Control
  | safepoint => .idle
  | leave => .leaveSave

namespace Control

/-- Steps of a thread that read and write its own record alone. -/
def own (t : Thread) (r : Rendezvous) : Control → Option (Control × (Thread → Thread))
  | poll => some (if t.yieldFlag then joinLock else idle, id)
  | joinCheck => some (if t.yieldFlag then joinAccount else unlockPark .safepoint, id)
  | enterLoad k => some (if t.uncooperative = 0 then enterSave k else enterAdd k, id)
  | enterSave k => some (enterAdd k, fun t => { t with savedSp := true })
  | enterAdd k =>
    some (if t.uncooperative = 0 then enterPoll k else k.next,
      fun t => { t with uncooperative := t.uncooperative + 1 })
  | enterPoll k => some (if t.yieldFlag then beforeLock k else k.next, id)
  | beforeCheck k => some (if t.yieldFlag then beforeSp k else unlockEnter k, id)
  | beforeSp k => some (beforeAccount k t.savedSp, id)
  | leaveSub =>
    some (if t.uncooperative = 1 then leavePoll else idle,
      fun t => { t with uncooperative := t.uncooperative - 1 })
  | leavePoll => some (if t.yieldFlag then afterLock else leaveSave, id)
  | afterCheck => some (if t.yieldFlag then afterSp else unlockPark .leave, id)
  | afterSp => some (afterAccount t.savedSp, id)
  | leaveSave => some (idle, fun t => { t with savedSp := false })
  | parkMark k => some (parkTest k r.generation, fun t => { t with inRendezvous := true })
  | parkTest k g => if r.generation = g ∧ r.phase ≠ .idle then none else some (parkClear k, id)
  | parkClear k => some (unlockPark k, fun t => { t with inRendezvous := false })
  | _ => none

def acquire : Control → Option Control
  | joinLock => some joinCheck
  | beforeLock k => some (beforeCheck k)
  | afterLock => some afterCheck
  | parkWait k g => some (parkTest k g)
  | _ => none

def release (r : Rendezvous) : Control → Option Control
  | unlockEnter k => some k.next
  | unlockPark k => some k.next
  | parkTest k g => if r.generation = g ∧ r.phase ≠ .idle then some (parkWait k g) else none
  | _ => none

def accounts : Control → Option (ThreadStatus × Control)
  | joinAccount => some (.safepoint, parkMark .safepoint)
  | beforeAccount k sp => some (.uncooperative sp, unlockEnter k)
  | afterAccount sp => some (.uncooperative sp, parkMark .leave)
  | _ => none

end Control

inductive Outcome where
  | finished | cancelled
deriving DecidableEq

def Outcome.tally (r : Rendezvous) : Outcome → Rendezvous
  | finished => { r with completed := r.completed + 1 }
  | cancelled => { r with timeouts := r.timeouts + 1 }

/-- How far a coordinator is, from the membership lock on. -/
inductive Stage where
  | snapshot | lock
  | raise (todo : List ThreadId)
  | scan (todo : List ThreadId)
  | swap (id : ThreadId) (todo : List ThreadId)
  | record (id : ThreadId) (todo : List ThreadId)
  | test | wait
  | complete (statuses : List (ThreadId × ThreadStatus))
  | relock
  | clear (todo : List ThreadId) (o : Outcome)
  | clearJoined (id : ThreadId) (todo : List ThreadId) (o : Outcome)
  | leave
deriving DecidableEq

/-- The threads of a rendezvous: the snapshot, and the coordinator if it is a thread itself. -/
structure Party where
  initiator : Option ThreadId
  members : List ThreadId := []
deriving DecidableEq

/-- The coordinator that has the membership lock. -/
structure Session extends Party where
  agent : Agent
  stage : Stage := .snapshot
deriving DecidableEq

inductive Holder where
  | agent (a : Agent)
  | session
deriving DecidableEq

structure Machine where
  threads : Threads
  registered : List ThreadId
  rendezvous : Rendezvous := {}
  /-- Who has the state lock. -/
  mutex : Option Holder := none
  /-- Agents that share the membership lock. -/
  readers : List Agent := []
  session : Option Session := none
  control : Agent → Control := fun _ => .idle

def Agent.initiator : Agent → Bool → Option ThreadId
  | thread id, true => some id
  | _, _ => none

def route (control : Agent → Control) (a : Agent) (c : Control) : Agent → Control :=
  fun b => if b = a then c else control b

namespace Machine

def goTo (s : Machine) (a : Agent) (c : Control) : Machine :=
  { s with control := route s.control a c }

def toStage (s : Machine) (ss : Session) (stage : Stage) : Machine :=
  { s with session := some { ss with stage } }

def modify (s : Machine) (id : ThreadId) (f : Thread → Thread) : Machine :=
  { s with threads := s.threads.modify id f }

/-- A region that an initiator entered is left with its guard. -/
def guardRegions (s : Machine) (id : ThreadId) : Nat :=
  match s.session with
  | some ss => if ss.initiator = some id then 1 else 0
  | none => 0

inductive Calls (s : Machine) : Agent → Control → Prop
  | safepoint (id : ThreadId) : Calls s (.thread id) .poll
  | enter (id : ThreadId) : Calls s (.thread id) (.enterLoad .region)
  | leave (id : ThreadId) (h : s.guardRegions id < regions s.threads id) :
      Calls s (.thread id) .leaveSub
  | register (a : Agent) (id : ThreadId) (h : (s.threads.find? id).isSome) :
      Calls s a (.registerLock id)
  | unregister (id : ThreadId) : Calls s (.thread id) (.enterLoad .unregister)
  | synchronize (id : ThreadId) : Calls s (.thread id) (.enterLoad .synchronize)
  | coordinate (a : Agent) : Calls s a (.membership false)

/-- Steps of the coordinator that has the membership lock. -/
inductive Coordinates (s : Machine) (ss : Session) : Machine → Prop
  | snapshot {members} (h : ss.stage = .snapshot) (hm : members.Perm s.registered)
      (hs : members.Pairwise (· < ·)) : Coordinates s ss (s.toStage { ss with members } .lock)
  | lock (h : ss.stage = .lock) (free : s.mutex = none) :
      Coordinates s ss
        ({ s with
            mutex := some .session
            rendezvous := s.rendezvous.opened ss.members.length }.toStage ss (.raise ss.members))
  | raiseInitiator {id todo} (h : ss.stage = .raise (id :: todo)) (hi : ss.initiator = some id) :
      Coordinates s ss
        (({ s with rendezvous := s.rendezvous.count.record id .initiator }.modify id
          (setJoined true)).toStage ss (.raise todo))
  | raiseFlag {id todo} (h : ss.stage = .raise (id :: todo)) (hi : ss.initiator ≠ some id) :
      Coordinates s ss
        ((s.modify id (setYield true)).toStage ss (.raise todo))
  | raised (h : ss.stage = .raise []) : Coordinates s ss (s.toStage ss (.scan ss.members))
  | cooperative {id todo} (h : ss.stage = .scan (id :: todo)) (hr : regions s.threads id = 0) :
      Coordinates s ss (s.toStage ss (.scan todo))
  | uncooperative {id todo} (h : ss.stage = .scan (id :: todo)) (hr : 0 < regions s.threads id) :
      Coordinates s ss (s.toStage ss (.swap id todo))
  | swapJoined {id todo} (h : ss.stage = .swap id todo) (hj : hasJoined s.threads id = true) :
      Coordinates s ss (s.toStage ss (.scan todo))
  | swapFresh {id todo} (h : ss.stage = .swap id todo) (hj : hasJoined s.threads id = false) :
      Coordinates s ss
        (({ s with rendezvous := s.rendezvous.count }.modify id
          (setJoined true)).toStage ss (.record id todo))
  | record {id todo} (h : ss.stage = .record id todo) :
      Coordinates s ss
        ({ s with rendezvous := s.rendezvous.record id (savedStatus s.threads id) }.toStage ss
          (.scan todo))
  | scanned (h : ss.stage = .scan []) :
      Coordinates s ss
        ({ s with rendezvous := { s.rendezvous with phase := .rendezvousing } }.toStage ss .test)
  | wait (h : ss.stage = .test) (hc : s.rendezvous.isComplete = false) :
      Coordinates s ss ({ s with mutex := none }.toStage ss .wait)
  | wake (h : ss.stage = .wait) (free : s.mutex = none) :
      Coordinates s ss ({ s with mutex := some .session }.toStage ss .test)
  | timeout (h : ss.stage = .wait) (free : s.mutex = none) (hc : s.rendezvous.isComplete = false) :
      Coordinates s ss
        ({ s with mutex := some .session }.toStage ss (.clear ss.members .cancelled))
  | complete (h : ss.stage = .test) (hc : s.rendezvous.isComplete = true) :
      Coordinates s ss
        (({ s with mutex := none, rendezvous := s.rendezvous.stopWorld }.toStage ss
          (.complete s.rendezvous.statuses)).goTo ss.agent .idle)
  | relock (h : ss.stage = .relock) (free : s.mutex = none) :
      Coordinates s ss
        ({ s with mutex := some .session }.toStage ss (.clear ss.members .finished))
  | clear {id todo o} (h : ss.stage = .clear (id :: todo) o) :
      Coordinates s ss
        ((s.modify id (setYield false)).toStage ss (.clearJoined id todo o))
  | clearJoined {id todo o} (h : ss.stage = .clearJoined id todo o) :
      Coordinates s ss
        ((s.modify id (setJoined false)).toStage ss (.clear todo o))
  | cleared {o} (h : ss.stage = .clear [] o) :
      Coordinates s ss
        ({ s with mutex := none, rendezvous := o.tally { s.rendezvous with phase := .idle } }.toStage
          ss .leave)
  | leave (h : ss.stage = .leave) :
      Coordinates s ss
        ({ s with session := none }.goTo ss.agent
          (if ss.initiator.isSome then .leaveSub else .idle))

/-- One step of an agent. -/
inductive Step (s : Machine) : Agent → Machine → Prop
  | call {a c} (hc : s.control a = .idle) (h : s.Calls a c) : Step s a (s.goTo a c)
  | own {id t c f} (ht : s.threads.find? id = some t)
      (h : (s.control (.thread id)).own t s.rendezvous = some (c, f)) :
      Step s (.thread id) ((s.modify id f).goTo (.thread id) c)
  | acquire {a c} (h : (s.control a).acquire = some c) (free : s.mutex = none) :
      Step s a ({ s with mutex := some (.agent a) }.goTo a c)
  | release {a c} (h : (s.control a).release s.rendezvous = some c) :
      Step s a ({ s with mutex := none }.goTo a c)
  | account {id status c} (h : (s.control (.thread id)).accounts = some (status, c)) :
      Step s (.thread id)
        ({ s with
            rendezvous := (s.rendezvous.account s.threads id status).1
            threads := (s.rendezvous.account s.threads id status).2 }.goTo (.thread id) c)
  | registerLock {a id} (hc : s.control a = .registerLock id) (free : s.session = none) :
      Step s a ({ s with readers := a :: s.readers }.goTo a (.registerInsert id))
  | register {a id} (hc : s.control a = .registerInsert id) :
      Step s a ({ s with registered := s.registered.insert id }.goTo a .readUnlock)
  | unregisterLock {a} (hc : s.control a = .unregisterLock) (free : s.session = none) :
      Step s a ({ s with readers := a :: s.readers }.goTo a .unregisterRemove)
  | unregister {id} (hc : s.control (.thread id) = .unregisterRemove) :
      Step s (.thread id)
        ({ s with registered := s.registered.erase id }.goTo (.thread id) .readUnlock)
  | readUnlock {a} (hc : s.control a = .readUnlock) :
      Step s a ({ s with readers := s.readers.erase a }.goTo a .idle)
  | membership {a i} (hc : s.control a = .membership i) (free : s.session = none)
      (unread : s.readers = []) :
      Step s a
        ({ s with session := some { agent := a, initiator := a.initiator i } }.goTo a .coordinating)
  | drop {ss statuses} (hss : s.session = some ss) (hc : s.control ss.agent = .idle)
      (h : ss.stage = .complete statuses) :
      Step s ss.agent ((s.toStage ss .relock).goTo ss.agent .coordinating)
  | coordinate {ss s'} (hss : s.session = some ss) (hc : s.control ss.agent = .coordinating)
      (h : s.Coordinates ss s') : Step s ss.agent s'

inductive Execution : Machine → Machine → Prop
  | refl (s : Machine) : Execution s s
  | step {s s' s'' : Machine} {a : Agent} (h : Execution s s') (hs : s'.Step a s'') :
      Execution s s''

/-- No rendezvous runs and every agent is about to make its first call. -/
structure Initial (s : Machine) : Prop where
  registered : s.registered.Nodup ∧ ∀ id ∈ s.registered, (s.threads.find? id).isSome
  phase : s.rendezvous.phase = .idle
  flags : ∀ id t, s.threads.find? id = some t → t.yieldFlag = false ∧ t.joined = false
  mutex : s.mutex = none
  readers : s.readers = []
  session : s.session = none
  control : ∀ a, s.control a = .idle

def Reachable (s : Machine) : Prop := ∃ s₀, Initial s₀ ∧ Execution s₀ s

end Machine

end ManagedCore.StopTheWorld
