import ManagedCore.Session.Execution
import ManagedCore.Session.Objects

/-!
# Commands on threads, monitors and roots
-/

namespace ManagedCore

def Thread.report (t : Thread) : Report :=
  .record
    [("id", .nat t.id), ("name", .text t.name), ("frames", .nat t.frames.size),
      ("last_known", .opt .nat t.frames.lastKnown), ("depth", .nat t.chain.depth),
      ("pending", .bool t.pending.isSome), ("uncooperative", .bool t.isUncooperative),
      ("saved_sp", .bool t.savedSp), ("yield", .bool t.yieldFlag),
      ("in_rendezvous", .bool t.inRendezvous), ("exhausted", .bool t.stackExhausted)]

def statusReport (ss : List (ThreadId × ThreadStatus)) : Report :=
  .all (fun (t, s) => .list [.nat t, .text s.text]) (ss.mergeSort fun a b => a.1 ≤ b.1)

namespace World

def threadRoots (w : World) : Report :=
  .all (fun t => .list [.nat t.id, .objects t.roots.all]) w.threads.members.toList

/-- Roots of all threads, then the objects in static fields, then the interned strings. -/
def allRoots (w : World) : List ObjId :=
  w.threads.members.toList.flatMap (·.roots.all) ++
    w.registry.classes.toList.flatMap (fun c => c.staticValues.toList.filterMap Value.obj?) ++
    w.strings.map (·.2)

/-- Objects are counted by class, strings by their text as well, which stands between quotes as it
is. -/
def countName (w : World) (o : ObjId) : String :=
  w.className o ++ ((w.string? o).map fun s => "\"" ++ s ++ "\"").getD ""

def addCount (counts : List (String × Nat)) (name : String) : List (String × Nat) :=
  if counts.any (·.1 == name) then counts.map fun c => if c.1 == name then (name, c.2 + 1) else c
  else counts ++ [(name, 1)]

def reachableReport (w : World) : Report :=
  let os := w.heap.reachable w.allRoots
  let counts := (os.map w.countName).foldl addCount []
  .record [("count", .nat os.length), ("by_class", .record (counts.map fun c => (c.1, .nat c.2))),
    ("known_ids", .known os)]

def request (w : World) (initiator : Option ThreadId) : World :=
  let (r, ts) := w.rendezvous.request w.threads initiator
  { w with rendezvous := r, threads := ts }

def finish (w : World) (initiator : Option ThreadId) : World :=
  let (r, ts) := w.rendezvous.finish w.threads initiator
  { w with rendezvous := r, threads := ts }

end World

namespace Act

variable {α : Type}

/-! ## Roots -/

def trace (roots : List Source) : Act Reply := do
  let roots ← sourceObjects roots
  return .shows (.objects ((← world).heap.reachable roots))

inductive RootOp where
  | pin | publish | unpin | look
deriving DecidableEq, Repr

def rootSet (op : RootOp) (objs : List Source) (mark : Nat) : Act Reply := do
  let os ← sourceObjects objs
  let r := (← get).roots
  let next := match op with
    | .pin => r.pin os
    | .publish => r.publish os
    | .unpin => r.unpinTo mark
    | .look => r
  modify fun s => { s with roots := next }
  if op = .pin then
    return .shows (.nats [r.pinned.size, next.size])
  return .shows (.list [.objects next.all, .objects next.stack, .nat next.pinned.size,
    .nat next.size, .bool (next.size == 0)])

def publish (thread : String) (objs : List Source) : Act Reply := do
  let t ← findThread thread
  let os ← sourceObjects objs
  modifyWorld (·.publish t.id os)
  let r := (← threadNow t.id).roots
  return .shows (.list [.objects r.all, .objects r.stack])

/-! ## Threads -/

/-- A thread that had the name before is detached, once the new one is attached. -/
def attach (name : String) : Act Reply := do
  let previous := (← world).threads.named? name
  let t ← attempt fun w => w.attach name World.hostStackSize
  if let some p := previous then
    modifyWorld (·.detach p.id)
  return .shows (← threadNow t).report

def detach (name : String) : Act Reply := do
  let t := (← world).threads.named? name
  if let some t := t then
    modifyWorld (·.detach t.id)
  let n := (← world).threads.size
  return .shows (.list [.bool t.isSome, .nat n, .bool (n == 0)])

def showThread (name : String) : Act Reply := do
  return .shows (← findThread name).report

def showThreads : Act Reply := do
  return .shows (.all (fun t => .list [.nat t.id, .text t.name]) (← world).threads.members.toList)

def region (name : String) (enter : Bool) : Act Reply := do
  let t ← findThread name
  if enter then
    modifyWorld (·.enterRegion t.id)
  else if t.isUncooperative then
    modifyWorld (·.leaveRegion t.id)
  let t ← threadNow t.id
  return .shows (.list [.bool t.isUncooperative, .bool t.savedSp])

/-! ## Monitors -/

def lock (o : ObjId) : Act Report := return lockReport (← world) o

def owner? (o : ObjId) : Act (Option ThreadId) := do
  let w ← world
  return (w.object? o).bind fun obj => w.monitors.owner? obj.lock

def repeatedly (x : Act Unit) : Nat → Act Unit
  | 0 => return ()
  | n + 1 => do
    x
    repeatedly x n

def exitOnce (t : ThreadId) (o : ObjId) : Act Unit := do
  match ← onThread t (Exec.exitMonitor o) with
  | .ok () => return ()
  | .error e => throw (.monitor e)

/-- Nothing is done when the thread would have to wait. -/
def enterMonitor (obj : Source) (thread : String) (times : Nat) : Act Reply := do
  let t ← findThread thread
  let o ← sourceObject obj
  if (← owner? o).any (· ≠ t.id) then
    return .shows (.list [.text "would block", ← lock o])
  repeatedly (do discard (onThread t.id (Exec.enterMonitor false o))) times
  return .shows (← lock o)

def exitMonitor (obj : Source) (thread : String) (times : Nat) : Act Reply := do
  let t ← findThread thread
  let o ← sourceObject obj
  repeatedly (exitOnce t.id o) times
  return .shows (← lock o)

/-- A thread waits for a monitor until its owner has given up all its holds. -/
def contend (obj : Source) (thread : String) : Act Reply := do
  let t ← findThread thread
  let o ← sourceObject obj
  let entered ← onThread t.id (Exec.enterMonitor false o)
  if entered then
    return .shows (.list [.nat 0, ← lock o, .bool (← threadNow t.id).isUncooperative])
  modifyWorld (·.enterRegion t.id)
  let owner ← owner? o
  let w ← world
  let holds := ((w.object? o).map fun obj => w.monitors.holdCount obj.lock).getD 0
  if let some owner := owner then
    repeatedly (exitOnce owner o) holds
  let _ ← onThread t.id (Exec.enterMonitor true o)
  modifyWorld (·.leaveRegion t.id)
  return .shows (.list [.nat holds, ← lock o, .bool (← threadNow t.id).isUncooperative])

/-! ## Rendezvous -/

/-- Fails if not every thread is accounted for, and lets all threads go in that case. -/
def stopWorld (initiator : Option ThreadId) : Act Unit := do
  let w ← world
  if w.rendezvous.isComplete then
    modifyWorld fun w => { w with rendezvous := w.rendezvous.stopWorld }
  else
    let (e, r, ts) := w.rendezvous.cancel w.threads initiator
    modifyWorld fun w => { w with rendezvous := r, threads := ts }
    throw (.rendezvous e)

def initiatorId (name : Option String) : Act (Option ThreadId) :=
  name.mapM fun n => return (← findThread n).id

def reachable (initiator : Option String) : Act Reply := do
  let t ← initiatorId initiator
  modifyWorld (·.request t)
  stopWorld t
  let r := (← world).reachableReport
  modifyWorld (·.finish t)
  return .shows r

/-- Stops the world: some threads park, some enter an uncooperative region, and some leave theirs
while the world is stopped. -/
def rendezvous (initiator : Option String) (park enter leave : List String) : Act Reply := do
  let t ← initiatorId initiator
  let ids (names : List String) : Act (List ThreadId) :=
    names.mapM fun n => return (← findThread n).id
  let parked ← ids park
  let entering ← ids enter
  let leaving ← ids leave
  modifyWorld (·.request t)
  parked.forM fun t => modifyWorld (·.joinSafepoint t)
  entering.forM fun t => modifyWorld (·.enterRegion t)
  stopWorld t
  leaving.forM fun t => modifyWorld (·.leaveRegion t)
  let w ← world
  let r : Report := .record
    [("statuses", statusReport w.rendezvous.statuses),
      ("generation", .nat w.rendezvous.generation), ("roots", w.threadRoots),
      ("threads", .all Thread.report w.threads.members.toList)]
  modifyWorld (·.finish t)
  return .shows r

/-! ## Threads at work -/

/-- A method that sets a static field `started` and runs until the static field `stop` is set. -/
structure Spin where
  method : MemberRef
  args : List Source
  started : String
  stop : String
  rounds : Nat
  reachable : Bool
  second : Option (MemberRef × List Source)

structure Worker where
  id : ThreadId
  control : Control

def start (name : String) (m : MemberRef) (args : List Source) : Act Worker := do
  let method ← findMethod m
  let args ← args.mapM source
  return ⟨← attachWorker name, .ofCall method args⟩

def runUntil (stop : World → Control → Bool) (k : Worker) : Act Worker :=
  updateWorld fun w =>
    let (w, c) := run k.id stop stepLimit w k.control
    ({ k with control := c }, w)

def retire (k : Worker) : Act Unit := do
  if k.control.isDone then
    modifyWorld (·.detach k.id)

def isSet (w : World) (s : StaticSlot) : Bool :=
  match (w.registry.class? s.owner.id).bind (·.staticValues[s.slot]?) with
  | some (.int v) => v != 0
  | _ => false

/-- Stops the world from a thread while a worker runs up to its next safepoint. One that ends
before is uncooperative until the world goes on. -/
def interrupt (initiator : ThreadId) (k : Worker) (look : World → Report) :
    Act (Report × Worker) := do
  modifyWorld (·.request (some initiator))
  let k ← runUntil (fun w _ => w.rendezvous.isComplete) k
  if k.control.isDone then
    modifyWorld (·.enterRegion k.id)
  stopWorld (some initiator)
  let seen ← display (look (← world))
  modifyWorld (·.finish (some initiator))
  retire k
  return (seen, k)

/-- The reports are written as they are made, before what the worker logs later. -/
def spinRounds (initiator : ThreadId) (reachable : Bool) :
    Nat → Worker → Act (List Report × Worker)
  | 0, k => return ([], k)
  | n + 1, k => do
    let (seen, k) ← interrupt initiator k fun w =>
      .list [statusReport w.rendezvous.statuses, w.threadRoots]
    let (found, k) ←
      if reachable then
        let (found, k) ← interrupt initiator k World.reachableReport
        pure ([found], k)
      else pure ([], k)
    let (more, k) ← spinRounds initiator reachable n k
    return (seen :: found ++ more, k)

def findStatic (cls name : String) : Act StaticSlot := do
  let c ← findClass cls
  match (← world).registry.findStatic? c name "I" with
  | some (c, slot) => return ⟨c.ref, slot⟩
  | none => throw (.internal s!"no static field {name}")

def spin (s : Spin) : Act Reply := do
  let main ← findThread "main"
  let started ← findStatic s.method.owner s.started
  let stop ← findStatic s.method.owner s.stop
  let k ← start "worker" s.method s.args
  let k ← runUntil (fun w _ => isSet w started) k
  retire k
  let (rounds, k) ← spinRounds main.id s.reachable s.rounds k
  let second ← s.second.mapM fun (m, args) => do
    runUntil (fun _ c => c.awaitsClass) (← start "second" m args)
  onThread main.id (Exec.setStaticValue stop (.int 1))
  let k ← runUntil (fun _ _ => false) k
  retire k
  let second ← second.mapM fun k => do
    let k ← runUntil (fun _ _ => false) k
    retire k
    return k.control.outcome
  let w ← world
  let o := k.control.outcome
  let fields : List (String × Report) := [("rounds", .list rounds), ("result", o.report w)]
  let last : List (String × Report) :=
    (second.map fun o => ("second", o.report w)).toList
  return { report := .record (fields ++ last), yields := o.yields }

end Act

end ManagedCore
