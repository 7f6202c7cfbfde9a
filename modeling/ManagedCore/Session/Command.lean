import ManagedCore.Session.Caches
import ManagedCore.Session.Classes
import ManagedCore.Session.Threads

/-!
# Commands

A session is a list of commands, each of which may give a name to the value that it yields. What
native scripts wrote down during a command is shown in front of its result.
-/

namespace ManagedCore

inductive Command where
  | define (d : ClassDef)
  | showClass (name : String)
  | showTable (name : String)
  | showClasses
  | assignable (names : List String)
  | find (m : MemberRef)
  | patch (on : String) (offset : Nat) (m : MemberRef)
  | initPhase (name : String)
  | pool (name : String) (index : Nat)
  | invoke (m : MemberRef) (args : List Source) (thread : String)
  | callStatic (m : MemberRef) (args : List Source) (thread : String)
  | spawn (m : MemberRef) (args : List Source) (name : String)
  | callForeign (m : MemberRef) (args : List Source)
  | compile (m : MemberRef)
  | recompile (m : MemberRef)
  | compileStats (m : MemberRef)
  | loweredSites (m : MemberRef)
  | callSites (m : MemberRef)
  | backend
  | entry (m : MemberRef)
  | codeCache (invalidate : Option MemberRef)
  | new (cls : String)
  | newArray (cls : String) (length : Nat)
  | intern (s : String)
  | heap
  | getField (obj : Source) (slot : Nat)
  | setField (obj : Source) (slot : Nat) (v : Source)
  | arrayGet (obj : Source) (i : Nat)
  | arraySet (obj : Source) (i : Nat) (v : Source)
  | static (m : MemberRef) (v : Option Source)
  | rawStatic (cls : String) (slot : Nat) (v : Option Source)
  | inspect (obj : Source)
  | sameHash (a b : Source)
  | exception (fault : Fault) (message : Option String)
  | standardException (fault : Fault) (a b : String) (i k : Int)
  | raiseFromNative (obj : Source) (thread : String)
  | newSite (name : String) (m : MemberRef) (index : Nat)
  | lookupSite (name cls : String)
  | newCache (name : String) (capacity : Nat)
  | useCache (op : Act.CacheOp) (name : String) (m : MemberRef)
  | trace (roots : List Source)
  | reachable (initiator : Option String)
  | rootSet (op : Act.RootOp) (objs : List Source) (mark : Nat)
  | publish (thread : String) (objs : List Source)
  | attach (name : String)
  | detach (name : String)
  | showThread (name : String)
  | showThreads
  | region (name : String) (enter : Bool)
  | enterMonitor (obj : Source) (thread : String) (times : Nat)
  | exitMonitor (obj : Source) (thread : String) (times : Nat)
  | contend (obj : Source) (thread : String)
  | rendezvous (initiator : Option String) (park enter leave : List String)
  | spin (s : Act.Spin)

def Command.act : Command → Act Reply
  | define d => Act.define d
  | showClass n => Act.showClass n
  | showTable n => Act.showTable n
  | showClasses => Act.showClasses
  | assignable ns => Act.assignable ns
  | find m => Act.find m
  | patch on offset m => Act.patch on offset m
  | initPhase n => Act.initPhase n
  | pool n i => Act.pool n i
  | invoke m args t => Act.invoke m args t
  | callStatic m args t => Act.callStatic m args t
  | spawn m args n => Act.spawn m args n
  | callForeign m args => Act.callForeign m args
  | compile m => Act.compile m
  | recompile m => Act.recompile m
  | compileStats m => Act.compileStats m
  | loweredSites m => Act.loweredSites m
  | callSites m => Act.callSites m
  | backend => Act.backend
  | entry m => Act.entry m
  | codeCache m => Act.codeCache m
  | new c => Act.new c
  | newArray c n => Act.newArray c n
  | intern s => Act.intern s
  | heap => Act.heap
  | getField o slot => Act.getField o slot
  | setField o slot v => Act.setField o slot v
  | arrayGet o i => Act.arrayGet o i
  | arraySet o i v => Act.arraySet o i v
  | static m v => Act.static m v
  | rawStatic c slot v => Act.rawStatic c slot v
  | inspect o => Act.inspect o
  | sameHash a b => Act.sameHash a b
  | exception f message => Act.exception f message
  | standardException f a b i k => Act.standardException f a b i k
  | raiseFromNative o t => Act.raiseFromNative o t
  | newSite n m i => Act.newSite n m i
  | lookupSite n c => Act.lookupSite n c
  | newCache n capacity => Act.newCache n capacity
  | useCache op n m => Act.useCache op n m
  | trace rs => Act.trace rs
  | reachable i => Act.reachable i
  | rootSet op os mark => Act.rootSet op os mark
  | publish t os => Act.publish t os
  | attach n => Act.attach n
  | detach n => Act.detach n
  | showThread n => Act.showThread n
  | showThreads => Act.showThreads
  | region n enter => Act.region n enter
  | enterMonitor o t times => Act.enterMonitor o t times
  | exitMonitor o t times => Act.exitMonitor o t times
  | contend o t => Act.contend o t
  | rendezvous i park enter leave => Act.rendezvous i park enter leave
  | spin s => Act.spin s

structure Step where
  command : Command
  name : Option String := none

namespace Session

def nameValue (s : Session) (name : Option String) (v : Option Value) : Session :=
  match name, v with
  | some n, some v => { s with world := { s.world with names := (n, v) :: s.world.names } }
  | _, _ => s

def present (s : Session) (result : Report) : Report × Session :=
  let (result, s) := s.display result
  let log := s.world.log.reverse
  let whole : Report :=
    if log.isEmpty then result else .record [("log", .list log), ("result", result)]
  (whole, { s with world := { s.world with log := [] } })

def step (s : Session) (c : Step) : Report × Session :=
  match c.command.act.run s with
  | .ok reply s => (s.nameValue c.name reply.yields).present reply.report
  | .error e s => s.present e.report

def run (s : Session) : List Step → List Report
  | [] => []
  | c :: rest =>
    let (r, s) := s.step c
    r :: s.run rest

/-- Runs commands on a new engine; an engine that cannot be started is the only thing shown. -/
def report (config : Config) (steps : List Step) : Report :=
  match start config with
  | .error e => e.report
  | .ok s => .record [("steps", .list (s.run steps))]

end Session

end ManagedCore
