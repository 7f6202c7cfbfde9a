import ManagedCore.Report
import ManagedCore.Thread.HandlerChain

/-!
# Sessions on a chain of protected regions
-/

namespace ManagedCore

/-- Commands on a chain. Linked records are numbered in order. -/
inductive ChainStep where
  | link (frame : Nat) (isolate : IsolateId)
  | unlink (k : Nat)
  | setPrevious (k : Nat) (previous : Option Nat)
  | previous (k : Nat)
  | nearest (frame : Nat)
  | head
  | info (k : Nat)

structure ChainSession where
  chain : HandlerChain := {}
  /-- Places of the records linked so far; one that was dropped has none. -/
  places : Array (Option Nat) := #[]

namespace ChainSession

def recordReport (r : HandlerRecord) : Report :=
  .list [.nat r.frameIndex, .nat r.isolate, .opt .nat r.previous, .bool r.handler.isSome]

def infoReport (c : HandlerChain) (place : Nat) : Report :=
  let r := c.record? place
  .list [.nat place, .opt (fun r => .nat r.isolate) r,
    .opt (fun r => .text (isolateText r.isolate)) r, .bool (r.any (·.handler.isSome))]

def place? (s : ChainSession) (k : Nat) : Option Nat := s.places.getD k none

def unlink (s : ChainSession) (k : Nat) : ChainSession :=
  match s.place? k with
  | some place =>
    { chain := s.chain.unlink place, places := s.places.setIfInBounds k none }
  | none => s

def setPrevious (s : ChainSession) (k : Nat) (previous : Option Nat) : ChainSession :=
  match s.place? k with
  | some place => { s with chain := s.chain.setPrevious place previous }
  | none => s

def act (s : ChainSession) : ChainStep → Report × ChainSession
  | .link frame isolate =>
    let place := s.chain.storage.size
    (.nat place, { chain := s.chain.link none isolate frame, places := s.places.push (some place) })
  | .unlink k => (.null, s.unlink k)
  | .setPrevious k p => (.null, s.setPrevious k p)
  | .previous k => (.opt recordReport ((s.place? k).bind s.chain.previous?), s)
  | .nearest frame => (.opt recordReport (s.chain.nearest? frame), s)
  | .head => (.opt recordReport s.chain.head?, s)
  | .info k => (.opt (infoReport s.chain) (s.place? k), s)

def run (s : ChainSession) : List ChainStep → List Report
  | [] => []
  | c :: rest =>
    let (r, s) := s.act c
    .list [r, .nat s.chain.depth, .nats (s.chain.records.map (·.frameIndex))] :: s.run rest

def report (steps : List ChainStep) : Report :=
  .record [("steps", .list (run {} steps))]

end ChainSession

end ManagedCore
