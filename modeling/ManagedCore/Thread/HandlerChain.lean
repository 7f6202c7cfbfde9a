import ManagedCore.Class.Pool

/-!
# Chains of protected regions

Code that can catch exceptions links a record into the chain of its thread while it runs. Dropping
a record restores the head that it found, and cuts the storage back, so records above it go too.
-/

namespace ManagedCore

abbrev IsolateId := Nat

def isolateText (i : IsolateId) : String := s!"isolate-{i}"

structure HandlerRecord where
  handler : Option MethodId
  isolate : IsolateId
  previous : Option Nat
  frameIndex : Nat
deriving DecidableEq, Repr

structure HandlerChain where
  storage : Array HandlerRecord := #[]
  head : Option Nat := none
deriving DecidableEq, Repr

namespace HandlerChain

/-- Links a record in front; it stands at the end of the storage. -/
def link (c : HandlerChain) (handler : Option MethodId) (isolate : IsolateId)
    (frameIndex : Nat) : HandlerChain :=
  let place := c.storage.size
  { storage := c.storage.push ⟨handler, isolate, c.head, frameIndex⟩, head := some place }

def unlink (c : HandlerChain) (index : Nat) : HandlerChain :=
  let head := match c.storage[index]? with
    | some record => record.previous
    | none => c.head
  { storage := c.storage.shrink index, head }

/-- Records from `cursor` on. Links lead to lower places, so the size of the storage is fuel
enough. -/
def recordsFrom (c : HandlerChain) : Nat → Option Nat → List HandlerRecord
  | 0, _ => []
  | fuel + 1, cursor =>
    match cursor.bind (c.storage[·]?) with
    | none => []
    | some record => record :: c.recordsFrom fuel record.previous

def records (c : HandlerChain) : List HandlerRecord := c.recordsFrom c.storage.size c.head

def depth (c : HandlerChain) : Nat := c.records.length

def head? (c : HandlerChain) : Option HandlerRecord := c.head.bind (c.storage[·]?)

def nearest? (c : HandlerChain) (frameIndex : Nat) : Option HandlerRecord :=
  c.records.find? (·.frameIndex ≤ frameIndex)

def record? (c : HandlerChain) (index : Nat) : Option HandlerRecord := c.storage[index]?

def previous? (c : HandlerChain) (index : Nat) : Option HandlerRecord :=
  ((c.record? index).bind (·.previous)).bind (c.storage[·]?)

/-- Relinks a record to an older one, or to nothing; a newer one is refused. -/
def setPrevious (c : HandlerChain) (index : Nat) (previous : Option Nat) : HandlerChain :=
  if previous.all (· < index) then
    { c with storage := c.storage.modify index fun r => { r with previous } }
  else c

end HandlerChain

end ManagedCore
