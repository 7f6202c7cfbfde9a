import ManagedCore.Thread.Frames
import ManagedCore.Thread.HandlerChain
import ManagedCore.Thread.Roots

/-!
# Threads

What the engine keeps for each attached thread. A thread in an uncooperative region cannot be asked
to stop; it saves its stack pointer on the way in, so that its frames can still be read.
-/

namespace ManagedCore

structure Thread where
  id : ThreadId
  name : String
  /-- Bytes of stack above the guard. -/
  room : Nat := 0
  yieldFlag : Bool := false
  inRendezvous : Bool := false
  /-- Accounted for in the running rendezvous. -/
  joined : Bool := false
  /-- Nesting of uncooperative regions, which stays below 2 ^ 32. -/
  uncooperative : Nat := 0
  savedSp : Bool := false
  frames : FrameStack := {}
  chain : HandlerChain := {}
  pending : Option ObjId := none
  roots : RootSet := {}
deriving DecidableEq, Repr

namespace Thread

def isUncooperative (t : Thread) : Bool := 0 < t.uncooperative

def baseCost : Nat := 2048

def frameCost : Nat := 1024

def stackUsed (t : Thread) : Nat := t.frames.size * frameCost

def stackExhausted (t : Thread) : Bool := t.room < t.stackUsed

end Thread

/-- Attached threads, by increasing number. -/
structure Threads where
  members : Array Thread := #[]
  nextId : ThreadId := 1
deriving DecidableEq, Repr

namespace Threads

def find? (ts : Threads) (id : ThreadId) : Option Thread := ts.members.find? (·.id == id)

def named? (ts : Threads) (name : String) : Option Thread := ts.members.find? (·.name == name)

def modify (ts : Threads) (id : ThreadId) (f : Thread → Thread) : Threads :=
  match ts.members.findIdx? (·.id == id) with
  | some i => { ts with members := ts.members.modify i f }
  | none => ts

def modifyAll (ts : Threads) (f : Thread → Thread) (ids : List ThreadId) : Threads :=
  ids.foldl (fun ts id => ts.modify id f) ts

def attach (ts : Threads) (name : String) (room : Nat) : ThreadId × Threads :=
  (ts.nextId,
    { members := ts.members.push { id := ts.nextId, name, room }, nextId := ts.nextId + 1 })

def detach (ts : Threads) (id : ThreadId) : Threads :=
  { ts with members := ts.members.filter (·.id ≠ id) }

def size (ts : Threads) : Nat := ts.members.size

def ids (ts : Threads) : List ThreadId := ts.members.toList.map (·.id)

end Threads

end ManagedCore
