import ManagedCore.Ir.Basic

/-!
# Inline caches

A call site remembers the target for each class of receiver that it has seen. The targets stand in a
chain of nodes, the one used last in front.
-/

namespace ManagedCore

/-- A target of a call site. The first node of a site has none until a class is remembered. -/
structure CacheNode where
  entry : Option (ClassId × MethodId) := none
  next : Option Nat := none
deriving DecidableEq, Repr

def CacheNode.target? (n : CacheNode) (cls : ClassId) : Option MethodId :=
  match n.entry with
  | some (k, m) => if k = cls then some m else none
  | none => none

/-- A call site with its nodes, in the order in which they were made, and the first of the chain. -/
structure InlineCache where
  member : MemberRef
  index : Nat
  nodes : Array CacheNode := #[{}]
  head : Nat := 0
  hits : Nat := 0
  misses : Nat := 0
deriving DecidableEq, Repr

namespace InlineCache

def pair? (c : InlineCache) (i : Nat) : Option (ClassId × MethodId) := c.nodes[i]?.bind (·.entry)

def follow (nodes : Array CacheNode) : Nat → Option Nat → List Nat
  | fuel + 1, some i =>
    match nodes[i]? with
    | some n => i :: follow nodes fuel n.next
    | none => []
  | _, _ => []

/-- The nodes in the order of the chain, which is never longer than there are nodes. -/
def chain (c : InlineCache) : List Nat := follow c.nodes c.nodes.size (some c.head)

def entries (c : InlineCache) : List (ClassId × MethodId) := c.chain.filterMap c.pair?

def classes (c : InlineCache) : List ClassId := c.entries.map (·.1)

def size (c : InlineCache) : Nat := c.nodes.countP (·.entry.isSome)

def headClass? (c : InlineCache) : Option ClassId := (c.pair? c.head).map (·.1)

/-! ## Looking up -/

def peek (c : InlineCache) (cls : ClassId) : Option MethodId :=
  c.nodes[c.head]?.bind (·.target? cls)

/-- The node of a class from a place in the chain on, with the node before it. -/
def seek (nodes : Array CacheNode) (cls : ClassId) :
    Nat → Option Nat → Option Nat → Option (Option Nat × Nat × MethodId)
  | fuel + 1, before, some i =>
    match nodes[i]? with
    | some n =>
      match n.target? cls with
      | some m => some (before, i, m)
      | none => seek nodes cls fuel (some i) n.next
    | none => none
  | _, _, _ => none

def setNext (nodes : Array CacheNode) (i : Nat) (next : Option Nat) : Array CacheNode :=
  nodes.modify i ({ · with next })

/-- Moves a node to the front, out of its place behind another one. -/
def promote (c : InlineCache) (before : Option Nat) (i : Nat) : InlineCache :=
  match before with
  | none => c
  | some b =>
    let nodes := setNext c.nodes b (c.nodes[i]?.bind (·.next))
    { c with nodes := setNext nodes i (some c.head), head := i }

/-- Remembers a target, in the first node if it has none yet, or else in a new node in front. -/
def remember (c : InlineCache) (cls : ClassId) (m : MethodId) : InlineCache :=
  if (c.pair? c.head).isNone then
    { c with nodes := c.nodes.modify c.head ({ · with entry := some (cls, m) }) }
  else
    { c with
      nodes := c.nodes.push ⟨some (cls, m), some c.head⟩
      head := c.nodes.size }

/-- Target for a receiver class that is not in front, and whether it had to be resolved. A class
without a target is asked for again the next time. -/
def search (c : InlineCache) (cls : ClassId) (resolve : Unit → Option MethodId) :
    Option MethodId × Bool × InlineCache :=
  match seek c.nodes cls c.nodes.size none (some c.head) with
  | some (before, i, m) => (some m, false, { c.promote before i with hits := c.hits + 1 })
  | none =>
    let c := { c with misses := c.misses + 1 }
    match resolve () with
    | none => (none, true, c)
    | some m => (some m, true, c.remember cls m)

def lookup (c : InlineCache) (cls : ClassId) (resolve : Unit → Option MethodId) :
    Option MethodId × Bool × InlineCache :=
  match c.peek cls with
  | some m => (some m, false, { c with hits := c.hits + 1 })
  | none => c.search cls resolve

end InlineCache

end ManagedCore
