import ManagedCore.Ir.Basic

/-!
# Live references

For each call and safepoint, the reference registers that may still be read afterwards. A fault can
leave a block at any of its instructions, so whatever the handler needs is live throughout the
block. The register assigned by the instruction itself is not part of its map.
-/

namespace ManagedCore

/-- Set of registers: bit `r` says that register `r` is in it. -/
structure RegSet where
  bits : Nat := 0
deriving DecidableEq, Repr

namespace RegSet

def empty : RegSet := ⟨0⟩

def contains (s : RegSet) (r : Reg) : Bool := s.bits.testBit r

def union (s t : RegSet) : RegSet := ⟨s.bits ||| t.bits⟩

def insert (s : RegSet) (r : Reg) : RegSet := ⟨s.bits ||| 1 <<< r⟩

def erase (s : RegSet) (r : Reg) : RegSet :=
  if s.contains r then ⟨s.bits ^^^ 1 <<< r⟩ else s

def eraseAll (s : RegSet) (rs : List Reg) : RegSet := rs.foldl erase s

def toList (s : RegSet) (bound : Nat) : List Reg := (List.range bound).filter s.contains

end RegSet

/-- Registers live on entry to each block. A number that is no block has none, but jumps and handlers
of compiled functions lead to blocks only. -/
abbrev LiveIn := Array RegSet

namespace Function

def isRef (f : Function) (r : Reg) : Bool := f.regType? r == some .ref

def insertRefs (f : Function) (rs : List Reg) (s : RegSet) : RegSet :=
  (rs.filter f.isRef).foldl RegSet.insert s

def liveOnFault (live : LiveIn) (b : Block) : RegSet :=
  match b.handler with
  | some h => live.getD h .empty
  | none => .empty

def liveOut (f : Function) (live : LiveIn) (b : Block) : RegSet :=
  f.insertRefs b.terminator.uses <|
    b.terminator.successors.foldl (fun s c => s.union (live.getD c.block .empty))
      (liveOnFault live b)

def liveBefore (f : Function) (onFault : RegSet) (i : Instr) (after : RegSet) : RegSet :=
  (f.insertRefs i.uses (after.eraseAll i.dest?.toList)).union onFault

def blockLiveIn (f : Function) (live : LiveIn) (b : Block) : RegSet :=
  let onFault := liveOnFault live b
  (b.instrs.toList.foldr (fun p s => f.liveBefore onFault p.instr s) (f.liveOut live b)).eraseAll
    b.params

def livenessPass (f : Function) (live : LiveIn) : LiveIn :=
  (f.blocks.toList.zipIdx).foldr
    (fun (b, i) l => l.setIfInBounds i (f.blockLiveIn l b)) live

def livenessFixpoint (f : Function) : Nat → LiveIn → LiveIn
  | 0, live => live
  | n + 1, live =>
    let next := f.livenessPass live
    if next = live then live else f.livenessFixpoint n next

/-- Each pass but the last adds a register to some block, which bounds their number. -/
def liveIn (f : Function) : LiveIn :=
  f.livenessFixpoint (f.blocks.size * f.regTypes.size + 1)
    (Array.replicate f.blocks.size .empty)

/-- Maps of the points in an instruction list that starts at `index`, given what is live after the
list; also what is live before it. -/
def mapsFrom (f : Function) (onFault out : RegSet) :
    List PlacedInstr → Nat → RegSet × List (Nat × List Reg)
  | [], _ => (out, [])
  | p :: rest, index =>
    let (after, maps) := f.mapsFrom onFault out rest (index + 1)
    let before := f.liveBefore onFault p.instr after
    if p.instr.isGcPoint then
      let kept := (after.eraseAll p.instr.dest?.toList).toList f.regTypes.size
      (before, (index, kept) :: maps)
    else (before, maps)

end Function

/-- Live reference registers at each call and safepoint, by block and instruction. -/
structure StackMaps where
  blocks : Array (List (Nat × List Reg)) := #[]
deriving DecidableEq, Repr

namespace StackMaps

def at? (m : StackMaps) (b : BlockId) (i : Nat) : Option (List Reg) :=
  (m.blocks[b]?).bind fun l => l.lookup i

def count (m : StackMaps) : Nat := m.blocks.toList.foldr (fun l n => l.length + n) 0

def entries (m : StackMaps) : List (BlockId × Nat × List Reg) :=
  m.blocks.toList.zipIdx.flatMap fun (l, b) => l.map fun (i, rs) => (b, i, rs)

end StackMaps

def Function.stackMaps (f : Function) : StackMaps :=
  let live := f.liveIn
  { blocks := f.blocks.map fun b =>
      (f.mapsFrom (Function.liveOnFault live b) (f.liveOut live b) b.instrs.toList 0).2 }

end ManagedCore
