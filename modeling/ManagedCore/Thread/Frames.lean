import ManagedCore.Class.Registry
import ManagedCore.Thread.Trace

/-!
# Frames

Each thread keeps a record of its frames, oldest first. A frame is left by cutting the record back
to the place where the frame was put, which also drops whatever was put above it. A cursor walks
the record one frame at a time and never fails: past the oldest frame it stands nowhere.
-/

namespace ManagedCore

inductive Frame where
  /-- Compiled code at an offset. -/
  | managed (m : MethodId) (pc : Nat)
  /-- Native code, linked to the native frame below it. -/
  | known (m : Option MethodId) (previous : Option Nat)
  /-- Work of the engine itself. -/
  | internal (label : String)
deriving DecidableEq, Repr

namespace Frame

def isManaged : Frame → Bool
  | managed _ _ => true
  | _ => false

def className : Frame → String
  | managed _ _ => "Metadata"
  | known _ _ => "Known"
  | internal _ => "Opaque"

def method? : Frame → Option MethodId
  | managed m _ => some m
  | known m _ => m
  | internal _ => none

def pc : Frame → Nat
  | managed _ pc => pc
  | _ => 0

def label? : Frame → Option String
  | internal label => some label
  | _ => none

end Frame

structure FrameStack where
  frames : Array Frame := #[]
  /-- Place of the innermost native frame. -/
  lastKnown : Option Nat := none
deriving DecidableEq, Repr

namespace FrameStack

def size (s : FrameStack) : Nat := s.frames.size

def at? (s : FrameStack) (i : Nat) : Option Frame := s.frames[i]?

def pushManaged (s : FrameStack) (m : MethodId) : FrameStack :=
  { s with frames := s.frames.push (.managed m 0) }

def pushKnown (s : FrameStack) (m : Option MethodId) : FrameStack :=
  let place := s.frames.size
  { frames := s.frames.push (.known m s.lastKnown), lastKnown := some place }

def pushInternal (s : FrameStack) (label : String) : FrameStack :=
  { s with frames := s.frames.push (.internal label) }

def previousKnown (s : FrameStack) (i : Nat) : Option Nat :=
  match s.frames[i]? with
  | some (.known _ previous) => previous
  | _ => none

/-- The innermost native frame below `index`. Links lead downwards, so the number of frames is
fuel enough. -/
def knownBelow (s : FrameStack) (index : Nat) : Nat → Option Nat → Option Nat
  | 0, known => known
  | _, none => none
  | fuel + 1, some i => if i < index then some i else s.knownBelow index fuel (s.previousKnown i)

def popTo (s : FrameStack) (index : Nat) : FrameStack :=
  let lastKnown := s.knownBelow index (s.size + 1) s.lastKnown
  { s with frames := s.frames.shrink index, lastKnown }

/-- Sets the offset of the innermost frame, if it is one of compiled code. -/
def setPc (s : FrameStack) (pc : Nat) : FrameStack :=
  { s with frames := s.frames.modify (s.frames.size - 1) fun f =>
      match f with
      | .managed m _ => .managed m pc
      | f => f }

end FrameStack

/-! ## Cursors -/

structure Walker where
  index : Option Nat
  onlyManaged : Bool
deriving DecidableEq, Repr

inductive WalkerState where
  | invalid | valid | validWithMetadata
deriving DecidableEq, Repr

def WalkerState.name : WalkerState → String
  | invalid => "Invalid"
  | valid => "Valid"
  | validWithMetadata => "ValidWithMetadata"

namespace Walker

def accepts (w : Walker) (s : FrameStack) (i : Nat) : Bool :=
  match s.at? i with
  | some f => !w.onlyManaged || f.isManaged
  | none => false

/-- The first accepted frame from `i` towards the base. -/
def settleFrom (w : Walker) (s : FrameStack) : Nat → Option Nat
  | 0 => if w.accepts s 0 then some 0 else none
  | i + 1 => if w.accepts s (i + 1) then some (i + 1) else w.settleFrom s i

/-- Moves to an accepted frame; a cursor above the top starts from the top. -/
def settle (w : Walker) (s : FrameStack) (index : Option Nat) : Walker :=
  let start := index.bind fun i =>
    if i < s.size then some i else if s.size = 0 then none else some (s.size - 1)
  { w with index := start.bind (w.settleFrom s) }

def below : Nat → Option Nat
  | 0 => none
  | i + 1 => some i

def reset (w : Walker) (s : FrameStack) : Walker := w.settle s (below s.size)

def begin (s : FrameStack) (onlyManaged : Bool) : Walker :=
  reset { index := none, onlyManaged } s

def advance (w : Walker) (s : FrameStack) : Walker :=
  match w.index with
  | none => w
  | some i => w.settle s (below i)

/-- One frame towards the innermost, where it stays; from past the base to the oldest frame. -/
def retreat (w : Walker) (s : FrameStack) : Walker :=
  let next := (w.index.map (· + 1)).getD 0
  match ((List.range s.size).drop next).find? (w.accepts s) with
  | some i => { w with index := some i }
  | none => w

def current? (w : Walker) (s : FrameStack) : Option (Nat × Frame) :=
  w.index.bind fun i => (s.at? i).map (i, ·)

def state (w : Walker) (s : FrameStack) : WalkerState :=
  match w.current? s with
  | none => .invalid
  | some (_, f) => if f.isManaged then .validWithMetadata else .valid

end Walker

def FrameStack.walk (s : FrameStack) (onlyManaged : Bool) : List (Nat × Frame) :=
  (s.frames.toList.zipIdx.filter fun (f, _) => !onlyManaged || f.isManaged).reverse.map
    fun (f, i) => (i, f)

/-! ## What a frame shows -/

namespace Frame

def line? (r : Registry) : Frame → Option Nat
  | managed m pc => (r.method? m).bind (·.lineAt pc)
  | _ => none

/-- Frames without a method leave no line in a trace. -/
def traceElement? (r : Registry) (f : Frame) : Option TraceElement :=
  (f.method?.bind r.method?).map fun m =>
    { owner := m.ownerName
      method := m.name
      pc := if f.isManaged then some f.pc else none
      line := f.line? r
      native := !f.isManaged }

def isCompiled (r : Registry) (f : Frame) : Bool :=
  (f.method?.bind r.method?).any fun m =>
    match m.entry.current with
    | .compiled _ => true
    | _ => false

def text (r : Registry) (index : Nat) (f : Frame) : String :=
  "|".intercalate
    [toString index, f.className, ((f.method?.bind r.method?).map (·.text)).getD "-",
      toString f.pc, ((f.line? r).map toString).getD "-", f.label?.getD "-",
      if f.isCompiled r then "compiled" else "-"]

end Frame

def FrameStack.trace (r : Registry) (s : FrameStack) : List TraceElement :=
  (s.walk false).filterMap fun (_, f) => f.traceElement? r

end ManagedCore
