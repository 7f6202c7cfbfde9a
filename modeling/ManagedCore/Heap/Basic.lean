import ManagedCore.Heap.Monitor
import ManagedCore.Thread.Trace

/-!
# Objects

Objects are instances, arrays or strings, and are found by number. The heap counts the bytes that
it hands out and refuses to go past its limit; nothing is ever given back.
-/

namespace ManagedCore

/-- What an object holds. -/
inductive Content where
  | instance (fields : Array Value)
  | array (kind : ElementKind) (data : Array Value)
  | text (s : String)

structure Object where
  cls : ClassRef
  content : Content
  lock : Lock := .unlocked
  /-- Trace of the first throw. -/
  trace : Option (List TraceElement) := none

namespace Object

def string? (o : Object) : Option String :=
  match o.content with
  | .text s => some s
  | _ => none

def length? (o : Object) : Option Nat :=
  match o.content with
  | .array _ data => some data.size
  | _ => none

def kindName (o : Object) : String :=
  match o.content with
  | .instance _ => "instance"
  | .array _ _ => "array"
  | .text _ => "string"

def element? (o : Object) : Option ElementKind :=
  match o.content with
  | .array kind _ => some kind
  | _ => none

def values (o : Object) : List Value :=
  match o.content with
  | .instance fields => fields.toList
  | .array _ data => data.toList
  | .text _ => []

def references (o : Object) : List ObjId :=
  match o.content with
  | .instance fields => fields.toList.filterMap Value.obj?
  | .array .ref data => data.toList.filterMap Value.obj?
  | _ => []

end Object

structure AllocError where
  requested : Nat
  allocated : Nat
  limit : Nat
deriving DecidableEq, Repr

def AllocError.message (e : AllocError) : String :=
  s!"out of memory: requested {e.requested} bytes with {e.allocated} of {e.limit} in use"

structure Heap where
  objects : Array Object := #[]
  allocated : Nat := 0
  /-- Zero means no limit. -/
  limit : Nat := 0

namespace Heap

def get? (h : Heap) (o : ObjId) : Option Object := h.objects[o]?

def modify (h : Heap) (o : ObjId) (f : Object → Object) : Heap :=
  { h with objects := h.objects.modify o f }

def add (h : Heap) (o : Object) : ObjId × Heap :=
  (h.objects.size, { h with objects := h.objects.push o })

def grant (h : Heap) (size : Nat) : Except AllocError Nat :=
  let next := min (h.allocated + size) 18446744073709551615
  if 0 < h.limit ∧ h.limit < next then .error ⟨size, h.allocated, h.limit⟩ else .ok next

/-- Adds an object if its bytes are granted, and only builds it then. -/
def allocateSized (h : Heap) (size : Nat) (o : Unit → Object) : Except AllocError ObjId × Heap :=
  match h.grant size with
  | .error e => (.error e, h)
  | .ok allocated =>
    let (id, h) := h.add (o ())
    (.ok id, { h with allocated })

def instanceOf (c : Class) : Object :=
  { cls := c.ref, content := .instance (c.fieldTypes.map Value.zero).toArray }

def allocate (h : Heap) (c : Class) : Except AllocError ObjId × Heap :=
  h.allocateSized c.size fun _ => instanceOf c

def arraySize (kind : ElementKind) (length : Nat) : Nat := 16 + 8 + length * kind.size

def arrayOf (cls : ClassRef) (kind : ElementKind) (length : Nat) : Object :=
  { cls, content := .array kind (Array.replicate length (Value.zero kind.valueType)) }

def allocateArray (h : Heap) (cls : ClassRef) (kind : ElementKind) (length : Nat) :
    Except AllocError ObjId × Heap :=
  h.allocateSized (arraySize kind length) fun _ => arrayOf cls kind length

def allocateText (h : Heap) (cls : ClassRef) (s : String) : Except AllocError ObjId × Heap :=
  h.allocateSized (16 + s.utf8ByteSize) fun _ => { cls, content := .text s }

/-! ## Reachability -/

/-- Numbers not yet seen, each once, in order. -/
def unseen (seen : Array Bool) : List ObjId → List ObjId × Array Bool
  | [] => ([], seen)
  | o :: rest =>
    if seen.getD o true then unseen seen rest
    else
      let (tail, seen) := unseen (seen.setIfInBounds o true) rest
      (o :: tail, seen)

/-- Takes objects off the work list, last in first out, and adds what they refer to. Each object
is added at most once, so the number of objects is fuel enough. -/
def traceWork (h : Heap) : Nat → List ObjId → Array Bool → List ObjId
  | 0, _, _ => []
  | _, [], _ => []
  | fuel + 1, o :: work, seen =>
    let (found, seen) := unseen seen (((h.get? o).map (·.references)).getD [])
    o :: h.traceWork fuel (found.reverse ++ work) seen

def reachable (h : Heap) (roots : List ObjId) : List ObjId :=
  let (work, seen) := unseen (Array.replicate h.objects.size false) roots
  h.traceWork h.objects.size work.reverse seen

end Heap

end ManagedCore
