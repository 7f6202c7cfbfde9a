import ManagedCore.World

/-!
# Computations of a thread

What a thread does within one step: it reads and changes the state of the engine and may end in an
exception or in a failure. Changes made before the end stay.
-/

namespace ManagedCore

inductive Trap where
  | thrown (e : ObjId)
  | failed (e : EngineError)
deriving DecidableEq, Repr

/-- Computations of a given thread. -/
abbrev Exec := ReaderT ThreadId (EStateM Trap World)

namespace Exec

variable {α : Type}

def fail (e : EngineError) : Exec α := throw (.failed e)

/-- Throws an exception, which takes the trace of its first throw. -/
def throwObject (e : ObjId) : Exec α := do
  let t ← read
  modify (·.captureTrace t e)
  throw (.thrown e)

def create (fault : Fault) (message : Option String) : Exec ObjId :=
  modifyGet fun w => w.createException fault message

def raise (fault : Fault) (message : Option String) : Exec α := do
  throwObject (← create fault message)

def outOfMemory : Exec α := raise .outOfMemory none

/-- Runs an allocation; `full` says what happens when it does not fit. -/
def allocating (full : AllocError → Exec α) (alloc : World → Except AllocError α × World) :
    Exec α := do
  match ← modifyGet alloc with
  | .ok a => return a
  | .error e => full e

def thread : Exec Thread := do
  let t ← read
  match (← get).thread? t with
  | some thread => return thread
  | none => fail (.notAttached t)

def modifyThread (f : Thread → Thread) : Exec Unit := do
  let t ← read
  modify (·.modifyThread t f)

/-! ## Objects -/

def object (o : ObjId) : Exec Object := do
  match (← get).object? o with
  | some obj => return obj
  | none => fail (.internal "no such object")

def modifyObject (o : ObjId) (f : Object → Object) : Exec Unit :=
  modify fun w => { w with heap := w.heap.modify o f }

def classOf (o : ObjId) : Exec Class := do
  match (← get).classOf? o with
  | some c => return c
  | none => fail (.internal "no such class")

def className (o : ObjId) : Exec String := return (← get).className o

def field (o : ObjId) (slot : Nat) : Exec Value := do
  let obj ← object o
  match obj.content with
  | .instance fields =>
    match fields[slot]? with
    | some v => return v
    | none => fail (.fieldSlot obj.cls.name slot)
  | _ => fail (.notAnInstance obj.cls.name)

def setField (o : ObjId) (slot : Nat) (v : Value) : Exec Unit := do
  let obj ← object o
  match obj.content with
  | .instance fields =>
    if slot < fields.size then modifyObject o (World.setField · slot v)
    else fail (.fieldSlot obj.cls.name slot)
  | _ => fail (.notAnInstance obj.cls.name)

def arrayLength (o : ObjId) : Exec Nat := do
  let obj ← object o
  match obj.length? with
  | some n => return n
  | none => fail (.notAnArray obj.cls.name)

def element (o : ObjId) (i : Nat) : Exec Value := do
  let obj ← object o
  match obj.content with
  | .array _ data =>
    match data[i]? with
    | some v => return v
    | none => fail (.arrayIndex i)
  | _ => fail (.notAnArray obj.cls.name)

/-- Elements keep only what their kind can hold. -/
def storeElement (i : Nat) (v : Value) (o : Object) : Object :=
  match o.content with
  | .array kind data => { o with content := .array kind (data.setIfInBounds i (kind.narrow v)) }
  | _ => o

def setElement (o : ObjId) (i : Nat) (v : Value) : Exec Unit := do
  let n ← arrayLength o
  if i < n then modifyObject o (storeElement i v) else fail (.arrayIndex i)

/-! ## Statics -/

def staticValue (s : StaticSlot) : Exec Value := do
  match ((← get).registry.class? s.owner.id).bind (·.staticValues[s.slot]?) with
  | some v => return v
  | none => fail (.fieldSlot s.owner.name s.slot)

def setStaticValue (s : StaticSlot) (v : Value) : Exec Unit := do
  match (← get).registry.class? s.owner.id with
  | some c =>
    if s.slot < c.staticValues.size then
      let store (c : Class) : Class :=
        { c with staticValues := c.staticValues.setIfInBounds s.slot v }
      modify fun w => { w with registry := w.registry.modifyClass s.owner.id store }
    else fail (.fieldSlot s.owner.name s.slot)
  | none => fail (.fieldSlot s.owner.name s.slot)

/-! ## Monitors -/

def enterMonitor (after : Bool) (o : ObjId) : Exec Bool := do
  let t ← read
  let obj ← object o
  let table := (← get).monitors
  match if after then table.enterAfterWait obj.lock t else table.enter obj.lock t with
  | .error e => fail (.monitor e)
  | .ok .blocked => return false
  | .ok (.entered lock table) =>
    modify fun w =>
      { w with monitors := table, heap := w.heap.modify o fun obj => { obj with lock } }
    return true

def exitMonitor (o : ObjId) : Exec (Except MonitorError Unit) := do
  let t ← read
  let obj ← object o
  match (← get).monitors.exit obj.lock t with
  | .error e => return .error e
  | .ok (lock, table) =>
    modify fun w =>
      { w with monitors := table, heap := w.heap.modify o fun obj => { obj with lock } }
    return .ok ()

end Exec

end ManagedCore
