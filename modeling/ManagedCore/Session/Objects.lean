import ManagedCore.Session.Basic

/-!
# Commands on objects and exceptions
-/

namespace ManagedCore

def lockReport (w : World) (o : ObjId) : Report :=
  let lock := ((w.object? o).map (·.lock)).getD .unlocked
  .list [.opt .nat (w.monitors.owner? lock), .nat (w.monitors.holdCount lock),
    .bool (MonitorTable.isInflated lock), .nat w.monitors.fatCount]

def Object.debugText (o : Object) : String :=
  match o.content with
  | .instance _ => o.cls.name ++ String.ofList Text.addressMark
  | .array _ data => s!"{o.cls.name}[{data.size}]"
  | .text s => Text.quote s

def inspectReport (w : World) (id : ObjId) (o : Object) : Report :=
  .record
    [("object", .object id), ("kind", .text o.kindName), ("values", .all .value o.values),
      ("elem", .opt (fun k => .text k.name) o.element?), ("refs", .objects o.references),
      ("lock", lockReport w id), ("message", .opt .text (w.exceptionMessage? id)),
      ("debug", .text (Text.maskAddresses o.debugText)),
      ("trace", .opt (fun t => .texts (t.map TraceElement.summary)) o.trace)]

/-- Message that the engine itself gives to an exception of a kind, from the texts and numbers that
describe the fault. -/
def Fault.standardMessage (a b : String) (i k : Int) : Fault → Option String
  | nullPointer | outOfMemory | stackOverflow => none
  | arrayIndexOutOfBounds => some (Exec.indexText i k)
  | arrayStore => some (Exec.storeText a b)
  | negativeArraySize => some (toString i)
  | classCast => some (Exec.castText a b)
  | arithmetic | noSuchMethod | noSuchField | noClassDefFound => some a
  | illegalMonitorState => some "current thread is not owner"

namespace Act

variable {α : Type}

def new (cls : String) : Act Reply := do
  let c ← findClass cls
  return .ofValue (← allocating (·.allocate c))

def newArray (cls : String) (length : Nat) : Act Reply := do
  let c ← findClass cls
  match c.element? with
  | none => throw (.notAnArray c.name)
  | some kind =>
    return .ofValue (← allocating (·.allocateArray c kind length))

def intern (s : String) : Act Reply := do
  return .ofValue (← source (.text s))

def heap : Act Reply := do
  return .shows (.nat (← world).heap.allocated)

/-- Access to objects involves no thread. -/
def access (x : Exec α) : Act α := onThread 0 x

def getField (obj : Source) (slot : Nat) : Act Reply := do
  let o ← sourceObject obj
  return .ofValue (← access (Exec.field o slot))

def setField (obj : Source) (slot : Nat) (v : Source) : Act Reply := do
  let o ← sourceObject obj
  let v ← source v
  access (Exec.setField o slot v)
  return .shows (.text "ok")

def arrayGet (obj : Source) (i : Nat) : Act Reply := do
  let o ← sourceObject obj
  return .ofValue (← access (Exec.element o i))

def arraySet (obj : Source) (i : Nat) (v : Source) : Act Reply := do
  let o ← sourceObject obj
  let v ← source v
  access (Exec.setElement o i v)
  return .shows (.text "ok")

/-! ## Statics -/

def static (m : MemberRef) (v : Option Source) : Act Reply := do
  let c ← findClass m.owner
  let v ← v.mapM source
  match (← world).registry.findStatic? c m.name m.descriptor with
  | none => return .shows .null
  | some (owner, slot) =>
    let s : StaticSlot := ⟨owner.ref, slot⟩
    if let some v := v then
      access (Exec.setStaticValue s v)
    let v ← access (Exec.staticValue s)
    return { report := .list [.text owner.name, .nat slot, .value v], yields := some v }

/-- The static field at a place, and whether a given value could be stored there. -/
def rawStatic (cls : String) (slot : Nat) (v : Option Source) : Act Reply := do
  let c ← findClass cls
  let v ← v.mapM source
  let inRange := decide (slot < c.staticValues.size)
  if let some v := v then
    if inRange then
      access (Exec.setStaticValue ⟨c.ref, slot⟩ v)
  let now := ((← world).registry.class? c.id).bind (·.staticValues[slot]?)
  return .shows (.list [.opt (fun _ => .bool inRange) v, .opt .value now])

/-! ## Looking at objects -/

def inspect (obj : Source) : Act Reply := do
  let id ← sourceObject obj
  let w ← world
  match w.object? id with
  | some o => return .shows (inspectReport w id o)
  | none => throw (.internal "no such object")

/-- Objects have the same identity hash exactly when they are the same. -/
def sameHash (a b : Source) : Act Reply := do
  let a ← sourceObject a
  let b ← sourceObject b
  return .shows (.bool (a == b))

/-! ## Exceptions -/

def exception (fault : Fault) (message : Option String) : Act Reply := do
  let e ← updateWorld (·.createException fault message)
  let message := (← world).exceptionMessage? e
  return { report := .list [.object e, .opt .text message], yields := some (.obj e) }

def standardException (fault : Fault) (a b : String) (i k : Int) : Act Reply :=
  exception fault (fault.standardMessage a b i k)

def raiseFromNative (obj : Source) (thread : String) : Act Reply := do
  let t ← findThread thread
  let e ← sourceObject obj
  onThread t.id (Exec.raiseFromNative e)
  return .shows (.bool (← threadNow t.id).pending.isSome)

end Act

end ManagedCore
