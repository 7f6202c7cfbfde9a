import ManagedCore.Session.Basic

/-!
# Commands on classes
-/

namespace ManagedCore

namespace Class

variable (r : Registry)

def kindText (c : Class) : String :=
  match c.kind with
  | .plain => "instance"
  | .interface => "interface"
  | .array component kind cls =>
    let of := (cls.map r.className).getD "-"
    s!"array {component.text} {kind.name} {of}"

def methodTexts (ms : List MethodId) : Report :=
  .texts (ms.filterMap fun m => (r.method? m).map (·.text))

def fieldText (f : FieldInfo) : String := s!"{f.owner}.{f.name}:{f.type.text}@{f.slot}"

def tableReport (c : Class) : Report :=
  .record
    [("class", .text c.name), ("id", .nat c.id), ("depth", .nat c.depth),
      ("display", .nats c.display), ("methods", methodTexts r c.slotMethods),
      ("len", .nat c.slots.size), ("empty", .bool c.slots.isEmpty),
      ("finalizer", .opt (fun m => .opt (fun m => .text m.text) (r.method? m)) c.finalizer)]

def phaseText : InitPhase → String
  | .uninitialized => "Uninitialized"
  | .running t => s!"Running(#{t})"
  | .initialized => "Initialized"
  | .failed => "Failed"

def summaryInlineLength : Nat := 35

def methodReport (m : Method) : Report :=
  .list [.text m.text, .nat m.flags, .opt .nat m.offset, .nat m.paramSlots,
    .bool (m.isInlinable summaryInlineLength)]

def report (c : Class) : Report :=
  .record
    [("id", .nat c.id), ("name", .text c.name), ("flags", .nat c.flags), ("loader", .nat c.loader),
      ("public", .bool (Flag.has c.flags Flag.isPublic)),
      ("final", .bool (Flag.has c.flags Flag.isFinal)), ("kind", .text (c.kindText r)),
      ("abstract", .bool c.isAbstract), ("array", .bool c.isArray),
      ("interface", .bool c.isInterface), ("elem", .opt (fun k => .text k.name) c.element?),
      ("component", .opt (fun i => .text (r.className i)) c.component?),
      ("super", .opt (fun i => .text (r.className i)) c.superclass),
      ("interfaces", .texts (c.interfaces.map r.className)),
      ("fields", .texts (c.fields.map fieldText)),
      ("field_types", .texts (c.fieldTypes.map ValueType.name)),
      ("statics", .texts (c.statics.map fieldText)),
      ("methods", .all methodReport (c.methods.filterMap r.method?)),
      ("instance_size", .nat c.size), ("init", .text (phaseText c.init)),
      ("vtable", c.tableReport r),
      ("implements", .nats (c.implemented.mergeSort))]

end Class

namespace Act

def define (d : ClassDef) : Act Reply := do
  match ← updateWorld fun w =>
      let (c, r) := w.registry.define d
      (c, { w with registry := r }) with
  | .error e => throw (.link e)
  | .ok c =>
    return .shows (.record [("id", .nat c.id), ("vtable", .nat c.slots.size),
      ("fields", .nat c.fields.length)])

def showClass (name : String) : Act Reply := do
  match ← updateWorld (·.lookup name) with
  | none => return .shows .null
  | some c => return .shows (c.report (← world).registry)

def showTable (name : String) : Act Reply := do
  let c ← findClass name
  return .shows (c.tableReport (← world).registry)

def showClasses : Act Reply := do
  let cs := (← world).registry.classes.toList
  let names := (cs.map fun c => s!"{c.id}:{c.name}").mergeSort fun a b => !(b < a)
  return .shows (.record [("len", .nat cs.length), ("empty", .bool cs.isEmpty),
    ("names", .texts names)])

/-- One row for each class: whether it may stand for each of the classes. -/
def assignable (names : List String) : Act Reply := do
  let cs ← names.mapM findClass
  let r := (← world).registry
  let row (a : Class) : String :=
    String.ofList (cs.map fun b => if r.isAssignable a b then '1' else '0')
  return .shows (.texts (cs.map row))

def find (m : MemberRef) : Act Reply := do
  let c ← findClass m.owner
  let r := (← world).registry
  let method (m : Option Method) : Report := .opt (fun m => .text m.text) m
  return .shows (.record
    [("declared", method (r.declared? c m.name m.descriptor)),
      ("method", method (r.findMethod? c m.name m.descriptor)),
      ("virtual", method (r.findVirtual? c m.name m.descriptor)),
      ("field", .opt (fun f => .text s!"{f.owner}@{f.slot}") (c.findField? m.name m.descriptor)),
      ("static", .opt (fun (c, slot) => .text s!"{c.name}@{slot}")
        (r.findStatic? c m.name m.descriptor))])

def patch (on : String) (offset : Nat) (m : MemberRef) : Act Reply := do
  let c ← findClass on
  let method ← findMethod m
  let done ← updateWorld fun w =>
    let (done, r) := w.registry.patchSlot c.id offset method.id
    (done, { w with registry := r })
  let r := (← world).registry
  let slot := (r.class? c.id).bind (·.slots[offset]?)
  return .shows (.list [.bool done,
    .opt (fun s => .opt (fun m => .text m.text) (r.method? s.current)) slot,
    .opt (fun s => .nat s.generations) slot])

def initPhase (name : String) : Act Reply := do
  return .shows (.text (Class.phaseText (← findClass name).init))

def pool (name : String) (index : Nat) : Act Reply := do
  let c ← findClass name
  return .shows (← updateWorld (·.poolView c index))

end Act

end ManagedCore
