import ManagedCore.Class.Basic

/-!
# The registry of classes

Classes are found by name. Array classes come into being when they are first asked for. `define`
links a class: fields of the superclass come first, an override takes the place of the method it
overrides in the virtual table, and any other virtual method is appended. Nothing moves afterwards.
-/

namespace ManagedCore

inductive LinkError where
  | duplicate (name : String)
  | unknownSuperclass (cls superclass : String)
  | missingSuperclass (name : String)
  | unknownClass (name : String)
  | notAnInterface (name : String)
  | notAClass (name : String)
  | finalSuperclass (name : String)
  | finalOverride (cls method : String)
  | descriptor (e : DescriptorError)
deriving DecidableEq, Repr

namespace LinkError

def kind : LinkError → String
  | duplicate _ => "Duplicate"
  | unknownSuperclass _ _ => "UnknownSuperclass"
  | missingSuperclass _ => "MissingSuperclass"
  | unknownClass _ => "UnknownClass"
  | notAnInterface _ => "NotAnInterface"
  | notAClass _ => "NotAClass"
  | finalSuperclass _ => "FinalSuperclass"
  | finalOverride _ _ => "FinalOverride"
  | descriptor _ => "Descriptor"

def message : LinkError → String
  | duplicate n => s!"class {n} is already defined"
  | unknownSuperclass c s => s!"superclass {s} of {c} is not loaded"
  | missingSuperclass n => s!"class {n} has no superclass"
  | unknownClass n => s!"class {n} is not loaded"
  | notAnInterface n => s!"{n} is not an interface"
  | notAClass n => s!"{n} is an interface and cannot be extended"
  | finalSuperclass n => s!"cannot extend final class {n}"
  | finalOverride c m => s!"{c} overrides final method {m}"
  | descriptor e => e.message

end LinkError

def objectClass : String := "java/lang/Object"

def stringClass : String := "java/lang/String"

def throwableClass : String := "java/lang/Throwable"

/-- Classes and methods by number; class `n` stands at position `n - 1`. -/
structure Registry where
  classes : Array Class := #[]
  methods : Array Method := #[]

namespace Registry

def class? (r : Registry) (id : ClassId) : Option Class :=
  if id = 0 then none else r.classes[id - 1]?

def method? (r : Registry) (id : MethodId) : Option Method := r.methods[id]?

def modifyClass (r : Registry) (id : ClassId) (f : Class → Class) : Registry :=
  if id = 0 then r else { r with classes := r.classes.modify (id - 1) f }

def modifyMethod (r : Registry) (id : MethodId) (f : Method → Method) : Registry :=
  { r with methods := r.methods.modify id f }

def loaded? (r : Registry) (name : String) : Option Class := r.classes.find? (·.name == name)

def className (r : Registry) (id : ClassId) : String := ((r.class? id).map (·.name)).getD ""

def addClass (r : Registry) (make : ClassId → Class) : Class × Registry :=
  let c := make (r.classes.size + 1)
  (c, { r with classes := r.classes.push c })

def makeArray (object : Class) (component : FieldType) (componentClass : Option ClassId)
    (id : ClassId) : Class :=
  { id
    name := (FieldType.array component).text
    flags := Flag.isPublic ||| Flag.isFinal
    kind := .array component component.elementKind componentClass
    loader := object.loader
    superclass := some object.id
    interfaces := []
    fields := []
    statics := []
    staticValues := #[]
    methods := []
    display := [object.id, id]
    implemented := []
    slots := object.slots.map fun s => ⟨s.current, []⟩
    finalizer := none
    pool := { entries := #[] }
    init := .initialized
    lock := none }

def addArray (r : Registry) (object : Class) (component : FieldType)
    (componentClass : Option ClassId) : Except LinkError Class × Registry :=
  let (a, r) := r.addClass (makeArray object component componentClass)
  (.ok a, r)

/-- Array class with this component type; the classes of the components come first. A component
is named by a shorter text than the array, so the length of that text is fuel enough. -/
def arrayClassFrom : Nat → Registry → FieldType → Except LinkError Class × Registry
  | 0, r, component => (.error (.unknownClass component.text), r)
  | fuel + 1, r, component =>
    match r.loaded? (FieldType.array component).text, r.loaded? objectClass with
    | some c, _ => (.ok c, r)
    | none, none => (.error (.unknownClass objectClass), r)
    | none, some object =>
      match component with
      | .object name =>
        match r.loaded? name, FieldType.ofClassName name with
        | some c, _ => r.addArray object component (some c.id)
        | none, .ok (.array inner) =>
          match arrayClassFrom fuel r inner with
          | (.ok c, r) => r.addArray object component (some c.id)
          | (.error _, r) => (.error (.unknownClass name), r)
        | none, _ => (.error (.unknownClass name), r)
      | .array inner =>
        match arrayClassFrom fuel r inner with
        | (.ok c, r) => r.addArray object component (some c.id)
        | (.error e, r) => (.error e, r)
      | _ => r.addArray object component none

def arrayClass (r : Registry) (component : FieldType) : Except LinkError Class × Registry :=
  arrayClassFrom component.toChars.length r component

/-- Class of this name, an array class being created on demand. -/
def lookup (r : Registry) (name : String) : Option Class × Registry :=
  match r.loaded? name, FieldType.ofClassName name with
  | some c, _ => (some c, r)
  | none, .ok (.array component) =>
    match r.arrayClass component with
    | (.ok c, r) => (some c, r)
    | (.error _, r) => (none, r)
  | none, _ => (none, r)

def declared? (r : Registry) (c : Class) (name descriptor : String) : Option Method :=
  (c.methods.filterMap r.method?).find? (·.isNamed name descriptor)

/-- Searches the class, then its superclass, then its interfaces in order. Each step goes to a
class linked earlier, so the number of the class is fuel enough. -/
def findMethodFrom (r : Registry) (name descriptor : String) : Nat → ClassId → Option Method
  | 0, _ => none
  | fuel + 1, id =>
    match r.class? id with
    | none => none
    | some c =>
      match r.declared? c name descriptor with
      | some m => some m
      | none =>
        match c.superclass.bind (r.findMethodFrom name descriptor fuel) with
        | some m => some m
        | none => c.interfaces.findSome? (r.findMethodFrom name descriptor fuel)

def findMethod? (r : Registry) (c : Class) (name descriptor : String) : Option Method :=
  r.findMethodFrom name descriptor c.id c.id

def findVirtual? (r : Registry) (c : Class) (name descriptor : String) : Option Method :=
  (c.slotMethods.filterMap r.method?).find? (·.isNamed name descriptor)

/-- Searches the class, then its interfaces in order, then its superclass. -/
def findStaticFrom (r : Registry) (name descriptor : String) :
    Nat → ClassId → Option (Class × Nat)
  | 0, _ => none
  | fuel + 1, id =>
    match r.class? id with
    | none => none
    | some c =>
      match c.statics.find? (·.isNamed name descriptor) with
      | some f => some (c, f.slot)
      | none =>
        match c.interfaces.findSome? (r.findStaticFrom name descriptor fuel) with
        | some found => some found
        | none => c.superclass.bind (r.findStaticFrom name descriptor fuel)

def findStatic? (r : Registry) (c : Class) (name descriptor : String) : Option (Class × Nat) :=
  r.findStaticFrom name descriptor c.id c.id

/-- Arrays are compared by their components, everything else by the interfaces and ancestors
recorded when the class was linked. -/
def assignableFrom (r : Registry) : Nat → Class → Class → Bool
  | 0, _, _ => false
  | fuel + 1, a, b =>
    if a.id = b.id then true
    else
      match a.kind, b.kind with
      | _, .interface => a.implemented.contains b.id
      | .array _ k c, .array _ l d =>
        match c, d with
        | some c, some d =>
          match r.class? c, r.class? d with
          | some c, some d => r.assignableFrom fuel c d
          | _, _ => false
        | none, none => k == l
        | _, _ => false
      | _, .array _ _ _ => false
      | _, _ => a.isSubclassOf b

def isAssignable (r : Registry) (a b : Class) : Bool := r.assignableFrom a.id a b

/-! ## Linking -/

def resolveSuperclass (r : Registry) (d : ClassDef) :
    Except LinkError (Option Class) × Registry :=
  match d.superclass with
  | none =>
    if d.name = objectClass then (.ok none, r) else (.error (.missingSuperclass d.name), r)
  | some s =>
    match r.lookup s with
    | (none, r) => (.error (.unknownSuperclass d.name s), r)
    | (some c, r) =>
      if c.isInterface then (.error (.notAClass s), r)
      else if Flag.has c.flags Flag.isFinal then (.error (.finalSuperclass s), r)
      else (.ok (some c), r)

def resolveInterfaces (r : Registry) : List String → Except LinkError (List Class) × Registry
  | [] => (.ok [], r)
  | n :: rest =>
    match r.lookup n with
    | (none, r) => (.error (.unknownClass n), r)
    | (some c, r) =>
      if !c.isInterface then (.error (.notAnInterface n), r)
      else
        match r.resolveInterfaces rest with
        | (.ok cs, r) => (.ok (c :: cs), r)
        | (.error e, r) => (.error e, r)

def parseType (text : String) : Except LinkError FieldType :=
  (FieldType.parse text).mapError .descriptor

def layOutFields (owner : String) :
    List FieldDef → List FieldInfo → List FieldInfo →
      Except LinkError (List FieldInfo × List FieldInfo)
  | [], fields, statics => .ok (fields, statics)
  | f :: rest, fields, statics => do
    let type ← parseType f.descriptor
    if f.isStatic then
      layOutFields owner rest fields (statics ++ [⟨owner, f.name, type, statics.length⟩])
    else
      layOutFields owner rest (fields ++ [⟨owner, f.name, type, fields.length⟩]) statics

/-- A declared method with its signature and its place in the virtual table. -/
structure PlacedMethod where
  method : MethodDef
  signature : Signature
  offset : Option Nat

/-- Places each method: an override where the inherited method stands, any other virtual method
after all places taken so far. -/
def placeMethods (owner : String) (inInterface : Bool) (inherited : List Method) :
    Nat → List MethodDef → Except LinkError (List PlacedMethod)
  | _, [] => .ok []
  | next, m :: rest => do
    let signature ← (Signature.parse m.descriptor).mapError LinkError.descriptor
    if m.isVirtual inInterface then
      match inherited.findIdx? (·.isNamed m.name m.descriptor) with
      | some i =>
        if (inherited[i]?).any fun old => Flag.has old.flags Flag.isFinal then
          throw (.finalOverride owner (m.name ++ m.descriptor))
        let tail ← placeMethods owner inInterface inherited next rest
        return ⟨m, signature, some i⟩ :: tail
      | none =>
        let tail ← placeMethods owner inInterface inherited (next + 1) rest
        return ⟨m, signature, some next⟩ :: tail
    else
      let tail ← placeMethods owner inInterface inherited next rest
      return ⟨m, signature, none⟩ :: tail

def linkMethod (c : ClassId) (d : ClassDef) (id : MethodId) (p : PlacedMethod) : Method :=
  { id
    owner := c
    ownerName := d.name
    name := p.method.name
    descriptor := p.method.descriptor
    signature := p.signature
    flags := p.method.flags
    code := p.method.code
    native := p.method.native
    loader := d.loader
    offset := p.offset
    entry := ⟨p.method.entry, []⟩ }

def installMethod (slots : Array MethodId) (m : Method) : Array MethodId :=
  match m.offset with
  | none => slots
  | some i => if i < slots.size then slots.setIfInBounds i m.id else slots.push m.id

def unionIds (a b : List ClassId) : List ClassId := a ++ b.filter fun i => !a.contains i

def link (r : Registry) (d : ClassDef) (superclass : Option Class) (interfaces : List Class) :
    Except LinkError (Class × Registry) := do
  let inInterface := Flag.has d.flags Flag.isInterface
  let (fields, statics) ←
    layOutFields d.name d.fields ((superclass.map (·.fields)).getD []) []
  let inherited := ((superclass.map (·.slotMethods)).getD []).toArray
  let placed ← placeMethods d.name inInterface (inherited.toList.filterMap r.method?)
    inherited.size d.methods
  let id := r.classes.size + 1
  let methods := placed.zipIdx.map fun (p, i) => linkMethod id d (r.methods.size + i) p
  let slots := methods.foldl installMethod inherited
  let r := { r with methods := r.methods ++ methods.toArray }
  let finalizer := ((slots.toList.filterMap r.method?).find? (·.isNamed "finalize" "()V")).filter
    fun m => m.ownerName ≠ objectClass
  let above := interfaces.foldl (fun s c => unionIds s c.implemented)
    ((superclass.map (·.implemented)).getD [])
  let c : Class :=
    { id
      name := d.name
      flags := d.flags
      kind := if inInterface then .interface else .plain
      loader := d.loader
      superclass := superclass.map (·.id)
      interfaces := interfaces.map (·.id)
      fields
      statics
      staticValues := (statics.map fun f => Value.zero f.type.valueType).toArray
      methods := methods.map (·.id)
      display := ((superclass.map (·.display)).getD []) ++ [id]
      implemented := if inInterface then unionIds above [id] else above
      slots := slots.map fun m => ⟨m, []⟩
      finalizer := finalizer.map (·.id)
      pool := { entries := d.constants }
      init := .uninitialized
      lock := none }
  return (c, { r with classes := r.classes.push c })

/-- Links a class and adds it. Array classes that the search for its superclass and interfaces
brought about stay, whether or not linking succeeds. -/
def define (r : Registry) (d : ClassDef) : Except LinkError Class × Registry :=
  if (r.loaded? d.name).isSome then (.error (.duplicate d.name), r)
  else
    match r.resolveSuperclass d with
    | (.error e, r) => (.error e, r)
    | (.ok superclass, r) =>
      match r.resolveInterfaces d.interfaces with
      | (.error e, r) => (.error e, r)
      | (.ok interfaces, r) =>
        match r.link d superclass interfaces with
        | .error e => (.error e, r)
        | .ok (c, r) => (.ok c, r)

/-- Whether the method at `offset` of the table of a class could be replaced. -/
def patchSlot (r : Registry) (c : ClassId) (offset : Nat) (m : MethodId) : Bool × Registry :=
  match r.class? c with
  | some cls =>
    if offset < cls.slots.size then (true, r.modifyClass c (·.patch offset m)) else (false, r)
  | none => (false, r)

end Registry

end ManagedCore
