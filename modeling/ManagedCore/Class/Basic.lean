import ManagedCore.Bytecode.Code
import ManagedCore.Descriptor
import ManagedCore.Native
import ManagedCore.Ir.Handle
import ManagedCore.PatchCell

/-!
# Classes and methods

A linked class has its instance fields laid out with the inherited ones first, and a virtual table
that starts as a copy of the table of its superclass. Classes and methods refer to each other by
number.
-/

namespace ManagedCore

/-- Number of a thread; numbers start at one. -/
abbrev ThreadId := Nat

abbrev CodeId := Nat

namespace Flag

def isPublic : Nat := 0x0001

def isPrivate : Nat := 0x0002

def isStatic : Nat := 0x0008

def isFinal : Nat := 0x0010

def isSynchronized : Nat := 0x0020

def isNative : Nat := 0x0100

def isInterface : Nat := 0x0200

def isAbstract : Nat := 0x0400

/-- Callers may expand the method in place. -/
def isInline : Nat := 0x8000

def has (flags mask : Nat) : Bool := flags &&& mask == mask

end Flag

/-- What a call of a method currently runs. -/
inductive Entry where
  | stub
  | compiled (code : CodeId)
  | native
  | abstract
deriving DecidableEq, Repr

structure MethodDef where
  name : String
  descriptor : String
  flags : Nat := Flag.isPublic
  code : Option Code := none
  native : Option Native := none

namespace MethodDef

def ofCode (name descriptor : String) (flags : Nat) (code : Code) : MethodDef :=
  { name, descriptor, flags, code := some code }

def ofNative (name descriptor : String) (flags : Nat) (n : Native) : MethodDef :=
  { name, descriptor, flags := flags ||| Flag.isNative, native := some n }

def ofAbstract (name descriptor : String) (flags : Nat) : MethodDef :=
  { name, descriptor, flags := flags ||| Flag.isAbstract }

def isVirtual (m : MethodDef) (inInterface : Bool) : Bool :=
  !inInterface && !Flag.has m.flags Flag.isStatic && !Flag.has m.flags Flag.isPrivate &&
    m.name.toList.head? ≠ some '<'

def entry (m : MethodDef) : Entry :=
  match m.native, m.code with
  | some _, _ => .native
  | none, some _ => .stub
  | none, none => .abstract

end MethodDef

structure FieldDef where
  name : String
  descriptor : String
  isStatic : Bool := false
deriving DecidableEq, Repr

structure ClassDef where
  name : String
  superclass : Option String
  interfaces : List String := []
  flags : Nat := Flag.isPublic
  fields : List FieldDef := []
  methods : List MethodDef := []
  constants : Array PoolEntry := #[]
  loader : Nat := 0

structure Method where
  id : MethodId
  owner : ClassId
  ownerName : String
  name : String
  descriptor : String
  signature : Signature
  flags : Nat
  code : Option Code
  native : Option Native
  loader : Nat
  /-- Place in the virtual table. -/
  offset : Option Nat
  entry : PatchCell Entry

namespace Method

def text (m : Method) : String := m.ownerName ++ "." ++ m.name ++ m.descriptor

def isStatic (m : Method) : Bool := Flag.has m.flags Flag.isStatic

def isSynchronized (m : Method) : Bool := Flag.has m.flags Flag.isSynchronized

def isNative (m : Method) : Bool := Flag.has m.flags Flag.isNative

def isAbstract (m : Method) : Bool := Flag.has m.flags Flag.isAbstract

def isFinal (m : Method) : Bool :=
  Flag.has m.flags Flag.isFinal || Flag.has m.flags Flag.isPrivate

def isVirtual (m : Method) : Bool := m.offset.isSome

def isNamed (m : Method) (name descriptor : String) : Bool :=
  m.name == name && m.descriptor == descriptor

/-- Marked for expansion, with a plain body that is short enough and protects nothing. -/
def isInlinable (m : Method) (maxLen : Nat) : Bool :=
  Flag.has m.flags Flag.isInline && !m.isSynchronized && !m.isNative &&
    match m.code with
    | some c => c.handlers.isEmpty && c.bytes.length ≤ maxLen
    | none => false

def paramTypes (m : Method) : List ValueType :=
  if m.isStatic then m.signature.paramTypes else .ref :: m.signature.paramTypes

def paramSlots (m : Method) : Nat := m.signature.paramSlots + if m.isStatic then 0 else 1

def lineAt (m : Method) (pc : Nat) : Option Nat := m.code.bind (·.lineAt pc)

def ref (m : Method) : MemberRef := ⟨m.ownerName, m.name, m.descriptor⟩

end Method

structure FieldInfo where
  owner : String
  name : String
  type : FieldType
  slot : Nat
deriving DecidableEq, Repr

def FieldInfo.isNamed (f : FieldInfo) (name descriptor : String) : Bool :=
  f.name == name && f.type.text == descriptor

inductive ClassKind where
  | plain
  | interface
  | array (component : FieldType) (kind : ElementKind) (componentClass : Option ClassId)
deriving DecidableEq, Repr

inductive InitPhase where
  | uninitialized
  | running (t : ThreadId)
  | initialized
  | failed
deriving DecidableEq, Repr

structure Class where
  id : ClassId
  name : String
  flags : Nat
  kind : ClassKind
  loader : Nat
  superclass : Option ClassId
  interfaces : List ClassId
  fields : List FieldInfo
  statics : List FieldInfo
  staticValues : Array Value
  methods : List MethodId
  /-- Ancestors from the root down to the class itself. -/
  display : List ClassId
  /-- Every interface implemented, directly or not. -/
  implemented : List ClassId
  slots : Array (PatchCell MethodId)
  finalizer : Option MethodId
  pool : Pool
  init : InitPhase
  /-- Lock object of static synchronized methods. -/
  lock : Option ObjId

def instanceSize (fields : Nat) : Nat := 16 + 8 * fields

namespace Class

def isInterface (c : Class) : Bool := c.kind == .interface

def isAbstract (c : Class) : Bool := Flag.has c.flags Flag.isAbstract

def isArray (c : Class) : Bool :=
  match c.kind with
  | .array _ _ _ => true
  | _ => false

def element? (c : Class) : Option ElementKind :=
  match c.kind with
  | .array _ k _ => some k
  | _ => none

def component? (c : Class) : Option ClassId :=
  match c.kind with
  | .array _ _ k => k
  | _ => none

def isInitialized (c : Class) : Bool := c.init == .initialized

def fieldTypes (c : Class) : List ValueType := c.fields.map (·.type.valueType)

def size (c : Class) : Nat := instanceSize c.fields.length

def findField? (c : Class) (name descriptor : String) : Option FieldInfo :=
  c.fields.reverse.find? (·.isNamed name descriptor)

def slotMethod? (c : Class) (offset : Nat) : Option MethodId :=
  (c.slots[offset]?).map (·.current)

def slotMethods (c : Class) : List MethodId := c.slots.toList.map (·.current)

def depth (c : Class) : Nat := c.display.length - 1

def isSubclassOf (c ancestor : Class) : Bool := c.display[ancestor.depth]? == some ancestor.id

def patch (c : Class) (offset : Nat) (m : MethodId) : Class :=
  { c with slots := c.slots.modify offset (·.store m) }

def ref (c : Class) : ClassRef := ⟨c.id, c.name⟩

end Class

end ManagedCore
