import ManagedCore.Machine.Exec

/-!
# Resolving handles

A lazy handle is resolved from its symbol each time it is used. Classes never change once they are
linked, so a resolution that succeeded gives the same answer again; one that failed is tried anew.
-/

namespace ManagedCore

namespace Exec

def arrayClass? (component : FieldType) : Exec (Option Class) := do
  let (c, r) := (← get).registry.arrayClass component
  modify fun w => { w with registry := r }
  return c.toOption

def namedClass? (name : String) : Exec (Option Class) := do
  if name.startsWith "[" then
    match FieldType.parse name with
    | .ok (.array component) => arrayClass? component
    | _ => return none
  else modifyGet fun w => w.lookup name

def symbolClass? : Symbol → Exec (Option Class)
  | .class name => namedClass? name
  | .arrayOf name =>
    match FieldType.ofClassName name with
    | .ok component => arrayClass? component
    | .error _ => return none
  | s => fail (.internal (s.text ++ " is not a class symbol"))

def resolveClass (s : Symbol) : Exec Class := do
  match ← symbolClass? s with
  | some c => return c
  | none => raise .noClassDefFound (some s.text)

def registered (id : ClassId) : Exec Class := do
  match (← get).registry.class? id with
  | some c => return c
  | none => fail (.internal "no such class")

def classHandle : Handle ClassRef → Exec Class
  | .resolved c => registered c.id
  | .lazy _ s => resolveClass s

def fieldHandle : Handle FieldSlot → Exec Nat
  | .resolved f => return f.slot
  | .lazy _ (.field m) => do
    let c ← resolveClass (.class m.owner)
    match c.findField? m.name m.descriptor with
    | some f => return f.slot
    | none => raise .noSuchField (some m.text)
  | .lazy _ s => fail (.internal (s.text ++ " is not a field symbol"))

def staticHandle : Handle StaticSlot → Exec StaticSlot
  | .resolved s => return s
  | .lazy _ (.static m) => do
    let c ← resolveClass (.class m.owner)
    match (← get).registry.findStatic? c m.name m.descriptor with
    | some (c, slot) => return ⟨c.ref, slot⟩
    | none => raise .noSuchField (some m.text)
  | .lazy _ s => fail (.internal (s.text ++ " is not a static field symbol"))

def methodById (id : MethodId) : Exec Method := do
  match (← get).registry.method? id with
  | some m => return m
  | none => fail (.internal "no such method")

def methodHandle : Handle MethodRef → Exec Method
  | .resolved m => methodById m.id
  | .lazy _ (.method m) => do
    let c ← resolveClass (.class m.owner)
    match (← get).registry.findMethod? c m.name m.descriptor with
    | some m => return m
    | none => raise .noSuchMethod (some m.text)
  | .lazy _ s => fail (.internal (s.text ++ " is not a method symbol"))

/-! ## Selecting the target of a call -/

/-- The method at the place of the declared one, if it has the same name and descriptor, and else
whatever the table of the receiver holds under that name. -/
def selectVirtual? (r : Registry) (declared : Method) (receiver : Class) : Option Method :=
  let placed := (declared.offset.bind receiver.slotMethod?).bind r.method?
  (placed.filter (·.isNamed declared.name declared.descriptor)).or
    (r.findVirtual? receiver declared.name declared.descriptor)

def cacheTarget? (r : Registry) (member : MemberRef) (receiver : Class) : Option MethodId :=
  ((r.findVirtual? receiver member.name member.descriptor).filter (!·.isAbstract)).map (·.id)

def lookupSite (code : CodeId) (site : CallSite) (receiver : Class) : Exec (Option MethodId) :=
  modifyGet fun w =>
    match (w.code? code).bind (·.caches[site.number]?) with
    | none => (cacheTarget? w.registry site.member receiver, w)
    | some cache =>
      let (m, _, cache) :=
        cache.lookup receiver.id fun _ => cacheTarget? w.registry site.member receiver
      let keep (c : LiveCode) : LiveCode :=
        { c with caches := c.caches.setIfInBounds site.number cache }
      (m, { w with codes := w.codes.modify code keep })

end Exec

end ManagedCore
