import ManagedCore.Class.Core
import ManagedCore.CodeCache
import ManagedCore.Compile.Compiler
import ManagedCore.Error
import ManagedCore.InlineCache

/-!
# The state of an engine

Everything that outlives a step of running code: classes, objects, monitors, threads, compiled code
and what native scripts have written down. Running code itself is kept apart from it, one control
state for each thread.
-/

namespace ManagedCore

/-- Compiled code with the inline caches of its call sites. -/
structure LiveCode where
  compiled : Compiled
  caches : Array InlineCache

def LiveCode.ofCompiled (c : Compiled) : LiveCode :=
  { compiled := c,
    caches := (c.sites.map fun s => { member := s.member, index := s.index }).toArray }

structure World where
  config : Config
  registry : Registry
  heap : Heap
  monitors : MonitorTable
  threads : Threads := {}
  rendezvous : Rendezvous := {}
  /-- Interned strings. -/
  strings : List (String × ObjId) := []
  codes : Array LiveCode := #[]
  codeCache : CodeCache CodeId
  /-- The one exception that needs no memory when it is raised. -/
  outOfMemory : ObjId
  /-- What native scripts have written down, latest first. -/
  log : List Report := []
  /-- Values that native scripts can refer to by name. -/
  names : List (String × Value) := []

namespace World

def isolate : IsolateId := 1

def hostStackSize : Nat := 16777216

def minStackSize : Nat := 16384

/-! ## Objects and classes -/

def object? (w : World) (o : ObjId) : Option Object := w.heap.get? o

def className (w : World) (o : ObjId) : String := ((w.object? o).map (·.cls.name)).getD ""

def classOf? (w : World) (o : ObjId) : Option Class :=
  (w.object? o).bind fun obj => w.registry.class? obj.cls.id

/-- An object is named by its class and its address, which is never shown. -/
def describe (w : World) (o : ObjId) : String := w.className o ++ String.ofList Text.addressMark

def string? (w : World) (o : ObjId) : Option String := (w.object? o).bind (·.string?)

def exceptionMessage? (w : World) (o : ObjId) : Option String := do
  let c ← w.classOf? o
  let f ← c.findField? "message" messageDescriptor
  let obj ← w.object? o
  match obj.content with
  | .instance fields =>
    let v ← fields[f.slot]?
    let s ← v.obj?
    w.string? s
  | _ => none

def trace? (w : World) (o : ObjId) : Option (List TraceElement) := (w.object? o).bind (·.trace)

def lookup (w : World) (name : String) : Option Class × World :=
  let (c, r) := w.registry.lookup name
  (c, { w with registry := r })

/-! ## Allocation -/

def allocate (w : World) (c : Class) : Except AllocError ObjId × World :=
  let (o, h) := w.heap.allocate c
  (o, { w with heap := h })

def allocateArray (w : World) (c : Class) (kind : ElementKind) (length : Nat) :
    Except AllocError ObjId × World :=
  let (o, h) := w.heap.allocateArray c.ref kind length
  (o, { w with heap := h })

def stringRef (w : World) : ClassRef :=
  ((w.registry.loaded? stringClass).map (·.ref)).getD ⟨0, stringClass⟩

def allocateText (w : World) (s : String) : Except AllocError ObjId × World :=
  let cls := w.stringRef
  let (o, h) := w.heap.allocateText cls s
  (o, { w with heap := h })

def intern (w : World) (s : String) : Except AllocError ObjId × World :=
  match w.strings.lookup s with
  | some o => (.ok o, w)
  | none =>
    match w.allocateText s with
    | (.ok o, w) => (.ok o, { w with strings := w.strings ++ [(s, o)] })
    | (.error e, w) => (.error e, w)

/-- Lock object of the static synchronized methods of a class. It takes no accounted memory. -/
def classLock (w : World) (c : Class) : ObjId × World :=
  match c.lock, w.registry.loaded? objectClass with
  | some o, _ => (o, w)
  | none, object =>
    let cls := (object.map (·.ref)).getD ⟨0, objectClass⟩
    let (o, h) := w.heap.add { cls, content := .instance #[] }
    let registry := w.registry.modifyClass c.id fun c => { c with lock := some o }
    (o, { w with heap := h, registry })

/-! ## Exceptions -/

def setField (o : Object) (slot : Nat) (v : Value) : Object :=
  match o.content with
  | .instance fields => { o with content := .instance (fields.setIfInBounds slot v) }
  | _ => o

/-- An exception of a kind. Without memory for it, it is the one that says so; without memory for
its message, it has none. -/
def createException (w : World) (fault : Fault) (message : Option String) : ObjId × World :=
  match fault, w.registry.loaded? fault.className with
  | .outOfMemory, _ | _, none => (w.outOfMemory, w)
  | _, some c =>
    match w.allocate c, message with
    | (.error _, w), _ => (w.outOfMemory, w)
    | (.ok e, w), none => (e, w)
    | (.ok e, w), some text =>
      match w.allocateText text with
      | (.ok s, w) =>
        (e, { w with heap := w.heap.modify e fun o => setField o messageSlot (.obj s) })
      | (.error _, w) => (e, w)

/-! ## Threads -/

def thread? (w : World) (t : ThreadId) : Option Thread := w.threads.find? t

def modifyThread (w : World) (t : ThreadId) (f : Thread → Thread) : World :=
  { w with threads := w.threads.modify t f }

def enterRegion (w : World) (t : ThreadId) : World :=
  let (r, ts) := w.rendezvous.enter w.threads t
  { w with rendezvous := r, threads := ts }

def leaveRegion (w : World) (t : ThreadId) : World :=
  let (r, ts) := w.rendezvous.leave w.threads t
  { w with rendezvous := r, threads := ts }

/-- Attaches a thread with a stack of this size, of which the guard and the frames of the caller
have to leave something. -/
def attach (w : World) (name : String) (stack : Nat) : Except EngineError (ThreadId × World) :=
  if stack ≤ w.config.stackGuardSize + Thread.baseCost then
    .error (.internal s!"thread {name} has no room above the stack guard")
  else
    let (id, ts) := w.threads.attach name (stack - w.config.stackGuardSize - Thread.baseCost)
    .ok (id, { w with threads := ts })

def detach (w : World) (t : ThreadId) : World := { w with threads := w.threads.detach t }

def captureTrace (w : World) (t : ThreadId) (e : ObjId) : World :=
  match w.trace? e, w.thread? t with
  | none, some thread =>
    let trace := thread.frames.trace w.registry
    { w with heap := w.heap.modify e fun o => { o with trace := some trace } }
  | _, _ => w

/-! ## Code -/

def code? (w : World) (c : CodeId) : Option LiveCode := w.codes[c]?

def addCode (w : World) (c : Compiled) : CodeId × World :=
  (w.codes.size, { w with codes := w.codes.push (LiveCode.ofCompiled c) })

/-- Compiles a method anew and keeps nothing of it but what the registry learns. -/
def compileAnew (w : World) (m : Method) : Except CompileError Compiled × World :=
  let (c, r) := compile w.config w.registry m
  (c, { w with registry := r })

/-- Code for a method: that of the cache, or new code that the cache takes in if it has room. -/
def codeFor (w : World) (m : Method) : Except CompileError CodeId × World :=
  match w.codeCache.get? m.id with
  | some code => (.ok code, w)
  | none =>
    match w.compileAnew m with
    | (.error e, w) => (.error e, w)
    | (.ok c, w) =>
      let (code, w) := w.addCode c
      let (kept, cache) := w.codeCache.insert m.id code
      (.ok (kept.getD code), { w with codeCache := cache })

/-- Compiles a method unless its entry already holds code, and publishes the code there. -/
def compileMethod (w : World) (m : MethodId) : Except CompileError CodeId × World :=
  match w.registry.method? m with
  | none => (.error (.noCode ""), w)
  | some method =>
    match method.entry.current with
    | .compiled code => (.ok code, w)
    | entry =>
      match w.codeFor method with
      | (.error e, w) => (.error e, w)
      | (.ok code, w) =>
        let publish (m : Method) : Method :=
          { m with entry := m.entry.replace entry (.compiled code) }
        (.ok code, { w with registry := w.registry.modifyMethod m publish })

/-! ## Start -/

def start (config : Config) : Except EngineError World := do
  config.validate.mapError EngineError.config
  let heap : Heap := { limit := config.maxHeapBytes }
  let registry := Registry.core
  let oom ← match registry.loaded? Fault.outOfMemory.className with
    | some c => pure c
    | none => throw (.classNotFound Fault.outOfMemory.className)
  match heap.allocate oom with
  | (.error e, _) => throw (.alloc e)
  | (.ok o, heap) =>
    return { config, registry, heap, outOfMemory := o
             monitors := { maxRecursion := config.thinLockMaxRecursion }
             codeCache := { capacity := config.codeCacheCapacity } }

end World

end ManagedCore
