import ManagedCore.Machine.Resolve

/-!
# Native methods at work

One action of a native script, or a whole built-in method, as a computation of the calling thread.
Calls back into managed code and waits for monitors are left to the machine.
-/

namespace ManagedCore

def Pool.view (p : Pool) (loaded : Option Class) (i : Nat) : Report :=
  let bad (e : PoolError) : Report := .error ("Pool." ++ e.kind) e.message
  let constant : PoolConstant → Report
    | .value v => .value v
    | .string s => .text ("string:" ++ s)
    | .class name => .text ("class:" ++ name)
  .record
    [("method", .ofExcept bad (fun m => .text m.text) (p.method i)),
      ("field", .ofExcept bad (fun m => .text m.text) (p.field i)),
      ("class_name", .ofExcept bad .text (p.className i)),
      ("class", .opt (fun c => .text c.name) loaded),
      ("constant", .ofExcept bad constant (p.constant i)),
      ("bound", .bool (p.isBound i))]

namespace World

/-! ## What a thread shows -/

def frameTexts (w : World) (t : Thread) (onlyManaged : Bool) : Report :=
  .texts ((t.frames.walk onlyManaged).map fun (i, f) => f.text w.registry i)

def methodText (w : World) (m : MethodId) : Report :=
  .opt (fun m => .text m.text) (w.registry.method? m)

def chainReport (w : World) (t : Thread) : Report :=
  .all (fun r => .list [.nat r.frameIndex, .opt w.methodText r.handler, .opt .nat r.previous,
    .bool (r.isolate == isolate)]) t.chain.records

def stateReport (t : Thread) : Report :=
  .record
    [("uncooperative", .bool t.isUncooperative), ("saved_sp", .bool t.savedSp),
      ("pending", .bool t.pending.isSome), ("last_known", .opt .nat t.frames.lastKnown),
      ("frames", .nat t.frames.size), ("depth", .nat t.chain.depth)]

/-- Looking at an entry that names an array class brings that class into being. -/
def poolView (w : World) (c : Class) (i : Nat) : Report × World :=
  match c.pool.className i with
  | .error _ => (c.pool.view none i, w)
  | .ok name =>
    let (loaded, w) := w.lookup name
    (c.pool.view loaded i, w)

end World

inductive Reaction where
  | go (last : Value)
  | finish (v : Option Value)
  | call (m : MethodId) (args : List Value) (catches : Bool)
  | acquire (o : ObjId)

namespace Exec

variable {α : Type}

def record (r : Report) : Exec Unit := modify fun w => { w with log := r :: w.log }

/-! ## Built-in methods -/

def receiver (args : List Value) : Exec ObjId :=
  match args.head? with
  | some (.ref (some o)) => return o
  | some (.ref none) => fail (.typeMismatch "null receiver")
  | _ => fail (.typeMismatch "native method called without a receiver")

def builtin (b : Builtin) (args : List Value) : Exec (Option Value) := do
  match b with
  | .nothing => return none
  | .identityHash => return some (.int (Int32.ofNat (← receiver args)))
  | .stringLength =>
    let obj ← object (← receiver args)
    match obj.string? with
    | some s => return some (.int (Int32.ofNat s.length))
    | none => fail (.typeMismatch s!"{obj.cls.name} is not a string")
  | .setMessage =>
    setField (← receiver args) messageSlot (args.getD 1 default)
    return none
  | .getMessage => return some (← field (← receiver args) messageSlot)

/-! ## Scripts -/

def internValue (s : String) : Exec Value := do
  return .obj (← allocating (fun e => fail (.alloc e)) (·.intern s))

def source (args : List Value) (last : Value) : Source → Exec Value
  | .argument i => return args.getD i .null
  | .last => return last
  | .value v => return v
  | .text s => internValue s
  | .named n => return ((← get).names.lookup n).getD .null

def sourceObject (args : List Value) (last : Value) (s : Source) : Exec ObjId := do
  match ← source args last s with
  | .ref (some o) => return o
  | _ => fail (.typeMismatch "null receiver")

def exceptionOf (args : List Value) (last : Value) : ExceptionSource → Exec ObjId
  | .fresh fault message => create fault message
  | .given s => sourceObject args last s

/-- Leaves an exception to be thrown when the innermost native method returns. That method has to
run on this thread, with its own record in the chain. -/
def raiseFromNative (e : ObjId) : Exec Unit := do
  let t ← thread
  match t.frames.lastKnown with
  | none => fail (.notInNative t.id)
  | some frame =>
    if (t.chain.nearest? frame).any fun r => r.frameIndex = frame && r.isolate = World.isolate then
      modifyThread fun t => { t with pending := some e }
    else fail (.notInNative t.id)

def observe (m : MethodId) (args : List Value) : Observation → Exec Report
  | .arguments => return .all .value args
  | .frames => return (← get).frameTexts (← thread) false
  | .managedFrames => return (← get).frameTexts (← thread) true
  | .chain => return (← get).chainReport (← thread)
  | .roots => return .objects (← thread).roots.all
  | .stackRoots => return .objects (← thread).roots.stack
  | .state => return World.stateReport (← thread)
  | .method => do
    let m ← methodById m
    return .list [.text m.text, .nat m.paramSlots]
  | .pool i => do
    let m ← methodById m
    match (← get).registry.class? m.owner with
    | none => return .null
    | some c => modifyGet (·.poolView c i)

def findTarget (owner name descriptor : String) : Exec MethodId := do
  match ← modifyGet (·.lookup owner) with
  | none => fail (.classNotFound owner)
  | some c =>
    match (← get).registry.findMethod? c name descriptor with
    | none => fail (.methodNotFound name)
    | some m => return m.id

def perform (m : MethodId) (args : List Value) (last : Value) (a : Action) : Exec Reaction := do
  match a with
  | .say r =>
    record r
    return .go last
  | .log what =>
    record (← observe m args what)
    return .go last
  | .raise e =>
    raiseFromNative (← exceptionOf args last e)
    return .go last
  | .throw e => throw (.thrown (← exceptionOf args last e))
  | .fatal s => fail (.internal s)
  | .intern s => return .go (← internValue s)
  | .call owner name descriptor sources catches =>
    let target ← findTarget owner name descriptor
    return .call target (← sources.mapM (source args last)) catches
  | .monitorEnter s => return .acquire (← sourceObject args last s)
  | .monitorExit s =>
    match ← exitMonitor (← sourceObject args last s) with
    | .ok () => return .go last
    | .error e => fail (.monitor e)
  | .getField s slot => return .go (← field (← sourceObject args last s) slot)
  | .setField s slot v =>
    let o ← sourceObject args last s
    setField o slot (← source args last v)
    return .go last
  | .result s => return .finish (some (← source args last s))
  | .resultNone => return .finish none

end Exec

end ManagedCore
