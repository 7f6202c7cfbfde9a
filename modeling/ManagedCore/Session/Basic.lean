import ManagedCore.Machine.Control

/-!
# Sessions

A session holds an engine and what its user has given names to. It numbers objects in the order in
which they are first shown. A command either has a reply or fails; what a failing command changed
stays changed.
-/

namespace ManagedCore

/-- A code cache of its own, whose codes are told apart by labels. -/
structure LabelledCache where
  cache : CodeCache String
  /-- Insertions tried so far. -/
  inserts : Nat := 0

structure Session where
  world : World
  /-- Objects shown so far; the position of an object is its number. -/
  shown : Array ObjId := #[]
  roots : RootSet := {}
  sites : List (String × InlineCache) := []
  caches : List (String × LabelledCache) := []

def Session.start (config : Config) : Except EngineError Session := do
  let w ← World.start config
  let (_, w) ← w.attach "main" World.hostStackSize
  return { world := w }

/-- What a command shows, and the value that it yields to be named. -/
structure Reply where
  report : Report
  yields : Option Value := none

namespace Reply

def shows (r : Report) : Reply := { report := r }

def ofValue (v : Value) : Reply := { report := .value v, yields := some v }

end Reply

abbrev Act := EStateM EngineError Session

/-! ## Showing reports -/

namespace Text

def hexWord (width n : Nat) : String :=
  let ds := hexDigits n
  String.ofList (List.replicate (width - ds.length) '0' ++ ds)

end Text

/-- Numbers are tagged by their type; floats are given by their bits, with one spelling for all
that are no number. -/
def Value.numberText : Value → String
  | int v => "i:" ++ toString v.toInt
  | long v => "l:" ++ toString v.toInt
  | float v => if v.isNaN then "f:nan" else "f:" ++ Text.hexWord 8 v.bits.toNat
  | double v => if v.isNaN then "d:nan" else "d:" ++ Text.hexWord 16 v.bits.toNat
  | ref _ => "null"

def Object.shownText (o : Object) (number : Nat) : String :=
  match o.content with
  | .instance _ => s!"ref:{number}:{o.cls.name}"
  | .array _ data => s!"arr:{number}:{o.cls.name}:{data.size}"
  | .text s => s!"str:{number}:{s}"

/-- Number of an object; one not shown before gets the next number. -/
def numberOf (shown : Array ObjId) (o : ObjId) : Nat × Array ObjId :=
  match shown.findIdx? (· == o) with
  | some i => (i, shown)
  | none => (shown.size, shown.push o)

def showValue (h : Heap) (shown : Array ObjId) (v : Value) : String × Array ObjId :=
  match v.obj?.bind fun o => (h.get? o).map (o, ·) with
  | none => (v.numberText, shown)
  | some (o, obj) =>
    let (n, shown) := numberOf shown o
    (obj.shownText n, shown)

def knownNumbers (shown : Array ObjId) (os : List ObjId) : List Nat :=
  (shown.toList.zipIdx.filter fun p => os.contains p.1).map (·.2)

namespace Report

mutual

def display (h : Heap) (shown : Array ObjId) : Report → Report × Array ObjId
  | value v =>
    let (s, shown) := showValue h shown v
    (text s, shown)
  | known os => (nats (knownNumbers shown os), shown)
  | list rs =>
    let (rs, shown) := displayAll h shown rs
    (list rs, shown)
  | record fs =>
    let (fs, shown) := displayFields h shown fs
    (record fs, shown)
  | null => (null, shown)
  | bool b => (bool b, shown)
  | int n => (int n, shown)
  | decimal n places => (decimal n places, shown)
  | text s => (text s, shown)

def displayAll (h : Heap) (shown : Array ObjId) : List Report → List Report × Array ObjId
  | [] => ([], shown)
  | r :: rest =>
    let (r, shown) := display h shown r
    let (rest, shown) := displayAll h shown rest
    (r :: rest, shown)

def displayFields (h : Heap) (shown : Array ObjId) :
    List (String × Report) → List (String × Report) × Array ObjId
  | [] => ([], shown)
  | (name, r) :: rest =>
    let (r, shown) := display h shown r
    let (rest, shown) := displayFields h shown rest
    ((name, r) :: rest, shown)

end

end Report

def Session.display (s : Session) (r : Report) : Report × Session :=
  let heap := s.world.heap
  let (log, shown) := Report.displayAll heap s.shown s.world.log.reverse
  let (r, shown) := r.display heap shown
  (r, { s with shown, world := { s.world with log := log.reverse } })

def EngineError.report (e : EngineError) : Report := .error e.kind e.message

namespace Act

variable {α : Type}

def world : Act World := return (← get).world

def modifyWorld (f : World → World) : Act Unit := modify fun s => { s with world := f s.world }

def updateWorld (f : World → α × World) : Act α :=
  modifyGet fun s =>
    let (a, w) := f s.world
    (a, { s with world := w })

def display (r : Report) : Act Report := modifyGet (·.display r)

/-- Runs something that can fail and then leaves the engine as it was. -/
def attempt (f : World → Except EngineError (α × World)) : Act α := do
  match f (← world) with
  | .ok (a, w) =>
    modify fun s => { s with world := w }
    return a
  | .error e => throw e

def allocating (f : World → Except AllocError ObjId × World) : Act Value := do
  match ← updateWorld f with
  | .ok o => return .obj o
  | .error e => throw (.alloc e)

/-! ## Arguments of commands -/

def source : Source → Act Value
  | .value v => return v
  | .text s => allocating (·.intern s)
  | .named n => return ((← world).names.lookup n).getD .null
  | .argument _ | .last => return .null

def sourceObject (s : Source) : Act ObjId := do
  match ← source s with
  | .ref (some o) => return o
  | _ => throw (.typeMismatch "null receiver")

def sourceObjects (ss : List Source) : Act (List ObjId) := do
  return (← ss.mapM source).filterMap Value.obj?

def findClass (name : String) : Act Class := do
  match ← updateWorld (·.lookup name) with
  | some c => return c
  | none => throw (.classNotFound name)

def findMethod (m : MemberRef) : Act Method := do
  let c ← findClass m.owner
  match (← world).registry.findMethod? c m.name m.descriptor with
  | some m => return m
  | none => throw (.methodNotFound m.name)

def findThread (name : String) : Act Thread := do
  match (← world).threads.named? name with
  | some t => return t
  | none => throw (.internal s!"no thread {name}")

def threadNow (t : ThreadId) : Act Thread := do
  match (← world).thread? t with
  | some t => return t
  | none => throw (.notAttached t)

def onThread (t : ThreadId) (x : Exec α) : Act α := do
  match x.runOn t (← world) with
  | .ok a w =>
    modify fun s => { s with world := w }
    return a
  | .error (.failed e) w =>
    modify fun s => { s with world := w }
    throw e
  | .error (.thrown _) w =>
    modify fun s => { s with world := w }
    throw (.internal "exception outside managed code")

end Act

end ManagedCore
