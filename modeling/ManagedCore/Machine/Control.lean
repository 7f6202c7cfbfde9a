import ManagedCore.Machine.Activation
import ManagedCore.Machine.Script

/-!
# The machine

The control state of a thread is a stack of tasks: calls, activations, native scripts, lowered code
and static initializations. A task either acts or receives the outcome of the task that stood above
it. Every task that changes frames, chain or pins puts them back when it is left, whatever its
outcome.

`step` makes one move of one thread, and `run` makes as many as its fuel allows. A thread that is
parked in a rendezvous makes none.
-/

namespace ManagedCore

inductive Outcome where
  | value (v : Option Value)
  | thrown (e : ObjId)
  | failed (e : EngineError)
deriving DecidableEq

def Trap.outcome : Trap → Outcome
  | thrown e => .thrown e
  | failed e => .failed e

inductive InitStage where
  | request
  /-- Another thread runs the initializer. -/
  | waiting
  | ready
  | refused
  | claimed
  | superclass
  /-- The initializer runs above this many frames. -/
  | body (frames : Nat)
deriving DecidableEq, Repr

inductive ScriptStage where
  | acting
  | calling (catches : Bool)
  | acquiring (o : ObjId)
  /-- The native method is over and the thread is back in managed code. -/
  | ended (o : Outcome)
deriving DecidableEq

structure ScriptRun where
  method : MethodId
  args : List Value
  actions : List Action
  last : Value := .null
  stage : ScriptStage := .acting
  scope : Scope

structure LoweredRun where
  code : Lowered
  state : Lowered.State
  scope : Scope

inductive Task where
  | call (m : MethodId) (args : List Value)
  /-- The method is compiled and about to be entered. -/
  | entering (m : MethodId) (code : CodeId) (args : List Value)
  | activation (a : Activation)
  | lowered (l : LoweredRun)
  | script (s : ScriptRun)
  | prepare (c : ClassId) (stage : InitStage)
  /-- A call that waits for the class of the method to be initialized. -/
  | deferred (m : MethodId) (args : List Value)

/-- What becomes of the task on top. -/
inductive Move where
  | stay (task : Task)
  | push (above task : Task)
  | leave (o : Outcome)

structure Control where
  tasks : List Task
  /-- Outcome of the task that stood on top, not yet received. -/
  answer : Option Outcome := none

def Move.apply (rest : List Task) : Move → Control
  | stay task => { tasks := task :: rest }
  | push above task => { tasks := above :: task :: rest }
  | leave o => { tasks := rest, answer := some o }

namespace World

def restore (w : World) (t : ThreadId) (s : Scope) : World :=
  w.modifyThread t fun th =>
    { th with
      frames := th.frames.popTo s.frames
      chain := match s.chain with
        | some i => th.chain.unlink i
        | none => th.chain
      roots := match s.pins with
        | some mark => th.roots.unpinTo mark
        | none => th.roots }

def publish (w : World) (t : ThreadId) (roots : List ObjId) : World :=
  w.modifyThread t fun th => { th with roots := th.roots.publish roots }

def joinSafepoint (w : World) (t : ThreadId) : World :=
  let (r, ts) := w.rendezvous.join w.threads t
  { w with rendezvous := r, threads := ts }

def shouldYield (w : World) (t : ThreadId) : Bool := (w.thread? t).any (·.yieldFlag)

def isParked (w : World) (t : ThreadId) : Bool := (w.thread? t).any (·.inRendezvous)

def setInit (w : World) (c : ClassId) (phase : InitPhase) : World :=
  { w with registry := w.registry.modifyClass c fun c => { c with init := phase } }

end World

def Exec.runOn {α : Type} (x : Exec α) (t : ThreadId) (w : World) : EStateM.Result Trap World α :=
  (x t).run w

/-! ## Activations -/

namespace Activation

def leave (t : ThreadId) (w : World) (a : Activation) (o : Outcome) : World × Move :=
  (w.restore t a.scope, .leave o)

def unpin (t : ThreadId) (w : World) (a : Activation) : World :=
  match a.wait with
  | .call _ mark => w.modifyThread t fun th => { th with roots := th.roots.unpinTo mark }
  | _ => w

/-- A call that returns nothing leaves zero in its register. -/
def setResult (a : Activation) (dest : Option Reg) (v : Option Value) : Activation :=
  match dest with
  | some d => a.set d (v.getD (.zero ((a.function.regType? d).getD .ref)))
  | none => a

/-- An exception continues at the handler of the block, if it has one. -/
def receive (t : ThreadId) (w : World) (a : Activation) (o : Outcome) : World × Move :=
  let w := a.unpin t w
  match o with
  | .value v =>
    match a.wait with
    | .call dest _ => (w, .stay (.activation (a.setResult dest v).next))
    | .initialization true => (w, .stay (.activation { a with wait := .checked }))
    | _ => (w, .stay (.activation a.next))
  | .thrown e =>
    match a.handler? with
    | some h => (w, .stay (.activation (a.enter h [.obj e])))
    | none => a.leave t w o
  | .failed _ => a.leave t w o

def liveNow (w : World) (a : Activation) : List ObjId :=
  match w.code? a.code with
  | some c => a.liveRefs c.compiled.stackMaps
  | none => []

def acquire (t : ThreadId) (w : World) (a : Activation) (o : ObjId) : World × Move :=
  match (Exec.enterMonitor false o).runOn t w with
  | .ok true w => (w, .stay (.activation a.next))
  | .ok false w => (w.enterRegion t, .stay (.activation { a with wait := .monitor o }))
  | .error trap w => a.receive t w trap.outcome

def carryOut (t : ThreadId) (w : World) (a : Activation) : Effect → World × Move
  | .nothing => (w, .stay (.activation a.next))
  | .assign r v => (w, .stay (.activation (a.set r v).next))
  | .store slot v =>
    (w, .stay (.activation { a with locals := a.locals.setIfInBounds slot v }.next))
  | .call m args dest =>
    let mark := ((w.thread? t).map (·.roots.pinned.size)).getD 0
    let live := a.liveNow w
    let w := w.modifyThread t fun th => { th with roots := th.roots.pin live }
    (w, .push (.call m args) (.activation { a with wait := .call dest mark }))
  | .prepare c again =>
    (w, .push (.prepare c .request) (.activation { a with wait := .initialization again }))
  | .poll =>
    if w.shouldYield t then
      ((w.publish t (a.liveNow w)).joinSafepoint t,
        .stay (.activation { a with wait := .release }))
    else (w, .stay (.activation a.next))
  | .acquire o => a.acquire t w o

def follow (t : ThreadId) (w : World) (a : Activation) : Flow → World × Move
  | .goTo c => (w, .stay (.activation (a.goTo c)))
  | .result v => a.leave t w (.value v)
  | .unwind e => a.leave t w (.thrown e)

/-- The offset is kept up to date for everything that can appear in a trace. -/
def execute (t : ThreadId) (w : World) (a : Activation) : World × Move :=
  match a.function.block? a.block with
  | none => a.leave t w (.failed (.internal s!"{a.function.name} has no such block"))
  | some b =>
    match b.instrs[a.index]? with
    | some p =>
      let w := if p.instr.isNumeric then w
        else w.modifyThread t fun th => { th with frames := th.frames.setPc p.pc }
      match (Exec.evaluate a p.instr).runOn t w with
      | .ok effect w => a.carryOut t w effect
      | .error trap w => a.receive t w trap.outcome
    | none =>
      match (Exec.terminate a b).runOn t w with
      | .ok flow w => a.follow t w flow
      | .error trap w => a.receive t w trap.outcome

def act (t : ThreadId) (w : World) (a : Activation) : World × Move :=
  match a.wait with
  | .release => (w.publish t [], .stay (.activation a.next))
  | .monitor o =>
    match (Exec.enterMonitor true o).runOn t w with
    | .ok true w => (w.leaveRegion t, .stay (.activation a.next))
    | .ok false w => (w, .stay (.activation a))
    | .error trap w => a.receive t (w.leaveRegion t) trap.outcome
  | _ => a.execute t w

end Activation

/-! ## Lowered code -/

namespace LoweredRun

def leave (t : ThreadId) (w : World) (scope : Scope) (o : Outcome) : World × Move :=
  (w.restore t scope, .leave o)

def raised (t : ThreadId) (w : World) (code : Lowered) (scope : Scope) (status : Nat) :
    World × Move :=
  match code.sites[status - 1]? with
  | some site =>
    let (e, w) := w.createException site.fault site.detail
    leave t (w.captureTrace t e) scope (.thrown e)
  | none =>
    leave t w scope (.failed (.internal s!"{code.function.name} returned unknown status {status}"))

def act (t : ThreadId) (w : World) (l : LoweredRun) : World × Move :=
  let stackOk := !(w.thread? t).any (·.stackExhausted)
  let ⟨code, state, scope⟩ := l
  match code.step stackOk state with
  | .next s => (w, .stay (.lowered ⟨code, s, scope⟩))
  | .polled s => (w.joinSafepoint t, .stay (.lowered ⟨code, s, scope⟩))
  | .result cell =>
    leave t w scope (.value (code.function.result.map fun ty => Lowered.ofCell ty cell))
  | .raised status => raised t w code scope status
  | .trapped => leave t w scope (.failed (.internal s!"{code.function.name} trapped"))

end LoweredRun

/-! ## Native scripts -/

namespace ScriptRun

/-- The native method has ended: the thread returns to managed code, where it may be held up. -/
def finish (t : ThreadId) (w : World) (s : ScriptRun) (o : Outcome) : World × Move :=
  (w.leaveRegion t, .stay (.script { s with stage := .ended o }))

def pendingOf (w : World) (t : ThreadId) : Option ObjId := (w.thread? t).bind (·.pending)

/-- Outcome of the call: an exception left pending comes out of a method that returned, and a
method that returned nothing gives the zero of its type. -/
def outcome (t : ThreadId) (w : World) (s : ScriptRun) (o : Outcome) : World × Outcome :=
  let pending := pendingOf w t
  let w := w.modifyThread t fun th => { th with pending := none }
  match o, pending with
  | .value _, some e => (w.captureTrace t e, .thrown e)
  | .value v, none =>
    let type := (w.registry.method? s.method).bind (·.signature.resultType)
    (w, .value (type.map fun ty => v.getD (.zero ty)))
  | o, _ => (w, o)

def conclude (t : ThreadId) (w : World) (s : ScriptRun) (o : Outcome) : World × Move :=
  let (w, o) := s.outcome t w o
  (w.restore t s.scope, .leave o)

def acquire (t : ThreadId) (w : World) (s : ScriptRun) (o : ObjId) : World × Move :=
  match (Exec.enterMonitor false o).runOn t w with
  | .ok true w => (w, .stay (.script s))
  | .ok false w => (w.enterRegion t, .stay (.script { s with stage := .acquiring o }))
  | .error trap w => s.finish t w trap.outcome

/-- Carries out the next action; a script without actions returns nothing. -/
def perform (t : ThreadId) (w : World) (s : ScriptRun) : World × Move :=
  match s.actions with
  | [] => s.finish t w (.value none)
  | a :: rest =>
    let s := { s with actions := rest }
    match (Exec.perform s.method s.args s.last a).runOn t w with
    | .ok (.go last) w => (w, .stay (.script { s with last }))
    | .ok (.finish v) w => s.finish t w (.value v)
    | .ok (.call m args catches) w =>
      (w.leaveRegion t, .push (.call m args) (.script { s with stage := .calling catches }))
    | .ok (.acquire o) w => s.acquire t w o
    | .error trap w => s.finish t w trap.outcome

def act (t : ThreadId) (w : World) (s : ScriptRun) : World × Move :=
  match s.stage with
  | .ended o => s.conclude t w o
  | .acquiring o =>
    match (Exec.enterMonitor true o).runOn t w with
    | .ok true w => (w.leaveRegion t, .stay (.script { s with stage := .acting }))
    | .ok false w => (w, .stay (.script s))
    | .error trap w => s.finish t (w.leaveRegion t) trap.outcome
  | .acting | .calling _ => s.perform t w

def noted (w : World) (r : Report) : World := { w with log := r :: w.log }

/-- Outcome of a call back. The thread is uncooperative again before the script goes on. -/
def receive (t : ThreadId) (w : World) (s : ScriptRun) (o : Outcome) : World × Move :=
  let w := w.enterRegion t
  let catches := match s.stage with
    | .calling catches => catches
    | _ => false
  let s := { s with stage := .acting }
  match o with
  | .value v => (w, .stay (.script { s with last := v.getD .null }))
  | .thrown e =>
    if catches then
      (noted w (.list [.text "caught", .object e, .opt .text (w.exceptionMessage? e)]),
        .stay (.script { s with last := .obj e }))
    else s.finish t w o
  | .failed err =>
    if catches then (noted w (.error err.kind err.message), .stay (.script s))
    else s.finish t w o

end ScriptRun

/-! ## Calls -/

namespace Task

/-- Pushes the frame of compiled code, with a record in the chain if it can catch exceptions or
holds a monitor. -/
def openScope (t : ThreadId) (w : World) (m : Method) (f : Function) : Scope × World :=
  match w.thread? t with
  | none => (⟨0, none, none⟩, w)
  | some th =>
    let index := th.frames.size
    let guarded := f.hasHandlers || m.isSynchronized
    let scope : Scope := ⟨index, if guarded then some th.chain.storage.size else none, none⟩
    let w := w.modifyThread t fun th =>
      { th with
        frames := th.frames.pushManaged m.id
        chain := if guarded then th.chain.link (some m.id) World.isolate index else th.chain }
    (scope, w)

def enterCode (t : ThreadId) (w : World) (m : MethodId) (code : CodeId) (args : List Value) :
    World × Move :=
  match w.registry.method? m, w.code? code with
  | some method, some live =>
    let f := live.compiled.function
    if args.length ≠ f.params.length then
      (w, .leave (.failed (.typeMismatch
        s!"{method.text} takes {f.params.length} arguments, got {args.length}")))
    else
      let (scope, w) := openScope t w method f
      match live.compiled.native with
      | none => (w, .stay (.activation (.start m code f scope args)))
      | some l =>
        match args.mapM Lowered.cellOf? with
        | some cells => (w, .stay (.lowered ⟨l, l.start cells, scope⟩))
        | none =>
          (w.restore t scope, .leave (.failed (.typeMismatch "reference passed to native code")))
  | _, _ => (w, .leave (.failed (.internal "no such code")))

/-- Pushes the frame of a native method, pins its arguments, links a record into the chain, and
makes the thread uncooperative. -/
def enterNative (t : ThreadId) (w : World) (m : MethodId) (n : Native) (args : List Value) :
    World × Move :=
  match w.thread? t with
  | none => (w, .leave (.failed (.notAttached t)))
  | some th =>
    let index := th.frames.size
    let scope : Scope := ⟨index, some th.chain.storage.size, some th.roots.pinned.size⟩
    let w := w.modifyThread t fun th =>
      { th with
        frames := th.frames.pushKnown (some m)
        roots := th.roots.pin (args.filterMap Value.obj?)
        chain := th.chain.link (some m) World.isolate index }
    let w := w.enterRegion t
    match n with
    | .script actions => (w, .stay (.script { method := m, args, actions, scope }))
    | .builtin b =>
      let s : ScriptRun := { method := m, args, actions := [], scope }
      match (Exec.builtin b args).runOn t w with
      | .ok v w => s.finish t w (.value v)
      | .error trap w => s.finish t w trap.outcome

def enterCall (t : ThreadId) (w : World) (m : MethodId) (args : List Value) : World × Move :=
  match w.registry.method? m with
  | none => (w, .leave (.failed (.internal "no such method")))
  | some method =>
    match method.entry.current, method.native with
    | .compiled code, _ => enterCode t w m code args
    | .native, some n => enterNative t w m n args
    | .native, none | .abstract, _ => (w, .leave (.failed (.abstractMethod method.text)))
    | .stub, _ =>
      let (code, w) := (w.enterRegion t).compileMethod m
      let w := w.leaveRegion t
      match code with
      | .ok code => (w, .stay (.entering m code args))
      | .error e => (w, .leave (.failed (.compile e)))

/-! ## Static initialization -/

/-- The first thread to ask for a class claims it. A thread that finds it claimed by another waits
outside managed code; one that finds it claimed by itself goes on. -/
def decideInit (t : ThreadId) (w : World) (c : ClassId) : World × Move :=
  match ((w.registry.class? c).map (·.init)).getD .initialized with
  | .initialized => (w.leaveRegion t, .stay (.prepare c .ready))
  | .failed => (w.leaveRegion t, .stay (.prepare c .refused))
  | .uninitialized => ((w.setInit c (.running t)).leaveRegion t, .stay (.prepare c .claimed))
  | .running owner =>
    if owner = t then (w.leaveRegion t, .stay (.prepare c .ready))
    else (w, .stay (.prepare c .waiting))

def endInit (w : World) (c : ClassId) (o : Outcome) : World × Move :=
  match o with
  | .value _ => (w.setInit c .initialized, .leave (.value none))
  | o => (w.setInit c .failed, .leave o)

/-- Runs the initializer that the class itself declares, under a frame of the engine. -/
def initBody (t : ThreadId) (w : World) (c : ClassId) : World × Move :=
  match (w.registry.class? c).bind (w.registry.declared? · "<clinit>" "()V"), w.thread? t with
  | some m, some th =>
    let w := w.modifyThread t fun th =>
      { th with frames := th.frames.pushInternal "class initializer" }
    (w, .push (.call m.id []) (.prepare c (.body th.frames.size)))
  | _, _ => endInit w c (.value none)

def actInit (t : ThreadId) (w : World) (c : ClassId) : InitStage → World × Move
  | .request => decideInit t (w.enterRegion t) c
  | .waiting => decideInit t w c
  | .ready => (w, .leave (.value none))
  | .refused =>
    let (e, w) := w.createException .noClassDefFound (some (w.registry.className c))
    (w.captureTrace t e, .leave (.thrown e))
  | .claimed | .superclass | .body _ =>
    match (w.registry.class? c).bind (·.superclass) with
    | some s => (w, .push (.prepare s .request) (.prepare c .superclass))
    | none => initBody t w c

def receiveInit (t : ThreadId) (w : World) (c : ClassId) (stage : InitStage) (o : Outcome) :
    World × Move :=
  match stage, o with
  | .superclass, .value _ => initBody t w c
  | .body frames, o =>
    endInit (w.modifyThread t fun th => { th with frames := th.frames.popTo frames }) c o
  | _, o => endInit w c o

/-! ## Steps -/

def act (t : ThreadId) (w : World) : Task → World × Move
  | .call m args => enterCall t w m args
  | .entering m code args => enterCode t w m code args
  | .activation a => a.act t w
  | .lowered l => l.act t w
  | .script s => s.act t w
  | .prepare c stage => actInit t w c stage
  | .deferred m args => (w, .stay (.call m args))

def receive (t : ThreadId) (w : World) (o : Outcome) : Task → World × Move
  | .activation a => a.receive t w o
  | .script s => s.receive t w o
  | .prepare c stage => receiveInit t w c stage o
  | .deferred m args =>
    match o with
    | .value _ => (w, .stay (.call m args))
    | o => (w, .leave o)
  | .lowered l => LoweredRun.leave t w l.scope o
  | .call _ _ | .entering _ _ _ => (w, .leave o)

end Task

namespace Control

def isDone (c : Control) : Bool := c.tasks.isEmpty

def awaitsClass (c : Control) : Bool :=
  match c.tasks with
  | .prepare _ .waiting :: _ => true
  | _ => false

/-- A call from outside. The class of a static method is initialized first. -/
def ofCall (m : Method) (args : List Value) : Control :=
  if m.isStatic then { tasks := [.prepare m.owner .request, .deferred m.id args] }
  else { tasks := [.call m.id args] }

end Control

def step (t : ThreadId) (w : World) (c : Control) : World × Control :=
  match c.tasks, c.answer with
  | [], _ => (w, c)
  | task :: rest, none =>
    let (w, move) := task.act t w
    (w, move.apply rest)
  | task :: rest, some o =>
    let (w, move) := task.receive t w o
    (w, move.apply rest)

/-- Runs until the control state is done, the thread is parked, or `stop` holds. -/
def run (t : ThreadId) (stop : World → Control → Bool) :
    Nat → World → Control → World × Control
  | 0, w, c => (w, c)
  | fuel + 1, w, c =>
    if c.isDone || w.isParked t || stop w c then (w, c)
    else
      let (w, c) := step t w c
      run t stop fuel w c

def stepLimit : Nat := 1000000000

def Control.outcome (c : Control) : Outcome :=
  match c.isDone, c.answer with
  | true, some o => o
  | _, _ => .failed (.internal "the call does not end")

def World.execute (w : World) (t : ThreadId) (c : Control) : Outcome × World :=
  let (w, c) := run t (fun _ _ => false) stepLimit w c
  (c.outcome, w)

end ManagedCore
