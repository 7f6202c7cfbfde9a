import ManagedCore.Proofs.Compile.Learning
import ManagedCore.Proofs.Machine.Effects

/-!
# What moves leave alone

A move of a thread may compile a method, fill an inline cache or stop at a safepoint on top of what
its computations do. Unless the task on top is a request for a class, no class changes its phase,
and requests come into being only as such, with nothing decided yet.
-/

namespace ManagedCore

open Exec

/-! ## Worlds -/

structure World.Calm (w w' : World) : Prop where
  outOfMemory : w'.outOfMemory = w.outOfMemory
  later : w.registry.Later w'.registry
  phases : w.registry.SamePhases w'.registry
  heap : w.heap.Keeps w'.heap
  codes : ∀ (n : CodeId) code, w.code? n = some code →
    ∃ code', w'.code? n = some code' ∧ code'.compiled = code.compiled

namespace World.Calm

variable {w w' w'' : World}

theorem refl : w.Calm w :=
  ⟨rfl, .same, .refl, .refl, fun _ code h => ⟨code, h, rfl⟩⟩

theorem trans (h : w.Calm w') (h' : w'.Calm w'') : w.Calm w'' := by
  refine ⟨h'.outOfMemory.trans h.outOfMemory, h.later.trans h'.later, h.phases.trans h'.phases,
    h.heap.trans h'.heap, fun n code hcode => ?_⟩
  obtain ⟨code', hcode', hsame⟩ := h.codes n code hcode
  obtain ⟨code'', hcode'', hsame'⟩ := h'.codes n code' hcode'
  exact ⟨code'', hcode'', hsame'.trans hsame⟩

/-- Changes of threads, monitors, caches of code and what scripts write down. -/
theorem of_same (houtOfMemory : w'.outOfMemory = w.outOfMemory)
    (hregistry : w'.registry = w.registry) (hheap : w'.heap = w.heap)
    (hcodes : w'.codes = w.codes) : w.Calm w' := by
  refine ⟨houtOfMemory, hregistry ▸ .same, hregistry ▸ .refl, hheap ▸ .refl,
    fun n code hcode => ⟨code, ?_, rfl⟩⟩
  rw [code?, hcodes]
  exact hcode

theorem of_quiet (h : w.Quiet w') : w.Calm w' := by
  refine ⟨h.outOfMemory, h.later, h.phases, h.heap, fun n code hcode => ⟨code, ?_, rfl⟩⟩
  rw [code?, h.codes]
  exact hcode

theorem modifyThread (t : ThreadId) (f : Thread → Thread) : w.Calm (w.modifyThread t f) :=
  .of_same rfl rfl rfl rfl

theorem enterRegion (t : ThreadId) : w.Calm (w.enterRegion t) := .of_same rfl rfl rfl rfl

theorem leaveRegion (t : ThreadId) : w.Calm (w.leaveRegion t) := .of_same rfl rfl rfl rfl

theorem raised (t : ThreadId) (fault : Fault) (message : Option String) :
    w.Calm ((w.createException fault message).2.captureTrace t
      (w.createException fault message).1) :=
  trans (.of_quiet (.createException fault message)) (.of_quiet (.captureTrace t _))

theorem of_grown {registry : Registry} (h : w.registry.Grown registry) :
    w.Calm { w with registry } :=
  ⟨rfl, h.later, .grown h, .refl, fun _ code hcode => ⟨code, hcode, rfl⟩⟩

theorem compileAnew (m : Method) : w.Calm (w.compileAnew m).2 :=
  of_grown (compile_grown w.config w.registry m)

theorem addCode (c : Compiled) : w.Calm (w.addCode c).2 := by
  refine ⟨rfl, .same, .refl, .refl, fun n code hcode => ⟨code, ?_, rfl⟩⟩
  have hlt := (Array.getElem?_eq_some_iff.mp hcode).1
  change (w.codes.push _)[n]? = some code
  rw [Array.getElem?_push_lt hlt, ← Array.getElem?_eq_getElem hlt]
  exact hcode

theorem codeFor (m : Method) : w.Calm (w.codeFor m).2 := by
  unfold World.codeFor
  split
  · exact .refl
  · have hcompile := compileAnew (w := w) m
    split
    · rename_i heq
      rw [heq] at hcompile
      exact hcompile
    · rename_i c w₁ heq
      rw [heq] at hcompile
      have hadd := addCode (w := w₁) c
      exact (hcompile.trans hadd).trans (.of_same rfl rfl rfl rfl)

theorem compileMethod (m : MethodId) : w.Calm (w.compileMethod m).2 := by
  unfold World.compileMethod
  split
  · exact .refl
  · rename_i method _
    split
    · exact .refl
    · have hcode := codeFor (w := w) method
      split
      · rename_i heq
        rw [heq] at hcode
        exact hcode
      · rename_i heq
        rw [heq] at hcode
        refine hcode.trans ⟨rfl, .publish m .same fun _ => rfl, .modifyMethod m _, .refl,
          fun _ code hcode => ⟨code, hcode, rfl⟩⟩

end World.Calm

/-- What relates the worlds before and after everything that moves do, but for what they do to
inline caches. -/
structure World.Lenient (R : World → World → Prop) : Prop where
  refl : ∀ w, R w w
  trans : ∀ {w w' w''}, R w w' → R w' w'' → R w w''
  quiet : ∀ {w w'}, w.Quiet w' → R w w'
  same : ∀ {w w' : World}, w'.outOfMemory = w.outOfMemory → w'.registry = w.registry →
    w'.heap = w.heap → w'.codes = w.codes → R w w'
  compile : ∀ (w : World) m, R w (w.compileMethod m).2

theorem World.lenient_calm : World.Lenient World.Calm where
  refl _ := .refl
  trans := .trans
  quiet := .of_quiet
  same := .of_same
  compile _ m := .compileMethod m

/-! ## Computations -/

namespace Exec

variable {α β : Type} (a : Activation) {f : α → Exec β} {x : Exec α}

def Calm (x : Exec α) : Prop := ∀ (t : ThreadId) (w : World), w.Calm (x.world t w)

namespace Calm

theorem of_quiet (h : x.Quiet) : x.Calm := fun t w => .of_quiet (h t w)

theorem bind (hx : x.Calm) (hf : ∀ a, (f a).Calm) : (x >>= f).Calm :=
  within_bind World.Calm.trans hx hf

end Calm

section

variable {R : World → World → Prop} {x : Exec α} {t : ThreadId} {w w' : World}

theorem within_ok (h : R w (x.world t w)) {a : α} (hrun : x.runOn t w = .ok a w') : R w w' := by
  rwa [world, hrun] at h

theorem within_error (h : R w (x.world t w)) {e : Trap} (hrun : x.runOn t w = .error e w') :
    R w w' := by
  rwa [world, hrun] at h

end

theorem runOn_lookupSite (code : CodeId) (site : CallSite) (receiver : Class) (t : ThreadId)
    (w : World) : (lookupSite code site receiver).runOn t w =
      match (w.code? code).bind (·.caches[site.number]?) with
      | none => .ok (cacheTarget? w.registry site.member receiver) w
      | some cache =>
        let found := cache.lookup receiver.id fun _ => cacheTarget? w.registry site.member receiver
        .ok found.1 { w with codes := w.codes.modify code fun c =>
          { c with caches := c.caches.setIfInBounds site.number found.2.2 } } := by
  change (match (match (w.code? code).bind (·.caches[site.number]?) with
    | none => _
    | some cache => _ : Option MethodId × World) with | (a, s) => EStateM.Result.ok a s) = _
  cases (w.code? code).bind (·.caches[site.number]?) <;> rfl

theorem calm_lookupSite (code : CodeId) (site : CallSite) (receiver : Class) :
    (lookupSite code site receiver).Calm := by
  intro t w
  rw [world, runOn_lookupSite]
  cases (w.code? code).bind (·.caches[site.number]?) with
  | none => exact .refl
  | some cache =>
    refine ⟨rfl, .same, .refl, .refl, fun n live hlive => ?_⟩
    change ∃ code', (Array.modify _ _ _)[n]? = some code' ∧ _
    rw [Array.getElem?_modify]
    change w.codes[n]? = some live at hlive
    rw [hlive]
    split
    · exact ⟨_, rfl, rfl⟩
    · exact ⟨live, rfl, rfl⟩

theorem quiet_select {target : CallTarget} (htarget : ∀ site, target ≠ .cached site)
    (receiver : Option Reg) : (select a target receiver).Quiet := by
  unfold select
  split
  · exact .bind (quiet_methodHandle _) fun _ => .pure
  · refine .bind (quiet_methodHandle _) fun declared => ?_
    split
    · exact quiet_fail
    · refine .bind (quiet_nonNull a _) fun o => .bind (quiet_classOf o) fun c => .bind .get fun w => ?_
      split
      · exact .pure
      · exact quiet_raise
  · exact absurd rfl (htarget _)

theorem calm_select (target : CallTarget) (receiver : Option Reg) :
    (select a target receiver).Calm := by
  cases target with
  | direct | virtual => exact .of_quiet (quiet_select a (by rintro site ⟨⟩) receiver)
  | cached site =>
    unfold select
    dsimp only
    split
    · exact .of_quiet (quiet_fail)
    · refine .bind (.of_quiet (quiet_nonNull a _)) fun o => .bind (.of_quiet (quiet_classOf o))
        fun c => .bind (calm_lookupSite _ _ c) fun m => .of_quiet ?_
      split
      · exact .pure
      · exact quiet_raise

theorem quiet_mapM (h : ∀ a, (f a).Quiet) (xs : List α) : (xs.mapM f).Quiet := by
  induction xs with
  | nil => exact .pure
  | cons x xs ih =>
    rw [List.mapM_cons]
    exact .bind (h x) fun _ => .bind ih fun _ => .pure

/-- Apart from calls through inline caches, instructions leave code alone. -/
theorem quiet_evaluate {i : Instr} (hsite : i.callSite? = none) : (evaluate a i).Quiet := by
  have hnew : ∀ c lengths (d : Reg), (newArray c lengths >>= fun o =>
      (pure (.assign d (.obj o)) : Exec Effect)).Quiet := fun c lengths d =>
    .bind (quiet_newArray c lengths) fun _ => .pure
  cases i with
  | constInt | constLong | constFloat | constDouble | constNull | move | safepoint => exact .pure
  | constString d s =>
    exact .bind (quiet_allocating (fun _ => quiet_raise) fun _ => .intern s)
      fun _ => .pure
  | loadLocal d slot =>
    simp only [evaluate]
    split
    · exact .pure
    · exact quiet_fail
  | storeLocal slot s =>
    change Quiet (if slot < a.locals.size then _ else _)
    split
    · exact .pure
    · exact quiet_fail
  | binary op d l r => exact .bind (quiet_binary a op l r) fun _ => .pure
  | neg | cmp | compare => exact .bind (quiet_operand _ _ _ _) fun _ => .pure
  | convert d s =>
    simp only [evaluate]
    split
    · exact quiet_fail
    · exact .bind (quiet_operand _ _ _ _) fun _ => .pure
  | narrow kind d s => exact .bind (quiet_int a s) fun _ => .pure
  | isNull d s => exact .bind (quiet_reference a s) fun _ => .pure
  | initCheck c => exact .bind (quiet_classHandle c) fun _ => .pure
  | classMonitor d c =>
    exact .bind (quiet_classHandle c) fun c =>
      .bind (.modifyGet fun _ => .classLock c) fun _ => .pure
  | new d c =>
    exact .bind (quiet_classHandle c) fun c =>
      .bind (quiet_allocating (fun _ => quiet_raise) fun _ => .allocate c) fun _ => .pure
  | newArray d c n =>
    exact .bind (quiet_classHandle c) fun c => .bind (quiet_int a n) fun n => hnew c [n] d
  | newMultiArray d c dims =>
    exact .bind (quiet_classHandle c) fun c =>
      .bind (quiet_mapM (quiet_int a) dims) fun ns => hnew c ns d
  | arrayLength d r =>
    exact .bind (quiet_nonNull a r) fun o => .bind (quiet_arrayLength o) fun _ => .pure
  | arrayLoad d r i =>
    exact .bind (quiet_nonNull a r) fun o => .bind (quiet_int a i) fun n =>
      .bind (quiet_checkedIndex o n) fun k => .bind (quiet_element o k) fun _ => .pure
  | arrayStore r i v =>
    exact .bind (quiet_nonNull a r) fun o => .bind (quiet_int a i) fun n =>
      .bind (quiet_checkedIndex o n) fun k => .bind (quiet_setElement o k _) fun _ => .pure
  | storeCheck d r v => exact .bind (quiet_isStorable a r v) fun _ => .pure
  | getField d r f =>
    exact .bind (quiet_nonNull a r) fun o => .bind (quiet_fieldHandle f) fun k =>
      .bind (quiet_field o k) fun _ => .pure
  | putField r f v =>
    exact .bind (quiet_nonNull a r) fun o => .bind (quiet_fieldHandle f) fun k =>
      .bind (quiet_setField o k _) fun _ => .pure
  | getStatic d f => exact quiet_static a f fun s => .bind (quiet_staticValue s) fun _ => .pure
  | putStatic f v =>
    exact quiet_static a f fun s => .bind (quiet_setStaticValue s _) fun _ => .pure
  | instanceOf d r c => exact .bind (quiet_isInstance a r c false) fun _ => .pure
  | canCast d r c => exact .bind (quiet_isInstance a r c true) fun _ => .pure
  | monitorEnter r => exact .bind (quiet_nonNull a r) fun _ => .pure
  | monitorExit r =>
    refine .bind (quiet_nonNull a r) fun o => .bind (quiet_exitMonitor o) fun _ => ?_
    split
    · exact .pure
    · exact quiet_raise
    · exact quiet_fail
  | call d target args =>
    refine .bind (quiet_select a ?_ _) fun _ => .pure
    rintro site rfl
    cases hsite
  | stackCheck d => exact .bind quiet_thread fun _ => .pure

theorem calm_evaluate (i : Instr) : (evaluate a i).Calm := by
  cases i with
  | call d target args => exact .bind (calm_select a target args.head?) fun _ => .of_quiet .pure
  | _ => exact .of_quiet (quiet_evaluate a rfl)

/-! ### Native methods -/

theorem quiet_receiver (args : List Value) : (receiver args).Quiet := by
  unfold receiver
  split
  · exact .pure
  · exact quiet_fail
  · exact quiet_fail

theorem quiet_builtin (b : Builtin) (args : List Value) : (builtin b args).Quiet := by
  cases b with
  | nothing => exact .pure
  | identityHash => exact .bind (quiet_receiver args) fun _ => .pure
  | stringLength =>
    refine .bind (quiet_receiver args) fun o => .bind (quiet_object o) fun obj => ?_
    split
    · exact .pure
    · exact quiet_fail
  | setMessage =>
    exact .bind (quiet_receiver args) fun o => .bind (quiet_setField o _ _) fun _ => .pure
  | getMessage =>
    exact .bind (quiet_receiver args) fun o => .bind (quiet_field o _) fun _ => .pure

theorem quiet_record (r : Report) : (record r).Quiet :=
  .modify fun _ => ⟨rfl, rfl, .same, .refl, rfl, fun _ => rfl, .refl⟩

theorem quiet_internValue (s : String) : (internValue s).Quiet :=
  .bind (quiet_allocating (fun _ => quiet_fail) fun _ => .intern s) fun _ => .pure

theorem quiet_source (args : List Value) (last : Value) (s : Source) :
    (source args last s).Quiet := by
  cases s with
  | argument | last | value => exact .pure
  | text s => exact quiet_internValue s
  | named n => exact .bind .get fun _ => .pure

theorem quiet_sourceObject (args : List Value) (last : Value) (s : Source) :
    (sourceObject args last s).Quiet := by
  refine .bind (quiet_source args last s) fun v => ?_
  split
  · exact .pure
  · exact quiet_fail

theorem quiet_exceptionOf (args : List Value) (last : Value) (e : ExceptionSource) :
    (exceptionOf args last e).Quiet := by
  cases e with
  | fresh fault message => exact quiet_create fault message
  | given s => exact quiet_sourceObject args last s

theorem quiet_raiseFromNative (e : ObjId) : (raiseFromNative e).Quiet := by
  refine .bind quiet_thread fun t => ?_
  split
  · exact quiet_fail
  · split
    · exact quiet_modifyThread fun _ => ⟨rfl, rfl⟩
    · exact quiet_fail

theorem quiet_observe (m : MethodId) (args : List Value) (what : Observation) :
    (observe m args what).Quiet := by
  cases what with
  | arguments => exact .pure
  | frames | managedFrames | chain => exact .bind .get fun _ => .bind quiet_thread fun _ => .pure
  | roots | stackRoots | state => exact .bind quiet_thread fun _ => .pure
  | method => exact .bind (quiet_methodById m) fun _ => .pure
  | pool i =>
    refine .bind (quiet_methodById m) fun m => .bind .get fun w => ?_
    split
    · exact .pure
    · exact .modifyGet fun _ => .poolView _ i

theorem quiet_findTarget (owner name descriptor : String) :
    (findTarget owner name descriptor).Quiet := by
  refine .bind (.modifyGet fun _ => .lookup owner) fun c => ?_
  split
  · exact quiet_fail
  · refine .bind .get fun w => ?_
    split
    · exact quiet_fail
    · exact .pure

theorem quiet_perform (m : MethodId) (args : List Value) (last : Value) (action : Action) :
    (perform m args last action).Quiet := by
  cases action with
  | say r => exact .bind (quiet_record r) fun _ => .pure
  | log what =>
    exact .bind (quiet_observe m args what) fun r => .bind (quiet_record r) fun _ => .pure
  | raise e =>
    exact .bind (quiet_exceptionOf args last e) fun e =>
      .bind (quiet_raiseFromNative e) fun _ => .pure
  | throw e => exact .bind (quiet_exceptionOf args last e) fun _ => .throw
  | fatal s => exact quiet_fail
  | intern s => exact .bind (quiet_internValue s) fun _ => .pure
  | call owner name descriptor sources catches =>
    exact .bind (quiet_findTarget owner name descriptor) fun _ =>
      .bind (quiet_mapM (quiet_source args last) sources) fun _ => .pure
  | monitorEnter s => exact .bind (quiet_sourceObject args last s) fun _ => .pure
  | monitorExit s =>
    refine .bind (quiet_sourceObject args last s) fun o => .bind (quiet_exitMonitor o) fun r => ?_
    split
    · exact .pure
    · exact quiet_fail
  | getField s slot =>
    exact .bind (quiet_sourceObject args last s) fun o => .bind (quiet_field o slot) fun _ => .pure
  | setField s slot v =>
    exact .bind (quiet_sourceObject args last s) fun o => .bind (quiet_source args last v) fun v =>
      .bind (quiet_setField o slot v) fun _ => .pure
  | result s => exact .bind (quiet_source args last s) fun _ => .pure
  | resultNone => exact .pure

end Exec

/-! ## Moves -/

/-- The world in which an instruction is evaluated: the offset is kept for traces. -/
def PlacedInstr.mark (p : PlacedInstr) (t : ThreadId) (w : World) : World :=
  if p.instr.isNumeric then w
  else w.modifyThread t fun th => { th with frames := th.frames.setPc p.pc }

def Task.isRequest : Task → Bool
  | .prepare _ _ => true
  | _ => false

/-- A move that takes no part in static initialization but may ask for a class. -/
inductive Move.Plain : Move → Prop where
  | stay {task : Task} : task.isRequest = false → Plain (.stay task)
  | push {above task : Task} : above.isRequest = false → task.isRequest = false →
      Plain (.push above task)
  | ask {task : Task} (c : ClassId) : task.isRequest = false →
      Plain (.push (.prepare c .request) task)
  | leave (o : Outcome) : Plain (.leave o)

/-- The move is plain, and the world behind it is related to the one before. -/
structure Plainly (R : World → World → Prop) (w : World) (p : World × Move) : Prop where
  within : R w p.1
  plain : p.2.Plain

section

variable {R : World → World → Prop} (hR : World.Lenient R) (t : ThreadId) (w : World) {task : Task}

include hR in
theorem Plainly.after {w w' : World} {p : World × Move} (hw : R w w') (h : Plainly R w' p) :
    Plainly R w p :=
  ⟨hR.trans hw h.within, h.plain⟩

theorem Plainly.ite {w : World} {c : Prop} [Decidable c] {p q : World × Move}
    (hp : Plainly R w p) (hq : Plainly R w q) : Plainly R w (if c then p else q) := by
  split
  · exact hp
  · exact hq

namespace World.Lenient

variable {w}

include hR

theorem modifyThread (f : Thread → Thread) : R w (w.modifyThread t f) := hR.same rfl rfl rfl rfl

theorem restore (s : Scope) : R w (w.restore t s) := hR.same rfl rfl rfl rfl

theorem publish (roots : List ObjId) : R w (w.publish t roots) := hR.same rfl rfl rfl rfl

theorem joinSafepoint : R w (w.joinSafepoint t) := hR.same rfl rfl rfl rfl

theorem enterRegion : R w (w.enterRegion t) := hR.same rfl rfl rfl rfl

theorem leaveRegion : R w (w.leaveRegion t) := hR.same rfl rfl rfl rfl

variable {t} {α : Type} {x : Exec α} {w' : World}

theorem ok (hx : x.Quiet) {a : α} (hrun : x.runOn t w = .ok a w') : R w w' :=
  hR.quiet (within_ok (hx t w) hrun)

theorem error (hx : x.Quiet) {e : Trap} (hrun : x.runOn t w = .error e w') : R w w' :=
  hR.quiet (within_error (hx t w) hrun)

end World.Lenient

namespace Activation

variable (a : Activation)

def Evaluates (R : World → World → Prop) (t : ThreadId) (w : World) (a : Activation) : Prop :=
  ∀ blk p, a.function.block? a.block = some blk → blk.instrs[a.index]? = some p →
    ∀ w' : World, w'.registry = w.registry → w'.codes = w.codes →
      R w' ((evaluate a p.instr).world t w')

theorem evaluates_calm : a.Evaluates World.Calm t w := fun _ p _ _ w' _ _ =>
  calm_evaluate a p.instr t w'

include hR

theorem plainly_stay (a : Activation) : Plainly R w (w, .stay (.activation a)) :=
  ⟨hR.refl w, .stay rfl⟩

theorem plainly_leave (o : Outcome) : Plainly R w (a.leave t w o) :=
  ⟨hR.restore t a.scope, .leave o⟩

theorem plainly_receive (o : Outcome) : Plainly R w (a.receive t w o) := by
  have hunpin : R w (a.unpin t w) := by
    unfold unpin
    split
    · exact hR.modifyThread t _
    · exact hR.refl w
  unfold receive
  refine .after hR hunpin ?_
  generalize a.unpin t w = w'
  cases o with
  | value v =>
    dsimp only
    split <;> exact plainly_stay hR w' _
  | thrown e =>
    dsimp only
    split
    · exact plainly_stay hR w' _
    · exact plainly_leave hR t w' a _
  | failed e => exact plainly_leave hR t w' a _

theorem plainly_acquire (o : ObjId) : Plainly R w (a.acquire t w o) := by
  have henter := quiet_enterMonitor false o
  unfold acquire
  split <;> rename_i w' hrun
  · exact (plainly_stay hR w' _).after hR (hR.ok henter hrun)
  · exact ⟨hR.trans (hR.ok henter hrun) (hR.enterRegion t), .stay rfl⟩
  · exact (plainly_receive hR t w' a _).after hR (hR.error henter hrun)

theorem plainly_carryOut (effect : Effect) : Plainly R w (a.carryOut t w effect) := by
  cases effect with
  | nothing | assign | store => exact plainly_stay hR w _
  | call m args dest => exact ⟨hR.modifyThread t _, .push rfl rfl⟩
  | prepare c again => exact ⟨hR.refl w, .ask c rfl⟩
  | poll =>
    change Plainly R w (if w.shouldYield t then _ else _)
    split
    · exact ⟨hR.trans (hR.publish t _) (hR.joinSafepoint t), .stay rfl⟩
    · exact plainly_stay hR w _
  | acquire o => exact plainly_acquire hR t w a o

theorem plainly_follow (flow : Flow) : Plainly R w (a.follow t w flow) := by
  cases flow with
  | goTo c => exact plainly_stay hR w _
  | result | unwind => exact plainly_leave hR t w a _

theorem plainly_execute (hevaluates : a.Evaluates R t w) : Plainly R w (a.execute t w) := by
  unfold execute
  split
  · exact plainly_leave hR t w a _
  · rename_i b hb
    split
    · rename_i p hp
      dsimp only
      have hmark : R w (p.mark t w) ∧ (p.mark t w).registry = w.registry ∧
          (p.mark t w).codes = w.codes := by
        unfold PlacedInstr.mark
        split
        · exact ⟨hR.refl w, rfl, rfl⟩
        · exact ⟨hR.modifyThread t _, rfl, rfl⟩
      obtain ⟨hmark, hregistry, hcodes⟩ := hmark
      have heval := hevaluates b p hb hp _ hregistry hcodes
      refine .after hR hmark ?_
      split <;> rename_i w' hrun
      · exact (plainly_carryOut hR t w' a _).after hR (within_ok heval hrun)
      · exact (plainly_receive hR t w' a _).after hR (within_error heval hrun)
    · have hend := quiet_terminate a b
      split <;> rename_i w' hrun
      · exact (plainly_follow hR t w' a _).after hR (hR.ok hend hrun)
      · exact (plainly_receive hR t w' a _).after hR (hR.error hend hrun)

theorem plainly_act (hevaluates : a.Evaluates R t w) : Plainly R w (a.act t w) := by
  unfold act
  split
  · exact ⟨hR.publish t [], .stay rfl⟩
  · rename_i o _
    have henter := quiet_enterMonitor true o
    split <;> rename_i w' hrun
    · exact ⟨hR.trans (hR.ok henter hrun) (hR.leaveRegion t), .stay rfl⟩
    · exact (plainly_stay hR w' _).after hR (hR.ok henter hrun)
    · exact (plainly_receive hR t _ a _).after hR
        (hR.trans (hR.error henter hrun) (hR.leaveRegion t))
  · exact plainly_execute hR t w a hevaluates

end Activation

namespace LoweredRun

include hR

theorem plainly_leave (scope : Scope) (o : Outcome) : Plainly R w (leave t w scope o) :=
  ⟨hR.restore t scope, .leave o⟩

theorem plainly_act (l : LoweredRun) : Plainly R w (l.act t w) := by
  unfold act
  dsimp only
  split
  · exact ⟨hR.refl w, .stay rfl⟩
  · exact ⟨hR.joinSafepoint t, .stay rfl⟩
  · exact plainly_leave hR t w l.scope _
  · unfold raised
    split
    · rename_i site _
      refine .after hR (hR.quiet (.createException site.fault site.detail)) ?_
      exact (plainly_leave hR t _ l.scope _).after hR (hR.quiet (.captureTrace t _))
    · exact plainly_leave hR t w l.scope _
  · exact plainly_leave hR t w l.scope _

end LoweredRun

namespace ScriptRun

variable (s : ScriptRun)

include hR

theorem plainly_finish (o : Outcome) : Plainly R w (s.finish t w o) := ⟨hR.leaveRegion t, .stay rfl⟩

theorem plainly_conclude (o : Outcome) : Plainly R w (s.conclude t w o) := by
  have houtcome : R w (s.outcome t w o).1 := by
    unfold outcome
    dsimp only
    split
    · exact hR.trans (hR.modifyThread t _) (hR.quiet (.captureTrace t _))
    · exact hR.modifyThread t _
    · exact hR.modifyThread t _
  exact ⟨hR.trans houtcome (hR.restore t s.scope), .leave _⟩

theorem plainly_acquire (o : ObjId) : Plainly R w (s.acquire t w o) := by
  have henter := quiet_enterMonitor false o
  unfold acquire
  split <;> rename_i w' hrun
  · exact ⟨hR.ok henter hrun, .stay rfl⟩
  · exact ⟨hR.trans (hR.ok henter hrun) (hR.enterRegion t), .stay rfl⟩
  · exact (plainly_finish hR t w' s _).after hR (hR.error henter hrun)

theorem plainly_perform : Plainly R w (s.perform t w) := by
  unfold perform
  split
  · exact plainly_finish hR t w s _
  · rename_i action rest _
    dsimp only
    have hperform := quiet_perform s.method s.args s.last action
    split <;> rename_i w' hrun
    · exact ⟨hR.ok hperform hrun, .stay rfl⟩
    · exact (plainly_finish hR t w' _ _).after hR (hR.ok hperform hrun)
    · exact ⟨hR.trans (hR.ok hperform hrun) (hR.leaveRegion t), .push rfl rfl⟩
    · exact (plainly_acquire hR t w' _ _).after hR (hR.ok hperform hrun)
    · exact (plainly_finish hR t w' _ _).after hR (hR.error hperform hrun)

theorem plainly_act : Plainly R w (s.act t w) := by
  unfold act
  split
  · exact plainly_conclude hR t w s _
  · rename_i o _
    have henter := quiet_enterMonitor true o
    split <;> rename_i hrun
    · exact ⟨hR.trans (hR.ok henter hrun) (hR.leaveRegion t), .stay rfl⟩
    · exact ⟨hR.ok henter hrun, .stay rfl⟩
    · exact (plainly_finish hR t _ s _).after hR
        (hR.trans (hR.error henter hrun) (hR.leaveRegion t))
  · exact plainly_perform hR t w s
  · exact plainly_perform hR t w s

theorem plainly_receive (o : Outcome) : Plainly R w (s.receive t w o) := by
  unfold receive
  refine .after hR (hR.enterRegion t) ?_
  generalize w.enterRegion t = w'
  cases o with
  | value v => exact ⟨hR.refl w', .stay rfl⟩
  | thrown | failed => exact .ite ⟨hR.same rfl rfl rfl rfl, .stay rfl⟩ (plainly_finish hR t w' _ _)

end ScriptRun

namespace Task

include hR

theorem within_openScope (m : Method) (f : Function) : R w (openScope t w m f).2 := by
  unfold openScope
  split
  · exact hR.refl w
  · exact hR.modifyThread t _

theorem plainly_enterCode (m : MethodId) (code : CodeId) (args : List Value) :
    Plainly R w (enterCode t w m code args) := by
  unfold enterCode
  split
  · rename_i method live _ _
    dsimp only
    split
    · exact ⟨hR.refl w, .leave _⟩
    · have hscope := within_openScope hR t w method live.compiled.function
      split
      · exact ⟨hscope, .stay rfl⟩
      · split
        · exact ⟨hscope, .stay rfl⟩
        · exact ⟨hR.trans hscope (hR.restore t _), .leave _⟩
  · exact ⟨hR.refl w, .leave _⟩

theorem plainly_enterNative (m : MethodId) (n : Native) (args : List Value) :
    Plainly R w (enterNative t w m n args) := by
  unfold enterNative
  split
  · exact ⟨hR.refl w, .leave _⟩
  · dsimp only
    have hframe : ∀ f : Thread → Thread, R w ((w.modifyThread t f).enterRegion t) :=
      fun f => hR.trans (hR.modifyThread t f) (hR.enterRegion t)
    split
    · exact ⟨hframe _, .stay rfl⟩
    · rename_i b
      have hbuiltin := quiet_builtin b args
      split <;> rename_i w' hrun
      · exact (ScriptRun.plainly_finish hR t w' _ _).after hR
          (hR.trans (hframe _) (hR.ok hbuiltin hrun))
      · exact (ScriptRun.plainly_finish hR t w' _ _).after hR
          (hR.trans (hframe _) (hR.error hbuiltin hrun))

theorem plainly_enterCall (m : MethodId) (args : List Value) :
    Plainly R w (enterCall t w m args) := by
  unfold enterCall
  split
  · exact ⟨hR.refl w, .leave _⟩
  · split
    · exact plainly_enterCode hR t w m _ args
    · exact plainly_enterNative hR t w m _ args
    · exact ⟨hR.refl w, .leave _⟩
    · exact ⟨hR.refl w, .leave _⟩
    · dsimp only
      have hcompile : R w (((w.enterRegion t).compileMethod m).2.leaveRegion t) :=
        hR.trans (hR.trans (hR.enterRegion t) (hR.compile _ m)) (hR.leaveRegion t)
      split
      · exact ⟨hcompile, .stay rfl⟩
      · exact ⟨hcompile, .leave _⟩

/-- Tasks that are no requests for a class act plainly. -/
theorem plainly_act (h : task.isRequest = false)
    (hevaluates : ∀ a, task = .activation a → a.Evaluates R t w) : Plainly R w (task.act t w) := by
  cases task with
  | call m args => exact plainly_enterCall hR t w m args
  | entering m code args => exact plainly_enterCode hR t w m code args
  | activation a => exact a.plainly_act hR t w (hevaluates a rfl)
  | lowered l => exact l.plainly_act hR t w
  | script s => exact s.plainly_act hR t w
  | prepare c stage => cases h
  | deferred m args => exact ⟨hR.refl w, .stay rfl⟩

theorem plainly_receive (h : task.isRequest = false) (o : Outcome) :
    Plainly R w (task.receive t w o) := by
  cases task with
  | call | entering => exact ⟨hR.refl w, .leave o⟩
  | activation a => exact a.plainly_receive hR t w o
  | lowered l => exact LoweredRun.plainly_leave hR t w l.scope o
  | script s => exact s.plainly_receive hR t w o
  | prepare c stage => cases h
  | deferred m args =>
    cases o with
    | value v => exact ⟨hR.refl w, .stay rfl⟩
    | thrown | failed => exact ⟨hR.refl w, .leave _⟩

end Task

end

end ManagedCore
