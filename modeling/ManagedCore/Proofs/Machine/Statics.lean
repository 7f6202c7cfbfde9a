import ManagedCore.Proofs.Machine.Assurance
import ManagedCore.Proofs.Machine.Initialization

/-!
# Static members and initialization

Whatever the threads of an engine do, and in whatever order, compiled code reads and writes a static
field only if its class is initialized, or is being initialized by the same thread. Static methods
are entered under the same condition, with three exceptions. A native method calls back without
asking for the class, a call that passes a receiver asks for none either, and a call that is bound
when it is made asks for the class that it names, which need not be the one that has the method. So
it can depend on when code is bound which classes are initialized.
-/

namespace ManagedCore

open Control ManagedCore.Task Option

section

variable {t : ThreadId} {w w' : World} {rest : List Task} {o : Outcome} {control : Control}
  {task : Task}

/-! ## Moves of tasks -/

namespace Task

theorem attends_enterCode (m : MethodId) (code : CodeId) (args : List Value) :
    (enterCode t w m code args).2.Attends (enterCode t w m code args).1 rest := by
  have hcalm := (plainly_enterCode World.lenient_calm t w m code args).within
  unfold enterCode at hcalm ⊢
  split
  · rename_i live hmethod hlive
    obtain ⟨live', hlive', hcompiled⟩ := hcalm.codes code live hlive
    simp only [hmethod, hlive] at hlive' ⊢
    split
    · trivial
    · rename_i hargs
      simp only [hargs] at hlive'
      split
      · rename_i hnative
        simp only [hnative] at hlive'
        refine Activation.acts_enter ?_ _ _
        exact ⟨live', hlive', congrArg Compiled.function hcompiled⟩
      · split <;> trivial
  · trivial

theorem attends_enterNative (m : MethodId) (n : Native) (args : List Value) :
    (enterNative t w m n args).2.Attends w' rest := by
  unfold enterNative
  split
  · trivial
  · dsimp only
    split
    · trivial
    · split <;> trivial

theorem attends_enterCall {m : MethodId} {args : List Value} (h : Called w.registry rest m args) :
    (enterCall t w m args).2.Attends (enterCall t w m args).1 rest := by
  have hcalm := (plainly_enterCall World.lenient_calm t w m args).within
  have hcalled := h.onward (.of_samePhases hcalm.later hcalm.phases)
  unfold enterCall at hcalled ⊢
  split at hcalled
  · trivial
  · split at hcalled
    · exact attends_enterCode m _ args
    · exact attends_enterNative m _ args
    · trivial
    · trivial
    · dsimp only at hcalled ⊢
      split at hcalled
      · exact hcalled
      · trivial

theorem attends_act (hrequest : task.isRequest = false)
    (hbuilt : w.registry.Built) (hcoded : w.Coded) (hacts : task.Acts w rest) :
    (task.act t w).2.Attends (task.act t w).1 rest := by
  cases task with
  | call m args => exact attends_enterCall hacts
  | entering m code args => exact attends_enterCode m code args
  | activation a => exact a.attends_act hbuilt hcoded hacts
  | lowered l =>
    change (l.act t w).2.Attends _ _
    unfold LoweredRun.act
    dsimp only
    split
    · trivial
    · trivial
    · trivial
    · unfold LoweredRun.raised
      split <;> trivial
    · trivial
  | script s =>
    have hacquire : ∀ (s : ScriptRun) (w w' : World) o, (s.acquire t w o).2.Attends w' rest := by
      intro s w w' o
      unfold ScriptRun.acquire
      split <;> trivial
    have hperform : ∀ w', (s.perform t w).2.Attends w' rest := by
      intro w'
      unfold ScriptRun.perform
      split
      · trivial
      · dsimp only
        split
        · trivial
        · trivial
        · exact ⟨.inl ⟨_, rest, rfl⟩, trivial⟩
        · exact hacquire _ _ _ _
        · trivial
    change (s.act t w).2.Attends _ _
    unfold ScriptRun.act
    split
    · trivial
    · split <;> trivial
    · exact hperform _
    · exact hperform _
  | prepare c stage => cases hrequest
  | deferred m args => exact hacts.elim

theorem attends_receive (hrequest : task.isRequest = false)
    (ho : w.registry.Orderly) (hwaits : task.Waits w (.inr o) rest) :
    (task.receive t w o).2.Attends (task.receive t w o).1 rest := by
  cases task with
  | activation a => exact a.attends_receive ho hwaits
  | script s =>
    change (s.receive t w o).2.Attends _ _
    unfold ScriptRun.receive
    cases o with
    | value v => trivial
    | thrown | failed =>
      dsimp only
      split <;> split <;> trivial
  | prepare c stage => cases hrequest
  | deferred m args =>
    cases o with
    | value v =>
      obtain ⟨c, ⟨method, cls, hmethod, rfl, -⟩, hgranted⟩ := hwaits
      exact .inr ⟨method, hmethod, fun _ => .inl hgranted⟩
    | _ => trivial
  | _ => trivial

end Task

/-! ## Stacks -/

structure Control.Attends (w : World) (c : Control) : Prop where
  acting : ∀ task rest, c.tasks = task :: rest → c.answer = none →
    task.Acts w rest ∧ Lined w (.inl task) rest
  answered : ∀ o, c.answer = some o → Lined w (.inr o) c.tasks

namespace Control.Attends

variable {task : Task} {tasks : List Task} {answer : Option Outcome} {control : Control}

theorem of_acting (hacts : task.Acts w rest) (hlined : Lined w (.inl task) rest) :
    Attends w ⟨task :: rest, none⟩ where
  acting _ _ htasks _ := by
    cases htasks
    exact ⟨hacts, hlined⟩
  answered _ h := nomatch h

theorem of_answer (hlined : Lined w (.inr o) tasks) : Attends w ⟨tasks, some o⟩ where
  acting _ _ _ h := nomatch h
  answered _ h := by
    cases h
    exact hlined

theorem of_move {move : Move} (hmove : move.Attends w rest) (hlined : ∀ above, Lined w above rest) :
    (move.apply rest).Attends w := by
  cases move with
  | stay task => exact .of_acting hmove (hlined _)
  | push above task => exact .of_acting hmove.1 ⟨hmove.2, hlined _⟩
  | leave o => exact .of_answer (hlined _)

theorem under (h : Attends w ⟨task :: rest, answer⟩) : Lined w (.inl task) rest := by
  cases answer with
  | none => exact (h.acting task rest rfl rfl).2
  | some o => exact (h.answered o rfl).2

theorem forward (h : control.Attends w) (ho : w.registry.Orderly) (hw : w.Forward w') :
    control.Attends w' where
  acting task rest htasks hanswer := by
    obtain ⟨hacts, hlined⟩ := h.acting task rest htasks hanswer
    exact ⟨hacts.forward ho hw, hlined.forward ho hw⟩
  answered o hanswer := (h.answered o hanswer).forward ho hw

end Control.Attends

theorem Moves.forward {control control' : Control} (h : Moves t w control w' control')
    (hsound : control.Sound w.registry t) : w.Forward w' := by
  refine ⟨(h.advances hsound).onward.registry, ?_⟩
  cases h with
  | idle | pass | climb => exact World.Calm.refl.codes
  | plain _ _ hcalm _ | allow _ _ hcalm | refuse _ _ hcalm | wait _ _ _ hcalm | start _ _ _ hcalm
  | finish _ hcalm | fail _ _ hcalm => exact hcalm.codes
  | claim _ _ hcalm hcalm' =>
    intro n live hlive
    obtain ⟨live₁, hlive₁, hsame⟩ := hcalm.codes n live hlive
    obtain ⟨live₂, hlive₂, hsame'⟩ := hcalm'.codes n live₁ hlive₁
    exact ⟨live₂, hlive₂, hsame'.trans hsame⟩
  | reject _ _ text => exact (World.Calm.raised t .noClassDefFound text).codes

/-- A request moves on with the tasks below it in order. -/
theorem Moves.attends {c : ClassId} {stage : InitStage} {answer : Option Outcome}
    {control' : Control} (h : Moves t w ⟨.prepare c stage :: rest, answer⟩ w' control')
    (hsound : Sound w.registry t ⟨.prepare c stage :: rest, answer⟩)
    (ho : w.registry.Orderly) (hattends : Attends w ⟨.prepare c stage :: rest, answer⟩) :
    control'.Attends w' := by
  have hforward := h.forward hsound
  have hlined := hattends.under.forward ho hforward
  have hanswer : ∀ {o}, Moves t w ⟨.prepare c stage :: rest, answer⟩ w' ⟨rest, some o⟩ →
      Attends w' ⟨rest, some o⟩ := by
    intro o hends
    refine .of_answer (hlined.answer ?_)
    rintro v rfl
    exact hends.ends hsound
  have hmoves := h
  cases h with
  | plain _ htask => cases htask
  | allow | refuse | claim | wait => exact .of_acting trivial (hlined.restage _)
  | pass | reject | fail => exact hanswer hmoves
  | climb => exact .of_acting trivial ⟨trivial, hlined.restage _⟩
  | @start c' rest' _ m n _ hprepared _ hclinit =>
    obtain ⟨rfl, rfl⟩ : c' = c ∧ rest' = rest := by cases hprepared <;> exact ⟨rfl, rfl⟩
    refine .of_acting (.inr ?_) ⟨trivial, hlined.restage _⟩
    obtain ⟨cls, method, hcls, hdeclared, rfl⟩ := hclinit
    obtain ⟨⟨k, hk, hmethod⟩, -⟩ := Registry.declared_some hdeclared
    obtain ⟨method', hmethod', howner⟩ := (ho.formed _ cls hcls).methods k hk
    cases hmethod.symm.trans hmethod'
    have hid := ho.methodId k method hmethod
    obtain ⟨m', hm', hsame⟩ := hforward.registry.later.keeps.methods k method hmethod
    refine ⟨m', hid ▸ hm', fun _ => .inl (.inr ?_)⟩
    rw [hsame]
    exact howner ▸ List.mem_cons_self
  | @finish c' rest' _ _ hsource _ =>
    obtain rfl : rest' = rest := by
      rcases hsource with hprepared | ⟨n, v, heq⟩
      · cases hprepared <;> rfl
      · cases heq
        rfl
    exact hanswer hmoves

theorem Control.Attends.step (h : control.Attends w)
    (hsound : control.Sound w.registry t) (hbuilt : w.registry.Built) (hcoded : w.Coded) :
    (step t w control).2.Attends (step t w control).1 := by
  have hmoves := moves_step hsound
  have hforward := hmoves.forward hsound
  obtain ⟨tasks, answer⟩ := control
  cases tasks with
  | nil => exact h.forward hbuilt.orderly hforward
  | cons task rest =>
    by_cases hrequest : task.isRequest = true
    · cases task with
      | prepare c stage => exact hmoves.attends hsound hbuilt.orderly h
      | _ => cases hrequest
    · rw [Bool.not_eq_true] at hrequest
      have hlined := (h.under.forward hbuilt.orderly hforward).swap hrequest
      cases answer with
      | none =>
        have hacts := (h.acting task rest rfl rfl).1
        exact .of_move (attends_act hrequest hbuilt hcoded hacts) hlined
      | some o =>
        have hwaits := (h.answered o rfl).1
        exact .of_move (attends_receive hrequest hbuilt.orderly hwaits) hlined

/-! ## Code -/

theorem Task.codes_actInit (c : ClassId) (stage : InitStage) :
    (actInit t w c stage).1.codes = w.codes := by
  have hdecide : ∀ w : World, (decideInit t w c).1.codes = w.codes := by
    intro w
    unfold decideInit
    split
    · rfl
    · rfl
    · rfl
    · split <;> rfl
  have hbody : (initBody t w c).1.codes = w.codes := by
    unfold initBody
    split <;> rfl
  cases stage with
  | request | waiting => exact hdecide _
  | ready => rfl
  | refused =>
    have hcreate := World.Quiet.createException (w := w) .noClassDefFound
      (some (w.registry.className c))
    exact (World.Quiet.captureTrace t _).codes.trans hcreate.codes
  | claimed | superclass | body =>
    simp only [actInit]
    split
    · rfl
    · exact hbody

theorem Task.codes_receiveInit (c : ClassId) (stage : InitStage) (o : Outcome) :
    (receiveInit t w c stage o).1.codes = w.codes := by
  have hend : ∀ w : World, (endInit w c o).1.codes = w.codes := by
    intro w
    cases o <;> rfl
  unfold receiveInit
  split
  · unfold initBody
    split <;> rfl
  · exact hend _
  · exact hend _

theorem World.Coded.step (h : w.Coded) (hattends : control.Attends w)
    (hsound : control.Sound w.registry t) (hbuilt : w.registry.Built) :
    (step t w control).1.Coded := by
  have honward := ((moves_step hsound).advances hsound).onward.registry
  obtain ⟨tasks, answer⟩ := control
  cases tasks with
  | nil => exact h
  | cons task rest =>
    by_cases hrequest : task.isRequest = true
    · cases task with
      | prepare c stage =>
        cases answer with
        | none => exact h.onward hbuilt.orderly honward (codes_actInit c stage)
        | some o => exact h.onward hbuilt.orderly honward (codes_receiveInit c stage o)
      | _ => cases hrequest
    · rw [Bool.not_eq_true] at hrequest
      have hlenient := World.lenient_tended
      cases answer with
      | none =>
        refine (plainly_act hlenient t w hrequest ?_).within.coded hbuilt h
        rintro a rfl
        obtain ⟨hkept, -⟩ := (hattends.acting _ rest rfl rfl).1
        exact a.evaluates_tended t hbuilt hkept.linked h
      | some o => exact (plainly_receive hlenient t w hrequest o).within.coded hbuilt h

end

/-! ## Engines -/

def Instr.static? : Instr → Option (Handle StaticSlot)
  | .getStatic _ h | .putStatic h _ => some h
  | _ => none

/-- The static field that the instruction at hand reads or writes, unless it asks for its class
first. -/
def Activation.accessed? (t : ThreadId) (w : World) (a : Activation) : Option StaticSlot :=
  a.instr?.bind fun p => p.instr.static?.bind fun h =>
    if h.isResolved ∨ a.wait = .checked then
      match (Exec.staticHandle h).runOn t (p.mark t w) with
      | .ok s _ => some s
      | .error _ _ => none
    else none

def Task.isBody : Task → Bool
  | .activation _ | .lowered _ | .script _ => true
  | _ => false

def Task.called? : Task → Option (MethodId × List Value)
  | .call m args | .entering m _ args => some (m, args)
  | _ => none

theorem PlacedInstr.registry_mark (p : PlacedInstr) (t : ThreadId) (w : World) :
    (p.mark t w).registry = w.registry := by
  unfold mark
  split <;> rfl

variable {s : StaticSlot}

/-- A static field that is bound when it is used belongs to the class that was asked for. -/
theorem Instr.Asks.staticHandle {t : ThreadId} {w w' : World} {c : ClassId} {i : Instr}
    {h : Handle StaticSlot} (hasks : i.Asks w.registry c)
    (ho : w.registry.Orderly) (hstatic : i.static? = some h)
    (hrun : (Exec.staticHandle h).runOn t w = .ok s w') : s.owner.id = c := by
  have hquiet := Exec.within_ok (Exec.quiet_staticHandle h t w) hrun
  have hkeep := hasks.keep ho hquiet.later.keeps
  obtain ⟨index, m, k, slot, rfl, hk, hplace⟩ : ∃ index m k slot, h = .lazy index (.static m) ∧
      w'.registry.loaded? m.owner = some k ∧
      w'.registry.staticPlace? m.name m.descriptor k.id k.id = some (c, slot) := by
    cases i with
    | getStatic | putStatic =>
      cases hstatic
      exact hkeep
    | _ => cases hstatic
  obtain ⟨k', hk', hplace'⟩ := Exec.staticHandle_ok hrun
  cases hk.symm.trans hk'
  rw [hplace, some.injEq, Prod.mk.injEq] at hplace'
  exact hplace'.1.symm

theorem Activation.Kept.follows {w : World} {rest : List Task} {a : Activation} {p : PlacedInstr}
    (h : a.Kept w rest) (hcoded : w.Coded) (hp : a.instr? = some p)
    (hs : p.instr.static? = some (.resolved s)) :
    Instr.Checked w.registry a.before? s.owner.id := by
  obtain ⟨blk, hblk, hindex⟩ := bind_eq_some_iff.mp hp
  have hfollows := h.linked.checks hcoded _ blk hblk _ p hindex
  rw [before?, hblk]
  cases hi : p.instr with
  | getStatic | putStatic =>
    rw [hi] at hs hfollows
    cases hs
    exact hfollows
  | _ =>
    rw [hi] at hs
    cases hs

namespace Engine

variable {e e' : Engine} {t : ThreadId}

def Ready (e : Engine) (t : ThreadId) (c : ClassId) : Prop :=
  e.phase? c = some .initialized ∨ e.phase? c = some (.running t)

def accessed? (e : Engine) (t : ThreadId) : Option StaticSlot :=
  match e.controls t with
  | ⟨.activation a :: _, none⟩ => a.accessed? t e.world
  | _ => none

def entered? (e : Engine) (t : ThreadId) : Option (MethodId × List Value) :=
  match e.controls t, (e.turn t).controls t with
  | ⟨task :: _, none⟩, ⟨body :: _, none⟩ => if body.isBody then task.called? else none
  | _, _ => none

/-- Ways to enter a static method without asking for its class. -/
inductive Unasked (e : Engine) (t : ThreadId) (m : Method) (args : List Value) : Prop where
  /-- A native method calls it. -/
  | callback {task : Task} {s : ScriptRun} {rest : List Task} :
      (e.controls t).tasks = task :: .script s :: rest → Unasked e t m args
  /-- Compiled code calls it as if it were a method of an object. -/
  | receiver {task : Task} {a : Activation} {rest : List Task} :
      (e.controls t).tasks = task :: .activation a :: rest →
      args.length = m.signature.paramTypes.length + 1 → Unasked e t m args
  /-- Compiled code that is bound when it is run names another class, and has asked for that. -/
  | misnamed {task : Task} {a : Activation} {rest : List Task} {p : PlacedInstr}
      {dest : Option Reg} {index : Nat} {member : MemberRef} {regs : List Reg} {k : Class} :
      (e.controls t).tasks = task :: .activation a :: rest → a.instr? = some p →
      p.instr = .call dest (.direct (.lazy index (.method member))) regs →
      e.registry.loaded? member.owner = some k → k.id ≠ m.owner → e.Ready t k.id →
      Unasked e t m args

/-- What happens in an engine: threads take turns, those that are done are given calls of methods
that names lead to, classes are defined, methods are compiled, and things happen that have no part
in code or in static initialization. -/
inductive Course (e : Engine) : Engine → Prop where
  | here : Course e e
  | turn {e' : Engine} (t : ThreadId) : Course e e' → Course e (e'.turn t)
  | call {e' : Engine} (t : ThreadId) {c : Class} {name descriptor : String} {m : Method}
      (args : List Value) : Course e e' → (e'.controls t).tasks = [] →
      e'.registry.findMethod? c name descriptor = some m →
      Course e ⟨e'.world, Function.update e'.controls t (.ofCall m args)⟩
  | define {e' : Engine} (d : ClassDef) : Course e e' →
      (∀ t c stage, .prepare c stage ∈ (e'.controls t).tasks → (e'.phase? c).isSome) →
      Course e ⟨{ e'.world with registry := (e'.registry.define d).2 }, e'.controls⟩
  | compile {e' : Engine} (m : MethodId) : Course e e' →
      Course e ⟨(e'.world.compileMethod m).2, e'.controls⟩
  | outside {e' : Engine} {w : World} : Course e e' → e'.world.Calm w →
      w.codes = e'.world.codes → Course e ⟨w, e'.controls⟩

/-- Stacks agree with the phases of the classes, and all code and tasks are in order. -/
structure Guarded (e : Engine) : Prop where
  sound : e.Sound
  coded : e.world.Coded
  threads : ∀ t, (e.controls t).Attends e.world

namespace Guarded

theorem built (h : e.Guarded) : e.registry.Built := Registry.built_core.later h.sound.core

theorem turn (h : e.Guarded) (t : ThreadId) : (e.turn t).Guarded := by
  have hsound := h.sound.threads t
  refine ⟨h.sound.turn t, h.coded.step (h.threads t) hsound h.built, fun k => ?_⟩
  by_cases hk : k = t
  · subst hk
    rw [controls_turn]
    exact (h.threads k).step hsound h.built h.coded
  · rw [controls_turn_of_ne hk]
    exact (h.threads k).forward h.built.orderly ((moves_step hsound).forward hsound)

theorem forward {w : World} (h : e.Guarded) (hsound : Sound ⟨w, e.controls⟩) (hcoded : w.Coded)
    (hw : e.world.Forward w) : Guarded ⟨w, e.controls⟩ :=
  ⟨hsound, hcoded, fun t => (h.threads t).forward h.built.orderly hw⟩

theorem call {c : Class} {name descriptor : String} {m : Method} (h : e.Guarded)
    (args : List Value) (hidle : (e.controls t).tasks = [])
    (hm : e.registry.findMethod? c name descriptor = some m) :
    Guarded ⟨e.world, Function.update e.controls t (.ofCall m args)⟩ := by
  refine ⟨h.sound.call m args hidle, h.coded, fun k => ?_⟩
  by_cases hk : k = t
  · subst hk
    dsimp only
    rw [Function.update_self]
    have hmethod := h.built.orderly.method_findMethod hm
    obtain ⟨d, hd, -⟩ := h.built.orderly.findMethod_owner hm
    unfold ofCall
    split
    · exact .of_acting trivial ⟨⟨m.owner, .request, rfl, m, d, hmethod, rfl, hd⟩, trivial⟩
    · rename_i hstatic
      refine .of_acting (.inr ⟨m, hmethod, fun h => absurd h hstatic⟩) trivial
  · dsimp only
    rw [Function.update_of_ne hk]
    exact h.threads k

theorem define (h : e.Guarded) (d : ClassDef)
    (hknown : ∀ t c stage, .prepare c stage ∈ (e.controls t).tasks → (e.phase? c).isSome) :
    Guarded ⟨{ e.world with registry := (e.registry.define d).2 }, e.controls⟩ := by
  have honward : e.registry.Onward (e.registry.define d).2 := .define _ d
  exact h.forward (h.sound.define d hknown) (h.coded.onward h.built.orderly honward rfl)
    ⟨honward, fun _ live hlive => ⟨live, hlive, rfl⟩⟩

theorem of_initial (h : e.Initial) (hcodes : e.world.codes = #[]) : e.Guarded := by
  refine ⟨h.sound, fun n live hlive => ?_, fun t => ?_⟩
  · rw [World.code?, hcodes] at hlive
    simp at hlive
  · have hidle := h.idle t
    refine ⟨fun task rest htasks => ?_, fun o _ => ?_⟩
    · rw [hidle] at htasks
      cases htasks
    · rw [hidle]
      trivial

theorem course (h : e.Guarded) (hcourse : e.Course e') : e'.Guarded := by
  induction hcourse with
  | here => exact h
  | turn t _ ih => exact ih.turn t
  | call t args _ hidle hm ih => exact ih.call args hidle hm
  | define d _ hknown ih => exact ih.define d hknown
  | @compile e₁ m _ ih =>
    have hcalm := World.Calm.compileMethod (w := e₁.world) m
    exact ih.forward (ih.sound.outside hcalm) (ih.coded.compileMethod ih.built m) (.of_calm hcalm)
  | outside _ hcalm hcodes ih =>
    have htended := World.Tended.of_calm hcalm hcodes
    exact ih.forward (ih.sound.outside hcalm) (htended.coded ih.built ih.coded) (.of_calm hcalm)

theorem ready {c : ClassId} {tasks : List Task} (h : e.Guarded) (hgranted : Granted e.registry tasks c)
    (htasks : tasks <:+ (e.controls t).tasks) : e.Ready t c := by
  refine hgranted.imp id fun hclaim => ?_
  have hrunning := ((h.sound.threads t).owner c).mpr (claims_subset htasks hclaim)
  obtain ⟨cls, hcls⟩ := Registry.class_of_phase (by
    rw [hrunning]
    nofun)
  exact phase?_of_phase hcls hrunning

theorem ready_before {a : Activation} {rest : List Task} {i : Instr} (h : e.Guarded)
    (hcontrol : e.controls t = ⟨.activation a :: rest, none⟩) (hi : a.before? = some i)
    (hcheck : i.isCheck = true) : ∃ c, i.Asks e.registry c ∧ e.Ready t c := by
  have hattends := h.threads t
  rw [hcontrol] at hattends
  obtain ⟨hkept, -⟩ := (hattends.acting _ rest rfl rfl).1
  obtain ⟨c, hasks, hgranted⟩ := hkept.assured i hi hcheck
  exact ⟨c, hasks, h.ready hgranted (by rw [hcontrol]; exact List.suffix_cons _ _)⟩

theorem ready_accessed (h : e.Guarded) (hs : e.accessed? t = some s) : e.Ready t s.owner.id := by
  unfold accessed? at hs
  split at hs
  swap
  · cases hs
  rename_i a rest hcontrol
  have hattends := h.threads t
  rw [hcontrol] at hattends
  obtain ⟨hkept, hacts⟩ := (hattends.acting _ rest rfl rfl).1
  obtain ⟨p, hp, hs⟩ := bind_eq_some_iff.mp hs
  obtain ⟨handle, hhandle, hs⟩ := bind_eq_some_iff.mp hs
  split at hs
  swap
  · cases hs
  rename_i hready
  split at hs
  swap
  · cases hs
  rename_i hrun
  cases hs
  cases handle with
  | resolved bound =>
    cases hrun
    obtain hinitialized | ⟨ref, hbefore, howner⟩ := hkept.follows h.coded hp hhandle
    · exact .inl hinitialized
    · obtain ⟨c, hasks, hready⟩ := h.ready_before hcontrol hbefore rfl
      have hc : ref.id = c := hasks
      rwa [← howner, hc]
  | lazy index symbol =>
    have hwait : a.wait = .checked := hready.resolve_left nofun
    rw [Activation.Acts, hwait] at hacts
    obtain ⟨c, ⟨p', -, hp', hasks, -⟩, hgranted⟩ := hacts
    cases hp.symm.trans hp'
    have hmark := p.registry_mark t e.world
    have ho : (p.mark t e.world).registry.Orderly := hmark ▸ h.built.orderly
    have hsame := (hmark ▸ hasks).staticHandle ho hhandle hrun
    rw [hsame]
    exact h.ready hgranted (by rw [hcontrol]; exact List.suffix_cons _ _)

theorem ready_entered {m : MethodId} {args : List Value} {method : Method} (h : e.Guarded)
    (hentered : e.entered? t = some (m, args)) (hmethod : e.registry.method? m = some method)
    (hstatic : method.isStatic = true) : e.Ready t method.owner ∨ e.Unasked t method args := by
  unfold entered? at hentered
  split at hentered
  swap
  · cases hentered
  rename_i task rest _ _ hcontrol _
  split at hentered
  swap
  · cases hentered
  have htasks : (e.controls t).tasks = task :: rest := by rw [hcontrol]
  have hattends := h.threads t
  rw [hcontrol] at hattends
  have hacts := (hattends.acting _ rest rfl rfl).1
  have hcalled : Called e.registry rest m args := by
    unfold called? at hentered
    split at hentered
    · cases hentered
      exact hacts
    · cases hentered
      exact hacts
    · cases hentered
  obtain ⟨s, below, rfl⟩ | ⟨method', hmethod', hgranted⟩ := hcalled
  · exact .inr (.callback htasks)
  cases hmethod.symm.trans hmethod'
  obtain hgranted | ⟨a, below, rfl, hreceiver | hmisnames⟩ := hgranted hstatic
  · exact .inl (h.ready hgranted (by rw [htasks]; exact List.suffix_cons _ _))
  · exact .inr (.receiver htasks hreceiver)
  · obtain ⟨p, dest, index, member, regs, k, hp, hcall, hk, hne, hgranted⟩ := hmisnames
    refine .inr (.misnamed htasks hp hcall hk hne (h.ready hgranted ?_))
    rw [htasks]
    exact (List.suffix_cons _ _).trans (List.suffix_cons _ _)

end Guarded

/-- Static members are used only where their class is ready, and methods that are expanded in
others stand behind checks too. -/
theorem statics_after_initialization {e₀ : Engine} (hinitial : e₀.Initial)
    (hcodes : e₀.world.codes = #[]) (hcourse : e₀.Course e) (t : ThreadId) :
    (∀ s, e.accessed? t = some s → e.Ready t s.owner.id) ∧
    (∀ m args method, e.entered? t = some (m, args) → e.registry.method? m = some method →
      method.isStatic = true → e.Ready t method.owner ∨ e.Unasked t method args) ∧
    (∀ a rest i, e.controls t = ⟨.activation a :: rest, none⟩ → a.before? = some i →
      i.isCheck = true → ∃ c, i.Asks e.registry c ∧ e.Ready t c) ∧
    ∀ expand other body pc k index s st,
      Emit.invoke (some (Emit.whereChecked expand other)) body pc (.invokeStatic k) index s st =
        Emit.invoke (some expand) body pc (.invokeStatic k) index s st := by
  have hguarded := (Guarded.of_initial hinitial hcodes).course hcourse
  exact ⟨fun s => hguarded.ready_accessed, fun m args method => hguarded.ready_entered,
    fun a rest i => hguarded.ready_before, Emit.invoke_whereChecked⟩

end Engine

/-! ## A counter -/

def counterClass : ClassDef :=
  { name := "Counter", superclass := some objectClass
    fields := [{ name := "count", descriptor := "I", isStatic := true }]
    constants := #[.field ⟨"Counter", "count", "I"⟩]
    methods := [
      .ofCode "read" "()I" (Flag.isPublic ||| Flag.isStatic)
        { bytes := [0xb2, 0x00, 0x00, 0xac], maxLocals := 0, maxStack := 1 },
      .ofCode "<clinit>" "()V" Flag.isStatic
        { bytes := [0xb1], maxLocals := 0, maxStack := 0 }] }

/-- Reads the counter by a call in its code, and by one that a native method makes. -/
def readerClass : ClassDef :=
  { name := "Reader", superclass := some objectClass
    constants := #[.method ⟨"Counter", "read", "()I"⟩]
    methods := [
      .ofCode "read" "()I" (Flag.isPublic ||| Flag.isStatic)
        { bytes := [0xb8, 0x00, 0x00, 0xac], maxLocals := 0, maxStack := 1 },
      .ofNative "ask" "()I" (Flag.isPublic ||| Flag.isStatic)
        (.script [.call "Counter" "read" "()I" [] false, .result .last])] }

def counting : List ClassDef := [counterClass, readerClass]

namespace Engine

variable {t : ThreadId}

/-- An engine with one thread at work. -/
def alone (t : ThreadId) (w : World) (control : Control) : Engine :=
  ⟨w, Function.update (fun _ => ⟨[], none⟩) t control⟩

end Engine

/-- A method is called in a new engine, and the thread is stopped when it is about to do something. -/
def methodRun? (ds : List ClassDef) (owner name : String) (stop : ThreadId → Engine → Bool) :
    Option (ThreadId × Engine) :=
  (World.loading? ds).bind fun p => (p.2.registry.loaded? owner).bind fun c =>
    (p.2.registry.findMethod? c name "()I").map fun m =>
      let last := run p.1 (fun w control => stop p.1 (.alone p.1 w control)) stepLimit p.2
        (.ofCall m [])
      (p.1, .alone p.1 last.1 last.2)

namespace Engine

variable {t : ThreadId}

theorem methodRun_course {ds : List ClassDef} {owner name : String}
    {stop : ThreadId → Engine → Bool} {e : Engine}
    (h : methodRun? ds owner name stop = some (t, e)) :
    ∃ e₀ : Engine, e₀.Initial ∧ e₀.world.codes = #[] ∧ e₀.registry = .defining ds ∧ e₀.Course e := by
  obtain ⟨⟨k, w⟩, hworld, h⟩ := bind_eq_some_iff.mp h
  obtain ⟨c, -, h⟩ := bind_eq_some_iff.mp h
  obtain ⟨m, hm, h⟩ := map_eq_some_iff.mp h
  obtain ⟨rfl, rfl⟩ := h
  obtain ⟨hregistry, hcodes⟩ := World.loading?_some hworld
  have hcall : Course ⟨w, fun _ => ⟨[], none⟩⟩ (alone k w (.ofCall m [])) :=
    Course.here.call k [] rfl hm
  exact ⟨_, initial_of_defined hregistry, hcodes, hregistry, of_run (fun _ h => h.turn k) hcall _ _⟩

/-- Code of the reader that comes to read the field finds the counter initialized. -/
theorem statics_after_initialization_counter : ∃ e₀ e t s, Initial e₀ ∧ e₀.world.codes = #[] ∧
    Course e₀ e ∧ e.accessed? t = some s ∧ e.Ready t s.owner.id := by
  have hreads : (methodRun? counting "Reader" "read" fun t e => (e.accessed? t).isSome).any
      (fun p => (p.2.accessed? p.1).isSome) = true := by
    decide +kernel
  obtain ⟨⟨t, e⟩, hrun, haccess⟩ := (Option.any_eq_true _ _).mp hreads
  obtain ⟨s, hs⟩ := Option.isSome_iff_exists.mp haccess
  obtain ⟨e₀, hinitial, hcodes, -, hcourse⟩ := methodRun_course hrun
  obtain ⟨haccessed, -⟩ := statics_after_initialization hinitial hcodes hcourse t
  exact ⟨e₀, e, t, s, hinitial, hcodes, hcourse, hs, haccessed s hs⟩

/-- A native method of the reader enters that of the counter, which has not been initialized. -/
theorem entered_uninitialized : ∃ e₀ e t m args method, Initial e₀ ∧ e₀.world.codes = #[] ∧
    Course e₀ e ∧ e.entered? t = some (m, args) ∧ e.registry.method? m = some method ∧
    method.isStatic = true ∧ e.phase? method.owner = some .uninitialized := by
  have henters : (methodRun? counting "Reader" "ask" fun t e => (e.entered? t).any (·.1 == 6)).any
      (fun p => (p.2.entered? p.1).any fun q => (p.2.registry.method? q.1).any fun method =>
        method.isStatic && p.2.phase? method.owner == some .uninitialized) = true := by
    decide +kernel
  obtain ⟨⟨t, e⟩, hrun, hfacts⟩ := (Option.any_eq_true _ _).mp henters
  obtain ⟨⟨m, args⟩, hentered, hfacts⟩ := (Option.any_eq_true _ _).mp hfacts
  obtain ⟨method, hmethod, hfacts⟩ := (Option.any_eq_true _ _).mp hfacts
  rw [Bool.and_eq_true, beq_iff_eq] at hfacts
  obtain ⟨e₀, hinitial, hcodes, -, hcourse⟩ := methodRun_course hrun
  exact ⟨e₀, e, t, m, args, method, hinitial, hcodes, hcourse, hentered, hmethod, hfacts.1, hfacts.2⟩

end Engine

/-! ## A call by another name -/

/-- Its method can be called by the name of the class below. -/
def baseClass : ClassDef :=
  { name := "Base", superclass := some objectClass
    methods := [
      .ofCode "one" "()I" (Flag.isPublic ||| Flag.isStatic)
        { bytes := [0x04, 0xac], maxLocals := 0, maxStack := 1 }] }

def derivedClass : ClassDef :=
  { name := "Derived", superclass := some "Base"
    methods := [.ofCode "<clinit>" "()V" Flag.isStatic
      { bytes := [0xb1], maxLocals := 0, maxStack := 0 }] }

def callerClass : ClassDef :=
  { name := "Caller", superclass := some objectClass
    constants := #[.method ⟨"Derived", "one", "()I"⟩]
    methods := [
      .ofCode "call" "()I" (Flag.isPublic ||| Flag.isStatic)
        { bytes := [0xb8, 0x00, 0x00, 0xac], maxLocals := 0, maxStack := 1 }] }

/-- A new engine with one thread that has loaded the three classes. -/
def callerWorld? (mode : CompileMode) : Option (ThreadId × World) :=
  ((World.start { compileMode := mode }).toOption.bind fun w =>
    (w.attach "main" 2097152).toOption).map fun p =>
      (p.1, { p.2 with
        registry := [baseClass, derivedClass, callerClass].foldl (fun r d => (r.define d).2)
          Registry.core })

/-- What a call of the caller gives, and the phases of the two classes above after it. -/
def callerRun? (mode : CompileMode) : Option (Outcome × Option InitPhase × Option InitPhase) :=
  (callerWorld? mode).bind fun p => (p.2.registry.loaded? "Caller").bind fun c =>
    (p.2.registry.findMethod? c "call" "()I").map fun m =>
      let (o, w) := p.2.execute p.1 (.ofCall m [])
      (o, w.registry.phase? 23, w.registry.phase? 24)

/-- Only the code that is bound late has the class below initialized. -/
theorem modes_initialize_differently :
    callerRun? .jit = some (.value (some (.int 1)), some .initialized, some .uninitialized) ∧
    callerRun? .aot = some (.value (some (.int 1)), some .initialized, some .initialized) := by
  decide +kernel

end ManagedCore
