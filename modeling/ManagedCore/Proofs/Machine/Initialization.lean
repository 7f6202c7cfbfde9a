import ManagedCore.Proofs.Machine.Fairness
import ManagedCore.Proofs.Machine.Start

/-!
# Static initialization

However the threads of an engine take turns, the initializer of a class is started at most once, and
a class that is initialized or has failed stays so. When an initializer starts, every class above has
been asked for before. A request that is answered leaves the class ready for the thread that asked,
or failed, and what can no longer be initialized is refused from then on.

A class may be initialized while its superclass still is in progress on the same thread. It stays
initialized if the superclass fails after that, and so it is no obstacle to the classes below.
-/

namespace ManagedCore

open Option

namespace Engine

/-! ## Engines that start -/

theorem fresh_foldl (ds : List ClassDef) {r : Registry} (h : r.Fresh) :
    (ds.foldl (fun r d => (r.define d).2) r).Fresh := by
  induction ds generalizing r with
  | nil => exact h
  | cons d ds ih => exact ih (h.define d)

theorem initial_of_defined {w : World} {ds : List ClassDef} (h : w.registry = .defining ds) :
    Initial ⟨w, fun _ => ⟨[], none⟩⟩ where
  core := by
    rw [registry, h]
    exact Registry.later_defining ds
  fresh := by
    rw [registry, h]
    exact fresh_foldl ds (fresh_foldl coreClasses .empty)
  idle _ := rfl

/-- A thread that runs on its own is one of the ways to take turns. -/
theorem of_run {P : Engine → Prop} {t : ThreadId} (hturn : ∀ e, P e → P (e.turn t)) {w : World}
    {controls : ThreadId → Control} {control : Control}
    (h : P ⟨w, Function.update controls t control⟩) (stop : World → Control → Bool) (fuel : Nat) :
    P ⟨(run t stop fuel w control).1, Function.update controls t (run t stop fuel w control).2⟩ := by
  induction fuel generalizing w control with
  | zero => exact h
  | succ fuel ih =>
    rw [run]
    split
    · exact h
    · have hnext := hturn _ h
      simp only [turn, Function.update_self, Function.update_idem] at hnext
      exact ih hnext

/-! ## The order of events -/

def Tells (e : Engine) (t : ThreadId) (c : ClassId) : Outcome → Prop
  | .value _ => e.phase? c = some .initialized ∨ e.phase? c = some (.running t)
  | .thrown _ | .failed _ => e.phase? c = some .failed

section

variable {e : Engine} {t : ThreadId} {c s : ClassId}

theorem Sound.tells (h : e.Sound) {stage : InitStage} {rest : List Task} {a : Option Outcome}
    {o : Outcome} (hcontrol : e.controls t = ⟨.prepare c stage :: rest, a⟩)
    (hcontrol' : (e.turn t).controls t = ⟨rest, some o⟩) (hknown : (e.phase? c).isSome) :
    (e.turn t).Tells t c o := by
  have hmoves := h.moves t
  rw [hcontrol, hcontrol'] at hmoves
  have hanswers := hmoves.ends (hcontrol ▸ h.threads t)
  obtain ⟨p, hp⟩ := isSome_iff_exists.mp hknown
  obtain ⟨cls, hcls, -⟩ := map_eq_some_iff.mp hp
  obtain ⟨cls', hcls', -⟩ := (h.advances t).onward.registry.later.keeps.classes c cls hcls
  cases o with
  | value v =>
    refine Or.imp (phase?_of_phase hcls') (fun hclaimed => phase?_of_phase hcls' ?_) hanswers
    rw [((h.turn t).threads t).owner, hcontrol']
    exact hclaimed
  | thrown | failed => exact phase?_of_phase hcls' hanswers

/-- Above a class whose initializer starts, every class has been asked for, and the classes up to
the first one that is initialized are in progress on the same thread. -/
theorem Sound.superclasses (h : e.Sound) (hstart : e.starting? t = some c)
    (hs : e.registry.Above c s) : e.phase? s ≠ some .uninitialized ∧
      (e.phase? s = some .initialized ∨ e.phase? s = some (.running t) ∨
        ∃ m, e.registry.Above c m ∧ e.registry.Above m s ∧ e.phase? m = some .initialized) := by
  obtain ⟨rest, hprepared, -⟩ := h.starts hstart
  obtain ⟨hbegun, hphase⟩ := hprepared.superclasses (h.threads t) h.orderly h.settled hs
  obtain ⟨cls, hcls, -⟩ := h.orderly.above_plain hs
  refine ⟨fun hnone => hbegun (phase_of_phase? hnone), ?_⟩
  rcases hphase with hinit | hrunning | ⟨m, hcm, hms, hinit⟩
  · exact .inl (phase?_of_phase hcls hinit)
  · exact .inr (.inl (phase?_of_phase hcls hrunning))
  · obtain ⟨mcls, hmcls, -⟩ := h.orderly.above_plain hcm
    exact .inr (.inr ⟨m, hcm, hms, phase?_of_phase hmcls hinit⟩)

/-- Initializers run once and in order. -/
theorem initializes_once_and_in_order {e₀ : Engine} {log : List ClassId} (hinitial : e₀.Initial)
    (hruns : Runs e₀ log e) :
    log.Nodup ∧
    (∀ e' started c p, Step e started e' → p = .initialized ∨ p = .failed →
      e.phase? c = some p → e'.phase? c = some p) ∧
    (∀ t c, e.starting? t = some c → ∀ s, e.registry.Above c s →
      e.phase? s ≠ some .uninitialized ∧
        (e.phase? s = some .initialized ∨ e.phase? s = some (.running t) ∨
          ∃ m, e.registry.Above c m ∧ e.registry.Above m s ∧ e.phase? m = some .initialized)) ∧
    (∀ t c stage rest a o, e.controls t = ⟨.prepare c stage :: rest, a⟩ →
      (e.turn t).controls t = ⟨rest, some o⟩ → (e.phase? c).isSome → (e.turn t).Tells t c o) ∧
    ∀ t c rest run, e.controls t = ⟨.prepare c .request :: rest, none⟩ → e.Doomed c → Fair run →
      run 0 = e → ∃ k x, (run k).controls t = ⟨rest, some (.thrown x)⟩ ∧
        Refusal (run k).world x ∧ (run k).phase? c = some .failed ∧
        ∀ j < k, rest.length < ((run j).controls t).tasks.length := by
  have hsound := hinitial.sound.runs hruns
  refine ⟨(hinitial.sound.runs_log hruns).1, fun e' started c p hstep => hsound.phase_stays hstep,
    fun t c hstart s => hsound.superclasses hstart, fun t c stage rest a o => hsound.tells, ?_⟩
  rintro t c rest run hrequest hdoom hfair rfl
  obtain ⟨k, x, -, hcontrol, hx, hfailed, hbefore⟩ := hfair.refuses hsound hdoom hrequest
  obtain ⟨cls, hcls⟩ := (hfair.doomed hsound (Nat.zero_le k) hdoom).known
  exact ⟨k, x, hcontrol, hx, phase?_of_phase hcls hfailed, fun j => hbefore j (Nat.zero_le j)⟩

end

end Engine

/-! ## A family of classes -/

/-- Its initializer makes an instance of the class below it and then throws. -/
def brokenParent : ClassDef :=
  { name := "Parent", superclass := some objectClass, constants := #[.class "Child"]
    methods := [
      .ofCode "touch" "()V" (Flag.isPublic ||| Flag.isStatic)
        { bytes := [0xb1], maxLocals := 0, maxStack := 0 },
      .ofCode "<clinit>" "()V" Flag.isStatic
        { bytes := [0xbb, 0x00, 0x00, 0x57, 0x01, 0xbf], maxLocals := 0, maxStack := 1 }] }

def earlyChild : ClassDef :=
  { name := "Child", superclass := some "Parent"
    methods := [.ofCode "one" "()I" (Flag.isPublic ||| Flag.isStatic)
      { bytes := [0x04, 0xac], maxLocals := 0, maxStack := 1 }] }

def lateGrandchild : ClassDef :=
  { name := "Grandchild", superclass := some "Child"
    methods := [
      .ofCode "two" "()I" (Flag.isPublic ||| Flag.isStatic)
        { bytes := [0x05, 0xac], maxLocals := 0, maxStack := 1 },
      .ofCode "<clinit>" "()V" Flag.isStatic
        { bytes := [0xb1], maxLocals := 0, maxStack := 0 }] }

def family : List ClassDef := [brokenParent, earlyChild, lateGrandchild]

/-- A new engine with one thread that has loaded the classes of a list. -/
def World.loading? (ds : List ClassDef) : Option (ThreadId × World) :=
  ((World.start {}).toOption.bind fun w => (w.attach "main" 2097152).toOption).map fun p =>
    (p.1, { p.2 with registry := .defining ds, codes := #[] })

theorem World.loading?_some {ds : List ClassDef} {t : ThreadId} {w : World}
    (h : loading? ds = some (t, w)) : w.registry = .defining ds ∧ w.codes = #[] := by
  obtain ⟨p, -, hp⟩ := map_eq_some_iff.mp h
  rw [Prod.mk.injEq] at hp
  rw [← hp.2]
  exact ⟨rfl, rfl⟩

/-- What happens when the parent is touched, and then the classes below it are. -/
def failsAmidChildren (t : ThreadId) (w : World) (touch one two : Method) : Bool :=
  let (w₁, c₁) := run t (fun _ _ => false) stepLimit w (.ofCall touch [])
  let (w₂, c₂) := run t (fun _ _ => false) 4 w₁ (.ofCall two [])
  c₁.isDone && touch.isStatic && touch.owner == 23 && one.owner == 24 &&
    w₁.registry.superclass? 24 == some 23 && w₂.registry.superclass? 24 == some 23 &&
    w₂.registry.superclass? 25 == some 24 &&
    (w₁.registry.class? 23).map (·.init) == some .failed &&
    (w₂.registry.class? 23).map (·.init) == some .failed &&
    (w₁.execute t (.ofCall one [])).1 == .value (some (.int 1)) &&
    Engine.starting? ⟨w₂, Function.update (fun _ => ⟨[], none⟩) t c₂⟩ t == some 25

theorem family_runs : (World.loading? family).any (fun (t, w) =>
    (w.registry.method? 6).any fun touch => (w.registry.method? 8).any fun one =>
      (w.registry.method? 9).any fun two => failsAmidChildren t w touch one two) = true := by
  decide +kernel

namespace Engine

/-- The family comes to the point where the parent has failed. -/
theorem family_fails : ∃ e₀ log e t, ∃ touch one : Method, Initial e₀ ∧ Runs e₀ log e ∧
    (e.controls t).tasks = [] ∧ (touch.isStatic = true ∧ touch.owner = 23) ∧
    e.phase? 23 = some .failed ∧ one.owner = 24 ∧ e.registry.superclass? 24 = some 23 ∧
    (e.world.execute t (.ofCall one [])).1 = .value (some (.int 1)) ∧
    ∃ log' e', Runs e₀ log' e' ∧ e'.starting? t = some 25 ∧ e'.phase? 23 = some .failed ∧
      e'.registry.superclass? 25 = some 24 ∧ e'.registry.superclass? 24 = some 23 := by
  obtain ⟨⟨t, w⟩, hfamily, hfacts⟩ := (any_eq_true _ _).mp family_runs
  obtain ⟨touch, -, hfacts⟩ := (any_eq_true _ _).mp hfacts
  obtain ⟨one, -, hfacts⟩ := (any_eq_true _ _).mp hfacts
  obtain ⟨two, -, hfacts⟩ := (any_eq_true _ _).mp hfacts
  have hinitial := initial_of_defined (World.loading?_some hfamily).1
  simp only [failsAmidChildren, Bool.and_eq_true, beq_iff_eq] at hfacts
  obtain ⟨⟨⟨⟨⟨⟨⟨⟨⟨⟨hdone, hstatic⟩, howner⟩, hone⟩, hs₁⟩, hs₂⟩, hs₃⟩, hfailed₁⟩, hfailed₂⟩, hvalue⟩,
    hstart⟩ := hfacts
  have hturn : ∀ e, (∃ log, Runs ⟨w, fun _ => ⟨[], none⟩⟩ log e) → ∃ log, Runs _ log (e.turn t) :=
    fun e ⟨log, h⟩ => ⟨_, h.step (.turn t)⟩
  obtain ⟨log, hruns⟩ := of_run hturn ⟨_, Runs.here.step (.call t touch [] rfl)⟩ (fun _ _ => false)
    stepLimit
  generalize run t (fun _ _ => false) stepLimit w (.ofCall touch []) = p₁ at *
  obtain ⟨w₁, c₁⟩ := p₁
  have hidle : (Function.update (fun _ => (⟨[], none⟩ : Control)) t c₁ t).tasks = [] := by
    rw [Function.update_self]
    exact List.isEmpty_iff.mp hdone
  obtain ⟨log', hruns'⟩ := of_run hturn ⟨_, hruns.step (.call t two [] hidle)⟩ (fun _ _ => false) 4
  rw [Function.update_idem] at hruns'
  exact ⟨_, log, _, t, touch, one, hinitial, hruns, hidle, ⟨hstatic, howner⟩, hfailed₁, hone, hs₁,
    hvalue, log', _, hruns', hstart, hfailed₂, hs₃, hs₂⟩

/-- When the parent has failed, a request for it is refused. -/
theorem initializes_once_and_in_order_family : ∃ e₀ log e t c rest, Initial e₀ ∧ Runs e₀ log e ∧
    e.controls t = ⟨.prepare c .request :: rest, none⟩ ∧ e.Doomed c ∧ log.Nodup ∧
    ∃ run, Fair run ∧ run 0 = e ∧ ∃ k x, (run k).controls t = ⟨rest, some (.thrown x)⟩ ∧
      Refusal (run k).world x := by
  obtain ⟨e₀, log, e, t, touch, one, hinitial, hruns, hidle, ⟨hstatic, howner⟩, hfailed, -⟩ :=
    family_fails
  have hruns' := hruns.step (.call t touch [] hidle)
  obtain ⟨hnodup, -, -, -, hrefused⟩ := initializes_once_and_in_order hinitial hruns'
  have hrequest : Function.update e.controls t (.ofCall touch []) t =
      ⟨.prepare 23 .request :: [.deferred touch.id []], none⟩ := by
    rw [Function.update_self, Control.ofCall, if_pos hstatic, howner]
  obtain ⟨run, hfair, hfirst⟩ := exists_fair ⟨e.world, Function.update e.controls t (.ofCall touch [])⟩
  obtain ⟨k, x, hcontrol, hx, -⟩ := hrefused t 23 _ run hrequest (.failed hfailed) hfair hfirst
  exact ⟨e₀, _, _, t, 23, _, hinitial, hruns', hrequest, .failed hfailed, hnodup, run, hfair, hfirst,
    k, x, hcontrol, hx⟩

/-- The parent has failed, and yet the child, which was initialized before, can be used. Below the
child, the initializer of the grandchild starts. -/
theorem child_ready_under_failed_parent : ∃ e₀ log e t, ∃ one : Method, Initial e₀ ∧
    Runs e₀ log e ∧ e.phase? 23 = some .failed ∧ e.registry.Above one.owner 23 ∧
    (e.world.execute t (.ofCall one [])).1 = .value (some (.int 1)) ∧
    ∃ log' e' c, Runs e₀ log' e' ∧ e'.starting? t = some c ∧ e'.registry.Above c 23 ∧
      e'.phase? 23 = some .failed := by
  obtain ⟨e₀, log, e, t, -, one, hinitial, hruns, -, -, hfailed, howner, hsuper, hvalue, log', e',
    hruns', hstart, hfailed', hsuper', hsuper''⟩ := family_fails
  refine ⟨e₀, log, e, t, one, hinitial, hruns, hfailed, ?_, hvalue, log', e', 25, hruns', hstart, ?_,
    hfailed'⟩
  · rw [howner]
    exact .single hsuper
  · exact .tail (.single hsuper') hsuper''

end Engine

end ManagedCore
