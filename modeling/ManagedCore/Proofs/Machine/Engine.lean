import ManagedCore.Proofs.Machine.Requests

/-!
# Engines with many threads

The threads of an engine share its world and take turns in any order. Between turns, threads that
are done are given calls, classes are defined, and things happen that have no part in static
initialization. Whatever the order, the stacks of all threads agree with the phases of the classes,
and so no initializer is started twice.
-/

namespace ManagedCore

open Registry List

/-- A world with the control states of all threads. -/
structure Engine where
  world : World
  controls : ThreadId → Control

namespace Engine

def registry (e : Engine) : Registry := e.world.registry

def phase? (e : Engine) (c : ClassId) : Option InitPhase := (e.registry.class? c).map (·.init)

def turn (e : Engine) (t : ThreadId) : Engine :=
  let next := step t e.world (e.controls t)
  ⟨next.1, Function.update e.controls t next.2⟩

/-- The class whose initializer a turn starts: its request puts a call on top of itself. -/
def starting? (e : Engine) (t : ThreadId) : Option ClassId :=
  match (e.controls t).tasks, (e.turn t).controls t with
  | .prepare c _ :: _, ⟨.call _ _ :: _, none⟩ => some c
  | _, _ => none

/-- What can happen next, with the classes whose initializers are started by it. Requests are made
for classes that are there, so none that comes in is asked for already. -/
inductive Step (e : Engine) : List ClassId → Engine → Prop where
  | turn (t : ThreadId) : Step e (e.starting? t).toList (e.turn t)
  | call (t : ThreadId) (m : Method) (args : List Value) : (e.controls t).tasks = [] →
      Step e [] ⟨e.world, Function.update e.controls t (.ofCall m args)⟩
  | define (d : ClassDef) :
      (∀ t c stage, .prepare c stage ∈ (e.controls t).tasks → (e.phase? c).isSome) →
      Step e [] ⟨{ e.world with registry := (e.registry.define d).2 }, e.controls⟩
  | outside {w : World} : e.world.Calm w → Step e [] ⟨w, e.controls⟩

/-- The engine comes to a state, with the initializers that are started on the way. -/
inductive Runs (e : Engine) : List ClassId → Engine → Prop where
  | here : Runs e [] e
  | step {log started : List ClassId} {e₁ e₂ : Engine} : Runs e log e₁ → Step e₁ started e₂ →
      Runs e (log ++ started) e₂

/-- No thread has been given a call, and no class has been asked for. -/
structure Initial (e : Engine) : Prop where
  core : core.Later e.registry
  fresh : e.registry.Fresh
  idle : ∀ t, (e.controls t).tasks = []

/-- All stacks agree with the phases of the classes. -/
structure Sound (e : Engine) : Prop where
  core : core.Later e.registry
  settled : e.registry.Settled
  threads : ∀ t, (e.controls t).Sound e.registry t

section

variable {e e' : Engine} {t : ThreadId} {c : ClassId} {started : List ClassId} {p : InitPhase}
  {log : List ClassId} {cls : Class}

theorem phase_of_phase? (h : e.phase? c = some p) : e.registry.phase c = p := by
  unfold phase? at h
  rw [phase, h]
  rfl

theorem phase?_of_phase (hcls : e.registry.class? c = some cls)
    (h : e.registry.phase c = p) : e.phase? c = some p := by
  rw [phase?, hcls, ← h, phase_of_class hcls]
  rfl

theorem phase?_keeps (hkeeps : e.registry.Keeps e'.registry)
    (hcls : e.registry.class? c = some cls) (h : e'.registry.phase c = p) :
    e'.phase? c = some p := by
  obtain ⟨cls', hcls', -⟩ := hkeeps.classes c cls hcls
  exact phase?_of_phase hcls' h

theorem controls_turn (e : Engine) (t : ThreadId) :
    (e.turn t).controls t = (ManagedCore.step t e.world (e.controls t)).2 :=
  Function.update_self ..

theorem controls_turn_of_ne {k : ThreadId} (h : k ≠ t) : (e.turn t).controls k = e.controls k :=
  Function.update_of_ne h ..

namespace Sound

variable {started : List ClassId}

section

variable (h : e.Sound)

include h

theorem orderly : e.registry.Orderly :=
  Built.orderly (Later.trans built_core h.core)

theorem moves (t : ThreadId) :
    Moves t e.world (e.controls t) (e.turn t).world ((e.turn t).controls t) :=
  controls_turn e t ▸ moves_step (h.threads t)

theorem advances (t : ThreadId) : Advances t e.world (e.turn t).world :=
  (h.moves t).advances (h.threads t)

theorem turn (t : ThreadId) : (e.turn t).Sound := by
  have hadv := h.advances t
  refine ⟨h.core.trans hadv.onward.registry.later,
    (h.moves t).settled (h.threads t) h.orderly h.settled, fun k => ?_⟩
  by_cases hk : k = t
  · subst hk
    exact (h.moves k).sound (h.threads k) h.orderly h.settled
  · rw [controls_turn_of_ne hk]
    exact (h.threads k).onward h.orderly hadv.onward.registry (fun c _ => hadv.initialized c)
      (hadv.others k hk)

theorem call (m : Method) (args : List Value) (hidle : (e.controls t).tasks = []) :
    Sound ⟨e.world, Function.update e.controls t (.ofCall m args)⟩ := by
  refine ⟨h.core, h.settled, fun k => ?_⟩
  by_cases hk : k = t
  · subst hk
    have howner : ∀ c, e.registry.phase c = .running k ↔ c ∈ [] := by
      have howner := (h.threads k).owner
      rw [hidle] at howner
      exact howner
    dsimp only
    rw [Function.update_self]
    unfold Control.ofCall
    split
    · exact .of_acting trivial ⟨trivial, trivial⟩ .nil howner
    · exact .of_acting trivial trivial .nil howner
  · dsimp only
    rw [Function.update_of_ne hk]
    exact h.threads k

theorem define (d : ClassDef)
    (hknown : ∀ t c stage, .prepare c stage ∈ (e.controls t).tasks → (e.phase? c).isSome) :
    Sound ⟨{ e.world with registry := (e.registry.define d).2 }, e.controls⟩ := by
  have honward : e.registry.Onward (e.registry.define d).2 := .define _ d
  refine ⟨h.core.trans honward.later, h.settled.onward h.orderly honward ?_ ?_, fun t =>
    (h.threads t).onward h.orderly honward ?_ ?_⟩
  · intro n c hc ha hinit
    rcases define_plain hc ha with hold | hnew
    · exact hold
    · cases hinit.symm.trans hnew
  · intro c hinit hbefore
    rcases define_phase e.registry d c with hsame | ⟨hnone, -⟩
    · exact absurd (hsame.symm.trans hinit) hbefore
    · exact absurd (phase_of_missing hnone) hbefore
  · intro c hc hinit
    obtain ⟨p, hp⟩ := Option.isSome_iff_exists.mp (hknown t c _ hc)
    obtain ⟨cls, hcls, -⟩ := Option.map_eq_some_iff.mp hp
    exact honward.initialized c cls hcls hinit
  · intro c
    rcases define_phase e.registry d c with hsame | ⟨hnone, hnew⟩
    · exact Eq.congr_left hsame
    · have hbefore := phase_of_missing hnone
      constructor <;> intro hrunning
      · cases hnew.symm.trans hrunning
      · cases hbefore.symm.trans hrunning

theorem outside {w : World} (hcalm : e.world.Calm w) : Sound ⟨w, e.controls⟩ := by
  have honward : e.registry.Onward w.registry := .of_samePhases hcalm.later hcalm.phases
  refine ⟨h.core.trans hcalm.later, h.settled.onward h.orderly honward ?_ ?_, fun t =>
    (h.threads t).onward h.orderly honward (fun c _ hc => (hcalm.phases.phase c).trans hc) fun c => ?_⟩
  · exact fun n c hc ha _ => hcalm.phases.plain n c hc ha
  · exact fun c hinit hbefore => absurd ((hcalm.phases.phase c).symm.trans hinit) hbefore
  · exact Eq.congr_left (hcalm.phases.phase c)

theorem step (hstep : Step e started e') : e'.Sound := by
  cases hstep with
  | turn t => exact h.turn t
  | call t m args hidle => exact h.call m args hidle
  | define d hknown => exact h.define d hknown
  | outside hcalm => exact h.outside hcalm

theorem onward (hstep : Step e started e') : e.world.Onward e'.world := by
  cases hstep with
  | turn t => exact (h.advances t).onward
  | call => exact .of_calm .refl
  | define d _ => exact ⟨rfl, .refl, .define _ d⟩
  | outside hcalm => exact .of_calm hcalm

/-- A class stays initialized, and it stays failed. -/
theorem phase_stays (hstep : Step e started e')
    (hp : p = .initialized ∨ p = .failed) (hc : e.phase? c = some p) : e'.phase? c = some p := by
  obtain ⟨cls, hcls, -⟩ := Option.map_eq_some_iff.mp hc
  have honward := (h.onward hstep).registry
  refine phase?_keeps honward.later.keeps hcls ?_
  rcases hp with rfl | rfl
  · exact honward.initialized c cls hcls (phase_of_phase? hc)
  · exact honward.failed c (phase_of_phase? hc)

end

end Sound

theorem Initial.sound (h : e.Initial) : e.Sound := by
  refine ⟨h.core, fun c cls hcls ha hinit => ?_, fun t => ⟨?_, ?_, ?_, fun k => ?_⟩⟩
  · rw [phase_of_class hcls, h.fresh c cls hcls, ha] at hinit
    cases hinit
  · intro task rest htasks
    rw [h.idle t] at htasks
    cases htasks
  · intro o _
    rw [h.idle t]
    trivial
  · rw [h.idle t]
    exact .nil
  · rw [h.idle t]
    refine ⟨fun hrunning => ?_, nofun⟩
    obtain ⟨cls, hcls⟩ := class_of_phase (by
      rw [hrunning]
      nofun)
    rw [phase_of_class hcls, h.fresh k cls hcls] at hrunning
    split at hrunning <;> cases hrunning

theorem Sound.runs (h : e.Sound) (hruns : Runs e log e') : e'.Sound := by
  induction hruns with
  | here => exact h
  | step _ hstep ih => exact ih.step hstep

structure Stays (e e' : Engine) : Prop where
  phases : ∀ c p, e.phase? c = some p → e'.phase? c = some p
  controls : ∀ t, (e.controls t).tasks ≠ [] → e'.controls t = e.controls t

theorem Stays.mem (h : e.Stays e') {task : Task} (hmem : task ∈ (e.controls t).tasks) :
    task ∈ (e'.controls t).tasks := by
  rwa [h.controls t (ne_nil_of_mem hmem)]

theorem Step.turn_or_stays (h : Step e started e') :
    (∃ t, e' = e.turn t ∧ started = (e.starting? t).toList) ∨ started = [] ∧ e.Stays e' := by
  cases h with
  | turn t => exact .inl ⟨t, rfl, rfl⟩
  | call t m args hidle =>
    refine .inr ⟨rfl, fun _ _ hp => hp, fun k hk => Function.update_of_ne ?_ ..⟩
    rintro rfl
    exact hk hidle
  | define d _ =>
    refine .inr ⟨rfl, fun c p hp => ?_, fun _ _ => rfl⟩
    obtain ⟨cls, hcls, -⟩ := Option.map_eq_some_iff.mp hp
    refine phase?_keeps (Onward.define e.registry d).later.keeps hcls ?_
    rcases define_phase e.registry d c with hsame | ⟨hnone, -⟩
    · exact hsame.trans (phase_of_phase? hp)
    · cases hcls.symm.trans hnone
  | outside hcalm =>
    refine .inr ⟨rfl, fun c p hp => ?_, fun _ _ => rfl⟩
    obtain ⟨cls, hcls, -⟩ := Option.map_eq_some_iff.mp hp
    exact phase?_keeps hcalm.later.keeps hcls ((hcalm.phases.phase c).trans (phase_of_phase? hp))

/-! ## Initializers start once -/

def Begun (e : Engine) (c : ClassId) : Prop :=
  e.phase? c = some .initialized ∨ e.phase? c = some .failed ∨
    ∃ t n, .prepare c (.body n) ∈ (e.controls t).tasks

theorem Sound.body_turn {n : Nat} (h : e.Sound)
    (hbody : .prepare c (.body n) ∈ (e.controls t).tasks) :
    .prepare c (.body n) ∈ ((e.turn t).controls t).tasks ∨
      (e.turn t).registry.phase c = .initialized ∨ (e.turn t).registry.phase c = .failed := by
  have hmoves := h.moves t
  have hsound := h.threads t
  generalize e.controls t = control at *
  obtain ⟨tasks, answer⟩ := control
  cases tasks with
  | nil => cases hbody
  | cons task rest =>
    rcases mem_cons.mp hbody with rfl | hmem
    · obtain ⟨o, heq⟩ := hmoves.leaves
      rw [heq] at hmoves
      rcases hmoves.settles hsound rfl with hinit | hfailed
      · exact .inr (.inl hinit)
      · exact .inr (.inr hfailed)
    · exact .inl (hmoves.suffix.mem hmem)

theorem Begun.step (h : e.Begun c) (hsound : e.Sound) (hstep : Step e started e') : e'.Begun c := by
  rcases h with hinit | hfailed | ⟨t, n, hbody⟩
  · exact .inl (hsound.phase_stays hstep (.inl rfl) hinit)
  · exact .inr (.inl (hsound.phase_stays hstep (.inr rfl) hfailed))
  · rcases hstep.turn_or_stays with ⟨k, rfl, -⟩ | ⟨-, hstays⟩
    · by_cases ht : t = k
      · subst ht
        obtain ⟨cls, hcls⟩ := (hsound.threads t).known hbody rfl
        have hkeeps := (hsound.advances t).onward.registry.later.keeps
        rcases hsound.body_turn hbody with hbody | hinit | hfailed
        · exact .inr (.inr ⟨t, n, hbody⟩)
        · exact .inl (phase?_keeps hkeeps hcls hinit)
        · exact .inr (.inl (phase?_keeps hkeeps hcls hfailed))
      · exact .inr (.inr ⟨t, n, by rwa [controls_turn_of_ne ht]⟩)
    · exact .inr (.inr ⟨t, n, hstays.mem hbody⟩)

/-- A turn starts the initializer of a class that is claimed and whose superclass is ready. -/
theorem Sound.starts (h : e.Sound) (hstart : e.starting? t = some c) :
    ∃ rest, Prepared e.registry c rest (e.controls t) ∧
      ∃ n, .prepare c (.body n) ∈ ((e.turn t).controls t).tasks := by
  have hmoves := h.moves t
  unfold starting? at hstart
  generalize e.controls t = control at *
  generalize (e.turn t).controls t = control' at *
  generalize (e.turn t).world = w' at hmoves
  cases hmoves with
  | plain _ htask =>
    split at hstart
    · rename_i heq _
      cases heq
      cases htask
    · cases hstart
  | start m n hprepared =>
    have hbody : ∀ {d rest}, Task.prepare d (.body n) ∈ .call m [] :: .prepare d (.body n) :: rest :=
      mem_cons_of_mem _ mem_cons_self
    cases hprepared with
    | root hroot =>
      cases hstart
      exact ⟨_, .root hroot, n, hbody⟩
    | inherited v =>
      cases hstart
      exact ⟨_, .inherited v, n, hbody⟩
  | idle => cases hstart
  | pass => split at hstart <;> simp_all
  | _ => simp_all

theorem Sound.not_begun (h : e.Sound) {stage : InitStage}
    (hstage : stage = .claimed ∨ stage = .superclass)
    (hmem : .prepare c stage ∈ (e.controls t).tasks) : ¬e.Begun c := by
  have hclaims : stage.claims = true := by rcases hstage with rfl | rfl <;> rfl
  have hphase := (h.threads t).phase_of_claim hmem hclaims
  rintro (hinit | hfailed | ⟨k, n, hbody⟩)
  · cases hphase.symm.trans (phase_of_phase? hinit)
  · cases hphase.symm.trans (phase_of_phase? hfailed)
  · cases hphase.symm.trans ((h.threads k).phase_of_claim hbody rfl)
    rcases hstage with rfl | rfl <;> cases stage_unique (h.threads t).distinct hmem rfl hbody rfl

/-- Along a run, no initializer is started twice. -/
theorem Sound.runs_log (h : e.Sound) (hruns : Runs e log e') :
    log.Nodup ∧ ∀ c ∈ log, e'.Begun c := by
  induction hruns with
  | here => exact ⟨.nil, nofun⟩
  | @step log started e₁ e₂ hruns hstep ih =>
    have hsound := h.runs hruns
    obtain ⟨hnodup, hbegun⟩ := ih
    have hkept : ∀ c ∈ log, e₂.Begun c := fun c hc => (hbegun c hc).step hsound hstep
    have hnew : started = [] ∨ ∃ c, started = [c] ∧ ¬e₁.Begun c ∧ e₂.Begun c := by
      rcases hstep.turn_or_stays with ⟨t, rfl, rfl⟩ | ⟨rfl, -⟩
      · cases hstart : e₁.starting? t with
        | none => exact .inl rfl
        | some c =>
          obtain ⟨rest, hprepared, n, hbody⟩ := hsound.starts hstart
          obtain ⟨stage, hstage, htasks⟩ := hprepared.claim
          exact .inr ⟨c, rfl, hsound.not_begun hstage (htasks ▸ mem_cons_self),
            .inr (.inr ⟨t, n, hbody⟩)⟩
      · exact .inl rfl
    rcases hnew with rfl | ⟨c, rfl, hfresh, hstarted⟩
    · rw [append_nil]
      exact ⟨hnodup, hkept⟩
    · refine ⟨nodup_append.mpr ⟨hnodup, pairwise_singleton _ c, ?_⟩, fun k hk => ?_⟩
      · rintro k hk d hd rfl
        exact hfresh (mem_singleton.mp hd ▸ hbegun k hk)
      · rcases mem_append.mp hk with hk | hk
        · exact hkept k hk
        · exact mem_singleton.mp hk ▸ hstarted

end

end Engine

end ManagedCore
