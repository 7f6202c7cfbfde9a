import ManagedCore.Proofs.Machine.Moves

/-!
# Requests for classes

A thread that asks for a class either finds it settled, waits, or claims it. It then holds the claim
until the superclass has been asked for and the initializer has run, so the claims of a thread are
the requests on its stack that have got that far, and every class in progress is claimed once.

What a thread on its own can do is said by `Moves`. What its stack looks like is said by `Sound`,
where the request of a class stands under that of its superclass until the answer is there.
-/

namespace ManagedCore

open Control ManagedCore.Task Registry World List

variable {c : ClassId} {n : Nat} {p : InitPhase} {o : Outcome} {r : Registry} {stage : InitStage}
  {rest : List Task}

/-! ## Claims -/

/-- Stages in which the class is claimed by the request. -/
def InitStage.claims : InitStage → Bool
  | claimed | superclass | body _ => true
  | _ => false

def InitStage.isOpen : InitStage → Bool
  | request | waiting => true
  | _ => false

theorem InitStage.not_claims_of_isOpen (h : stage.isOpen = true) : stage.claims = false := by
  cases stage with
  | request | waiting => rfl
  | _ => cases h

def Task.claim? : Task → Option ClassId
  | .prepare c stage => if stage.claims then some c else none
  | _ => none

def claims (tasks : List Task) : List ClassId := tasks.filterMap claim?

section

variable {c : ClassId} {task : Task} {tasks rest : List Task}

theorem claim_of_not_request (h : task.isRequest = false) : task.claim? = none := by
  cases task with
  | prepare c stage => cases h
  | _ => rfl

theorem claims_cons_of_not_request (h : task.isRequest = false) :
    claims (task :: rest) = claims rest := by
  rw [claims, filterMap_cons_none (claim_of_not_request h), claims]

theorem claims_cons_claim (stage : InitStage) (h : stage.claims = true) :
    claims (.prepare c stage :: rest) = c :: claims rest :=
  filterMap_cons_some (if_pos h)

theorem claims_cons_free (stage : InitStage) (h : stage.claims = false) :
    claims (.prepare c stage :: rest) = claims rest :=
  filterMap_cons_none (if_neg (by rw [h]; nofun))

theorem mem_claims_of_mem (h : .prepare c stage ∈ tasks)
    (hstage : stage.claims = true) : c ∈ claims tasks :=
  mem_filterMap.mpr ⟨_, h, if_pos hstage⟩

theorem exists_of_mem_claims (h : c ∈ claims tasks) :
    ∃ stage, stage.claims = true ∧ prepare c stage ∈ tasks := by
  obtain ⟨task, hmem, hclaim⟩ := mem_filterMap.mp h
  cases task with
  | prepare d stage =>
    change (if stage.claims then some d else none) = some c at hclaim
    split at hclaim
    · rename_i hstage
      cases hclaim
      exact ⟨stage, hstage, hmem⟩
    · cases hclaim
  | _ => cases hclaim

theorem claims_subset (h : rest <:+ tasks) (hc : c ∈ claims rest) : c ∈ claims tasks := by
  obtain ⟨upper, rfl⟩ := h
  unfold claims
  rw [filterMap_append]
  exact mem_append_right _ hc

/-- A class is claimed by one request of a stack only. -/
theorem stage_unique {stage stage' : InitStage} (hnodup : (claims tasks).Nodup)
    (h : .prepare c stage ∈ tasks) (hstage : stage.claims = true)
    (h' : .prepare c stage' ∈ tasks) (hstage' : stage'.claims = true) : stage = stage' := by
  induction tasks with
  | nil => cases h
  | cons task rest ih =>
    have hrest : (claims rest).Nodup := by
      unfold claims at hnodup
      rw [filterMap_cons] at hnodup
      split at hnodup
      · exact hnodup
      · exact (nodup_cons.mp hnodup).2
    rcases mem_cons.mp h with rfl | hmem
    · rw [claims_cons_claim _ hstage] at hnodup
      rcases mem_cons.mp h' with heq | hmem'
      · cases heq
        rfl
      · exact absurd (mem_claims_of_mem hmem' hstage') (nodup_cons.mp hnodup).1
    · rcases mem_cons.mp h' with rfl | hmem'
      · rw [claims_cons_claim _ hstage'] at hnodup
        exact absurd (mem_claims_of_mem hmem hstage) (nodup_cons.mp hnodup).1
      · exact ih hrest hmem hmem'

end

/-! ## Stacks -/

def Ready (r : Registry) (tasks : List Task) (c : ClassId) : Prop :=
  r.phase c = .initialized ∨ c ∈ claims tasks

/-- A request for the class stands above the tasks, or it has been answered. -/
def Awaits (r : Registry) (tasks : List Task) (s : ClassId) : Task ⊕ Outcome → Prop
  | .inl task => ∃ stage, task = .prepare s stage
  | .inr (.value _) => Ready r tasks s
  | .inr _ => True

/-- What holds of a task that is not on top, given what stands above it: the next task, or the
answer of one that is gone. -/
def Below (r : Registry) (above : Task ⊕ Outcome) (rest : List Task) : Task → Prop
  | .prepare c .superclass =>
      ∃ s, r.superclass? c = some s ∧ Awaits r (.prepare c .superclass :: rest) s above
  | .prepare c (.body n) =>
      (∀ s, r.superclass? c = some s → Ready r (.prepare c (.body n) :: rest) s) ∧
      ∀ s, r.Above c s → r.phase s ≠ .uninitialized
  | .prepare _ _ => False
  | _ => True

def Stacked (r : Registry) : Task ⊕ Outcome → List Task → Prop
  | _, [] => True
  | above, task :: rest => Below r above rest task ∧ Stacked r (.inl task) rest

def Acting (r : Registry) (rest : List Task) : Task → Prop
  | .prepare c .ready => Ready r rest c
  | .prepare c .refused => r.phase c = .failed
  | .prepare _ .superclass | .prepare _ (.body _) => False
  | _ => True

/-- The tasks of a thread agree with the phases of the classes. -/
structure Control.Sound (r : Registry) (t : ThreadId) (c : Control) : Prop where
  acting : ∀ task rest, c.tasks = task :: rest → c.answer = none →
    Acting r rest task ∧ Stacked r (.inl task) rest
  answered : ∀ o, c.answer = some o → Stacked r (.inr o) c.tasks
  distinct : (claims c.tasks).Nodup
  owner : ∀ k, r.phase k = .running t ↔ k ∈ claims c.tasks

section

variable {r r' : Registry} {t : ThreadId} {c : ClassId} {task : Task} {rest tasks : List Task}
  {above : Task ⊕ Outcome} {stage : InitStage}

/-- What stands above matters only to a task that waits for it. -/
theorem Stacked.over {above' : Task ⊕ Outcome} (h : Stacked r above tasks)
    (hover : ∀ s, Awaits r tasks s above → Awaits r tasks s above') : Stacked r above' tasks := by
  cases tasks with
  | nil => trivial
  | cons below rest =>
    refine ⟨?_, h.2⟩
    have hbelow := h.1
    cases below with
    | prepare c stage =>
      cases stage with
      | superclass =>
        obtain ⟨s, hs, hawaits⟩ := hbelow
        exact ⟨s, hs, hover s hawaits⟩
      | _ => exact hbelow
    | _ => exact hbelow

theorem Stacked.swap (h : Stacked r (.inl task) rest) (htask : task.isRequest = false)
    (above : Task ⊕ Outcome) : Stacked r above rest := by
  refine h.over fun s hawaits => ?_
  obtain ⟨stage, rfl⟩ := hawaits
  cases htask

theorem Stacked.restage (h : Stacked r (.inl (.prepare c stage)) rest) (stage' : InitStage) :
    Stacked r (.inl (.prepare c stage')) rest := by
  refine h.over fun s hawaits => ?_
  obtain ⟨stage, heq⟩ := hawaits
  cases heq
  exact ⟨stage', rfl⟩

/-- A request on top may be answered, with a value only if the class is ready. -/
theorem Stacked.answer (h : Stacked r (.inl (.prepare c stage)) rest)
    (ho : ∀ v, o = .value v → Ready r rest c) : Stacked r (.inr o) rest := by
  refine h.over fun s hawaits => ?_
  obtain ⟨stage, heq⟩ := hawaits
  cases heq
  cases o with
  | value v => exact ho v rfl
  | _ => trivial

section

variable (h : Stacked r above tasks)

include h

/-- Requests that are not on top wait for the superclass or for the initializer. -/
theorem Stacked.stage_of_mem (hmem : .prepare c stage ∈ tasks) :
    stage = .superclass ∨ ∃ n, stage = .body n := by
  induction tasks generalizing above with
  | nil => cases hmem
  | cons task rest ih =>
    rcases mem_cons.mp hmem with rfl | hmem
    · have hbelow := h.1
      cases stage with
      | superclass => exact .inl rfl
      | body n => exact .inr ⟨n, rfl⟩
      | _ => exact hbelow.elim
    · exact ih h.2 hmem

theorem Stacked.claims_of_mem (hmem : .prepare c stage ∈ tasks) : c ∈ claims tasks := by
  refine mem_claims_of_mem hmem ?_
  rcases h.stage_of_mem hmem with rfl | ⟨n, rfl⟩ <;> rfl

/-- A request that waits for the superclass stands under a claim of it, or is next to go on. -/
theorem Stacked.superclass (hmem : .prepare c .superclass ∈ tasks) : ∃ s, r.superclass? c = some s ∧
      (s ∈ claims tasks ∨ ∃ rest, tasks = .prepare c .superclass :: rest ∧
        Below r above rest (.prepare c .superclass)) := by
  induction tasks generalizing above with
  | nil => cases hmem
  | cons task rest ih =>
    rcases mem_cons.mp hmem with rfl | hmem
    · obtain ⟨s, hs, -⟩ := h.1
      exact ⟨s, hs, .inr ⟨rest, rfl, h.1⟩⟩
    · obtain ⟨s, hs, hclaimed | ⟨rest', rfl, hbelow⟩⟩ := ih h.2 hmem
      · exact ⟨s, hs, .inl (claims_subset (suffix_cons _ _) hclaimed)⟩
      · obtain ⟨s', hs', stage, rfl⟩ := hbelow
        cases hs.symm.trans hs'
        exact ⟨s, hs, .inl (h.claims_of_mem mem_cons_self)⟩

/-- Above a class whose initializer runs, the superclass is ready, and every class has been asked
for. -/
theorem Stacked.body (hmem : .prepare c (.body n) ∈ tasks) :
    (∀ s, r.superclass? c = some s → Ready r tasks s) ∧
      ∀ s, r.Above c s → r.phase s ≠ .uninitialized := by
  induction tasks generalizing above with
  | nil => cases hmem
  | cons task rest ih =>
    rcases mem_cons.mp hmem with rfl | hmem
    · exact h.1
    · obtain ⟨hready, habove⟩ := ih h.2 hmem
      exact ⟨fun s hs => (hready s hs).imp_right (claims_subset (suffix_cons _ _)), habove⟩

end

/-- Behind a good answer, the superclass of every claimed class is ready. -/
theorem Stacked.ready {v : Option Value} {k s : ClassId} (h : Stacked r (.inr (.value v)) tasks)
    (hk : k ∈ claims tasks) (hs : r.superclass? k = some s) : Ready r tasks s := by
  obtain ⟨stage, -, hmem⟩ := exists_of_mem_claims hk
  rcases h.stage_of_mem hmem with rfl | ⟨n, rfl⟩
  · obtain ⟨s', hs', hclaimed | ⟨rest, rfl, hbelow⟩⟩ := h.superclass hmem
    · rw [hs, Option.some.injEq] at hs'
      exact .inr (hs' ▸ hclaimed)
    · obtain ⟨s'', hs'', hready⟩ := hbelow
      rw [hs, Option.some.injEq] at hs''
      exact hs'' ▸ hready
  · exact (h.body hmem).1 s hs

end

/-! ## Moves -/

/-- A claimed class whose superclass is ready, if it has one. -/
inductive Prepared (r : Registry) (c : ClassId) (rest : List Task) : Control → Prop where
  | root : r.superclass? c = none → Prepared r c rest ⟨.prepare c .claimed :: rest, none⟩
  | inherited (v : Option Value) :
      Prepared r c rest ⟨.prepare c .superclass :: rest, some (.value v)⟩

theorem Prepared.claim {control : Control} (h : Prepared r c rest control) :
    ∃ stage, (stage = .claimed ∨ stage = .superclass) ∧ control.tasks = .prepare c stage :: rest := by
  cases h with
  | root => exact ⟨.claimed, .inl rfl, rfl⟩
  | inherited v => exact ⟨.superclass, .inr rfl, rfl⟩

/-- What a thread with a sound stack can do. -/
inductive Moves (t : ThreadId) (w : World) : Control → World → Control → Prop where
  | idle (answer : Option Outcome) : Moves t w ⟨[], answer⟩ w ⟨[], answer⟩
  | plain {task : Task} {rest : List Task} (answer : Option Outcome) {w' : World} {move : Move} :
      task.isRequest = false → w.Calm w' → move.Plain →
      Moves t w ⟨task :: rest, answer⟩ w' (move.apply rest)
  | allow {c : ClassId} {stage : InitStage} {rest : List Task} {w' : World} :
      stage.isOpen = true → w.registry.phase c = .initialized ∨ w.registry.phase c = .running t →
      w.Calm w' → Moves t w ⟨.prepare c stage :: rest, none⟩ w' ⟨.prepare c .ready :: rest, none⟩
  | refuse {c : ClassId} {stage : InitStage} {rest : List Task} {w' : World} :
      stage.isOpen = true → w.registry.phase c = .failed → w.Calm w' →
      Moves t w ⟨.prepare c stage :: rest, none⟩ w' ⟨.prepare c .refused :: rest, none⟩
  | claim {c : ClassId} {stage : InitStage} {rest : List Task} {w₁ w' : World} :
      stage.isOpen = true → w.registry.phase c = .uninitialized → w.Calm w₁ →
      (w₁.setInit c (.running t)).Calm w' →
      Moves t w ⟨.prepare c stage :: rest, none⟩ w' ⟨.prepare c .claimed :: rest, none⟩
  | wait {c : ClassId} {stage : InitStage} {rest : List Task} {w' : World} {owner : ThreadId} :
      stage.isOpen = true → w.registry.phase c = .running owner → owner ≠ t → w.Calm w' →
      Moves t w ⟨.prepare c stage :: rest, none⟩ w' ⟨.prepare c .waiting :: rest, none⟩
  | pass (c : ClassId) (rest : List Task) :
      Moves t w ⟨.prepare c .ready :: rest, none⟩ w ⟨rest, some (.value none)⟩
  | reject (c : ClassId) (rest : List Task) (text : Option String) :
      Moves t w ⟨.prepare c .refused :: rest, none⟩
        ((w.createException .noClassDefFound text).2.captureTrace t
          (w.createException .noClassDefFound text).1)
        ⟨rest, some (.thrown (w.createException .noClassDefFound text).1)⟩
  | climb {c s : ClassId} (rest : List Task) : w.registry.superclass? c = some s →
      Moves t w ⟨.prepare c .claimed :: rest, none⟩ w
        ⟨.prepare s .request :: .prepare c .superclass :: rest, none⟩
  | start {c : ClassId} {rest : List Task} {control : Control} (m : MethodId) (n : Nat)
      {w' : World} : Prepared w.registry c rest control → w.Calm w' →
      (∃ cls method, w.registry.class? c = some cls ∧
        w.registry.declared? cls "<clinit>" "()V" = some method ∧ method.id = m) →
      Moves t w control w' ⟨.call m [] :: .prepare c (.body n) :: rest, none⟩
  | finish {c : ClassId} {rest : List Task} {control : Control} {w₁ : World} :
      (Prepared w.registry c rest control ∨
        ∃ n v, control = ⟨.prepare c (.body n) :: rest, some (.value v)⟩) → w.Calm w₁ →
      Moves t w control (w₁.setInit c .initialized) ⟨rest, some (.value none)⟩
  | fail {c : ClassId} {stage : InitStage} {rest : List Task} {o : Outcome} {w₁ : World} :
      stage = .superclass ∨ (∃ n, stage = .body n) → (∀ v, o ≠ .value v) → w.Calm w₁ →
      Moves t w ⟨.prepare c stage :: rest, some o⟩ (w₁.setInit c .failed) ⟨rest, some o⟩

section

variable {t : ThreadId} {w w₁ : World} {c : ClassId} {rest : List Task} {control : Control}
  {stage : InitStage}

theorem moves_decide (hstage : stage.isOpen = true) (hcalm : w.Calm w₁) :
    Moves t w ⟨.prepare c stage :: rest, none⟩ (decideInit t w₁ c).1
      ((decideInit t w₁ c).2.apply rest) := by
  have hphase : ∀ {p}, ((w₁.registry.class? c).map (·.init)).getD .initialized = p →
      w.registry.phase c = p := fun h => (hcalm.phases.phase c).symm.trans h
  have hleft : w.Calm (w₁.leaveRegion t) := hcalm.trans (.leaveRegion t)
  unfold decideInit
  split <;> rename_i heq
  · exact .allow hstage (.inl (hphase heq)) hleft
  · exact .refuse hstage (hphase heq) hleft
  · exact .claim hstage (hphase heq) hcalm (.leaveRegion t)
  · split
    · rename_i howner
      exact .allow hstage (.inr (howner ▸ hphase heq)) hleft
    · rename_i howner
      exact .wait hstage (hphase heq) howner hcalm

theorem moves_initBody (h : Prepared w.registry c rest control) :
    Moves t w control (initBody t w c).1 ((initBody t w c).2.apply rest) := by
  unfold initBody
  split
  · rename_i m th hm _
    obtain ⟨cls, hcls, hm⟩ := Option.bind_eq_some_iff.mp hm
    exact .start m.id th.frames.size h (.modifyThread t _) ⟨cls, m, hcls, hm, rfl⟩
  · exact .finish (.inl h) .refl

theorem moves_endInit (hcalm : w.Calm w₁) (hstage : ∃ n, stage = .body n) :
    Moves t w ⟨.prepare c stage :: rest, some o⟩ (endInit w₁ c o).1
      ((endInit w₁ c o).2.apply rest) := by
  cases o with
  | value v =>
    obtain ⟨n, rfl⟩ := hstage
    exact .finish (.inr ⟨n, v, rfl⟩) hcalm
  | thrown | failed => exact .fail (.inr hstage) nofun hcalm

theorem moves_act (hacting : Acting w.registry rest (.prepare c stage)) :
    Moves t w ⟨.prepare c stage :: rest, none⟩ (actInit t w c stage).1
      ((actInit t w c stage).2.apply rest) := by
  cases stage with
  | request => exact moves_decide rfl (.enterRegion t)
  | waiting => exact moves_decide rfl .refl
  | ready => exact .pass c rest
  | refused => exact .reject c rest _
  | claimed =>
    unfold actInit
    dsimp only
    split <;> rename_i heq
    · exact .climb rest heq
    · exact moves_initBody (.root heq)
  | superclass | body => exact hacting.elim

theorem moves_receive (hbelow : Below w.registry (.inr o) rest (.prepare c stage)) :
    Moves t w ⟨.prepare c stage :: rest, some o⟩ (receiveInit t w c stage o).1
      ((receiveInit t w c stage o).2.apply rest) := by
  cases stage with
  | superclass =>
    cases o with
    | value v => exact moves_initBody (.inherited v)
    | thrown | failed => exact .fail (.inl rfl) nofun .refl
  | body n => exact moves_endInit (.modifyThread t _) ⟨n, rfl⟩
  | _ => exact hbelow.elim

theorem moves_step (h : control.Sound w.registry t) :
    Moves t w control (step t w control).1 (step t w control).2 := by
  obtain ⟨tasks, answer⟩ := control
  cases tasks with
  | nil => exact .idle answer
  | cons task rest =>
    by_cases hrequest : task.isRequest = true
    · cases task with
      | prepare c stage =>
        cases answer with
        | none => exact moves_act (h.acting _ rest rfl rfl).1
        | some o => exact moves_receive (h.answered o rfl).1
      | _ => cases hrequest
    · rw [Bool.not_eq_true] at hrequest
      cases answer with
      | none =>
        obtain ⟨hcalm, hplain⟩ := plainly_act lenient_calm t w hrequest fun a _ =>
          a.evaluates_calm t w
        exact .plain none hrequest hcalm hplain
      | some o =>
        obtain ⟨hcalm, hplain⟩ := plainly_receive lenient_calm t w hrequest o
        exact .plain (some o) hrequest hcalm hplain

end

/-! ## How phases advance -/

theorem Registry.class_of_phase (h : r.phase c ≠ .initialized) : ∃ cls, r.class? c = some cls := by
  cases hc : r.class? c with
  | some cls => exact ⟨cls, rfl⟩
  | none =>
    rw [phase, hc] at h
    exact absurd rfl h

theorem World.phase_setInit {w : World} (h : w.registry.phase c ≠ .initialized)
    (k : ClassId) : (w.setInit c p).registry.phase k = if k = c then p else w.registry.phase k := by
  obtain ⟨cls, hcls⟩ := class_of_phase h
  change (((w.registry.modifyClass c fun c => { c with init := p }).class? k).map (·.init)).getD _ = _
  rw [class_modifyClass]
  split
  · rename_i hk
    rw [hk, hcls]
    rfl
  · rfl

/-- What every event in an engine leaves alone. -/
structure World.Onward (w w' : World) : Prop where
  outOfMemory : w'.outOfMemory = w.outOfMemory
  heap : w.heap.Keeps w'.heap
  registry : w.registry.Onward w'.registry

theorem World.Onward.of_calm {w w' : World} (h : w.Calm w') : w.Onward w' :=
  ⟨h.outOfMemory, h.heap, .of_samePhases h.later h.phases⟩

/-- What a thread may do to the classes, as seen by all threads. -/
structure Advances (t : ThreadId) (w w' : World) : Prop where
  onward : w.Onward w'
  initialized : ∀ k, w.registry.phase k = .initialized → w'.registry.phase k = .initialized
  plain : ∀ n c, w'.registry.class? n = some c → c.isArray = false →
    ∃ c', w.registry.class? n = some c' ∧ c'.isArray = false
  others : ∀ t', t' ≠ t → ∀ k, w'.registry.phase k = .running t' ↔ w.registry.phase k = .running t'

namespace Advances

variable {t : ThreadId} {w w' w'' : World}

theorem of_calm (h : w.Calm w') : Advances t w w' where
  onward := .of_calm h
  initialized k hk := (h.phases.phase k).trans hk
  plain := h.phases.plain
  others _ _ k := by rw [h.phases.phase k]

theorem trans (h : Advances t w w') (h' : Advances t w' w'') : Advances t w w'' where
  onward := ⟨h'.onward.outOfMemory.trans h.onward.outOfMemory, h.onward.heap.trans h'.onward.heap,
    h.onward.registry.trans h'.onward.registry⟩
  initialized k hk := h'.initialized k (h.initialized k hk)
  plain n c hc ha := by
    obtain ⟨c', hc', ha'⟩ := h'.plain n c hc ha
    exact h.plain n c' hc' ha'
  others t' ht k := (h'.others t' ht k).trans (h.others t' ht k)

theorem setInit {c : ClassId} (h : w.registry.phase c = .uninitialized ∧ p = .running t ∨
      w.registry.phase c = .running t ∧ (p = .initialized ∨ p = .failed)) :
    Advances t w (w.setInit c p) := by
  have hphase : ∀ k, (w.setInit c p).registry.phase k =
      if k = c then p else w.registry.phase k := by
    apply phase_setInit
    rcases h with ⟨h, -⟩ | ⟨h, -⟩ <;> rw [h] <;> nofun
  refine ⟨⟨rfl, .refl, .change c .same fun _ => rfl, fun k _ _ hk => ?_, fun k hk => ?_,
    fun k _ _ hk => ?_⟩, fun k hk => ?_, fun n cls hcls ha => ?_, fun t' ht k => ?_⟩
  rotate_left 4
  · change (w.registry.modifyClass c _).class? n = some cls at hcls
    rw [class_modifyClass] at hcls
    split at hcls
    · obtain ⟨old, hold, rfl⟩ := Option.map_eq_some_iff.mp hcls
      exact ⟨old, hold, ha⟩
    · exact ⟨cls, hcls, ha⟩
  all_goals grind

end Advances

section

variable {t : ThreadId} {w w' : World} {control control' : Control} {r r' : Registry} {c : ClassId}
  {stage : InitStage} {task : Task} {a : Option Outcome} {o : Outcome}

theorem Control.Sound.phase_of_claim (h : control.Sound r t)
    (hmem : .prepare c stage ∈ control.tasks) (hstage : stage.claims = true) :
    r.phase c = .running t :=
  (h.owner c).mpr (mem_claims_of_mem hmem hstage)

theorem Control.Sound.known (h : control.Sound r t) (hmem : .prepare c stage ∈ control.tasks)
    (hstage : stage.claims = true) : ∃ cls, r.class? c = some cls := by
  refine class_of_phase ?_
  rw [h.phase_of_claim hmem hstage]
  nofun

theorem Moves.suffix (h : Moves t w ⟨task :: rest, a⟩ w' control') : rest <:+ control'.tasks := by
  cases h with
  | plain _ _ _ hplain =>
    cases hplain with
    | stay => exact suffix_cons _ _
    | push | ask => exact (suffix_cons _ _).trans (suffix_cons _ _)
    | leave => exact suffix_rfl
  | allow | refuse | claim | wait => exact suffix_cons _ _
  | pass | reject | fail => exact suffix_rfl
  | climb => exact (suffix_cons _ _).trans (suffix_cons _ _)
  | start m n hprepared =>
    cases hprepared <;> exact (suffix_cons _ _).trans (suffix_cons _ _)
  | finish hsource =>
    rcases hsource with (_ | _) | ⟨n, v, heq⟩
    · exact suffix_rfl
    · exact suffix_rfl
    · cases heq
      exact suffix_rfl

/-- A move leaves the phases alone, claims a class, or ends the claim on top. -/
theorem Moves.change (h : Moves t w control w' control') : w.Calm w' ∨
    (∃ c w₁, w.registry.phase c = .uninitialized ∧ w.Calm w₁ ∧
      (w₁.setInit c (.running t)).Calm w') ∨
    ∃ c stage rest w₁ p, control.tasks = .prepare c stage :: rest ∧ stage.claims = true ∧
      w.Calm w₁ ∧ w' = w₁.setInit c p ∧ (p = .failed ∨ p = .initialized ∧
        ((∃ n, stage = .body n) ∨ ∃ rest, Prepared w.registry c rest control)) := by
  cases h with
  | idle | pass | climb => exact .inl .refl
  | plain _ _ hcalm _ | allow _ _ hcalm | refuse _ _ hcalm | wait _ _ _ hcalm | start _ _ _ hcalm =>
    exact .inl hcalm
  | claim _ hphase hcalm hcalm' => exact .inr (.inl ⟨_, _, hphase, hcalm, hcalm'⟩)
  | reject => exact .inl (.raised t _ _)
  | finish hsource hcalm =>
    rcases hsource with hprepared | ⟨n, v, rfl⟩
    · obtain ⟨stage, hstage, htasks⟩ := hprepared.claim
      have hclaims : stage.claims = true := by rcases hstage with rfl | rfl <;> rfl
      exact .inr (.inr ⟨_, stage, _, _, _, htasks, hclaims, hcalm, rfl,
        .inr ⟨rfl, .inr ⟨_, hprepared⟩⟩⟩)
    · exact .inr (.inr ⟨_, _, _, _, _, rfl, rfl, hcalm, rfl, .inr ⟨rfl, .inl ⟨n, rfl⟩⟩⟩)
  | @fail _ stage _ _ _ hstage _ hcalm =>
    have hclaims : stage.claims = true := by rcases hstage with rfl | ⟨n, rfl⟩ <;> rfl
    exact .inr (.inr ⟨_, _, _, _, _, rfl, hclaims, hcalm, rfl, .inl rfl⟩)

theorem Moves.advances (h : Moves t w control w' control') (hsound : control.Sound w.registry t) :
    Advances t w w' := by
  rcases h.change with hcalm | ⟨c, w₁, hphase, hcalm, hcalm'⟩ |
    ⟨c, stage, rest, w₁, p, htasks, hstage, hcalm, rfl, hp⟩
  · exact .of_calm hcalm
  · exact ((Advances.of_calm hcalm).trans
      (.setInit (.inl ⟨(hcalm.phases.phase _).trans hphase, rfl⟩))).trans (.of_calm hcalm')
  · have hphase := hsound.phase_of_claim (htasks ▸ mem_cons_self) hstage
    exact (Advances.of_calm hcalm).trans
      (.setInit (.inr ⟨(hcalm.phases.phase _).trans hphase, hp.symm.imp And.left id⟩))

/-! ## Stacks stay sound -/

variable {rest tasks : List Task} {above : Task ⊕ Outcome} {s : ClassId}

theorem Ready.onward (hon : r.Onward r') {cls : Class} (hcls : r.class? c = some cls)
    (h : Ready r tasks c) : Ready r' tasks c :=
  h.imp_left (hon.initialized c cls hcls)

theorem Stacked.onward (hon : r.Onward r') (ho : r.Orderly)
    (hclaims : ∀ c ∈ claims tasks, r.phase c = .running t) (h : Stacked r above tasks) :
    Stacked r' above tasks := by
  have hkeeps := hon.later.keeps
  induction tasks generalizing above with
  | nil => trivial
  | cons task rest ih =>
    refine ⟨?_, ih (fun c hc => hclaims c (claims_subset (suffix_cons _ _) hc)) h.2⟩
    have hbelow := h.1
    cases task with
    | prepare c stage =>
      cases stage with
      | superclass =>
        obtain ⟨s, hs, habove⟩ := hbelow
        refine ⟨s, hkeeps.superclass hs, ?_⟩
        obtain ⟨scls, hscls, -⟩ := ho.above_plain (.single hs)
        unfold Awaits at habove ⊢
        split at habove
        · exact habove
        · exact Ready.onward hon hscls habove
        · trivial
      | body n =>
        obtain ⟨cls, hcls⟩ := class_of_phase (by
          rw [hclaims c (h.claims_of_mem mem_cons_self)]
          nofun)
        refine ⟨fun s hs => ?_, fun s hs => ?_⟩
        · have hs := hkeeps.superclass_back hcls hs
          obtain ⟨scls, hscls, -⟩ := ho.above_plain (.single hs)
          exact Ready.onward hon hscls (hbelow.1 s hs)
        · have hs := ho.above_back hkeeps hcls hs
          obtain ⟨scls, hscls, -⟩ := ho.above_plain hs
          exact hon.begun s scls hscls (hbelow.2 s hs)
      | _ => exact hbelow
    | _ => trivial

/-- What others do leaves the stack of a thread sound. -/
theorem Control.Sound.onward (h : control.Sound r t) (ho : r.Orderly) (hon : r.Onward r')
    (hready : ∀ c, .prepare c .ready ∈ control.tasks → r.phase c = .initialized →
      r'.phase c = .initialized)
    (howner : ∀ c, r'.phase c = .running t ↔ r.phase c = .running t) : control.Sound r' t where
  acting task rest htasks hanswer := by
    obtain ⟨hacting, hstacked⟩ := h.acting task rest htasks hanswer
    refine ⟨?_, hstacked.onward hon ho fun c hc => (h.owner c).mpr ?_⟩
    · cases task with
      | prepare c stage =>
        cases stage with
        | ready => exact hacting.imp_left (hready c (htasks ▸ mem_cons_self))
        | refused => exact hon.failed c hacting
        | _ => exact hacting
      | _ => trivial
    · rw [htasks]
      exact claims_subset (suffix_cons _ _) hc
  answered o hanswer := (h.answered o hanswer).onward hon ho fun c hc => (h.owner c).mpr hc
  distinct := h.distinct
  owner c := (howner c).trans (h.owner c)

theorem Control.Sound.of_acting (hacting : Acting r rest task)
    (hstacked : Stacked r (.inl task) rest) (hdistinct : (claims (task :: rest)).Nodup)
    (howner : ∀ c, r.phase c = .running t ↔ c ∈ claims (task :: rest)) :
    Sound r t ⟨task :: rest, none⟩ where
  acting _ _ htasks _ := by
    cases htasks
    exact ⟨hacting, hstacked⟩
  answered _ h := nomatch h
  distinct := hdistinct
  owner := howner

theorem Control.Sound.of_answer (hstacked : Stacked r (.inr o) tasks)
    (hdistinct : (claims tasks).Nodup) (howner : ∀ c, r.phase c = .running t ↔ c ∈ claims tasks) :
    Sound r t ⟨tasks, some o⟩ where
  acting _ _ _ h := nomatch h
  answered _ h := by
    cases h
    exact hstacked
  distinct := hdistinct
  owner := howner

theorem Control.Sound.under {answer : Option Outcome}
    (h : Sound r t ⟨task :: rest, answer⟩) : Stacked r (.inl task) rest := by
  cases answer with
  | none => exact (h.acting task rest rfl rfl).2
  | some o => exact (h.answered o rfl).2

/-- An initializer runs only if a class was prepared for it. -/
theorem Moves.body_origin (h : Moves t w control w' control')
    (hmem : .prepare c (.body n) ∈ control'.tasks) :
    .prepare c (.body n) ∈ control.tasks ∨ ∃ rest, Prepared w.registry c rest control := by
  -- Tasks that a move leaves below stood below before, and those that it puts on top are others.
  have hcons : ∀ {task : Task} {tasks : List Task}, .prepare c (.body n) ∈ task :: tasks →
      task ≠ .prepare c (.body n) → .prepare c (.body n) ∈ tasks :=
    fun hmem hne => (mem_cons.mp hmem).resolve_left hne.symm
  have hplain : ∀ {task : Task}, task.isRequest = false → task ≠ .prepare c (.body n) := by
    rintro _ h rfl
    cases h
  cases h with
  | idle => exact .inl hmem
  | plain _ _ _ hmove =>
    refine .inl (mem_cons_of_mem _ ?_)
    cases hmove with
    | stay htask => exact hcons hmem (hplain htask)
    | push habove htask => exact hcons (hcons hmem (hplain habove)) (hplain htask)
    | ask _ htask => exact hcons (hcons hmem nofun) (hplain htask)
    | leave => exact hmem
  | allow | refuse | claim | wait => exact .inl (mem_cons_of_mem _ (hcons hmem nofun))
  | pass | reject | fail => exact .inl (mem_cons_of_mem _ hmem)
  | climb => exact .inl (mem_cons_of_mem _ (hcons (hcons hmem nofun) nofun))
  | start m k hprepared =>
    rcases mem_cons.mp (hcons hmem nofun) with heq | hmem
    · cases heq
      exact .inr ⟨_, hprepared⟩
    · obtain ⟨stage, -, htasks⟩ := hprepared.claim
      exact .inl (htasks ▸ mem_cons_of_mem _ hmem)
  | finish hsource =>
    rcases hsource with hprepared | ⟨k, v, rfl⟩
    · obtain ⟨stage, -, htasks⟩ := hprepared.claim
      exact .inl (htasks ▸ mem_cons_of_mem _ hmem)
    · exact .inl (mem_cons_of_mem _ hmem)

/-- A class becomes initialized when its initializer ends, or at once if it has none. -/
theorem Moves.initialized_origin (h : Moves t w control w' control')
    (hsound : control.Sound w.registry t) (hinit : w'.registry.phase c = .initialized)
    (hbefore : w.registry.phase c ≠ .initialized) :
    (∃ n, .prepare c (.body n) ∈ control.tasks) ∨ ∃ rest, Prepared w.registry c rest control := by
  have hsame : ∀ {w₁ : World}, w.Calm w₁ → w₁.registry.phase c ≠ .initialized := by
    intro w₁ hcalm
    rwa [hcalm.phases.phase]
  rcases h.change with hcalm | ⟨d, w₁, hphase, hcalm, hcalm'⟩ |
    ⟨d, stage, rest, w₁, p, htasks, hstage, hcalm, rfl, hp⟩
  · exact absurd hinit (hsame hcalm)
  · rw [hcalm'.phases.phase, phase_setInit (by rw [hcalm.phases.phase, hphase]; nofun)] at hinit
    split at hinit
    · cases hinit
    · exact absurd hinit (hsame hcalm)
  · have hphase := hsound.phase_of_claim (htasks ▸ mem_cons_self) hstage
    rw [phase_setInit (by rw [hcalm.phases.phase, hphase]; nofun)] at hinit
    split at hinit
    · rename_i hcd
      subst hcd
      rcases hp with rfl | ⟨-, ⟨n, rfl⟩ | hprepared⟩
      · cases hinit
      · exact .inl ⟨n, htasks ▸ mem_cons_self⟩
      · exact .inr hprepared
    · exact absurd hinit (hsame hcalm)

def Answers (r : Registry) (rest : List Task) (c : ClassId) : Outcome → Prop
  | .value _ => Ready r rest c
  | .thrown _ | .failed _ => r.phase c = .failed

theorem Moves.ends (h : Moves t w ⟨.prepare c stage :: rest, a⟩ w' ⟨rest, some o⟩)
    (hsound : Sound w.registry t ⟨.prepare c stage :: rest, a⟩) :
    Answers w'.registry rest c o := by
  have hset : ∀ {w₁ : World} {p : InitPhase}, w.Calm w₁ → stage.claims = true →
      (w₁.setInit c p).registry.phase c = p := by
    intro w₁ p hcalm hstage
    rw [phase_setInit, if_pos rfl]
    rw [hcalm.phases.phase, hsound.phase_of_claim mem_cons_self hstage]
    nofun
  generalize hcontrol : (⟨rest, some o⟩ : Control) = control' at h
  cases h with
  | plain _ htask => cases htask
  | pass =>
    cases hcontrol
    exact (hsound.acting _ rest rfl rfl).1
  | reject =>
    cases hcontrol
    have hcalm := Calm.raised (w := w) t .noClassDefFound
    exact ((hcalm _).phases.phase c).trans (hsound.acting _ rest rfl rfl).1
  | finish hsource hcalm =>
    cases hcontrol
    rcases hsource with (_ | _) | ⟨n, v, heq⟩
    · exact .inl (hset hcalm rfl)
    · exact .inl (hset hcalm rfl)
    · cases heq
      exact .inl (hset hcalm rfl)
  | fail hstage hvalue hcalm =>
    cases hcontrol
    have hfailed : _ = InitPhase.failed := hset hcalm (by rcases hstage with rfl | ⟨n, rfl⟩ <;> rfl)
    cases o with
    | value v => exact absurd rfl (hvalue v)
    | thrown | failed => exact hfailed
  | _ => cases hcontrol

/-- The request that runs the initializer goes with its answer. -/
theorem Moves.leaves (h : Moves t w ⟨.prepare c (.body n) :: rest, a⟩ w' control') :
    ∃ o, control' = ⟨rest, some o⟩ := by
  cases h with
  | plain _ htask => cases htask
  | allow hopen | refuse hopen | claim hopen | wait hopen => cases hopen
  | start _ _ hprepared => cases hprepared
  | finish hsource =>
    rcases hsource with hprepared | ⟨n, v, heq⟩
    · cases hprepared
    · cases heq
      exact ⟨_, rfl⟩
  | fail => exact ⟨_, rfl⟩

/-- A claim that ends leaves the class settled. -/
theorem Moves.settles (h : Moves t w ⟨.prepare c stage :: rest, a⟩ w' ⟨rest, some o⟩)
    (hsound : Sound w.registry t ⟨.prepare c stage :: rest, a⟩)
    (hstage : stage.claims = true) :
    w'.registry.phase c = .initialized ∨ w'.registry.phase c = .failed := by
  have hends := h.ends hsound
  have hdistinct := hsound.distinct
  rw [claims_cons_claim stage hstage] at hdistinct
  cases o with
  | value v => exact .inl (hends.resolve_right (nodup_cons.mp hdistinct).1)
  | thrown | failed => exact .inr hends

/-! ## Classes above an initialized one -/

/-- Above an initialized class, every class has been asked for. -/
def Registry.Settled (r : Registry) : Prop :=
  ∀ c cls, r.class? c = some cls → cls.isArray = false → r.phase c = .initialized →
    ∀ s, r.Above c s → r.phase s ≠ .uninitialized

/-- The classes above one whose initializer is about to run are initialized or claimed by the same
thread, up to the first that is initialized. -/
theorem Prepared.superclasses (h : Prepared r c rest control) (hsound : control.Sound r t)
    (ho : r.Orderly) (hsettled : r.Settled) (hs : r.Above c s) : r.phase s ≠ .uninitialized ∧
      (r.phase s = .initialized ∨ r.phase s = .running t ∨
        ∃ m, r.Above c m ∧ r.Above m s ∧ r.phase m = .initialized) := by
  cases h with
  | root hroot =>
    obtain ⟨b, hb, -⟩ := Relation.TransGen.head'_iff.mp hs
    rw [hroot] at hb
    cases hb
  | inherited v =>
    have hstacked := hsound.answered _ rfl
    have hready : Ready r (.prepare c .superclass :: rest) s ∨
        ∃ m, r.Above c m ∧ r.Above m s ∧ r.phase m = .initialized := by
      induction hs with
      | single hs => exact .inl (hstacked.ready (hstacked.claims_of_mem mem_cons_self) hs)
      | tail hu hv ih =>
        rcases ih with (hinit | hclaimed) | ⟨m, hm, hmu, hinit⟩
        · exact .inr ⟨_, hu, .single hv, hinit⟩
        · exact .inl (hstacked.ready hclaimed hv)
        · exact .inr ⟨m, hm, hmu.tail hv, hinit⟩
    rcases hready with (hinit | hclaimed) | ⟨m, hm, hms, hinit⟩
    · exact ⟨by rw [hinit]; nofun, .inl hinit⟩
    · have hrunning := (hsound.owner s).mpr hclaimed
      exact ⟨by rw [hrunning]; nofun, .inr (.inl hrunning)⟩
    · obtain ⟨mcls, hmcls, hplain⟩ := ho.above_plain hm
      exact ⟨hsettled m mcls hmcls hplain hinit s hms, .inr (.inr ⟨m, hm, hms, hinit⟩)⟩

theorem Registry.Settled.onward (h : r.Settled) (ho : r.Orderly) (hon : r.Onward r')
    (hplain : ∀ n c, r'.class? n = some c → c.isArray = false → r'.phase n = .initialized → ∃ c',
      r.class? n = some c' ∧ c'.isArray = false)
    (hnew : ∀ c, r'.phase c = .initialized → r.phase c ≠ .initialized → ∀ s, r.Above c s →
      r.phase s ≠ .uninitialized) : r'.Settled := by
  intro c cls hcls harray hinit s hs
  obtain ⟨old, hold, harray'⟩ := hplain c cls hcls harray hinit
  have hs := ho.above_back hon.later.keeps hold hs
  obtain ⟨scls, hscls, -⟩ := ho.above_plain hs
  refine hon.begun s scls hscls ?_
  by_cases hbefore : r.phase c = .initialized
  · exact h c old hold harray' hbefore s hs
  · exact hnew c hinit hbefore s hs

/-- Above a class whose initializer runs, every class has been asked for. -/
theorem Control.Sound.body_above (h : control.Sound r t)
    (hmem : .prepare c (.body n) ∈ control.tasks) (hs : r.Above c s) :
    r.phase s ≠ .uninitialized := by
  obtain ⟨tasks, answer⟩ := control
  cases answer with
  | some o => exact ((h.answered o rfl).body hmem).2 s hs
  | none =>
    cases tasks with
    | nil => cases hmem
    | cons task rest =>
      obtain ⟨hacting, hstacked⟩ := h.acting task rest rfl rfl
      rcases mem_cons.mp hmem with rfl | hmem
      · exact hacting.elim
      · exact (hstacked.body hmem).2 s hs

theorem Moves.settled (h : Moves t w control w' control') (hsound : control.Sound w.registry t)
    (ho : w.registry.Orderly) (hsettled : w.registry.Settled) : w'.registry.Settled := by
  have hadv := h.advances hsound
  refine hsettled.onward ho hadv.onward.registry (fun n c hc ha _ => hadv.plain n c hc ha) ?_
  intro c hinit hbefore s hs
  rcases h.initialized_origin hsound hinit hbefore with ⟨n, hbody⟩ | ⟨rest, hprepared⟩
  · exact hsound.body_above hbody hs
  · exact (hprepared.superclasses hsound ho hsettled hs).1

section

variable {task : Task} {answer : Option Outcome} {c : ClassId} {stage : InitStage}

namespace Control.Sound

theorem under_advance (h : Sound w.registry t ⟨task :: rest, answer⟩)
    (ho : w.registry.Orderly) (hadv : Advances t w w') : Stacked w'.registry (.inl task) rest :=
  h.under.onward hadv.onward.registry ho fun c hc =>
    (h.owner c).mpr (claims_subset (suffix_cons _ _) hc)

theorem owner_calm (h : control.Sound w.registry t) (hcalm : w.Calm w') (k : ClassId) :
    w'.registry.phase k = .running t ↔ k ∈ claims control.tasks := by
  rw [hcalm.phases.phase]
  exact h.owner k

theorem acting_of_plain (h : task.isRequest = false) : Acting r rest task := by
  cases task with
  | prepare c stage => cases h
  | _ => trivial

theorem below_of_plain (h : task.isRequest = false) : Below r above rest task := by
  cases task with
  | prepare c stage => cases h
  | _ => trivial

theorem plain {move : Move} (h : Sound w.registry t ⟨task :: rest, answer⟩)
    (ho : w.registry.Orderly) (htask : task.isRequest = false) (hcalm : w.Calm w')
    (hmove : move.Plain) : (move.apply rest).Sound w'.registry t := by
  have hbelow : ∀ above, Stacked w'.registry above rest :=
    (h.under_advance ho (.of_calm hcalm)).swap htask
  have hdistinct := h.distinct
  have howner := h.owner_calm hcalm
  rw [claims_cons_of_not_request htask] at hdistinct howner
  cases hmove with
  | stay htask' =>
    refine .of_acting (acting_of_plain htask') (hbelow _) ?_ ?_ <;>
      rwa [claims_cons_of_not_request htask']
  | push habove htask' =>
    refine .of_acting (acting_of_plain habove) ⟨below_of_plain htask', hbelow _⟩ ?_ ?_ <;>
      rwa [claims_cons_of_not_request habove, claims_cons_of_not_request htask']
  | ask c htask' =>
    refine .of_acting trivial ⟨below_of_plain htask', hbelow _⟩ ?_ ?_ <;>
      rwa [claims_cons_free .request rfl, claims_cons_of_not_request htask']
  | leave o => exact .of_answer (hbelow _) hdistinct howner

section

variable (h : Sound w.registry t ⟨.prepare c stage :: rest, answer⟩) (ho : w.registry.Orderly)
  {stage' : InitStage} {w₁ : World}

include h ho

theorem decided (hcalm : w.Calm w') (hstage : stage.claims = false)
    (hstage' : stage'.claims = false) (hacting : Acting w'.registry rest (.prepare c stage')) :
    Sound w'.registry t ⟨.prepare c stage' :: rest, none⟩ := by
  have hdistinct := h.distinct
  have howner := h.owner_calm hcalm
  rw [claims_cons_free stage hstage] at hdistinct howner
  refine .of_acting hacting ((h.under_advance ho (.of_calm hcalm)).restage _) ?_ ?_ <;>
    rwa [claims_cons_free stage' hstage']

theorem free (hcalm : w.Calm w') (hstage : stage.claims = false)
    (hready : ∀ v, o = .value v → Ready w'.registry rest c) :
    Sound w'.registry t ⟨rest, some o⟩ := by
  have hdistinct := h.distinct
  have howner := h.owner_calm hcalm
  rw [claims_cons_free stage hstage] at hdistinct howner
  exact .of_answer ((h.under_advance ho (.of_calm hcalm)).answer hready) hdistinct howner

theorem claimed (hadv : Advances t w w') (hcalm : w.Calm w₁)
    (hcalm' : (w₁.setInit c (.running t)).Calm w') (hstage : stage.claims = false)
    (hphase : w.registry.phase c = .uninitialized) :
    Sound w'.registry t ⟨.prepare c .claimed :: rest, none⟩ := by
  have hdistinct := h.distinct
  have howner := h.owner
  rw [claims_cons_free stage hstage] at hdistinct howner
  have hfresh : c ∉ claims rest := by
    rw [← howner, hphase]
    nofun
  refine .of_acting trivial ((h.under_advance ho hadv).restage _) ?_ fun k => ?_
  · exact nodup_cons.mpr ⟨hfresh, hdistinct⟩
  · rw [claims_cons_claim .claimed rfl, mem_cons, hcalm'.phases.phase,
      phase_setInit (by rw [hcalm.phases.phase, hphase]; nofun)]
    split
    · rename_i hk
      exact ⟨fun _ => .inl hk, fun _ => rfl⟩
    · rename_i hk
      rw [hcalm.phases.phase, howner, or_iff_right hk]

theorem ended (hadv : Advances t w (w₁.setInit c p))
    (hcalm : w.Calm w₁) (hstage : stage.claims = true) (hp : p ≠ .running t)
    (hvalue : ∀ v, o = .value v → p = .initialized) :
    Sound (w₁.setInit c p).registry t ⟨rest, some o⟩ := by
  have hphase : w₁.registry.phase c ≠ .initialized := by
    rw [hcalm.phases.phase, h.phase_of_claim mem_cons_self hstage]
    nofun
  have hdistinct := h.distinct
  have howner := h.owner
  rw [claims_cons_claim stage hstage] at hdistinct howner
  obtain ⟨hfresh, hdistinct⟩ := nodup_cons.mp hdistinct
  refine .of_answer ?_ hdistinct fun k => ?_
  · refine (h.under_advance ho hadv).answer fun v hv => .inl ?_
    rw [phase_setInit hphase, if_pos rfl]
    exact hvalue v hv
  · rw [phase_setInit hphase]
    split
    · rename_i hk
      subst hk
      exact ⟨fun h => absurd h hp, fun h => absurd h hfresh⟩
    · rename_i hk
      rw [hcalm.phases.phase, howner, mem_cons, or_iff_right hk]

theorem grown {upper : Task} (hcalm : w.Calm w') (hstage : stage.claims = true)
    (hstage' : stage'.claims = true) (hupper : upper.claim? = none)
    (hacting : Acting w'.registry (.prepare c stage' :: rest) upper)
    (hbelow : Below w'.registry (.inl upper) rest (.prepare c stage')) :
    Sound w'.registry t ⟨upper :: .prepare c stage' :: rest, none⟩ := by
  have hdistinct := h.distinct
  have howner := h.owner_calm hcalm
  have hclaims : claims (upper :: .prepare c stage' :: rest) = c :: claims rest :=
    (filterMap_cons_none hupper).trans (claims_cons_claim stage' hstage')
  rw [claims_cons_claim stage hstage] at hdistinct howner
  exact .of_acting hacting ⟨hbelow, (h.under_advance ho (.of_calm hcalm)).restage _⟩
    (hclaims ▸ hdistinct) (hclaims ▸ howner)

end

theorem started {m : MethodId} (h : control.Sound w.registry t)
    (ho : w.registry.Orderly) (hsettled : w.registry.Settled) (hcalm : w.Calm w')
    (hprepared : Prepared w.registry c rest control) :
    Sound w'.registry t ⟨.call m [] :: .prepare c (.body n) :: rest, none⟩ := by
  have hadv : Advances t w w' := .of_calm hcalm
  have habove : ∀ s, w.registry.Above c s → w.registry.phase s ≠ .uninitialized :=
    fun s hs => (hprepared.superclasses h ho hsettled hs).1
  have hphase : w.registry.phase c = .running t := by
    cases hprepared with
    | root | inherited => exact h.phase_of_claim mem_cons_self rfl
  obtain ⟨cls, hcls⟩ := class_of_phase (by rw [hphase]; nofun)
  have hkeeps := hadv.onward.registry.later.keeps
  have hbegun : ∀ s, w'.registry.Above c s → w'.registry.phase s ≠ .uninitialized := by
    intro s hs
    have hs := ho.above_back hkeeps hcls hs
    obtain ⟨scls, hscls, -⟩ := ho.above_plain hs
    exact hadv.onward.registry.begun s scls hscls (habove s hs)
  cases hprepared with
  | root hroot =>
    refine h.grown ho hcalm rfl rfl rfl trivial ⟨fun s hs => ?_, hbegun⟩
    rw [hkeeps.superclass_back hcls hs] at hroot
    cases hroot
  | inherited v =>
    refine h.grown ho hcalm rfl rfl rfl trivial ⟨fun s hs => ?_, hbegun⟩
    have hstacked := h.answered _ rfl
    have hready := hstacked.ready (hstacked.claims_of_mem mem_cons_self)
      (hkeeps.superclass_back hcls hs)
    exact hready.imp_left (hadv.initialized s)

end Control.Sound

end

/-- A move leaves the stack of its thread sound. -/
theorem Moves.sound (h : Moves t w control w' control') (hsound : control.Sound w.registry t)
    (ho : w.registry.Orderly) (hsettled : w.registry.Settled) : control'.Sound w'.registry t := by
  have hadv := h.advances hsound
  cases h with
  | idle => exact hsound
  | plain answer htask hcalm hplain => exact hsound.plain ho htask hcalm hplain
  | @allow c stage rest _ hopen hphase hcalm =>
    have hfree := InitStage.not_claims_of_isOpen hopen
    refine hsound.decided ho hcalm hfree rfl ?_
    rcases hphase with hinit | hrunning
    · exact .inl ((hcalm.phases.phase c).trans hinit)
    · exact .inr (claims_cons_free stage hfree ▸ (hsound.owner c).mp hrunning)
  | refuse hopen hphase hcalm =>
    exact hsound.decided ho hcalm (InitStage.not_claims_of_isOpen hopen) rfl
      ((hcalm.phases.phase _).trans hphase)
  | claim hopen hphase hcalm hcalm' =>
    exact hsound.claimed ho hadv hcalm hcalm' (InitStage.not_claims_of_isOpen hopen) hphase
  | wait hopen _ _ hcalm =>
    exact hsound.decided ho hcalm (InitStage.not_claims_of_isOpen hopen) rfl trivial
  | pass c rest => exact hsound.free ho .refl rfl fun _ _ => (hsound.acting _ rest rfl rfl).1
  | reject c rest text => exact hsound.free ho (.raised t _ text) rfl nofun
  | climb rest hs => exact hsound.grown ho .refl rfl rfl rfl trivial ⟨_, hs, _, rfl⟩
  | start m n hprepared hcalm => exact hsound.started ho hsettled hcalm hprepared
  | finish hsource hcalm =>
    rcases hsource with (_ | _) | ⟨n, v, rfl⟩ <;>
      exact hsound.ended ho hadv hcalm rfl nofun fun _ _ => rfl
  | fail hstage hvalue hcalm =>
    rcases hstage with rfl | ⟨n, rfl⟩ <;>
      exact hsound.ended ho hadv hcalm rfl nofun fun v hv => absurd hv (hvalue v)

end

end ManagedCore
