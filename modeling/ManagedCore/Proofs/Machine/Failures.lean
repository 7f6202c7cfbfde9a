import ManagedCore.Proofs.Machine.Engine

/-!
# Classes that can no longer be initialized

An initializer that fails takes with it every class below whose own initializer has not begun, unless
a class in between was ready before. Such a class stays out of reach: a request for it goes up to a
class that has failed, possibly waiting for other threads on their way up, and comes back with an
exception.
-/

namespace ManagedCore

open Control World List

variable {w w' : World} {control : Control} {o : Outcome} {x : ObjId} {rest : List Task}
  {t : ThreadId} {c : ClassId}

/-! ## Refusals -/

theorem World.className_keeps {name : String} (h : w.className x = name)
    (hname : name ≠ "") (hkeeps : w.heap.Keeps w'.heap) : w'.className x = name := by
  unfold className at h ⊢
  cases hobj : w.object? x with
  | none =>
    rw [hobj] at h
    exact absurd h.symm hname
  | some obj =>
    obtain ⟨obj', hobj', hcls⟩ := hkeeps.objects x obj hobj
    rw [← h, hobj, object?, hobj', Option.map_some, Option.map_some, hcls]

/-- The exception says that the class is not to be had, or that there is no memory to say so. -/
def Refusal (w : World) (x : ObjId) : Prop :=
  w.className x = Fault.noClassDefFound.className ∨ w.heap.limit ≠ 0 ∧ x = w.outOfMemory

theorem Refusal.onward (h : Refusal w x) (honward : w.Onward w') : Refusal w' x := by
  rcases h with hname | ⟨hlimit, rfl⟩
  · exact .inl (className_keeps hname (by decide) honward.heap)
  · exact .inr ⟨honward.heap.limit ▸ hlimit, honward.outOfMemory.symm⟩

theorem Heap.allocate_cases (h : Heap) (c : Class) :
    (∃ e, h.allocate c = (.error e, h)) ∧ h.limit ≠ 0 ∨
      ∃ h', h.allocate c = (.ok h.objects.size, h') ∧
        h'.get? h.objects.size = some (instanceOf c) := by
  unfold allocate allocateSized grant
  by_cases hfull : 0 < h.limit ∧ h.limit < min (h.allocated + c.size) 18446744073709551615
  · rw [if_pos hfull]
    exact .inl ⟨⟨_, rfl⟩, Nat.ne_of_gt hfull.1⟩
  · rw [if_neg hfull]
    exact .inr ⟨_, rfl, Array.getElem?_push_size⟩

theorem World.refusal_createException {c : Class}
    (hc : w.registry.loaded? Fault.noClassDefFound.className = some c) (text : Option String) :
    Refusal (w.createException .noClassDefFound text).2
      (w.createException .noClassDefFound text).1 := by
  have hname : c.name = Fault.noClassDefFound.className := by simpa using Array.find?_some hc
  rcases w.heap.allocate_cases c with ⟨⟨err, hfull⟩, hlimit⟩ | ⟨heap, hok, hget⟩
  · simp only [createException, hc, allocate, hfull]
    exact .inr ⟨hlimit, rfl⟩
  · let w₁ : World := { w with heap }
    have hmade : w₁.className w.heap.objects.size = Fault.noClassDefFound.className := by
      rw [className, object?, hget]
      exact hname
    simp only [createException, hc, allocate, hok]
    cases text with
    | none => exact .inl hmade
    | some text =>
      have hquiet := Quiet.allocateText (w := w₁) text
      dsimp only
      generalize w₁.allocateText text = p at hquiet
      obtain ⟨found, w₂⟩ := p
      have hmade := className_keeps hmade (by decide) hquiet.heap
      cases found with
      | ok s =>
        refine .inl (className_keeps hmade (by decide) ?_)
        exact Heap.Keeps.modify _ fun obj => Quiet.setField_cls obj messageSlot (.obj s)
      | error _ => exact .inl hmade

theorem Moves.asking {stage : InitStage} (h : Moves t w ⟨.prepare c stage :: rest, none⟩ w' control)
    (hstage : stage.isOpen = true ∨ stage = .refused ∨ stage = .claimed)
    (hinit : w.registry.phase c ≠ .initialized)
    (hown : stage.isOpen = true → w.registry.phase c ≠ .running t)
    (hnone : ¬Prepared w.registry c rest ⟨.prepare c stage :: rest, none⟩) :
    (stage.isOpen = true ∧ control = ⟨.prepare c .waiting :: rest, none⟩ ∧
        ∃ owner, w.registry.phase c = .running owner ∧ owner ≠ t) ∨
      (stage.isOpen = true ∧ ∃ stage', (stage' = .refused ∨ stage' = .claimed) ∧
        control = ⟨.prepare c stage' :: rest, none⟩) ∨
      (stage = .claimed ∧ ∃ s, w.registry.superclass? c = some s ∧
        control = ⟨.prepare s .request :: .prepare c .superclass :: rest, none⟩) ∨
      stage = .refused ∧ ∃ text, w' = (w.createException .noClassDefFound text).2.captureTrace t
          (w.createException .noClassDefFound text).1 ∧
        control = ⟨rest, some (.thrown (w.createException .noClassDefFound text).1)⟩ := by
  cases h with
  | plain _ htask => cases htask
  | allow hopen hphase =>
    rcases hphase with hphase | hphase
    · exact absurd hphase hinit
    · exact absurd hphase (hown hopen)
  | refuse hopen => exact .inr (.inl ⟨hopen, _, .inl rfl, rfl⟩)
  | claim hopen => exact .inr (.inl ⟨hopen, _, .inr rfl, rfl⟩)
  | wait hopen hphase hne => exact .inl ⟨hopen, rfl, _, hphase, hne⟩
  | pass => rcases hstage with h | h | h <;> cases h
  | reject => exact .inr (.inr (.inr ⟨rfl, _, rfl, rfl⟩))
  | climb _ hs => exact .inr (.inr (.inl ⟨rfl, _, hs, rfl⟩))
  | start _ _ hprepared =>
    cases hprepared with
    | root hroot => exact absurd (.root hroot) hnone
  | finish hsource =>
    rcases hsource with hprepared | ⟨n, v, heq⟩
    · cases hprepared with
      | root hroot => exact absurd (.root hroot) hnone
    · cases heq

theorem Moves.fails (h : Moves t w ⟨.prepare c .superclass :: rest, some o⟩ w' control)
    (hnone : ¬Prepared w.registry c rest ⟨.prepare c .superclass :: rest, some o⟩) :
    control = ⟨rest, some o⟩ := by
  cases h with
  | plain _ htask => cases htask
  | start _ _ hprepared =>
    cases hprepared with
    | inherited v => exact absurd (.inherited v) hnone
  | finish hsource =>
    rcases hsource with hprepared | ⟨n, v, heq⟩
    · cases hprepared with
      | inherited v => exact absurd (.inherited v) hnone
    · cases heq
  | fail => rfl

/-! ## Distances -/

/-- How far a request in a stage is from being decided. -/
def InitStage.distance : InitStage → Nat
  | request => 3
  | waiting => 2
  | claimed => 1
  | _ => 0

/-- How far a request is from its answer at most, if all it does is to go up. -/
def Control.distance : Control → Nat
  | ⟨.prepare c stage :: rest, none⟩ => 4 * c + stage.distance + rest.length + 1
  | ⟨tasks, _⟩ => tasks.length

theorem Control.distance_answered (tasks : List Task) (o : Outcome) :
    distance ⟨tasks, some o⟩ = tasks.length := by
  unfold distance
  split
  · rename_i heq
    cases heq
  · rename_i heq
    cases heq
    rfl

theorem Control.distance_lt {stage stage' : InitStage} (c : ClassId) (rest : List Task)
    (h : stage'.distance < stage.distance) :
    distance ⟨.prepare c stage' :: rest, none⟩ < distance ⟨.prepare c stage :: rest, none⟩ := by
  simp only [distance]
  omega

namespace Engine

def Unbegun (e : Engine) (c : ClassId) : Prop :=
  e.phase? c = some .uninitialized ∨
    ∃ t stage, (stage = .claimed ∨ stage = .superclass) ∧ .prepare c stage ∈ (e.controls t).tasks

/-- The class has failed, or it waits under one that can not be initialized. -/
inductive Doomed (e : Engine) : ClassId → Prop where
  | failed {c : ClassId} : e.phase? c = some .failed → Doomed e c
  | inherited {c s : ClassId} : e.registry.superclass? c = some s → Doomed e s → e.Unbegun c →
      Doomed e c

section

variable {e e' : Engine} {t : ThreadId} {c k s : ClassId} {stage : InitStage} {rest tasks : List Task}
  {above : Task ⊕ Outcome}

theorem Doomed.known (h : e.Doomed c) : ∃ cls, e.registry.class? c = some cls := by
  cases h with
  | failed hphase =>
    obtain ⟨cls, hcls, -⟩ := Option.map_eq_some_iff.mp hphase
    exact ⟨cls, hcls⟩
  | inherited hs _ _ =>
    obtain ⟨cls, hcls, -⟩ := Option.bind_eq_some_iff.mp hs
    exact ⟨cls, hcls⟩

theorem Sound.claimed_of_stage (h : e.Sound) (hstage : stage = .claimed ∨ stage = .superclass)
    (hmem : .prepare c stage ∈ (e.controls t).tasks) : e.registry.phase c = .running t := by
  refine (h.threads t).phase_of_claim hmem ?_
  rcases hstage with rfl | rfl <;> rfl

theorem Doomed.not_initialized (h : e.Doomed c) (hsound : e.Sound) :
    e.registry.phase c ≠ .initialized := by
  intro hinit
  cases h with
  | failed hphase => cases hinit.symm.trans (phase_of_phase? hphase)
  | inherited _ _ hunbegun =>
    rcases hunbegun with hphase | ⟨t, stage, hstage, hmem⟩
    · cases hinit.symm.trans (phase_of_phase? hphase)
    · cases hinit.symm.trans (hsound.claimed_of_stage hstage hmem)

theorem Doomed.of_claim (h : e.Doomed c) (hsound : e.Sound) (hclaims : stage.claims = true)
    (hmem : .prepare c stage ∈ (e.controls t).tasks) : (stage = .claimed ∨ stage = .superclass) ∧
      ∃ s, e.registry.superclass? c = some s ∧ e.Doomed s := by
  have hphase := (hsound.threads t).phase_of_claim hmem hclaims
  cases h with
  | failed hfailed => cases hphase.symm.trans (phase_of_phase? hfailed)
  | @inherited _ s hs hdoom hunbegun =>
    refine ⟨?_, s, hs, hdoom⟩
    rcases hunbegun with huninit | ⟨k, stage', hstage, hmem'⟩
    · cases hphase.symm.trans (phase_of_phase? huninit)
    · cases hphase.symm.trans (hsound.claimed_of_stage hstage hmem')
      have hclaims' : stage'.claims = true := by rcases hstage with rfl | rfl <;> rfl
      rwa [stage_unique (hsound.threads t).distinct hmem hclaims hmem' hclaims']

/-! ## Claims of such classes on a stack -/

def Over (e : Engine) (k : ClassId) : Task ⊕ Outcome → Prop
  | .inl (.prepare d _) => e.Doomed d ∧ e.registry.Above k d
  | .inl _ | .inr (.value _) => False
  | .inr (.thrown _) | .inr (.failed _) => True

theorem Over.trans {d : ClassId} (h : e.Over d above) (hkd : e.registry.Above k d) :
    e.Over k above := by
  cases above with
  | inl task =>
    cases task with
    | prepare c stage => exact ⟨h.1, hkd.trans h.2⟩
    | _ => exact h
  | inr o =>
    cases o with
    | _ => exact h

/-- A request that is not on top and is for such a class waits for the superclass. -/
theorem Doomed.waits (h : e.Doomed c) (hsound : e.Sound)
    (hmem : .prepare c stage ∈ (e.controls t).tasks)
    (hbelow : Below e.registry above rest (.prepare c stage)) :
    stage = .superclass ∧ ∃ s, e.registry.superclass? c = some s ∧ e.Doomed s ∧
      Awaits e.registry (.prepare c .superclass :: rest) s above := by
  have hclaims : stage.claims = true := by
    cases stage with
    | superclass | body => rfl
    | _ => exact hbelow.elim
  obtain ⟨hstage, s, hs, hdoom⟩ := h.of_claim hsound hclaims hmem
  rcases hstage with rfl | rfl
  · exact hbelow.elim
  · obtain ⟨s', hs', habove⟩ := hbelow
    cases hs.symm.trans hs'
    exact ⟨rfl, s, hs, hdoom, habove⟩

/-- Above a claim of such a class, only requests for classes above it stand, all of them such
classes. -/
theorem Sound.over_claim (h : e.Sound) (hsuffix : tasks <:+ (e.controls t).tasks)
    (hstacked : Stacked e.registry above tasks) (hk : k ∈ claims tasks) (hdoom : e.Doomed k) :
    e.Over k above := by
  induction tasks generalizing above k with
  | nil => cases hk
  | cons task rest ih =>
    have hrest : rest <:+ (e.controls t).tasks := (suffix_cons _ _).trans hsuffix
    have hmem : task ∈ (e.controls t).tasks := hsuffix.mem mem_cons_self
    -- The claim on top of these tasks waits for the superclass.
    have hhead : ∀ {d stage}, task = .prepare d stage → e.Doomed d → e.Over d above := by
      rintro d stage rfl hdoom
      obtain ⟨rfl, s, hs, hdoom', habove⟩ := hdoom.waits h hmem hstacked.1
      have hds : e.registry.Above d s := .single hs
      unfold Awaits at habove
      split at habove
      · obtain ⟨stage, rfl⟩ := habove
        exact ⟨hdoom', hds⟩
      · rcases habove with hinit | hclaimed
        · exact absurd hinit (hdoom'.not_initialized h)
        · rcases mem_cons.mp hclaimed with rfl | hclaimed
          · exact absurd (h.orderly.above_lt hds) (Nat.lt_irrefl _)
          · have hsd := (ih hrest hstacked.2 hclaimed hdoom').2
            exact absurd (h.orderly.above_lt (hsd.trans hds)) (Nat.lt_irrefl _)
      · rename_i o hvalue
        cases o with
        | value v => exact absurd rfl (hvalue v)
        | _ => trivial
    obtain ⟨stage, hstage, hmem⟩ := exists_of_mem_claims hk
    rcases mem_cons.mp hmem with heq | hmem
    · exact hhead heq.symm hdoom
    · have hover := ih hrest hstacked.2 (mem_claims_of_mem hmem hstage) hdoom
      cases task with
      | prepare d dstage => exact (hhead rfl hover.1).trans hover.2
      | _ => exact hover.elim

section

variable (h : e.Doomed c) (hsound : e.Sound)

include h hsound

theorem Doomed.not_prepared : ¬Prepared e.registry c rest (e.controls t) := by
  intro hprepared
  obtain ⟨stage, hstage, htasks⟩ := hprepared.claim
  have hmem : .prepare c stage ∈ (e.controls t).tasks := htasks ▸ mem_cons_self
  have hclaims : stage.claims = true := by rcases hstage with rfl | rfl <;> rfl
  obtain ⟨-, s, hs, -⟩ := h.of_claim hsound hclaims hmem
  generalize hcontrol : e.controls t = control at hprepared
  cases hprepared with
  | root hroot => cases hroot.symm.trans hs
  | inherited v =>
    have hanswered := (hsound.threads t).answered (.value v) (by rw [hcontrol])
    exact hsound.over_claim suffix_rfl hanswered (mem_claims_of_mem hmem hclaims) h

/-! ## Such classes stay such classes -/

theorem Doomed.not_body {n : Nat} : .prepare c (.body n) ∉ (e.controls t).tasks := by
  intro hmem
  obtain ⟨hstage, -⟩ := h.of_claim hsound rfl hmem
  rcases hstage with h | h <;> cases h

theorem Doomed.turn_not_initialized (t : ThreadId) :
    (e.turn t).registry.phase c ≠ .initialized := by
  intro hinit
  rcases (hsound.moves t).initialized_origin (hsound.threads t) hinit (h.not_initialized hsound)
    with ⟨n, hbody⟩ | ⟨rest, hprepared⟩
  · exact h.not_body hsound hbody
  · exact h.not_prepared hsound hprepared

theorem Doomed.turn_not_body {n : Nat} (k : ThreadId) :
    .prepare c (.body n) ∉ ((e.turn t).controls k).tasks := by
  intro hmem
  by_cases hk : k = t
  · subst hk
    rcases (hsound.moves k).body_origin hmem with hbody | ⟨rest, hprepared⟩
    · exact h.not_body hsound hbody
    · exact h.not_prepared hsound hprepared
  · rw [controls_turn_of_ne hk] at hmem
    exact h.not_body hsound hmem

/-- After a turn, the class has failed or its initializer has still not begun. -/
theorem Doomed.turn_unbegun (t : ThreadId) :
    (e.turn t).phase? c = some .failed ∨ (e.turn t).Unbegun c := by
  obtain ⟨cls, hcls⟩ := h.known
  have hkeeps := (hsound.advances t).onward.registry.later.keeps
  cases hphase : (e.turn t).registry.phase c with
  | failed => exact .inl (phase?_keeps hkeeps hcls hphase)
  | uninitialized => exact .inr (.inl (phase?_keeps hkeeps hcls hphase))
  | initialized => exact absurd hphase (h.turn_not_initialized hsound t)
  | running k =>
    obtain ⟨stage, hclaims, hmem⟩ :=
      exists_of_mem_claims (((hsound.turn t).threads k).owner c |>.mp hphase)
    refine .inr (.inr ⟨k, stage, ?_, hmem⟩)
    cases stage with
    | claimed => exact .inl rfl
    | superclass => exact .inr rfl
    | body n => exact absurd hmem (h.turn_not_body hsound k)
    | _ => cases hclaims

end

theorem Unbegun.stays (h : e.Unbegun c) (hstays : e.Stays e') : e'.Unbegun c := by
  rcases h with hphase | ⟨t, stage, hstage, hmem⟩
  · exact .inl (hstays.phases c _ hphase)
  · exact .inr ⟨t, stage, hstage, hstays.mem hmem⟩

theorem Doomed.step {started : List ClassId} (h : e.Doomed c) (hsound : e.Sound)
    (hstep : Step e started e') : e'.Doomed c := by
  induction h with
  | failed hphase => exact .failed (hsound.phase_stays hstep (.inr rfl) hphase)
  | inherited hs hdoom hunbegun ih =>
    have hs' := (hsound.onward hstep).registry.later.keeps.superclass hs
    rcases hstep.turn_or_stays with ⟨t, rfl, -⟩ | ⟨-, hstays⟩
    · rcases (Doomed.inherited hs hdoom hunbegun).turn_unbegun hsound t with hfailed | hunbegun
      · exact .failed hfailed
      · exact .inherited hs' ih hunbegun
    · exact .inherited hs' ih (hunbegun.stays hstays)

/-! ## Requests on their way up -/

theorem core_noClassDefFound : (Registry.core.loaded? Fault.noClassDefFound.className).isSome := by
  decide +kernel

theorem Sound.refusal (h : e.Sound) (t : ThreadId) (text : Option String) :
    Refusal ((e.world.createException .noClassDefFound text).2.captureTrace t
      (e.world.createException .noClassDefFound text).1)
      (e.world.createException .noClassDefFound text).1 := by
  obtain ⟨c, hc⟩ := Option.isSome_iff_exists.mp core_noClassDefFound
  obtain ⟨c', hc', -⟩ := h.core.keeps.names _ c hc
  refine Refusal.onward (refusal_createException hc' text) ?_
  exact .of_calm (.of_quiet (.captureTrace t _))

/-- A way to judge how a request for such a class comes back. -/
structure Verdict (P : World → Outcome → Prop) : Prop where
  onward : ∀ {w w' : World} {o : Outcome}, P w o → w.Onward w' → P w' o
  refusal : ∀ {w : World} {x : ObjId}, Refusal w x → P w (.thrown x)

theorem verdict_refusal : Verdict fun w o => ∃ x, o = .thrown x ∧ Refusal w x where
  onward := fun ⟨x, ho, hx⟩ honward => ⟨x, ho, hx.onward honward⟩
  refusal hx := ⟨_, rfl, hx⟩

theorem verdict_failure : Verdict fun _ o => ∀ v, o ≠ .value v where
  onward h _ := h
  refusal _ := nofun

/-- Tasks that a request for a class has put on a stack, and the answer they have got: it goes up
as long as the classes can be claimed. -/
inductive Climb (P : World → Outcome → Prop) (w : World) :
    ClassId → List Task → Option Outcome → Prop where
  | asking {c : ClassId} {stage : InitStage} :
      stage.isOpen = true ∨ stage = .refused ∨ stage = .claimed →
      Climb P w c [.prepare c stage] none
  | answered {c : ClassId} {o : Outcome} : P w o → Climb P w c [] (some o)
  | up {c s : ClassId} {upper : List Task} {a : Option Outcome} :
      w.registry.superclass? c = some s → Climb P w s upper a →
      Climb P w c (upper ++ [.prepare c .superclass]) a

variable {P : World → Outcome → Prop} {upper : List Task} {a : Option Outcome}

theorem Climb.of_nil {w : World} (h : Climb P w c upper a) (hnil : upper = []) :
    ∃ o, a = some o ∧ P w o := by
  cases h with
  | asking => cases hnil
  | answered ho => exact ⟨_, rfl, ho⟩
  | up => exact absurd hnil (append_ne_nil_of_right_ne_nil _ (cons_ne_nil _ _))

theorem Climb.onward {w w' : World} (h : Climb P w c upper a) (hP : Verdict P)
    (honward : w.Onward w') : Climb P w' c upper a := by
  induction h with
  | asking hstage => exact .asking hstage
  | answered ho => exact .answered (hP.onward ho honward)
  | up hs _ ih => exact .up (honward.registry.later.keeps.superclass hs) ih

/-- The thread waits for another one that is on its way up from a class at or above this one. -/
def Blocked (e : Engine) (t : ThreadId) (c : ClassId) : Prop :=
  ∃ d rest owner, e.controls t = ⟨.prepare d .waiting :: rest, none⟩ ∧
    e.registry.phase d = .running owner ∧ owner ≠ t ∧ e.Doomed d ∧ d ≤ c

def Closer (P : World → Outcome → Prop) (e : Engine) (t : ThreadId) (c : ClassId)
    (rest : List Task) : Prop :=
  ((e.turn t).controls t).distance < (e.controls t).distance ∧
    ∃ upper a, (e.turn t).controls t = ⟨upper ++ rest, a⟩ ∧ Climb P (e.turn t).world c upper a ∧
      (upper = [] → (e.turn t).registry.phase c = .failed)

/-- A request on top for such a class is decided, refused or goes up, unless the thread waits. -/
theorem Doomed.turn_asking (hdoom : e.Doomed c) (hsound : e.Sound) (hP : Verdict P)
    (hstage : stage.isOpen = true ∨ stage = .refused ∨ stage = .claimed)
    (hcontrol : e.controls t = ⟨.prepare c stage :: rest, none⟩) :
    (e.turn t).controls t = e.controls t ∧ e.Blocked t c ∨ Closer P e t c rest := by
  have hmoves := hsound.moves t
  have hnone : ¬Prepared e.registry c rest ⟨.prepare c stage :: rest, none⟩ :=
    hcontrol ▸ hdoom.not_prepared hsound
  have hstacked : Stacked e.registry (.inl (.prepare c stage)) rest :=
    ((hsound.threads t).acting _ rest (by rw [hcontrol]) (by rw [hcontrol])).2
  -- A claim of the class further down would be one under a request for itself.
  have hown : stage.isOpen = true → e.registry.phase c ≠ .running t := by
    intro hopen hrunning
    have hclaimed := ((hsound.threads t).owner c).mp hrunning
    rw [hcontrol, claims_cons_free stage (InitStage.not_claims_of_isOpen hopen)] at hclaimed
    have hsuffix : rest <:+ (e.controls t).tasks := by
      rw [hcontrol]
      exact suffix_cons _ _
    have habove := (hsound.over_claim hsuffix hstacked hclaimed hdoom).2
    exact absurd (hsound.orderly.above_lt habove) (Nat.lt_irrefl _)
  rw [hcontrol] at hmoves
  rcases hmoves.asking hstage (hdoom.not_initialized hsound) hown hnone with
    ⟨hopen, hcontrol', owner, howner, hne⟩ | ⟨hopen, stage', hstage', hcontrol'⟩ |
    ⟨rfl, s, hs, hcontrol'⟩ | ⟨rfl, text, hw, hcontrol'⟩
  · cases stage with
    | waiting =>
      exact .inl ⟨hcontrol'.trans hcontrol.symm, c, rest, owner, hcontrol, howner, hne, hdoom,
        Nat.le_refl c⟩
    | request =>
      refine .inr ⟨?_, [.prepare c .waiting], none, hcontrol', .asking (.inl rfl), nofun⟩
      rw [hcontrol', hcontrol]
      exact distance_lt c rest (by decide)
    | _ => cases hopen
  · refine .inr ⟨?_, [.prepare c stage'], none, hcontrol', .asking (.inr hstage'), nofun⟩
    rw [hcontrol', hcontrol]
    refine distance_lt c rest ?_
    cases stage with
    | request | waiting => rcases hstage' with rfl | rfl <;> decide
    | _ => cases hopen
  · refine .inr ⟨?_, [.prepare s .request, .prepare c .superclass], none, hcontrol', ?_, nofun⟩
    · rw [hcontrol', hcontrol]
      have hlt := Nat.succ_le_of_lt (hsound.orderly.above_lt (.single hs))
      simp only [distance, InitStage.distance, length_cons]
      omega
    · have hclimb : Climb P (e.turn t).world s [.prepare s .request] none := .asking (.inl rfl)
      exact .up ((hsound.advances t).onward.registry.later.keeps.superclass hs) hclimb
  · refine .inr ⟨?_, [], _, hcontrol', .answered ?_, fun _ => ?_⟩
    · rw [hcontrol', hcontrol, distance_answered, distance]
      omega
    · rw [hw]
      exact hP.refusal (hsound.refusal t text)
    · have hsettled := hmoves
      rw [hcontrol'] at hsettled
      exact hsettled.ends (hcontrol ▸ hsound.threads t)

/-- A request for such a class fails with the one for the superclass. -/
theorem Doomed.turn_answered (hdoom : e.Doomed c) (hsound : e.Sound) (hP : Verdict P)
    (ho : P e.world o) (hcontrol : e.controls t = ⟨.prepare c .superclass :: rest, some o⟩) :
    Closer P e t c rest := by
  have hmoves := hsound.moves t
  have hnone : ¬Prepared e.registry c rest ⟨.prepare c .superclass :: rest, some o⟩ :=
    hcontrol ▸ hdoom.not_prepared hsound
  rw [hcontrol] at hmoves
  have hcontrol' := hmoves.fails hnone
  refine ⟨?_, [], some o, hcontrol', .answered (hP.onward ho (hsound.advances t).onward), fun _ => ?_⟩
  · rw [hcontrol', hcontrol, distance_answered]
    exact Nat.lt_succ_self _
  · rw [hcontrol'] at hmoves
    have hsettled := hmoves.settles (hcontrol ▸ hsound.threads t) rfl
    exact hsettled.resolve_left (hdoom.turn_not_initialized hsound t)

/-- A turn brings such a request closer to its answer unless the thread waits. -/
theorem Climb.turn (h : Climb P e.world c upper a) (hP : Verdict P) (hsound : e.Sound)
    (hdoom : e.Doomed c) (hcontrol : e.controls t = ⟨upper ++ rest, a⟩) (hupper : upper ≠ []) :
    (e.turn t).controls t = e.controls t ∧ e.Blocked t c ∨ Closer P e t c rest := by
  induction h generalizing rest with
  | asking hstage => exact hdoom.turn_asking hsound hP hstage hcontrol
  | answered => exact absurd rfl hupper
  | @up c s upper a hs hclimb ih =>
    rw [append_assoc] at hcontrol
    have hmem : .prepare c .superclass ∈ (e.controls t).tasks := by
      rw [hcontrol]
      exact mem_append_right _ mem_cons_self
    obtain ⟨-, s', hs', hdoom'⟩ := hdoom.of_claim hsound rfl hmem
    cases hs.symm.trans hs'
    by_cases hupper' : upper = []
    · subst hupper'
      obtain ⟨o, rfl, ho⟩ := hclimb.of_nil rfl
      exact .inr (hdoom.turn_answered hsound hP ho hcontrol)
    · rcases ih hdoom' hcontrol hupper' with ⟨hsame, d, rest', owner, hblocked⟩ |
        ⟨hlt, upper', a', hcontrol', hclimb', -⟩
      · obtain ⟨hcontrol', howner, hne, hd, hle⟩ := hblocked
        refine .inl ⟨hsame, d, rest', owner, hcontrol', howner, hne, hd, ?_⟩
        exact Nat.le_trans hle (Nat.le_of_lt (hsound.orderly.above_lt (.single hs)))
      · refine .inr ⟨hlt, upper' ++ [.prepare c .superclass], a', ?_, .up ?_ hclimb', ?_⟩
        · rw [hcontrol', append_assoc, singleton_append]
        · exact (hsound.advances t).onward.registry.later.keeps.superclass hs
        · exact fun h => absurd h (append_ne_nil_of_right_ne_nil _ (cons_ne_nil _ _))

end

end Engine

end ManagedCore
