import ManagedCore.Proofs.Machine.Failures
import Mathlib.Data.Nat.Pairing

/-!
# Fair runs

In a fair run every thread keeps taking turns. A request for a class that can no longer be
initialized is then answered: it may have to wait for a thread that has claimed a class at or above,
but that thread is on its own way up, and whatever it waits for stands higher still.
-/

namespace ManagedCore

open List

namespace Engine

section

variable {e : Engine} {t : ThreadId} {c d k : ClassId} {stage : InitStage}
  {rest tasks upper : List Task} {a : Option Outcome} {P : World → Outcome → Prop} {started : List ClassId}
  {e' : Engine}

/-! ## Claims on their way up -/

/-- Requests on a stack under one that goes up are on their way up with it. -/
theorem Climb.extend (h : Climb P e.world d upper a) (hsound : e.Sound)
    (hsuffix : tasks <:+ (e.controls t).tasks)
    (hstacked : Stacked e.registry (.inl (.prepare d stage)) tasks) (hk : k ∈ claims tasks)
    (hdoom : e.Doomed k) :
    ∃ middle rest, tasks = middle ++ rest ∧ Climb P e.world k (upper ++ middle) a := by
  induction tasks generalizing d stage upper with
  | nil => cases hk
  | cons task rest ih =>
    have hrest : rest <:+ (e.controls t).tasks := (suffix_cons _ _).trans hsuffix
    have hmem : task ∈ (e.controls t).tasks := hsuffix.mem mem_cons_self
    have hhead : ∀ {c cstage}, task = .prepare c cstage → e.Doomed c →
        task = .prepare c .superclass ∧ Climb P e.world c (upper ++ [.prepare c .superclass]) a := by
      rintro c cstage rfl hdoom
      obtain ⟨rfl, s, hs, -, stage', heq⟩ := hdoom.waits hsound hmem hstacked.1
      cases heq
      exact ⟨rfl, .up hs h⟩
    obtain ⟨kstage, hclaims, hmem'⟩ := exists_of_mem_claims hk
    rcases mem_cons.mp hmem' with heq | hmem'
    · obtain ⟨htask, hclimb⟩ := hhead heq.symm hdoom
      exact ⟨[task], rest, rfl, htask ▸ hclimb⟩
    · have hkrest := mem_claims_of_mem hmem' hclaims
      have hover := hsound.over_claim hrest hstacked.2 hkrest hdoom
      cases task with
      | prepare c cstage =>
        obtain ⟨htask, hclimb⟩ := hhead rfl hover.1
        obtain ⟨middle, rest', rfl, hclimb'⟩ := ih hclimb hrest hstacked.2 hkrest
        refine ⟨.prepare c cstage :: middle, rest', rfl, ?_⟩
        rw [htask]
        rwa [append_assoc] at hclimb'
      | _ => exact hover.elim

theorem Sound.top_of_claim {task : Task} (h : e.Sound)
    (hcontrol : e.controls t = ⟨task :: rest, a⟩) (hdoom : e.Doomed k)
    (hk : k ∈ claims (task :: rest)) :
    ∃ d stage, task = .prepare d stage ∧ e.Doomed d ∧ (d = k ∨ k ∈ claims rest) := by
  obtain ⟨stage, hclaims, hmem⟩ := exists_of_mem_claims hk
  rcases mem_cons.mp hmem with rfl | hmem
  · exact ⟨k, stage, rfl, hdoom, .inl rfl⟩
  · have hkrest := mem_claims_of_mem hmem hclaims
    have hsuffix : rest <:+ (e.controls t).tasks := by
      rw [hcontrol]
      exact suffix_cons _ _
    have hover := h.over_claim hsuffix (hcontrol ▸ h.threads t).under hkrest hdoom
    cases task with
    | prepare d dstage => exact ⟨d, dstage, rfl, hover.1, .inr hkrest⟩
    | _ => exact hover.elim

theorem Sound.climb_top (h : e.Sound) (hcontrol : e.controls t = ⟨.prepare d stage :: rest, a⟩)
    (hdoom : e.Doomed d) : Climb (fun _ o => ∀ v, o ≠ .value v) e.world d [.prepare d stage] a := by
  have hsound := hcontrol ▸ h.threads t
  have hsuffix : rest <:+ (e.controls t).tasks := by
    rw [hcontrol]
    exact suffix_cons _ _
  cases a with
  | none =>
    obtain ⟨hacting, hstacked⟩ := hsound.acting _ rest rfl rfl
    cases stage with
    | request | waiting => exact .asking (.inl rfl)
    | refused => exact .asking (.inr (.inl rfl))
    | claimed => exact .asking (.inr (.inr rfl))
    | ready =>
      rcases hacting with hinit | hclaimed
      · exact absurd hinit (hdoom.not_initialized h)
      · have habove := (h.over_claim hsuffix hstacked hclaimed hdoom).2
        exact absurd (h.orderly.above_lt habove) (Nat.lt_irrefl _)
    | superclass | body => exact hacting.elim
  | some o =>
    have hanswered := hsound.answered o rfl
    have hall : .prepare d stage :: rest <:+ (e.controls t).tasks := by simp [hcontrol]
    have hover := h.over_claim hall hanswered (hanswered.claims_of_mem mem_cons_self) hdoom
    obtain ⟨rfl, s, hs, -⟩ := hdoom.waits h (hall.mem mem_cons_self) hanswered.1
    have hanswer : ∀ v, o ≠ .value v := by
      rintro v rfl
      exact hover
    exact .up hs (.answered hanswer)

theorem Sound.climb_of_claim (h : e.Sound) (hdoom : e.Doomed k)
    (hk : e.registry.phase k = .running t) :
    ∃ upper rest a, e.controls t = ⟨upper ++ rest, a⟩ ∧ upper ≠ [] ∧
      Climb (fun _ o => ∀ v, o ≠ .value v) e.world k upper a := by
  have hclaimed := ((h.threads t).owner k).mp hk
  rcases hcontrol : e.controls t with ⟨tasks, a⟩
  rw [hcontrol] at hclaimed
  cases tasks with
  | nil => cases hclaimed
  | cons task rest =>
    obtain ⟨d, stage, rfl, hdoom', hkd⟩ := h.top_of_claim hcontrol hdoom hclaimed
    have hclimb := h.climb_top hcontrol hdoom'
    rcases hkd with rfl | hkrest
    · exact ⟨[.prepare d stage], rest, a, rfl, cons_ne_nil _ _, hclimb⟩
    · have hsuffix : rest <:+ (e.controls t).tasks := by
        rw [hcontrol]
        exact suffix_cons _ _
      obtain ⟨middle, rest', rfl, hclimb'⟩ :=
        hclimb.extend h hsuffix (hcontrol ▸ h.threads t).under hkrest hdoom
      exact ⟨.prepare d stage :: middle, rest', a, rfl, cons_ne_nil _ _, hclimb'⟩

/-! ## Runs without end -/

/-- A run in which every thread keeps taking turns. -/
structure Fair (run : Nat → Engine) : Prop where
  step : ∀ n, ∃ started, Step (run n) started (run (n + 1))
  turn : ∀ t n, ∃ m, n ≤ m ∧ run (m + 1) = (run m).turn t

/-- From every state the threads can take turns fairly. -/
theorem exists_fair (e : Engine) : ∃ run, Fair run ∧ run 0 = e := by
  let run : Nat → Engine := fun n => n.rec e fun k e => e.turn k.unpair.1
  refine ⟨run, ⟨fun n => ⟨_, .turn n.unpair.1⟩, fun t n => ⟨t.pair n, Nat.right_le_pair t n, ?_⟩⟩, rfl⟩
  change (run (t.pair n)).turn (t.pair n).unpair.1 = (run (t.pair n)).turn t
  rw [Nat.unpair_pair]

/-- A request for the class is on its way up on top of the tasks. -/
def Climbing (P : World → Outcome → Prop) (t : ThreadId) (c : ClassId) (rest : List Task)
    (e : Engine) : Prop :=
  ∃ upper a, upper ≠ [] ∧ e.controls t = ⟨upper ++ rest, a⟩ ∧ Climb P e.world c upper a

def Answered (P : World → Outcome → Prop) (t : ThreadId) (c : ClassId) (rest : List Task)
    (e : Engine) : Prop :=
  ∃ o, e.controls t = ⟨rest, some o⟩ ∧ P e.world o ∧ e.registry.phase c = .failed

theorem Closer.climbing_or_answered (h : Closer P e t c rest) :
    Climbing P t c rest (e.turn t) ∨ Answered P t c rest (e.turn t) := by
  obtain ⟨-, upper, a, hcontrol, hclimb, hfailed⟩ := h
  by_cases hupper : upper = []
  · obtain ⟨o, rfl, ho⟩ := hclimb.of_nil hupper
    rw [hupper] at hcontrol
    exact .inr ⟨o, hcontrol, ho, hfailed hupper⟩
  · exact .inl ⟨upper, a, hupper, hcontrol, hclimb⟩

theorem Climbing.step (h : Climbing P t c rest e) (hP : Verdict P) (hsound : e.Sound)
    (hdoom : e.Doomed c) (hstep : Step e started e') :
    e'.controls t = e.controls t ∧ Climbing P t c rest e' ∨
      (e'.controls t).distance < (e.controls t).distance ∧
        (Climbing P t c rest e' ∨ Answered P t c rest e') := by
  obtain ⟨upper, a, hupper, hcontrol, hclimb⟩ := h
  have hkept : e'.controls t = e.controls t → Climbing P t c rest e' := fun hsame =>
    ⟨upper, a, hupper, hsame.trans hcontrol, hclimb.onward hP (hsound.onward hstep)⟩
  suffices hcases : e'.controls t = e.controls t ∨ Closer P e t c rest ∧ e' = e.turn t by
    rcases hcases with hsame | ⟨hcloser, rfl⟩
    · exact .inl ⟨hsame, hkept hsame⟩
    · exact .inr ⟨hcloser.1, hcloser.climbing_or_answered⟩
  rcases hstep.turn_or_stays with ⟨k, rfl, -⟩ | ⟨-, hstays⟩
  · by_cases hk : t = k
    · subst hk
      rcases hclimb.turn hP hsound hdoom hcontrol hupper with ⟨hsame, -⟩ | hcloser
      · exact .inl hsame
      · exact .inr ⟨hcloser, rfl⟩
    · exact .inl (controls_turn_of_ne hk)
  · refine .inl (hstays.controls t ?_)
    rw [hcontrol]
    exact append_ne_nil_of_left_ne_nil hupper _

/-- Only its own thread ends a claim, and of such a class only by a failure. -/
theorem Doomed.claim_step (h : e.Doomed c) (hsound : e.Sound)
    (hstep : Step e started e') (hclaim : e.registry.phase c = .running t) :
    e'.registry.phase c = .running t ∨ e'.registry.phase c = .failed := by
  obtain ⟨cls, hcls⟩ := h.known
  have hbegun : e.registry.phase c ≠ .uninitialized := by
    rw [hclaim]
    nofun
  rcases hstep.turn_or_stays with ⟨k, rfl, -⟩ | ⟨-, hstays⟩
  · have hadv := hsound.advances k
    by_cases hk : t = k
    · subst hk
      cases hphase : (e.turn t).registry.phase c with
      | failed => exact .inr rfl
      | initialized => exact absurd hphase (h.turn_not_initialized hsound t)
      | uninitialized => exact absurd hphase (hadv.onward.registry.begun c cls hcls hbegun)
      | running owner =>
        by_cases howner : owner = t
        · rw [howner]
          exact .inl rfl
        · cases hclaim.symm.trans ((hadv.others owner howner c).mp hphase)
          exact absurd rfl howner
    · exact .inl ((hadv.others t hk c).mpr hclaim)
  · exact .inl (phase_of_phase? (hstays.phases c _ (phase?_of_phase hcls hclaim)))

variable {run : Nat → Engine}

/-- From some point on, what the thread may have to wait for fails in the end. -/
def Unblocks (run : Nat → Engine) (t : ThreadId) (c : ClassId) (n : Nat) : Prop :=
  ∀ m d owner, n ≤ m → (run m).Doomed d → (run m).registry.phase d = .running owner → owner ≠ t →
    d ≤ c → ∃ k, m ≤ k ∧ (run k).registry.phase d = .failed

/-- The request comes closer to its answer, and it is under way until then. -/
def Nears (P : World → Outcome → Prop) (run : Nat → Engine) (t : ThreadId) (c : ClassId)
    (rest : List Task) (n : Nat) : Prop :=
  ∃ k, n ≤ k ∧ ((run k).controls t).distance < ((run n).controls t).distance ∧
    (Climbing P t c rest (run k) ∨ Answered P t c rest (run k)) ∧
    ∀ j, n ≤ j → j < k → Climbing P t c rest (run j)

namespace Fair

variable {n m : Nat}

section

variable (h : Fair run) (hfirst : (run 0).Sound)

include h hfirst

theorem sound (n : Nat) : (run n).Sound := by
  induction n with
  | zero => exact hfirst
  | succ n ih => exact ih.step (h.step n).choose_spec

theorem doomed (hle : n ≤ m) (hdoom : (run n).Doomed c) : (run m).Doomed c := by
  induction hle with
  | refl => exact hdoom
  | step _ ih => exact ih.step (h.sound hfirst _) (h.step _).choose_spec

theorem failed (hle : n ≤ m) (hfailed : (run n).registry.phase c = .failed) :
    (run m).registry.phase c = .failed := by
  induction hle with
  | refl => exact hfailed
  | step _ ih => exact ((h.sound hfirst _).onward (h.step _).choose_spec).registry.failed c ih

/-- Until it comes closer to its answer, a request stays where it is. -/
theorem stays_or_closer (hP : Verdict P) (hle : n ≤ m) (hdoom : (run n).Doomed c)
    (hclimbing : Climbing P t c rest (run n)) :
    ((run m).controls t = (run n).controls t ∧ ∀ j, n ≤ j → j ≤ m → Climbing P t c rest (run j)) ∨
      Nears P run t c rest n := by
  induction hle with
  | refl =>
    refine .inl ⟨rfl, fun j hn hm => ?_⟩
    rwa [Nat.le_antisymm hm hn]
  | @step m hle ih =>
    rcases ih with ⟨hsame, hall⟩ | hcloser
    · rcases (hall m hle (Nat.le_refl m)).step hP (h.sound hfirst m) (h.doomed hfirst hle hdoom)
        (h.step m).choose_spec with ⟨hsame', hnext⟩ | ⟨hlt, hnext⟩
      · refine .inl ⟨hsame'.trans hsame, fun j hn hm => ?_⟩
        rcases Nat.lt_or_eq_of_le hm with hm | rfl
        · exact hall j hn (Nat.le_of_lt_succ hm)
        · exact hnext
      · refine .inr ⟨m + 1, Nat.le_succ_of_le hle, hsame ▸ hlt, hnext, fun j hn hm => ?_⟩
        exact hall j hn (Nat.le_of_lt_succ hm)
    · exact .inr hcloser

/-- A request comes closer to its answer, as long as the classes it waits for fail in the end. -/
theorem comes_closer (hP : Verdict P) (hblocked : Unblocks run t c n) (hdoom : (run n).Doomed c)
    (hclimbing : Climbing P t c rest (run n)) : Nears P run t c rest n := by
  -- The next turn of the thread brings it closer, or it waits until a class has failed. Then the
  -- turn after that does.
  have hturn : ∀ {m}, n ≤ m → run (m + 1) = (run m).turn t →
      (∀ j, n ≤ j → j ≤ m → Climbing P t c rest (run j)) →
      (run m).controls t = (run n).controls t → Nears P run t c rest n ∨ (run m).Blocked t c := by
    intro m hle hnext hall hsame
    obtain ⟨upper, a, hupper, hcontrol, hclimb⟩ := hall m hle (Nat.le_refl m)
    rcases hclimb.turn hP (h.sound hfirst m) (h.doomed hfirst hle hdoom) hcontrol hupper with
      ⟨-, hwaits⟩ | hcloser
    · exact .inr hwaits
    · refine .inl ⟨m + 1, Nat.le_succ_of_le hle, ?_, ?_, fun j hn hm => ?_⟩
      · rw [hnext, ← hsame]
        exact hcloser.1
      · rw [hnext]
        exact hcloser.climbing_or_answered
      · exact hall j hn (Nat.le_of_lt_succ hm)
  obtain ⟨m, hnm, hnext⟩ := h.turn t n
  rcases h.stays_or_closer hfirst hP hnm hdoom hclimbing with ⟨hsame, hall⟩ | hcloser
  · rcases hturn hnm hnext hall hsame with hcloser | ⟨d, above, owner, hcontrol, howner, hne, hd, hle⟩
    · exact hcloser
    · obtain ⟨k, hmk, hfailed⟩ := hblocked m d owner hnm hd howner hne hle
      obtain ⟨m', hkm, hnext'⟩ := h.turn t k
      have hnm' : n ≤ m' := Nat.le_trans hnm (Nat.le_trans hmk hkm)
      rcases h.stays_or_closer hfirst hP hnm' hdoom hclimbing with ⟨hsame', hall'⟩ | hcloser
      · rcases hturn hnm' hnext' hall' hsame' with hcloser | ⟨d', _, owner', hcontrol', howner', -⟩
        · exact hcloser
        · cases hcontrol.symm.trans (hsame.trans (hsame'.symm.trans hcontrol'))
          cases (h.failed hfirst hkm hfailed).symm.trans howner'
      · exact hcloser
  · exact hcloser

theorem answers (hP : Verdict P) (hblocked : Unblocks run t c n) (hdoom : (run n).Doomed c)
    (hclimbing : Climbing P t c rest (run n)) :
    ∃ k, n ≤ k ∧ Answered P t c rest (run k) ∧ ∀ j, n ≤ j → j < k →
      Climbing P t c rest (run j) := by
  induction hdistance : ((run n).controls t).distance using Nat.strongRecOn
    generalizing n with
  | ind distance ih =>
    obtain ⟨m, hnm, hlt, hnext, hall⟩ := h.comes_closer hfirst hP hblocked hdoom hclimbing
    rcases hnext with hclimbing' | hanswered
    · obtain ⟨k, hmk, hanswered, hall'⟩ := ih _ (hdistance ▸ hlt)
        (fun j d owner hmj => hblocked j d owner (Nat.le_trans hnm hmj))
        (h.doomed hfirst hnm hdoom) hclimbing' rfl
      refine ⟨k, Nat.le_trans hnm hmk, hanswered, fun j hn hk => ?_⟩
      rcases Nat.lt_or_ge j m with hjm | hmj
      · exact hall j hn hjm
      · exact hall' j hmj hk
    · exact ⟨m, hnm, hanswered, hall⟩

theorem claim_stays (hle : n ≤ m) (hdoom : (run n).Doomed c)
    (hclaim : (run n).registry.phase c = .running t) :
    (run m).registry.phase c = .running t ∨ (run m).registry.phase c = .failed := by
  induction hle with
  | refl => exact .inl hclaim
  | @step m hle ih =>
    have hsound := h.sound hfirst m
    have hstep := (h.step m).choose_spec
    rcases ih with hrunning | hfailed
    · exact (h.doomed hfirst hle hdoom).claim_step hsound hstep hrunning
    · exact .inr ((hsound.onward hstep).registry.failed c hfailed)

theorem fails (hdoom : (run n).Doomed c) (hclaim : (run n).registry.phase c = .running t) :
    ∃ k, n ≤ k ∧ (run k).registry.phase c = .failed := by
  induction c using Nat.strongRecOn generalizing n t with
  | ind c ih =>
    obtain ⟨upper, rest, a, hcontrol, hupper, hclimb⟩ :=
      (h.sound hfirst n).climb_of_claim hdoom hclaim
    have hblocked : Unblocks run t c n := by
      intro m d owner hnm hd howner hne hle
      rcases Nat.lt_or_eq_of_le hle with hlt | rfl
      · exact ih d hlt hd howner
      · rcases h.claim_stays hfirst hnm hdoom hclaim with hrunning | hfailed
        · cases howner.symm.trans hrunning
          exact absurd rfl hne
        · cases howner.symm.trans hfailed
    obtain ⟨k, hnk, ⟨o, -, -, hfailed⟩, -⟩ :=
      h.answers hfirst verdict_failure hblocked hdoom ⟨upper, a, hupper, hcontrol, hclimb⟩
    exact ⟨k, hnk, hfailed⟩

/-- A request for a class that can no longer be initialized is refused in the end. -/
theorem refuses (hdoom : (run n).Doomed c)
    (hrequest : (run n).controls t = ⟨.prepare c .request :: rest, none⟩) :
    ∃ k x, n ≤ k ∧ (run k).controls t = ⟨rest, some (.thrown x)⟩ ∧ Refusal (run k).world x ∧
      (run k).registry.phase c = .failed ∧ ∀ j, n ≤ j → j < k →
      rest.length < ((run j).controls t).tasks.length := by
  obtain ⟨k, hnk, ⟨o, hcontrol, ⟨x, rfl, hx⟩, hfailed⟩, hall⟩ := h.answers hfirst verdict_refusal
    (fun m d owner _ hd howner _ _ => h.fails hfirst hd howner) hdoom
    ⟨[.prepare c .request], none, cons_ne_nil _ _, hrequest, .asking (.inl rfl)⟩
  refine ⟨k, x, hnk, hcontrol, hx, hfailed, fun j hnj hjk => ?_⟩
  obtain ⟨upper, a, hupper, hcontrol, -⟩ := hall j hnj hjk
  rw [hcontrol, length_append]
  have hpos := length_pos_iff.mpr hupper
  omega

end

end Fair

end

end Engine

end ManagedCore
