import ManagedCore.Proofs.Rendezvous.Loops

/-!
# A rendezvous without interference

While nobody disturbs them, a thread and a coordinator go by their single steps through what the
engine computes at once: a safepoint, the start of a region and its end, and the start, the end and
the cancellation of a rendezvous.
-/

namespace ManagedCore.StopTheWorld.Machine

open Rendezvous

variable {s : Machine} {ss : Session} {a : Agent} {id : ThreadId} {t : Thread}

/-! ## Calls of a thread -/

section

variable (hm : s.mutex = none) (hidle : s.control (.thread id) = .idle)
  (ht : s.threads.find? id = some t)

include hm hidle ht

theorem computes_join (hp : t.yieldFlag = true → s.rendezvous.phase ≠ .idle) :
    Execution s (s.after (.thread id)
      (if t.yieldFlag then .parkWait .safepoint s.rendezvous.generation else .idle)
      (s.rendezvous.join s.threads id)) := by
  obtain ⟨n, hrun⟩ := Control.run_poll (b := (s.rendezvous, s.threads)) ht hp
  exact (Execution.call hm hidle (.safepoint id)).run hrun

theorem computes_enter :
    Execution s (s.after (.thread id) .idle (s.rendezvous.enter s.threads id)) := by
  obtain ⟨n, hrun⟩ := Control.run_enterLoad (b := (s.rendezvous, s.threads)) ht .region
  exact (Execution.call hm hidle (.enter id)).run hrun

theorem computes_leave (hp : t.yieldFlag = true → s.rendezvous.phase ≠ .idle)
    (hn : s.guardRegions id < t.uncooperative) :
    Execution s (s.after (.thread id) (if t.yieldFlag ∧ t.uncooperative = 1
      then .parkWait .leave s.rendezvous.generation else .idle)
      (s.rendezvous.leave s.threads id)) := by
  obtain ⟨n, hrun⟩ := Control.run_leaveSub (b := (s.rendezvous, s.threads)) ht hp
  have hregions : regions s.threads id = t.uncooperative := by rw [regions, ht]; rfl
  exact (Execution.call hm hidle (.leave id (by rw [hregions]; exact hn))).run hrun

end

/-! ## The start of a rendezvous -/

/-- No rendezvous runs, and the state lock is free. -/
structure Quiet (s : Machine) : Prop where
  mutex : s.mutex = none
  session : s.session = none
  readers : s.readers = []
  sorted : s.threads.ids.Pairwise (· < ·)
  registered : s.threads.ids.Perm s.registered

/-- The coordinator is the initiator, or there is none. -/
def Leads (s : Machine) (a : Agent) (initiator : Option ThreadId) : Prop :=
  ∀ id, initiator = some id → a = .thread id ∧ (s.threads.find? id).isSome

theorem Leads.initiator {initiator : Option ThreadId} (h : s.Leads a initiator) :
    a.initiator initiator.isSome = initiator := by
  cases initiator with
  | none => cases a <;> rfl
  | some id =>
    obtain ⟨rfl, _⟩ := h id rfl
    rfl

def sessionOf (s : Machine) (a : Agent) (initiator : Option ThreadId) : Session :=
  { agent := a, initiator, members := s.threads.ids }

/-- Once all threads are counted, the coordinator has its guard. -/
def guarded (s : Machine) (ss : Session) (b : Rendezvous × Threads) : Machine :=
  (s.during ss (.complete b.1.statuses) (b.1.stopWorld, b.2)).goTo ss.agent .idle

theorem ids_enterInitiator (r : Rendezvous) (ts : Threads) (initiator : Option ThreadId) :
    (r.enterInitiator ts initiator).2.ids = ts.ids := by
  have haccount (ts : Threads) (id : ThreadId) (status : ThreadStatus) :
      (r.account ts id status).2.ids = ts.ids := by
    cases ht : ts.find? id with
    | none => simp only [Rendezvous.account, ht]
    | some t => rw [account_eq r ht, ts.ids_modify id (f := setJoined true) fun _ => rfl]
  unfold enterInitiator Rendezvous.enter Rendezvous.joinBefore
  repeat' split
  all_goals simp [haccount, Threads.ids_modify]

section

variable {initiator : Option ThreadId} (h : s.Quiet) (hidle : s.control a = .idle)
  (hl : s.Leads a initiator)
include h hl

include hidle

theorem Quiet.approach : Execution s (s.after a (.membership initiator.isSome)
      (enterInitiator s.rendezvous s.threads initiator)) := by
  cases initiator with
  | none => exact Execution.call h.mutex hidle (.coordinate a)
  | some id =>
    obtain ⟨rfl, hsome⟩ := hl id rfl
    obtain ⟨t, ht⟩ := Option.isSome_iff_exists.mp hsome
    obtain ⟨n, hrun⟩ := Control.run_enterLoad (b := (s.rendezvous, s.threads)) ht .synchronize
    exact (Execution.call h.mutex hidle (.synchronize id)).run hrun

theorem Quiet.loops : Execution s (s.during (s.sessionOf a initiator) .test
      (s.rendezvous.request s.threads initiator)) := by
  have hids := ids_enterInitiator s.rendezvous s.threads initiator
  have hloops := (h.approach hidle hl).convene h.session h.readers
    (by rw [hids]; exact h.sorted) (by rw [hids]; exact h.registered)
  rw [hl.initiator, hids] at hloops
  exact hloops

/-- A request ends with the guard if all threads are counted already, and otherwise goes to wait for
them. -/
theorem Quiet.request : Execution s (if (s.rendezvous.request s.threads initiator).1.isComplete
      then s.guarded (s.sessionOf a initiator) (s.rendezvous.request s.threads initiator)
      else s.during (s.sessionOf a initiator) .wait (s.rendezvous.request s.threads initiator)) := by
  have hloops := h.loops hidle hl
  split
  · rename_i hcomplete
    exact hloops.coordinate (.complete rfl hcomplete)
  · rename_i hcomplete
    exact hloops.coordinate (.wait rfl (Bool.eq_false_iff.mpr hcomplete))

end

theorem waiting (hss : s.session = some ss) (hst : ss.stage = .wait) (hm : s.mutex = none)
    (hc : s.control ss.agent = .coordinating) :
    Execution s (s.during ss .wait (s.rendezvous, s.threads)) := by
  rw [← hst, during_self hss hc (by rw [hst]; exact hm)]
  exact .refl s

theorem computes_stopWorld (hss : s.session = some ss) (hst : ss.stage = .wait) (hm : s.mutex = none)
    (hc : s.control ss.agent = .coordinating) (hcomplete : s.rendezvous.isComplete = true) :
    Execution s (s.guarded ss (s.rendezvous, s.threads)) := by
  have htest : Execution s (s.during ss .test (s.rendezvous, s.threads)) :=
    (waiting hss hst hm hc).coordinate (.wake rfl rfl)
  exact htest.coordinate (.complete rfl hcomplete)

/-! ## The end of a rendezvous -/

/-- A parked thread waits for the end of its rendezvous. -/
def Waits (control : Agent → Control) (id : ThreadId) (t : Thread) : Prop :=
  t.inRendezvous = true → ∃ g, control (.thread id) = .parkWait (parking t) g

theorem wakes (hm : s.mutex = none) (hphase : s.rendezvous.phase = .idle)
    (ht : s.threads.find? id = some t) (hw : Waits s.control id t) :
    ∃ control, Execution s { s with threads := s.threads.modify id wakeThread, control } ∧
      ∀ a, (∀ k g, s.control a ≠ .parkWait k g) ∨ a ≠ .thread id → control a = s.control a := by
  cases hin : t.inRendezvous with
  | false =>
    have hsame : s.threads.modify id wakeThread = s.threads :=
      Threads.modify_self fun t' ht' => by
        cases ht.symm.trans ht'
        cases t
        simp_all [wakeThread]
    rw [hsame]
    exact ⟨s.control, .refl s, fun _ _ => rfl⟩
  | true =>
    obtain ⟨g, hc⟩ := hw hin
    obtain ⟨n, hrun⟩ := Control.run_parkWait (b := (s.rendezvous, s.threads)) ht hphase hin g
    have hstart : Execution s (s.after (.thread id) (.parkWait (parking t) g)
        (s.rendezvous, s.threads)) := by
      rw [← hc, after_self (by rw [hc]; exact hm)]
      exact .refl s
    have hend := hstart.run hrun
    refine ⟨route s.control (.thread id) .idle, ?_, ?_⟩
    · rw [hm]
      exact hend
    · rintro a (hne | hne)
      · exact route_ne fun ha => hne _ _ (ha ▸ hc)
      · exact route_ne hne

theorem wakesAll (hm : s.mutex = none) (hphase : s.rendezvous.phase = .idle) {l : List ThreadId}
    (hn : l.Nodup) (hl : ∀ id ∈ l, ∃ t, s.threads.find? id = some t ∧ Waits s.control id t) :
    ∃ control, Execution s { s with threads := s.threads.modifyAll wakeThread l, control } ∧
      ∀ a, (∀ k g, s.control a ≠ .parkWait k g) → control a = s.control a := by
  induction l generalizing s with
  | nil => exact ⟨s.control, .refl s, fun _ _ => rfl⟩
  | cons id l ih =>
    obtain ⟨t, ht, hw⟩ := hl id List.mem_cons_self
    obtain ⟨hnot, hn⟩ := List.nodup_cons.mp hn
    obtain ⟨control, hwake, hkeep⟩ := wakes hm hphase ht hw
    have hrest : ∀ k ∈ l, ∃ t, (s.threads.modify id wakeThread).find? k = some t ∧
        Waits control k t := by
      intro k hk
      obtain ⟨t', ht', hw'⟩ := hl k (List.mem_cons_of_mem id hk)
      have hne : k ≠ id := fun heq => hnot (heq ▸ hk)
      refine ⟨t', ?_, fun hin => ?_⟩
      · rw [s.threads.find?_modify_ne (f := wakeThread) (fun _ => rfl) hne, ht']
      · rw [hkeep (.thread k) (.inr fun heq => hne (Agent.thread.inj heq))]
        exact hw' hin
    obtain ⟨control', hall, hkeep'⟩ := ih (s := { s with
      threads := s.threads.modify id wakeThread, control }) hm hphase hn hrest
    refine ⟨control', hwake.trans hall, fun a ha => ?_⟩
    have hsame : control a = s.control a := hkeep a (.inl ha)
    rw [← hsame] at ha ⊢
    exact hkeep' a ha

/-- After its last loop the coordinator gives the membership lock back and leaves its own region,
and the parked threads go on. -/
theorem adjourns (hm : s.mutex = none) (hss : s.session = some ss) (hst : ss.stage = .leave)
    (hc : s.control ss.agent = .coordinating) (hphase : s.rendezvous.phase = .idle)
    (hn : s.threads.ids.Nodup) (hl : s.Leads ss.agent ss.initiator)
    (hdown : ∀ id t, s.threads.find? id = some t → t.yieldFlag = false ∧ Waits s.control id t) :
    ∃ s', Execution s s' ∧ s'.session = none ∧
      (s'.rendezvous, s'.threads) = s.rendezvous.leaveInitiator
        (s.threads.modifyAll wakeThread s.threads.ids) ss.initiator := by
  obtain ⟨control, hwake, hkeep⟩ := wakesAll hm hphase hn fun id hid => by
    obtain ⟨t, ht⟩ := Option.isSome_iff_exists.mp (Threads.mem_ids_iff.mp hid)
    exact ⟨t, ht, (hdown id t ht).2⟩
  have hc' : control ss.agent = .coordinating := (hkeep _ (by rw [hc]; nofun)).trans hc
  have hleave := hwake.step (.coordinate hss hc' (.leave hst))
  cases hi : ss.initiator with
  | none => exact ⟨_, hleave, rfl, rfl⟩
  | some id =>
    obtain ⟨ha, hsome⟩ := hl id hi
    obtain ⟨t, ht⟩ := Option.isSome_iff_exists.mp hsome
    have ht' : (s.threads.modifyAll wakeThread s.threads.ids).find? id = some (wakeThread t) := by
      rw [Threads.find?_modifyAll_ids (f := wakeThread) (fun _ => rfl) hn, ht]
      rfl
    obtain ⟨n, hrun⟩ := Control.run_leaveSub (b := (s.rendezvous, _)) ht' fun hy => by
      rw [wakeThread, (hdown id t ht).1] at hy
      cases hy
    have hstart : Execution s ({ s with control, session := none }.after (.thread id) .leaveSub
        (s.rendezvous, s.threads.modifyAll wakeThread s.threads.ids)) := by
      rw [hi, ha, hm] at hleave
      exact hleave
    exact ⟨_, hstart.run hrun, rfl, rfl⟩

/-- From the loop over the flags on, both ways out of a rendezvous are the same. -/
theorem computes_release {s₀ : Machine} {o : Outcome} {b : Rendezvous × Threads}
    (h : Execution s₀ (s.during ss (.clear ss.members o) b)) (hmem : ss.members = b.2.ids)
    (hn : b.2.ids.Nodup)
    (hl : ∀ id, ss.initiator = some id → ss.agent = .thread id ∧ (b.2.find? id).isSome)
    (hw : ∀ id t, b.2.find? id = some t → Waits (route s.control ss.agent .coordinating) id t) :
    ∃ s', Execution s₀ s' ∧ s'.session = none ∧ (s'.rendezvous, s'.threads) =
      (o.tally (b.1.release b.2).1).leaveInitiator (b.1.release b.2).2 ss.initiator := by
  have hids := Threads.ids_modifyAll (f := clearThread) (fun _ => rfl) b.2 b.2.ids
  have hfind := Threads.find?_modifyAll_ids (f := clearThread) (fun _ => rfl) hn
  obtain ⟨s', hex, hsession, heq⟩ := adjourns (s := s.during ss .leave (o.tally
    { b.1 with phase := .idle }, b.2.modifyAll clearThread ss.members))
    rfl rfl rfl route_self (by cases o <;> rfl) (by rw [during, hmem, hids]; exact hn)
    (fun id hi => ⟨(hl id hi).1, by rw [during, hmem, hfind, Option.isSome_map]; exact (hl id hi).2⟩)
    fun id t ht => by
      rw [during, hmem, hfind] at ht
      obtain ⟨t₀, ht₀, rfl⟩ := Option.map_eq_some_iff.mp ht
      exact ⟨rfl, hw id t₀ ht₀⟩
  rw [during, hmem, hids] at heq
  exact ⟨s', h.clearLoop.trans hex, hsession, heq⟩

section

variable (hss : s.session = some ss) (hm : s.mutex = none)
  (hmem : ss.members = s.threads.ids) (hn : s.threads.ids.Nodup)
  (hl : s.Leads ss.agent ss.initiator)
  (hw : ∀ id t, s.threads.find? id = some t → Waits s.control id t)

include hss hm hmem hn hl hw

theorem computes_finish {statuses : List (ThreadId × ThreadStatus)}
    (hst : ss.stage = .complete statuses) (hidle : s.control ss.agent = .idle) :
    ∃ s', Execution s s' ∧ s'.session = none ∧
      (s'.rendezvous, s'.threads) = s.rendezvous.finish s.threads ss.initiator := by
  have hdrop := (Execution.refl s).step (.drop hss hidle hst)
  have hrelock : Execution s (s.during ss .relock (s.rendezvous, s.threads)) := by
    rw [during, ← hm]
    exact hdrop
  have hclear : Execution s (s.during ss (.clear ss.members .finished) (s.rendezvous, s.threads)) :=
    hrelock.coordinate (.relock rfl rfl)
  refine computes_release hclear hmem hn hl fun id t ht hin => ?_
  obtain ⟨g, hc⟩ := hw id t ht hin
  refine ⟨g, (route_ne fun heq => ?_).trans hc⟩
  rw [heq, hidle] at hc
  cases hc

theorem computes_cancel (hst : ss.stage = .wait) (hc : s.control ss.agent = .coordinating)
    (hcomplete : s.rendezvous.isComplete = false) : ∃ s', Execution s s' ∧ s'.session = none ∧
      (s'.rendezvous, s'.threads) = (s.rendezvous.cancel s.threads ss.initiator).2 := by
  have hclear : Execution s (s.during ss (.clear ss.members .cancelled) (s.rendezvous, s.threads)) :=
    (waiting hss hst hm hc).coordinate (.timeout rfl rfl hcomplete)
  refine computes_release hclear hmem hn hl ?_
  rw [← hc, route_same]
  exact hw

end

/-! ## A whole run -/

/-- A machine with a thread in its own code, one that will stop at a safepoint and one in a region. -/
def trio : Machine where
  threads :=
    { members := #[
        { id := 1, name := "main" },
        { id := 2, name := "worker" },
        { id := 3, name := "native", uncooperative := 1, savedSp := true }]
      nextId := 4 }
  registered := [1, 2, 3]

theorem trio_initial : trio.Initial where
  registered := by decide
  phase := rfl
  flags _ t ht :=
    (by decide : ∀ t ∈ trio.threads.members, t.yieldFlag = false ∧ t.joined = false) t
      (Array.mem_of_find?_eq_some ht)
  mutex := rfl
  readers := rfl
  session := rfl
  control _ := rfl

theorem trio_quiet : trio.Quiet where
  mutex := rfl
  session := rfl
  readers := rfl
  sorted := by decide
  registered := .refl _

/-- The first thread coordinates, the second parks at a safepoint, and the guard is out. -/
theorem exists_guard : ∃ (s : Machine) (ss : Session), s.Reachable ∧ s.session = some ss ∧
    ss.initiator = some 1 ∧ ss.members = [1, 2, 3] ∧ s.mutex = none ∧
    s.rendezvous.phase = .complete ∧
    ss.stage = .complete [(1, .initiator), (3, .uncooperative true), (2, .safepoint)] := by
  have hl : trio.Leads (.thread 1) (some 1) := fun id hid => by cases hid; exact ⟨rfl, by decide⟩
  let b := trio.rendezvous.request trio.threads (some 1)
  let s₁ := trio.during (trio.sessionOf (.thread 1) (some 1)) .wait b
  have hwait : Execution trio s₁ := by
    have hrequest := trio_quiet.request rfl hl
    rwa [if_neg (by decide +kernel)] at hrequest
  obtain ⟨t, ht, hy⟩ := (Option.any_eq_true (·.yieldFlag) (s₁.threads.find? 2)).mp (by decide +kernel)
  have hjoin := computes_join rfl rfl ht fun _ => by decide +kernel
  rw [if_pos hy] at hjoin
  have hguard := computes_stopWorld (s := s₁.after (.thread 2)
    (.parkWait .safepoint s₁.rendezvous.generation) (b.1.join b.2 2)) rfl rfl rfl rfl
    (by decide +kernel)
  exact ⟨_, _, ⟨trio, trio_initial, (hwait.trans hjoin).trans hguard⟩, rfl, rfl, rfl, rfl, rfl,
    congrArg Stage.complete (by decide +kernel)⟩

end ManagedCore.StopTheWorld.Machine
