import ManagedCore.Proofs.Monitor.Uninterrupted
import Mathlib.Logic.Relation

/-!
# A monitor is a re-entrant lock

However the steps of its threads interleave, owner and hold count of a monitor change as those of a
re-entrant lock that serves one call at a time. The three forms of the lock do not show, and neither
does the change from one to the next.
-/

namespace ManagedCore.Contention

open LockWord MonitorTable

theorem Control.rank_pos (lock : Lock) {c : Control} {op : Op} (hc : c.call = .pending op) :
    0 < c.rank lock := by
  cases c with
  | idle | done => cases hc
  | enterStore | exitStore | acquire | wait | release | lookup | exitLoad => exact Nat.succ_pos _
  | enterSwap | contendLoad | reserve | insert | publish | withdraw =>
    simp only [rank]
    split <;> exact Nat.succ_pos _

namespace Reentrant

/-- A lock that nobody has and nobody asks for. -/
def unheld : Reentrant := ⟨none, 0, fun _ => .none⟩

theorem Step.outcome {l l' : Reentrant} (h : l.Step l') {t : ThreadId} {op op' : Op}
    {result : Except MonitorError Unit} (hc : l.calls t = .pending op)
    (hc' : l'.calls t = .answered op' result) :
    result = .ok () ∨ result = .error (.notOwner t) ∧ op = .exit ∧ l.owner ≠ some t ∨
      result = .error .recursionOverflow ∧ op = .enter ∧ l.holds = maxHolds := by
  have hself {k : ThreadId} {c : Call} {m : Reentrant} (hm : m.calls = l.calls)
      (hk : (m.setCall k c).calls t = .answered op' result) : k = t ∧ c = .answered op' result := by
    simp only [setCall] at hk
    split at hk
    · rename_i heq
      exact ⟨heq.symm, hk⟩
    · rw [hm, hc] at hk
      cases hk
  cases h with
  | call | answer => cases (hself rfl hc').2
  | enter | exit =>
    cases (hself rfl hc').2
    exact .inl rfl
  | overflow k hk _ hfull =>
    obtain ⟨rfl, hanswer⟩ := hself rfl hc'
    cases hanswer
    rw [hk] at hc
    cases hc
    exact .inr (.inr ⟨rfl, rfl, hfull⟩)
  | notOwner k hk hne =>
    obtain ⟨rfl, hanswer⟩ := hself rfl hc'
    cases hanswer
    rw [hk] at hc
    cases hc
    exact .inr (.inl ⟨rfl, rfl, hne⟩)

end Reentrant

namespace Machine

variable {s s' s₀ : Machine} {t : ThreadId} {table : MonitorTable}
  {result : Except MonitorError Unit} {table' : MonitorTable}

/-! ## Lock numbers are not given back -/

theorem size_acquire {id : Nat} (h : table.acquire id t = .ok (some table')) :
    table'.fats.size = table.fats.size := by
  simp only [acquire] at h
  split at h
  · cases h
  · split at h
    · cases h
      exact size_setFat ..
    · split at h
      · cases h
      · split at h
        · cases h
          exact size_setFat ..
        · cases h

theorem size_release {id : Nat} (h : table.release id t = .ok table') :
    table'.fats.size = table.fats.size := by
  simp only [release] at h
  split at h
  · cases h
  · split at h
    · cases h
    · split at h <;> (cases h; exact size_setFat ..)

theorem size_turn (s : Machine) (t : ThreadId) : s.table.fats.size ≤ (s.turn t).table.fats.size ∧
      (s.turn t).table.fats.size ≤ s.table.fats.size + 1 := by
  have hsame : s.table.fats.size ≤ s.table.fats.size ∧
      s.table.fats.size ≤ s.table.fats.size + 1 := by omega
  cases hc : s.control t with
  | idle | done | enterStore | exitLoad | exitStore =>
    simp only [turn, hc]
    exact hsame
  | enterSwap | publish | contendLoad | lookup =>
    simp only [turn, hc]
    repeat' split
    all_goals exact hsame
  | reserve k =>
    simp only [turn, hc, goTo, size_reserve]
    omega
  | insert k id | withdraw k id =>
    simp only [turn, hc, goTo, size_setFat, size_removeFat]
    exact hsame
  | acquire id =>
    simp only [turn, hc]
    split
    · rename_i h
      simp only [succeed, goTo, size_acquire h]
      exact hsame
    · exact hsame
    · exact hsame
  | wait id =>
    simp only [turn, hc]
    split
    · simp only [succeed, goTo, size_setFat]
      exact hsame
    · exact hsame
  | release id =>
    simp only [turn, hc]
    split
    · rename_i h
      simp only [succeed, goTo, size_release h]
      exact hsame
    · exact hsame

theorem Step.size (h : s.Step s') : s.table.fats.size ≤ s'.table.fats.size := by
  cases h with
  | call | answer => exact Nat.le_refl _
  | turn t => exact (size_turn s t).1
  | reserveForeign =>
    simp only [size_reserve]
    omega
  | setForeign => simp only [size_setFat, Nat.le_refl]
  | removeForeign => simp only [size_removeFat, Nat.le_refl]

theorem Execution.size (h : Execution s s') : s.table.fats.size ≤ s'.table.fats.size := by
  induction h with
  | refl => exact Nat.le_refl _
  | step _ hs ih => exact Nat.le_trans ih hs.size

/-! ## One step -/

theorem view_calls (s : Machine) (t : ThreadId) : s.view.calls t = (s.control t).call := rfl

structure Refines (s s' : Machine) : Prop where
  inv : s'.Inv
  lock : s'.view = s.view ∨ s.view.Step s'.view
  word : isFat s.word = true → s'.word = s.word

theorem Inv.call (h : s.Inv) (hvalid : ValidId t) (hc : s.control t = .idle) (op : Op) :
    s.Refines (s.goTo t (.start op)) := by
  have hstands : (Control.start op).Stands s.lock s.table t := by cases op <;> trivial
  have hnone : (Control.start op).reserved = none := by cases op <;> rfl
  have hcall : (Control.start op).call = .pending op := by cases op <;> rfl
  rw [h.goTo_eq_after]
  refine ⟨h.after hvalid (.keep s.lock) .refl h.few h.lock hstands
    (fun id hid => by rw [hnone] at hid; cases hid), .inr ?_, fun _ => h.word.symm⟩
  rw [view_after h.fits, hcall]
  exact .call t op (by rw [view_calls, hc]; rfl)

theorem Inv.answer (h : s.Inv) {op : Op} (hc : s.control t = .done op result) :
    s.Refines (s.goTo t .idle) := by
  have hvalid := (h.standing hc nofun).1
  rw [h.goTo_eq_after]
  refine ⟨h.after hvalid (.keep s.lock) .refl h.few h.lock trivial
    (fun id hid => by cases hid), .inr ?_, fun _ => h.word.symm⟩
  rw [view_after h.fits]
  exact .answer t (by rw [view_calls, hc]; rfl)

/-- Other objects do not show in the lock of this one. -/
theorem Inv.refines_elsewhere (h : s.Inv) {foreign : List Nat}
    (hinv : { s with table := table, foreign := foreign }.Inv)
    (hfat : ∀ id, id ∉ s.foreign → table.fat? id = s.table.fat? id) :
    s.Refines { s with table := table, foreign := foreign } := by
  have hlock : ∀ id, s.lock = .fat id → table.fat? id = s.table.fat? id :=
    fun id hid => hfat id (h.fat_lock hid).1
  have hview := view_congr hlock
  refine ⟨hinv, .inl ?_, fun _ => rfl⟩
  simp only [view, Reentrant.mk.injEq, and_true]
  exact hview

theorem Inv.refines (h : s.Inv) (hs : s.Step s') (few : s'.table.fats.size < 2 ^ 32) :
    s.Refines s' := by
  cases hs with
  | call t op ht hc => exact h.call ht hc op
  | turn t =>
    have hturned := h.turn t few
    refine ⟨hturned.inv, hturned.refines.imp (·.1) (·.1), fun hfat => ?_⟩
    rw [h.isFat_word] at hfat
    cases hl : s.lock with
    | fat id => exact hturned.word id hl
    | unlocked | thin =>
      rw [hl] at hfat
      cases hfat
  | answer t hc => exact h.answer hc
  | reserveForeign => exact h.refines_elsewhere (h.reserveForeign few) fun id _ => fat?_reserve _ id
  | setForeign id l hid =>
    have hother : ∀ k, k ≠ id → (s.table.setFat id l).fat? k = s.table.fat? k :=
      fun k hk => by rw [fat?_setFat (h.foreign id hid), if_neg hk]
    exact h.refines_elsewhere (h.changeForeign hid rfl (size_setFat ..) hother)
      fun k hk => hother k fun heq => hk (heq ▸ hid)
  | removeForeign id hid =>
    have hother : ∀ k, k ≠ id → (removeFat s.table id).fat? k = s.table.fat? k :=
      fun k hk => by rw [fat?_removeFat (h.foreign id hid), if_neg hk]
    exact h.refines_elsewhere (h.changeForeign hid rfl (size_removeFat ..) hother)
      fun k hk => hother k fun heq => hk (heq ▸ hid)

/-! ## Whole runs -/

theorem Execution.inv (h₀ : s₀.Initial) (h : Execution s₀ s) (few : s.table.fats.size < 2 ^ 32) :
    s.Inv := by
  induction h with
  | refl => exact h₀.inv few
  | step _ hs ih => exact ((ih (Nat.lt_of_le_of_lt hs.size few)).refines hs few).inv

theorem Inv.reaches (h : s.Inv) (hs : Execution s s') (few : s'.table.fats.size < 2 ^ 32) :
    Relation.ReflTransGen Reentrant.Step s.view s'.view ∧
      (isFat s.word = true → s'.word = s.word) ∧ s'.Inv := by
  induction hs with
  | refl => exact ⟨.refl, fun _ => rfl, h⟩
  | step _ hstep ih =>
    obtain ⟨hrun, hword, hinv⟩ := ih (Nat.lt_of_le_of_lt hstep.size few)
    have hrefines := hinv.refines hstep few
    refine ⟨?_, fun hfat => ?_, hrefines.inv⟩
    · rcases hrefines.lock with hsame | hlock
      · rwa [hsame]
      · exact hrun.tail hlock
    · have hkeep := hword hfat
      rw [hrefines.word (hkeep ▸ hfat), hkeep]

/-- A call that the lock can serve is over once its rank has come down to nothing. -/
theorem Inv.answered (h : s.Inv) (hs : s.view.Serves t) (n : Nat)
    (hrank : (s.control t).rank s.lock ≤ n) (few : s.table.fats.size + n < 2 ^ 32) :
    ∃ m ≤ n, ∃ op result, (s.turns t m).control t = .done op result := by
  induction n generalizing s with
  | zero =>
    obtain ⟨op, hc⟩ : ∃ op, (s.control t).call = .pending op :=
      hs.elim (fun hc => ⟨_, hc⟩) fun hc => ⟨_, hc.1⟩
    have hpos := Control.rank_pos s.lock hc
    omega
  | succ n ih =>
    have hsize := (size_turn s t).2
    have hturned := h.turn t (by omega)
    rcases hturned.refines with ⟨hview, hless⟩ | ⟨_, op, result, hdone⟩
    · have hless := hless hs
      obtain ⟨m, hm, op, result, hdone⟩ := ih hturned.inv (hview ▸ hs) (by omega) (by omega)
      exact ⟨m + 1, by omega, op, result, hdone⟩
    · exact ⟨1, by omega, op, result, hdone⟩

/-- A thin lock never counts as far as a fat one can. -/
theorem Inv.fat_of_full (h : s.Inv) (hfull : s.view.holds = maxHolds) : isFat s.word = true := by
  have hlimit := h.limit
  rw [h.isFat_word]
  cases hl : s.lock with
  | unlocked =>
    rw [view_holds hl] at hfull
    cases hfull
  | thin owner n =>
    have hn := (h.thin_bounds hl).2.1
    have hholds : n + 1 = maxHolds := (view_holds hl).symm.trans hfull
    rw [maxHolds] at hholds
    omega
  | fat id => rfl

/-- A call comes back with an error only if it is an exit of a thread that does not have the lock, or
an entry while a fat lock is counted as often as it can be. -/
theorem Inv.outcome (h : s.Inv) (hs : s.Step s') (few : s'.table.fats.size < 2 ^ 32) {op : Op}
    (hc : (s.control t).call = .pending op) (hc' : s'.control t = .done op result) :
    result = .ok () ∨ result = .error (.notOwner t) ∧ op = .exit ∧ s.view.owner ≠ some t ∨
      result = .error .recursionOverflow ∧ op = .enter ∧ isFat s.word = true ∧
        s.view.holds = maxHolds := by
  have hcall' : s'.view.calls t = .answered op result := by rw [view_calls, hc']; rfl
  rcases (h.refines hs few).lock with hsame | hstep
  · rw [hsame, view_calls, hc] at hcall'
    cases hcall'
  · exact (hstep.outcome hc hcall').imp_right (·.imp_right fun ⟨hr, hop, hfull⟩ =>
      ⟨hr, hop, h.fat_of_full hfull, hfull⟩)

theorem Initial.view (h : s.Initial) : s.view = .unheld := by
  have hlock : s.lock = .unlocked := by rw [lock, h.word]; rfl
  simp only [Machine.view, hlock, Reentrant.unheld, Reentrant.mk.injEq]
  exact ⟨rfl, rfl, funext fun t => by rw [h.control t]; rfl⟩

/-- Monitors are re-entrant locks. At every point of a run, owner and hold count have changed as
those of a re-entrant lock; the next step is invisible or a step of that lock; a fat lock keeps its
word for good; no other errors come back than that an exit does not own the lock, or that a fat lock
is counted as often as it can be. A call that can be served is over after seven turns of its thread
at most, and a thread that is not interrupted does what the engine's entry and exit do. -/
theorem monitor_refines_reentrant_lock {s₀ s : Machine} (h₀ : s₀.Initial) (h : Execution s₀ s)
    (few : s.table.fats.size < 2 ^ 32) :
    Relation.ReflTransGen Reentrant.Step .unheld s.view ∧
    (∀ s', s.Step s' → s'.table.fats.size < 2 ^ 32 →
      (s'.view = s.view ∨ s.view.Step s'.view) ∧
      ∀ t op result, (s.control t).call = .pending op → s'.control t = .done op result →
        result = .ok () ∨ result = .error (.notOwner t) ∧ op = .exit ∧ s.view.owner ≠ some t ∨
          result = .error .recursionOverflow ∧ op = .enter ∧ isFat s.word = true ∧
            s.view.holds = maxHolds) ∧
    (∀ s', Execution s s' → s'.table.fats.size < 2 ^ 32 → isFat s.word = true →
      s'.word = s.word) ∧
    ∀ t, (s.view.Serves t → s.table.fats.size + 7 < 2 ^ 32 →
        ∃ n ≤ 7, ∃ op result, (s.turns t n).control t = .done op result) ∧
      (s.control t = .start .enter → s.turns t 4 = s.entered t (s.table.enter s.lock t)) ∧
      (s.control t = .contendLoad ∨ (∃ id, s.control t = .wait id) →
        s.turns t 4 = s.entered t (s.table.enterAfterWait s.lock t)) ∧
      (s.control t = .start .exit → s.turns t 3 = s.exited t (s.table.exit s.lock t)) := by
  have hinv := h.inv h₀ few
  refine ⟨?_, fun s' hs few' => ⟨(hinv.refines hs few').lock, fun t op result hc hc' => ?_⟩,
    fun s' hs few' => (hinv.reaches hs few').2.1, fun t => ⟨fun hs hfew => ?_, hinv.turns_enter, ?_,
      hinv.turns_exit⟩⟩
  · rw [← h₀.view]
    exact ((h₀.inv (Nat.lt_of_le_of_lt h.size few)).reaches h few).1
  · exact hinv.outcome hs few' hc hc'
  · exact hinv.answered hs 7 (Control.rank_le _ _) hfew
  · rintro (hc | ⟨id, hc⟩)
    · exact hinv.turns_contend hc
    · exact hinv.turns_wait hc 3

theorem Execution.turns (h : Execution s₀ s) (t : ThreadId) (n : Nat) :
    Execution s₀ (s.turns t n) := by
  induction n generalizing s with
  | zero => exact h
  | succ n ih => exact ih (h.step (.turn t))

theorem Execution.calls (h : Execution s₀ s) (ht : ValidId t) (hc : s.control t = .idle) (op : Op)
    (n : Nat) : Execution s₀ ((s.goTo t (.start op)).turns t n) :=
  (h.step (.call t op ht hc)).turns t n

/-- An object that nobody has locked yet, whose thin lock may be entered a second time. -/
def unused : Machine := { table := { maxRecursion := 1 } }

/-- Thread 1 has the lock and thread 2 waits for it. -/
def awaited : Machine :=
  (((unused.goTo 1 (.start .enter)).turns 1 1).goTo 1 .idle).goTo 2 (.start .enter) |>.turns 2 3

/-- Thread 1 has entered twice more, which is once too often for a thin lock. -/
def enteredThrice : Machine :=
  (((awaited.goTo 1 (.start .enter)).turns 1 2).goTo 1 .idle).goTo 1 (.start .enter) |>.turns 1 4

theorem initial_unused : unused.Initial :=
  ⟨rfl, fun id l h => by cases id <;> simp [unused, fat?] at h, nofun, fun _ => rfl, by decide⟩

theorem execution_awaited : Execution unused awaited := by
  have hone : ValidId 1 := by unfold ValidId; decide
  have htwo : ValidId 2 := by unfold ValidId; decide
  have hdone : ((unused.goTo 1 (.start .enter)).turns 1 1).control 1 = .done .enter (.ok ()) := rfl
  exact (((Execution.refl unused).calls hone rfl .enter 1).step (.answer 1 hdone)).calls htwo rfl
    .enter 3

theorem execution_enteredThrice : Execution unused enteredThrice := by
  have hone : ValidId 1 := by unfold ValidId; decide
  have hdone : ((awaited.goTo 1 (.start .enter)).turns 1 2).control 1 = .done .enter (.ok ()) := rfl
  exact ((execution_awaited.calls hone rfl .enter 2).step (.answer 1 hdone)).calls hone rfl .enter 4

theorem monitor_refines_reentrant_lock_thrice : unused.Initial ∧ Execution unused enteredThrice ∧
    enteredThrice.view.owner = some 1 ∧ enteredThrice.view.holds = 3 ∧
    enteredThrice.view.calls 2 = .pending .enter ∧
    Relation.ReflTransGen Reentrant.Step .unheld enteredThrice.view ∧
    ∀ s', Execution enteredThrice s' → s'.table.fats.size < 2 ^ 32 → s'.word = fatWord 1 := by
  have hrefines := monitor_refines_reentrant_lock initial_unused execution_enteredThrice (by decide)
  exact ⟨initial_unused, execution_enteredThrice, rfl, rfl, rfl, hrefines.1,
    fun s' hs few => hrefines.2.2.1 s' hs few rfl⟩

end Machine

end ManagedCore.Contention
