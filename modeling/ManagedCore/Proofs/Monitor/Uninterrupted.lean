import ManagedCore.Proofs.Monitor.Turns

/-!
# Calls that nobody interrupts

A thread that takes all its turns in a row does to the lock and the table what the engine's entry and
exit do in one go.
-/

namespace ManagedCore.Contention

open LockWord MonitorTable

namespace Machine

variable {s : Machine} {t : ThreadId} {l : Lock} {table : MonitorTable} {c c' : Control}
  {result : Except MonitorError Unit}

def turns (s : Machine) (t : ThreadId) : Nat → Machine
  | 0 => s
  | n + 1 => (s.turn t).turns t n

/-! ## Single turns -/

theorem after_self : (s.after t l table c).control t = c := goTo_self _ t c

theorem after_table : (s.after t l table c).table = table := rfl

theorem goTo_same : s.goTo t (s.control t) = s := by
  cases s with
  | mk word table foreign control =>
    simp only [goTo, mk.injEq, true_and]
    funext k
    split
    · rename_i hk
      rw [hk]
    · rfl

theorem goTo_goTo : (s.goTo t c).goTo t c' = s.goTo t c' := by
  simp only [goTo, mk.injEq, true_and]
  funext k
  split <;> rfl

theorem goTo_after : (s.after t l table c).goTo t c' = s.after t l table c' := goTo_goTo

theorem after_goTo : (s.goTo t c).after t l table c' = s.after t l table c' :=
  goTo_goTo (s := { s with word := encode l, table := table })

theorem after_after {l' : Lock} {table' : MonitorTable} :
    (s.after t l table c).after t l' table' c' = s.after t l' table' c' :=
  after_goTo

/-- A thread that waits on a word or on a fat lock has nothing to do. -/
theorem turns_of_fixed (h : s.turn t = s) (n : Nat) : s.turns t n = s := by
  induction n with
  | zero => rfl
  | succ n ih => rw [turns, h, ih]

theorem turns_done {op : Op} (hc : s.control t = .done op result) (n : Nat) : s.turns t n = s :=
  turns_of_fixed (by simp only [turn, hc]) n

theorem turns_after_done {op : Op} (n : Nat) :
    (s.after t l table (.done op result)).turns t n = s.after t l table (.done op result) :=
  turns_done after_self n

/-- Three turns make a fat lock, if the word is still the one that was seen. -/
theorem turns_inflate {k : Inflating} (hseen : encode l = k.seen) (n : Nat) :
    (s.after t l table (.reserve k)).turns t (n + 3) =
      s.after t (table.addFat t k.holds).1 (table.addFat t k.holds).2 (.done .enter (.ok ())) := by
  have hreserve : (s.after t l table (.reserve k)).turn t =
      s.after t l table.reserve.2 (.insert k table.reserve.1) := by
    simp only [turn, after_self]
    exact after_after
  have hinsert {table : MonitorTable} {id : Nat} : (s.after t l table (.insert k id)).turn t =
      s.after t l (table.setFat id ⟨some t, k.holds⟩) (.publish k id) := by
    simp only [turn, after_self]
    exact after_after
  have hpublish {table : MonitorTable} {id : Nat} : (s.after t l table (.publish k id)).turn t =
      s.after t (.fat id) table (.done .enter (.ok ())) := by
    have hword : (s.after t l table (.publish k id)).word = k.seen := hseen
    simp only [turn, after_self, if_pos hword]
    change (s.after t l table _).after t (.fat id) table _ = _
    exact after_after
  rw [turns, hreserve, turns, hinsert, turns, hpublish, turns_after_done]
  rfl

end Machine

def Control.waiting : Lock → Control
  | .fat id => wait id
  | _ => contendLoad

namespace Machine

variable {s : Machine} {t : ThreadId}

def entered (s : Machine) (t : ThreadId) : Except MonitorError Entering → Machine
  | .ok (.entered l table) => s.after t l table (.done .enter (.ok ()))
  | .ok .blocked => s.goTo t (.waiting s.lock)
  | .error e => s.goTo t (.done .enter (.error e))

def exited (s : Machine) (t : ThreadId) : Except MonitorError (Lock × MonitorTable) → Machine
  | .ok (l, table) => s.after t l table (.done .exit (.ok ()))
  | .error e => s.goTo t (.done .exit (.error e))

/-! ## Through the fat lock -/

section Fat

variable {id : Nat} {l : Lock} {table : MonitorTable}

theorem turn_acquire_eq (s : Machine) (t : ThreadId) :
    (s.after t l table (.acquire id)).turn t = match table.acquire id t with
      | .ok (some table') => s.after t l table' (.done .enter (.ok ()))
      | .ok none => s.after t l table (.wait id)
      | .error e => s.after t l table (.done .enter (.error e)) := by
  simp only [turn, after_self, after_table]
  cases table.acquire id t with
  | error e => exact goTo_after
  | ok r =>
    cases r with
    | none => exact goTo_after
    | some table' => exact after_after

theorem turn_release_eq (s : Machine) (t : ThreadId) :
    (s.after t l table (.release id)).turn t = match table.release id t with
      | .ok table' => s.after t l table' (.done .exit (.ok ()))
      | .error e => s.after t l table (.done .exit (.error e)) := by
  simp only [turn, after_self, after_table]
  cases table.release id t with
  | error e => exact goTo_after
  | ok table' => exact after_after

theorem turn_wait_of_owner {f : FatLock} {owner : ThreadId} (hfat : s.table.fat? id = some f)
    (howner : f.owner = some owner) : (s.goTo t (.wait id)).turn t = s.goTo t (.wait id) := by
  have hfat' : (s.goTo t (.wait id)).table.fat? id = some f := hfat
  simp [turn, goTo_self, hfat', howner]

theorem Inv.turn_found (h : s.Inv) (hl : s.lock = .fat id) (op : Op) :
    (s.goTo t (.lookup op id)).turn t = s.goTo t (.found id op) := by
  obtain ⟨_, f, hfat, _⟩ := h.fat_lock hl
  rw [h.goTo_eq_after, h.goTo_eq_after]
  simp only [Machine.turn, after_self, after_table, hfat, goTo_after]

theorem Inv.turns_lookup_enter (h : s.Inv) (hl : s.lock = .fat id) (n : Nat) :
    (s.goTo t (.lookup .enter id)).turns t (n + 2) = s.entered t (s.table.enter s.lock t) := by
  rw [turns, h.turn_found hl, turns, Control.found, h.goTo_eq_after, turn_acquire_eq]
  -- What is left of the turns changes nothing: the call is over or the lock has another owner.
  cases hacquire : s.table.acquire id t with
  | error e =>
    rw [turns_after_done, ← h.goTo_eq_after]
    simp only [hl, enter, hacquire, Except.map, entered]
  | ok r =>
    cases r with
    | some table =>
      rw [turns_after_done]
      simp only [hl, enter, hacquire, Except.map, entered]
    | none =>
      obtain ⟨_, f, hfat, _⟩ := h.fat_lock hl
      have howner : ∃ owner, f.owner = some owner := by
        simp only [acquire, hfat] at hacquire
        cases howner : f.owner with
        | none => simp [howner] at hacquire
        | some owner => exact ⟨owner, rfl⟩
      obtain ⟨owner, howner⟩ := howner
      rw [← h.goTo_eq_after, turns_of_fixed (turn_wait_of_owner hfat howner)]
      simp only [hl, enter, hacquire, Except.map, entered, Control.waiting]

theorem Inv.turns_lookup_exit (h : s.Inv) (hl : s.lock = .fat id) (n : Nat) :
    (s.goTo t (.lookup .exit id)).turns t (n + 2) = s.exited t (s.table.exit s.lock t) := by
  rw [turns, h.turn_found hl, turns, Control.found, h.goTo_eq_after, turn_release_eq]
  cases hrelease : s.table.release id t with
  | error e =>
    rw [turns_after_done, ← h.goTo_eq_after]
    simp only [hl, exit, hrelease, Except.map, exited]
  | ok table =>
    rw [turns_after_done]
    simp only [hl, exit, hrelease, Except.map, exited]

/-- A thread that waits for the fat lock takes it in one turn once it is free. -/
theorem Inv.turns_wait (h : s.Inv) (hc : s.control t = .wait id) (n : Nat) :
    s.turns t (n + 1) = s.entered t (s.table.enterAfterWait s.lock t) := by
  obtain ⟨-, hl, hother⟩ := h.standing hc nofun
  obtain ⟨_, f, hfat, _⟩ := h.fat_lock hl
  cases howner : f.owner with
  | none =>
    have hturn : s.turn t = s.after t (.fat id) (s.table.setFat id ⟨some t, 1⟩)
        (.done .enter (.ok ())) := by
      simp only [Machine.turn, hc, hfat, Option.any_some, howner, Option.isNone_none, if_true,
        succeed, Machine.after, ← hl, ← h.word]
    rw [turns, hturn, turns_after_done]
    simp only [hl, enterAfterWait, enter, acquire, hfat, howner, Except.map, entered]
  | some owner =>
    have hne : owner ≠ t := fun heq => hother f hfat (heq ▸ howner)
    have hturn : s.turn t = s := by simp [Machine.turn, hc, hfat, howner]
    rw [turns_of_fixed hturn]
    simp only [hl, enterAfterWait, enter, acquire, hfat, howner, ne_eq, hne, not_false_eq_true,
      if_true, Except.map, entered, Control.waiting, ← hc, goTo_same]

end Fat

/-! ## Whole calls -/

theorem Inv.turns_reserve (h : s.Inv) {k : Inflating} (hseen : s.word = k.seen) (n : Nat) :
    (s.goTo t (.reserve k)).turns t (n + 3) =
      s.entered t (.ok (.entered (s.table.addFat t k.holds).1 (s.table.addFat t k.holds).2)) := by
  rw [h.goTo_eq_after]
  exact turns_inflate (h.word.symm.trans hseen) n

/-- A thread that waits for a word to change goes on as soon as it has. -/
theorem Inv.turns_contend (h : s.Inv) (hc : s.control t = .contendLoad) :
    s.turns t 4 = s.entered t (s.table.enterAfterWait s.lock t) := by
  cases hl : s.lock with
  | unlocked =>
    rw [turns, h.contendLoad_eq hc, hl]
    exact h.turns_reserve (k := .contention) (h.word_eq_zero.mpr hl) 0
  | thin owner n =>
    have hturn : s.turn t = s := by rw [h.contendLoad_eq hc, hl]
    rw [turns_of_fixed hturn]
    simp only [enterAfterWait, entered, hl, Control.waiting, ← hc, goTo_same]
  | fat id =>
    rw [turns, h.contendLoad_eq hc, hl]
    have hfat := h.turns_lookup_enter hl (t := t) 1
    rwa [hl] at hfat

theorem Inv.turns_enter (h : s.Inv) (hc : s.control t = .start .enter) :
    s.turns t 4 = s.entered t (s.table.enter s.lock t) := by
  have hinv := (h.turn_enterSwap hc).inv
  rw [turns, h.enterSwap_eq hc]
  rw [h.enterSwap_eq hc] at hinv
  cases hl : s.lock with
  | unlocked => exact turns_after_done 3
  | thin owner n =>
    rw [hl] at hinv
    by_cases howner : owner = t
    · subst howner
      simp only [ne_eq, not_true_eq_false, if_false] at hinv
      simp only [enter, ne_eq, not_true_eq_false, if_false]
      by_cases hn : n < s.table.maxRecursion
      · rw [if_pos hn] at hinv
        rw [if_pos hn, if_pos hn, turns, hinv.enterStore_eq (goTo_self ..) hl, turns_after_done,
          after_goTo]
        rfl
      · have hholds : (Inflating.recursion s.word).holds = n + 2 := by
          rw [Inflating.holds, h.low_word_thin hl]
        have hfull : n + 2 ≤ maxHolds := by
          have hlimit := h.limit
          have hbounds := (h.thin_bounds hl).2.1
          rw [maxHolds]
          omega
        rw [if_neg hn, if_neg hn, if_pos hfull, h.turns_reserve rfl 0, hholds]
    · simp only [ne_eq, howner, not_false_eq_true, if_true] at hinv
      simp only [enter, ne_eq, howner, not_false_eq_true, if_true]
      have hturn : (s.goTo t .contendLoad).turn t = s.goTo t .contendLoad := by
        rw [hinv.contendLoad_eq (goTo_self ..), show (s.goTo t .contendLoad).lock = _ from hl]
      rw [turns_of_fixed hturn, entered, hl]
      rfl
  | fat id =>
    have hfat := h.turns_lookup_enter hl (t := t) 1
    rwa [hl] at hfat

theorem Inv.turns_exit (h : s.Inv) (hc : s.control t = .start .exit) :
    s.turns t 3 = s.exited t (s.table.exit s.lock t) := by
  have hinv := (h.turn_exitLoad hc).inv
  rw [turns, h.exitLoad_eq hc]
  rw [h.exitLoad_eq hc] at hinv
  cases hl : s.lock with
  | unlocked => exact turns_done (goTo_self ..) 2
  | thin owner n =>
    rw [hl] at hinv
    by_cases howner : owner = t
    · subst howner
      simp only [ne_eq, not_true_eq_false, if_false] at hinv
      simp only [exit, ne_eq, not_true_eq_false, if_false]
      rw [turns, hinv.exitStore_eq (goTo_self ..) hl, turns_after_done, after_goTo]
      split <;> rfl
    · simp only [exit, ne_eq, howner]
      exact turns_done (goTo_self ..) 2
  | fat id =>
    have hfat := h.turns_lookup_exit hl (t := t) 0
    rwa [hl] at hfat

end Machine

end ManagedCore.Contention
