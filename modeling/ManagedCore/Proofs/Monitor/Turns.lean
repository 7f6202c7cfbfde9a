import ManagedCore.Proofs.Monitor.Invariant

/-!
# One turn of a thread

A turn keeps the invariant. It either leaves owner and holds as they are and brings a call that can
be served closer to its end, or it is the one step of the re-entrant lock that serves the call.
-/

namespace ManagedCore.Contention

open LockWord MonitorTable

namespace Reentrant

variable {l : Reentrant} {t : ThreadId}

theorem setCall_self (l : Reentrant) (t : ThreadId) : l.setCall t (l.calls t) = l := by
  cases l with
  | mk owner holds calls =>
    simp only [setCall, mk.injEq, true_and]
    funext k
    split
    · rename_i h
      rw [h]
    · rfl

/-- The lock does not have to wait for others before it answers. -/
def Serves (l : Reentrant) (t : ThreadId) : Prop :=
  l.calls t = .pending .exit ∨
    l.calls t = .pending .enter ∧ (l.owner = none ∨ l.owner = some t)

theorem Serves.available (h : l.Serves t) (hc : l.calls t = .pending .enter) :
    l.owner = none ∨ l.owner = some t := by
  rcases h with hexit | ⟨_, h⟩
  · rw [hc] at hexit
    cases hexit
  · exact h

end Reentrant

/-- How many turns a call still takes at most, while it can be served. A fat lock that came up in
between sends a thread back that was making one itself. -/
def Control.rank (lock : Lock) : Control → Nat
  | idle | done _ _ => 0
  | enterStore _ | exitStore _ | acquire _ | wait _ | release _ => 1
  | lookup _ _ => 2
  | exitLoad => 3
  | enterSwap | contendLoad => if isInflated lock then 3 else 4
  | reserve _ => if isInflated lock then 7 else 3
  | insert _ _ => if isInflated lock then 6 else 2
  | publish _ _ => if isInflated lock then 5 else 1
  | withdraw _ _ => if isInflated lock then 4 else 5

theorem Control.rank_le (lock : Lock) (c : Control) : c.rank lock ≤ 7 := by
  cases c <;> simp only [rank] <;> (try split) <;> decide

namespace Machine

variable {s : Machine} {t : ThreadId} {l : Lock} {table : MonitorTable} {c : Control}
  {result : Except MonitorError Unit} {k : Inflating} {id : Nat} {op : Op} {seen : UInt64}

theorem view_after (h : Fits l) : (s.after t l table c).view =
      ({ s.view with owner := table.owner? l, holds := table.holdCount l }).setCall t c.call := by
  simp only [view, lock_after h, Reentrant.setCall, Reentrant.mk.injEq]
  refine ⟨rfl, rfl, funext fun k => ?_⟩
  by_cases hk : k = t
  · rw [hk, after, goTo_self, if_pos rfl]
  · rw [after, goTo_other _ _ hk, if_neg hk]

theorem view_congr (h : ∀ id, s.lock = .fat id → table.fat? id = s.table.fat? id) :
    table.owner? s.lock = s.view.owner ∧ table.holdCount s.lock = s.view.holds := by
  simp only [view]
  cases hl : s.lock with
  | unlocked | thin => exact ⟨rfl, rfl⟩
  | fat id => simp only [owner?, holdCount, h id hl, and_self]

theorem Inv.standing (h : s.Inv) (hc : s.control t = c) (hbusy : c ≠ .idle) :
    ValidId t ∧ c.Stands s.lock s.table t := by
  subst hc
  exact ⟨h.valid t hbusy, h.stands t⟩

/-- What a turn of `t` comes to. -/
structure Turned (s : Machine) (t : ThreadId) (s' : Machine) : Prop where
  inv : s'.Inv
  word : ∀ id, s.lock = .fat id → s'.word = s.word
  refines :
    (s'.view = s.view ∧ (s.view.Serves t →
      (s'.control t).rank s'.lock < (s.control t).rank s.lock)) ∨
    (s.view.Step s'.view ∧ ∃ op result, s'.control t = .done op result)

section

variable (h : s.Inv) (hvalid : ValidId t)

include h hvalid

theorem Inv.silent (hframe : Frame s t table) (few : table.fats.size < 2 ^ 32)
    (hsame : ∀ id, s.lock = .fat id → table.fat? id = s.table.fat? id)
    (hcall : c.call = (s.control t).call) (hc : c.Stands s.lock table t)
    (hfresh : ∀ id, c.reserved = some id → s.Fresh t s.lock table id)
    (hrank : s.view.Serves t → c.rank s.lock < (s.control t).rank s.lock) :
    Turned s t (s.after t s.lock table c) := by
  have hok : LockOk table s.foreign s.lock := by
    have hok := h.lock
    cases hl : s.lock with
    | unlocked => trivial
    | thin owner again =>
      rw [hl] at hok
      exact ⟨hok.1, hframe.limit ▸ hok.2⟩
    | fat id =>
      rw [hl] at hok
      obtain ⟨hforeign, l, hl', hfat⟩ := hok
      exact ⟨hforeign, l, (hsame id hl).trans hl', hfat⟩
  refine ⟨h.after hvalid (.keep s.lock) hframe few hok hc hfresh, fun _ _ => h.word.symm,
    .inl ⟨?_, fun hs => ?_⟩⟩
  · rw [view_after h.fits, (view_congr hsame).1, (view_congr hsame).2, hcall]
    exact s.view.setCall_self t
  · rw [lock_after h.fits, Machine.after, goTo_self]
    exact hrank hs

theorem Inv.move (hcall : c.call = (s.control t).call)
    (hc : c.Stands s.lock s.table t) (hnone : c.reserved = none)
    (hrank : s.view.Serves t → c.rank s.lock < (s.control t).rank s.lock) :
    Turned s t (s.goTo t c) := by
  rw [h.goTo_eq_after]
  exact h.silent hvalid .refl h.few (fun _ _ => rfl) hcall hc
    (fun id hid => by rw [hnone] at hid; cases hid) hrank

theorem Inv.finish (hchange : Change t (s.control t).reserved s.lock l) (hframe : Frame s t table)
    (few : table.fats.size < 2 ^ 32) (hl : LockOk table s.foreign l)
    (hstep : s.view.Step ({ s.view with owner := table.owner? l, holds := table.holdCount l }.setCall
      t (.answered op result))) : Turned s t (s.after t l table (.done op result)) := by
  have hfits : Fits l := hl.fits (hframe.limit ▸ h.limit) few
  refine ⟨h.after hvalid hchange hframe few hl trivial (fun id hid => by cases hid),
    fun id hid => ?_, .inr ⟨?_, op, result, goTo_self _ _ _⟩⟩
  · rw [h.word, ← hchange.of_fat hid]
    rfl
  · rw [view_after hfits]
    exact hstep

theorem Inv.reject (hstep : s.view.Step (s.view.setCall t (.answered op result))) :
    Turned s t (s.goTo t (.done op result)) := by
  rw [h.goTo_eq_after]
  exact h.finish hvalid (.keep s.lock) .refl h.few h.lock hstep

end

theorem Inv.stay (h : s.Inv) (hs : ¬ s.view.Serves t) : Turned s t s :=
  ⟨h, fun _ _ => rfl, .inl ⟨rfl, fun hserves => absurd hserves hs⟩⟩

theorem Turned.entering (hc : (s.control t).call = .pending .enter)
    (howner : s.view.owner = none ∨ s.view.owner = some t) (hl : table.owner? l = some t)
    (hholds : table.holdCount l = s.view.holds + 1) : s.view.Step
      ({ s.view with owner := table.owner? l, holds := table.holdCount l }.setCall t
        (.answered .enter (.ok ()))) := by
  rw [hl, hholds]
  exact .enter t hc howner

theorem Turned.exiting (hc : (s.control t).call = .pending .exit) (howner : s.view.owner = some t)
    (hl : table.owner? l = if s.view.holds = 1 then none else some t)
    (hholds : table.holdCount l = s.view.holds - 1) : s.view.Step
      ({ s.view with owner := table.owner? l, holds := table.holdCount l }.setCall t
        (.answered .exit (.ok ()))) := by
  rw [hl, hholds]
  exact .exit t hc howner

/-! ## Reading the word -/

section Word

variable {owner n id : Nat}

theorem Inv.isFat_word (h : s.Inv) : isFat s.word = isInflated s.lock := by
  rw [h.word]
  exact isFat_encode h.fits

theorem Inv.word_eq_zero (h : s.Inv) : s.word = 0 ↔ s.lock = .unlocked := by
  rw [h.word]
  exact encode_eq_zero_iff h.fits

section

variable (h : s.Inv) (hl : s.lock = .thin owner n)

include h hl

theorem Inv.thin_bounds : ValidId owner ∧ n ≤ s.table.maxRecursion ∧ n < 2 ^ 32 := by
  have hok := h.lock
  rw [hl] at hok
  have hlimit := h.limit
  exact ⟨hok.1, hok.2, by have := hok.2; omega⟩

theorem Inv.thinOwner_word : thinOwner s.word = owner := by
  have hb := h.thin_bounds hl
  rw [h.word, hl]
  exact thinOwner_thinWord hb.1.2 hb.2.2

theorem Inv.low_word_thin : low s.word = n := by
  have hb := h.thin_bounds hl
  rw [h.word, hl]
  exact low_thinWord hb.1.2 hb.2.2

end

theorem Inv.low_word_fat (h : s.Inv) (hl : s.lock = .fat id) : low s.word = id := by
  have hfits := h.fits
  rw [hl] at hfits
  rw [h.word, hl]
  exact low_fatWord hfits

theorem Inv.fat_lock (h : s.Inv) (hl : s.lock = .fat id) :
    id ∉ s.foreign ∧ ∃ l, s.table.fat? id = some l ∧ FatOk l := by
  have hok := h.lock
  rwa [hl] at hok

theorem view_owner (hl : s.lock = l) : s.view.owner = s.table.owner? l := by
  rw [← hl]
  rfl

theorem view_holds (hl : s.lock = l) : s.view.holds = s.table.holdCount l := by
  rw [← hl]
  rfl

theorem not_serves_thin (hc : (s.control t).call = .pending .enter) (hl : s.lock = .thin owner n)
    (hne : owner ≠ t) : ¬ s.view.Serves t := by
  intro hs
  rcases hs.available hc with hnone | hmine
  · rw [view_owner hl] at hnone
    cases hnone
  · rw [view_owner hl] at hmine
    exact hne (Option.some.inj hmine)

end Word

/-! ## Entering through the word -/

section

variable (h : s.Inv)

include h

theorem Inv.enterSwap_eq (hc : s.control t = .enterSwap) : s.turn t = match s.lock with
      | .unlocked => s.after t (.thin t 0) s.table (.done .enter (.ok ()))
      | .thin owner n => s.goTo t (if owner ≠ t then .contendLoad
          else if n < s.table.maxRecursion then .enterStore s.word
          else .reserve (.recursion s.word))
      | .fat id => s.goTo t (.lookup .enter id) := by
  simp only [turn, hc, h.word_eq_zero, Control.afterSwap, h.isFat_word]
  cases hl : s.lock with
  | unlocked => rfl
  | thin owner n =>
    have hfull : n + 2 ≤ maxHolds := by
      have hlimit := h.limit
      have hbounds := (h.thin_bounds hl).2.1
      rw [maxHolds]
      omega
    simp only [reduceCtorEq, if_false, isInflated, h.thinOwner_word hl, h.low_word_thin hl, hfull,
      if_true, ite_not]
  | fat id => simp only [reduceCtorEq, if_false, isInflated, if_true, h.low_word_fat hl]

theorem Inv.turn_enterSwap (hc : s.control t = .enterSwap) : Turned s t (s.turn t) := by
  have hvalid := (h.standing hc nofun).1
  have hcall := congrArg Control.call hc
  rw [h.enterSwap_eq hc]
  cases hl : s.lock with
  | unlocked =>
    have hchange : Change t (s.control t).reserved s.lock (.thin t 0) := hl ▸ .take
    refine h.finish hvalid hchange .refl h.few ⟨hvalid, Nat.zero_le _⟩ ?_
    exact Turned.entering hcall (.inl (view_owner hl)) rfl (by rw [view_holds hl]; rfl)
  | thin owner n =>
    by_cases howner : owner = t
    · subst howner
      simp only [ne_eq]
      by_cases hn : n < s.table.maxRecursion
      · rw [if_pos hn]
        refine h.move hvalid (by rw [hc]; rfl) ⟨h.word, n, hn, hl⟩ rfl fun _ => ?_
        simp [hc, hl, Control.rank, isInflated]
      · rw [if_neg hn]
        refine h.move hvalid (by rw [hc]; rfl) ⟨h.word, n, hl⟩ rfl fun _ => ?_
        simp [hc, hl, Control.rank, isInflated]
    · simp only [ne_eq, howner]
      refine h.move hvalid (by rw [hc]; rfl) (fun m hm => ?_) rfl
        (fun hs => absurd hs (not_serves_thin hcall hl howner))
      rw [hl] at hm
      cases hm
      exact howner rfl
  | fat id =>
    refine h.move hvalid (by rw [hc]; rfl) hl rfl fun _ => ?_
    simp [hc, hl, Control.rank, isInflated]

theorem Inv.enterStore_eq {n : Nat} (hc : s.control t = .enterStore s.word)
    (hl : s.lock = .thin t n) :
    s.turn t = s.after t (.thin t (n + 1)) s.table (.done .enter (.ok ())) := by
  have hbounds := h.thin_bounds hl
  have hlimit := h.limit
  have hword : s.word + 1 = encode (.thin t (n + 1)) := by
    rw [h.word, hl]
    exact thinWord_succ hbounds.1.2 (by omega)
  simp only [turn, hc, hword]
  rfl

theorem Inv.turn_enterStore (hc : s.control t = .enterStore seen) : Turned s t (s.turn t) := by
  obtain ⟨hvalid, hseen, n, hn, hl⟩ := h.standing hc nofun
  rw [hseen, ← h.word] at hc
  have hchange : Change t (s.control t).reserved s.lock (.thin t (n + 1)) := hl ▸ .count n (n + 1)
  rw [h.enterStore_eq hc hl]
  refine h.finish hvalid hchange .refl h.few ⟨hvalid, hn⟩ ?_
  exact Turned.entering (by rw [hc]; rfl) (.inr (view_owner hl)) rfl (by rw [view_holds hl]; rfl)

theorem Inv.contendLoad_eq (hc : s.control t = .contendLoad) : s.turn t = match s.lock with
      | .unlocked => s.goTo t (.reserve .contention)
      | .thin _ _ => s
      | .fat id => s.goTo t (.lookup .enter id) := by
  simp only [turn, hc, h.word_eq_zero, h.isFat_word]
  cases hl : s.lock with
  | unlocked | thin => simp [isInflated]
  | fat id => simp [isInflated, h.low_word_fat hl]

theorem Inv.turn_contendLoad (hc : s.control t = .contendLoad) : Turned s t (s.turn t) := by
  obtain ⟨hvalid, hstands⟩ := h.standing hc nofun
  have hcall := congrArg Control.call hc
  rw [h.contendLoad_eq hc]
  cases hl : s.lock with
  | unlocked =>
    refine h.move hvalid (by rw [hc]; rfl) hstands rfl fun _ => ?_
    simp [hc, hl, Control.rank, isInflated]
  | thin owner n => exact h.stay (not_serves_thin hcall hl fun heq => hstands n (heq ▸ hl))
  | fat id =>
    refine h.move hvalid (by rw [hc]; rfl) hl rfl fun _ => ?_
    simp [hc, hl, Control.rank, isInflated]

/-! ## Making a fat lock -/

theorem Inv.fresh_reserve : s.Fresh t s.lock s.table.reserve.2 s.table.reserve.1 := by
  have hsize := size_reserve s.table
  refine ⟨⟨Nat.succ_pos _, Nat.le_of_eq hsize.symm⟩, fun hmem => ?_, fun hl => ?_, fun k _ hk => ?_⟩
  · exact absurd (h.foreign _ hmem).2 (Nat.not_succ_le_self _)
  · obtain ⟨_, l, hfat, _⟩ := h.fat_lock hl
    exact absurd (bounds_of_fat? hfat).2 (Nat.not_succ_le_self _)
  · exact absurd (h.reserved k _ hk).1.2 (Nat.not_succ_le_self _)

theorem Inv.turn_reserve (hc : s.control t = .reserve k)
    (few : s.table.reserve.2.fats.size < 2 ^ 32) : Turned s t (s.turn t) := by
  obtain ⟨hvalid, hstands⟩ := h.standing hc nofun
  simp only [turn, hc]
  rw [h.word]
  refine h.silent hvalid (.reserve s t) few (fun id _ => fat?_reserve _ id) (by rw [hc]; rfl)
    hstands (fun id hid => ?_) fun _ => ?_
  · cases hid
    exact h.fresh_reserve
  · rw [hc]
    simp only [Control.rank]
    split <;> decide

theorem Inv.turn_insert (hc : s.control t = .insert k id) : Turned s t (s.turn t) := by
  obtain ⟨hvalid, hstands⟩ := h.standing hc nofun
  have hmine : (s.control t).reserved = some id := by rw [hc]; rfl
  have hbounds := (h.reserved t id hmine).1
  have hsize := size_setFat s.table id ⟨some t, k.holds⟩
  have hother : ∀ i, i ≠ id → (s.table.setFat id ⟨some t, k.holds⟩).fat? i = s.table.fat? i :=
    fun i hi => by rw [fat?_setFat hbounds, if_neg hi]
  simp only [turn, hc]
  rw [h.word]
  refine h.silent hvalid (.own h hmine rfl hsize hother) (hsize ▸ h.few) (fun i hi => hother i ?_)
    (by rw [hc]; rfl) ⟨hstands, by rw [fat?_setFat hbounds, if_pos rfl]⟩ (fun i hi => ?_) fun _ => ?_
  · rintro rfl
    exact (h.reserved t i hmine).2.2 hi
  · cases hi
    exact h.fresh hmine (Nat.le_of_eq hsize.symm)
  · rw [hc]
    simp only [Control.rank]
    split <;> decide

/-- The new lock takes the place of the word that its maker saw. -/
theorem Inv.inflated {holds : Nat} (hmine : (s.control t).reserved = some id)
    (hfat : s.table.fat? id = some ⟨some t, holds⟩) (hpos : 0 < holds ∧ holds ≤ maxHolds)
    (hcall : (s.control t).call = .pending .enter)
    (hl : s.lock = .unlocked ∧ holds = 1 ∨ ∃ n, s.lock = .thin t n ∧ holds = n + 2) :
    Turned s t (s.after t (.fat id) s.table (.done .enter (.ok ()))) := by
  have hvalid : ValidId t := h.valid t (fun hidle => by rw [hidle] at hcall; cases hcall)
  have hok : LockOk s.table s.foreign (.fat id) := ⟨(h.reserved t id hmine).2.1, _, hfat, hpos⟩
  have howner : s.table.owner? (.fat id) = some t := by simp [owner?, hfat]
  have hcount : s.table.holdCount (.fat id) = holds := by simp [holdCount, hfat]
  rcases hl with ⟨hl, rfl⟩ | ⟨n, hl, rfl⟩
  · refine h.finish hvalid (hl ▸ .inflate hmine) .refl h.few hok ?_
    exact Turned.entering hcall (.inl (view_owner hl)) howner (by rw [hcount, view_holds hl]; rfl)
  · refine h.finish hvalid (hl ▸ .inflateOwn n hmine) .refl h.few hok ?_
    exact Turned.entering hcall (.inr (view_owner hl)) howner (by rw [hcount, view_holds hl]; rfl)

theorem Inv.turn_publish (hc : s.control t = .publish k id) : Turned s t (s.turn t) := by
  obtain ⟨hvalid, hk, hfat⟩ := h.standing hc nofun
  have hcall := congrArg Control.call hc
  have hmine : (s.control t).reserved = some id := by rw [hc]; rfl
  simp only [turn, hc]
  cases k with
  | recursion seen =>
    obtain ⟨hseen, n, hl⟩ := hk
    have hlimit := h.limit
    have hbounds := (h.thin_bounds hl).2.1
    have hholds : (Inflating.recursion seen).holds = n + 2 := by
      rw [Inflating.holds, hseen, ← h.word, h.low_word_thin hl]
    have hword : s.word = (Inflating.recursion seen).seen := h.word.trans hseen.symm
    rw [if_pos hword]
    refine h.inflated hmine hfat ?_ hcall (.inr ⟨n, hl, hholds⟩)
    rw [maxHolds]
    omega
  | contention =>
    have hword : s.word = Inflating.contention.seen ↔ s.lock = .unlocked := h.word_eq_zero
    by_cases hl : s.lock = .unlocked
    · rw [if_pos (hword.mpr hl)]
      exact h.inflated hmine hfat ⟨Nat.one_pos, by decide⟩ hcall (.inl ⟨hl, rfl⟩)
    · rw [if_neg (mt hword.mp hl), h.goTo_eq_after]
      refine h.silent hvalid .refl h.few (fun _ _ => rfl) (by rw [hc]; rfl) ⟨rfl, hk⟩
        (fun i hi => ?_) fun hs => ?_
      · cases hi
        exact h.fresh hmine (Nat.le_refl _)
      · cases hl' : s.lock with
        | unlocked => exact absurd hl' hl
        | thin owner n => exact absurd hs (not_serves_thin hcall hl' fun heq => hk n (heq ▸ hl'))
        | fat i => simp [hc, Control.rank, isInflated]

theorem Inv.turn_withdraw (hc : s.control t = .withdraw k id) : Turned s t (s.turn t) := by
  obtain ⟨hvalid, rfl, hk⟩ := h.standing hc nofun
  have hmine : (s.control t).reserved = some id := by rw [hc]; rfl
  have hbounds := (h.reserved t id hmine).1
  have hsize := size_removeFat s.table id
  have hother : ∀ i, i ≠ id → (removeFat s.table id).fat? i = s.table.fat? i :=
    fun i hi => by rw [fat?_removeFat hbounds, if_neg hi]
  simp only [turn, hc]
  rw [h.word]
  refine h.silent hvalid (.own h hmine rfl hsize hother) (hsize ▸ h.few) (fun i hi => hother i ?_)
    (by rw [hc]; rfl) hk (fun i hi => by cases hi) fun _ => ?_
  · rintro rfl
    exact (h.reserved t i hmine).2.2 hi
  · rw [hc]
    simp only [Control.rank, Inflating.retry]
    split <;> decide

end

/-! ## The fat lock -/

section Fat

variable {id : Nat}

theorem Inv.turn_lookup (h : s.Inv) (hc : s.control t = .lookup op id) : Turned s t (s.turn t) := by
  obtain ⟨hvalid, (hl : s.lock = .fat id)⟩ := h.standing hc nofun
  obtain ⟨_, l, hfat, _⟩ := h.fat_lock hl
  simp only [turn, hc, hfat]
  cases op with
  | enter | exit =>
    refine h.move hvalid (by rw [hc]; rfl) hl rfl fun _ => ?_
    rw [hc]
    exact Nat.one_lt_two

theorem Inv.change_fat (h : s.Inv) (hvalid : ValidId t) (hl : s.lock = .fat id) (l : FatLock)
    (howner : l.owner = none ∨ l.owner = some t) (hok : FatOk l)
    (hstep : s.view.Step ({ s.view with owner := l.owner, holds := l.count }.setCall t
      (.answered op (.ok ())))) :
    Turned s t ({ s with table := s.table.setFat id l }.succeed t op) := by
  obtain ⟨hforeign, l₀, hfat, _⟩ := h.fat_lock hl
  have hset : (s.table.setFat id l).fat? id = some l := by
    rw [fat?_setFat (bounds_of_fat? hfat), if_pos rfl]
  have hsize := size_setFat s.table id l
  have hafter : { s with table := s.table.setFat id l }.succeed t op =
      s.after t (.fat id) (s.table.setFat id l) (.done op (.ok ())) := by
    rw [succeed, Machine.after, ← hl, ← h.word]
  have hchange : Change t (s.control t).reserved s.lock (.fat id) := hl ▸ .keep _
  rw [hafter]
  refine h.finish hvalid hchange (.fat h hl howner) (hsize ▸ h.few) ⟨hforeign, l, hset, hok⟩ ?_
  simp only [owner?, holdCount, hset]
  exact hstep

variable {l : FatLock}

theorem view_owner_fat (hl : s.lock = .fat id) (hfat : s.table.fat? id = some l) :
    s.view.owner = l.owner := by
  rw [view_owner hl, owner?, hfat]
  rfl

theorem view_holds_fat (hl : s.lock = .fat id) (hfat : s.table.fat? id = some l) :
    s.view.holds = l.count := by
  rw [view_holds hl, holdCount, hfat]
  rfl

theorem Inv.take_fat (h : s.Inv) (hl : s.lock = .fat id) (hfat : s.table.fat? id = some l)
    (hnone : l.owner = none) (hok : FatOk l) (hcall : (s.control t).call = .pending .enter)
    (hvalid : ValidId t) :
    Turned s t ({ s with table := s.table.setFat id ⟨some t, 1⟩ }.succeed t .enter) := by
  have hcount : l.count = 0 := by rwa [FatOk, hnone] at hok
  have hone : 0 < 1 ∧ 1 ≤ maxHolds := by decide
  refine h.change_fat hvalid hl ⟨some t, 1⟩ (.inr rfl) hone ?_
  have hstep := Reentrant.Step.enter t hcall (.inl ((view_owner_fat hl hfat).trans hnone))
  rwa [view_holds_fat hl hfat, hcount] at hstep

theorem Inv.turn_acquire (h : s.Inv) (hc : s.control t = .acquire id) : Turned s t (s.turn t) := by
  obtain ⟨hvalid, (hl : s.lock = .fat id)⟩ := h.standing hc nofun
  have hcall := congrArg Control.call hc
  obtain ⟨_, l, hfat, hok⟩ := h.fat_lock hl
  have howner := view_owner_fat hl hfat
  simp only [turn, hc, acquire, hfat]
  cases hlo : l.owner with
  | none => exact h.take_fat hl hfat hlo hok hcall hvalid
  | some owner =>
    rw [hlo] at howner
    simp only [FatOk, hlo] at hok
    by_cases hne : owner = t
    · subst hne
      by_cases hcount : l.count < maxHolds
      · simp only [ne_eq, hcount]
        refine h.change_fat hvalid hl ⟨some owner, l.count + 1⟩ (.inr rfl)
          ⟨Nat.succ_pos _, hcount⟩ ?_
        have hstep := Reentrant.Step.enter owner hcall (.inr howner)
        rwa [view_holds_fat hl hfat] at hstep
      · simp only [ne_eq, hcount]
        refine h.reject hvalid (.overflow owner hcall howner ?_)
        rw [view_holds_fat hl hfat]
        omega
    · simp only [ne_eq, hne]
      refine h.move hvalid (by rw [hc]; rfl) ⟨hl, fun l' hl' => ?_⟩ rfl fun hs => ?_
      · rw [hfat] at hl'
        cases hl'
        rw [hlo]
        exact fun heq => hne (Option.some.inj heq)
      · rcases hs.available hcall with hfree | hmine
        · rw [howner] at hfree
          cases hfree
        · rw [howner] at hmine
          exact absurd (Option.some.inj hmine) hne

theorem Inv.turn_wait (h : s.Inv) (hc : s.control t = .wait id) : Turned s t (s.turn t) := by
  obtain ⟨hvalid, hl, hother⟩ := h.standing hc nofun
  have hcall := congrArg Control.call hc
  obtain ⟨_, l, hfat, hok⟩ := h.fat_lock hl
  have howner := view_owner_fat hl hfat
  simp only [turn, hc, hfat, Option.any_some]
  cases hlo : l.owner with
  | none => exact h.take_fat hl hfat hlo hok hcall hvalid
  | some owner =>
    refine h.stay fun hs => ?_
    rw [hlo] at howner
    rcases hs.available hcall with hfree | hmine
    · rw [howner] at hfree
      cases hfree
    · exact hother l hfat (hlo.trans (howner.symm.trans hmine))

theorem Inv.turn_release (h : s.Inv) (hc : s.control t = .release id) : Turned s t (s.turn t) := by
  obtain ⟨hvalid, (hl : s.lock = .fat id)⟩ := h.standing hc nofun
  have hcall := congrArg Control.call hc
  obtain ⟨_, l, hfat, hok⟩ := h.fat_lock hl
  have howner := view_owner_fat hl hfat
  have hholds := view_holds_fat hl hfat
  simp only [turn, hc, release, hfat]
  by_cases hmine : l.owner = some t
  · simp only [FatOk, hmine] at hok
    have hstep := Reentrant.Step.exit t hcall (howner.trans hmine)
    rw [hholds] at hstep
    by_cases hone : l.count ≤ 1
    · have hcount : l.count = 1 := by omega
      simp only [hmine, ne_eq, hone]
      refine h.change_fat hvalid hl ⟨none, 0⟩ (.inl rfl) rfl ?_
      rwa [hcount] at hstep
    · simp only [hmine, ne_eq, hone]
      have hbounds : 0 < l.count - 1 ∧ l.count - 1 ≤ maxHolds := by omega
      refine h.change_fat hvalid hl ⟨some t, l.count - 1⟩ (.inr rfl) hbounds ?_
      rwa [if_neg (show ¬ l.count = 1 by omega)] at hstep
  · simp only [ne_eq, hmine]
    exact h.reject hvalid (.notOwner t hcall (by rwa [howner]))

end Fat

/-! ## Leaving through the word -/

theorem Inv.exitLoad_eq (h : s.Inv) (hc : s.control t = .exitLoad) :
    s.turn t = s.goTo t (match s.lock with
      | .unlocked => .done .exit (.error (.notOwner t))
      | .thin owner _ => if owner ≠ t then .done .exit (.error (.notOwner t)) else .exitStore s.word
      | .fat id => .lookup .exit id) := by
  simp only [turn, hc, Control.afterLoad, h.word_eq_zero, h.isFat_word]
  cases hl : s.lock with
  | unlocked => simp [isInflated]
  | thin owner n => simp [isInflated, h.thinOwner_word hl]
  | fat id => simp [isInflated, h.low_word_fat hl]

theorem Inv.turn_exitLoad (h : s.Inv) (hc : s.control t = .exitLoad) : Turned s t (s.turn t) := by
  have hvalid := (h.standing hc nofun).1
  have hcall := congrArg Control.call hc
  rw [h.exitLoad_eq hc]
  cases hl : s.lock with
  | unlocked => exact h.reject hvalid (.notOwner t hcall (by rw [view_owner hl]; exact nofun))
  | thin owner n =>
    by_cases howner : owner = t
    · simp only [howner, ne_eq]
      refine h.move hvalid (by rw [hc]; rfl) ⟨h.word, n, howner ▸ hl⟩ rfl fun _ => ?_
      simp [hc, Control.rank]
    · simp only [ne_eq, howner]
      refine h.reject hvalid (.notOwner t hcall ?_)
      rw [view_owner hl]
      exact fun heq => howner (Option.some.inj heq)
  | fat id =>
    refine h.move hvalid (by rw [hc]; rfl) hl rfl fun _ => ?_
    simp [hc, Control.rank]

theorem Inv.exitStore_eq (h : s.Inv) {n : Nat} (hc : s.control t = .exitStore s.word)
    (hl : s.lock = .thin t n) :
    s.turn t = s.after t (if n = 0 then .unlocked else .thin t (n - 1)) s.table
      (.done .exit (.ok ())) := by
  have hbounds := h.thin_bounds hl
  simp only [turn, hc, h.low_word_thin hl]
  cases n with
  | zero => rfl
  | succ n =>
    have hword : s.word - 1 = encode (.thin t n) := by
      rw [h.word, hl]
      exact thinWord_pred hbounds.1.2 hbounds.2.2
    rw [hword]
    rfl

theorem Inv.turn_exitStore (h : s.Inv) (hc : s.control t = .exitStore seen) :
    Turned s t (s.turn t) := by
  obtain ⟨hvalid, hseen, n, hl⟩ := h.standing hc nofun
  have hcall := congrArg Control.call hc
  rw [hseen, ← h.word] at hc
  have hbounds := (h.thin_bounds hl).2.1
  have hholds := view_holds hl
  rw [h.exitStore_eq hc hl]
  cases n with
  | zero =>
    have hchange : Change t (s.control t).reserved s.lock .unlocked := hl ▸ .free 0
    refine h.finish hvalid hchange .refl h.few trivial ?_
    exact Turned.exiting hcall (view_owner hl) (by rw [hholds]; rfl) (by rw [hholds]; rfl)
  | succ n =>
    have hchange : Change t (s.control t).reserved s.lock (.thin t n) := hl ▸ .count (n + 1) n
    refine h.finish hvalid hchange .refl h.few ⟨hvalid, by omega⟩ ?_
    exact Turned.exiting hcall (view_owner hl) (by rw [hholds]; rfl) (by rw [hholds]; rfl)

/-! ## Any turn -/

theorem Inv.turn (h : s.Inv) (t : ThreadId) (few : (s.turn t).table.fats.size < 2 ^ 32) :
    Turned s t (s.turn t) := by
  have hrest (hc : (s.control t).call ≠ .pending .enter ∧ (s.control t).call ≠ .pending .exit) :
      ¬ s.view.Serves t := by
    rintro (hexit | ⟨henter, _⟩)
    · exact hc.2 hexit
    · exact hc.1 henter
  cases hc : s.control t with
  | idle | done =>
    have hturn : s.turn t = s := by simp only [Machine.turn, hc]
    rw [hturn]
    exact h.stay (hrest (by rw [hc]; exact ⟨nofun, nofun⟩))
  | enterSwap => exact h.turn_enterSwap hc
  | enterStore => exact h.turn_enterStore hc
  | contendLoad => exact h.turn_contendLoad hc
  | reserve =>
    simp only [Machine.turn, hc] at few
    exact h.turn_reserve hc few
  | insert => exact h.turn_insert hc
  | publish => exact h.turn_publish hc
  | withdraw => exact h.turn_withdraw hc
  | lookup => exact h.turn_lookup hc
  | acquire => exact h.turn_acquire hc
  | wait => exact h.turn_wait hc
  | release => exact h.turn_release hc
  | exitLoad => exact h.turn_exitLoad hc
  | exitStore => exact h.turn_exitStore hc

end Machine

end ManagedCore.Contention
