import ManagedCore.Proofs.Monitor.Steps

/-!
# What holds of a monitor at every step

Only its owner changes the word of a thin lock, and nobody changes the word of a fat one. A fat lock
that is being made is known to its maker alone until its number is in the word.
-/

namespace ManagedCore

namespace MonitorTable

variable {t : MonitorTable} {id k : Nat} {l : FatLock}

theorem fat?_reserve (t : MonitorTable) (id : Nat) : t.reserve.2.fat? id = t.fat? id := by
  cases id with
  | zero => rfl
  | succ i =>
    simp only [reserve, fat?, Array.getElem?_push]
    split
    · rename_i hi
      rw [hi, Array.getElem?_eq_none (Nat.le_refl _)]
      rfl
    · rfl

theorem bounds_of_fat? (h : t.fat? id = some l) : 0 < id ∧ id ≤ t.fats.size := by
  cases id with
  | zero => cases h
  | succ i =>
    by_cases hi : i < t.fats.size
    · omega
    · rw [fat?, Array.getElem?_eq_none (by omega)] at h
      cases h

theorem fat?_setIfInBounds {o : Option FatLock} (hid : 0 < id ∧ id ≤ t.fats.size) :
    { t with fats := t.fats.setIfInBounds (id - 1) o }.fat? k = if k = id then o else t.fat? k := by
  cases k with
  | zero =>
    rw [if_neg (by omega)]
    rfl
  | succ i =>
    simp only [fat?, Array.getElem?_setIfInBounds]
    by_cases hi : id - 1 = i
    · rw [if_pos hi, if_pos (by omega), if_pos (by omega)]
      rfl
    · rw [if_neg hi, if_neg (by omega)]

theorem fat?_setFat (hid : 0 < id ∧ id ≤ t.fats.size) :
    (t.setFat id l).fat? k = if k = id then some l else t.fat? k :=
  fat?_setIfInBounds hid

theorem size_setFat (table : MonitorTable) (id : Nat) (l : FatLock) :
    (table.setFat id l).fats.size = table.fats.size := by
  simp [setFat]

theorem size_reserve (table : MonitorTable) : table.reserve.2.fats.size = table.fats.size + 1 := by
  simp [reserve]

end MonitorTable

namespace Contention

open LockWord MonitorTable

theorem fat?_removeFat {t : MonitorTable} {id k : Nat} (hid : 0 < id ∧ id ≤ t.fats.size) :
    (removeFat t id).fat? k = if k = id then none else t.fat? k :=
  fat?_setIfInBounds hid

theorem size_removeFat (table : MonitorTable) (id : Nat) :
    (removeFat table id).fats.size = table.fats.size := by
  simp [removeFat]

/-! ## The invariant -/

def FatOk (l : FatLock) : Prop :=
  match l.owner with
  | none => l.count = 0
  | some _ => 0 < l.count ∧ l.count ≤ maxHolds

def LockOk (table : MonitorTable) (foreign : List Nat) : Lock → Prop
  | .unlocked => True
  | .thin owner again => ValidId owner ∧ again ≤ table.maxRecursion
  | .fat id => id ∉ foreign ∧ ∃ l, table.fat? id = some l ∧ FatOk l

def Control.reserved : Control → Option Nat
  | insert _ id | publish _ id | withdraw _ id => some id
  | _ => none

/-- A thread that inflates its own lock still has it; one that waited has no thin lock. -/
def Inflating.Stands (lock : Lock) (t : ThreadId) : Inflating → Prop
  | recursion seen => seen = encode lock ∧ ∃ n, lock = .thin t n
  | contention => ∀ n, lock ≠ .thin t n

/-- What a thread knows at a control point. -/
def Control.Stands (lock : Lock) (table : MonitorTable) (t : ThreadId) : Control → Prop
  | enterStore seen => seen = encode lock ∧ ∃ n < table.maxRecursion, lock = .thin t n
  | exitStore seen => seen = encode lock ∧ ∃ n, lock = .thin t n
  | contendLoad => Inflating.contention.Stands lock t
  | reserve k | insert k _ => k.Stands lock t
  | publish k id => k.Stands lock t ∧ table.fat? id = some ⟨some t, k.holds⟩
  | withdraw k _ => k = .contention ∧ k.Stands lock t
  | lookup _ id | acquire id | release id => lock = .fat id
  | wait id => lock = .fat id ∧ ∀ l, table.fat? id = some l → l.owner ≠ some t
  | _ => True

namespace Machine

structure Inv (s : Machine) : Prop where
  limit : s.table.maxRecursion ≤ 255
  few : s.table.fats.size < 2 ^ 32
  foreign : ∀ id ∈ s.foreign, 0 < id ∧ id ≤ s.table.fats.size
  word : s.word = encode s.lock
  lock : LockOk s.table s.foreign s.lock
  valid : ∀ t, s.control t ≠ .idle → ValidId t
  stands : ∀ t, (s.control t).Stands s.lock s.table t
  reserved : ∀ t id, (s.control t).reserved = some id →
    (0 < id ∧ id ≤ s.table.fats.size) ∧ id ∉ s.foreign ∧ s.lock ≠ .fat id
  distinct : ∀ t t' id, (s.control t).reserved = some id →
    (s.control t').reserved = some id → t = t'

theorem Initial.inv {s : Machine} (h : s.Initial) (few : s.table.fats.size < 2 ^ 32) : s.Inv := by
  have hlock : s.lock = .unlocked := by rw [lock, h.word]; rfl
  refine ⟨h.limit.2, few, h.foreign, ?_, ?_, fun t ht => ?_, fun t => ?_, fun t id ht => ?_,
    fun t t' id ht => ?_⟩
  · rw [hlock, h.word]
    rfl
  · rw [hlock]
    trivial
  · exact absurd (h.control t) ht
  · rw [h.control t]
    trivial
  · rw [h.control t] at ht
    cases ht
  · rw [h.control t] at ht
    cases ht

end Machine

theorem LockOk.fits {table : MonitorTable} {foreign : List Nat} {l : Lock}
    (h : LockOk table foreign l) (hlimit : table.maxRecursion ≤ 255)
    (few : table.fats.size < 2 ^ 32) : Fits l := by
  cases l with
  | unlocked => trivial
  | thin owner again =>
    obtain ⟨hvalid, hagain⟩ := h
    exact ⟨hvalid, by omega⟩
  | fat id =>
    obtain ⟨_, l, hl, _⟩ := h
    have hid := bounds_of_fat? hl
    change id < 2 ^ 32
    omega

/-! ## What a thread may change -/

/-- What a thread does to the lock in a step, if `mine` is the number of the lock it is making. -/
inductive Change (t : ThreadId) (mine : Option Nat) : Lock → Lock → Prop
  | keep (l : Lock) : Change t mine l l
  | take : Change t mine .unlocked (.thin t 0)
  | count (n m : Nat) : Change t mine (.thin t n) (.thin t m)
  | free (n : Nat) : Change t mine (.thin t n) .unlocked
  | inflate {id : Nat} (h : mine = some id) : Change t mine .unlocked (.fat id)
  | inflateOwn (n : Nat) {id : Nat} (h : mine = some id) : Change t mine (.thin t n) (.fat id)

namespace Change

variable {t k : ThreadId} {mine : Option Nat} {l l' : Lock}

theorem of_thin {n : Nat} (h : Change t mine l l') (hk : k ≠ t) (hl : l = .thin k n) : l' = l := by
  cases h with
  | keep => rfl
  | take | inflate => cases hl
  | count | free | inflateOwn =>
    cases hl
    exact absurd rfl hk

theorem of_fat {id : Nat} (h : Change t mine l l') (hl : l = .fat id) : l' = l := by
  cases h with
  | keep => rfl
  | take | inflate | count | free | inflateOwn => cases hl

theorem not_thin (h : Change t mine l l') (hk : k ≠ t) (hl : ∀ n, l ≠ .thin k n) :
    ∀ n, l' ≠ .thin k n := by
  intro n hn
  cases h with
  | keep => exact hl n hn
  | take | count =>
    cases hn
    exact hk rfl
  | free | inflate | inflateOwn => cases hn

theorem to_fat {id : Nat} (h : Change t mine l l') (hl : l' = .fat id) :
    l = .fat id ∨ mine = some id := by
  cases h with
  | keep => exact .inl hl
  | take | count | free => cases hl
  | inflate hm | inflateOwn _ hm =>
    cases hl
    exact .inr hm

end Change

/-- A thread changes the lock in the word, if at all, on its own account, and leaves alone the
locks that others are making. -/
structure Frame (s : Machine) (t : ThreadId) (table : MonitorTable) : Prop where
  limit : table.maxRecursion = s.table.maxRecursion
  size : s.table.fats.size ≤ table.fats.size
  others : ∀ k, k ≠ t → ∀ id, (s.control k).reserved = some id →
    table.fat? id = s.table.fat? id
  current : ∀ id l, s.lock = .fat id → table.fat? id = some l →
    table.fat? id = s.table.fat? id ∨ l.owner = none ∨ l.owner = some t

namespace Frame

variable {s : Machine} {t : ThreadId}

theorem refl {s : Machine} {t : ThreadId} : Frame s t s.table :=
  ⟨rfl, Nat.le_refl _, fun _ _ _ _ => rfl, fun _ _ _ _ => .inl rfl⟩

theorem reserve (s : Machine) (t : ThreadId) : Frame s t s.table.reserve.2 :=
  ⟨rfl, by simp [MonitorTable.reserve], fun _ _ _ _ => fat?_reserve _ _,
    fun _ _ _ _ => .inl (fat?_reserve _ _)⟩

theorem own (h : s.Inv) {table : MonitorTable} {id : Nat}
    (hid : (s.control t).reserved = some id) (hmax : table.maxRecursion = s.table.maxRecursion)
    (hsize : table.fats.size = s.table.fats.size)
    (hfat : ∀ k, k ≠ id → table.fat? k = s.table.fat? k) : Frame s t table := by
  refine ⟨hmax, Nat.le_of_eq hsize.symm, fun k hk i hi => hfat i ?_, fun i l hi _ => .inl (hfat i ?_)⟩
  · rintro rfl
    exact hk (h.distinct k t i hi hid)
  · rintro rfl
    exact (h.reserved t i hid).2.2 hi

theorem fat (h : s.Inv) {id : Nat} (hlock : s.lock = .fat id) {l : FatLock}
    (hl : l.owner = none ∨ l.owner = some t) : Frame s t (s.table.setFat id l) := by
  have hok := h.lock
  rw [hlock] at hok
  obtain ⟨_, l₀, hl₀, _⟩ := hok
  have hid := bounds_of_fat? hl₀
  refine ⟨rfl, by simp [setFat], fun k _ i hi => ?_, fun i l' hi hl' => ?_⟩
  · rw [fat?_setFat hid, if_neg]
    rintro rfl
    exact (h.reserved k i hi).2.2 hlock
  · rw [hlock] at hi
    cases hi
    rw [fat?_setFat hid, if_pos rfl] at hl'
    cases hl'
    exact .inr hl

end Frame

section Others

variable {s : Machine} {t k : ThreadId} {l : Lock} {table : MonitorTable} {mine : Option Nat}

theorem Inflating.Stands.other {i : Inflating} (h : i.Stands s.lock k)
    (hk : k ≠ t) (hchange : Change t mine s.lock l) : i.Stands l k := by
  cases i with
  | contention => exact hchange.not_thin hk h
  | recursion seen =>
    obtain ⟨hseen, n, hn⟩ := h
    rw [hchange.of_thin hk hn]
    exact ⟨hseen, n, hn⟩

/-- What a thread knows stays true while another one takes a step. -/
theorem Control.Stands.other (h : (s.control k).Stands s.lock s.table k)
    (hk : k ≠ t) (hchange : Change t mine s.lock l) (hframe : Frame s t table) :
    (s.control k).Stands l table k := by
  have hfat := hframe.others k hk
  cases hc : s.control k with
  | enterStore seen =>
    rw [hc] at h
    obtain ⟨hseen, n, hlt, hn⟩ := h
    rw [hchange.of_thin hk hn]
    exact ⟨hseen, n, by rw [hframe.limit]; exact hlt, hn⟩
  | exitStore seen =>
    rw [hc] at h
    obtain ⟨hseen, n, hn⟩ := h
    rw [hchange.of_thin hk hn]
    exact ⟨hseen, n, hn⟩
  | contendLoad =>
    rw [hc] at h
    exact hchange.not_thin hk h
  | reserve i | insert i id =>
    rw [hc] at h
    exact Inflating.Stands.other h hk hchange
  | publish i id =>
    rw [hc] at h hfat
    exact ⟨h.1.other hk hchange, (hfat id rfl).trans h.2⟩
  | withdraw i id =>
    rw [hc] at h
    exact ⟨h.1, h.2.other hk hchange⟩
  | lookup op id | acquire id | release id =>
    rw [hc] at h
    exact (hchange.of_fat h).trans h
  | wait id =>
    rw [hc] at h
    refine ⟨(hchange.of_fat h.1).trans h.1, fun l' hl' => ?_⟩
    rcases hframe.current id l' h.1 hl' with hsame | hnone | hmine
    · exact h.2 l' (hsame ▸ hl')
    · rw [hnone]
      exact nofun
    · rw [hmine]
      exact fun heq => hk (Option.some.inj heq).symm
  | idle | enterSwap | exitLoad | done => trivial

end Others

namespace Machine

variable {s : Machine} {t : ThreadId} {l : Lock} {table : MonitorTable} {c : Control}

def after (s : Machine) (t : ThreadId) (l : Lock) (table : MonitorTable) (c : Control) : Machine :=
  { s with word := encode l, table := table }.goTo t c

theorem goTo_self (s : Machine) (t : ThreadId) (c : Control) : (s.goTo t c).control t = c :=
  if_pos rfl

theorem goTo_other {k : ThreadId} (s : Machine) (c : Control) (hk : k ≠ t) :
    (s.goTo t c).control k = s.control k :=
  if_neg hk

theorem Inv.fits (h : s.Inv) : Fits s.lock := h.lock.fits h.limit h.few

theorem Inv.goTo_eq_after (h : s.Inv) : s.goTo t c = s.after t s.lock s.table c := by
  rw [after, ← h.word]

theorem lock_after (h : Fits l) : (s.after t l table c).lock = l := decode_encode h

def Fresh (s : Machine) (t : ThreadId) (l : Lock) (table : MonitorTable) (id : Nat) : Prop :=
  (0 < id ∧ id ≤ table.fats.size) ∧ id ∉ s.foreign ∧ l ≠ .fat id ∧
    ∀ k, k ≠ t → (s.control k).reserved ≠ some id

theorem Inv.fresh (h : s.Inv) {id : Nat} (hid : (s.control t).reserved = some id)
    (hsize : s.table.fats.size ≤ table.fats.size) : s.Fresh t s.lock table id := by
  obtain ⟨hbounds, hforeign, hlock⟩ := h.reserved t id hid
  exact ⟨⟨hbounds.1, by omega⟩, hforeign, hlock, fun k hk hid' => hk (h.distinct k t id hid' hid)⟩

theorem Inv.after (h : s.Inv) (hvalid : ValidId t)
    (hchange : Change t (s.control t).reserved s.lock l) (hframe : Frame s t table)
    (few : table.fats.size < 2 ^ 32) (hl : LockOk table s.foreign l) (hc : c.Stands l table t)
    (hfresh : ∀ id, c.reserved = some id → s.Fresh t l table id) : (s.after t l table c).Inv := by
  have hlimit : table.maxRecursion ≤ 255 := hframe.limit ▸ h.limit
  have hlock : (s.after t l table c).lock = l := lock_after (hl.fits hlimit few)
  have hsize := hframe.size
  refine ⟨hlimit, few, fun id hid => ?_, by rw [hlock]; rfl, by rw [hlock]; exact hl,
    fun k hk => ?_, fun k => ?_, fun k id hid => ?_, fun k k' id hid hid' => ?_⟩
  · have := h.foreign id hid
    exact ⟨this.1, Nat.le_trans this.2 hsize⟩
  · by_cases hkt : k = t
    · exact hkt ▸ hvalid
    · exact h.valid k (by rwa [Machine.after, goTo_other _ _ hkt] at hk)
  · rw [hlock]
    by_cases hkt : k = t
    · rw [hkt, Machine.after, goTo_self]
      exact hc
    · rw [Machine.after, goTo_other _ _ hkt]
      exact (h.stands k).other hkt hchange hframe
  · rw [hlock]
    by_cases hkt : k = t
    · rw [hkt, Machine.after, goTo_self] at hid
      exact ⟨(hfresh id hid).1, (hfresh id hid).2.1, (hfresh id hid).2.2.1⟩
    · rw [Machine.after, goTo_other _ _ hkt] at hid
      obtain ⟨hbounds, hforeign, hne⟩ := h.reserved k id hid
      refine ⟨⟨hbounds.1, Nat.le_trans hbounds.2 hsize⟩, hforeign, fun heq => ?_⟩
      rcases hchange.to_fat heq with hold | hmine
      · exact hne hold
      · exact hkt (h.distinct k t id hid hmine)
  · by_cases hkt : k = t <;> by_cases hkt' : k' = t
    · exact hkt.trans hkt'.symm
    · rw [hkt, Machine.after, goTo_self] at hid
      rw [Machine.after, goTo_other _ _ hkt'] at hid'
      exact absurd hid' ((hfresh id hid).2.2.2 k' hkt')
    · rw [hkt', Machine.after, goTo_self] at hid'
      rw [Machine.after, goTo_other _ _ hkt] at hid
      exact absurd hid ((hfresh id hid').2.2.2 k hkt)
    · rw [Machine.after, goTo_other _ _ hkt] at hid
      rw [Machine.after, goTo_other _ _ hkt'] at hid'
      exact h.distinct k k' id hid hid'

/-- A step on another object changes only locks that belong to others. -/
theorem Inv.elsewhere (h : s.Inv) {foreign : List Nat}
    (hmax : table.maxRecursion = s.table.maxRecursion)
    (hsize : s.table.fats.size ≤ table.fats.size) (few : table.fats.size < 2 ^ 32)
    (hforeign : ∀ id ∈ foreign, (0 < id ∧ id ≤ table.fats.size) ∧ s.lock ≠ .fat id ∧
      ∀ k, (s.control k).reserved ≠ some id)
    (hfat : ∀ id, id ∉ foreign → table.fat? id = s.table.fat? id) :
    { s with table := table, foreign := foreign }.Inv := by
  have hreserved : ∀ k id, (s.control k).reserved = some id → id ∉ foreign :=
    fun k id hid hmem => (hforeign id hmem).2.2 k hid
  have hcurrent : ∀ id, s.lock = .fat id → id ∉ foreign :=
    fun id hid hmem => (hforeign id hmem).2.1 hid
  have hframe (t : ThreadId) : Frame s t table :=
    ⟨hmax, hsize, fun k _ id hid => hfat id (hreserved k id hid),
      fun id _ hid _ => .inl (hfat id (hcurrent id hid))⟩
  refine ⟨hmax ▸ h.limit, few, fun id hid => (hforeign id hid).1, h.word, ?_, h.valid,
    fun k => ?_, fun k id hid => ?_, h.distinct⟩
  · change LockOk table foreign s.lock
    have hok := h.lock
    cases hl : s.lock with
    | unlocked => trivial
    | thin owner again =>
      rw [hl] at hok
      exact ⟨hok.1, hmax ▸ hok.2⟩
    | fat id =>
      rw [hl] at hok
      obtain ⟨_, l, hl', hfatOk⟩ := hok
      exact ⟨hcurrent id hl, l, (hfat id (hcurrent id hl)).trans hl', hfatOk⟩
  · -- For `k` this is a step of some other thread.
    have hkeep : Change (k + 1) none s.lock s.lock := .keep s.lock
    exact (h.stands k).other (Nat.ne_of_lt (Nat.lt_succ_self k)) hkeep (hframe (k + 1))
  · obtain ⟨hbounds, _, hne⟩ := h.reserved k id hid
    exact ⟨⟨hbounds.1, Nat.le_trans hbounds.2 hsize⟩, hreserved k id hid, hne⟩

/-- What other objects have is not part of this one. -/
theorem Inv.apart (h : s.Inv) {id : Nat} (hid : id ∈ s.foreign) :
    s.lock ≠ .fat id ∧ ∀ k, (s.control k).reserved ≠ some id := by
  refine ⟨fun hlock => ?_, fun k hk => (h.reserved k id hk).2.1 hid⟩
  have hok := h.lock
  rw [hlock] at hok
  exact hok.1 hid

theorem Inv.reserveForeign (h : s.Inv) (few : s.table.reserve.2.fats.size < 2 ^ 32) :
    { s with table := s.table.reserve.2, foreign := s.table.reserve.1 :: s.foreign }.Inv := by
  have hsize := size_reserve s.table
  refine h.elsewhere rfl (by omega) few (fun id hid => ?_) (fun id _ => fat?_reserve _ _)
  rcases List.mem_cons.mp hid with rfl | hid
  · -- The new number lies behind all that are in use.
    refine ⟨⟨Nat.succ_pos _, Nat.le_of_eq hsize.symm⟩, fun hlock => ?_, fun k hk => ?_⟩
    · have hok := h.lock
      rw [hlock] at hok
      obtain ⟨_, l, hl, _⟩ := hok
      exact absurd (bounds_of_fat? hl).2 (Nat.not_succ_le_self _)
    · exact absurd (h.reserved k _ hk).1.2 (Nat.not_succ_le_self _)
  · have hbounds := h.foreign id hid
    exact ⟨⟨hbounds.1, by omega⟩, h.apart hid⟩

theorem Inv.changeForeign (h : s.Inv) {id : Nat} (hid : id ∈ s.foreign)
    (hmax : table.maxRecursion = s.table.maxRecursion) (hsize : table.fats.size = s.table.fats.size)
    (hfat : ∀ k, k ≠ id → table.fat? k = s.table.fat? k) : { s with table := table }.Inv := by
  refine h.elsewhere hmax (by omega) (by have := h.few; omega) (fun k hk => ?_) (fun k hk => ?_)
  · have hbounds := h.foreign k hk
    exact ⟨⟨hbounds.1, by omega⟩, h.apart hk⟩
  · exact hfat k (fun heq => hk (heq ▸ hid))

end Machine

end Contention

end ManagedCore
