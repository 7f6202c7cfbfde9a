import ManagedCore.Heap.Monitor
import Mathlib.Algebra.Group.Nat.Defs

/-!
# Lock words

The lock of an object is kept in 64 bits: zero when it is unlocked, the owner above the number of
later entries when it is thin, and the highest bit over the number of its table entry when it is fat.
-/

namespace ManagedCore.LockWord

variable {owner count : Nat} {id : Nat} {l : Lock}

def fatBit : UInt64 := 0x8000000000000000

def lowMask : UInt64 := 0xffffffff

def thinWord (owner : ThreadId) (count : Nat) : UInt64 :=
  (UInt64.ofNat owner <<< 32) ||| UInt64.ofNat count

def fatWord (id : Nat) : UInt64 := fatBit ||| UInt64.ofNat id

def isFat (w : UInt64) : Bool := w &&& fatBit != 0

def low (w : UInt64) : Nat := (w &&& lowMask).toNat

def thinOwner (w : UInt64) : Nat := ((w &&& ~~~fatBit) >>> 32).toNat

def decode (w : UInt64) : Lock :=
  if isFat w then .fat (low w)
  else if w = 0 then .unlocked
  else .thin (thinOwner w) (low w)

def encode : Lock → UInt64
  | .unlocked => 0
  | .thin owner again => thinWord owner again
  | .fat id => fatWord id

def ValidId (t : Nat) : Prop := 0 < t ∧ t < 2 ^ 31

def Fits : Lock → Prop
  | .unlocked => True
  | .thin owner again => ValidId owner ∧ again < 2 ^ 32
  | .fat id => id < 2 ^ 32

/-! ## Words as numbers -/

theorem toNat_thinWord (ho : owner < 2 ^ 31) (hc : count < 2 ^ 32) :
    (thinWord owner count).toNat = owner * 2 ^ 32 + count := by
  have hshift : (UInt64.ofNat owner <<< 32).toNat = owner * 2 ^ 32 := by
    simp
    omega
  rw [thinWord, UInt64.toNat_or, hshift, UInt64.toNat_ofNat_of_lt' (by simp [UInt64.size]; omega),
    Nat.mul_comm, ← Nat.two_pow_add_eq_or_of_lt hc]

theorem toNat_fatWord (h : id < 2 ^ 63) : (fatWord id).toNat = 2 ^ 63 + id := by
  have hbit : fatBit.toNat = 2 ^ 63 * 1 := rfl
  rw [fatWord, UInt64.toNat_or, hbit, UInt64.toNat_ofNat_of_lt' (by simp [UInt64.size]; omega),
    ← Nat.two_pow_add_eq_or_of_lt h, Nat.mul_one]

theorem isFat_iff (w : UInt64) : isFat w = true ↔ 2 ^ 63 ≤ w.toNat := by
  have hlt := w.toNat_lt
  have hbit : w.toNat.testBit 63 = decide (2 ^ 63 ≤ w.toNat) := by
    rw [Nat.testBit_eq_decide_div_mod_eq]
    exact decide_eq_decide.mpr (by omega)
  have hand : (w &&& fatBit).toNat = if 2 ^ 63 ≤ w.toNat then 2 ^ 63 else 0 := by
    rw [UInt64.toNat_and, show fatBit.toNat = 2 ^ 63 from rfl]
    refine Nat.eq_of_testBit_eq fun i => ?_
    by_cases hi : i = 63
    · rw [Nat.testBit_and, hi, hbit, Nat.testBit_two_pow_self, Bool.and_true]
      split <;> rename_i h
      · rw [Nat.testBit_two_pow_self, decide_eq_true h]
      · rw [Nat.zero_testBit, decide_eq_false h]
    · rw [Nat.testBit_and, Nat.testBit_two_pow_of_ne (Ne.symm hi), Bool.and_false]
      split
      · rw [Nat.testBit_two_pow_of_ne (Ne.symm hi)]
      · rw [Nat.zero_testBit]
  rw [isFat, bne_iff_ne, ne_eq, ← UInt64.toNat_inj, hand]
  split <;> simp_all

theorem low_eq (w : UInt64) : low w = w.toNat % 2 ^ 32 := by
  rw [low, UInt64.toNat_and, show lowMask.toNat = 2 ^ 32 - 1 from rfl,
    Nat.and_two_pow_sub_one_eq_mod]

theorem thinOwner_eq (w : UInt64) : thinOwner w = w.toNat % 2 ^ 63 / 2 ^ 32 := by
  rw [thinOwner, UInt64.toNat_shiftRight, UInt64.toNat_and,
    show (~~~fatBit).toNat = 2 ^ 63 - 1 from rfl, Nat.and_two_pow_sub_one_eq_mod,
    Nat.shiftRight_eq_div_pow]
  rfl

/-! ## Reading words back -/

theorem decode_fatWord (h : id < 2 ^ 32) : decode (fatWord id) = .fat id := by
  have hn : (fatWord id).toNat = 2 ^ 63 + id := toNat_fatWord (by omega)
  rw [decode, if_pos ((isFat_iff _).mpr (by omega)), low_eq]
  congr 1
  omega

theorem decode_thinWord (ho : ValidId owner) (hc : count < 2 ^ 32) :
    decode (thinWord owner count) = .thin owner count := by
  obtain ⟨hpos, hlt⟩ := ho
  have hn := toNat_thinWord hlt hc
  have hfat : ¬ isFat (thinWord owner count) = true := by
    rw [isFat_iff]
    omega
  have hzero : thinWord owner count ≠ 0 := fun h => by
    rw [h, UInt64.toNat_zero] at hn
    omega
  have howner : (owner * 2 ^ 32 + count) % 2 ^ 63 / 2 ^ 32 = owner := by omega
  have hcount : (owner * 2 ^ 32 + count) % 2 ^ 32 = count := by omega
  rw [decode, if_neg hfat, if_neg hzero, low_eq, thinOwner_eq, hn, howner, hcount]

theorem decode_encode (h : Fits l) : decode (encode l) = l := by
  cases l with
  | unlocked => rfl
  | thin owner again => exact decode_thinWord h.1 h.2
  | fat id => exact decode_fatWord h

theorem thinWord_succ (ho : owner < 2 ^ 31) (hc : count + 1 < 2 ^ 32) :
    thinWord owner count + 1 = thinWord owner (count + 1) := by
  rw [← UInt64.toNat_inj, UInt64.toNat_add, toNat_thinWord ho (by omega), toNat_thinWord ho hc,
    UInt64.toNat_one]
  omega

theorem thinWord_pred (ho : owner < 2 ^ 31) (hc : count + 1 < 2 ^ 32) :
    thinWord owner (count + 1) - 1 = thinWord owner count := by
  rw [← thinWord_succ ho hc]
  exact UInt64.add_sub_cancel _ _

/-! ## What a thread reads off a word -/

theorem isFat_encode (h : Fits l) : isFat (encode l) = MonitorTable.isInflated l := by
  rw [Bool.eq_iff_iff, isFat_iff]
  cases l with
  | unlocked => decide
  | thin owner again =>
    obtain ⟨⟨_, hlt⟩, hagain⟩ := h
    rw [encode, toNat_thinWord hlt hagain]
    simp only [MonitorTable.isInflated, Bool.false_eq_true, iff_false]
    omega
  | fat id =>
    have hid : id < 2 ^ 32 := h
    rw [encode, toNat_fatWord (by omega)]
    simp [MonitorTable.isInflated]

theorem encode_eq_zero_iff (h : Fits l) : encode l = 0 ↔ l = .unlocked := by
  constructor
  · intro hzero
    rw [← decode_encode h, hzero]
    rfl
  · rintro rfl
    rfl

theorem thinOwner_thinWord (ho : owner < 2 ^ 31) (hc : count < 2 ^ 32) :
    thinOwner (thinWord owner count) = owner := by
  rw [thinOwner_eq, toNat_thinWord ho hc]
  omega

theorem low_thinWord (ho : owner < 2 ^ 31) (hc : count < 2 ^ 32) :
    low (thinWord owner count) = count := by
  rw [low_eq, toNat_thinWord ho hc]
  omega

theorem low_fatWord (h : id < 2 ^ 32) : low (fatWord id) = id := by
  rw [low_eq, toNat_fatWord (by omega)]
  omega

end ManagedCore.LockWord
