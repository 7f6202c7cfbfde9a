import ManagedCore.Compile.Body
import ManagedCore.Numeric
import ManagedCore.Proofs.Bytecode.Direct
import Mathlib.Data.Bool.Basic

/-!
# Operands

Arithmetic, comparisons and shuffles of the stack are the same whether instructions are run
directly or compiled: symbolic stacks are shuffled like the values that their registers hold.
-/

namespace ManagedCore

open Value Direct ManagedCore.Except List

/-! ## Arithmetic -/

theorem isDivision_iff (op : BinaryOp) : op.isDivision = true ↔ op = .div ∨ op = .rem := by
  cases op <;> simp [BinaryOp.isDivision]

theorem intArith_cases (op : ArithOp) (a b : Int32) :
    ((Emit.ofArith op).isDivision = true ∧ b = 0 ∧ intArith op a b = none) ∨
      (¬((Emit.ofArith op).isDivision = true ∧ b = 0) ∧ ∃ v, intArith op a b = some v ∧
        (int a).binary (Emit.ofArith op) (.int b) = .ok (.int v)) := by
  by_cases hb : b = 0 <;> cases op <;>
    simp [intArith, binary, Emit.ofArith, BinaryOp.isDivision, BinaryOp.onInt, hb]

theorem longArith_cases (op : ArithOp) (a b : Int64) :
    ((Emit.ofArith op).isDivision = true ∧ b = 0 ∧ longArith op a b = none) ∨
      (¬((Emit.ofArith op).isDivision = true ∧ b = 0) ∧ ∃ v, longArith op a b = some v ∧
        (long a).binary (Emit.ofArith op) (.long b) = .ok (.long v)) := by
  by_cases hb : b = 0 <;> cases op <;>
    simp [longArith, binary, Emit.ofArith, BinaryOp.isDivision, BinaryOp.onLong,
      BinaryOp.isShift, hb]

theorem binary_intBits (op : BitOp) (a b : Int32) :
    (int a).binary (Emit.ofBits op) (.int b) = .ok (.int (intBits op a b)) := by
  cases op <;> rfl

theorem binary_longBits {op : BitOp} {a v : Int64} {b : Value}
    (h : longBits op a b = some v) :
    (long a).binary (Emit.ofBits op) b = .ok (.long v) := by
  cases op <;> cases b <;> cases h <;> rfl

theorem cmp_holds (c : Condition) (a b : Int32) :
    (int a).cmp? (Emit.ofCondition c) (.int b) = some (holds c a b) := by
  have hgt := Int32.lt_iff_toInt_lt (x := b) (y := a)
  have heq : a = b ↔ a.toInt = b.toInt := Int32.toInt_inj.symm
  cases c <;>
    simp only [cmp?, intOrder, Emit.ofCondition, CmpOp.holds, holds, Order.of] <;>
    grind

theorem cmp_zero {v : Value} {t : ValueType} (hv : v.type = t) (ht : t.isInteger = true) :
    v.cmp? .eq (.zero t) = some (decide (v = .zero t)) := by
  subst hv
  cases v with
  | int x | long x =>
    by_cases hx : x = 0
    · subst hx
      rfl
    · have hne : Order.of x 0 ≠ .equal := by
        unfold Order.of
        split <;> simp [hx]
      simp [type, zero, cmp?, intOrder, longOrder, CmpOp.holds, hx, hne]
  | _ => cases ht

theorem compare_longOrder (a b : Int64) :
    (long a).compare? 0 (.long b) = some (.int (Direct.longOrder a b)) := by
  simp only [compare?, Order.of, Direct.longOrder, beq_iff_eq]
  split
  · rfl
  · split <;> rfl

theorem narrowInt_narrowed (n : Narrowing) (v : Int32) :
    n.elementKind.narrowInt v = narrowed n v := by
  cases n <;> rfl

/-! ## Keys of switches -/

theorem ofNat_eq_iff (m : Nat) (k : Int32) :
    Int32.ofNat m = k ↔ m % 4294967296 = k.toUInt32.toNat := by
  rw [← Int32.toBitVec_inj, ← BitVec.toNat_inj]
  rfl

theorem find?_zipIdx_ofNat {α : Type} (xs : List α) (k : Int32) :
    (xs.zipIdx.find? fun p => Int32.ofNat p.2 == k).map (·.1) = xs[k.toUInt32.toNat]? := by
  by_cases h : k.toUInt32.toNat < xs.length
  · have hfind : (xs.zipIdx.find? fun p => Int32.ofNat p.2 == k) =
        some (xs[k.toUInt32.toNat], k.toUInt32.toNat) := by
      rw [find?_eq_some_iff_getElem]
      refine ⟨by simp [ofNat_eq_iff], k.toUInt32.toNat, by simpa using h, by simp, fun j hj => ?_⟩
      have hne : j % 4294967296 ≠ k.toUInt32.toNat := by omega
      simpa [ofNat_eq_iff] using hne
    rw [hfind, Option.map_some, getElem?_eq_getElem h]
  · have hnone : (xs.zipIdx.find? fun p => Int32.ofNat p.2 == k) = none := by
      rw [find?_eq_none]
      rintro ⟨x, n⟩ hmem
      have hn := snd_lt_of_mem_zipIdx hmem
      simp only [beq_iff_eq, ofNat_eq_iff]
      omega
    rw [hnone, getElem?_eq_none (Nat.not_lt.mp h)]
    rfl

theorem toNat_sub (k low : Int32) : ((k - low).toUInt32.toNat : Int) =
    if low ≤ k then k.toInt - low.toInt else 4294967296 + k.toInt - low.toInt := by
  simp only [Int32.le_iff_toInt_le]
  change ((k - low).toBitVec.toNat : Int) = if low.toBitVec.toInt ≤ k.toBitVec.toInt then
    k.toBitVec.toInt - low.toBitVec.toInt else 4294967296 + k.toBitVec.toInt - low.toBitVec.toInt
  rw [Int32.toBitVec_sub, BitVec.toNat_sub, BitVec.toInt_eq_toNat_cond, BitVec.toInt_eq_toNat_cond]
  omega

/-- The keys of a table that fits below the largest key are in order. -/
theorem tableCases_target {low : Int32} {targets : List Nat} {default : Nat}
    (h : low.toInt + targets.length ≤ 2147483648) (k : Int32) :
    lookupTarget default (Emit.tableCases low targets) k =
      tableTarget default low targets k := by
  have hkeys : (fun p : Nat × Nat => low + Int32.ofNat p.2 == k) =
      fun p => Int32.ofNat p.2 == k - low := by
    funext p
    rw [Bool.eq_iff_iff, beq_iff_eq, beq_iff_eq]
    constructor
    · rintro rfl
      rw [Int32.add_comm, Int32.add_sub_cancel]
    · intro heq
      rw [heq, Int32.add_comm, Int32.sub_add_cancel]
  have hfind : ((Emit.tableCases low targets).find? (·.1 == k)).map (·.2) =
      targets[(k - low).toUInt32.toNat]? := by
    rw [← find?_zipIdx_ofNat, ← hkeys, Emit.tableCases, find?_map, Option.map_map]
    rfl
  have hsub := toNat_sub k low
  rw [lookupTarget, hfind, tableTarget]
  split
  · rename_i hle
    rw [if_pos hle] at hsub
    rw [← hsub]
    rfl
  · rename_i hlt
    rw [if_neg hlt] at hsub
    have hk := k.le_toInt
    rw [getElem?_eq_none (by omega)]
    rfl

/-! ## Shuffles -/

theorem Direct.shuffle_map {α β : Type} (f : α → β) (wide : β → Bool) (op : StackOp)
    (l : List α) : shuffle wide op (l.map f) =
      (shuffle (fun a => wide (f a)) op l).map (map f) := by
  cases op <;> rcases l with _ | ⟨a, _ | ⟨b, _ | ⟨c, _ | ⟨d, l⟩⟩⟩⟩ <;>
    simp only [shuffle, map_nil, map_cons, apply_ite (Option.map (map f)),
      Option.map_none, Option.map_some]

theorem Direct.shuffle_congr {α : Type} {wide wide' : α → Bool} (op : StackOp) {l : List α}
    (h : ∀ e ∈ l, wide e = wide' e) : shuffle wide op l = shuffle wide' op l := by
  cases op <;> rcases l with _ | ⟨a, _ | ⟨b, _ | ⟨c, _ | ⟨d, l⟩⟩⟩⟩ <;> simp_all [shuffle]

theorem Direct.shuffle_subset {α : Type} {wide : α → Bool} {op : StackOp} {l l' : List α}
    (h : shuffle wide op l = some l') : ∀ e ∈ l', e ∈ l := by
  cases op <;> rcases l with _ | ⟨a, _ | ⟨b, _ | ⟨c, _ | ⟨d, l⟩⟩⟩⟩ <;>
    simp only [shuffle] at h <;> grind

theorem ValueType.slots_eq (t : ValueType) : t.slots = 1 ∨ t.slots = 2 := by
  cases t <;> simp [slots]

namespace SymStack

def wide (e : Reg × ValueType) : Bool := e.2.slots = 2

variable {s taken rest : SymStack}

theorem popSlots_one {pc : Nat} (h : popSlots pc 1 s = .ok (taken, rest)) :
    ∃ e, s = e :: rest ∧ taken = [e] ∧ wide e = false := by
  cases s with
  | nil =>
    rw [popSlots] at h
    cases h
  | cons e s =>
    rw [popSlots] at h
    rcases e.2.slots_eq with hs | hs
    · simp only [hs, Nat.sub_self, popSlots] at h
      cases h
      exact ⟨e, rfl, rfl, by simp [wide, hs]⟩
    · simp [hs] at h

theorem popSlots_two {pc : Nat}
    (h : popSlots pc 2 s = .ok (taken, rest)) : (∃ e, s = e :: rest ∧ taken = [e] ∧ wide e = true) ∨
      ∃ e f, s = e :: f :: rest ∧ taken = [e, f] ∧ wide e = false ∧ wide f = false := by
  cases s with
  | nil =>
    rw [popSlots] at h
    cases h
  | cons e s =>
    rw [popSlots] at h
    rcases e.2.slots_eq with hs | hs
    · simp only [hs] at h
      cases hp : popSlots pc 1 s with
      | error err =>
        simp only [hp] at h
        cases h
      | ok p =>
        obtain ⟨under, rest⟩ := p
        simp only [hp] at h
        cases h
        obtain ⟨f, rfl, rfl, hwide⟩ := popSlots_one hp
        exact .inr ⟨e, f, rfl, rfl, by simp [wide, hs], hwide⟩
    · simp only [hs, Nat.sub_self, popSlots] at h
      cases h
      exact .inl ⟨e, rfl, rfl, by simp [wide, hs]⟩

theorem shuffle_ok {pc : Nat} {op : StackOp} {s s' : SymStack} (h : shuffle pc op s = .ok s') :
    Direct.shuffle wide op s = some s' := by
  cases op with
  | pop | dup =>
    obtain ⟨⟨top, s⟩, htop, h⟩ := bind_ok_iff.mp h
    cases h
    obtain ⟨e, rfl, rfl, he⟩ := popSlots_one htop
    simp [Direct.shuffle, he]
  | pop2 | dup2 =>
    obtain ⟨⟨top, s⟩, htop, h⟩ := bind_ok_iff.mp h
    cases h
    rcases popSlots_two htop with ⟨e, rfl, rfl, he⟩ | ⟨e, f, rfl, rfl, he, hf⟩
    · simp [Direct.shuffle, he]
    · simp [Direct.shuffle, he, hf]
  | dupX1 | swap =>
    obtain ⟨⟨top, s⟩, htop, h⟩ := bind_ok_iff.mp h
    obtain ⟨⟨under, s⟩, hunder, h⟩ := bind_ok_iff.mp h
    cases h
    obtain ⟨e, rfl, rfl, he⟩ := popSlots_one htop
    obtain ⟨f, rfl, rfl, hf⟩ := popSlots_one hunder
    simp [Direct.shuffle, he, hf]
  | dupX2 =>
    obtain ⟨⟨top, s⟩, htop, h⟩ := bind_ok_iff.mp h
    obtain ⟨⟨under, s⟩, hunder, h⟩ := bind_ok_iff.mp h
    cases h
    obtain ⟨e, rfl, rfl, he⟩ := popSlots_one htop
    rcases popSlots_two hunder with ⟨f, rfl, rfl, hf⟩ | ⟨f, f', rfl, rfl, hf, hf'⟩
    · simp [Direct.shuffle, he, hf]
    · simp [Direct.shuffle, he, hf, hf']
  | dup2X1 =>
    obtain ⟨⟨top, s⟩, htop, h⟩ := bind_ok_iff.mp h
    obtain ⟨⟨under, s⟩, hunder, h⟩ := bind_ok_iff.mp h
    cases h
    obtain ⟨f, rfl, rfl, hf⟩ := popSlots_one hunder
    rcases popSlots_two htop with ⟨e, rfl, rfl, he⟩ | ⟨e, e', rfl, rfl, he, he'⟩
    · simp [Direct.shuffle, he, hf]
    · simp [Direct.shuffle, he, he', hf]
  | dup2X2 =>
    obtain ⟨⟨top, s⟩, htop, h⟩ := bind_ok_iff.mp h
    obtain ⟨⟨under, s⟩, hunder, h⟩ := bind_ok_iff.mp h
    cases h
    rcases popSlots_two htop with ⟨e, rfl, rfl, he⟩ | ⟨e, e', rfl, rfl, he, he'⟩
    · rcases popSlots_two hunder with ⟨f, rfl, rfl, hf⟩ | ⟨f, f', rfl, rfl, hf, hf'⟩
      · simp [Direct.shuffle, he, hf]
      · simp [Direct.shuffle, he, hf, hf']
    · rcases popSlots_two hunder with ⟨f, rfl, rfl, hf⟩ | ⟨f, f', rfl, rfl, hf, hf'⟩
      · simp [Direct.shuffle, he, he', hf]
      · simp [Direct.shuffle, he, he', hf, hf']

end SymStack

end ManagedCore
