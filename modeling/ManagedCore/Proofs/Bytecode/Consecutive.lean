import ManagedCore.Proofs.Bytecode.Encoding

/-!
# Offsets of decoded instructions

Decoded instructions follow each other without gaps: each starts where the one before it ends, and
none is empty. So an offset names at most one instruction, and the instruction behind another one
in the list is the one at the offset behind it. The targets of a jump table have keys that stay
within 32 bits.
-/

namespace ManagedCore

open List

variable {bytes : List UInt8} {instrs : List Instruction}

/-- Instructions that follow each other without gaps, the first at `pc`. -/
def Consecutive : Nat → List Instruction → Prop
  | _, [] => True
  | pc, i :: rest => i.pc = pc ∧ 0 < i.len ∧ Consecutive i.next rest

/-- The keys of a jump table are 32-bit numbers. -/
def TableFits : Operation → Prop
  | .tableSwitch _ low targets => low.toInt + targets.length ≤ 2147483648
  | _ => True

namespace Consecutive

variable {pc : Nat} {i : Instruction} {rest before : List Instruction} {j : Instruction}

theorem le_pc {instrs : List Instruction} (h : Consecutive pc instrs) (hi : i ∈ instrs) :
    pc ≤ i.pc := by
  induction instrs generalizing pc with
  | nil => cases hi
  | cons j rest ih =>
    obtain ⟨hpc, hlen, hrest⟩ := h
    rcases mem_cons.mp hi with rfl | hmem
    · exact Nat.le_of_eq hpc.symm
    · have hle := ih hrest hmem
      simp only [Instruction.next] at hle
      omega

theorem suffix (before : List Instruction) (h : Consecutive pc (before ++ i :: rest)) :
    Consecutive i.pc (i :: rest) := by
  induction before generalizing pc with
  | nil =>
    obtain ⟨hpc, hrest⟩ := h
    exact ⟨rfl, hrest⟩
  | cons j before ih => exact ih h.2.2

theorem lt_pc (h : Consecutive pc (before ++ i :: rest)) (hj : j ∈ before) : j.pc < i.pc := by
  induction before generalizing pc with
  | nil => cases hj
  | cons k before ih =>
    obtain ⟨hpc, hlen, hrest⟩ := h
    rcases mem_cons.mp hj with rfl | hj
    · have hle : j.next ≤ i.pc := le_pc hrest (by simp)
      simp only [Instruction.next] at hle
      omega
    · exact ih hrest hj

/-- The instruction that follows another one stands at the offset behind it. -/
theorem pc_following (h : Consecutive pc (before ++ i :: j :: rest)) : j.pc = i.next :=
  (suffix before h).2.2.1

theorem find?_pc (h : Consecutive pc (before ++ i :: rest)) :
    (before ++ i :: rest).find? (·.pc == i.pc) = some i := by
  induction before generalizing pc with
  | nil => simp
  | cons j before ih =>
    obtain ⟨hpc, hlen, hrest⟩ := h
    have hle : j.next ≤ i.pc := le_pc hrest (by simp)
    have hne : (j.pc == i.pc) = false := by
      simp only [Instruction.next] at hle
      simp only [beq_eq_false_iff_ne]
      omega
    rw [cons_append, find?_cons, hne]
    exact ih hrest

end Consecutive

namespace Bytecode

/-- An instruction by its place and length, its generic opcode and its operands. -/
structure Entry where
  pc : Nat
  opcode : Opcode
  operand : Operand
  len : Nat
deriving DecidableEq

def entry (i : Instruction) : Entry := ⟨i.pc, i.op.opcode, i.op.operand, i.len⟩

/-- The bytes are instructions one after another, the first at `pc`, in a body of this size. -/
inductive Spells (size : Nat) : Nat → List UInt8 → List Entry → Prop where
  | nil (pc : Nat) : Spells size pc [] []
  | cons {pc : Nat} {chunk bytes : List UInt8} {o : Opcode} {x : Operand} {es : List Entry} :
      Encodes ⟨pc, size⟩ chunk o x → Spells size (pc + chunk.length) bytes es →
      Spells size pc (chunk ++ bytes) (⟨pc, o, x, chunk.length⟩ :: es)

/-- A body that is made of instructions and branches to their starts only. -/
def WellFormed (bytes : List UInt8) (es : List Entry) : Prop :=
  bytes ≠ [] ∧ Spells bytes.length 0 bytes es ∧
    ∀ e ∈ es, ∀ t ∈ e.operand.targets, t ∈ es.map Entry.pc

variable {c : Cursor} {chunk bytes : List UInt8} {o : Opcode} {x : Operand} {es : List Entry}
  {size fuel pc : Nat} {op : Operation}

theorem Encodes.length_pos (h : Encodes c chunk o x) : 0 < chunk.length := by
  cases h <;> exact Nat.succ_pos _

theorem Each.exists_of_mem {α : Type} {P : List UInt8 → α → Prop} {xs : List α}
    (h : Each P bytes xs) {a : α} (ha : a ∈ xs) : ∃ ws, P ws a := by
  induction h with
  | nil => cases ha
  | cons hx _ ih => exact (mem_cons.mp ha).elim (fun heq => ⟨_, heq ▸ hx⟩) ih

theorem Encodes.targets_lt (h : Encodes c chunk o x) : ∀ t ∈ x.targets, t < c.size := by
  have hdistance {ws : List UInt8} {t : Nat} (h : Distance c ws t) : t < c.size := h.choose_spec.2.2
  cases h with
  | branch hi lo _ _ hlt => simpa [Operand.targets] using hlt
  | farBranch _ ht => simpa [Operand.targets] using hdistance ht
  | table _ hd _ _ _ hws _ =>
    exact forall_mem_cons.mpr ⟨hdistance hd, fun t ht =>
      hdistance (hws.exists_of_mem ht).choose_spec⟩
  | lookup _ hd _ hws _ =>
    refine forall_mem_cons.mpr ⟨hdistance hd, fun t ht => ?_⟩
    obtain ⟨p, hp, rfl⟩ := mem_map.mp ht
    obtain ⟨ws, ks, ds, -, hds, -⟩ := hws.exists_of_mem hp
    exact hdistance hds
  | _ => exact nofun

theorem Encodes.fits (h : Encodes c chunk op.opcode op.operand) : TableFits op := by
  cases op with
  | tableSwitch default low ts =>
    generalize hx : (Operation.tableSwitch default low ts).operand = x at h
    cases h <;> cases hx
    rename_i high _ _ _ _ _ _ hcount
    have := high.toInt_lt
    simp only [TableFits]
    omega
  | _ => trivial

theorem Spells.consecutive {instrs : List Instruction} (h : Spells size pc bytes (instrs.map entry)) :
    Consecutive pc instrs ∧ ∀ i ∈ instrs, i.pc < pc + bytes.length ∧ TableFits i.op ∧
      ∀ t ∈ i.op.targets, t < size := by
  induction instrs generalizing pc bytes with
  | nil => exact ⟨trivial, nofun⟩
  | cons i instrs ih =>
    rw [map_cons] at h
    generalize he : entry i = e at h
    cases h with
    | cons hone hrest =>
      cases i
      cases he
      obtain ⟨hcons, hall⟩ := ih hrest
      have hpos := hone.length_pos
      refine ⟨⟨rfl, hpos, hcons⟩, forall_mem_cons.mpr ⟨⟨?_, hone.fits, hone.targets_lt⟩,
        fun i hi => ⟨?_, (hall i hi).2⟩⟩⟩
      · rw [length_append]
        omega
      · have := (hall i hi).1
        rw [length_append]
        omega

theorem Read.operation_ok {rest : List UInt8}
    (h : Read.operation c bytes = .ok (op, rest)) : ∃ chunk, bytes = chunk ++ rest ∧
      0 < chunk.length ∧ Encodes c chunk op.opcode op.operand := by
  obtain ⟨chunk, hone, rfl⟩ := completes_operation h
  exact ⟨chunk, rfl, hone.length_pos, hone⟩

variable {instrs : List Instruction} {i : Instruction}

theorem Read.instructions_spells (h : instructions size fuel pc bytes = .ok instrs) :
    Spells size pc bytes (instrs.map entry) := by
  induction fuel generalizing pc bytes instrs with
  | zero =>
    cases bytes <;> cases h
    exact .nil pc
  | succ fuel ih =>
    cases bytes with
    | nil =>
      cases h
      exact .nil pc
    | cons b bytes =>
      obtain ⟨⟨op, rest⟩, hop, h⟩ := Except.bind_ok_iff.mp h
      obtain ⟨tail, htail, h⟩ := Except.bind_ok_iff.mp h
      cases h
      obtain ⟨chunk, heq, -, hone⟩ := operation_ok hop
      rw [heq, length_append, Nat.add_sub_cancel_right] at htail ⊢
      exact .cons hone (ih htail)

/-- The reader ends at the same place, or with the same fault, however much fuel is left. -/
theorem Read.instructions_fuel {fuel' : Nat} (hfuel : bytes.length ≤ fuel)
    (hfuel' : bytes.length ≤ fuel') :
    instructions size fuel pc bytes = instructions size fuel' pc bytes := by
  induction fuel generalizing fuel' pc bytes with
  | zero => rw [length_eq_zero_iff.mp (Nat.le_zero.mp hfuel), instructions, instructions]
  | succ fuel ih =>
    cases bytes with
    | nil => rw [instructions, instructions]
    | cons b bytes =>
      cases fuel' with
      | zero => cases hfuel'
      | succ fuel' =>
        simp only [instructions]
        cases hop : operation { pc, size } (b :: bytes) with
        | error e => rfl
        | ok p =>
          obtain ⟨chunk, heq, hpos, -⟩ := operation_ok hop
          rw [heq, length_append] at hfuel hfuel'
          simp only [bind, Except.bind, ih (by omega : p.2.length ≤ fuel) (by omega : _ ≤ fuel')]

theorem Spells.read (h : Spells size pc bytes es) (hsize : bytes.length ≤ size)
    (hfuel : bytes.length ≤ fuel) :
    ∃ instrs, Read.instructions size fuel pc bytes = .ok instrs ∧ instrs.map entry = es := by
  induction h generalizing fuel with
  | nil pc => exact ⟨[], by rw [Read.instructions], rfl⟩
  | @cons pc chunk bytes o x es hone _ ih =>
    have hpos := hone.length_pos
    rw [length_append] at hsize hfuel
    cases fuel with
    | zero => omega
    | succ fuel =>
      obtain ⟨op, hop, rfl, rfl⟩ := Read.reads hone (show _ ≤ size by omega)
      obtain ⟨tail, htail, rfl⟩ := ih (by omega) (by omega : bytes.length ≤ fuel)
      refine ⟨⟨pc, op, chunk.length⟩ :: tail, ?_, rfl⟩
      rw [Read.instructions, Except.bind_ok_iff]
      · refine ⟨_, hop bytes, Except.bind_ok_iff.mpr ⟨tail, ?_, ?_⟩⟩
        · rwa [length_append, Nat.add_sub_cancel_right]
        · rw [length_append, Nat.add_sub_cancel_right]
          rfl
      · exact fun h => ne_nil_of_length_pos hpos (append_eq_nil_iff.mp h).1

theorem Except.forM_ok_iff {ε α : Type} {f : α → Except ε Unit} {xs : List α} :
    xs.forM f = .ok () ↔ ∀ x ∈ xs, f x = .ok () := by
  induction xs with
  | nil => exact ⟨nofun, fun _ => rfl⟩
  | cons x xs ih =>
    rw [forall_mem_cons, ← ih]
    exact Except.bind_ok_iff.trans ⟨fun ⟨_, h⟩ => h, fun h => ⟨(), h⟩⟩

theorem checkTargets_ok_iff : checkTargets instrs = .ok () ↔
    ∀ i ∈ instrs, ∀ t ∈ i.op.targets, t ∈ instrs.map Instruction.pc := by
  simp only [checkTargets, Except.forM_ok_iff]
  refine forall₄_congr fun i _ t _ => ?_
  split <;> simp_all

theorem wellFormed_map_entry_iff : WellFormed bytes (instrs.map entry) ↔ bytes ≠ [] ∧
    Spells bytes.length 0 bytes (instrs.map entry) ∧
    ∀ i ∈ instrs, ∀ t ∈ i.op.targets, t ∈ instrs.map Instruction.pc := by
  rw [WellFormed, map_map, forall_mem_map]
  rfl

theorem decode_ok_iff : decode bytes = .ok instrs ↔ bytes ≠ [] ∧
    Read.instructions bytes.length bytes.length 0 bytes = .ok instrs ∧
    ∀ i ∈ instrs, ∀ t ∈ i.op.targets, t ∈ instrs.map Instruction.pc := by
  cases bytes with
  | nil => exact ⟨nofun, fun h => absurd rfl h.1⟩
  | cons b bytes =>
    refine Except.bind_ok_iff.trans ⟨?_, ?_⟩
    · rintro ⟨_, hread, h⟩
      obtain ⟨_, hcheck, h⟩ := Except.bind_ok_iff.mp h
      cases h
      exact ⟨cons_ne_nil _ _, hread, checkTargets_ok_iff.mp hcheck⟩
    · rintro ⟨-, hread, hcheck⟩
      exact ⟨instrs, hread, Except.bind_ok_iff.mpr ⟨(), checkTargets_ok_iff.mpr hcheck, rfl⟩⟩

theorem decode_consecutive (h : decode bytes = .ok instrs) : Consecutive 0 instrs :=
  (Read.instructions_spells (decode_ok_iff.mp h).2.1).consecutive.1

theorem decode_lt (h : decode bytes = .ok instrs) (hi : i ∈ instrs) : i.pc < bytes.length := by
  have hlt := ((Read.instructions_spells (decode_ok_iff.mp h).2.1).consecutive.2 i hi).1
  omega

theorem decode_fits (h : decode bytes = .ok instrs) (hi : i ∈ instrs) : TableFits i.op :=
  ((Read.instructions_spells (decode_ok_iff.mp h).2.1).consecutive.2 i hi).2.1

/-- Decoding accepts the bodies that are instructions one after another, with branches to their
starts only. There is one such reading of a body, and it is the result. -/
theorem decode_exactly (bytes : List UInt8) :
    (∀ es, (∃ instrs, decode bytes = .ok instrs ∧ instrs.map entry = es) ↔ WellFormed bytes es) ∧
    (∀ es es', Spells bytes.length 0 bytes es → Spells bytes.length 0 bytes es' → es = es') ∧
    (∀ fuel, bytes.length ≤ fuel → Read.instructions bytes.length fuel 0 bytes =
      Read.instructions bytes.length bytes.length 0 bytes) ∧
    ∀ instrs, Read.instructions bytes.length bytes.length 0 bytes = .ok instrs →
      Consecutive 0 instrs ∧ ∀ i ∈ instrs, i.pc < bytes.length ∧
        ∀ t ∈ i.op.targets, t < bytes.length := by
  have hle := Nat.le_refl bytes.length
  refine ⟨fun es => ⟨?_, fun h => ?_⟩, fun es es' h h' => ?_, fun fuel hfuel => ?_,
    fun instrs h => ?_⟩
  · rintro ⟨instrs, h, rfl⟩
    obtain ⟨hne, hread, htargets⟩ := decode_ok_iff.mp h
    exact wellFormed_map_entry_iff.mpr ⟨hne, Read.instructions_spells hread, htargets⟩
  · obtain ⟨instrs, hread, rfl⟩ := h.2.1.read hle hle
    obtain ⟨hne, -, htargets⟩ := wellFormed_map_entry_iff.mp h
    exact ⟨instrs, decode_ok_iff.mpr ⟨hne, hread, htargets⟩, rfl⟩
  · obtain ⟨instrs, hread, rfl⟩ := h.read hle hle
    obtain ⟨instrs', hread', rfl⟩ := h'.read hle hle
    rw [hread, Except.ok.injEq] at hread'
    rw [hread']
  · exact Read.instructions_fuel hfuel hle
  · obtain ⟨hcons, hall⟩ := (Read.instructions_spells h).consecutive
    refine ⟨hcons, fun i hi => ⟨?_, (hall i hi).2.2⟩⟩
    have hlt := (hall i hi).1
    omega

end Bytecode

end ManagedCore
