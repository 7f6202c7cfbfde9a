import ManagedCore.Bytecode.Assembler
import ManagedCore.Proofs.Compile.Operands
import Mathlib.Data.List.Basic

/-!
# Constants

The bytes that an assembler writes to push a number are read, wherever they stand, as instructions
that push it and leave all else as it is. A number of more than 16 bits is put together from its
halves: the upper one is shifted up, and the lower one, which is read with its sign, is masked.
-/

namespace ManagedCore

open Direct

/-- Goes on with an instruction, unless the run has come to an end. -/
def Direct.Step.through (code : List Instruction) (st : Step) (i : Instruction) : Step :=
  match st with
  | .next s => execute code i s
  | st => st

namespace Bytecode

variable {bytes bytes' : List UInt8} {f g : List Value → Option (List Value)} {v : Int32}

/-- Wherever the bytes stand, they are instructions that make of a stack what a function does. -/
def Does (bytes : List UInt8) (f : List Value → Option (List Value)) : Prop :=
  ∀ pc, ∃ instrs : List Instruction,
    (∀ size fuel rest, Read.instructions size (fuel + instrs.length) pc (bytes ++ rest) =
      (instrs ++ ·) <$> Read.instructions size fuel (pc + bytes.length) rest) ∧
    ∀ code st st' locals, f st = some st' →
      instrs.foldl (Step.through code) (.next ⟨pc, st, locals⟩) =
        .next ⟨pc + bytes.length, st', locals⟩

theorem Does.append (h : Does bytes f) (h' : Does bytes' g) :
    Does (bytes ++ bytes') fun st => (f st).bind g := by
  intro pc
  obtain ⟨is, hread, hrun⟩ := h pc
  obtain ⟨js, hread', hrun'⟩ := h' (pc + bytes.length)
  rw [Nat.add_assoc, ← List.length_append] at hread' hrun'
  refine ⟨is ++ js, fun size fuel rest => ?_, fun code st st' locals hst => ?_⟩
  · rw [List.append_assoc, List.length_append, Nat.add_comm is.length, ← Nat.add_assoc, hread,
      hread', Functor.map_map]
    simp only [List.append_assoc]
  · obtain ⟨mid, hmid, hst'⟩ := Option.bind_eq_some_iff.mp hst
    rw [List.foldl_append, hrun code st mid locals hmid, hrun' code mid st' locals hst']

theorem Does.one {op : Operation} {b : UInt8}
    (hread : ∀ c rest, Read.operation c (b :: bytes ++ rest) = .ok (op, rest))
    (hexec : ∀ code pc len locals st st', f st = some st' →
      execute code ⟨pc, op, len⟩ ⟨pc, st, locals⟩ = .next ⟨pc + len, st', locals⟩) :
    Does (b :: bytes) f := by
  intro pc
  refine ⟨[⟨pc, op, bytes.length + 1⟩], fun size fuel rest => ?_, fun code st st' locals hst => ?_⟩
  · have hlen : (b :: bytes ++ rest).length - rest.length = bytes.length + 1 := by simp; omega
    rw [List.length_singleton, List.cons_append, Read.instructions, ← List.cons_append, hread]
    · simp only [bind, Except.bind, hlen]
      rfl
    · simp
  · exact hexec code pc _ locals st st' hst

theorem Does.push {op : Operation} {b : UInt8}
    (hread : ∀ c rest, Read.operation c (b :: bytes ++ rest) = .ok (op, rest))
    (hop : ∀ code i s, i.op = op → execute code i s = s.push i (.int v) s.stack) :
    Does (b :: bytes) fun st => some (.int v :: st) :=
  .one hread fun _ _ _ _ _ _ hst => by
    cases hst
    exact hop _ _ _ rfl

theorem Does.bits {op : BitOp} {b : UInt8}
    (hread : ∀ c rest, Read.operation c (b :: rest) = .ok (.bits op false, rest)) :
    Does [b] fun
      | .int b :: .int a :: st => some (.int (intBits op a b) :: st)
      | _ => none := by
  refine .one hread fun code pc len locals st st' hst => ?_
  split at hst <;> cases hst
  rfl

/-! ## Numbers in 8, 16 and 32 bits -/

theorem word_bytes (w : UInt16) : word (w >>> 8).toUInt8 w.toUInt8 = w := by
  apply UInt16.toBitVec_inj.mp
  simp [word, -UInt16.toUInt16_toUInt8]
  grind

theorem low_byte (v : Int32) : v.toUInt32.toUInt8.toInt8 = v.toInt8 := by
  apply Int8.toBitVec_inj.mp
  simp [BitVec.signExtend_eq_setWidth_of_le]

theorem low_short (v : Int32) : v.toUInt32.toUInt16.toInt16 = v.toInt16 := by
  apply Int16.toBitVec_inj.mp
  simp [BitVec.signExtend_eq_setWidth_of_le]

theorem extend_byte (h : -128 ≤ v ∧ v ≤ 127) : v.toInt8.toInt32 = v := by
  rw [← Int8.ofInt_int32ToInt, Int8.toInt32_ofInt (Int32.le_iff_toInt_le.mp h.1)
    (Int32.le_iff_toInt_le.mp h.2), Int32.ofInt_toInt]

theorem extend_short (h : -32768 ≤ v ∧ v ≤ 32767) : v.toInt16.toInt32 = v := by
  rw [← Int16.ofInt_int32ToInt, Int16.toInt32_ofInt (Int32.le_iff_toInt_le.mp h.1)
    (Int32.le_iff_toInt_le.mp h.2), Int32.ofInt_toInt]

theorem extend_high (v : Int32) : (v >>> 16).toInt16.toInt32 = v >>> 16 := by
  apply Int32.toBitVec_inj.mp
  simp
  grind

theorem join_halves (v : Int32) : (v >>> 16) <<< 16 ||| v.toInt16.toInt32 &&&
    ((-1 : Int32).toUInt32 >>> (16 : Int32).toUInt32).toInt32 = v := by
  apply Int32.toBitVec_inj.mp
  apply BitVec.eq_of_getLsbD_eq
  intro i hi
  have hmask : (65535#32).getLsbD i = decide (i < 16) := by decide +revert
  simp
  grind

/-! ## Constants -/

theorem does_pushSmall (h : v.toInt16.toInt32 = v) :
    Does (pushSmall v) fun st => some (.int v :: st) := by
  unfold pushSmall
  split
  · rename_i hconst
    have hcases : v = -1 ∨ v = 0 ∨ v = 1 ∨ v = 2 ∨ v = 3 ∨ v = 4 ∨ v = 5 := by
      simp only [Int32.le_iff_toInt_le, ← Int32.toInt_inj, Int32.reduceToInt] at hconst ⊢
      omega
    rcases hcases with rfl | rfl | rfl | rfl | rfl | rfl | rfl <;>
      exact .push (fun _ _ => rfl) fun _ _ _ hi => by simp only [execute, hi]; rfl
  · split
    · rename_i hbyte
      refine .push (fun c rest => rfl) fun code i s hi => ?_
      simp only [execute, hi, low_byte, extend_byte hbyte]
    · refine .push (fun c rest => rfl) fun code i s hi => ?_
      simp only [execute, hi, word_bytes, low_short, h]

theorem does_pushInt (v : Int32) : Does (pushInt v) fun st => some (.int v :: st) := by
  unfold pushInt
  split
  · exact does_pushSmall (extend_short ‹_›)
  · have h16 := does_pushSmall (v := 16) (by decide)
    have hmask : Does [Opcode.iconstM1.toByte] fun st => some (.int (-1) :: st) :=
      does_pushSmall (v := -1) (by decide)
    have hshl : Does [Opcode.ishl.toByte] _ := .bits fun _ _ => rfl
    have hushr : Does [Opcode.iushr.toByte] _ := .bits fun _ _ => rfl
    have hand : Does [Opcode.iand.toByte] _ := .bits fun _ _ => rfl
    have hor : Does [Opcode.ior.toByte] _ := .bits fun _ _ => rfl
    have hall := ((((((does_pushSmall (extend_high v)).append h16).append hshl).append
      (does_pushSmall (v := v.toInt16.toInt32) (by simp))).append hmask).append h16).append
      (hushr.append (hand.append hor))
    simp only [Option.bind_some, intBits, join_halves] at hall
    exact hall

/-- The bytes are read behind those that stand there already, whatever follows, and run on any
stack; the operators are those of compiled code. -/
theorem pushInt_pushes (a : Assembler) (v : Int32) : (∃ bytes instrs, a.pushInt v = a.emit bytes ∧
      (∀ size fuel rest, Read.instructions size (fuel + instrs.length) a.pc (bytes ++ rest) =
        (instrs ++ ·) <$> Read.instructions size fuel (a.pushInt v).pc rest) ∧
      ∀ code stack locals, instrs.foldl (Direct.Step.through code) (.next ⟨a.pc, stack, locals⟩) =
        .next ⟨(a.pushInt v).pc, .int v :: stack, locals⟩) ∧
    ∀ op x y, (Value.int x).binary (Emit.ofBits op) (.int y) =
      .ok (.int (Direct.intBits op x y)) := by
  obtain ⟨instrs, hread, hrun⟩ := does_pushInt v a.pc
  exact ⟨⟨pushInt v, instrs, rfl, hread, fun code st locals => hrun code st _ locals rfl⟩,
    binary_intBits⟩

end Bytecode

end ManagedCore
