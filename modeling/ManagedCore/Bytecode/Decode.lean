import ManagedCore.Bytecode.Operation
import ManagedCore.Text.Quoted

/-!
# Decoding

A method body is a sequence of instructions without gaps. `decode` reads it from the front to the
end, then checks that every branch leads to the start of one of the instructions read. Any fault
rejects the whole body.
-/

namespace ManagedCore

inductive DecodeError where
  | invalidOpcode (byte : UInt8) (pc : Nat)
  | truncated (pc : Nat)
  | badWide (byte : UInt8) (pc : Nat)
  | badTarget (pc : Nat) (target : Int)
  | badOperand (pc : Nat)
  | empty
deriving DecidableEq, Repr

def DecodeError.message : DecodeError → String
  | invalidOpcode byte pc => s!"invalid opcode byte {Text.hexByte byte} at offset {pc}"
  | truncated pc => s!"truncated operands for instruction at offset {pc}"
  | badWide byte pc => s!"opcode {Text.hexByte byte} at offset {pc} has no wide form"
  | badTarget pc target => s!"branch at offset {pc} targets invalid offset {target}"
  | badOperand pc => s!"invalid operand for instruction at offset {pc}"
  | empty => "empty method body"

namespace Bytecode

/-- How the bytes after an opcode are read, and the operation they give. -/
inductive Form where
  | plain (op : Operation)
  | byte (make : UInt8 → Operation)
  | short (make : UInt16 → Operation)
  | increment
  | branch (make : Nat → Operation)
  | farBranch (make : Nat → Operation)
  | table
  | lookup
  | interface
  | multi
  | wide

/-- Local accesses: the byte form of these is also what a wide instruction extends. -/
def localAccess? : Opcode → Option (Nat → Operation)
  | .iload => some (.load .i32)
  | .lload => some (.load .i64)
  | .fload => some (.load .f32)
  | .dload => some (.load .f64)
  | .aload => some (.load .ref)
  | .istore => some (.store .i32)
  | .lstore => some (.store .i64)
  | .fstore => some (.store .f32)
  | .dstore => some (.store .f64)
  | .astore => some (.store .ref)
  | .ret => some .ret
  | _ => none

def form : Opcode → Form
  | .nop => .plain .nop
  | .aconstNull => .plain .constNull
  | .iconstM1 => .plain (.constInt 0)
  | .iconst0 => .plain (.constInt 1)
  | .iconst1 => .plain (.constInt 2)
  | .iconst2 => .plain (.constInt 3)
  | .iconst3 => .plain (.constInt 4)
  | .iconst4 => .plain (.constInt 5)
  | .iconst5 => .plain (.constInt 6)
  | .lconst0 => .plain (.constLong false)
  | .lconst1 => .plain (.constLong true)
  | .fconst0 => .plain (.constFloat 0)
  | .fconst1 => .plain (.constFloat 1)
  | .fconst2 => .plain (.constFloat 2)
  | .dconst0 => .plain (.constDouble false)
  | .dconst1 => .plain (.constDouble true)
  | .bipush => .byte fun b => .pushByte b.toInt8.toInt32
  | .sipush => .short fun w => .pushShort w.toInt16.toInt32
  | .ldc => .byte fun b => .loadConst .short b.toNat
  | .ldcW => .short fun w => .loadConst .long w.toNat
  | .ldc2W => .short fun w => .loadConst .wide w.toNat
  | .iload => .byte fun b => .load .i32 b.toNat
  | .lload => .byte fun b => .load .i64 b.toNat
  | .fload => .byte fun b => .load .f32 b.toNat
  | .dload => .byte fun b => .load .f64 b.toNat
  | .aload => .byte fun b => .load .ref b.toNat
  | .iload0 => .plain (.load .i32 0)
  | .iload1 => .plain (.load .i32 1)
  | .iload2 => .plain (.load .i32 2)
  | .iload3 => .plain (.load .i32 3)
  | .lload0 => .plain (.load .i64 0)
  | .lload1 => .plain (.load .i64 1)
  | .lload2 => .plain (.load .i64 2)
  | .lload3 => .plain (.load .i64 3)
  | .fload0 => .plain (.load .f32 0)
  | .fload1 => .plain (.load .f32 1)
  | .fload2 => .plain (.load .f32 2)
  | .fload3 => .plain (.load .f32 3)
  | .dload0 => .plain (.load .f64 0)
  | .dload1 => .plain (.load .f64 1)
  | .dload2 => .plain (.load .f64 2)
  | .dload3 => .plain (.load .f64 3)
  | .aload0 => .plain (.load .ref 0)
  | .aload1 => .plain (.load .ref 1)
  | .aload2 => .plain (.load .ref 2)
  | .aload3 => .plain (.load .ref 3)
  | .iaload => .plain (.arrayLoad .int)
  | .laload => .plain (.arrayLoad .long)
  | .faload => .plain (.arrayLoad .float)
  | .daload => .plain (.arrayLoad .double)
  | .aaload => .plain (.arrayLoad .ref)
  | .baload => .plain (.arrayLoad .byte)
  | .caload => .plain (.arrayLoad .char)
  | .saload => .plain (.arrayLoad .short)
  | .istore => .byte fun b => .store .i32 b.toNat
  | .lstore => .byte fun b => .store .i64 b.toNat
  | .fstore => .byte fun b => .store .f32 b.toNat
  | .dstore => .byte fun b => .store .f64 b.toNat
  | .astore => .byte fun b => .store .ref b.toNat
  | .istore0 => .plain (.store .i32 0)
  | .istore1 => .plain (.store .i32 1)
  | .istore2 => .plain (.store .i32 2)
  | .istore3 => .plain (.store .i32 3)
  | .lstore0 => .plain (.store .i64 0)
  | .lstore1 => .plain (.store .i64 1)
  | .lstore2 => .plain (.store .i64 2)
  | .lstore3 => .plain (.store .i64 3)
  | .fstore0 => .plain (.store .f32 0)
  | .fstore1 => .plain (.store .f32 1)
  | .fstore2 => .plain (.store .f32 2)
  | .fstore3 => .plain (.store .f32 3)
  | .dstore0 => .plain (.store .f64 0)
  | .dstore1 => .plain (.store .f64 1)
  | .dstore2 => .plain (.store .f64 2)
  | .dstore3 => .plain (.store .f64 3)
  | .astore0 => .plain (.store .ref 0)
  | .astore1 => .plain (.store .ref 1)
  | .astore2 => .plain (.store .ref 2)
  | .astore3 => .plain (.store .ref 3)
  | .iastore => .plain (.arrayStore .int)
  | .lastore => .plain (.arrayStore .long)
  | .fastore => .plain (.arrayStore .float)
  | .dastore => .plain (.arrayStore .double)
  | .aastore => .plain (.arrayStore .ref)
  | .bastore => .plain (.arrayStore .byte)
  | .castore => .plain (.arrayStore .char)
  | .sastore => .plain (.arrayStore .short)
  | .pop => .plain (.stack .pop)
  | .pop2 => .plain (.stack .pop2)
  | .dup => .plain (.stack .dup)
  | .dupX1 => .plain (.stack .dupX1)
  | .dupX2 => .plain (.stack .dupX2)
  | .dup2 => .plain (.stack .dup2)
  | .dup2X1 => .plain (.stack .dup2X1)
  | .dup2X2 => .plain (.stack .dup2X2)
  | .swap => .plain (.stack .swap)
  | .iadd => .plain (.arith .add .int)
  | .ladd => .plain (.arith .add .long)
  | .fadd => .plain (.arith .add .float)
  | .dadd => .plain (.arith .add .double)
  | .isub => .plain (.arith .sub .int)
  | .lsub => .plain (.arith .sub .long)
  | .fsub => .plain (.arith .sub .float)
  | .dsub => .plain (.arith .sub .double)
  | .imul => .plain (.arith .mul .int)
  | .lmul => .plain (.arith .mul .long)
  | .fmul => .plain (.arith .mul .float)
  | .dmul => .plain (.arith .mul .double)
  | .idiv => .plain (.arith .div .int)
  | .ldiv => .plain (.arith .div .long)
  | .fdiv => .plain (.arith .div .float)
  | .ddiv => .plain (.arith .div .double)
  | .irem => .plain (.arith .rem .int)
  | .lrem => .plain (.arith .rem .long)
  | .frem => .plain (.arith .rem .float)
  | .drem => .plain (.arith .rem .double)
  | .ineg => .plain (.neg .int)
  | .lneg => .plain (.neg .long)
  | .fneg => .plain (.neg .float)
  | .dneg => .plain (.neg .double)
  | .ishl => .plain (.bits .shl false)
  | .lshl => .plain (.bits .shl true)
  | .ishr => .plain (.bits .shr false)
  | .lshr => .plain (.bits .shr true)
  | .iushr => .plain (.bits .ushr false)
  | .lushr => .plain (.bits .ushr true)
  | .iand => .plain (.bits .and false)
  | .land => .plain (.bits .and true)
  | .ior => .plain (.bits .or false)
  | .lor => .plain (.bits .or true)
  | .ixor => .plain (.bits .xor false)
  | .lxor => .plain (.bits .xor true)
  | .iinc => .increment
  | .i2l => .plain (.convert .i2l)
  | .i2f => .plain (.convert .i2f)
  | .i2d => .plain (.convert .i2d)
  | .l2i => .plain (.convert .l2i)
  | .l2f => .plain (.convert .l2f)
  | .l2d => .plain (.convert .l2d)
  | .f2i => .plain (.convert .f2i)
  | .f2l => .plain (.convert .f2l)
  | .f2d => .plain (.convert .f2d)
  | .d2i => .plain (.convert .d2i)
  | .d2l => .plain (.convert .d2l)
  | .d2f => .plain (.convert .d2f)
  | .i2b => .plain (.narrow .byte)
  | .i2c => .plain (.narrow .char)
  | .i2s => .plain (.narrow .short)
  | .lcmp => .plain (.compare .long)
  | .fcmpl => .plain (.compare (.float false))
  | .fcmpg => .plain (.compare (.float true))
  | .dcmpl => .plain (.compare (.double false))
  | .dcmpg => .plain (.compare (.double true))
  | .ifeq => .branch (.ifZero .eq)
  | .ifne => .branch (.ifZero .ne)
  | .iflt => .branch (.ifZero .lt)
  | .ifge => .branch (.ifZero .ge)
  | .ifgt => .branch (.ifZero .gt)
  | .ifle => .branch (.ifZero .le)
  | .ifIcmpeq => .branch (.ifInt .eq)
  | .ifIcmpne => .branch (.ifInt .ne)
  | .ifIcmplt => .branch (.ifInt .lt)
  | .ifIcmpge => .branch (.ifInt .ge)
  | .ifIcmpgt => .branch (.ifInt .gt)
  | .ifIcmple => .branch (.ifInt .le)
  | .ifAcmpeq => .branch (.ifRef true)
  | .ifAcmpne => .branch (.ifRef false)
  | .goto => .branch .goto
  | .jsr => .branch .jsr
  | .ret => .byte fun b => .ret b.toNat
  | .tableswitch => .table
  | .lookupswitch => .lookup
  | .ireturn => .plain (.result (some .i32))
  | .lreturn => .plain (.result (some .i64))
  | .freturn => .plain (.result (some .f32))
  | .dreturn => .plain (.result (some .f64))
  | .areturn => .plain (.result (some .ref))
  | .vreturn => .plain (.result none)
  | .getstatic => .short fun w => .getStatic w.toNat
  | .putstatic => .short fun w => .putStatic w.toNat
  | .getfield => .short fun w => .getField w.toNat
  | .putfield => .short fun w => .putField w.toNat
  | .invokevirtual => .short fun w => .invokeVirtual w.toNat
  | .invokespecial => .short fun w => .invokeSpecial w.toNat
  | .invokestatic => .short fun w => .invokeStatic w.toNat
  | .invokeinterface => .interface
  | .new => .short fun w => .new w.toNat
  | .newarray => .byte fun b => .newArray b.toNat
  | .anewarray => .short fun w => .newRefArray w.toNat
  | .arraylength => .plain .arrayLength
  | .athrow => .plain .throw
  | .checkcast => .short fun w => .checkCast w.toNat
  | .instanceof => .short fun w => .instanceOf w.toNat
  | .monitorenter => .plain .monitorEnter
  | .monitorexit => .plain .monitorExit
  | .wide => .wide
  | .multianewarray => .multi
  | .ifnull => .branch (.ifNull true)
  | .ifnonnull => .branch (.ifNull false)
  | .gotoW => .farBranch .goto
  | .jsrW => .farBranch .jsr

/-- Instruction being read: its offset and the length of the whole body. -/
structure Cursor where
  pc : Nat
  size : Nat

abbrev Read := StateT (List UInt8) (Except DecodeError)

def word (hi lo : UInt8) : UInt16 := hi.toUInt16 <<< 8 ||| lo.toUInt16

def longWord (a b c d : UInt8) : UInt32 :=
  a.toUInt32 <<< 24 ||| b.toUInt32 <<< 16 ||| c.toUInt32 <<< 8 ||| d.toUInt32

namespace Read

def u8 (c : Cursor) : Read UInt8
  | b :: rest => .ok (b, rest)
  | [] => .error (.truncated c.pc)

def u16 (c : Cursor) : Read UInt16
  | hi :: lo :: rest => .ok (word hi lo, rest)
  | _ => .error (.truncated c.pc)

def i32 (c : Cursor) : Read Int32
  | w :: x :: y :: z :: rest => .ok ((longWord w x y z).toInt32, rest)
  | _ => .error (.truncated c.pc)

def skip (c : Cursor) : Nat → Read Unit
  | 0 => pure ()
  | n + 1 => do
    let _ ← u8 c
    skip c n

/-- Absolute target of a branch by `offset`, which has to stay inside the body. -/
def target (c : Cursor) (offset : Int) : Except DecodeError Nat :=
  let t := (c.pc : Int) + offset
  if t < 0 ∨ (c.size : Int) ≤ t then .error (.badTarget c.pc t) else .ok t.toNat

def nearTarget (c : Cursor) : Read Nat := do
  let w ← u16 c
  target c w.toInt16.toInt

def farTarget (c : Cursor) : Read Nat := do
  let w ← i32 c
  target c w.toInt

def targets (c : Cursor) : Nat → Read (List Nat)
  | 0 => pure []
  | n + 1 => do
    let t ← farTarget c
    let ts ← targets c n
    return t :: ts

def pairs (c : Cursor) : Nat → Read (List (Int32 × Nat))
  | 0 => pure []
  | n + 1 => do
    let key ← i32 c
    let t ← farTarget c
    let ps ← pairs c n
    return (key, t) :: ps

/-- Switch operands start at the next multiple of four from the start of the body. -/
def padding (c : Cursor) : Nat := 3 - c.pc % 4

def table (c : Cursor) : Read Operation := do
  skip c (padding c)
  let default ← farTarget c
  let low ← i32 c
  let high ← i32 c
  if high < low then
    throw (.badOperand c.pc)
  let count := (high.toInt - low.toInt + 1).toNat
  if c.size < count then
    throw (.truncated c.pc)
  let ts ← targets c count
  return .tableSwitch default low ts

def lookup (c : Cursor) : Read Operation := do
  skip c (padding c)
  let default ← farTarget c
  let count ← i32 c
  if count < 0 then
    throw (.badOperand c.pc)
  if c.size < count.toInt.toNat then
    throw (.truncated c.pc)
  let ps ← pairs c count.toInt.toNat
  return .lookupSwitch default ps

def wide (c : Cursor) : Read Operation := do
  let b ← u8 c
  match Opcode.ofByte? b with
  | none => throw (.invalidOpcode b (c.pc + 1))
  | some .iinc => do
    let slot ← u16 c
    let delta ← u16 c
    return .increment slot.toNat delta.toInt16.toInt32
  | some o =>
    match localAccess? o with
    | some make => do
      let slot ← u16 c
      return make slot.toNat
    | none => throw (.badWide b c.pc)

def operation (c : Cursor) : Read Operation := do
  let b ← u8 c
  match Opcode.ofByte? b with
  | none => throw (.invalidOpcode b c.pc)
  | some o =>
    match form o with
    | .plain op => return op
    | .byte make => return make (← u8 c)
    | .short make => return make (← u16 c)
    | .increment => do
      let slot ← u8 c
      let delta ← u8 c
      return .increment slot.toNat delta.toInt8.toInt32
    | .branch make => return make (← nearTarget c)
    | .farBranch make => return make (← farTarget c)
    | .table => table c
    | .lookup => lookup c
    | .interface => do
      let index ← u16 c
      let count ← u8 c
      let _ ← u8 c
      return .invokeInterface index.toNat count.toNat
    | .multi => do
      let index ← u16 c
      let dims ← u8 c
      if dims = 0 then
        throw (.badOperand c.pc)
      return .newMultiArray index.toNat dims.toNat
    | .wide => wide c

/-- Reads instructions up to the end. Each takes a byte at least, so the length of the body is fuel
enough. -/
def instructions (size : Nat) : Nat → Nat → List UInt8 → Except DecodeError (List Instruction)
  | _, _, [] => .ok []
  | 0, pc, _ :: _ => .error (.truncated pc)
  | fuel + 1, pc, bytes => do
    let (op, rest) ← operation { pc, size } bytes
    let len := bytes.length - rest.length
    let tail ← instructions size fuel (pc + len) rest
    return { pc, op, len } :: tail

end Read

/-- First target, in order, that is not the start of an instruction. -/
def checkTargets (instrs : List Instruction) : Except DecodeError Unit :=
  instrs.forM fun i => i.op.targets.forM fun t =>
    if instrs.any (·.pc == t) then .ok () else .error (.badTarget i.pc t)

def decode (bytes : List UInt8) : Except DecodeError (List Instruction) := do
  if bytes.isEmpty then
    throw .empty
  let instrs ← Read.instructions bytes.length bytes.length 0 bytes
  checkTargets instrs
  return instrs

end Bytecode

end ManagedCore
