import ManagedCore.Bytecode.Opcode
import ManagedCore.ElementKind

/-!
# Operations

What a decoded instruction does. Short and wide encodings of one instruction are the same
operation: a local access carries its slot, and a branch its absolute target.
-/

namespace ManagedCore

inductive NumType where
  | int | long | float | double
deriving DecidableEq, Repr

def NumType.valueType : NumType → ValueType
  | int => .i32
  | long => .i64
  | float => .f32
  | double => .f64

inductive ArithOp where
  | add | sub | mul | div | rem
deriving DecidableEq, Repr

inductive BitOp where
  | shl | shr | ushr | and | or | xor
deriving DecidableEq, Repr

inductive Condition where
  | eq | ne | lt | ge | gt | le
deriving DecidableEq, Repr

inductive Conversion where
  | i2l | i2f | i2d | l2i | l2f | l2d | f2i | f2l | f2d | d2i | d2l | d2f
deriving DecidableEq, Repr

namespace Conversion

def source : Conversion → NumType
  | i2l | i2f | i2d => .int
  | l2i | l2f | l2d => .long
  | f2i | f2l | f2d => .float
  | d2i | d2l | d2f => .double

def target : Conversion → NumType
  | l2i | f2i | d2i => .int
  | i2l | f2l | d2l => .long
  | i2f | l2f | d2f => .float
  | i2d | l2d | f2d => .double

end Conversion

inductive Narrowing where
  | byte | char | short
deriving DecidableEq, Repr

def Narrowing.elementKind : Narrowing → ElementKind
  | byte => .byte
  | char => .char
  | short => .short

/-- Three-way comparisons; `nanHigh` says that an unordered pair gives one instead of minus one. -/
inductive Comparison where
  | long
  | float (nanHigh : Bool)
  | double (nanHigh : Bool)
deriving DecidableEq, Repr

/-- Array access instructions; bytes and booleans share one. -/
inductive ArrayForm where
  | int | long | float | double | ref | byte | char | short
deriving DecidableEq, Repr

inductive StackOp where
  | pop | pop2 | dup | dupX1 | dupX2 | dup2 | dup2X1 | dup2X2 | swap
deriving DecidableEq, Repr

/-- Encodings of a constant load: one-byte index, two-byte index, and the one for wide values. -/
inductive ConstForm where
  | short | long | wide
deriving DecidableEq, Repr

/-- A small integer constant by its distance from minus one. -/
abbrev SmallInt := Fin 7

inductive Operation where
  | nop
  | constNull
  | constInt (v : SmallInt)
  | constLong (one : Bool)
  | constFloat (v : Fin 3)
  | constDouble (one : Bool)
  | pushByte (v : Int32)
  | pushShort (v : Int32)
  | loadConst (form : ConstForm) (index : Nat)
  | load (type : ValueType) (slot : Nat)
  | store (type : ValueType) (slot : Nat)
  | arrayLoad (form : ArrayForm)
  | arrayStore (form : ArrayForm)
  | stack (op : StackOp)
  | arith (op : ArithOp) (type : NumType)
  | neg (type : NumType)
  | bits (op : BitOp) (long : Bool)
  | increment (slot : Nat) (delta : Int32)
  | convert (c : Conversion)
  | narrow (n : Narrowing)
  | compare (c : Comparison)
  | ifZero (c : Condition) (target : Nat)
  | ifInt (c : Condition) (target : Nat)
  | ifRef (equal : Bool) (target : Nat)
  | ifNull (null : Bool) (target : Nat)
  | goto (target : Nat)
  | jsr (target : Nat)
  | ret (slot : Nat)
  | tableSwitch (default : Nat) (low : Int32) (targets : List Nat)
  | lookupSwitch (default : Nat) (pairs : List (Int32 × Nat))
  | result (type : Option ValueType)
  | getStatic (index : Nat)
  | putStatic (index : Nat)
  | getField (index : Nat)
  | putField (index : Nat)
  | invokeVirtual (index : Nat)
  | invokeSpecial (index : Nat)
  | invokeStatic (index : Nat)
  | invokeInterface (index : Nat) (count : Nat)
  | new (index : Nat)
  | newArray (typeCode : Nat)
  | newRefArray (index : Nat)
  | newMultiArray (index : Nat) (dims : Nat)
  | arrayLength
  | throw
  | checkCast (index : Nat)
  | instanceOf (index : Nat)
  | monitorEnter
  | monitorExit
deriving DecidableEq, Repr

namespace Operation

def conditionalOpcode : Condition → Opcode
  | .eq => .ifeq
  | .ne => .ifne
  | .lt => .iflt
  | .ge => .ifge
  | .gt => .ifgt
  | .le => .ifle

def comparingOpcode : Condition → Opcode
  | .eq => .ifIcmpeq
  | .ne => .ifIcmpne
  | .lt => .ifIcmplt
  | .ge => .ifIcmpge
  | .gt => .ifIcmpgt
  | .le => .ifIcmple

def arithOpcode : ArithOp → NumType → Opcode
  | .add, .int => .iadd | .add, .long => .ladd | .add, .float => .fadd | .add, .double => .dadd
  | .sub, .int => .isub | .sub, .long => .lsub | .sub, .float => .fsub | .sub, .double => .dsub
  | .mul, .int => .imul | .mul, .long => .lmul | .mul, .float => .fmul | .mul, .double => .dmul
  | .div, .int => .idiv | .div, .long => .ldiv | .div, .float => .fdiv | .div, .double => .ddiv
  | .rem, .int => .irem | .rem, .long => .lrem | .rem, .float => .frem | .rem, .double => .drem

def bitsOpcode : BitOp → Bool → Opcode
  | .shl, false => .ishl | .shl, true => .lshl
  | .shr, false => .ishr | .shr, true => .lshr
  | .ushr, false => .iushr | .ushr, true => .lushr
  | .and, false => .iand | .and, true => .land
  | .or, false => .ior | .or, true => .lor
  | .xor, false => .ixor | .xor, true => .lxor

def negOpcode : NumType → Opcode
  | .int => .ineg
  | .long => .lneg
  | .float => .fneg
  | .double => .dneg

def loadOpcode : ValueType → Opcode
  | .i32 => .iload
  | .i64 => .lload
  | .f32 => .fload
  | .f64 => .dload
  | .ref => .aload

def storeOpcode : ValueType → Opcode
  | .i32 => .istore
  | .i64 => .lstore
  | .f32 => .fstore
  | .f64 => .dstore
  | .ref => .astore

def arrayLoadOpcode : ArrayForm → Opcode
  | .int => .iaload
  | .long => .laload
  | .float => .faload
  | .double => .daload
  | .ref => .aaload
  | .byte => .baload
  | .char => .caload
  | .short => .saload

def arrayStoreOpcode : ArrayForm → Opcode
  | .int => .iastore
  | .long => .lastore
  | .float => .fastore
  | .double => .dastore
  | .ref => .aastore
  | .byte => .bastore
  | .char => .castore
  | .short => .sastore

def stackOpcode : StackOp → Opcode
  | .pop => .pop
  | .pop2 => .pop2
  | .dup => .dup
  | .dupX1 => .dupX1
  | .dupX2 => .dupX2
  | .dup2 => .dup2
  | .dup2X1 => .dup2X1
  | .dup2X2 => .dup2X2
  | .swap => .swap

def convertOpcode : Conversion → Opcode
  | .i2l => .i2l | .i2f => .i2f | .i2d => .i2d
  | .l2i => .l2i | .l2f => .l2f | .l2d => .l2d
  | .f2i => .f2i | .f2l => .f2l | .f2d => .f2d
  | .d2i => .d2i | .d2l => .d2l | .d2f => .d2f

def constIntOpcode : SmallInt → Opcode
  | 0 => .iconstM1
  | 1 => .iconst0
  | 2 => .iconst1
  | 3 => .iconst2
  | 4 => .iconst3
  | 5 => .iconst4
  | 6 => .iconst5

/-- The generic opcode of an operation: never a short, wide or prefixed form. -/
def opcode : Operation → Opcode
  | nop => .nop
  | constNull => .aconstNull
  | constInt v => constIntOpcode v
  | constLong false => .lconst0
  | constLong true => .lconst1
  | constFloat 0 => .fconst0
  | constFloat 1 => .fconst1
  | constFloat 2 => .fconst2
  | constDouble false => .dconst0
  | constDouble true => .dconst1
  | pushByte _ => .bipush
  | pushShort _ => .sipush
  | loadConst .short _ => .ldc
  | loadConst .long _ => .ldcW
  | loadConst .wide _ => .ldc2W
  | load t _ => loadOpcode t
  | store t _ => storeOpcode t
  | arrayLoad f => arrayLoadOpcode f
  | arrayStore f => arrayStoreOpcode f
  | stack op => stackOpcode op
  | arith op t => arithOpcode op t
  | neg t => negOpcode t
  | bits op l => bitsOpcode op l
  | increment _ _ => .iinc
  | convert c => convertOpcode c
  | narrow .byte => .i2b
  | narrow .char => .i2c
  | narrow .short => .i2s
  | compare .long => .lcmp
  | compare (.float false) => .fcmpl
  | compare (.float true) => .fcmpg
  | compare (.double false) => .dcmpl
  | compare (.double true) => .dcmpg
  | ifZero c _ => conditionalOpcode c
  | ifInt c _ => comparingOpcode c
  | ifRef true _ => .ifAcmpeq
  | ifRef false _ => .ifAcmpne
  | ifNull true _ => .ifnull
  | ifNull false _ => .ifnonnull
  | goto _ => .goto
  | jsr _ => .jsr
  | ret _ => .ret
  | tableSwitch _ _ _ => .tableswitch
  | lookupSwitch _ _ => .lookupswitch
  | result (some .i32) => .ireturn
  | result (some .i64) => .lreturn
  | result (some .f32) => .freturn
  | result (some .f64) => .dreturn
  | result (some .ref) => .areturn
  | result none => .vreturn
  | getStatic _ => .getstatic
  | putStatic _ => .putstatic
  | getField _ => .getfield
  | putField _ => .putfield
  | invokeVirtual _ => .invokevirtual
  | invokeSpecial _ => .invokespecial
  | invokeStatic _ => .invokestatic
  | invokeInterface _ _ => .invokeinterface
  | new _ => .new
  | newArray _ => .newarray
  | newRefArray _ => .anewarray
  | newMultiArray _ _ => .multianewarray
  | arrayLength => .arraylength
  | throw => .athrow
  | checkCast _ => .checkcast
  | instanceOf _ => .instanceof
  | monitorEnter => .monitorenter
  | monitorExit => .monitorexit

end Operation

/-- Operands of an operation by their role. -/
inductive Operand where
  | none
  | int (v : Int32)
  | local (slot : Nat)
  | pool (index : Nat)
  | branch (target : Nat)
  | increment (slot : Nat) (delta : Int32)
  | table (default : Nat) (low : Int32) (targets : List Nat)
  | lookup (default : Nat) (pairs : List (Int32 × Nat))
  | interface (index count : Nat)
  | multi (index dims : Nat)
deriving DecidableEq, Repr

namespace Operand

def kind : Operand → String
  | none => "none"
  | int _ => "int"
  | .local _ => "local"
  | pool _ => "pool"
  | branch _ => "branch"
  | increment _ _ => "iinc"
  | table _ _ _ => "table"
  | lookup _ _ => "lookup"
  | interface _ _ => "interface"
  | multi _ _ => "multi"

/-- Branch targets, a default target first. -/
def targets : Operand → List Nat
  | branch t => [t]
  | table d _ ts => d :: ts
  | lookup d ps => d :: ps.map (·.2)
  | _ => []

def local? : Operand → Option Nat
  | .local s | increment s _ => some s
  | _ => Option.none

def pool? : Operand → Option Nat
  | pool i | interface i _ | multi i _ => some i
  | _ => Option.none

def text : Operand → String
  | none => ""
  | int v => s!" {v.toInt}"
  | .local i => s!" {i}"
  | pool i => s!" #{i}"
  | branch t => s!" {t}"
  | increment slot delta => s!" {slot} {delta.toInt}"
  | table d low ts =>
    s!" low={low.toInt} default={d} [" ++ ", ".intercalate (ts.map toString) ++ "]"
  | lookup d ps =>
    s!" default={d} [" ++ ", ".intercalate (ps.map fun p => s!"{p.1.toInt}: {p.2}") ++ "]"
  | interface i count => s!" #{i} {count}"
  | multi i dims => s!" #{i} {dims}"

end Operand

namespace Operation

def operand : Operation → Operand
  | pushByte v | pushShort v => .int v
  | newArray c => .int (Int32.ofNat c)
  | load _ s | store _ s | ret s => .local s
  | loadConst _ i | getStatic i | putStatic i | getField i | putField i
  | invokeVirtual i | invokeSpecial i | invokeStatic i
  | new i | newRefArray i | checkCast i | instanceOf i => .pool i
  | ifZero _ t | ifInt _ t | ifRef _ t | ifNull _ t | goto t | jsr t => .branch t
  | increment s d => .increment s d
  | tableSwitch d low ts => .table d low ts
  | lookupSwitch d ps => .lookup d ps
  | invokeInterface i c => .interface i c
  | newMultiArray i d => .multi i d
  | _ => .none

def targets (o : Operation) : List Nat := o.operand.targets

def endsBlock (o : Operation) : Bool := o.opcode.endsBlock

def isConditional (o : Operation) : Bool := o.opcode.isConditional

end Operation

structure Instruction where
  pc : Nat
  op : Operation
  len : Nat
deriving DecidableEq, Repr

namespace Instruction

def next (i : Instruction) : Nat := i.pc + i.len

def text (i : Instruction) : String :=
  s!"{i.pc}: " ++ i.op.opcode.mnemonic ++ i.op.operand.text

end Instruction

end ManagedCore
