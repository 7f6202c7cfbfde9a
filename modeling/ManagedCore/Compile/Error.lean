import ManagedCore.Bytecode.Decode
import ManagedCore.Descriptor
import ManagedCore.Class.Pool

/-!
# Why a method cannot be compiled
-/

namespace ManagedCore

inductive CompileError where
  | decode (e : DecodeError)
  | descriptor (e : DescriptorError)
  | noCode (method : String)
  | badHandler (row : Nat)
  | stackUnderflow (pc : Nat)
  | typeMismatch (pc : Nat) (expected found : ValueType)
  | splitsWideValue (pc : Nat)
  | stackShapeMismatch (pc : Nat) (expected found : List ValueType)
  | badLocal (pc slot : Nat)
  | pool (pc : Nat) (e : PoolError)
  | badConstant (pc index : Nat)
  | fallsOffEnd (pc : Nat)
  | unknownReturnSite (pc : Nat)
  | unsupported (pc : Nat) (op : Opcode) (reason : String)
deriving DecidableEq, Repr

namespace CompileError

def kind : CompileError → String
  | decode _ => "Decode"
  | descriptor _ => "Descriptor"
  | noCode _ => "NoCode"
  | badHandler _ => "BadHandler"
  | stackUnderflow _ => "StackUnderflow"
  | typeMismatch _ _ _ => "TypeMismatch"
  | splitsWideValue _ => "SplitsWideValue"
  | stackShapeMismatch _ _ _ => "StackShapeMismatch"
  | badLocal _ _ => "BadLocal"
  | pool _ _ => "Pool"
  | badConstant _ _ => "BadConstant"
  | fallsOffEnd _ => "FallsOffEnd"
  | unknownReturnSite _ => "UnknownReturnSite"
  | unsupported _ _ _ => "Unsupported"

def shapeText (ts : List ValueType) : String :=
  "[" ++ ", ".intercalate (ts.map ValueType.name) ++ "]"

def message : CompileError → String
  | decode e => "decode error: " ++ e.message
  | descriptor e => "descriptor error: " ++ e.message
  | noCode m => s!"method {m} has no code"
  | badHandler row => s!"exception table row {row} is malformed"
  | stackUnderflow pc => s!"stack underflow at offset {pc}"
  | typeMismatch pc e f =>
    s!"type mismatch at offset {pc}: expected {e.name}, found {f.name}"
  | splitsWideValue pc => s!"stack operation at offset {pc} splits a two-slot value"
  | stackShapeMismatch pc e f =>
    s!"stack shape mismatch at offset {pc}: expected {shapeText e}, found {shapeText f}"
  | badLocal pc slot => s!"local {slot} out of range at offset {pc}"
  | pool pc e => s!"constant pool error at offset {pc}: {e.message}"
  | badConstant pc index =>
    s!"constant #{index} cannot be loaded by the instruction at offset {pc}"
  | fallsOffEnd pc => s!"control falls off the end of the code after offset {pc}"
  | unknownReturnSite pc => s!"ret at offset {pc} has no return sites"
  | unsupported pc op reason => s!"unsupported {op.mnemonic} at offset {pc}: {reason}"

end CompileError

end ManagedCore
