import ManagedCore.ElementKind
import ManagedCore.Fault
import ManagedCore.Ir.Handle

/-!
# Compiled functions

Compiled code is a graph of blocks over typed registers. A register may be assigned on several
paths. Values that flow into a join travel as arguments of a block call and are assigned to the
parameters of the block all at once. Local slots are memory of their own, so that a handler sees
every store made before a fault.
-/

namespace ManagedCore

abbrev Reg := Nat

abbrev BlockId := Nat

inductive BinaryOp where
  | add | sub | mul | div | rem | and | or | xor | shl | shr | ushr
deriving DecidableEq, Repr

namespace BinaryOp

def all : List BinaryOp := [add, sub, mul, div, rem, and, or, xor, shl, shr, ushr]

def mnemonic : BinaryOp → String
  | add => "add"
  | sub => "sub"
  | mul => "mul"
  | div => "div"
  | rem => "rem"
  | and => "and"
  | or => "or"
  | xor => "xor"
  | shl => "shl"
  | shr => "shr"
  | ushr => "ushr"

def isShift : BinaryOp → Bool
  | shl | shr | ushr => true
  | _ => false

end BinaryOp

/-- Comparisons that give zero or one; `ult` compares without sign. -/
inductive CmpOp where
  | eq | ne | lt | le | gt | ge | ult
deriving DecidableEq, Repr

namespace CmpOp

def all : List CmpOp := [eq, ne, lt, le, gt, ge, ult]

def mnemonic : CmpOp → String
  | eq => "eq"
  | ne => "ne"
  | lt => "lt"
  | le => "le"
  | gt => "gt"
  | ge => "ge"
  | ult => "ult"

end CmpOp

/-- A call site with an inline cache: its number in the function, and the member it calls. -/
structure CallSite where
  number : Nat
  index : Nat
  member : MemberRef
deriving DecidableEq, Repr

inductive CallTarget where
  | direct (m : Handle MethodRef)
  | virtual (m : Handle MethodRef)
  | cached (site : CallSite)
deriving DecidableEq, Repr

inductive Instr where
  | constInt (dest : Reg) (v : Int32)
  | constLong (dest : Reg) (v : Int64)
  | constFloat (dest : Reg) (v : Single)
  | constDouble (dest : Reg) (v : Double)
  | constNull (dest : Reg)
  | constString (dest : Reg) (text : String)
  | move (dest src : Reg)
  | loadLocal (dest : Reg) (slot : Nat)
  | storeLocal (slot : Nat) (src : Reg)
  | binary (op : BinaryOp) (dest left right : Reg)
  | neg (dest src : Reg)
  | convert (dest src : Reg)
  | narrow (kind : ElementKind) (dest src : Reg)
  | cmp (op : CmpOp) (dest left right : Reg)
  | compare (dest left right : Reg) (nan : Int32)
  | isNull (dest src : Reg)
  | initCheck (cls : Handle ClassRef)
  | classMonitor (dest : Reg) (cls : Handle ClassRef)
  | new (dest : Reg) (cls : Handle ClassRef)
  | newArray (dest : Reg) (cls : Handle ClassRef) (length : Reg)
  | newMultiArray (dest : Reg) (cls : Handle ClassRef) (dims : List Reg)
  | arrayLength (dest array : Reg)
  | arrayLoad (dest array index : Reg)
  | arrayStore (array index value : Reg)
  | storeCheck (dest array value : Reg)
  | getField (dest object : Reg) (field : Handle FieldSlot)
  | putField (object : Reg) (field : Handle FieldSlot) (value : Reg)
  | getStatic (dest : Reg) (field : Handle StaticSlot)
  | putStatic (field : Handle StaticSlot) (value : Reg)
  | instanceOf (dest object : Reg) (cls : Handle ClassRef)
  | canCast (dest object : Reg) (cls : Handle ClassRef)
  | monitorEnter (object : Reg)
  | monitorExit (object : Reg)
  | call (dest : Option Reg) (target : CallTarget) (args : List Reg)
  | safepoint
  | stackCheck (dest : Reg)
deriving DecidableEq

namespace Instr

def dest? : Instr → Option Reg
  | constInt d _ | constLong d _ | constFloat d _ | constDouble d _ | constNull d
  | constString d _ | move d _ | loadLocal d _ | binary _ d _ _ | neg d _ | convert d _
  | narrow _ d _ | cmp _ d _ _ | compare d _ _ _ | isNull d _ | classMonitor d _ | new d _
  | newArray d _ _ | newMultiArray d _ _ | arrayLength d _ | arrayLoad d _ _ | storeCheck d _ _
  | getField d _ _ | getStatic d _ | instanceOf d _ _ | canCast d _ _ | stackCheck d => some d
  | call d _ _ => d
  | storeLocal _ _ | initCheck _ | arrayStore _ _ _ | putField _ _ _ | putStatic _ _
  | monitorEnter _ | monitorExit _ | safepoint => none

def uses : Instr → List Reg
  | constInt _ _ | constLong _ _ | constFloat _ _ | constDouble _ _ | constNull _
  | constString _ _ | loadLocal _ _ | initCheck _ | classMonitor _ _ | new _ _ | getStatic _ _
  | safepoint | stackCheck _ => []
  | move _ s | storeLocal _ s | neg _ s | convert _ s | narrow _ _ s | isNull _ s => [s]
  | binary _ _ l r | cmp _ _ l r | compare _ l r _ => [l, r]
  | newArray _ _ n => [n]
  | newMultiArray _ _ ns => ns
  | arrayLength _ a => [a]
  | arrayLoad _ a i => [a, i]
  | arrayStore a i v => [a, i, v]
  | storeCheck _ a v => [a, v]
  | getField _ o _ | instanceOf _ o _ | canCast _ o _ | monitorEnter o | monitorExit o => [o]
  | putField o _ v => [o, v]
  | putStatic _ v => [v]
  | call _ _ args => args

/-- Points where the live references of a frame are recorded. -/
def isGcPoint : Instr → Bool
  | call _ _ _ | safepoint => true
  | _ => false

/-- Instructions that compute on numbers in registers and locals only. -/
def isNumeric : Instr → Bool
  | constInt _ _ | constLong _ _ | constFloat _ _ | constDouble _ _ | move _ _ | loadLocal _ _
  | storeLocal _ _ | binary _ _ _ _ | neg _ _ | convert _ _ | narrow _ _ _ | cmp _ _ _ _
  | compare _ _ _ _ | safepoint | stackCheck _ => true
  | _ => false

def callSite? : Instr → Option CallSite
  | call _ (.cached site) _ => some site
  | _ => none

end Instr

/-- A jump with the values for the parameters of its block. -/
structure BlockCall where
  block : BlockId
  args : List Reg := []
deriving DecidableEq, Repr

inductive Terminator where
  | jump (target : BlockCall)
  | branch (cond : Reg) (thenTo elseTo : BlockCall)
  | switch (value : Reg) (cases : List (Int32 × BlockCall)) (default : BlockCall)
  | result (value : Option Reg)
  | throw (exception : Reg)
  | raise (fault : Fault) (args : List Reg) (detail : Option String)
  | resume (exception : Reg)
  | unreachable
deriving DecidableEq, Repr

namespace Terminator

def uses : Terminator → List Reg
  | jump c => c.args
  | branch c t e => c :: (t.args ++ e.args)
  | switch v cases d => v :: (cases.flatMap (·.2.args) ++ d.args)
  | result v => v.toList
  | throw r | resume r => [r]
  | raise _ args _ => args
  | unreachable => []

/-- Where control goes without a fault. -/
def successors : Terminator → List BlockCall
  | jump c => [c]
  | branch _ t e => [t, e]
  | switch _ cases d => cases.map (·.2) ++ [d]
  | _ => []

end Terminator

/-- An instruction and the offset of the bytecode it comes from. -/
structure PlacedInstr where
  instr : Instr
  pc : Nat
deriving DecidableEq

structure Block where
  params : List Reg := []
  instrs : Array PlacedInstr := #[]
  terminator : Terminator := .unreachable
  terminatorPc : Nat := 0
  handler : Option BlockId := none
deriving DecidableEq

structure Function where
  name : String
  params : List ValueType
  result : Option ValueType
  maxLocals : Nat
  blocks : Array Block := #[]
  entry : BlockId := 0
  regTypes : Array ValueType := #[]
deriving DecidableEq

namespace Function

def regType? (f : Function) (r : Reg) : Option ValueType := f.regTypes[r]?

def block? (f : Function) (b : BlockId) : Option Block := f.blocks[b]?

def addBlock (f : Function) : BlockId × Function :=
  (f.blocks.size, { f with blocks := f.blocks.push {} })

def addReg (f : Function) (t : ValueType) : Reg × Function :=
  (f.regTypes.size, { f with regTypes := f.regTypes.push t })

def modifyBlock (f : Function) (b : BlockId) (g : Block → Block) : Function :=
  { f with blocks := f.blocks.modify b g }

def instrCount (f : Function) : Nat := f.blocks.toList.foldr (fun b n => b.instrs.size + n) 0

def callSites (f : Function) : List CallSite :=
  f.blocks.toList.flatMap fun b => b.instrs.toList.filterMap (·.instr.callSite?)

def hasHandlers (f : Function) : Bool := f.blocks.any (·.handler.isSome)

/-- Every instruction, terminator, parameter and result stays inside the numeric subset. -/
def isNumeric (f : Function) : Bool :=
  f.params.all (· ≠ .ref) && f.result ≠ some .ref && f.blocks.all fun b =>
    b.handler.isNone && b.instrs.all (·.instr.isNumeric) &&
      match b.terminator with
      | .throw _ | .resume _ => false
      | _ => true

end Function

end ManagedCore
