import ManagedCore.Bytecode.Operation
import ManagedCore.Bytecode.Code

/-!
# Assembling

An assembler collects pieces of a body. A piece is either finished bytes or a branch offset that
stays open until its label is known; `finish` writes the pieces out with every label replaced by the
offset it is bound to.
-/

namespace ManagedCore

inductive AssemblyError where
  | unboundLabel (label : Nat)
  | branchRange (pc : Nat)
deriving DecidableEq, Repr

def AssemblyError.message : AssemblyError → String
  | unboundLabel l => s!"label {l} is never bound"
  | branchRange pc => s!"branch at offset {pc} is out of 16-bit range"

/-- Part of a body; a distance runs from the start of its instruction to the label. -/
inductive Piece where
  | bytes (bs : List UInt8)
  | nearTo (pc : Nat) (label : Nat)
  | farTo (pc : Nat) (label : Nat)
deriving DecidableEq, Repr

def Piece.size : Piece → Nat
  | bytes bs => bs.length
  | nearTo _ _ => 2
  | farTo _ _ => 4

structure LabelledRow where
  start : Nat
  stop : Nat
  handler : Nat
  catchType : Option Nat
deriving DecidableEq, Repr

structure Assembler where
  pieces : Array Piece := #[]
  pc : Nat := 0
  labels : Array (Option Nat) := #[]
  handlers : Array LabelledRow := #[]
  lines : Array (Nat × Nat) := #[]

namespace Bytecode

def bytes16 (w : UInt16) : List UInt8 := [(w >>> 8).toUInt8, w.toUInt8]

def bytes32 (w : UInt32) : List UInt8 :=
  [(w >>> 24).toUInt8, (w >>> 16).toUInt8, (w >>> 8).toUInt8, w.toUInt8]

def pushSmall (v : Int32) : List UInt8 :=
  if -1 ≤ v ∧ v ≤ 5 then [(v + 3).toUInt32.toUInt8]
  else if -128 ≤ v ∧ v ≤ 127 then [Opcode.bipush.toByte, v.toUInt32.toUInt8]
  else Opcode.sipush.toByte :: bytes16 v.toUInt32.toUInt16

/-- Pushes a constant; one that needs more than 16 bits is put together from its halves. -/
def pushInt (v : Int32) : List UInt8 :=
  if -32768 ≤ v ∧ v ≤ 32767 then pushSmall v
  else
    pushSmall (v >>> 16) ++ pushSmall 16 ++ [Opcode.ishl.toByte] ++
      pushSmall v.toInt16.toInt32 ++ [Opcode.iconstM1.toByte] ++ pushSmall 16 ++
      [Opcode.iushr.toByte, Opcode.iand.toByte, Opcode.ior.toByte]

/-- First of the four short forms of a local load or store. -/
def shortForm? : Opcode → Option Opcode
  | .iload => some .iload0
  | .lload => some .lload0
  | .fload => some .fload0
  | .dload => some .dload0
  | .aload => some .aload0
  | .istore => some .istore0
  | .lstore => some .lstore0
  | .fstore => some .fstore0
  | .dstore => some .dstore0
  | .astore => some .astore0
  | _ => none

def accessLocal (op : Opcode) (slot : UInt16) : List UInt8 :=
  match shortForm? op with
  | some first =>
    if slot ≤ 3 then [first.toByte + slot.toUInt8]
    else if slot ≤ 255 then [op.toByte, slot.toUInt8]
    else Opcode.wide.toByte :: op.toByte :: bytes16 slot
  | none =>
    if slot ≤ 255 then [op.toByte, slot.toUInt8]
    else Opcode.wide.toByte :: op.toByte :: bytes16 slot

def incrementLocal (slot : UInt16) (delta : Int16) : List UInt8 :=
  if slot ≤ 255 ∧ -128 ≤ delta ∧ delta ≤ 127 then
    [Opcode.iinc.toByte, slot.toUInt8, delta.toUInt16.toUInt8]
  else Opcode.wide.toByte :: Opcode.iinc.toByte :: bytes16 slot ++ bytes16 delta.toUInt16

end Bytecode

namespace Assembler

open Bytecode

def label (a : Assembler) : Assembler × Nat :=
  ({ a with labels := a.labels.push none }, a.labels.size)

def bind (a : Assembler) (l : Nat) : Assembler :=
  { a with labels := a.labels.setIfInBounds l (some a.pc) }

def offsetOf? (a : Assembler) (l : Nat) : Option Nat := (a.labels[l]?).join

def piece (a : Assembler) (p : Piece) : Assembler :=
  { a with pieces := a.pieces.push p, pc := a.pc + p.size }

def emit (a : Assembler) (bs : List UInt8) : Assembler := a.piece (.bytes bs)

def op (a : Assembler) (o : Opcode) : Assembler := a.emit [o.toByte]

def byte (a : Assembler) (b : UInt8) : Assembler := a.emit [b]

def opIndex (a : Assembler) (o : Opcode) (w : UInt16) : Assembler := a.emit (o.toByte :: bytes16 w)

def pushInt (a : Assembler) (v : Int32) : Assembler := a.emit (Bytecode.pushInt v)

def load (a : Assembler) (o : Opcode) (slot : UInt16) : Assembler := a.emit (accessLocal o slot)

def store (a : Assembler) (o : Opcode) (slot : UInt16) : Assembler := a.load o slot

def increment (a : Assembler) (slot : UInt16) (delta : Int16) : Assembler :=
  a.emit (incrementLocal slot delta)

def ret (a : Assembler) (slot : UInt8) : Assembler := a.emit [Opcode.ret.toByte, slot]

def newArray (a : Assembler) (typeCode : UInt8) : Assembler :=
  a.emit [Opcode.newarray.toByte, typeCode]

def invokeInterface (a : Assembler) (index : UInt16) (count : UInt8) : Assembler :=
  a.emit (Opcode.invokeinterface.toByte :: bytes16 index ++ [count, 0])

def newMultiArray (a : Assembler) (index : UInt16) (dims : UInt8) : Assembler :=
  a.emit (Opcode.multianewarray.toByte :: bytes16 index ++ [dims])

def branch (a : Assembler) (o : Opcode) (l : Nat) : Assembler :=
  (a.op o).piece (.nearTo a.pc l)

def branchFar (a : Assembler) (o : Opcode) (l : Nat) : Assembler :=
  (a.op o).piece (.farTo a.pc l)

/-- Opcode of a switch and the filling up to the next multiple of four. -/
def switchHead (o : Opcode) (pc : Nat) : List UInt8 := o.toByte :: List.replicate (3 - pc % 4) 0

def tableSwitch (a : Assembler) (low : Int32) (targets : List Nat) (default : Nat) : Assembler :=
  let high := low + Int32.ofNat targets.length - 1
  let head := (a.emit (switchHead .tableswitch a.pc)).piece (.farTo a.pc default)
  let head := head.emit (bytes32 low.toUInt32 ++ bytes32 high.toUInt32)
  targets.foldl (fun b l => b.piece (.farTo a.pc l)) head

/-- The pairs are written in the order of their keys; equal keys keep their order. -/
def lookupSwitch (a : Assembler) (pairs : List (Int32 × Nat)) (default : Nat) : Assembler :=
  let sorted := pairs.mergeSort fun p q => p.1 ≤ q.1
  let head := (a.emit (switchHead .lookupswitch a.pc)).piece (.farTo a.pc default)
  let head := head.emit (bytes32 (UInt32.ofNat sorted.length))
  sorted.foldl (fun b p => (b.emit (bytes32 p.1.toUInt32)).piece (.farTo a.pc p.2)) head

def handler (a : Assembler) (row : LabelledRow) : Assembler :=
  { a with handlers := a.handlers.push row }

def line (a : Assembler) (n : Nat) : Assembler := { a with lines := a.lines.push (a.pc, n) }

def resolve (a : Assembler) (l : Nat) : Except AssemblyError Nat :=
  match a.offsetOf? l with
  | some o => .ok o
  | none => .error (.unboundLabel l)

def pieceBytes (a : Assembler) : Piece → Except AssemblyError (List UInt8)
  | .bytes bs => .ok bs
  | .nearTo pc l => do
    let d := ((← a.resolve l) : Int) - pc
    if -32768 ≤ d ∧ d ≤ 32767 then return bytes16 (Int16.ofInt d).toUInt16
    else throw (.branchRange pc)
  | .farTo pc l => do
    let d := ((← a.resolve l) : Int) - pc
    return bytes32 (Int32.ofInt d).toUInt32

def finish (a : Assembler) : Except AssemblyError (List UInt8) :=
  return (← a.pieces.toList.mapM a.pieceBytes).flatten

def finishCode (a : Assembler) (maxLocals maxStack : Nat) : Except AssemblyError Code := do
  let bytes ← a.finish
  let code := ({ bytes, maxLocals, maxStack } : Code).withLines a.lines.toList
  a.handlers.toList.foldlM (fun c row => do
    let start ← a.resolve row.start
    let stop ← a.resolve row.stop
    let handler ← a.resolve row.handler
    return c.withHandler { start, stop, handler, catchType := row.catchType }) code

end Assembler

end ManagedCore
