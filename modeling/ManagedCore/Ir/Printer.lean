import ManagedCore.Ir.Basic
import ManagedCore.Text.Quoted

/-!
# Listings

The text of a function: a head line, then each block with its instructions and its terminator.
Listings show numbers, constants and symbolic names only, so equal functions have equal listings.
-/

namespace ManagedCore

def Reg.text (r : Reg) : String := "r" ++ toString r

def regList (rs : List Reg) : String := ", ".intercalate (rs.map Reg.text)

def BlockId.text (b : BlockId) : String := "bb" ++ toString b

def BlockCall.text (c : BlockCall) : String :=
  BlockId.text c.block ++ if c.args.isEmpty then "" else "(" ++ regList c.args ++ ")"

def CallTarget.text : CallTarget → String
  | direct m => "static " ++ m.text
  | virtual m => "virtual " ++ m.text
  | cached s => "cached #" ++ toString s.index ++ " " ++ s.member.text

def Instr.body : Instr → String
  | constInt _ v => "const.i32 " ++ toString v.toInt
  | constLong _ v => "const.i64 " ++ toString v.toInt
  | constFloat _ v => "const.f32 " ++ Decimal.exact v.parts
  | constDouble _ v => "const.f64 " ++ Decimal.exact v.parts
  | constNull _ => "const.null"
  | constString _ s => "const.string " ++ Text.quote s
  | move _ s => "move " ++ Reg.text s
  | loadLocal _ n => "load.local " ++ toString n
  | storeLocal n s => "store.local " ++ toString n ++ ", " ++ Reg.text s
  | binary op _ l r => op.mnemonic ++ " " ++ regList [l, r]
  | neg _ s => "neg " ++ Reg.text s
  | convert _ s => "convert " ++ Reg.text s
  | narrow k _ s => "narrow." ++ k.name ++ " " ++ Reg.text s
  | cmp op _ l r => "cmp." ++ op.mnemonic ++ " " ++ regList [l, r]
  | compare _ l r nan => "cmp3 " ++ regList [l, r] ++ " nan=" ++ toString nan.toInt
  | isNull _ s => "is.null " ++ Reg.text s
  | initCheck c => "init.check " ++ c.text
  | classMonitor _ c => "class.monitor " ++ c.text
  | new _ c => "new " ++ c.text
  | newArray _ c n => "new.array " ++ c.text ++ " [" ++ Reg.text n ++ "]"
  | newMultiArray _ c ns => "new.multi " ++ c.text ++ " [" ++ regList ns ++ "]"
  | arrayLength _ a => "array.length " ++ Reg.text a
  | arrayLoad _ a i => "array.load " ++ Reg.text a ++ "[" ++ Reg.text i ++ "]"
  | arrayStore a i v =>
    "array.store " ++ Reg.text a ++ "[" ++ Reg.text i ++ "], " ++ Reg.text v
  | storeCheck _ a v => "store.check " ++ regList [a, v]
  | getField _ o f => "get.field " ++ Reg.text o ++ ", " ++ f.text
  | putField o f v => "put.field " ++ Reg.text o ++ ", " ++ f.text ++ ", " ++ Reg.text v
  | getStatic _ f => "get.static " ++ f.text
  | putStatic f v => "put.static " ++ f.text ++ ", " ++ Reg.text v
  | instanceOf _ o c => "instance.of " ++ Reg.text o ++ ", " ++ c.text
  | canCast _ o c => "can.cast " ++ Reg.text o ++ ", " ++ c.text
  | monitorEnter o => "monitor.enter " ++ Reg.text o
  | monitorExit o => "monitor.exit " ++ Reg.text o
  | call _ t args => "call " ++ t.text ++ "(" ++ regList args ++ ")"
  | safepoint => "safepoint"
  | stackCheck _ => "stack.check"

def Instr.text (i : Instr) : String :=
  match i.dest? with
  | some d => Reg.text d ++ " = " ++ i.body
  | none => i.body

def Terminator.text : Terminator → String
  | jump c => "jmp " ++ c.text
  | branch c t e => "br " ++ Reg.text c ++ ", " ++ t.text ++ ", " ++ e.text
  | switch v cases d =>
    "switch " ++ Reg.text v ++ " [" ++
      ", ".intercalate (cases.map fun c => toString c.1.toInt ++ " => " ++ c.2.text) ++
      "] default " ++ d.text
  | result (some r) => "ret " ++ Reg.text r
  | result none => "ret void"
  | throw r => "throw " ++ Reg.text r
  | raise k args detail =>
    "raise " ++ k.name ++ "(" ++ regList args ++ ")" ++
      (detail.map fun d => " " ++ Text.quote d).getD ""
  | resume r => "resume " ++ Reg.text r
  | unreachable => "unreachable"

def Block.listing (id : BlockId) (b : Block) : List String :=
  let params := if b.params.isEmpty then "" else "(" ++ regList b.params ++ ")"
  let handler := (b.handler.map fun h => " ; handler " ++ BlockId.text h).getD ""
  ("  " ++ BlockId.text id ++ params ++ ":" ++ handler) ::
    b.instrs.toList.map (fun p =>
      "    " ++ Text.padRight 48 p.instr.text ++ " ; @" ++ toString p.pc) ++
    ["    " ++ b.terminator.text]

/-- Names may hold line ends, so a part of a listing can be more than one line. -/
def Function.listing (f : Function) : List String :=
  let params := ", ".intercalate (f.params.map ValueType.name)
  let result := (f.result.map ValueType.name).getD "void"
  let parts := ("function @" ++ f.name ++ " (" ++ params ++ ") -> " ++ result ++ " locals " ++
      toString f.maxLocals ++ " entry " ++ BlockId.text f.entry ++ " \x7b") ::
    (f.blocks.toList.zipIdx.flatMap fun (b, i) => b.listing i) ++ ["\x7d"]
  parts.flatMap Text.lines

end ManagedCore
