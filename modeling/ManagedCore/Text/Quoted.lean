import ManagedCore.Text.Unprintable

/-!
# Quoted texts

A quoted text stands between double quotes. Quote, backslash, tab, newline, carriage return and NUL
have short escapes; any other character without a glyph is written as `\u` and its hexadecimal
number in braces.
-/

namespace ManagedCore.Text

def hexDigits (n : Nat) : List Char := Nat.toDigits 16 n

def quoteChar (c : Char) : List Char :=
  if c = '"' then ['\\', '"']
  else if c = '\\' then ['\\', '\\']
  else if c = '\n' then ['\\', 'n']
  else if c = '\r' then ['\\', 'r']
  else if c = '\t' then ['\\', 't']
  else if c = Char.ofNat 0 then ['\\', '0']
  else if unprintable c then ['\\', 'u', '\x7b'] ++ hexDigits c.toNat ++ ['\x7d']
  else [c]

def quote (s : String) : String :=
  String.ofList ('"' :: s.toList.flatMap quoteChar ++ ['"'])

def padRight (width : Nat) (s : String) : String :=
  s ++ String.ofList (List.replicate (width - s.length) ' ')

def splitLines : List Char → List (List Char)
  | [] => [[]]
  | '\n' :: cs | '\r' :: '\n' :: cs => [] :: splitLines cs
  | c :: cs =>
    match splitLines cs with
    | line :: lines => (c :: line) :: lines
    | [] => [[c]]

/-- Lines of a text. A carriage return before a line feed belongs to the line end. -/
def lines (s : String) : List String := (splitLines s.toList).map String.ofList

def hexByte (b : UInt8) : String :=
  let ds := hexDigits b.toNat
  "0x" ++ String.ofList (List.replicate (2 - ds.length) '0' ++ ds)

end ManagedCore.Text
