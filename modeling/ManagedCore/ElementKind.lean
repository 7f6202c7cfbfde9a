import ManagedCore.Value

/-!
# Kinds of array elements

What one array element holds and how a value is cut down to it. Sub-word kinds keep only their low
bits; every other kind stores the value as it is.
-/

namespace ManagedCore

inductive ElementKind where
  | boolean | byte | char | short | int | long | float | double | ref
deriving DecidableEq, Repr

namespace ElementKind

def ofTypeCode? : Nat → Option ElementKind
  | 4 => some boolean
  | 5 => some char
  | 6 => some float
  | 7 => some double
  | 8 => some byte
  | 9 => some short
  | 10 => some int
  | 11 => some long
  | _ => none

def valueType : ElementKind → ValueType
  | boolean | byte | char | short | int => .i32
  | long => .i64
  | float => .f32
  | double => .f64
  | ref => .ref

def letter? : ElementKind → Option Char
  | boolean => some 'Z'
  | byte => some 'B'
  | char => some 'C'
  | short => some 'S'
  | int => some 'I'
  | long => some 'J'
  | float => some 'F'
  | double => some 'D'
  | ref => none

def name : ElementKind → String
  | boolean => "Boolean"
  | byte => "Byte"
  | char => "Char"
  | short => "Short"
  | int => "Int"
  | long => "Long"
  | float => "Float"
  | double => "Double"
  | ref => "Ref"

def all : List ElementKind := [boolean, byte, char, short, int, long, float, double, ref]

def size : ElementKind → Nat
  | boolean | byte => 1
  | char | short => 2
  | int | float => 4
  | long | double | ref => 8

def narrowInt : ElementKind → Int32 → Int32
  | boolean, v => v &&& 1
  | byte, v => v.toInt8.toInt32
  | char, v => v &&& 0xffff
  | short, v => v.toInt16.toInt32
  | _, v => v

def narrow (k : ElementKind) : Value → Value
  | .int v => .int (k.narrowInt v)
  | v => v

end ElementKind

end ManagedCore
