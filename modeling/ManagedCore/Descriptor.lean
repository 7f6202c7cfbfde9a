import ManagedCore.ElementKind

/-!
# Field and method descriptors

A field type is written with one letter for a primitive, `Lname;` for a class and a leading `[` for
an array. A signature is the parenthesised parameter types followed by the result type, where `V`
stands for no result. `FieldType.parse` and `Signature.parse` read exactly these texts back, and
each failure names its cause.
-/

namespace ManagedCore

inductive DescriptorError where
  | truncated (text : String)
  | invalidChar (text : String) (ch : Char)
  | trailing (text : String)
  | voidValue (text : String)
deriving DecidableEq, Repr

def DescriptorError.message : DescriptorError → String
  | truncated text => s!"descriptor `{text}` is truncated"
  | invalidChar text ch => s!"descriptor `{text}` has invalid character `{ch}`"
  | trailing text => s!"descriptor `{text}` has trailing characters"
  | voidValue text => s!"descriptor `{text}` uses void as a value type"

inductive FieldType where
  | boolean | byte | char | short | int | long | float | double
  | object (name : String)
  | array (component : FieldType)
deriving DecidableEq, Repr

namespace FieldType

def toChars : FieldType → List Char
  | boolean => ['Z']
  | byte => ['B']
  | char => ['C']
  | short => ['S']
  | int => ['I']
  | long => ['J']
  | float => ['F']
  | double => ['D']
  | object name => 'L' :: name.toList ++ [';']
  | array component => '[' :: component.toChars

def text (t : FieldType) : String := String.ofList t.toChars

def valueType : FieldType → ValueType
  | boolean | byte | char | short | int => .i32
  | long => .i64
  | float => .f32
  | double => .f64
  | object _ | array _ => .ref

def elementKind : FieldType → ElementKind
  | boolean => .boolean
  | byte => .byte
  | char => .char
  | short => .short
  | int => .int
  | long => .long
  | float => .float
  | double => .double
  | object _ | array _ => .ref

def ofElementKind? : ElementKind → Option FieldType
  | .boolean => some boolean
  | .byte => some byte
  | .char => some char
  | .short => some short
  | .int => some int
  | .long => some long
  | .float => some float
  | .double => some double
  | .ref => none

def isReference : FieldType → Bool
  | object _ | array _ => true
  | _ => false

def className? : FieldType → Option String
  | object name => some name
  | t@(array _) => some t.text
  | _ => none

/-- Reads one type from the front of `cs`; `whole` is quoted in errors. -/
def read (whole : String) : List Char → Except DescriptorError (FieldType × List Char)
  | [] => .error (.truncated whole)
  | 'Z' :: cs => .ok (boolean, cs)
  | 'B' :: cs => .ok (byte, cs)
  | 'C' :: cs => .ok (char, cs)
  | 'S' :: cs => .ok (short, cs)
  | 'I' :: cs => .ok (int, cs)
  | 'J' :: cs => .ok (long, cs)
  | 'F' :: cs => .ok (float, cs)
  | 'D' :: cs => .ok (double, cs)
  | 'V' :: _ => .error (.voidValue whole)
  | '[' :: cs => do
    let (t, rest) ← read whole cs
    return (array t, rest)
  | 'L' :: cs =>
    match cs.span (· ≠ ';') with
    | (_, []) => .error (.truncated whole)
    | ([], _ :: _) => .error (.invalidChar whole ';')
    | (name, _ :: rest) => .ok (object (String.ofList name), rest)
  | c :: _ => .error (.invalidChar whole c)

def parse (text : String) : Except DescriptorError FieldType := do
  let (t, rest) ← read text text.toList
  if rest.isEmpty then return t else .error (.trailing text)

/-- Type named by a class constant: an array descriptor, or the plain name of a class. -/
def ofClassName (name : String) : Except DescriptorError FieldType :=
  if name.toList.head? = some '[' then parse name else .ok (object name)

end FieldType

/-- Parameter types and result type of a method; no result type means that it returns nothing. -/
structure Signature where
  params : List FieldType
  result : Option FieldType
deriving DecidableEq, Repr

namespace Signature

def toChars (s : Signature) : List Char :=
  '(' :: s.params.flatMap FieldType.toChars ++ ')' :: (s.result.map FieldType.toChars).getD ['V']

def text (s : Signature) : String := String.ofList s.toChars

/-- Reads parameter types up to the closing parenthesis, which is consumed too. Each type takes at
least one character, so `fuel` past the number of characters never runs out. -/
def readParams (whole : String) :
    Nat → List Char → Except DescriptorError (List FieldType × List Char)
  | _, [] => .error (.truncated whole)
  | _, ')' :: cs => .ok ([], cs)
  | 0, _ :: _ => .error (.truncated whole)
  | fuel + 1, cs => do
    let (t, rest) ← FieldType.read whole cs
    let (ts, rest) ← readParams whole fuel rest
    return (t :: ts, rest)

def readResult (whole : String) :
    List Char → Except DescriptorError (Option FieldType × List Char)
  | [] => .error (.truncated whole)
  | 'V' :: cs => .ok (none, cs)
  | cs => do
    let (t, rest) ← FieldType.read whole cs
    return (some t, rest)

def parse (text : String) : Except DescriptorError Signature :=
  match text.toList with
  | [] => .error (.truncated text)
  | '(' :: cs => do
    let (params, rest) ← readParams text cs.length cs
    let (result, rest) ← readResult text rest
    if rest.isEmpty then return { params, result } else .error (.trailing text)
  | c :: _ => .error (.invalidChar text c)

def paramTypes (s : Signature) : List ValueType := s.params.map FieldType.valueType

def resultType (s : Signature) : Option ValueType := s.result.map FieldType.valueType

def paramSlots (s : Signature) : Nat := s.paramTypes.foldr (fun t n => t.slots + n) 0

end Signature

end ManagedCore
