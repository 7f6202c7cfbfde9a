import ManagedCore.Toml.Basic

/-!
# Texts, numbers and moments of a settings document

A reading function gives what it read and the text behind it. It takes as much as belongs to the
item; whether what follows is allowed there is for its caller to say.
-/

namespace ManagedCore.Toml

abbrev Reader (α : Type) := List Char → Option (α × List Char)

def isBlank (c : Char) : Bool := c == ' ' || c == '\t'

def skipBlanks (cs : List Char) : List Char := cs.dropWhile isBlank

/-- Control characters other than the tab stand nowhere in a document but at the end of a line. -/
def isPrintable (c : Char) : Bool := c == '\t' || (' ' ≤ c && c != '\x7f')

def newline : List Char → Option (List Char)
  | '\n' :: cs => some cs
  | '\r' :: '\n' :: cs => some cs
  | _ => none

def skipNewline (cs : List Char) : List Char := (newline cs).getD cs

/-! ## Texts -/

def isHexDigit (c : Char) : Bool :=
  c.isDigit || ('a' ≤ c && c ≤ 'f') || ('A' ≤ c && c ≤ 'F')

def digitValue (c : Char) : Nat :=
  if c.isDigit then c.toNat - '0'.toNat
  else if c.isLower then c.toNat - 'a'.toNat + 10
  else c.toNat - 'A'.toNat + 10

def numeral (base : Nat) (digits : List Char) : Nat :=
  digits.foldl (fun n c => n * base + digitValue c) 0

/-- A character given by the number of its code point; surrogates have none. -/
def codePoint (width : Nat) : Reader Char := fun cs =>
  let digits := cs.take width
  let n := numeral 16 digits
  if digits.length = width ∧ digits.all isHexDigit ∧ n.isValidChar then
    some (Char.ofNat n, cs.drop width)
  else none

def escaped : Reader Char
  | 'b' :: cs => some ('\x08', cs)
  | 't' :: cs => some ('\t', cs)
  | 'n' :: cs => some ('\n', cs)
  | 'f' :: cs => some ('\x0c', cs)
  | 'r' :: cs => some ('\r', cs)
  | '"' :: cs => some ('"', cs)
  | '\\' :: cs => some ('\\', cs)
  | 'u' :: cs => codePoint 4 cs
  | 'U' :: cs => codePoint 8 cs
  | _ => none

/-- Pieces as long as one can be read, at most `fuel` of them. -/
def pieces (piece : Reader (List Char)) : Nat → List Char → List Char × List Char
  | 0, cs => ([], cs)
  | fuel + 1, cs =>
    match piece cs with
    | none => ([], cs)
    | some (p, rest) =>
      let (ps, rest) := pieces piece fuel rest
      (p ++ ps, rest)

/-- Every piece takes a character, so the length of the text bounds their number. -/
def allPieces (piece : Reader (List Char)) (cs : List Char) : List Char × List Char :=
  pieces piece cs.length cs

def quotedPiece : Reader (List Char)
  | '\\' :: cs => (escaped cs).map fun (c, rest) => ([c], rest)
  | c :: cs => if c != '"' && isPrintable c then some ([c], cs) else none
  | [] => none

def literalPiece : Reader (List Char)
  | c :: cs => if c != '\'' && isPrintable c then some ([c], cs) else none
  | [] => none

/-- A text on one line, behind its opening quote. -/
def closedBy (quote : Char) (piece : Reader (List Char)) : Reader String := fun cs =>
  match allPieces piece cs with
  | (content, c :: rest) => if c = quote then some (String.ofList content, rest) else none
  | (_, []) => none

/-- One or two quotes are content of a text of several lines. -/
def innerQuotes (quote : Char) (cs : List Char) : Option (List Char × List Char) :=
  let run := cs.takeWhile (· == quote)
  if run.length = 0 ∨ 3 ≤ run.length then none else some (run, cs.drop run.length)

def innerNewline (cs : List Char) : Option (List Char × List Char) :=
  (newline cs).map fun rest => (['\n'], rest)

def isLineBlank (c : Char) : Bool := isBlank c || c == '\n'

def skipSpace : List Char → List Char
  | '\r' :: '\n' :: cs => skipSpace cs
  | c :: cs => if isLineBlank c then skipSpace cs else c :: cs
  | [] => []

/-- A backslash at the end of a line joins it to the next text. -/
def joinedLine : Reader (List Char)
  | '\\' :: cs => (newline (skipBlanks cs)).map fun rest => ([], skipSpace rest)
  | _ => none

def quotedLinesPiece (cs : List Char) : Option (List Char × List Char) :=
  innerQuotes '"' cs <|> innerNewline cs <|> joinedLine cs <|> quotedPiece cs

def literalLinesPiece (cs : List Char) : Option (List Char × List Char) :=
  innerQuotes '\'' cs <|> innerNewline cs <|> literalPiece cs

/-- A text of several lines, behind its three opening quotes. Up to two quotes directly before the
three closing ones are content. -/
def closedByThree (quote : Char) (piece : Reader (List Char)) : Reader String := fun cs =>
  let (content, rest) := allPieces piece (skipNewline cs)
  let run := rest.takeWhile (· == quote)
  if 3 ≤ run.length ∧ run.length ≤ 5 then
    some (String.ofList (content ++ run.drop 3), rest.drop run.length)
  else none

def text : Reader String
  | '"' :: '"' :: '"' :: cs => closedByThree '"' quotedLinesPiece cs
  | '"' :: cs => closedBy '"' quotedPiece cs
  | '\'' :: '\'' :: '\'' :: cs => closedByThree '\'' literalLinesPiece cs
  | '\'' :: cs => closedBy '\'' literalPiece cs
  | _ => none

/-! ## Numbers -/

/-- Digits behind a first one; a single underscore may stand between two digits. -/
def moreDigits (isDigit : Char → Bool) : List Char → List Char × List Char
  | '_' :: c :: cs =>
    if isDigit c then
      let (ds, rest) := moreDigits isDigit cs
      (c :: ds, rest)
    else ([], '_' :: c :: cs)
  | c :: cs =>
    if isDigit c then
      let (ds, rest) := moreDigits isDigit cs
      (c :: ds, rest)
    else ([], c :: cs)
  | [] => ([], [])

def digits (isDigit : Char → Bool) : Reader (List Char)
  | c :: cs =>
    if isDigit c then
      let (ds, rest) := moreDigits isDigit cs
      some (c :: ds, rest)
    else none
  | [] => none

/-- A decimal numeral without needless zeros in front. -/
def wholePart : Reader (List Char)
  | '0' :: cs => some (['0'], cs)
  | cs => digits Char.isDigit cs

def sign : List Char → Bool × List Char
  | '-' :: cs => (true, cs)
  | '+' :: cs => (false, cs)
  | cs => (false, cs)

def isOctalDigit (c : Char) : Bool := '0' ≤ c && c ≤ '7'

def isBinaryDigit (c : Char) : Bool := c == '0' || c == '1'

def unboundedInteger : Reader Int
  | '0' :: 'x' :: cs =>
    (digits isHexDigit cs).map fun (ds, rest) => (Int.ofNat (numeral 16 ds), rest)
  | '0' :: 'o' :: cs =>
    (digits isOctalDigit cs).map fun (ds, rest) => (Int.ofNat (numeral 8 ds), rest)
  | '0' :: 'b' :: cs =>
    (digits isBinaryDigit cs).map fun (ds, rest) => (Int.ofNat (numeral 2 ds), rest)
  | cs =>
    let (minus, cs) := sign cs
    (wholePart cs).map fun (ds, rest) =>
      (if minus then -Int.ofNat (numeral 10 ds) else Int.ofNat (numeral 10 ds), rest)

/-- Integers have 64 bits. -/
def integer (cs : List Char) : Option (Int × List Char) :=
  (unboundedInteger cs).filter fun (n, _) =>
    decide (Int64.minValue.toInt ≤ n ∧ n ≤ Int64.maxValue.toInt)

def fractionPart : Reader (List Char)
  | '.' :: cs => digits Char.isDigit cs
  | _ => none

def exponentPart : Reader Int
  | c :: cs =>
    if c = 'e' ∨ c = 'E' then
      let (minus, cs) := sign cs
      (digits Char.isDigit cs).map fun (ds, rest) =>
        (if minus then -Int.ofNat (numeral 10 ds) else Int.ofNat (numeral 10 ds), rest)
    else none
  | [] => none

/-- Whether `n * 10 ^ e` rounds to a finite number of 64 bits. The least number that does not lies
half a step above the largest finite one. -/
def roundsFinite (n : Nat) (e : Int) : Bool :=
  if n = 0 ∨ e + (Nat.toDigits 10 n).length < 300 then true
  else if 310 ≤ e then false
  else
    n * Nat.pow 10 e.toNat < (Nat.pow 2 54 - 1) * Nat.pow 2 970 * Nat.pow 10 (-e).toNat

/-- A number with a fraction or an exponent. One too large to be finite is refused, except below
zero. -/
def fraction (cs : List Char) : Option (List Char) := do
  let (minus, cs) := sign cs
  let (whole, cs) ← wholePart cs
  let (part, afterPart) := (fractionPart cs).getD ([], cs)
  let (e, rest) := (exponentPart afterPart).getD (0, afterPart)
  if part.isEmpty ∧ (exponentPart afterPart).isNone then none
  else if minus ∨ roundsFinite (numeral 10 (whole ++ part)) (e - part.length) then some rest
  else none

def isFractionName (cs : List Char) : Bool := cs == "inf".toList || cs == "nan".toList

def namedFraction (cs : List Char) : Option (List Char) :=
  let (_, cs) := sign cs
  if isFractionName (cs.take 3) then some (cs.drop 3) else none

/-! ## Moments -/

def field (width low high : Nat) : Reader Nat := fun cs =>
  let ds := cs.take width
  let n := numeral 10 ds
  if ds.length = width ∧ ds.all Char.isDigit ∧ low ≤ n ∧ n ≤ high then some (n, cs.drop width)
  else none

def char? (c : Char) : List Char → Option (List Char)
  | d :: cs => if d = c then some cs else none
  | [] => none

def isLeapYear (year : Nat) : Bool := year % 4 == 0 && (year % 100 != 0 || year % 400 == 0)

def daysIn (year month : Nat) : Nat :=
  if month = 2 then (if isLeapYear year then 29 else 28)
  else if month = 4 ∨ month = 6 ∨ month = 9 ∨ month = 11 then 30
  else 31

def date (cs : List Char) : Option (List Char) := do
  let (year, cs) ← field 4 0 9999 cs
  let (month, cs) ← field 2 1 12 (← char? '-' cs)
  let (_, cs) ← field 2 1 (daysIn year month) (← char? '-' cs)
  some cs

/-- A second of sixty is a leap second. -/
def clock (cs : List Char) : Option (List Char) := do
  let (_, cs) ← field 2 0 23 cs
  let (_, cs) ← field 2 0 59 (← char? ':' cs)
  let (_, cs) ← field 2 0 60 (← char? ':' cs)
  match cs with
  | '.' :: d :: rest => some (if d.isDigit then rest.dropWhile Char.isDigit else cs)
  | cs => some cs

def offset : List Char → Option (List Char)
  | c :: cs =>
    if c = 'Z' ∨ c = 'z' then some cs
    else if c = '+' ∨ c = '-' then do
      let (_, cs) ← field 2 0 23 cs
      let (_, cs) ← field 2 0 59 (← char? ':' cs)
      some cs
    else none
  | [] => none

def isDelimiter (c : Char) : Bool := c == 'T' || c == 't' || c == ' '

/-- The time of day behind a date, which may be absent. -/
def dayTime (cs : List Char) : List Char :=
  match cs with
  | c :: rest =>
    match clock rest with
    | some rest => if isDelimiter c then (offset rest).getD rest else cs
    | none => cs
  | [] => []

def moment (cs : List Char) : Option (List Char) :=
  match date cs with
  | some rest => some (dayTime rest)
  | none => clock cs

/-! ## Items without parts -/

def word? (word : String) (cs : List Char) : Option (List Char) :=
  if cs.take word.length == word.toList then some (cs.drop word.length) else none

def scalar (cs : List Char) : Option (Item × List Char) :=
  ((text cs).map fun (s, rest) => (.text s, rest))
  <|> ((word? "true" cs).map fun rest => (.boolean true, rest))
  <|> ((word? "false" cs).map fun rest => (.boolean false, rest))
  <|> ((moment cs).map fun rest => (.moment, rest))
  <|> ((fraction cs <|> namedFraction cs).map fun rest => (.fraction, rest))
  <|> ((integer cs).map fun (n, rest) => (.integer n, rest))

end ManagedCore.Toml
