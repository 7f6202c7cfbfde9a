import ManagedCore.Toml.Scalar

/-!
# Reading a settings document

A document is a sequence of lines: an assignment, a header, or nothing but a comment. Assignments go
to the table of the last header above them.
-/

namespace ManagedCore.Toml

def lineEnd : List Char → Option (List Char)
  | [] => some []
  | cs => newline cs

def skipComment : List Char → List Char
  | '#' :: cs => cs.dropWhile isPrintable
  | cs => cs

/-- Nothing but blanks and a comment may follow on the line. -/
def finishLine (cs : List Char) : Option (List Char) := lineEnd (skipComment (skipBlanks cs))

/-- Skips blanks, line breaks and comments between the items of an array. -/
def skipLines (inComment : Bool) : List Char → List Char
  | '\n' :: cs => skipLines false cs
  | '\r' :: '\n' :: cs => skipLines false cs
  | '#' :: cs => skipLines true cs
  | c :: cs => if isBlank c || (inComment && isPrintable c) then skipLines inComment cs else c :: cs
  | [] => []

/-! ## Keys -/

def isBareChar (c : Char) : Bool := c.isAlphanum || c == '-' || c == '_'

def name : Reader String
  | '"' :: cs => closedBy '"' quotedPiece cs
  | '\'' :: cs => closedBy '\'' literalPiece cs
  | cs =>
    let bare := cs.takeWhile isBareChar
    if bare.isEmpty then none else some (String.ofList bare, cs.drop bare.length)

/-- Names with dots between them, at most `limit`, and the blanks around each. -/
def names : (limit : Nat) → Reader (List String)
  | 0, _ => none
  | limit + 1, cs => do
    let (first, rest) ← name (skipBlanks cs)
    match skipBlanks rest with
    | '.' :: rest =>
      let (more, rest) ← names limit rest
      some (first :: more, rest)
    | rest => some ([first], rest)

def maxKeyLength : Nat := 79

def key : Reader (List String) := names maxKeyLength

/-! ## Items -/

/-- The items of an array behind its bracket. A comma may follow the last one. -/
def items (item : Reader Item) : Nat → Reader (List Item)
  | 0, _ => none
  | fuel + 1, cs =>
    match skipLines false cs with
    | ']' :: rest => some ([], rest)
    | cs => do
      let (first, rest) ← item cs
      match skipLines false rest with
      | ',' :: rest =>
        let (more, rest) ← items item fuel rest
        some (first :: more, rest)
      | ']' :: rest => some ([first], rest)
      | _ => none

def assignment (item : Reader Item) : Reader (List String × Item) := fun cs => do
  let (path, rest) ← key cs
  let (value, rest) ← item (skipBlanks (← char? '=' rest))
  some ((path, value), rest)

/-- The assignments of a table in braces, at least one, behind the brace or a comma. -/
def assignments (item : Reader Item) : Nat → Reader (List (List String × Item))
  | 0, _ => none
  | fuel + 1, cs => do
    let (first, rest) ← assignment item cs
    match skipBlanks rest with
    | ',' :: rest =>
      let (more, rest) ← assignments item fuel rest
      some (first :: more, rest)
    | '\x7d' :: rest => some ([first], rest)
    | _ => none

def braces (item : Reader Item) : Reader Item := fun cs =>
  match skipBlanks cs with
  | '\x7d' :: rest => some (.table .braces [], rest)
  | _ => do
    let (pairs, rest) ← assignments item cs.length cs
    let entries ← pairs.foldlM (fun es (path, value) => Entries.insert value path es) ([] : Entries)
    some (.table .braces entries, rest)

/-- An item whose arrays and tables are nested at most `depth` deep. -/
def item : (depth : Nat) → Reader Item
  | 0, cs => scalar cs
  | depth + 1, cs =>
    match cs with
    | '[' :: rest => (items (item depth) rest.length rest).map fun (xs, rest) => (.array xs, rest)
    | '\x7b' :: rest => braces (item depth) rest
    | cs => scalar cs

def maxDepth : Nat := 79

/-! ## Lines -/

inductive Line where
  | empty
  | assignment (path : List String) (value : Item)
  | table (path : List String)
  | element (path : List String)
deriving Repr

def line : Reader Line := fun cs =>
  match skipBlanks cs with
  | [] => some (.empty, [])
  | '[' :: '[' :: rest => do
    let (path, rest) ← key rest
    let rest ← finishLine (← char? ']' (← char? ']' rest))
    some (.element path, rest)
  | '[' :: rest => do
    let (path, rest) ← key rest
    let rest ← finishLine (← char? ']' rest)
    some (.table path, rest)
  | c :: rest =>
    if c = '#' ∨ c = '\n' ∨ c = '\r' then (finishLine (c :: rest)).map fun rest => (.empty, rest)
    else do
      let ((path, value), rest) ← assignment (item maxDepth) (c :: rest)
      let rest ← finishLine rest
      some (.assignment path value, rest)

def lines : Nat → List Char → Option (List Line)
  | 0, cs => if cs.isEmpty then some [] else none
  | fuel + 1, cs =>
    if cs.isEmpty then some []
    else do
      let (first, rest) ← line cs
      let more ← lines fuel rest
      some (first :: more)

/-- A document under construction: its root and the path of the last header. -/
structure Draft where
  root : Entries := []
  path : List String := []

def lastName? (path : List String) : Option (List String × String) :=
  path.getLast?.map fun last => (path.dropLast, last)

def Draft.add (d : Draft) : Line → Option Draft
  | .empty => some d
  | .assignment path value =>
    (d.root.descend (Entries.insert value path) d.path).map fun root => { d with root }
  | .table path => do
    let (above, last) ← lastName? path
    let root ← d.root.descend (Entries.openTable last) above
    some { root, path }
  | .element path => do
    let (above, last) ← lastName? path
    let root ← d.root.descend (Entries.openElement last) above
    some { root, path }

/-- A byte order mark may stand in front of a document. -/
def skipMark : List Char → List Char
  | c :: cs => if c = '\ufeff' then cs else c :: cs
  | [] => []

def parse (source : String) : Option Entries := do
  let cs := skipMark source.toList
  let ls ← lines cs.length cs
  let d ← ls.foldlM Draft.add {}
  some d.root

end ManagedCore.Toml
