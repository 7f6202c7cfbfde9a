/-!
# Settings documents

A document is a table of named items. How a table came about decides what may still be added to it:
a table in braces is complete, one made by a dotted key takes further dotted keys, one that a longer
header implied may get a header of its own, and one with a header is extended only below that
header. Every addition below fails rather than replace an item, so a name is given once.
-/

namespace ManagedCore.Toml

inductive Origin where
  | braces | dotted | implied | header
deriving DecidableEq, Repr

/-- Only the kind of a fraction and of a moment is kept: no setting holds one. -/
inductive Item where
  | text (chars : String)
  | integer (n : Int)
  | fraction
  | boolean (b : Bool)
  | moment
  | array (items : List Item)
  | table (origin : Origin) (entries : List (String × Item))
  /-- Tables that share one header, the latest apart. -/
  | tables (earlier : List (List (String × Item))) (latest : List (String × Item))
deriving Repr

abbrev Entries := List (String × Item)

namespace Entries

def replace (es : Entries) (name : String) (item : Item) : Entries :=
  es.map fun e => if e.1 = name then (name, item) else e

/-- Adds an item under a dotted key. A table that a header implied is passed through on the way, but
the last table on the way must have been made by dotted keys alone. -/
def insert (item : Item) : List String → Entries → Option Entries
  | [], _ => none
  | [name], es => if (es.lookup name).isSome then none else some (es ++ [(name, item)])
  | name :: next :: names, es =>
    match es.lookup name with
    | none => (insert item (next :: names) []).map fun inner => es ++ [(name, .table .dotted inner)]
    | some (.table .dotted inner) =>
      (insert item (next :: names) inner).map fun inner => replace es name (.table .dotted inner)
    | some (.table .implied inner) =>
      if names.isEmpty then none
      else
        (insert item (next :: names) inner).map fun inner => replace es name (.table .implied inner)
    | some (.tables earlier latest) =>
      if names.isEmpty then none
      else
        (insert item (next :: names) latest).map fun latest =>
          replace es name (.tables earlier latest)
    | some _ => none

/-- Changes the table that a header's path leads to; tables missing on the way are implied. -/
def descend (change : Entries → Option Entries) : List String → Entries → Option Entries
  | [], es => change es
  | name :: path, es =>
    match es.lookup name with
    | none => (descend change path []).map fun inner => es ++ [(name, .table .implied inner)]
    | some (.table .braces _) => none
    | some (.table origin inner) =>
      (descend change path inner).map fun inner => replace es name (.table origin inner)
    | some (.tables earlier latest) =>
      (descend change path latest).map fun latest => replace es name (.tables earlier latest)
    | some _ => none

def openTable (name : String) (es : Entries) : Option Entries :=
  match es.lookup name with
  | none => some (es ++ [(name, .table .header [])])
  | some (.table .implied inner) => some (replace es name (.table .header inner))
  | some _ => none

def openElement (name : String) (es : Entries) : Option Entries :=
  match es.lookup name with
  | none => some (es ++ [(name, .tables [] [])])
  | some (.tables earlier latest) => some (replace es name (.tables (earlier ++ [latest]) []))
  | some _ => none

end Entries

end ManagedCore.Toml
