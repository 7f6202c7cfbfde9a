import ManagedCore.Text.Address
import ManagedCore.Value

/-!
# Reports

What a session shows after each command: a tree of named and listed facts. Values stand in it as
they are; the session writes them as text when it shows the report, since it is the session that
numbers objects.
-/

namespace ManagedCore

inductive Report where
  | null
  | bool (b : Bool)
  | int (n : Int)
  /-- A fraction with this many decimal places. -/
  | decimal (digits : Int) (places : Nat)
  | text (s : String)
  | value (v : Value)
  /-- The numbers of those of the objects that have been shown before. -/
  | known (objects : List ObjId)
  | list (items : List Report)
  | record (fields : List (String × Report))
deriving Inhabited

namespace Report

def nat (n : Nat) : Report := .int n

def opt {α : Type} (f : α → Report) : Option α → Report
  | some a => f a
  | none => .null

def all {α : Type} (f : α → Report) (as : List α) : Report := .list (as.map f)

def texts (ss : List String) : Report := all .text ss

def nats (ns : List Nat) : Report := all nat ns

def object (o : ObjId) : Report := .value (.obj o)

def objects (os : List ObjId) : Report := all object os

def error (kind message : String) : Report :=
  .record [("error", .text kind), ("message", .text (Text.maskAddresses message))]

def ofExcept {ε α : Type} (err : ε → Report) (ok : α → Report) : Except ε α → Report
  | .ok a => ok a
  | .error e => err e

end Report

end ManagedCore
