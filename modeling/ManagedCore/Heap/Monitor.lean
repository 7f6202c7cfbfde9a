import ManagedCore.Class.Basic

/-!
# Monitors

An object is unlocked, held through a thin lock kept in the object itself, or held through a fat
lock kept in a table. A thin lock becomes fat when its owner enters it too often or when another
thread has to wait for it, and it stays fat.
-/

namespace ManagedCore

inductive Lock where
  | unlocked
  /-- Held by `owner`, entered `again` times after the first. -/
  | thin (owner : ThreadId) (again : Nat)
  | fat (id : Nat)
deriving DecidableEq, Repr

structure FatLock where
  owner : Option ThreadId
  count : Nat
deriving DecidableEq, Repr

inductive MonitorError where
  | notOwner (t : ThreadId)
  | unknownLock (id : Nat)
  | recursionOverflow
deriving DecidableEq, Repr

namespace MonitorError

def kind : MonitorError → String
  | notOwner _ => "NotOwner"
  | unknownLock _ => "UnknownLock"
  | recursionOverflow => "RecursionOverflow"

def message : MonitorError → String
  | notOwner t => s!"thread #{t} does not own the monitor"
  | unknownLock id => s!"unknown fat lock {id}"
  | recursionOverflow => "monitor recursion overflow"

end MonitorError

/-- Fat locks by number, and how often a thin lock may be entered again. -/
structure MonitorTable where
  /-- Lock number `i + 1` stands at place `i`. A number may be given out before its lock is there. -/
  fats : Array (Option FatLock) := #[]
  maxRecursion : Nat
deriving DecidableEq, Repr

/-- What a thread that wants a monitor gets. -/
inductive Entering where
  | entered (lock : Lock) (table : MonitorTable)
  | blocked

namespace MonitorTable

def maxHolds : Nat := 4294967295

def fat? (t : MonitorTable) : Nat → Option FatLock
  | 0 => none
  | i + 1 => t.fats[i]?.join

def fatCount (t : MonitorTable) : Nat := (t.fats.filter Option.isSome).size

def reserve (t : MonitorTable) : Nat × MonitorTable :=
  (t.fats.size + 1, { t with fats := t.fats.push none })

def setFat (t : MonitorTable) (id : Nat) (l : FatLock) : MonitorTable :=
  { t with fats := t.fats.setIfInBounds (id - 1) (some l) }

def addFat (t : MonitorTable) (owner : ThreadId) (count : Nat) : Lock × MonitorTable :=
  let (id, t) := t.reserve
  (.fat id, t.setFat id ⟨some owner, count⟩)

/-- Tries to take a fat lock, which gives nothing while another thread has it. -/
def acquire (t : MonitorTable) (id : Nat) (me : ThreadId) :
    Except MonitorError (Option MonitorTable) :=
  match t.fat? id with
  | none => .error (.unknownLock id)
  | some l =>
    match l.owner with
    | none => .ok (some (t.setFat id ⟨some me, 1⟩))
    | some owner =>
      if owner ≠ me then .ok none
      else if l.count < maxHolds then .ok (some (t.setFat id ⟨some me, l.count + 1⟩))
      else .error .recursionOverflow

def release (t : MonitorTable) (id : Nat) (me : ThreadId) : Except MonitorError MonitorTable :=
  match t.fat? id with
  | none => .error (.unknownLock id)
  | some l =>
    if l.owner ≠ some me then .error (.notOwner me)
    else if l.count ≤ 1 then .ok (t.setFat id ⟨none, 0⟩)
    else .ok (t.setFat id ⟨some me, l.count - 1⟩)

def enter (t : MonitorTable) (lock : Lock) (me : ThreadId) : Except MonitorError Entering :=
  match lock with
  | .unlocked => .ok (.entered (.thin me 0) t)
  | .thin owner again =>
    if owner ≠ me then .ok .blocked
    else if again < t.maxRecursion then .ok (.entered (.thin me (again + 1)) t)
    else if again + 2 ≤ maxHolds then
      let (lock, t) := t.addFat me (again + 2)
      .ok (.entered lock t)
    else .error .recursionOverflow
  | .fat id =>
    (t.acquire id me).map fun
      | some t => .entered lock t
      | none => .blocked

/-- Enters a monitor after waiting for it: once it is free, a thin lock turns fat. -/
def enterAfterWait (t : MonitorTable) (lock : Lock) (me : ThreadId) :
    Except MonitorError Entering :=
  match lock with
  | .unlocked =>
    let (lock, t) := t.addFat me 1
    .ok (.entered lock t)
  | .thin _ _ => .ok .blocked
  | .fat _ => t.enter lock me

def exit (t : MonitorTable) (lock : Lock) (me : ThreadId) :
    Except MonitorError (Lock × MonitorTable) :=
  match lock with
  | .unlocked => .error (.notOwner me)
  | .thin owner again =>
    if owner ≠ me then .error (.notOwner me)
    else if again = 0 then .ok (.unlocked, t)
    else .ok (.thin owner (again - 1), t)
  | .fat id => (t.release id me).map fun t => (lock, t)

def owner? (t : MonitorTable) : Lock → Option ThreadId
  | .unlocked => none
  | .thin owner _ => some owner
  | .fat id => (t.fat? id).bind (·.owner)

def holdCount (t : MonitorTable) : Lock → Nat
  | .unlocked => 0
  | .thin _ again => again + 1
  | .fat id => ((t.fat? id).map (·.count)).getD 0

def isInflated : Lock → Bool
  | .fat _ => true
  | _ => false

end MonitorTable

end ManagedCore
