import ManagedCore.Proofs.Monitor.Word

/-!
# Monitors in single steps

Threads enter and leave the monitor of one object at the same time. Each access to the lock word, to
the counter of lock numbers and to the table is a step of its own, and so is a critical section of a
fat lock, which nobody can look into. Meanwhile the table may change for other objects.
-/

namespace ManagedCore.Contention

open LockWord

inductive Op where
  | enter | exit
deriving DecidableEq

/-- Why a fat lock is made: its owner entered too often, or a thread waited for it. -/
inductive Inflating where
  | recursion (seen : UInt64)
  | contention
deriving DecidableEq

inductive Control where
  | idle
  | enterSwap | enterStore (seen : UInt64) | contendLoad
  | reserve (k : Inflating) | insert (k : Inflating) (id : Nat)
  | publish (k : Inflating) (id : Nat) | withdraw (k : Inflating) (id : Nat)
  | lookup (op : Op) (id : Nat) | acquire (id : Nat) | wait (id : Nat) | release (id : Nat)
  | exitLoad | exitStore (seen : UInt64)
  | done (op : Op) (result : Except MonitorError Unit)

namespace Inflating

def seen : Inflating → UInt64
  | recursion seen => seen
  | contention => 0

def holds : Inflating → Nat
  | recursion seen => low seen + 2
  | contention => 1

def retry : Inflating → Control
  | recursion _ => .enterSwap
  | contention => .contendLoad

end Inflating

namespace Control

def start : Op → Control
  | .enter => enterSwap
  | .exit => exitLoad

def afterSwap (me : ThreadId) (maxRecursion : Nat) (current : UInt64) : Control :=
  if isFat current then lookup .enter (low current)
  else if thinOwner current = me then
    if low current < maxRecursion then enterStore current
    else if low current + 2 ≤ MonitorTable.maxHolds then reserve (.recursion current)
    else done .enter (.error .recursionOverflow)
  else contendLoad

def afterLoad (me : ThreadId) (current : UInt64) : Control :=
  if isFat current then lookup .exit (low current)
  else if current = 0 ∨ thinOwner current ≠ me then done .exit (.error (.notOwner me))
  else exitStore current

def found (id : Nat) : Op → Control
  | .enter => acquire id
  | .exit => release id

end Control

def removeFat (t : MonitorTable) (id : Nat) : MonitorTable :=
  { t with fats := t.fats.setIfInBounds (id - 1) none }

structure Machine where
  word : UInt64 := 0
  table : MonitorTable
  /-- Lock numbers given out for other objects. -/
  foreign : List Nat := []
  control : ThreadId → Control := fun _ => .idle

namespace Machine

def goTo (s : Machine) (t : ThreadId) (c : Control) : Machine :=
  { s with control := fun k => if k = t then c else s.control k }

def succeed (s : Machine) (t : ThreadId) (op : Op) : Machine := s.goTo t (.done op (.ok ()))

def turn (s : Machine) (me : ThreadId) : Machine :=
  match s.control me with
  | .idle | .done _ _ => s
  | .enterSwap =>
    if s.word = 0 then { s with word := thinWord me 0 }.succeed me .enter
    else s.goTo me (.afterSwap me s.table.maxRecursion s.word)
  | .enterStore seen => { s with word := seen + 1 }.succeed me .enter
  | .contendLoad =>
    if isFat s.word then s.goTo me (.lookup .enter (low s.word))
    else if s.word = 0 then s.goTo me (.reserve .contention)
    else s
  | .reserve k => { s with table := s.table.reserve.2 }.goTo me (.insert k s.table.reserve.1)
  | .insert k id => { s with table := s.table.setFat id ⟨some me, k.holds⟩ }.goTo me (.publish k id)
  | .publish k id =>
    if s.word = k.seen then { s with word := fatWord id }.succeed me .enter
    else s.goTo me (.withdraw k id)
  | .withdraw k id => { s with table := removeFat s.table id }.goTo me k.retry
  | .lookup op id =>
    match s.table.fat? id with
    | some _ => s.goTo me (.found id op)
    | none => s.goTo me (.done op (.error (.unknownLock id)))
  | .acquire id =>
    match s.table.acquire id me with
    | .ok (some table) => { s with table }.succeed me .enter
    | .ok none => s.goTo me (.wait id)
    | .error e => s.goTo me (.done .enter (.error e))
  | .wait id =>
    if (s.table.fat? id).any (·.owner.isNone) then
      { s with table := s.table.setFat id ⟨some me, 1⟩ }.succeed me .enter
    else s
  | .release id =>
    match s.table.release id me with
    | .ok table => { s with table }.succeed me .exit
    | .error e => s.goTo me (.done .exit (.error e))
  | .exitLoad => s.goTo me (.afterLoad me s.word)
  | .exitStore seen => { s with word := if low seen = 0 then 0 else seen - 1 }.succeed me .exit

/-- One step of some thread, on this monitor or on another. -/
inductive Step (s : Machine) : Machine → Prop
  | call (t : ThreadId) (op : Op) (ht : ValidId t) (hc : s.control t = .idle) :
      Step s (s.goTo t (.start op))
  | turn (t : ThreadId) : Step s (s.turn t)
  | answer (t : ThreadId) {op : Op} {result : Except MonitorError Unit}
      (hc : s.control t = .done op result) : Step s (s.goTo t .idle)
  | reserveForeign :
      Step s { s with
        table := s.table.reserve.2
        foreign := s.table.reserve.1 :: s.foreign }
  | setForeign (id : Nat) (l : FatLock) (h : id ∈ s.foreign) :
      Step s { s with table := s.table.setFat id l }
  | removeForeign (id : Nat) (h : id ∈ s.foreign) :
      Step s { s with table := removeFat s.table id }

inductive Execution : Machine → Machine → Prop
  | refl (s : Machine) : Execution s s
  | step {s s' s'' : Machine} (h : Execution s s') (hs : s'.Step s'') : Execution s s''

/-- A new object: it is unlocked and all locks in the table belong to others. -/
structure Initial (s : Machine) : Prop where
  word : s.word = 0
  table : ∀ id l, s.table.fat? id = some l → id ∈ s.foreign
  foreign : ∀ id ∈ s.foreign, 0 < id ∧ id ≤ s.table.fats.size
  control : ∀ t, s.control t = .idle
  /-- The recursion limit is one that the engine accepts. -/
  limit : 1 ≤ s.table.maxRecursion ∧ s.table.maxRecursion ≤ 255

end Machine

/-! ## A re-entrant lock -/

inductive Call where
  | none
  | pending (op : Op)
  | answered (op : Op) (result : Except MonitorError Unit)

/-- A re-entrant lock that serves one call at a time. -/
structure Reentrant where
  owner : Option ThreadId
  holds : Nat
  calls : ThreadId → Call

namespace Reentrant

def setCall (l : Reentrant) (t : ThreadId) (c : Call) : Reentrant :=
  { l with calls := fun k => if k = t then c else l.calls k }

/-- What the lock may do. -/
inductive Step (l : Reentrant) : Reentrant → Prop
  | call (t : ThreadId) (op : Op) (hc : l.calls t = .none) : Step l (l.setCall t (.pending op))
  | answer (t : ThreadId) {op : Op} {result : Except MonitorError Unit}
      (hc : l.calls t = .answered op result) : Step l (l.setCall t .none)
  | enter (t : ThreadId) (hc : l.calls t = .pending .enter)
      (h : l.owner = none ∨ l.owner = some t) :
      Step l ({ l with owner := some t, holds := l.holds + 1 }.setCall t (.answered .enter (.ok ())))
  | overflow (t : ThreadId) (hc : l.calls t = .pending .enter) (h : l.owner = some t)
      (hfull : l.holds = MonitorTable.maxHolds) :
      Step l (l.setCall t (.answered .enter (.error .recursionOverflow)))
  | exit (t : ThreadId) (hc : l.calls t = .pending .exit) (h : l.owner = some t) :
      Step l ({ l with
        owner := if l.holds = 1 then none else some t
        holds := l.holds - 1 }.setCall t (.answered .exit (.ok ())))
  | notOwner (t : ThreadId) (hc : l.calls t = .pending .exit) (h : l.owner ≠ some t) :
      Step l (l.setCall t (.answered .exit (.error (.notOwner t))))

end Reentrant

def Control.call : Control → Call
  | .idle => .none
  | .done op result => .answered op result
  | .lookup op _ => .pending op
  | .release _ | .exitLoad | .exitStore _ => .pending .exit
  | _ => .pending .enter

namespace Machine

def lock (s : Machine) : Lock := decode s.word

/-- The re-entrant lock that the monitor stands for. -/
def view (s : Machine) : Reentrant where
  owner := s.table.owner? s.lock
  holds := s.table.holdCount s.lock
  calls t := (s.control t).call

end Machine

end ManagedCore.Contention
