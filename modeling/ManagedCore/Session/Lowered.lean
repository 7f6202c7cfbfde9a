import ManagedCore.Session.Rendezvous

/-!
# Sessions on lowered functions

A lowered function is entered by itself, once for each run, on a thread that has nothing else to
do. A run may begin while a rendezvous waits for the thread; the code then stops at its first
safepoint and goes on when the rendezvous is over.
-/

namespace ManagedCore

def LoweringError.report (e : LoweringError) : Report :=
  .error (if e.isUnsupported then "Codegen.UnsupportedInstruction" else "Codegen.BackendError")
    e.message

structure LoweredEntry where
  args : List UInt64
  /-- Whether a rendezvous waits for the thread. -/
  awaited : Bool

namespace Lowered

def maxSteps : Nat := 1000000000

def outcomeReport (l : Lowered) : Outcome → Report
  | .result cell => .opt (fun t => .text (Value.numberText (ofCell t cell))) l.function.result
  | .raised n =>
    .record [("kind", .opt (fun s => .text s.fault.name) l.sites[n - 1]?), ("status", .nat n)]
  | .trapped | .polled _ | .outOfFuel => .null

/-- Who is stopped when the only thread reaches its safepoint, `parked`, or goes on without one. -/
def stoppedReport (parked : Bool) : Report :=
  let (id, ts) := Threads.attach {} "" 0
  let (r, ts) := Rendezvous.request {} ts none
  statusReport (if parked then (r.join ts id).1 else r).statuses

def runReport (l : Lowered) (r : LoweredEntry) : Report :=
  let finish (s : State) := l.outcomeReport (l.run true false maxSteps s)
  if r.awaited then
    match l.run true true maxSteps (l.start r.args) with
    | .polled s => .list [stoppedReport true, finish s]
    | o => .list [stoppedReport false, l.outcomeReport o]
  else finish (l.start r.args)

def report (f : Function) (runs : List LoweredEntry) : Report :=
  .ofExcept LoweringError.report
    (fun l => .record
      [("sites", .all RaiseSite.report l.sites), ("code", .bool true),
        ("runs", .all l.runReport runs)])
    f.lower

end Lowered

end ManagedCore
