import ManagedCore.Session.Basic

/-!
# Commands that run and compile methods
-/

namespace ManagedCore

def uncaughtText (cls : String) (message : Option String) (trace : List TraceElement) : String :=
  dotted cls ++ ((message.map (": " ++ ·)).getD "") ++
    String.join (trace.map fun e => "\n\tat " ++ e.text)

/-- The depth of a stack overflow is accidental, so its trace is not shown. -/
def uncaughtReport (w : World) (e : ObjId) : Report :=
  let cls := w.className e
  let message := w.exceptionMessage? e
  let trace := (w.trace? e).getD []
  let head : List (String × Report) :=
    [("uncaught", .text cls), ("message", .opt .text message), ("exception", .object e)]
  if cls = Fault.stackOverflow.className then .record head
  else
    .record (head ++ [("trace", .texts (trace.map TraceElement.summary)),
      ("text", .text (uncaughtText cls message trace))])

def Outcome.report (w : World) : Outcome → Report
  | value v => .record [("ok", .opt .value v)]
  | thrown e => uncaughtReport w e
  | failed e => e.report

def Outcome.yields : Outcome → Option Value
  | value v => v
  | thrown e => some (.obj e)
  | failed _ => none

namespace Compiled

def mapsReport (m : StackMaps) : Report :=
  .all (fun (b, i, rs) => .list [.nat b, .nat i, .nats rs]) m.entries

def statsReport (s : CompileStats) : Report :=
  .nats [s.blocks, s.instrs, s.inlined, s.lazyHandles, s.boundHandles, s.gcPoints]

def report (c : Compiled) : Report :=
  let f := c.function
  .record
    [("text", .texts f.listing), ("maps", mapsReport c.stackMaps),
      ("reg_types", .texts (f.regTypes.toList.map ValueType.name)),
      ("term_pcs", .nats (f.blocks.toList.map (·.terminatorPc))), ("stats", statsReport c.stats),
      ("handlers", .bool f.hasHandlers), ("numeric", .bool f.isNumeric),
      ("mode", .text c.mode.name), ("native", .bool c.native.isSome)]

end Compiled

def InlineCache.report (c : InlineCache) : Report :=
  .record
    [("index", .nat c.index), ("member", .text c.member.text), ("len", .nat c.size),
      ("empty", .bool (c.size == 0)), ("head", .opt .nat c.headClass?),
      ("classes", .nats c.classes), ("hits", .nat c.hits), ("misses", .nat c.misses)]

def RaiseSite.report (s : RaiseSite) : Report := .list [.text s.fault.name, .opt .text s.detail]

namespace Act

def call (t : ThreadId) (m : Method) (args : List Value) : Act Outcome :=
  updateWorld fun w => w.execute t (.ofCall m args)

def outcome (o : Outcome) : Act Reply := do
  return { report := o.report (← world), yields := o.yields }

def invoke (m : MemberRef) (args : List Source) (thread : String) : Act Reply := do
  let t ← findThread thread
  let method ← findMethod m
  outcome (← call t.id method (← args.mapM source))

def callStatic (m : MemberRef) (args : List Source) (thread : String) : Act Reply := do
  let t ← findThread thread
  let args ← args.mapM source
  let c ← findClass m.owner
  match ((← world).registry.findMethod? c m.name m.descriptor).filter (·.isStatic) with
  | none => throw (.methodNotFound (m.owner ++ "." ++ m.name ++ m.descriptor))
  | some method => outcome (← call t.id method args)

/-- Attaches a thread with the configured stack, or the least there is. -/
def attachWorker (name : String) : Act ThreadId :=
  attempt fun w => w.attach name (max w.config.threadStackSize World.minStackSize)

def spawn (m : MemberRef) (args : List Source) (name : String) : Act Reply := do
  let method ← findMethod m
  let args ← args.mapM source
  let t ← attachWorker name
  let o ← call t method args
  let frames := (← threadNow t).frames.size
  let threads := (← world).threads.size
  modifyWorld (·.detach t)
  return { report := .record [("result", o.report (← world)), ("id", .nat t), ("name", .text name),
             ("frames", .nat frames), ("threads", .nat threads)]
           yields := o.yields }

/-- A call with the first thread of another engine is refused. -/
def callForeign (m : MemberRef) (args : List Source) : Act Reply := do
  let _ ← findMethod m
  let _ ← args.mapM source
  throw (.notAttached 1)

/-! ## Compiling -/

def compileCode (m : MemberRef) : Act LiveCode := do
  let method ← findMethod m
  match ← updateWorld (·.compileMethod method.id) with
  | .error e => throw (.compile e)
  | .ok code =>
    match (← world).code? code with
    | some c => return c
    | none => throw (.internal "no such code")

def compileAnew (m : MemberRef) : Act Compiled := do
  let method ← findMethod m
  match ← updateWorld (·.compileAnew method) with
  | .error e => throw (.compile e)
  | .ok c => return c

def compile (m : MemberRef) : Act Reply := do
  return .shows (← compileCode m).compiled.report

def recompile (m : MemberRef) : Act Reply := do
  return .shows (← compileAnew m).report

def compileStats (m : MemberRef) : Act Reply := do
  return .shows (Compiled.statsReport (← compileAnew m).stats)

def loweredSites (m : MemberRef) : Act Reply := do
  return .shows (.opt (fun l => .all RaiseSite.report l.sites) (← compileCode m).compiled.native)

def callSites (m : MemberRef) : Act Reply := do
  let code ← compileCode m
  let sites := code.compiled.function.callSites
  return .shows (.all InlineCache.report (sites.filterMap fun s => code.caches[s.number]?))

def backend : Act Reply := do
  let on := (← world).config.nativeBackend
  return .shows (.list [if on then .text Lowered.backend.1 else .null, .bool on])

def entryText (w : World) : Entry → String
  | .stub => "Stub"
  | .compiled code =>
    let blocks := ((w.code? code).map (·.compiled.function.blocks.size)).getD 0
    s!"Compiled({blocks} blocks)"
  | .native => "Native"
  | .abstract => "Abstract"

def entry (m : MemberRef) : Act Reply := do
  let method ← findMethod m
  let w ← world
  return .shows (.list [.text (entryText w method.entry.current), .nat method.entry.generations,
    .bool (w.codeCache.contains method.id)])

def codeCache (invalidate : Option MemberRef) : Act Reply := do
  let dropped ← match invalidate with
    | none => pure none
    | some m =>
      let method ← findMethod m
      let dropped ← updateWorld fun w =>
        let (dropped, cache) := w.codeCache.invalidate method.id
        (dropped, { w with codeCache := cache })
      pure (some dropped)
  let c := (← world).codeCache
  return .shows (.list [.nat c.size, .nat c.capacity, .bool (c.size == 0), .opt .bool dropped])

end Act

end ManagedCore
