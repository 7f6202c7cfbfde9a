import ManagedCore.Session.Execution

/-!
# Sessions on the frames of one thread
-/

namespace ManagedCore

/-- Commands on the frames of the first thread. Pushed frames are numbered in order. -/
inductive FrameStep where
  | managed (m : MemberRef)
  | known (m : Option MemberRef)
  | internal (label : String)
  | pop (k : Nat)
  | setPc (pc : Nat)
  | compile (m : MemberRef)
  | walk (onlyManaged : Bool)
  | trace
  | at (i : Nat)
  | begin (name : String) (onlyManaged : Bool)
  | same (a b : String)
  | advance (name : String)
  | retreat (name : String)
  | reset (name : String)
  | look (name : String)

structure FrameSession where
  session : Session
  thread : ThreadId
  /-- Places of the frames pushed so far; one that was popped has none. -/
  guards : Array (Option Nat) := #[]
  walkers : List (String × Walker) := []

namespace FrameSession

def stack (s : FrameSession) : FrameStack :=
  ((s.session.world.thread? s.thread).map (·.frames)).getD {}

def modifyStack (s : FrameSession) (f : FrameStack → FrameStack) : FrameSession :=
  { s with
    session := { s.session with
      world := s.session.world.modifyThread s.thread fun t => { t with frames := f t.frames } } }

def method? (s : FrameSession) (m : MemberRef) : Option MethodId × FrameSession :=
  match (Act.findMethod m).run s.session with
  | .ok m session => (some m.id, { s with session })
  | .error _ session => (none, { s with session })

/-- Shows the place of the frame that is pushed. -/
def push (s : FrameSession) (f : FrameStack → FrameStack) : Report × FrameSession :=
  let place := s.stack.size
  (.nat place, { s.modifyStack f with guards := s.guards.push (some place) })

def pop (s : FrameSession) (k : Nat) : FrameSession :=
  match s.guards.getD k none with
  | some place => { s.modifyStack (·.popTo place) with guards := s.guards.setIfInBounds k none }
  | none => s

def frameText (s : FrameSession) (p : Nat × Frame) : String :=
  p.2.text s.session.world.registry p.1

def move (s : FrameSession) (name : String) (f : Walker → FrameStack → Walker) :
    Report × FrameSession :=
  match s.walkers.lookup name with
  | none => (.null, s)
  | some w =>
    let w := f w s.stack
    (.list
        [.text (w.state s.stack).name, .opt (fun p => .text (s.frameText p)) (w.current? s.stack),
          .nat s.thread],
      { s with walkers := (name, w) :: s.walkers.filter (·.1 ≠ name) })

def act (s : FrameSession) : FrameStep → Report × FrameSession
  | .managed m =>
    match s.method? m with
    | (some m, s) => s.push (·.pushManaged m)
    | (none, s) => (.null, s)
  | .known none => s.push (·.pushKnown none)
  | .known (some m) =>
    let (m, s) := s.method? m
    s.push (·.pushKnown m)
  | .internal label => s.push (·.pushInternal label)
  | .pop k => (.null, s.pop k)
  | .setPc pc => (.null, s.modifyStack (·.setPc pc))
  | .compile m =>
    match (Act.compileCode m).run s.session with
    | .ok _ session => (.null, { s with session })
    | .error e session => (e.report, { s with session })
  | .walk onlyManaged => (.texts ((s.stack.walk onlyManaged).map s.frameText), s)
  | .trace =>
    (.texts ((s.stack.trace s.session.world.registry).map TraceElement.summary), s)
  | .at i => (.opt (fun _ => .bool true) (s.stack.at? i), s)
  | .begin name onlyManaged =>
    (.null, { s with
      walkers := (name, Walker.begin s.stack onlyManaged) :: s.walkers.filter (·.1 ≠ name) })
  | .same a b =>
    (.bool ((s.walkers.lookup a).map (·.index) == (s.walkers.lookup b).map (·.index)), s)
  | .advance name => s.move name Walker.advance
  | .retreat name => s.move name Walker.retreat
  | .reset name => s.move name Walker.reset
  | .look name => s.move name fun w _ => w

def run (s : FrameSession) : List FrameStep → List Report
  | [] => []
  | c :: rest =>
    let (r, s) := s.act c
    .list [r, .nat s.stack.size, .opt .nat s.stack.lastKnown] :: s.run rest

def report (classes : List ClassDef) (steps : List FrameStep) : Report :=
  match Session.start {} with
  | .error e => e.report
  | .ok s =>
    let define (s : Session) (d : ClassDef) : Session :=
      match (Act.updateWorld fun w =>
          let (_, r) := w.registry.define d
          ((), { w with registry := r })).run s with
      | .ok _ s | .error _ s => s
    let s : FrameSession := { session := classes.foldl define s, thread := 1 }
    .record [("steps", .list (s.run steps))]

end FrameSession

end ManagedCore
