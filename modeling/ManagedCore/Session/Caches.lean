import ManagedCore.Session.Execution

/-!
# Commands on caches of their own
-/

namespace ManagedCore

def setNamed {α : Type} (name : String) (a : α) (l : List (String × α)) : List (String × α) :=
  (name, a) :: l.filter (·.1 ≠ name)

namespace Act

def newSite (name : String) (m : MemberRef) (index : Nat) : Act Reply := do
  let site : InlineCache := { member := m, index }
  modify fun s => { s with sites := setNamed name site s.sites }
  return .shows site.report

def lookupSite (name cls : String) : Act Reply := do
  let c ← findClass cls
  match (← get).sites.lookup name with
  | none => throw (.internal s!"no site {name}")
  | some site =>
    let r := (← world).registry
    let (m, resolved, site) := site.lookup c.id fun _ => Exec.cacheTarget? r site.member c
    modify fun s => { s with sites := setNamed name site s.sites }
    return .shows (.list [.opt (fun m => .opt (fun m => .text m.text) (r.method? m)) m,
      .bool resolved, site.report])

def newCache (name : String) (capacity : Nat) : Act Reply := do
  modify fun s => { s with caches := setNamed name ⟨{ capacity }, 0⟩ s.caches }
  return .shows .null

inductive CacheOp where
  | insert | get | drop
deriving DecidableEq, Repr

def findCache (name : String) : Act LabelledCache := do
  match (← get).caches.lookup name with
  | some c => return c
  | none => throw (.internal s!"no cache {name}")

/-- New code is labelled by its method and the number of insertions before it. -/
def useCache (op : CacheOp) (name : String) (m : MemberRef) : Act Reply := do
  let c ← findCache name
  let method ← findMethod m
  let (result, c) ← match op with
    | .get => pure (.opt .text (c.cache.get? method.id), c)
    | .drop =>
      let (dropped, cache) := c.cache.invalidate method.id
      pure (.bool dropped, { c with cache })
    | .insert =>
      let _ ← compileAnew m
      let (kept, cache) := c.cache.insert method.id s!"{method.text}#{c.inserts}"
      pure (.opt .text kept, ⟨cache, c.inserts + 1⟩)
  modify fun s => { s with caches := setNamed name c s.caches }
  return .shows (.list [result, .bool (c.cache.contains method.id), .nat c.cache.size,
    .bool (c.cache.size == 0), .nat c.cache.capacity])

end Act

end ManagedCore
