import ManagedCore.Proofs.InlineCache.Chain
import ManagedCore.Thread.Basic

/-!
# Lookups of many threads

Threads look classes up at one call site. To read the front of the chain is one step, and so is a
search, which nobody can look into. In every order of these steps the site answers what the resolver
gives, and its chain lists the classes as they were used.
-/

namespace ManagedCore.InlineCache

/-- A lookup that is over. -/
structure Lookup where
  thread : ThreadId
  cls : ClassId
  answer : Option MethodId

/-- A call site with the classes that threads are about to search for, and the lookups that are
over, the last one in front. -/
structure Site where
  cache : InlineCache
  searching : ThreadId → Option ClassId := fun _ => none
  log : List Lookup := []

namespace Site

variable {resolve : ClassId → Option MethodId} {s s' : Site}

inductive Step (resolve : ClassId → Option MethodId) (s : Site) : Site → Prop where
  | hit (t : ThreadId) (cls : ClassId) {m : MethodId} (hidle : s.searching t = none)
      (hm : s.cache.peek cls = some m) :
      Step resolve s { s with
        cache := { s.cache with hits := s.cache.hits + 1 }
        log := ⟨t, cls, some m⟩ :: s.log }
  | miss (t : ThreadId) (cls : ClassId) (hidle : s.searching t = none)
      (hm : s.cache.peek cls = none) :
      Step resolve s { s with searching := Function.update s.searching t (some cls) }
  | search (t : ThreadId) {cls : ClassId} (hcls : s.searching t = some cls) :
      Step resolve s {
        cache := (s.cache.search cls fun _ => resolve cls).2.2
        searching := Function.update s.searching t none
        log := ⟨t, cls, (s.cache.search cls fun _ => resolve cls).1⟩ :: s.log }

def Execution (resolve : ClassId → Option MethodId) : Site → Site → Prop :=
  Relation.ReflTransGen (Step resolve)

/-- Each class once, where it was used last. -/
def recent : List ClassId → List ClassId
  | [] => []
  | cls :: l => cls :: (recent l).filter (· ≠ cls)

theorem mem_recent {l : List ClassId} {cls : ClassId} : cls ∈ recent l ↔ cls ∈ l := by
  induction l with
  | nil => rfl
  | cons k l ih => simp only [recent]; grind

def found (s : Site) : List ClassId := (s.log.filter (·.answer.isSome)).map (·.cls)

/-- What holds of a call site in all its states. -/
structure Inv (resolve : ClassId → Option MethodId) (s : Site) : Prop where
  resolves : s.cache.Resolves resolve
  answers : ∀ x ∈ s.log, x.answer = resolve x.cls
  counted : s.cache.hits + s.cache.misses = s.log.length
  classes : s.cache.classes = recent s.found

theorem Inv.answered (h : s.Inv resolve) {x : Lookup} {c : InlineCache}
    (hx : Answers resolve x.cls s.cache x.answer c)
    (searching : ThreadId → Option ClassId) : Inv resolve ⟨c, searching, x :: s.log⟩ := by
  refine ⟨hx.resolves, List.forall_mem_cons.mpr ⟨hx.answer, h.answers⟩, ?_, ?_⟩
  · rw [hx.counted, h.counted, List.length_cons]
  · rw [hx.classes, used, ← hx.answer, h.classes]
    cases hanswer : x.answer <;> simp [hanswer, found, recent]

theorem Inv.step (h : s.Inv resolve) (hs : Step resolve s s') : s'.Inv resolve := by
  cases hs with
  | hit t cls hidle hm => exact h.answered (h.resolves.peek hm) _
  | miss t cls => exact ⟨h.resolves, h.answers, h.counted, h.classes⟩
  | @search t cls hcls => exact h.answered (h.resolves.search cls) _

theorem inv_new (member : MemberRef) (index : Nat) :
    Inv resolve { cache := { member, index } } := by
  have hchained : Chained { member, index } [0] :=
    ⟨.node rfl (.here none), .refl _, List.nodup_nil, fun i hi _ => by rw [List.mem_singleton.mp hi]⟩
  refine ⟨⟨hchained.chain ▸ hchained, fun i e he => ?_⟩, nofun, rfl, rfl⟩
  cases i <;> cases he

theorem Execution.trans {s'' : Site} (h : Execution resolve s s') (h' : Execution resolve s' s'') :
    Execution resolve s s'' :=
  Relation.ReflTransGen.trans h h'

theorem Execution.inv (h : Execution resolve s s') (hs : s.Inv resolve) : s'.Inv resolve := by
  induction h with
  | refl => exact hs
  | tail _ hstep ih => exact ih.step hstep

theorem Execution.lookup (t : ThreadId) (cls : ClassId) (hidle : s.searching t = none) :
    Execution resolve s { s with
      cache := (s.cache.lookup cls fun _ => resolve cls).2.2
      log := ⟨t, cls, (s.cache.lookup cls fun _ => resolve cls).1⟩ :: s.log } := by
  unfold InlineCache.lookup
  cases hm : s.cache.peek cls with
  | some m => exact .single (.hit t cls hidle hm)
  | none =>
    have hback : Function.update (Function.update s.searching t (some cls)) t none =
        s.searching := by
      rw [Function.update_idem, ← hidle, Function.update_eq_self]
    refine .tail (.single (.miss t cls hidle hm)) ?_
    have hsearch : Step resolve { s with searching := Function.update s.searching t (some cls) } _ :=
      .search t (Function.update_self ..)
    rwa [hback] at hsearch

/-- **Inline caches.** Whatever lookups of however many threads, each answers what the resolver gives.
The chain from the head goes once through all nodes and ends; one node has an entry for each class
that was found, in the order of the last lookups; each lookup is counted, one that fails leaves the
chain as it is, and one that is not interrupted is the lookup of the cache. -/
theorem lookups_resolve {member : MemberRef} {index : Nat}
    (h : Execution resolve { cache := { member, index } } s) :
    (∀ x ∈ s.log, x.answer = resolve x.cls) ∧
    (Leads s.cache.nodes (some s.cache.head) s.cache.chain none ∧
      s.cache.chain.Perm (List.range s.cache.nodes.size)) ∧
    (s.cache.classes.Nodup ∧ s.cache.size = s.cache.classes.length ∧
      ∀ cls, cls ∈ s.cache.classes ↔ ∃ x ∈ s.log, x.cls = cls ∧ x.answer.isSome) ∧
    s.cache.hits + s.cache.misses = s.log.length ∧ s.cache.classes = recent s.found ∧
    (∀ s' x, Step resolve s s' → s'.log = x :: s.log → x.answer = none →
      s'.cache.nodes = s.cache.nodes ∧ s'.cache.head = s.cache.head) ∧
    ∀ t cls, s.searching t = none → Execution resolve s { s with
      cache := (s.cache.lookup cls fun _ => resolve cls).2.2
      log := ⟨t, cls, (s.cache.lookup cls fun _ => resolve cls).1⟩ :: s.log } := by
  have hinv := h.inv (inv_new member index)
  have hchained := hinv.resolves.chained
  refine ⟨hinv.answers, ⟨hchained.leads, hchained.whole⟩,
    ⟨hchained.classes ▸ hchained.distinct, hchained.size_eq, fun cls => ?_⟩, hinv.counted,
    hinv.classes, fun s' x hs hlog hnone => ?_, fun t cls => .lookup t cls⟩
  · rw [hinv.classes, mem_recent, found]
    simp only [List.mem_map, List.mem_filter]
    grind
  · cases hs with
    | hit t cls hidle hm => cases hlog; cases hnone
    | miss t cls => exact absurd hlog.symm (List.cons_ne_self _ _)
    | @search t cls hcls =>
      cases hlog
      have hanswers := hinv.resolves.search cls
      exact hanswers.failed (hanswers.answer.symm.trans hnone)

/-- A call site of a method that one class does not have. -/
def area : Site := { cache := { member := ⟨"Shape", "area", "()I"⟩, index := 4 } }

def exceptNine (cls : ClassId) : Option MethodId := if cls = 9 then none else some cls

theorem lookups_resolve_area : ∃ s : Site, Execution exceptNine area s ∧
    s.log.map (·.cls) = [9, 1, 2, 1] ∧ s.cache.classes = [1, 2] ∧ s.cache.size = 2 ∧
    s.cache.hits + s.cache.misses = 4 := by
  have hrun : Execution exceptNine area _ :=
    (((Execution.lookup 1 1 rfl).trans (Execution.lookup 1 2 rfl)).trans
      (Execution.lookup 2 1 rfl)).trans (Execution.lookup 1 9 rfl)
  obtain ⟨-, -, ⟨-, hsize, -⟩, hcount, hrecent, -⟩ := lookups_resolve hrun
  have hclasses : _ = [1, 2] := hrecent.trans (by decide)
  exact ⟨_, hrun, rfl, hclasses, hsize.trans (congrArg List.length hclasses), hcount⟩

end Site

end ManagedCore.InlineCache
