import ManagedCore.InlineCache
import Mathlib.Data.List.Perm.Basic

/-!
# Chains of inline caches

The nodes of a call site form one chain, however often they are moved to the front. In the order of
the chain, a lookup puts the entry of its class in front of the others.
-/

namespace ManagedCore.InlineCache

open List

variable {c : InlineCache} {nodes : Array CacheNode} {p q : Option Nat} {i b : Nat} {ids : List Nat}
  {cls : ClassId} {m : MethodId} {fuel : Nat} {front back : List Nat}

/-! ## Links -/

/-- The pointer leads through the nodes to a second pointer. -/
inductive Leads (nodes : Array CacheNode) : Option Nat → List Nat → Option Nat → Prop where
  | here (p : Option Nat) : Leads nodes p [] p
  | node {i : Nat} {n : CacheNode} {ids : List Nat} {q : Option Nat} : nodes[i]? = some n →
      Leads nodes n.next ids q → Leads nodes (some i) (i :: ids) q

theorem leads_append {ids' : List Nat} : Leads nodes p (ids ++ ids') q ↔
    ∃ mid, Leads nodes p ids mid ∧ Leads nodes mid ids' q := by
  induction ids generalizing p with
  | nil => exact ⟨fun h => ⟨p, .here p, h⟩, fun ⟨_, .here _, h⟩ => h⟩
  | cons i ids ih =>
    constructor
    · rintro (_ | ⟨hi, h⟩)
      obtain ⟨mid, h, h'⟩ := ih.mp h
      exact ⟨mid, .node hi h, h'⟩
    · rintro ⟨mid, _ | ⟨hi, h⟩, h'⟩
      exact .node hi (ih.mpr ⟨mid, h, h'⟩)

theorem Leads.congr {nodes' : Array CacheNode} (h : Leads nodes p ids q)
    (hsame : ∀ i ∈ ids, nodes'[i]?.map (·.next) = nodes[i]?.map (·.next)) :
    Leads nodes' p ids q := by
  induction h with
  | here p => exact .here p
  | @node i n ids q hi _ ih =>
    obtain ⟨n', hi', hnext⟩ := Option.map_eq_some_iff.mp
      ((hsame i mem_cons_self).trans (congrArg _ hi))
    exact .node hi' (hnext ▸ ih fun j hj => hsame j (mem_cons_of_mem _ hj))

theorem Leads.follow (h : Leads nodes p ids none) (hfuel : ids.length ≤ fuel) :
    follow nodes fuel p = ids := by
  induction ids generalizing p fuel with
  | nil => cases h; cases fuel <;> rfl
  | cons i ids ih =>
    obtain _ | ⟨hi, h⟩ := h
    cases fuel with
    | zero => cases hfuel
    | succ fuel => rw [InlineCache.follow, hi]; exact congrArg _ (ih h (Nat.le_of_succ_le_succ hfuel))

theorem Leads.seek (h : Leads nodes p ids none) (hfuel : ids.length ≤ fuel)
    (cls : ClassId) (before : Option Nat) : (seek nodes cls fuel before p = none ∧
        ∀ i ∈ ids, nodes[i]?.bind (·.target? cls) = none) ∨
      ∃ front i back m, ids = front ++ i :: back ∧ nodes[i]?.bind (·.target? cls) = some m ∧
        (∀ j ∈ front, nodes[j]?.bind (·.target? cls) = none) ∧
        seek nodes cls fuel before p = some (front.getLast?.or before, i, m) := by
  induction ids generalizing p fuel before with
  | nil => cases h; cases fuel <;> exact .inl ⟨rfl, nofun⟩
  | cons i ids ih =>
    obtain _ | ⟨hi, h⟩ := h
    rename_i n
    cases fuel with
    | zero => cases hfuel
    | succ fuel =>
      have hnode : nodes[i]?.bind (·.target? cls) = n.target? cls := by rw [hi]; rfl
      rw [InlineCache.seek, hi]
      cases htarget : n.target? cls with
      | some m => exact .inr ⟨[], i, ids, m, rfl, hnode.trans htarget, nofun, by simp [htarget]⟩
      | none =>
        simp only [htarget]
        rcases ih h (Nat.le_of_succ_le_succ hfuel) (some i) with ⟨hnone, hall⟩ |
          ⟨front, j, back, m, rfl, hj, hfront, hseek⟩
        · exact .inl ⟨hnone, forall_mem_cons.mpr ⟨hnode.trans htarget, hall⟩⟩
        · refine .inr ⟨i :: front, j, back, m, rfl, hj,
            forall_mem_cons.mpr ⟨hnode.trans htarget, hfront⟩, hseek.trans ?_⟩
          cases front <;> simp [getLast?_cons]

theorem getElem?_setNext (nodes : Array CacheNode) (i : Nat) (next : Option Nat) (j : Nat) :
    (setNext nodes i next)[j]? = if i = j then nodes[j]?.map ({ · with next }) else nodes[j]? :=
  Array.getElem?_modify

/-! ## Entries -/

theorem target?_eq_some {n : CacheNode} : n.target? cls = some m ↔ n.entry = some (cls, m) := by
  unfold CacheNode.target?
  split <;> grind

theorem target_iff {i : Nat} :
    c.nodes[i]?.bind (·.target? cls) = some m ↔ c.pair? i = some (cls, m) := by
  cases hi : c.nodes[i]? <;> simp [pair?, hi, target?_eq_some]

theorem entry_promote (before : Option Nat) (i j : Nat) :
    (c.promote before i).pair? j = c.pair? j := by
  cases before with
  | none => rfl
  | some b =>
    simp only [promote, pair?, getElem?_setNext]
    split <;> split <;> cases c.nodes[j]? <;> rfl

theorem entry_remember {j : Nat} {e : ClassId × MethodId}
    (h : (c.remember cls m).pair? j = some e) : e = (cls, m) ∨ c.pair? j = some e := by
  unfold remember at h
  split at h
  · simp only [pair?, Array.getElem?_modify] at h
    split at h
    · cases hj : c.nodes[j]? <;> simp_all
    · exact .inr h
  · simp only [pair?, Array.getElem?_push] at h
    split at h
    · simp_all
    · exact .inr h

theorem seek_entry {before : Option Nat} {found : Option Nat × Nat × MethodId}
    (h : seek c.nodes cls fuel before p = some found) : c.pair? found.2.1 = some (cls, found.2.2) := by
  fun_induction seek c.nodes cls fuel before p with
  | case1 fuel before i n hi m hm =>
    cases h
    exact target_iff.mp (by rw [hi]; exact hm)
  | case2 fuel before i n hi hm ih => exact ih h
  | case3 => cases h
  | case4 => cases h

section

variable {P : ClassId × MethodId → Prop} (resolve : Unit → Option MethodId)
  (h : ∀ i e, c.pair? i = some e → P e) (hnew : ∀ m, resolve () = some m → P (cls, m))
include h hnew

/-- What holds of all entries of a cache and of the one that is resolved holds of the answer, and of
the entries afterwards. -/
theorem search_entries : ((∃ m, P (cls, m) ∧ (c.search cls resolve).1 = some m) ∨
        (c.search cls resolve).1 = resolve ()) ∧
      ∀ i e, (c.search cls resolve).2.2.pair? i = some e → P e := by
  unfold search
  split
  · rename_i before i m hseek
    refine ⟨.inl ⟨m, h i _ (seek_entry hseek), rfl⟩, fun j e he => h j e ?_⟩
    exact (entry_promote before i j).symm.trans he
  · split
    · rename_i hnone
      exact ⟨.inr hnone.symm, h⟩
    · rename_i m hm
      refine ⟨.inr hm.symm, fun j e he => ?_⟩
      rcases entry_remember he with rfl | hold
      · exact hnew m hm
      · exact h j e hold

theorem lookup_entries : ((∃ m, P (cls, m) ∧ (c.lookup cls resolve).1 = some m) ∨
        (c.lookup cls resolve).1 = resolve ()) ∧
      ∀ i e, (c.lookup cls resolve).2.2.pair? i = some e → P e := by
  unfold lookup
  split
  · rename_i m hpeek
    exact ⟨.inl ⟨m, h _ _ (target_iff.mp hpeek), rfl⟩, h⟩
  · exact search_entries resolve h hnew

end

theorem member_lookup (resolve : Unit → Option MethodId) :
    (c.lookup cls resolve).2.2.member = c.member := by
  unfold lookup search promote remember
  grind

/-! ## Whole chains -/

/-- The nodes are all nodes of the cache, in the order of its chain; at most one entry has the same
class, and a node without entry is alone. -/
structure Chained (c : InlineCache) (ids : List Nat) : Prop where
  leads : Leads c.nodes (some c.head) ids none
  whole : ids.Perm (range c.nodes.size)
  distinct : ((ids.filterMap c.pair?).map (·.1)).Nodup
  blank : ∀ i ∈ ids, c.pair? i = none → ids = [i]

namespace Chained

section

variable (h : c.Chained ids)

include h

theorem length : ids.length = c.nodes.size := by rw [h.whole.length_eq, length_range]

theorem chain : c.chain = ids := h.leads.follow (Nat.le_of_eq h.length)

theorem classes : c.classes = (ids.filterMap c.pair?).map (·.1) := by
  rw [InlineCache.classes, entries, h.chain]

theorem nodup : ids.Nodup := h.whole.nodup_iff.mpr nodup_range

theorem lt (hi : i ∈ ids) : i < c.nodes.size := mem_range.mp (h.whole.subset hi)

theorem head_mem : c.head ∈ ids := by
  obtain _ | _ := h.leads
  exact mem_cons_self

end

theorem promote (h : c.Chained (front ++ b :: i :: back)) :
    (c.promote (some b) i).Chained (i :: (front ++ b :: back)) := by
  have hentry : (c.promote (some b) i).pair? = c.pair? := funext (entry_promote _ i)
  have hperm : (front ++ b :: i :: back).Perm (i :: (front ++ b :: back)) := by grind
  have hnodup : (i :: (front ++ b :: back)).Nodup := hperm.nodup_iff.mp h.nodup
  refine ⟨?_, ?_, ?_, fun j hj hnone => ?_⟩
  · obtain ⟨mid, hfront, hrest⟩ := leads_append.mp h.leads
    obtain _ | ⟨hb, hrest⟩ := hrest
    rename_i nb
    generalize hnext : nb.next = next at hrest
    obtain _ | ⟨hi, hback⟩ := hrest
    rename_i ni
    -- pointers change in the two nodes only
    have hnodes : ∀ j, (c.promote (some b) i).nodes[j]?.map (·.next) =
        if i = j then some (some c.head) else if b = j then some ni.next
        else c.nodes[j]?.map (·.next) := by
      simp only [InlineCache.promote, getElem?_setNext]
      grind
    have hsame : ∀ {p q ids}, Leads c.nodes p ids q → (∀ j ∈ ids, i ≠ j ∧ b ≠ j) →
        Leads (c.promote (some b) i).nodes p ids q := fun hl hne =>
      hl.congr fun j hj => by rw [hnodes, if_neg (hne j hj).1, if_neg (hne j hj).2]
    obtain ⟨ni', hi', hnexti⟩ := Option.map_eq_some_iff.mp ((hnodes i).trans (if_pos rfl))
    obtain ⟨nb', hb', hnextb⟩ := Option.map_eq_some_iff.mp
      ((hnodes b).trans ((if_neg (by grind)).trans (if_pos rfl)))
    refine .node hi' (hnexti ▸ leads_append.mpr ⟨some b, hsame hfront (by grind), ?_⟩)
    exact .node hb' (hnextb ▸ hsame hback (by grind))
  · refine hperm.symm.trans (h.whole.trans (.of_eq ?_))
    simp [InlineCache.promote, setNext]
  · rw [hentry]
    exact ((hperm.filterMap _).map _).nodup_iff.mp h.distinct
  · rw [hentry] at hnone
    have := congrArg List.length (h.blank j (hperm.symm.subset hj) hnone)
    simp at this
    omega

theorem push (h : c.Chained ids) (hfull : c.pair? c.head ≠ none) (hnew : cls ∉ c.classes) :
    (c.remember cls m).Chained (c.nodes.size :: ids) ∧
      (c.remember cls m).classes = cls :: c.classes := by
  have hremember : c.remember cls m = { c with
      nodes := c.nodes.push ⟨some (cls, m), some c.head⟩, head := c.nodes.size } := by
    rw [remember, if_neg (by simpa using hfull)]
  have hold : ∀ i ∈ ids, (c.remember cls m).nodes[i]? = c.nodes[i]? := by
    intro i hi
    rw [hremember]
    exact Array.getElem?_push_lt (h.lt hi) ▸ (Array.getElem?_eq_getElem (h.lt hi)).symm
  have hlast : (c.remember cls m).nodes[c.nodes.size]? = some ⟨some (cls, m), some c.head⟩ := by
    rw [hremember]
    exact Array.getElem?_push_size
  have hentries : (c.nodes.size :: ids).filterMap (c.remember cls m).pair? =
      (cls, m) :: ids.filterMap c.pair? := by
    rw [filterMap_cons, pair?, hlast]
    exact congrArg _ (filterMap_congr fun i hi => by rw [pair?, hold i hi, pair?])
  have hchained : (c.remember cls m).Chained (c.nodes.size :: ids) := by
    refine ⟨?_, ?_, ?_, fun j hj hnone => ?_⟩
    · rw [show (c.remember cls m).head = c.nodes.size by rw [hremember]]
      exact .node hlast (h.leads.congr fun i hi => by rw [hold i hi])
    · rw [show (c.remember cls m).nodes.size = c.nodes.size + 1 by rw [hremember]; simp,
        range_succ]
      exact (h.whole.cons _).trans (perm_append_singleton _ _).symm
    · rw [hentries, map_cons, nodup_cons, ← h.classes]
      exact ⟨hnew, h.classes ▸ h.distinct⟩
    · rcases mem_cons.mp hj with rfl | hj
      · rw [pair?, hlast] at hnone
        cases hnone
      · rw [pair?, hold j hj] at hnone
        have hids := h.blank j hj hnone
        have hhead := h.head_mem
        rw [hids, mem_singleton] at hhead
        exact absurd (hhead ▸ hnone) hfull
  exact ⟨hchained, by rw [hchained.classes, hentries, h.classes]; rfl⟩

theorem fill (h : c.Chained ids) (hblank : c.pair? c.head = none) :
    (c.remember cls m).Chained ids ∧ (c.remember cls m).classes = cls :: c.classes := by
  have hids := h.blank _ h.head_mem hblank
  have hremember : c.remember cls m =
      { c with nodes := c.nodes.modify c.head ({ · with entry := some (cls, m) }) } := by
    rw [remember, if_pos (by rw [hblank]; rfl)]
  have hnodes : (c.remember cls m).nodes[c.head]? =
      c.nodes[c.head]?.map ({ · with entry := some (cls, m) }) := by
    rw [hremember]
    exact (Array.getElem?_modify ..).trans (if_pos rfl)
  have hentry : (c.remember cls m).pair? c.head = some (cls, m) := by
    rw [pair?, hnodes, Array.getElem?_eq_getElem (h.lt h.head_mem)]
    rfl
  have hentries : ids.filterMap (c.remember cls m).pair? = [(cls, m)] := by simp [hids, hentry]
  have hchained : (c.remember cls m).Chained ids := by
    refine ⟨?_, ?_, by simp [hentries], fun i hi hnone => ?_⟩
    · rw [show (c.remember cls m).head = c.head by rw [hremember]]
      refine h.leads.congr fun i hi => ?_
      rw [hids, mem_singleton] at hi
      rw [hi, hnodes, Option.map_map]
      rfl
    · rw [show (c.remember cls m).nodes.size = c.nodes.size by rw [hremember]; simp]
      exact h.whole
    · rw [hids, mem_singleton] at hi
      rw [hi, hentry] at hnone
      cases hnone
  refine ⟨hchained, ?_⟩
  rw [hchained.classes, hentries, h.classes]
  simp [hids, hblank]

theorem remember (h : c.Chained ids) (hnew : cls ∉ c.classes) : ∃ ids',
    (c.remember cls m).Chained ids' ∧ (c.remember cls m).classes = cls :: c.classes := by
  by_cases hblank : c.pair? c.head = none
  · exact ⟨_, h.fill hblank⟩
  · exact ⟨_, h.push hblank hnew⟩

end Chained

theorem counts_promote (before : Option Nat) (i : Nat) :
    (c.promote before i).misses = c.misses := by
  cases before <;> rfl

theorem counts_remember : (c.remember cls m).hits + (c.remember cls m).misses =
    c.hits + c.misses := by
  unfold InlineCache.remember
  split <;> rfl

/-! ## Lookups -/

/-- The cache is one chain of what the resolver gives for the classes in it. -/
structure Resolves (c : InlineCache) (resolve : ClassId → Option MethodId) : Prop where
  chained : c.Chained c.chain
  entries : ∀ i e, c.pair? i = some e → resolve e.1 = some e.2

def used (resolve : ClassId → Option MethodId) (cls : ClassId) (l : List ClassId) : List ClassId :=
  if (resolve cls).isSome then cls :: l.filter (· ≠ cls) else l

/-- What a lookup of a class answers and does to the cache. -/
structure Answers (resolve : ClassId → Option MethodId) (cls : ClassId) (c : InlineCache)
    (answer : Option MethodId) (c' : InlineCache) : Prop where
  answer : answer = resolve cls
  resolves : c'.Resolves resolve
  classes : c'.classes = used resolve cls c.classes
  counted : c'.hits + c'.misses = c.hits + c.misses + 1
  failed : resolve cls = none → c'.nodes = c.nodes ∧ c'.head = c.head

variable {resolve : ClassId → Option MethodId}

theorem filter_ne_of_nodup {front back : List ClassId} (h : (front ++ cls :: back).Nodup) :
    (front ++ cls :: back).filter (· ≠ cls) = front ++ back := by
  have hfront : front.filter (· ≠ cls) = front := filter_eq_self.mpr (by grind)
  have hback : back.filter (· ≠ cls) = back := filter_eq_self.mpr (by grind)
  rw [filter_append, filter_cons_of_neg (by simp), hfront, hback]

theorem Resolves.found (h : c.Resolves resolve)
    (hchain : c.chain = front ++ i :: back) (hi : c.pair? i = some (cls, m)) :
    (c.promote front.getLast? i).Chained (i :: (front ++ back)) ∧
      (c.promote front.getLast? i).classes = used resolve cls c.classes := by
  have hchained : (c.promote front.getLast? i).Chained (i :: (front ++ back)) := by
    rcases eq_nil_or_concat front with rfl | ⟨front, b, rfl⟩
    · exact (nil_append _ ▸ hchain) ▸ h.chained
    · rw [concat_eq_append, getLast?_concat, append_assoc]
      have hc := h.chained
      rw [hchain, concat_eq_append, append_assoc] at hc
      exact hc.promote
  refine ⟨hchained, ?_⟩
  have hdistinct := h.chained.distinct
  have hclasses : c.classes = (front.filterMap c.pair?).map (·.1) ++
      cls :: (back.filterMap c.pair?).map (·.1) := by
    rw [h.chained.classes, hchain]
    simp [hi]
  rw [← h.chained.classes, hclasses] at hdistinct
  rw [hchained.classes, used, if_pos (by rw [h.entries i _ hi]; rfl), hclasses,
    filter_ne_of_nodup hdistinct, funext (entry_promote front.getLast? i)]
  simp [hi]

theorem Resolves.search (h : c.Resolves resolve) (cls : ClassId) :
    Answers resolve cls c (c.search cls fun _ => resolve cls).1
      (c.search cls fun _ => resolve cls).2.2 := by
  obtain ⟨hanswer, hentries⟩ := search_entries (P := fun e => resolve e.1 = some e.2)
    (fun _ => resolve cls) h.entries fun _ hm => hm
  have hanswer : (c.search cls fun _ => resolve cls).1 = resolve cls := by
    rcases hanswer with ⟨m, hm, heq⟩ | heq
    · exact heq.trans hm.symm
    · exact heq
  have hresolves : ∀ {ids}, (c.search cls fun _ => resolve cls).2.2.Chained ids →
      (c.search cls fun _ => resolve cls).2.2.Resolves resolve :=
    fun hids => ⟨hids.chain ▸ hids, hentries⟩
  rcases h.chained.leads.seek (Nat.le_of_eq h.chained.length) cls none with
    ⟨hseek, hall⟩ | ⟨front, i, back, m, hchain, hi, -, hseek⟩
  · have hnew : cls ∉ c.classes := by
      intro hmem
      obtain ⟨e, he, rfl⟩ := mem_map.mp hmem
      obtain ⟨i, hi, hentry⟩ := mem_filterMap.mp he
      have hnone := hall i hi
      rw [target_iff.mpr hentry] at hnone
      cases hnone
    have hmissed : Chained { c with misses := c.misses + 1 } c.chain :=
      ⟨h.chained.leads, h.chained.whole, h.chained.distinct, h.chained.blank⟩
    rcases Option.eq_none_or_eq_some (resolve cls) with hm | ⟨m, hm⟩
    · have hsearch : (c.search cls fun _ => resolve cls).2.2 = { c with misses := c.misses + 1 } := by
        rw [InlineCache.search, hseek, hm]
      rw [hsearch] at hresolves ⊢
      refine ⟨hanswer, hresolves hmissed, ?_, rfl, fun _ => ⟨rfl, rfl⟩⟩
      rw [used, hm]
      rfl
    · obtain ⟨ids, hids, hclasses⟩ := hmissed.remember hnew
      have hsearch : (c.search cls fun _ => resolve cls).2.2 =
          { c with misses := c.misses + 1 }.remember cls m := by
        rw [InlineCache.search, hseek, hm]
      rw [hsearch] at hresolves ⊢
      refine ⟨hanswer, hresolves hids, hclasses.trans ?_, counts_remember, fun hnone => ?_⟩
      · have hkept : c.classes.filter (· ≠ cls) = c.classes := filter_eq_self.mpr (by grind)
        rw [used, hm, hkept]
        rfl
      · rw [hm] at hnone
        cases hnone
  · have hi := target_iff.mp hi
    have hfound := h.found hchain hi
    have hsearch : (c.search cls fun _ => resolve cls).2.2 =
        { c.promote front.getLast? i with hits := c.hits + 1 } := by
      rw [InlineCache.search, hseek, Option.or_none]
    have hsome := h.entries i _ hi
    rw [hsearch] at hresolves ⊢
    refine ⟨hanswer, hresolves ⟨hfound.1.leads, hfound.1.whole, hfound.1.distinct, hfound.1.blank⟩,
      hfound.2, ?_, fun hnone => ?_⟩
    · dsimp only
      rw [counts_promote]
      omega
    · rw [hsome] at hnone
      cases hnone

theorem Resolves.peek (h : c.Resolves resolve) (hm : c.peek cls = some m) :
    Answers resolve cls c (some m) { c with hits := c.hits + 1 } := by
  have hhead : c.pair? c.head = some (cls, m) := target_iff.mp hm
  have hsome := h.entries _ _ hhead
  refine ⟨hsome.symm, ⟨⟨h.chained.leads, h.chained.whole, h.chained.distinct, h.chained.blank⟩,
    h.entries⟩, ?_, Nat.add_right_comm .., fun hnone => ?_⟩
  · have hchain : ∃ back, c.chain = [] ++ c.head :: back := by
      obtain ⟨ids, hids⟩ : ∃ ids, c.chain = ids := ⟨_, rfl⟩
      have hleads := h.chained.leads
      rw [hids] at hleads
      cases hleads with
      | node => exact ⟨_, hids⟩
    obtain ⟨back, hback⟩ := hchain
    exact (h.found hback hhead).2
  · rw [hsome] at hnone
    cases hnone

/-- The nodes with an entry are counted once each. -/
theorem Chained.size_eq (h : c.Chained ids) : c.size = c.classes.length := by
  have hnodes : (range c.nodes.size).map (c.nodes[·]?) = c.nodes.toList.map some :=
    ext_getElem (by simp) fun i hi _ => by simp
  have hall : (range c.nodes.size).filterMap c.pair? = c.nodes.toList.filterMap (·.entry) :=
    calc _ = ((range c.nodes.size).map (c.nodes[·]?)).filterMap (·.bind (·.entry)) := by
          rw [filterMap_map]; rfl
      _ = _ := by rw [hnodes, filterMap_map]; rfl
  rw [h.classes, length_map, (h.whole.filterMap _).length_eq, hall,
    length_filterMap_eq_countP, size, ← Array.countP_toList]

end ManagedCore.InlineCache
