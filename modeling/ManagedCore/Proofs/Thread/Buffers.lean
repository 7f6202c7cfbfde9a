import ManagedCore.Thread.Frames
import ManagedCore.Thread.HandlerChain
import Mathlib.Data.List.Basic

/-!
# Nested buffers

The buffers on a chain are dropped in the opposite order of their making, and a live one may be
relinked at any time. Links lead downwards throughout, so the records can be listed. A buffer that
was never relinked gives back, when it is dropped, what it found when it was made.
-/

namespace ManagedCore.HandlerChain

open List

variable {c : HandlerChain} {i n : Nat}

/-- The listing of records as it goes, from a place on. -/
inductive Lists (c : HandlerChain) : Option Nat → List HandlerRecord → Prop
  | done {cursor : Option Nat} (h : cursor.bind (c.storage[·]?) = none) : Lists c cursor []
  | next {cursor : Option Nat} {r : HandlerRecord} {rs : List HandlerRecord}
      (h : cursor.bind (c.storage[·]?) = some r) (hrest : Lists c r.previous rs) :
      Lists c cursor (r :: rs)

/-- The head and all links lead to places below. -/
structure Descends (c : HandlerChain) : Prop where
  head : ∀ i, c.head = some i → i < c.storage.size
  previous : ∀ (i : Nat) (r : HandlerRecord), c.storage[i]? = some r →
    ∀ p, r.previous = some p → p < i

theorem Descends.lists (h : c.Descends) {cursor : Option Nat}
    (hcursor : ∀ i, cursor = some i → i < n) : c.Lists cursor (c.recordsFrom n cursor) := by
  induction n generalizing cursor with
  | zero =>
    cases cursor with
    | none => exact .done rfl
    | some i => exact absurd (hcursor i rfl) (Nat.not_lt_zero i)
  | succ n ih =>
    unfold recordsFrom
    split
    · exact .done ‹_›
    · rename_i r hr
      refine .next hr (ih fun p hp => ?_)
      obtain ⟨i, rfl, hi⟩ := Option.bind_eq_some_iff.mp hr
      have := h.previous i r hi p hp
      have := hcursor i rfl
      omega

/-! ## Acts -/

inductive Act where
  | push (handler : Option MethodId) (isolate : IsolateId) (frame : Nat)
  | relink (index : Nat) (previous : Option Nat)
  | drop

/-- What an act makes of the record at a place, as long as its buffer lives. -/
def Act.relinkAt (i : Nat) (r : HandlerRecord) : Act → HandlerRecord
  | relink index previous => if index = i ∧ previous.all (· < i) then { r with previous } else r
  | _ => r

theorem getElem?_setPrevious (index : Nat) (previous : Option Nat) :
    (c.setPrevious index previous).storage[i]? =
      (c.storage[i]?).map (Act.relinkAt i · (.relink index previous)) := by
  unfold setPrevious Act.relinkAt
  grind

theorem getElem?_link (handler : Option MethodId) (isolate : IsolateId) (frame : Nat) :
    (c.link handler isolate frame).storage[i]? =
      if i = c.storage.size then some ⟨handler, isolate, c.head, frame⟩ else c.storage[i]? :=
  Array.getElem?_push

theorem getElem?_unlink : (c.unlink n).storage[i]? = if i < n then c.storage[i]? else none := by
  simp [unlink]
  grind

/-- A chain with the places of its live buffers, innermost first. -/
structure Buffers where
  chain : HandlerChain := {}
  live : List Nat := []

namespace Buffers

variable {s : Buffers} {a : Act} {acts : List Act}

/-- A buffer is relinked only while it lives, and the innermost one is dropped. -/
def act (s : Buffers) : Act → Buffers
  | .push handler isolate frame =>
    ⟨s.chain.link handler isolate frame, s.chain.storage.size :: s.live⟩
  | .relink index previous =>
    if index ∈ s.live then { s with chain := s.chain.setPrevious index previous } else s
  | .drop =>
    match s.live with
    | [] => s
    | index :: rest => ⟨s.chain.unlink index, rest⟩

def run (s : Buffers) (acts : List Act) : Buffers := acts.foldl act s

theorem run_snoc : s.run (acts ++ [a]) = (s.run acts).act a := by simp [run]

/-- The live buffers fill the storage. -/
structure Nested (s : Buffers) : Prop where
  descends : s.chain.Descends
  live : s.live = (range s.chain.storage.size).reverse

section

variable (h : s.Nested)

include h

theorem Nested.length : s.live.length = s.chain.storage.size := by simp [h.live]

theorem Nested.drop_zero (hsize : s.chain.storage.size = 0) : s.act .drop = s := by
  simp [act, h.live, hsize]

theorem Nested.drop_succ (hsize : s.chain.storage.size = n + 1) :
    s.act .drop = ⟨s.chain.unlink n, (range n).reverse⟩ := by
  simp [act, h.live, hsize, range_succ]

theorem Nested.act (a : Act) : (s.act a).Nested := by
  have ⟨⟨hhead, hprevious⟩, hlive⟩ := h
  cases a with
  | push handler isolate frame =>
    refine ⟨⟨by simp [Buffers.act, link], fun i r hr => ?_⟩, ?_⟩
    · rw [Buffers.act, getElem?_link] at hr
      grind
    · simp [Buffers.act, link, hlive, range_succ]
  | relink index previous =>
    unfold Buffers.act setPrevious
    dsimp only
    split
    · refine ⟨⟨?_, fun i r hr => ?_⟩, ?_⟩ <;> grind
    · exact h
  | drop =>
    cases hsize : s.chain.storage.size with
    | zero => rwa [h.drop_zero hsize]
    | succ n =>
      rw [h.drop_succ hsize]
      have hn : (s.chain.unlink n).storage.size = n := by simp [unlink, hsize]
      refine ⟨⟨fun i hi => ?_, fun i r hr => ?_⟩, by rw [hn]⟩
      · unfold unlink at hi
        grind
      · rw [getElem?_unlink] at hr
        grind

theorem Nested.run (acts : List Act) : (s.run acts).Nested := by
  induction acts generalizing s with
  | nil => exact h
  | cons a acts ih => exact ih (h.act a)

/-! ## Records of live buffers -/

/-- As long as a buffer lives, its record changes only by its own links. -/
theorem Nested.getElem?_act (hi : i < s.live.length) (hi' : i < (s.act a).live.length) :
    (s.act a).chain.storage[i]? = (s.chain.storage[i]?).map (Act.relinkAt i · a) := by
  rw [h.length] at hi
  cases a with
  | push => simp [Buffers.act, getElem?_link, Act.relinkAt, Nat.ne_of_lt hi]
  | relink index previous =>
    unfold Buffers.act
    dsimp only
    split
    · exact getElem?_setPrevious index previous
    · rename_i hnot
      have hne : index ≠ i := by
        rintro rfl
        exact hnot (by simp [h.live, hi])
      simp [Act.relinkAt, hne]
  | drop =>
    obtain ⟨n, hn⟩ := Nat.exists_eq_add_one_of_ne_zero (Nat.ne_zero_of_lt hi)
    rw [h.drop_succ hn] at hi' ⊢
    simp_all [getElem?_unlink, Act.relinkAt]

theorem Nested.getElem?_run (hlive : ∀ acts', acts' <+: acts → i < (s.run acts').live.length) :
    (s.run acts).chain.storage[i]? = (s.chain.storage[i]?).map (acts.foldl (Act.relinkAt i) ·) := by
  induction acts generalizing s with
  | nil => simp [Buffers.run]
  | cons a acts ih =>
    have hstep := h.getElem?_act (hlive [] nil_prefix) (hlive [a] (by simp))
    have hrest := ih (h.act a) fun acts' hpre => hlive (a :: acts') (by simpa using hpre)
    rwa [hstep, Option.map_map] at hrest

end

theorem foldl_relinkAt (h : ∀ p, .relink i p ∉ acts) (r : HandlerRecord) :
    acts.foldl (Act.relinkAt i) r = r := by
  induction acts with
  | nil => rfl
  | cons a acts ih =>
    have ha : Act.relinkAt i r a = r := by
      cases a with
      | relink index previous =>
        have hne : index ≠ i := by
          rintro rfl
          exact h previous mem_cons_self
        simp [Act.relinkAt, hne]
      | _ => rfl
    rw [foldl_cons, ha]
    exact ih fun p hp => h p (mem_cons_of_mem a hp)

/-! ## Without links -/

/-- Each record is linked to the one below. -/
structure Stacked (c : HandlerChain) : Prop where
  head : c.head = Walker.below c.storage.size
  previous : ∀ (i : Nat) (r : HandlerRecord), c.storage[i]? = some r → r.previous = Walker.below i

theorem Stacked.act (hs : Stacked s.chain) (h : s.Nested) (ha : ∀ i p, a ≠ .relink i p) :
    Stacked (s.act a).chain := by
  cases a with
  | relink index previous => exact absurd rfl (ha index previous)
  | push =>
    refine ⟨by simp [Buffers.act, link, Walker.below], fun i r hr => ?_⟩
    rw [Buffers.act, getElem?_link] at hr
    grind [hs.head, hs.previous]
  | drop =>
    cases hsize : s.chain.storage.size with
    | zero => rwa [h.drop_zero hsize]
    | succ n =>
      rw [h.drop_succ hsize]
      have hlast := hs.previous n _ (Array.getElem?_eq_getElem (hsize ▸ Nat.lt_succ_self n))
      refine ⟨by simp [unlink, hsize, hlast], fun i r hr => ?_⟩
      rw [getElem?_unlink] at hr
      grind [hs.previous]

theorem Stacked.run (hs : Stacked s.chain) (h : s.Nested) (hacts : ∀ i p, .relink i p ∉ acts) :
    Stacked (s.run acts).chain := by
  induction acts generalizing s with
  | nil => exact hs
  | cons a acts ih =>
    exact ih (hs.act h fun i p ha => hacts i p (ha ▸ mem_cons_self)) (h.act a)
      fun i p hp => hacts i p (mem_cons_of_mem a hp)

theorem Stacked.recordsFrom (h : Stacked c) {fuel : Nat} (hn : n ≤ c.storage.size)
    (hfuel : n ≤ fuel) : (c.recordsFrom fuel (Walker.below n)).map some =
      (range n).reverse.map (c.storage[·]?) := by
  induction n generalizing fuel with
  | zero => cases fuel <;> simp [HandlerChain.recordsFrom, Walker.below]
  | succ n ih =>
    obtain ⟨fuel, rfl⟩ := Nat.exists_eq_add_one_of_ne_zero (Nat.ne_zero_of_lt hfuel)
    have hr := Array.getElem?_eq_getElem hn
    have hrest := ih (Nat.le_of_succ_le hn) (Nat.le_of_succ_le_succ hfuel)
    simp [HandlerChain.recordsFrom, Walker.below.eq_2, hr, h.previous n _ hr, hrest,
      range_succ]

/-- In every state the head and the links lead downwards, so that the listing of the records comes
to an end. A buffer that is innermost again and was not relinked gives back the head and the storage
that it found, and each older record has changed by its own links only. Without links the records
are those of the live buffers, innermost first. -/
theorem buffers_nest (acts : List Act) :
    let s := run {} acts
    let size := s.chain.storage.size
    (s.chain.Descends ∧ s.chain.Lists s.chain.head s.chain.records) ∧
    (∀ handler isolate frame inner, let pushed := Act.push handler isolate frame
      (∀ inner', inner' <+: inner → size < (s.run (pushed :: inner')).live.length) →
      (s.run (pushed :: inner)).live = size :: s.live → (∀ p, .relink size p ∉ inner) →
      let after := s.run (pushed :: inner ++ [.drop])
      after.chain.head = s.chain.head ∧ after.chain.storage.size = size ∧ ∀ i < size,
        after.chain.storage[i]? = (s.chain.storage[i]?).map (inner.foldl (Act.relinkAt i) ·)) ∧
    ((∀ i p, .relink i p ∉ acts) → s.chain.depth = s.live.length ∧
      s.chain.records.map some = s.live.map (s.chain.storage[·]?)) := by
  have hempty : Nested {} := ⟨⟨nofun, by simp⟩, rfl⟩
  have h := hempty.run acts
  refine ⟨⟨h.descends, h.descends.lists h.descends.head⟩, ?_, fun hacts => ?_⟩
  · intro handler isolate frame inner pushed hinner hlast hlink
    generalize run {} acts = s at *
    have hmid := h.run (pushed :: inner)
    have hsize := hmid.length
    rw [hlast, List.length_cons, h.length] at hsize
    have hrecord : ∀ i ≤ s.chain.storage.size, (s.run (pushed :: inner)).chain.storage[i]? =
        ((s.act pushed).chain.storage[i]?).map (inner.foldl (Act.relinkAt i) ·) := fun i hi =>
      (h.act pushed).getElem?_run fun inner' hpre => Nat.lt_of_le_of_lt hi (hinner inner' hpre)
    have hself := hrecord _ (Nat.le_refl _)
    simp only [pushed, Buffers.act, getElem?_link, if_pos, Option.map_some,
      foldl_relinkAt hlink] at hself
    rw [run_snoc, hmid.drop_succ hsize.symm]
    refine ⟨by simp [unlink, pushed, hself], by simp [unlink, ← hsize], fun i hi => ?_⟩
    rw [getElem?_unlink, if_pos hi, hrecord i (Nat.le_of_lt hi), Buffers.act, getElem?_link,
      if_neg (Nat.ne_of_lt hi)]
  · have hstacked : Stacked (run {} acts).chain := Stacked.run ⟨rfl, by simp⟩ hempty hacts
    have hrecords := hstacked.recordsFrom (Nat.le_refl _) (Nat.le_refl _)
    rw [← hstacked.head, ← h.live] at hrecords
    refine ⟨?_, hrecords⟩
    have hlength := congrArg List.length hrecords
    rwa [List.length_map, List.length_map] at hlength

end Buffers

end ManagedCore.HandlerChain
