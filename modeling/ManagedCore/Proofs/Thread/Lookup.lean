import ManagedCore.Thread.Basic

/-!
# Looking up threads after a change

A change of one thread that keeps its number is seen by a lookup of that thread and by no other, and
changes of one thread add up.
-/

namespace ManagedCore.Threads

variable {f : Thread → Thread} {id : ThreadId} {ts : Threads} {g : Thread → Thread} {k : ThreadId}

/-- The place of the thread with a number. -/
def place? (ts : Threads) (id : ThreadId) : Option Nat := ts.members.findIdx? (·.id == id)

theorem place?_eq : ts.place? id = ts.ids.findIdx? (· == id) := by
  rw [ids, List.findIdx?_map, ← List.findIdx?_toArray]
  rfl

theorem find?_eq : ts.find? id = (ts.place? id).bind (ts.members[·]?) := by
  rw [find?, Array.find?_eq_map_findFinIdx?_getElem, place?, Array.findIdx?_eq_map_findFinIdx?_val]
  cases ts.members.findFinIdx? (·.id == id) <;> simp

theorem getElem?_modify (i : Nat) : (ts.modify id f).members[i]? =
    if ts.place? id = some i then (ts.members[i]?).map f else ts.members[i]? := by
  unfold modify place?
  cases ts.members.findIdx? (·.id == id) with
  | none => rfl
  | some j => simp [Array.getElem?_modify]

theorem nextId_modify (id : ThreadId) : (ts.modify id f).nextId = ts.nextId := by
  unfold modify
  split <;> rfl

theorem modify_ext {ts' : Threads} (hnext : ts'.nextId = ts.nextId)
    (h : ∀ i : Nat, (ts.modify id f).members[i]? = ts'.members[i]?) : ts.modify id f = ts' := by
  have hnext := (nextId_modify (f := f) id).trans hnext.symm
  have hmembers := Array.ext_getElem? h
  generalize ts.modify id f = ts at *
  cases ts
  cases ts'
  simp_all

theorem ids_modify (ts : Threads) (id : ThreadId) (hf : ∀ t, (f t).id = t.id) :
    (ts.modify id f).ids = ts.ids := by
  refine List.ext_getElem? fun i => ?_
  simp only [ids, List.getElem?_map, Array.getElem?_toList, getElem?_modify]
  split
  · simp [Function.comp_def, hf]
  · rfl

theorem place?_modify (ts : Threads) (id k : ThreadId) (hf : ∀ t, (f t).id = t.id) :
    (ts.modify id f).place? k = ts.place? k := by
  rw [place?_eq, place?_eq, ts.ids_modify id hf]

theorem find?_modify_self (ts : Threads) (id : ThreadId) (hf : ∀ t, (f t).id = t.id) :
    (ts.modify id f).find? id = (ts.find? id).map f := by
  rw [find?_eq, find?_eq, ts.place?_modify id id hf]
  cases hi : ts.place? id with
  | none => rfl
  | some i => exact (getElem?_modify i).trans (if_pos hi)

theorem find?_modify_ne (ts : Threads) (hf : ∀ t, (f t).id = t.id) (hne : k ≠ id) :
    (ts.modify id f).find? k = ts.find? k := by
  rw [find?_eq, find?_eq, ts.place?_modify id k hf]
  cases hk : ts.place? k with
  | none => rfl
  | some i =>
    refine (getElem?_modify i).trans (if_neg fun hi => hne ?_)
    obtain ⟨_, hk, _⟩ := Array.findIdx?_eq_some_iff_getElem.mp hk
    obtain ⟨_, hid, _⟩ := Array.findIdx?_eq_some_iff_getElem.mp hi
    exact (eq_of_beq hk).symm.trans (eq_of_beq hid)

theorem find?_modify (ts : Threads) (id k : ThreadId) (hf : ∀ t, (f t).id = t.id) :
    (ts.modify id f).find? k = if k = id then (ts.find? id).map f else ts.find? k := by
  by_cases hk : k = id
  · rw [if_pos hk, hk, ts.find?_modify_self id hf]
  · rw [if_neg hk, ts.find?_modify_ne hf hk]

theorem modify_self (h : ∀ t, ts.find? id = some t → f t = t) : ts.modify id f = ts := by
  refine modify_ext rfl fun i => ?_
  rw [getElem?_modify]
  split
  · rename_i hi
    rw [find?_eq, hi] at h
    exact (Option.map_congr h).trans Option.map_id'
  · rfl

theorem modify_congr (h : ∀ t, ts.find? id = some t → f t = g t) :
    ts.modify id f = ts.modify id g := by
  refine modify_ext (nextId_modify id) fun i => ?_
  rw [getElem?_modify, getElem?_modify]
  split
  · rename_i hi
    rw [find?_eq, hi] at h
    exact Option.map_congr h
  · rfl

theorem modify_modify (ts : Threads) (id : ThreadId) (hf : ∀ t, (f t).id = t.id) :
    (ts.modify id f).modify id g = ts.modify id (fun t => g (f t)) := by
  refine modify_ext ((nextId_modify id).trans (nextId_modify id).symm) fun i => ?_
  rw [getElem?_modify, ts.place?_modify id id hf, getElem?_modify, getElem?_modify]
  split
  · exact Option.map_map ..
  · rfl

theorem mem_ids_iff : k ∈ ts.ids ↔ (ts.find? k).isSome := by
  rw [find?]
  simp [ids]

section

variable (hf : ∀ t, (f t).id = t.id)

include hf

theorem ids_modifyAll (ts : Threads) (l : List ThreadId) : (ts.modifyAll f l).ids = ts.ids := by
  induction l generalizing ts with
  | nil => rfl
  | cons id l ih => exact (ih _).trans (ts.ids_modify id hf)

theorem find?_modifyAll (ts : Threads) {l : List ThreadId} (hn : l.Nodup) (k : ThreadId) :
    (ts.modifyAll f l).find? k = if k ∈ l then (ts.find? k).map f else ts.find? k := by
  unfold modifyAll
  induction l generalizing ts with
  | nil => rfl
  | cons id l ih =>
    obtain ⟨hnot, hn⟩ := List.nodup_cons.mp hn
    rw [List.foldl_cons, ih _ hn, ts.find?_modify id k hf]
    by_cases hk : k = id
    · rw [if_neg (hk ▸ hnot), if_pos hk, if_pos (by simp [hk]), hk]
    · simp [hk]

theorem find?_modifyAll_ids (hn : ts.ids.Nodup) (k : ThreadId) :
    (ts.modifyAll f ts.ids).find? k = (ts.find? k).map f := by
  rw [ts.find?_modifyAll hf hn]
  split
  · rfl
  · rename_i hk
    rw [mem_ids_iff, Bool.not_eq_true, Option.isSome_eq_false_iff, Option.isNone_iff_eq_none] at hk
    rw [hk]
    rfl

end

end ManagedCore.Threads
