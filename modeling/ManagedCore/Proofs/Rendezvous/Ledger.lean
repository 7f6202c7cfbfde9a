import ManagedCore.Proofs.Rendezvous.Steps
import ManagedCore.Proofs.Thread.Lookup

/-!
# The books of a rendezvous

What the flags of the threads and the count of the coordinator say about each other at every stage
of a rendezvous: which threads are asked to yield, which are counted, and under which statuses.
-/

namespace ManagedCore

open List

namespace StopTheWorld

open Rendezvous

def mark (flags : ThreadId → Bool) (id : ThreadId) (b : Bool) : ThreadId → Bool :=
  fun k => if k = id then b else flags k

theorem mark_apply (flags : ThreadId → Bool) (id k : ThreadId) (b : Bool) :
    mark flags id b k = if k = id then b else flags k := rfl

section Flags

variable {ts : Threads} {id : ThreadId} {f : Thread → Thread}

section

variable (hf : ∀ t, (f t).id = t.id) {p : Thread → Bool}

include hf

theorem flag_modify_keep (hp : ∀ t, p (f t) = p t) (k : ThreadId) :
    ((ts.modify id f).find? k).any p = (ts.find? k).any p := by
  rw [ts.find?_modify id k hf]
  split
  · rename_i hk
    subst hk
    cases ts.find? k with
    | none => rfl
    | some t => exact hp t
  · rfl

theorem flag_modify_set {b : Bool} (hp : ∀ t, p (f t) = b)
    (hid : (ts.find? id).isSome) (k : ThreadId) :
    ((ts.modify id f).find? k).any p = if k = id then b else (ts.find? k).any p := by
  rw [ts.find?_modify id k hf]
  split
  · obtain ⟨t, ht⟩ := Option.isSome_iff_exists.mp hid
    rw [ht]
    exact hp t
  · rfl

theorem shouldYield_modify (hy : ∀ t, (f t).yieldFlag = t.yieldFlag) :
    shouldYield (ts.modify id f) = shouldYield ts :=
  funext fun k => flag_modify_keep hf hy k

theorem hasJoined_modify (hj : ∀ t, (f t).joined = t.joined) :
    hasJoined (ts.modify id f) = hasJoined ts :=
  funext fun k => flag_modify_keep hf hj k

theorem regions_modify (hr : ∀ t, (f t).uncooperative = t.uncooperative) :
    regions (ts.modify id f) = regions ts := by
  funext k
  rw [regions, ts.find?_modify id k hf]
  split
  · rename_i hk
    subst hk
    rw [regions]
    cases ts.find? k with
    | none => rfl
    | some t => exact hr t
  · rfl

theorem regions_modify_ne {k : ThreadId} (hk : k ≠ id) :
    regions (ts.modify id f) k = regions ts k := by
  rw [regions, ts.find?_modify_ne hf hk, regions]

theorem regions_modify_self {t : Thread} (ht : ts.find? id = some t) :
    regions (ts.modify id f) id = (f t).uncooperative := by
  rw [regions, ts.find?_modify_self id hf, ht]
  rfl

theorem isSome_find?_modify (k : ThreadId) :
    ((ts.modify id f).find? k).isSome = (ts.find? k).isSome := by
  rw [ts.find?_modify id k hf]
  split
  · rename_i hk
    rw [Option.isSome_map, hk]
  · rfl

end

variable (b : Bool)

theorem shouldYield_setYield (hid : (ts.find? id).isSome) :
    shouldYield (ts.modify id (setYield b)) = mark (shouldYield ts) id b :=
  funext (flag_modify_set (f := setYield b) (fun _ => rfl) (fun _ => rfl) hid)

theorem hasJoined_setYield : hasJoined (ts.modify id (setYield b)) = hasJoined ts :=
  hasJoined_modify (fun _ => rfl) fun _ => rfl

theorem shouldYield_setJoined : shouldYield (ts.modify id (setJoined b)) = shouldYield ts :=
  shouldYield_modify (fun _ => rfl) fun _ => rfl

theorem hasJoined_setJoined (hid : (ts.find? id).isSome) :
    hasJoined (ts.modify id (setJoined b)) = mark (hasJoined ts) id b :=
  funext (flag_modify_set (f := setJoined b) (fun _ => rfl) (fun _ => rfl) hid)

theorem regions_setYield : regions (ts.modify id (setYield b)) = regions ts :=
  regions_modify (fun _ => rfl) fun _ => rfl

theorem regions_setJoined : regions (ts.modify id (setJoined b)) = regions ts :=
  regions_modify (fun _ => rfl) fun _ => rfl

end Flags

/-! ## Counting -/

theorem account_eq (r : Rendezvous) {ts : Threads} {id : ThreadId} {t : Thread}
    (ht : ts.find? id = some t) (status : ThreadStatus) : r.account ts id status =
      (if t.joined then r else r.count.record id status, ts.modify id (setJoined true)) := by
  unfold Rendezvous.account
  simp only [ht]
  split
  · rename_i hj
    rw [Threads.modify_self fun t' ht' => ?_]
    rw [ht] at ht'
    cases ht'
    rw [setJoined, ← hj]
  · rfl

theorem account_keeps (r : Rendezvous) (ts : Threads) (id : ThreadId) (status : ThreadStatus) :
    (r.account ts id status).1.generation = r.generation ∧
      (r.account ts id status).1.phase = r.phase := by
  cases ht : ts.find? id with
  | none => simp only [Rendezvous.account, ht, and_self]
  | some t =>
    rw [account_eq r ht]
    split <;> exact ⟨rfl, rfl⟩

namespace Party

/-- The statuses name the counted threads once each; one that is being recorded is still missing. -/
structure Tally (p : Party) (r : Rendezvous) (counted : ThreadId → Bool)
    (pending : Option ThreadId) : Prop where
  expected : r.expected = p.members.length
  nodup : (r.statuses.map (·.1)).Nodup
  named : ∀ id, id ∈ r.statuses.map (·.1) ↔ counted id = true ∧ pending ≠ some id
  joined : r.joined = r.statuses.length + pending.toList.length
  status : ∀ e ∈ r.statuses, e.2 = .initiator ↔ p.initiator = some e.1

/-- Flags are going up; only the initiator is counted so far. -/
structure Raising (p : Party) (todo : List ThreadId) (up counted : ThreadId → Bool) : Prop where
  suffix : todo <:+ p.members
  up_iff : ∀ id, up id = true ↔ id ∈ p.members ∧ id ∉ todo ∧ p.initiator ≠ some id
  counted_iff : ∀ id, counted id = true ↔ id ∈ p.members ∧ id ∉ todo ∧ p.initiator = some id

/-- Every flag but the initiator's is up. -/
structure Raised (p : Party) (up counted : ThreadId → Bool) : Prop where
  up_iff : ∀ id, up id = true ↔ id ∈ p.members ∧ p.initiator ≠ some id
  counted_mem : ∀ id, counted id = true → id ∈ p.members
  initiator : ∀ id ∈ p.members, p.initiator = some id → counted id = true

/-- Flags are going down, `half` those of which only the count is still up. -/
structure Clearing (p : Party) (half todo : List ThreadId) (o : Outcome)
    (up counted : ThreadId → Bool) : Prop where
  suffix : half ++ todo <:+ p.members
  up_iff : ∀ id, up id = true ↔ id ∈ todo ∧ p.initiator ≠ some id
  counted_mem : ∀ id, counted id = true → id ∈ half ++ todo
  stopped : o = .finished → ∀ id ∈ todo, counted id = true

def Entries (p : Party) (r : Rendezvous) (up counted : ThreadId → Bool) : Stage → Prop
  | .snapshot | .lock | .leave => r.phase = .idle ∧ ∀ id, up id = false ∧ counted id = false
  | .raise todo => r.phase = .requested ∧ p.Raising todo up counted ∧ p.Tally r counted none
  | .scan todo =>
    r.phase = .requested ∧ p.Raised up counted ∧ p.Tally r counted none ∧ todo ⊆ p.members
  | .swap id todo =>
    r.phase = .requested ∧ p.Raised up counted ∧ p.Tally r counted none ∧ id :: todo ⊆ p.members
  | .record id todo =>
    r.phase = .requested ∧ p.Raised up counted ∧ p.Tally r counted (some id) ∧
      counted id = true ∧ p.initiator ≠ some id ∧ todo ⊆ p.members
  | .test | .wait => r.phase = .rendezvousing ∧ p.Raised up counted ∧ p.Tally r counted none
  | .complete statuses =>
    r.phase = .complete ∧ p.Raised up counted ∧ p.Tally r counted none ∧
      (∀ id ∈ p.members, counted id = true) ∧ statuses = r.statuses
  | .relock =>
    r.phase = .complete ∧ p.Raised up counted ∧ p.Tally r counted none ∧
      ∀ id ∈ p.members, counted id = true
  | .clear todo o => r.phase ≠ .idle ∧ p.Clearing [] todo o up counted
  | .clearJoined id todo o => r.phase ≠ .idle ∧ p.Clearing [id] todo o up counted

end Party

def Stage.locked : Stage → Bool
  | raise _ | scan _ | swap _ _ | record _ _ | test | clear _ _ | clearJoined _ _ _ => true
  | _ => false

/-- The books agree with the stage of the rendezvous, if one runs. -/
def Ledger (session : Option Session) (r : Rendezvous) (up counted : ThreadId → Bool) : Prop :=
  match session with
  | none => r.phase = .idle ∧ ∀ id, up id = false ∧ counted id = false
  | some ss => ss.members.Nodup ∧ ss.Entries r up counted ss.stage

namespace Party

variable {p : Party} {r : Rendezvous} {up counted : ThreadId → Bool} {id : ThreadId}
  {todo : List ThreadId} {o : Outcome}

/-! ## Raising the flags -/

theorem Tally.opened (p : Party) (r : Rendezvous) (hc : ∀ id, counted id = false) :
    p.Tally (r.opened p.members.length) counted none where
  expected := rfl
  nodup := nodup_nil
  named id := by simp [Rendezvous.opened, hc id]
  joined := rfl
  status := nofun

theorem Raising.start (hu : ∀ id, up id = false) (hc : ∀ id, counted id = false) :
    p.Raising p.members up counted where
  suffix := suffix_refl _
  up_iff id := ⟨fun h => absurd h (by simp [hu id]), fun h => absurd h.1 h.2.1⟩
  counted_iff id := ⟨fun h => absurd h (by simp [hc id]), fun h => absurd h.1 h.2.1⟩

section

variable (h : p.Raising (id :: todo) up counted) (hn : p.members.Nodup)

include h hn

theorem Raising.head_not_mem : id ∈ p.members ∧ id ∉ todo :=
  ⟨h.suffix.subset mem_cons_self, (nodup_cons.mp (hn.sublist h.suffix.sublist)).1⟩

theorem Raising.raise (hi : p.initiator ≠ some id) : p.Raising todo (mark up id true) counted := by
  obtain ⟨hmem, hnot⟩ := h.head_not_mem hn
  refine ⟨(suffix_cons id todo).trans h.suffix, fun k => ?_, fun k => ?_⟩
  · by_cases hk : k = id
    · simp [mark_apply, hk, hmem, hnot, hi]
    · simp [mark_apply, hk, h.up_iff k]
  · rw [h.counted_iff k]
    by_cases hk : k = id
    · simp [hk, hi]
    · simp [hk]

theorem Raising.count (hi : p.initiator = some id) : p.Raising todo up (mark counted id true) := by
  obtain ⟨hmem, hnot⟩ := h.head_not_mem hn
  refine ⟨(suffix_cons id todo).trans h.suffix, fun k => ?_, fun k => ?_⟩
  · rw [h.up_iff k]
    by_cases hk : k = id
    · simp [hk, hi]
    · simp [hk]
  · by_cases hk : k = id
    · simp [mark_apply, hk, hmem, hnot, hi]
    · simp [mark_apply, hk, h.counted_iff k]

end

theorem Raising.done (h : p.Raising [] up counted) : p.Raised up counted where
  up_iff id := by simp [h.up_iff id]
  counted_mem id hc := ((h.counted_iff id).mp hc).1
  initiator id hm hi := (h.counted_iff id).mpr ⟨hm, not_mem_nil, hi⟩

/-! ## Counting a thread -/

theorem Raised.count (h : p.Raised up counted) (hm : id ∈ p.members) :
    p.Raised up (mark counted id true) where
  up_iff := h.up_iff
  counted_mem k hk := by
    by_cases hki : k = id
    · rw [hki]
      exact hm
    · exact h.counted_mem k (by simpa [mark_apply, hki] using hk)
  initiator k hk hi := by simp [mark_apply, h.initiator k hk hi]

theorem Tally.count (h : p.Tally r counted none) (hc : counted id = false) :
    p.Tally r.count (mark counted id true) (some id) where
  expected := h.expected
  nodup := h.nodup
  named k := by
    change k ∈ r.statuses.map (·.1) ↔ _
    rw [h.named k]
    by_cases hk : k = id
    · simp [hk, hc]
    · simp [mark_apply, hk, Ne.symm hk]
  joined := by
    have := h.joined
    simp only [Rendezvous.count, Option.toList_none, length_nil, Option.toList_some,
      length_singleton] at this ⊢
    omega
  status := h.status

theorem Tally.record (h : p.Tally r counted (some id)) (hc : counted id = true)
    {status : ThreadStatus} (hs : status = .initiator ↔ p.initiator = some id) :
    p.Tally (r.record id status) counted none where
  expected := h.expected
  nodup := by
    have hnew : id ∉ r.statuses.map (·.1) := fun hm => ((h.named id).mp hm).2 rfl
    simp only [Rendezvous.record, map_append, map_cons]
    exact nodup_append.mpr ⟨h.nodup, by simp, fun a ha b hb => by
      rw [mem_singleton.mp hb]
      exact fun heq => hnew (heq ▸ ha)⟩
  named k := by
    simp only [Rendezvous.record, map_append, mem_append, h.named k]
    by_cases hk : k = id
    · simp [hk, hc]
    · simp [hk, Ne.symm hk]
  joined := by
    have := h.joined
    simp only [Rendezvous.record, length_append, Option.toList_none, Option.toList_some] at this ⊢
    omega
  status e he := by
    rcases mem_append.mp he with hold | hnew
    · exact h.status e hold
    · rw [mem_singleton.mp hnew]
      exact hs

section

variable (h : p.Tally r counted none) (hr : p.Raised up counted) (hn : p.members.Nodup)

include h hr hn

/-- Once all are counted, the statuses name the members and no others. -/
theorem Tally.perm (hall : ∀ id ∈ p.members, counted id = true) :
    (r.statuses.map (·.1)).Perm p.members := by
  refine (perm_ext_iff_of_nodup h.nodup hn).mpr fun id => ?_
  rw [h.named id]
  exact ⟨fun hc => hr.counted_mem id hc.1, fun hm => ⟨hall id hm, nofun⟩⟩

theorem Tally.perm_filter : (r.statuses.map (·.1)).Perm (p.members.filter counted) := by
  refine (perm_ext_iff_of_nodup h.nodup (hn.filter _)).mpr fun id => ?_
  rw [h.named id, mem_filter]
  exact ⟨fun hc => ⟨hr.counted_mem id hc.1, hc.1⟩, fun hm => ⟨hm.2, nofun⟩⟩

/-- The count reaches the number of members only when each of them is counted. -/
theorem Tally.all_counted (hc : r.isComplete = true) : ∀ id ∈ p.members, counted id = true := by
  have hlen := (h.perm_filter hr hn).length_eq
  have hjoined := h.joined
  have hexp := h.expected
  have hle : r.expected ≤ r.joined := of_decide_eq_true hc
  rw [length_map] at hlen
  rw [Option.toList_none, length_nil] at hjoined
  have hall : (p.members.filter counted).length = p.members.length :=
    Nat.le_antisymm (length_filter_le _ _) (by omega)
  exact fun id hid => length_filter_eq_length_iff.mp hall id hid

end

/-! ## Clearing the flags -/

theorem Clearing.start (h : p.Raised up counted)
    (hall : o = .finished → ∀ id ∈ p.members, counted id = true) :
    p.Clearing [] p.members o up counted where
  suffix := suffix_refl _
  up_iff := h.up_iff
  counted_mem := h.counted_mem
  stopped := hall

theorem Clearing.lower (h : p.Clearing [] (id :: todo) o up counted) (hn : p.members.Nodup) :
    p.Clearing [id] todo o (mark up id false) counted := by
  have hnot : id ∉ todo := (nodup_cons.mp (hn.sublist h.suffix.sublist)).1
  refine ⟨h.suffix, fun k => ?_, h.counted_mem, fun ho k hk => h.stopped ho k (by simp [hk])⟩
  by_cases hk : k = id
  · simp [mark_apply, hk, hnot]
  · simp [mark_apply, hk, h.up_iff k]

theorem Clearing.discount (h : p.Clearing [id] todo o up counted) (hn : p.members.Nodup) :
    p.Clearing [] todo o up (mark counted id false) := by
  have hnot : id ∉ todo := (nodup_cons.mp (hn.sublist h.suffix.sublist)).1
  refine ⟨(suffix_cons id todo).trans h.suffix, h.up_iff, fun k hk => ?_, fun ho k hk => ?_⟩
  · by_cases hki : k = id
    · simp [mark_apply, hki] at hk
    · have := h.counted_mem k (by simpa [mark_apply, hki] using hk)
      simpa [hki] using this
  · have hki : k ≠ id := fun heq => hnot (heq ▸ hk)
    simp [mark_apply, hki, h.stopped ho k hk]

theorem Clearing.done (h : p.Clearing [] [] o up counted) (id : ThreadId) :
    up id = false ∧ counted id = false := by
  refine ⟨Bool.eq_false_iff.mpr fun hu => ?_, Bool.eq_false_iff.mpr fun hc => ?_⟩
  · exact not_mem_nil ((h.up_iff id).mp hu).1
  · exact not_mem_nil (h.counted_mem id hc)

end Party

/-- A thread that is asked to yield and not counted yet is counted while the coordinator waits. -/
theorem Ledger.account {ss : Session} {r : Rendezvous} {up counted : ThreadId → Bool}
    {id : ThreadId} {status : ThreadStatus} (h : Ledger (some ss) r up counted)
    (hlock : ss.stage.locked = false) (hu : up id = true) (hc : counted id = false)
    (hs : status ≠ .initiator) :
    Ledger (some ss) (r.count.record id status) up (mark counted id true) := by
  obtain ⟨hn, he⟩ := h
  refine ⟨hn, ?_⟩
  have hcount {r : Rendezvous} (hr : ss.Raised up counted) (ht : ss.Tally r counted none) :
      ss.Raised up (mark counted id true) ∧
        ss.Tally (r.count.record id status) (mark counted id true) none := by
    obtain ⟨hm, hi⟩ := (hr.up_iff id).mp hu
    exact ⟨hr.count hm, (ht.count hc).record (by simp [mark_apply]) (by simp [hs, hi])⟩
  cases hstage : ss.stage with
  | wait =>
    rw [hstage] at he
    obtain ⟨hp, hr, ht⟩ := he
    exact ⟨hp, hcount hr ht⟩
  | complete statuses =>
    rw [hstage] at he
    obtain ⟨_, hr, _, hall, _⟩ := he
    rw [hall id ((hr.up_iff id).mp hu).1] at hc
    cases hc
  | relock =>
    rw [hstage] at he
    obtain ⟨_, hr, _, hall⟩ := he
    rw [hall id ((hr.up_iff id).mp hu).1] at hc
    cases hc
  | snapshot | lock | leave =>
    rw [hstage] at he
    rw [(he.2 id).1] at hu
    cases hu
  | raise | scan | swap | record | test | clear | clearJoined =>
    rw [hstage] at hlock
    cases hlock

end StopTheWorld

end ManagedCore
