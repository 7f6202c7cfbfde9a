import ManagedCore.Proofs.Rendezvous.Invariant

/-!
# Steps of the coordinator

Each step of the coordinator keeps the invariant, and with it every step of every execution does.
-/

namespace ManagedCore.StopTheWorld

open Rendezvous List

section Fits

variable {c : Control} {g n : Nat} {up counted : Bool} {counted' : Bool}

theorem Fits.uncount (h : Fits c g up counted n)
    (hc : counted' = true → counted = true) : Fits c g up counted' n :=
  ⟨h.entered, h.asked, fun hu hc' => h.held hu (hc hc')⟩

theorem Fits.raise (h : Fits c g false counted n) (hc : counted = false) :
    Fits c g true counted n :=
  ⟨h.entered, fun _ => rfl, fun _ hc' => by rw [hc] at hc'; cases hc'⟩

theorem Fits.lower (h : Fits c g up counted n) (ha : c.asked = false) : Fits c g false counted n :=
  ⟨h.entered, fun ha' => absurd ha' (by simp [ha]), nofun⟩

theorem Fits.down {g' : Nat} (h : Fits c g up counted n) (hu : up = false) :
    Fits c g' up counted' n :=
  ⟨h.entered, h.asked, fun hu' => by rw [hu] at hu'; cases hu'⟩

end Fits

theorem Control.locked_of_asked {c : Control} (h : c.asked = true) : c.locked = true := by
  cases c <;> first | rfl | cases h

namespace Machine

variable {s s' : Machine} {ss : Session} {id : ThreadId} {stage : Stage} {todo : List ThreadId}
  {o : Outcome} {old : Stage}

section

variable (h : s.Inv) (hss : s.session = some ss)

include h hss

theorem Inv.present (hst : ss.stage = old) (hne : old ≠ .snapshot)
    (hid : id ∈ ss.members) : (s.threads.find? id).isSome :=
  h.registered_present id ((h.members ss hss (hst ▸ hne)).mem_iff.mp hid)

theorem Inv.books : ss.members.Nodup ∧
      ss.Entries s.rendezvous (shouldYield s.threads) (hasJoined s.threads) ss.stage := by
  have hl := h.ledger
  rw [hss] at hl
  exact hl

theorem Inv.booked (hst : ss.stage = old) : ss.members.Nodup ∧
    ss.Entries s.rendezvous (shouldYield s.threads) (hasJoined s.threads) old :=
  hst ▸ h.books hss

theorem Inv.session_locks : ss.stage.locked = true ↔ s.mutex = some .session := by
  have hl := h.locks.session
  rw [hss] at hl
  exact hl

/-- While the coordinator has the state lock, no thread is at a point that needs it. -/
theorem Inv.not_asked (hlock : ss.stage.locked = true) (a : Agent) :
    (s.control a).asked = false := by
  cases ha : (s.control a).asked with
  | false => rfl
  | true =>
    have hm := (h.locks.agent a).mp (Control.locked_of_asked ha)
    rw [(h.session_locks hss).mp hlock] at hm
    cases hm

end

theorem Inv.marked_of_joined (h : s.Inv) (id : ThreadId) :
    Fits (s.control (.thread id)) s.rendezvous.generation (shouldYield s.threads id)
      (hasJoined s.threads id) (regions s.threads id) :=
  (h.fits id).uncount fun hj => by rw [marked, hj, Bool.or_true]

section

variable (h : s.Inv) (hss : s.session = some ss) {m : Option Holder} {r : Rendezvous}

include h hss

/-- The coordinator goes on to its next stage, with changes to flags, books and state lock. -/
theorem Inv.toStage {ts : Threads} (hst : ss.stage = old) (hne : old ≠ .snapshot)
    (hts : ∀ id, (ts.find? id).isSome = (s.threads.find? id).isSome)
    (hentries : ss.Entries r (shouldYield ts) (hasJoined ts) stage)
    (hlocks : Locks s.control m (some { ss with stage }))
    (hfits : ∀ id, Fits (s.control (.thread id)) r.generation (shouldYield ts id)
      (stage.swaps id || hasJoined ts id) (regions ts id)) :
    ({ s with threads := ts, rendezvous := r, mutex := m }.toStage ss stage).Inv where
  registered := h.registered
  registered_present id hid := (hts id).trans (h.registered_present id hid)
  registers_present a id ha := (hts id).trans (h.registers_present a id ha)
  readers := h.readers
  unread _ := h.unread (by rw [hss]; rfl)
  members ss' hss' _ := by
    cases hss'
    exact h.members ss hss (hst ▸ hne)
  ledger := ⟨(h.books hss).1, hentries⟩
  locks := hlocks
  fits := hfits

theorem Inv.locks_toStage (hst : ss.stage = old)
    (hl : stage.locked = old.locked) : Locks s.control s.mutex (some { ss with stage }) :=
  ⟨h.locks.agent, by
    rw [← h.session_locks hss, hst, ← hl]
    rfl⟩

omit h hss in
theorem Inv.locks_lock (h : s.Inv) (free : s.mutex = none) {ss : Session}
    (hl : ss.stage.locked = true) : Locks s.control (some .session) (some ss) := by
  have hlocks := h.locks
  rw [free] at hlocks
  exact hlocks.takeSession hl

theorem Inv.locks_unlock (hst : ss.stage = old)
    (hl : old.locked = true) {ss' : Session} (hl' : ss'.stage.locked = false) :
    Locks s.control none (some ss') :=
  h.locks.giveSession (by rw [hss, Option.any_some, hst, hl]) hl'

theorem Inv.plain (hst : ss.stage = old)
    (hne : old ≠ .snapshot) (hg : r.generation = s.rendezvous.generation)
    (hsw : ∀ id, stage.swaps id = false)
    (hentries : ss.Entries r (shouldYield s.threads) (hasJoined s.threads) stage)
    (hlocks : Locks s.control m (some { ss with stage })) :
    ({ s with rendezvous := r, mutex := m }.toStage ss stage).Inv := by
  refine h.toStage hss hst hne (fun _ => rfl) hentries hlocks fun id => ?_
  rw [hsw id, hg]
  exact h.marked_of_joined id

/-! ## Opening a rendezvous -/

theorem Inv.snapshot (hst : ss.stage = .snapshot) {members : List ThreadId}
    (hm : members.Perm s.registered) : (s.toStage { ss with members } .lock).Inv := by
  obtain ⟨_, he⟩ := h.booked hss hst
  refine { h with
    unread := fun _ => h.unread (by rw [hss]; rfl)
    members := fun ss' hss' _ => by cases hss'; exact hm
    ledger := ⟨hm.nodup_iff.mpr h.registered, he⟩
    locks := ⟨h.locks.agent, ?_⟩
    fits := fun id => ?_ }
  · rw [Machine.toStage, ← h.session_locks hss, hst]
    rfl
  · have hfits := h.fits id
    rw [marked, hss, Option.any_some, hst] at hfits
    exact hfits

theorem Inv.lock (hst : ss.stage = .lock) (free : s.mutex = none) :
    ({ s with mutex := some .session, rendezvous := s.rendezvous.opened ss.members.length }.toStage
      ss (.raise ss.members)).Inv := by
  obtain ⟨_, he⟩ := h.booked hss hst
  have hup (id : ThreadId) := (he.2 id).1
  have hjoined (id : ThreadId) := (he.2 id).2
  refine h.toStage hss hst nofun (fun _ => rfl)
    ⟨rfl, .start hup hjoined, .opened _ _ hjoined⟩ (h.locks_lock free rfl) fun id => ?_
  exact (h.fits id).down (hup id)

/-! ## Raising the flags -/

theorem Inv.raiseInitiator (hst : ss.stage = .raise (id :: todo)) (hi : ss.initiator = some id) :
    (({ s with rendezvous := s.rendezvous.count.record id .initiator }.modify id
      (setJoined true)).toStage ss (.raise todo)).Inv := by
  obtain ⟨hn, hphase, hraising, htally⟩ := h.booked hss hst
  obtain ⟨hmem, _⟩ := hraising.head_not_mem hn
  have hsome := h.present hss hst nofun hmem
  have hfresh : hasJoined s.threads id = false :=
    Bool.eq_false_iff.mpr fun hj => ((hraising.counted_iff id).mp hj).2.1 mem_cons_self
  have hdown : shouldYield s.threads id = false :=
    Bool.eq_false_iff.mpr fun hu => ((hraising.up_iff id).mp hu).2.2 hi
  refine h.toStage hss hst nofun (isSome_find?_modify fun _ => rfl) ?_
    (h.locks_toStage hss hst rfl) fun k => ?_
  · rw [shouldYield_setJoined, hasJoined_setJoined true hsome]
    exact ⟨hphase, hraising.count hn hi, (htally.count hfresh).record (if_pos rfl) (by simp [hi])⟩
  · rw [shouldYield_setJoined, hasJoined_setJoined true hsome, regions_setJoined]
    by_cases hk : k = id
    · rw [hk]
      exact (h.fits id).down hdown
    · rw [mark_apply, if_neg hk]
      exact h.marked_of_joined k

theorem Inv.raiseFlag (hst : ss.stage = .raise (id :: todo)) (hi : ss.initiator ≠ some id) :
    ((s.modify id (setYield true)).toStage ss (.raise todo)).Inv := by
  obtain ⟨hn, hphase, hraising, htally⟩ := h.booked hss hst
  obtain ⟨hmem, _⟩ := hraising.head_not_mem hn
  have hsome := h.present hss hst nofun hmem
  have hfresh : hasJoined s.threads id = false :=
    Bool.eq_false_iff.mpr fun hj => hi ((hraising.counted_iff id).mp hj).2.2
  have hdown : shouldYield s.threads id = false :=
    Bool.eq_false_iff.mpr fun hu => ((hraising.up_iff id).mp hu).2.1 mem_cons_self
  refine h.toStage hss hst nofun (isSome_find?_modify fun _ => rfl) ?_
    (h.locks_toStage hss hst rfl) fun k => ?_
  · rw [hasJoined_setYield, shouldYield_setYield true hsome]
    exact ⟨hphase, hraising.raise hn hi, htally⟩
  · rw [hasJoined_setYield, shouldYield_setYield true hsome, regions_setYield]
    have hfits := h.marked_of_joined k
    by_cases hk : k = id
    · rw [mark_apply, if_pos hk]
      rw [hk] at hfits ⊢
      rw [hdown] at hfits
      exact hfits.raise hfresh
    · rw [mark_apply, if_neg hk]
      exact hfits

/-! ## Counting the threads in regions -/

/-- A thread found in a region stays held from here on, even if it leaves before it is counted. -/
theorem Inv.uncooperative (hst : ss.stage = .scan (id :: todo)) (hr : 0 < regions s.threads id) :
    (s.toStage ss (.swap id todo)).Inv := by
  obtain ⟨_, he⟩ := h.booked hss hst
  refine h.toStage hss hst nofun (fun _ => rfl) he
    (h.locks_toStage hss hst rfl) fun k => ?_
  by_cases hk : k = id
  · rw [hk]
    exact ⟨(h.fits id).entered, (h.fits id).asked, fun _ _ => Or.inl hr⟩
  · rw [Stage.swaps, beq_false_of_ne (Ne.symm hk)]
    exact h.marked_of_joined k

theorem Inv.swapFresh (hst : ss.stage = .swap id todo) (hj : hasJoined s.threads id = false) :
    (({ s with rendezvous := s.rendezvous.count }.modify id (setJoined true)).toStage ss
      (.record id todo)).Inv := by
  obtain ⟨hn, hphase, hraised, htally, hsub⟩ := h.booked hss hst
  obtain ⟨hmem, htodo⟩ := cons_subset.mp hsub
  have hsome := h.present hss hst nofun hmem
  have hi : ss.initiator ≠ some id := fun hi => by
    rw [hraised.initiator id hmem hi] at hj
    cases hj
  refine h.toStage hss hst nofun (isSome_find?_modify fun _ => rfl) ?_
    (h.locks_toStage hss hst rfl) fun k => ?_
  · rw [shouldYield_setJoined, hasJoined_setJoined true hsome]
    exact ⟨hphase, hraised.count hmem, htally.count hj, if_pos rfl, hi, htodo⟩
  · rw [shouldYield_setJoined, hasJoined_setJoined true hsome, regions_setJoined]
    refine (h.fits k).uncount fun hk => ?_
    rw [marked, hss, Option.any_some, hst]
    by_cases hki : k = id
    · simp [Stage.swaps, hki]
    · rw [mark_apply, if_neg hki] at hk
      rw [show hasJoined s.threads k = true from hk, Bool.or_true]

theorem Inv.record (hst : ss.stage = .record id todo) :
    ({ s with rendezvous := s.rendezvous.record id (savedStatus s.threads id) }.toStage ss
      (.scan todo)).Inv := by
  obtain ⟨_, hphase, hraised, htally, hcounted, hi, htodo⟩ := h.booked hss hst
  refine h.plain hss hst nofun rfl (fun _ => rfl) ⟨hphase, hraised, ?_, htodo⟩
    (h.locks_toStage hss hst rfl)
  exact htally.record hcounted ⟨nofun, fun hi' => absurd hi' hi⟩

/-! ## Clearing the flags -/

theorem Inv.clear (hst : ss.stage = .clear (id :: todo) o) :
    ((s.modify id (setYield false)).toStage ss (.clearJoined id todo o)).Inv := by
  obtain ⟨hn, hphase, hclearing⟩ := h.booked hss hst
  have hsome := h.present hss hst nofun (hclearing.suffix.subset mem_cons_self)
  refine h.toStage hss hst nofun (isSome_find?_modify fun _ => rfl) ?_
    (h.locks_toStage hss hst rfl) fun k => ?_
  · rw [hasJoined_setYield, shouldYield_setYield false hsome]
    exact ⟨hphase, hclearing.lower hn⟩
  · rw [hasJoined_setYield, shouldYield_setYield false hsome, regions_setYield, mark_apply]
    have hfits := h.marked_of_joined k
    split
    · exact hfits.lower (h.not_asked hss (by rw [hst]; rfl) _)
    · exact hfits

theorem Inv.clearJoined (hst : ss.stage = .clearJoined id todo o) :
    ((s.modify id (setJoined false)).toStage ss (.clear todo o)).Inv := by
  obtain ⟨hn, hphase, hclearing⟩ := h.booked hss hst
  have hsome := h.present hss hst nofun (hclearing.suffix.subset mem_cons_self)
  refine h.toStage hss hst nofun (isSome_find?_modify fun _ => rfl) ?_
    (h.locks_toStage hss hst rfl) fun k => ?_
  · rw [shouldYield_setJoined, hasJoined_setJoined false hsome]
    exact ⟨hphase, hclearing.discount hn⟩
  · rw [shouldYield_setJoined, hasJoined_setJoined false hsome, regions_setJoined]
    refine (h.marked_of_joined k).uncount fun hk => ?_
    by_cases hki : k = id
    · rw [hki, mark_apply, if_pos rfl] at hk
      cases hk
    · rw [mark_apply, if_neg hki] at hk
      exact hk

theorem Inv.cleared (hst : ss.stage = .clear [] o) :
    ({ s with mutex := none, rendezvous := o.tally { s.rendezvous with phase := .idle } }.toStage
      ss .leave).Inv := by
  obtain ⟨_, he⟩ := h.booked hss hst
  refine h.plain hss hst nofun (by cases o <;> rfl) (fun _ => rfl) ⟨?_, he.2.done⟩
    (h.locks_unlock hss hst rfl rfl)
  cases o <;> rfl

theorem Inv.adjourn (hst : ss.stage = .leave) : { s with session := none }.Inv := by
  obtain ⟨_, he⟩ := h.booked hss hst
  refine { h with
    unread := nofun
    members := nofun
    ledger := he
    locks := ⟨h.locks.agent, ?_⟩
    fits := h.marked_of_joined }
  rw [← h.session_locks hss, hst]
  exact Iff.rfl

end

theorem Inv.convene (h : s.Inv) (free : s.session = none) (unread : s.readers = []) (a : Agent)
    (initiator : Option ThreadId) : { s with session := some { agent := a, initiator } }.Inv := by
  have hledger := h.ledger
  have hlocks := h.locks
  rw [free] at hledger hlocks
  exact { h with
    unread := fun _ => unread
    members := fun ss hss hst => by cases hss; exact absurd rfl hst
    ledger := ⟨nodup_nil, hledger⟩
    locks := ⟨hlocks.agent, hlocks.session⟩
    fits := h.marked_of_joined }

theorem Inv.dropGuard (h : s.Inv) (hss : s.session = some ss)
    {statuses : List (ThreadId × ThreadStatus)} (hst : ss.stage = .complete statuses) :
    (s.toStage ss .relock).Inv := by
  obtain ⟨_, hphase, hraised, htally, hall, _⟩ := h.booked hss hst
  exact h.plain hss hst nofun rfl (fun _ => rfl) ⟨hphase, hraised, htally, hall⟩
    (h.locks_toStage hss hst rfl)

/-! ## Every step -/

theorem Inv.coordinates (h : s.Inv) (hss : s.session = some ss)
    (hc : s.control ss.agent = .coordinating) (hstep : s.Coordinates ss s') : s'.Inv := by
  cases hstep with
  | snapshot hst hm => exact h.snapshot hss hst hm
  | lock hst free => exact h.lock hss hst free
  | raiseInitiator hst hi => exact h.raiseInitiator hss hst hi
  | raiseFlag hst hi => exact h.raiseFlag hss hst hi
  | raised hst =>
    obtain ⟨_, hphase, hraising, htally⟩ := h.booked hss hst
    exact h.plain hss hst nofun rfl (fun _ => rfl)
      ⟨hphase, hraising.done, htally, Subset.refl _⟩ (h.locks_toStage hss hst rfl)
  | cooperative hst hr | swapJoined hst hj =>
    obtain ⟨_, hphase, hraised, htally, hsub⟩ := h.booked hss hst
    exact h.plain hss hst nofun rfl (fun _ => rfl)
      ⟨hphase, hraised, htally, (cons_subset.mp hsub).2⟩
      (h.locks_toStage hss hst rfl)
  | uncooperative hst hr => exact h.uncooperative hss hst hr
  | swapFresh hst hj => exact h.swapFresh hss hst hj
  | record hst => exact h.record hss hst
  | scanned hst =>
    obtain ⟨_, _, hraised, htally, _⟩ := h.booked hss hst
    exact h.plain hss hst nofun rfl (fun _ => rfl) ⟨rfl, hraised, { htally with }⟩
      (h.locks_toStage hss hst rfl)
  | wait hst hcomplete =>
    exact h.plain hss hst nofun rfl (fun _ => rfl) (h.booked hss hst).2
      (h.locks_unlock hss hst rfl rfl)
  | wake hst free =>
    exact h.plain hss hst nofun rfl (fun _ => rfl) (h.booked hss hst).2 (h.locks_lock free rfl)
  | timeout hst free hcomplete =>
    obtain ⟨_, hphase, hraised, _⟩ := h.booked hss hst
    exact h.plain hss hst nofun rfl (fun _ => rfl)
      ⟨by rw [hphase]; nofun, .start hraised nofun⟩ (h.locks_lock free rfl)
  | complete hst hcomplete =>
    obtain ⟨hn, _, hraised, htally⟩ := h.booked hss hst
    have hstopped : ({ s with mutex := none, rendezvous := s.rendezvous.stopWorld }.toStage ss
        (.complete s.rendezvous.statuses)).Inv :=
      h.plain hss hst nofun rfl (fun _ => rfl)
        ⟨rfl, hraised, { htally with }, htally.all_counted hraised hn hcomplete, rfl⟩
        (h.locks_unlock hss hst rfl rfl)
    exact hstopped.move hc rfl (fun _ => rfl)
      rfl rfl rfl nofun nofun
  | relock hst free =>
    obtain ⟨_, hphase, hraised, _, hall⟩ := h.booked hss hst
    exact h.plain hss hst nofun rfl (fun _ => rfl)
      ⟨by rw [hphase]; nofun, .start hraised fun _ => hall⟩ (h.locks_lock free rfl)
  | clear hst => exact h.clear hss hst
  | clearJoined hst => exact h.clearJoined hss hst
  | cleared hst => exact h.cleared hss hst
  | leave hst =>
    have hfree := h.adjourn hss hst
    split <;> exact hfree.move hc rfl (fun _ => rfl) rfl rfl rfl nofun nofun

theorem Inv.step (h : s.Inv) {a : Agent} (hstep : s.Step a s') : s'.Inv := by
  cases hstep with
  | call hc hcall => exact h.call hc hcall
  | own ht ho => exact h.own ht ho
  | acquire hc free => exact h.acquire hc free
  | release hc => exact h.release hc
  | account hc => exact h.account hc
  | registerLock hc free =>
    exact (h.share a free).move hc rfl (fun _ => rfl) rfl rfl rfl
      (fun k hk => h.registers_present a k (by rw [hc]; exact hk)) fun _ => mem_cons_self
  | @register _ id hc =>
    have hread : (s.control a).reads = true := by rw [hc]; rfl
    exact (h.insert (h.registers_present a id (by rw [hc]; rfl)) (h.no_session hread)).move hc rfl
      (fun _ => rfl) rfl rfl rfl nofun fun _ => h.readers a hread
  | unregisterLock hc free =>
    exact (h.share a free).move hc rfl (fun _ => rfl) rfl rfl rfl nofun
      fun _ => mem_cons_self
  | @unregister id hc =>
    have hread : (s.control (.thread id)).reads = true := by rw [hc]; rfl
    exact (h.erase id (h.no_session hread)).move hc rfl (fun _ => rfl)
      rfl rfl rfl nofun fun _ => h.readers _ hread
  | readUnlock hc =>
    have hidle := h.move (c := .idle) hc rfl (fun _ => rfl) rfl rfl rfl nofun nofun
    exact hidle.unshare (congrArg Control.reads route_self)
  | @membership _ i hc free unread =>
    exact (h.convene free unread a (a.initiator i)).move hc rfl (fun _ => rfl) rfl rfl rfl nofun nofun
  | drop hss hc hst =>
    exact (h.dropGuard hss hst).move hc rfl (fun _ => rfl) rfl rfl rfl nofun nofun
  | coordinate hss hc hcoord => exact h.coordinates hss hc hcoord

theorem Execution.inv (hex : Execution s s') (h : s.Inv) : s'.Inv := by
  induction hex with
  | refl => exact h
  | step _ hs ih => exact ih.step hs

theorem Reachable.inv (h : s.Reachable) : s.Inv := by
  obtain ⟨s₀, hinit, hex⟩ := h
  exact hex.inv hinit.inv

end Machine

end ManagedCore.StopTheWorld
