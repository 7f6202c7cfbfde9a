import ManagedCore.Proofs.Rendezvous.Ledger

/-!
# The invariant of a rendezvous

A thread that is counted while its flag is up is held: it is in an uncooperative region, or at a
point of its way through a stop from which it can only go on to wait for the end of this generation.
The flag is raised before the region count is read, and a thread that leaves its last region reads
the flag after it took that region off its count, so the two cannot miss each other. A thread that
wakes up late, in the next generation, goes on uncounted and the new coordinator waits for it.
-/

namespace ManagedCore.StopTheWorld

open Rendezvous Control List

namespace Control

/-- Points inside a critical section of the state lock. -/
def locked : Control → Bool
  | joinCheck | joinAccount | beforeCheck _ | beforeSp _ | beforeAccount _ _ | afterCheck | afterSp
  | afterAccount _ | parkMark _ | parkTest _ _ | parkClear _ | unlockEnter _ | unlockPark _ => true
  | _ => false

/-- Points of an entry behind the addition to the region count. -/
def entered : Control → Bool
  | enterPoll _ | beforeLock _ | beforeCheck _ | beforeSp _ | beforeAccount _ _ => true
  | _ => false

/-- Points that a thread reaches only when it saw its flag up under the state lock. -/
def asked : Control → Bool
  | joinAccount | beforeSp _ | beforeAccount _ _ | afterSp | afterAccount _ => true
  | _ => false

/-- Points of a stop that a thread cannot get past while its flag is up and the generation lasts. -/
def stops (generation : Nat) : Control → Bool
  | leavePoll | afterLock | afterCheck | afterSp | afterAccount _ | parkMark _ => true
  | parkTest _ g | parkWait _ g => g == generation
  | _ => false

def registers : Control → Option ThreadId
  | registerLock id | registerInsert id => some id
  | _ => none

def reads : Control → Bool
  | registerInsert _ | unregisterRemove | readUnlock => true
  | _ => false

end Control

/-- What a control point says of the thread that is there. -/
structure Fits (c : Control) (generation : Nat) (up counted : Bool) (n : Nat) : Prop where
  entered : c.entered = true → 0 < n
  asked : c.asked = true → up = true
  held : up = true → counted = true → 0 < n ∨ c.stops generation = true

section Fits

variable {c c' : Control} {g n : Nat} {up counted : Bool}

/-- Outside a stop only the regions hold a thread, wherever it goes next. -/
theorem Fits.move (h : Fits c g up counted n) (hs : c.stops g = false) (he : c'.entered = false)
    (ha : c'.asked = false) : Fits c' g up counted n where
  entered h' := by rw [he] at h'; cases h'
  asked h' := by rw [ha] at h'; cases h'
  held hu hc := Or.inl ((h.held hu hc).resolve_right (by simp [hs]))

theorem Fits.acquire (h : Fits c g up counted n) (hc : c.acquire = some c') :
    Fits c' g up counted n := by
  cases c <;> cases hc
  case joinLock => exact h.move rfl rfl rfl
  case beforeLock => exact ⟨fun _ => h.entered rfl, nofun, h.held⟩
  case afterLock | parkWait => exact ⟨nofun, nofun, h.held⟩

theorem Fits.release {r : Rendezvous} (h : Fits c r.generation up counted n)
    (hc : c.release r = some c') : Fits c' r.generation up counted n := by
  cases c with
  | unlockEnter k | unlockPark k =>
    cases hc
    exact h.move rfl (by cases k <;> rfl) (by cases k <;> rfl)
  | parkTest k g' =>
    simp only [Control.release] at hc
    split at hc
    · cases hc
      exact ⟨nofun, nofun, h.held⟩
    · cases hc
  | _ => cases hc

theorem Fits.account {status : ThreadStatus} {counted' : Bool} (h : Fits c g up counted n)
    (hc : c.accounts = some (status, c')) : Fits c' g up counted' n := by
  cases c <;> cases hc
  case joinAccount | afterAccount => exact ⟨nofun, nofun, fun _ _ => Or.inr rfl⟩
  case beforeAccount => exact ⟨nofun, nofun, fun _ _ => Or.inl (h.entered rfl)⟩

end Fits

variable {f : Thread → Thread} {t : Thread}

theorem Control.own_frame {c c' : Control} {r : Rendezvous}
    (h : c.own t r = some (c', f)) : (∀ t, (f t).id = t.id) ∧ (∀ t, (f t).yieldFlag = t.yieldFlag) ∧
      (∀ t, (f t).joined = t.joined) ∧ c'.locked = c.locked ∧ c'.registers = none ∧
      c'.reads = false := by
  cases c with
  | parkTest k g =>
    simp only [Control.own] at h
    split at h
    · cases h
    · cases h
      exact ⟨fun _ => rfl, fun _ => rfl, fun _ => rfl, rfl, rfl, rfl⟩
  | enterAdd k | enterPoll k =>
    cases h
    refine ⟨fun _ => rfl, fun _ => rfl, fun _ => rfl, ?_, ?_, ?_⟩ <;>
      split <;> cases k <;> rfl
  | poll | joinCheck | enterLoad | beforeCheck | leaveSub | leavePoll | afterCheck =>
    cases h
    refine ⟨fun _ => rfl, fun _ => rfl, fun _ => rfl, ?_, ?_, ?_⟩ <;> split <;> rfl
  | enterSave | beforeSp | afterSp | leaveSave | parkMark | parkClear =>
    cases h
    exact ⟨fun _ => rfl, fun _ => rfl, fun _ => rfl, rfl, rfl, rfl⟩
  | _ => cases h

/-- The flag decides what a thread does at each point where it could get away. -/
theorem Fits.own {c c' : Control} {r : Rendezvous} {counted : Bool}
    (h : Fits c r.generation t.yieldFlag counted t.uncooperative) (ho : c.own t r = some (c', f))
    (hphase : t.yieldFlag = true → c.locked = true → r.phase ≠ .idle) :
    Fits c' r.generation t.yieldFlag counted (f t).uncooperative := by
  cases c with
  | poll | enterLoad =>
    cases ho
    split <;> exact h.move rfl rfl rfl
  | enterSave | leaveSave | parkClear =>
    cases ho
    exact h.move rfl rfl rfl
  | joinCheck =>
    cases ho
    split
    · rename_i hy
      exact ⟨nofun, fun _ => hy, (h.move rfl rfl rfl : Fits .idle _ _ _ _).held⟩
    · exact h.move rfl rfl rfl
  | enterAdd k =>
    cases ho
    refine ⟨fun _ => Nat.succ_pos _, fun ha => ?_, fun _ _ => Or.inl (Nat.succ_pos _)⟩
    split at ha
    · cases ha
    · cases k <;> cases ha
  | enterPoll k =>
    cases ho
    have hn := h.entered rfl
    refine ⟨fun _ => hn, fun ha => ?_, fun _ _ => Or.inl hn⟩
    split at ha
    · cases ha
    · cases k <;> cases ha
  | beforeCheck k =>
    cases ho
    have hn := h.entered rfl
    split
    · rename_i hy
      exact ⟨fun _ => hn, fun _ => hy, fun _ _ => Or.inl hn⟩
    · exact h.move rfl rfl rfl
  | beforeSp k =>
    cases ho
    exact ⟨fun _ => h.entered rfl, fun _ => h.asked rfl, h.held⟩
  | leaveSub =>
    cases ho
    dsimp only
    split
    · exact ⟨nofun, nofun, fun _ _ => Or.inr rfl⟩
    · refine ⟨nofun, nofun, fun hu hc => ?_⟩
      have hn := (h.held hu hc).resolve_right nofun
      exact Or.inl (by omega)
  | leavePoll =>
    cases ho
    split
    · exact ⟨nofun, nofun, h.held⟩
    · rename_i hy
      exact ⟨nofun, nofun, fun hu => absurd hu hy⟩
  | afterCheck =>
    cases ho
    split
    · rename_i hy
      exact ⟨nofun, fun _ => hy, h.held⟩
    · rename_i hy
      exact ⟨nofun, nofun, fun hu => absurd hu hy⟩
  | afterSp =>
    cases ho
    exact ⟨nofun, fun _ => h.asked rfl, h.held⟩
  | parkMark k =>
    cases ho
    exact ⟨nofun, nofun, fun _ _ => Or.inr (beq_self_eq_true _)⟩
  | parkTest k g =>
    simp only [Control.own] at ho
    split at ho
    · cases ho
    · rename_i hgo
      cases ho
      refine ⟨nofun, nofun, fun hu hc => (h.held hu hc).imp_right fun hs => ?_⟩
      exact absurd ⟨(eq_of_beq hs).symm, hphase hu rfl⟩ hgo
  | _ => cases ho

/-! ## The state lock -/

structure Locks (control : Agent → Control) (mutex : Option Holder) (session : Option Session) :
    Prop where
  agent : ∀ a, (control a).locked = true ↔ mutex = some (.agent a)
  session : session.any (·.stage.locked) = true ↔ mutex = some .session

section Locks

variable {control : Agent → Control} {mutex : Option Holder} {session session' : Option Session}
  {a : Agent} {c : Control}

theorem route_self : route control a c a = c := if_pos rfl

theorem route_ne {b : Agent} (h : b ≠ a) : route control a c b = control b := if_neg h

theorem Locks.keep (h : Locks control mutex session) (hc : c.locked = (control a).locked)
    (hs : session'.any (·.stage.locked) = session.any (·.stage.locked)) :
    Locks (route control a c) mutex session' := by
  refine ⟨fun b => ?_, by rw [hs]; exact h.session⟩
  by_cases hb : b = a
  · rw [hb, route_self, hc]
    exact h.agent a
  · rw [route_ne hb]
    exact h.agent b

theorem Locks.take (h : Locks control none session) (hc : c.locked = true) :
    Locks (route control a c) (some (.agent a)) session := by
  refine ⟨fun b => ?_, by simpa using h.session⟩
  by_cases hb : b = a
  · simp [hb, route_self, hc]
  · rw [route_ne hb, h.agent b]
    simp [Ne.symm hb]

theorem Locks.give (h : Locks control mutex session) (ha : (control a).locked = true)
    (hc : c.locked = false) : Locks (route control a c) none session := by
  have hm := (h.agent a).mp ha
  refine ⟨fun b => ?_, by rw [h.session, hm]; simp⟩
  by_cases hb : b = a
  · simp [hb, route_self, hc]
  · rw [route_ne hb, h.agent b, hm]
    simp [Ne.symm hb]

theorem Locks.takeSession (h : Locks control none session)
    (hs : session'.any (·.stage.locked) = true) : Locks control (some .session) session' :=
  ⟨fun b => by simpa using h.agent b, by simp [hs]⟩

theorem Locks.giveSession (h : Locks control mutex session)
    (hs : session.any (·.stage.locked) = true) (hs' : session'.any (·.stage.locked) = false) :
    Locks control none session' := by
  have hm := h.session.mp hs
  refine ⟨fun b => ?_, by simp [hs']⟩
  rw [h.agent b, hm]
  simp

end Locks

/-! ## The invariant -/

def Stage.swaps : Stage → ThreadId → Bool
  | swap k _, id => k == id
  | _, _ => false

namespace Machine

variable {a : Agent} {c : Control} {id : ThreadId}

/-- Counted, or about to be: the coordinator found the thread in a region and goes on to count it. -/
def marked (s : Machine) (id : ThreadId) : Bool :=
  s.session.any (·.stage.swaps id) || hasJoined s.threads id

structure Inv (s : Machine) : Prop where
  registered : s.registered.Nodup
  registered_present : ∀ id ∈ s.registered, (s.threads.find? id).isSome
  registers_present : ∀ a id, (s.control a).registers = some id → (s.threads.find? id).isSome
  readers : ∀ a, (s.control a).reads = true → a ∈ s.readers
  unread : s.session.isSome → s.readers = []
  members : ∀ ss, s.session = some ss → ss.stage ≠ .snapshot → ss.members.Perm s.registered
  ledger : Ledger s.session s.rendezvous (shouldYield s.threads) (hasJoined s.threads)
  locks : Locks s.control s.mutex s.session
  fits : ∀ id, Fits (s.control (.thread id)) s.rendezvous.generation (shouldYield s.threads id)
    (s.marked id) (regions s.threads id)

variable {s s' : Machine} {c' : Control}

theorem Initial.inv (h : s.Initial) : s.Inv := by
  have hflag {p : Thread → Bool} (hp : ∀ id t, s.threads.find? id = some t → p t = false)
      (id : ThreadId) : (s.threads.find? id).any p = false := by
    cases ht : s.threads.find? id with
    | none => rfl
    | some t => exact hp id t ht
  have hup := hflag fun id t ht => (h.flags id t ht).1
  have hjoined := hflag fun id t ht => (h.flags id t ht).2
  refine ⟨h.registered.1, h.registered.2, fun a id hr => ?_, fun a hr => ?_, fun _ => h.readers,
    fun ss hss => ?_, ?_, ?_, fun id => ?_⟩
  · rw [h.control a] at hr
    cases hr
  · rw [h.control a] at hr
    cases hr
  · rw [h.session] at hss
    cases hss
  · rw [h.session]
    exact ⟨h.phase, fun id => ⟨hup id, hjoined id⟩⟩
  · rw [h.session, h.mutex]
    exact ⟨fun a => by simp [h.control a, locked], by simp⟩
  · rw [h.control]
    exact ⟨nofun, nofun, fun hu => by rw [shouldYield, hup id] at hu; cases hu⟩

/-! ## Steps of one agent -/

/-- An agent moves on and may change flags, the books and the state lock with its step. -/
theorem Inv.goTo (h : s.Inv) {ts : Threads} {r : Rendezvous} {m : Option Holder}
    (hts : ∀ id, (ts.find? id).isSome = (s.threads.find? id).isSome)
    (hr : ∀ id, c.registers = some id → (s.threads.find? id).isSome)
    (hread : c.reads = true → a ∈ s.readers)
    (hledger : Ledger s.session r (shouldYield ts) (hasJoined ts))
    (hlocks : Locks (route s.control a c) m s.session)
    (hfits : ∀ id, Fits (route s.control a c (.thread id)) r.generation (shouldYield ts id)
      (s.session.any (·.stage.swaps id) || hasJoined ts id) (regions ts id)) :
    ({ s with threads := ts, rendezvous := r, mutex := m }.goTo a c).Inv where
  registered := h.registered
  registered_present id hid := (hts id).trans (h.registered_present id hid)
  registers_present b id hb := by
    refine (hts id).trans ?_
    by_cases hba : b = a
    · rw [hba] at hb
      exact hr id ((congrArg registers route_self).symm.trans hb)
    · exact h.registers_present b id ((congrArg registers (route_ne hba)).symm.trans hb)
  readers b hb := by
    by_cases hba : b = a
    · rw [hba] at hb ⊢
      exact hread ((congrArg reads route_self).symm.trans hb)
    · exact h.readers b ((congrArg reads (route_ne hba)).symm.trans hb)
  unread := h.unread
  members := h.members
  ledger := hledger
  locks := hlocks
  fits := hfits

theorem fits_route {control : Agent → Control} {g : Nat} {up counted : ThreadId → Bool}
    {n : ThreadId → Nat} (hself : ∀ id, a = .thread id → Fits c g (up id) (counted id) (n id))
    (hne : ∀ id, a ≠ .thread id → Fits (control (.thread id)) g (up id) (counted id) (n id))
    (id : ThreadId) : Fits (route control a c (.thread id)) g (up id) (counted id) (n id) := by
  by_cases hid : a = .thread id
  · subst hid
    rw [route_self]
    exact hself id rfl
  · rw [route_ne (Ne.symm hid)]
    exact hne id hid

theorem Inv.move (h : s.Inv) {old : Control} (hc : s.control a = old) (hl : old.locked = false)
    (hs : ∀ g, old.stops g = false) (hl' : c.locked = false) (he : c.entered = false)
    (ha : c.asked = false) (hr : ∀ id, c.registers = some id → (s.threads.find? id).isSome)
    (hread : c.reads = true → a ∈ s.readers) : (s.goTo a c).Inv := by
  subst hc
  refine h.goTo (fun _ => rfl) hr hread h.ledger (h.locks.keep (hl'.trans hl.symm) rfl)
    (fits_route (fun id hid => ?_) fun id _ => h.fits id)
  subst hid
  exact (h.fits id).move (hs _) he ha

theorem Inv.acquire (h : s.Inv) (hc : (s.control a).acquire = some c) (free : s.mutex = none) :
    ({ s with mutex := some (.agent a) }.goTo a c).Inv := by
  have hlocks := h.locks
  rw [free] at hlocks
  refine h.goTo (fun _ => rfl) (fun id hr => ?_) (fun hr => ?_) h.ledger (hlocks.take ?_)
    (fits_route (fun id hid => ?_) fun id _ => h.fits id)
  · cases hca : s.control a <;> rw [hca] at hc <;> cases hc <;> cases hr
  · cases hca : s.control a <;> rw [hca] at hc <;> cases hc <;> cases hr
  · cases hca : s.control a <;> rw [hca] at hc <;> cases hc <;> rfl
  · subst hid
    exact (h.fits id).acquire hc

theorem release_frame {r : Rendezvous} (h : c.release r = some c') :
    c.locked = true ∧ c'.locked = false ∧ c'.registers = none ∧ c'.reads = false := by
  cases c with
  | unlockEnter k | unlockPark k =>
    cases h
    exact ⟨rfl, by cases k <;> rfl, by cases k <;> rfl, by cases k <;> rfl⟩
  | parkTest k g =>
    simp only [Control.release] at h
    split at h <;> cases h
    exact ⟨rfl, rfl, rfl, rfl⟩
  | _ => cases h

theorem Inv.release (h : s.Inv) (hc : (s.control a).release s.rendezvous = some c) :
    ({ s with mutex := none }.goTo a c).Inv := by
  obtain ⟨hold, hnew, hreg, hread⟩ := release_frame hc
  refine h.goTo (fun _ => rfl) (by simp [hreg]) (by simp [hread]) h.ledger
    (h.locks.give hold hnew) (fits_route (fun id hid => ?_) fun id _ => h.fits id)
  subst hid
  exact (h.fits id).release hc

/-- A flag is up only while a rendezvous runs. -/
theorem Inv.running (h : s.Inv) (hu : shouldYield s.threads id = true) :
    ∃ ss, s.session = some ss ∧ s.rendezvous.phase ≠ .idle := by
  have hl := h.ledger
  cases hss : s.session with
  | none =>
    rw [hss] at hl
    rw [(hl.2 id).1] at hu
    cases hu
  | some ss =>
    refine ⟨ss, rfl, fun hp => ?_⟩
    rw [hss] at hl
    obtain ⟨_, he⟩ := hl
    cases hstage : ss.stage with
    | snapshot | lock | leave =>
      rw [hstage] at he
      rw [(he.2 id).1] at hu
      cases hu
    | clear | clearJoined =>
      rw [hstage] at he
      exact he.1 hp
    | raise | scan | swap | record | test | wait | complete | relock =>
      rw [hstage] at he
      have := hp.symm.trans he.1
      cases this

theorem Inv.own (h : s.Inv) (ht : s.threads.find? id = some t)
    (ho : (s.control (.thread id)).own t s.rendezvous = some (c, f)) :
    ((s.modify id f).goTo (.thread id) c).Inv := by
  obtain ⟨hid, hy, hj, hl, hr, hread⟩ := own_frame ho
  have hyield : shouldYield s.threads id = t.yieldFlag := by rw [shouldYield, ht]; rfl
  have hregions : regions s.threads id = t.uncooperative := by rw [regions, ht]; rfl
  refine h.goTo (fun k => isSome_find?_modify hid k) (by simp [hr]) (by simp [hread]) ?_
    (h.locks.keep hl rfl) ?_
  · rw [shouldYield_modify hid hy, hasJoined_modify hid hj]
    exact h.ledger
  · rw [shouldYield_modify hid hy, hasJoined_modify hid hj]
    refine fits_route (fun k hk => ?_) fun k hk => ?_
    · cases hk
      have hfits := h.fits id
      rw [hyield, hregions] at hfits
      rw [hyield, regions_modify_self hid ht]
      refine hfits.own ho fun hu _ => ?_
      obtain ⟨_, _, hphase⟩ := h.running (hyield.trans hu)
      exact hphase
    · rw [regions_modify_ne hid fun heq : k = id => hk (congrArg Agent.thread heq.symm)]
      exact h.fits k

theorem accounts_frame {status : ThreadStatus} (h : c.accounts = some (status, c')) :
    c.asked = true ∧ c.locked = true ∧ c'.locked = true ∧ c'.registers = none ∧
      c'.reads = false ∧ status ≠ .initiator := by
  cases c <;> cases h <;> exact ⟨rfl, rfl, rfl, rfl, rfl, nofun⟩

theorem Inv.account (h : s.Inv) {status : ThreadStatus}
    (hc : (s.control (.thread id)).accounts = some (status, c)) : ({ s with
        rendezvous := (s.rendezvous.account s.threads id status).1
        threads := (s.rendezvous.account s.threads id status).2 }.goTo (.thread id) c).Inv := by
  obtain ⟨hasked, hold, hnew, hreg, hread, hstatus⟩ := accounts_frame hc
  have hu := (h.fits id).asked hasked
  obtain ⟨ss, hss, _⟩ := h.running hu
  have hlocks : Locks (route s.control (.thread id) c) s.mutex s.session :=
    h.locks.keep (hnew.trans hold.symm) rfl
  cases ht : s.threads.find? id with
  | none =>
    rw [shouldYield, ht] at hu
    cases hu
  | some t =>
    have hsome : (s.threads.find? id).isSome := by rw [ht]; rfl
    by_cases hj : t.joined = true
    · have hsame : s.rendezvous.account s.threads id status = (s.rendezvous, s.threads) := by
        simp [Rendezvous.account, ht, hj]
      rw [hsame]
      refine h.goTo (fun _ => rfl) (by simp [hreg]) (by simp [hread]) h.ledger hlocks
        (fits_route (fun k hk => ?_) fun k _ => h.fits k)
      cases hk
      exact (h.fits id).account hc
    · have hcount : s.rendezvous.account s.threads id status =
          (s.rendezvous.count.record id status,
            s.threads.modify id (setJoined true)) := by
        simp only [Rendezvous.account, ht, hj, Bool.false_eq_true, if_false]
      have hfresh : hasJoined s.threads id = false := by simp [hasJoined, ht, hj]
      have hopen : ss.stage.locked = false := by
        have hs := h.locks.session
        rw [(h.locks.agent (.thread id)).mp hold, hss] at hs
        simpa using hs
      rw [hcount]
      refine h.goTo (isSome_find?_modify fun _ => rfl) (by simp [hreg]) (by simp [hread]) ?_ hlocks ?_
      · rw [shouldYield_setJoined, hasJoined_setJoined true hsome, hss]
        have hledger := h.ledger
        rw [hss] at hledger
        exact hledger.account hopen hu hfresh hstatus
      · rw [shouldYield_setJoined, hasJoined_setJoined true hsome, regions_setJoined]
        refine fits_route (fun k hk => ?_) fun k hk => ?_
        · cases hk
          exact (h.fits id).account hc
        · have hki : k ≠ id := fun heq => hk (congrArg Agent.thread heq.symm)
          rw [mark_apply, if_neg hki]
          exact h.fits k

theorem Inv.call (h : s.Inv) (hc : s.control a = .idle) (hcall : s.Calls a c) :
    (s.goTo a c).Inv := by
  cases hcall with
  | register a id hid =>
    exact h.move hc rfl (fun _ => rfl) rfl rfl rfl (fun k hk => by cases hk; exact hid) nofun
  | _ => exact h.move hc rfl (fun _ => rfl) rfl rfl rfl nofun nofun

/-! ## Membership -/

theorem Inv.no_session (h : s.Inv) (ha : (s.control a).reads = true) : s.session = none := by
  cases hss : s.session with
  | none => rfl
  | some ss =>
    have hmem := h.readers a ha
    rw [h.unread (by rw [hss]; rfl)] at hmem
    cases hmem

theorem Inv.share (h : s.Inv) (a : Agent) (free : s.session = none) :
    { s with readers := a :: s.readers }.Inv :=
  { h with
    readers := fun b hb => mem_cons_of_mem a (h.readers b hb)
    unread := fun hss => by simp [free] at hss }

theorem Inv.unshare (h : s.Inv) (ha : (s.control a).reads = false) :
    { s with readers := s.readers.erase a }.Inv :=
  { h with
    readers := fun b hb => by
      have hba : b ≠ a := fun heq => by rw [heq, ha] at hb; cases hb
      exact (mem_erase_of_ne hba).mpr (h.readers b hb)
    unread := fun hss => by
      rw [h.unread hss]
      rfl }

theorem Inv.insert (h : s.Inv) (hid : (s.threads.find? id).isSome) (free : s.session = none) :
    { s with registered := s.registered.insert id }.Inv :=
  { h with
    registered := by
      by_cases hm : id ∈ s.registered
      · rw [insert_of_mem hm]
        exact h.registered
      · rw [insert_of_not_mem hm]
        exact nodup_cons.mpr ⟨hm, h.registered⟩
    registered_present := fun k hk => by
      rcases mem_insert_iff.mp hk with rfl | hk
      · exact hid
      · exact h.registered_present k hk
    members := fun ss hss => by simp [free] at hss }

theorem Inv.erase (h : s.Inv) (id : ThreadId) (free : s.session = none) :
    { s with registered := s.registered.erase id }.Inv :=
  { h with
    registered := h.registered.erase id
    registered_present := fun k hk => h.registered_present k (mem_of_mem_erase hk)
    members := fun ss hss => by simp [free] at hss }

end Machine

end ManagedCore.StopTheWorld
