import ManagedCore.Machine.Control
import ManagedCore.Proofs.Bytecode.Direct
import ManagedCore.Proofs.Thread.Lookup

/-!
# Turns of an activation

A thread takes its turns while others change the world in between. Whatever they do, they leave it
its stack, the memory and the classes that its code needs. An activation leads to another one if
it gets there in every such world, possibly after it was stopped at a safepoint and let go again.
-/

namespace ManagedCore

open Exec Heap Option Array

namespace Exec

variable {α β : Type} {x : Exec α} {t : ThreadId} {w w₁ : World}

theorem bind_runOn {f : α → Exec β} {a : α}
    (h : x.runOn t w = .ok a w₁) : (x >>= f).runOn t w = (f a).runOn t w₁ := by
  change EStateM.bind (x t) (fun a => f a t) w = _
  unfold EStateM.bind
  rw [show x t w = .ok a w₁ from h]
  rfl

theorem get_runOn {f : World → Exec α} : (get >>= f).runOn t w = (f w).runOn t w := rfl

end Exec

/-- What the code of a thread needs of the world: room on its stack, a heap without a limit, and
exceptions for divisions by zero that have a field for their message. -/
structure Serves (t : ThreadId) (w : World) : Prop where
  room : ∃ th, w.thread? t = some th ∧ th.stackExhausted = false
  unlimited : w.heap.limit = 0
  arithmetic : ∃ c f, w.registry.loaded? Fault.arithmetic.className = some c ∧
    w.registry.class? c.id = some c ∧ c.findField? "message" messageDescriptor = some f ∧
    f.slot = messageSlot ∧ messageSlot < c.fieldTypes.length

/-- The state after some turns of a thread; `others` changes the world before each of them. -/
def turns (t : ThreadId) (others : Nat → World → World) (w : World) (c : Control) :
    Nat → World × Control
  | 0 => (w, c)
  | n + 1 => step t (others n (turns t others w c n).1) (turns t others w c n).2

def Activation.control (a : Activation) : Control := { tasks := [.activation a] }

/-- How the end of an activation agrees with the end of a body that is run directly. -/
def Agrees : Direct.Result → World → Outcome → Prop
  | .value v, _, o => o = .value v
  | .zeroDivisor, w, o => ∃ e, o = .thrown e ∧ w.className e = Fault.arithmetic.className ∧
      w.exceptionMessage? e = some "/ by zero"
  | .fatal, _, o => ∃ text, o = .failed (.internal text)

def Goes (t : ThreadId) (a b : Activation) : Prop :=
  ∀ w, Serves t w → ∃ w', Serves t w' ∧ a.act t w = (w', .stay (.activation b))

/-- At a safepoint, the thread goes on or waits to be released. -/
def Polls (t : ThreadId) (a : Activation) : Prop :=
  ∀ w, Serves t w → ∃ w', Serves t w' ∧ (a.act t w = (w', .stay (.activation a.next)) ∨
    a.act t w = (w', .stay (.activation { a with wait := .release })))

def Finishes (t : ThreadId) (r : Direct.Result) (a : Activation) : Prop :=
  ∀ w, Serves t w → ∃ w' o, a.act t w = (w', .leave o) ∧ Agrees r w' o

/-- At least `n` turns lead from one activation to another. -/
inductive Leads (t : ThreadId) : Nat → Activation → Activation → Prop where
  | here (a : Activation) : Leads t 0 a a
  | go {n : Nat} {a b c : Activation} : Goes t a b → Leads t n b c → Leads t (n + 1) a c
  | poll {n : Nat} {a b : Activation} : Polls t a → Leads t n a.next b → Leads t (n + 1) a b

/-! ## Worlds that keep serving -/

namespace Serves

variable {t : ThreadId} {w : World} {ts : Threads} {f : Thread → Thread}

theorem of_threads (h : Serves t w) {r : Rendezvous}
    (hts : ∃ th, ts.find? t = some th ∧ th.stackExhausted = false) :
    Serves t { w with threads := ts, rendezvous := r } :=
  ⟨hts, h.unlimited, h.arithmetic⟩

theorem modify_room (k : ThreadId)
    (hf : ∀ th, (f th).id = th.id ∧ (f th).room = th.room ∧ (f th).frames.size = th.frames.size)
    (h : ∃ th, ts.find? t = some th ∧ th.stackExhausted = false) :
    ∃ th, (ts.modify k f).find? t = some th ∧ th.stackExhausted = false := by
  obtain ⟨th, hth, hroom⟩ := h
  by_cases hk : t = k
  · subst hk
    refine ⟨f th, ?_, ?_⟩
    · rw [Threads.find?_modify_self _ _ fun th => (hf th).1, hth, map_some]
    · unfold Thread.stackExhausted Thread.stackUsed
      rw [(hf th).2.1, (hf th).2.2]
      exact hroom
  · exact ⟨th, by rw [Threads.find?_modify_ne _ (fun th => (hf th).1) hk, hth], hroom⟩

theorem modifyThread (h : Serves t w) (hf : ∀ th, (f th).id = th.id ∧ (f th).room = th.room ∧
      (f th).frames.size = th.frames.size) : Serves t (w.modifyThread t f) :=
  h.of_threads (modify_room t hf h.room)

theorem size_setPc (frames : FrameStack) (pc : Nat) : (frames.setPc pc).size = frames.size :=
  size_modify

theorem setPc (h : Serves t w) (pc : Nat) :
    Serves t (w.modifyThread t fun th => { th with frames := th.frames.setPc pc }) :=
  h.modifyThread fun th => ⟨rfl, rfl, size_setPc th.frames pc⟩

theorem publish (h : Serves t w) (roots : List ObjId) : Serves t (w.publish t roots) :=
  h.modifyThread fun _ => ⟨rfl, rfl, rfl⟩

theorem account_room (r : Rendezvous) (k : ThreadId) (status : ThreadStatus)
    (h : ∃ th, ts.find? t = some th ∧ th.stackExhausted = false) :
    ∃ th, (r.account ts k status).2.find? t = some th ∧ th.stackExhausted = false := by
  unfold Rendezvous.account
  split
  · exact h
  · split
    · exact h
    · exact modify_room k (fun _ => ⟨rfl, rfl, rfl⟩) h

theorem join_room (r : Rendezvous) (k : ThreadId)
    (h : ∃ th, ts.find? t = some th ∧ th.stackExhausted = false) :
    ∃ th, (r.join ts k).2.find? t = some th ∧ th.stackExhausted = false := by
  unfold Rendezvous.join
  split
  · exact modify_room k (fun _ => ⟨rfl, rfl, rfl⟩) (account_room r k .safepoint h)
  · exact h

theorem joinSafepoint (h : Serves t w) : Serves t (w.joinSafepoint t) :=
  h.of_threads (join_room w.rendezvous t h.room)

end Serves

/-! ## Following the turns -/

section Turns

variable {t : ThreadId} {others : Nat → World → World} {w : World} {c : Control} {a b : Activation}
  {w₁ : World} {k n m : Nat}

theorem Leads.trans {d : Activation} (h : Leads t n a b) (h' : Leads t m b d) :
    Leads t (n + m) a d := by
  induction h with
  | here a => rwa [Nat.zero_add]
  | @go n a b c hgo _ ih =>
    rw [Nat.add_right_comm]
    exact .go hgo (ih h')
  | @poll n a b hpoll _ ih =>
    rw [Nat.add_right_comm]
    exact .poll hpoll (ih h')

theorem goes_release (a : Activation) : Goes t { a with wait := .release } a.next :=
  fun _ hw => ⟨_, hw.publish [], rfl⟩

theorem turns_stay {w₂ : World} (h : turns t others w c k = (w₁, a.control))
    (hact : a.act t (others k w₁) = (w₂, .stay (.activation b))) :
    turns t others w c (k + 1) = (w₂, b.control) := by
  simp only [turns, h, step, Activation.control, Task.act, hact, Move.apply]

theorem Leads.turns (hothers : ∀ k w, Serves t w → Serves t (others k w)) {n : Nat}
    (hl : Leads t n a b) (hs : Serves t w₁) (h : turns t others w c k = (w₁, a.control)) :
    ∃ m w₂, n ≤ m ∧ Serves t w₂ ∧ ManagedCore.turns t others w c (k + m) = (w₂, b.control) := by
  induction hl generalizing k w₁ with
  | here a => exact ⟨0, w₁, Nat.le_refl 0, hs, h⟩
  | @go n a b c hgo _ ih =>
    obtain ⟨w₂, hs₂, hact⟩ := hgo _ (hothers k w₁ hs)
    obtain ⟨m, w₃, hle, hs₃, hend⟩ := ih hs₂ (turns_stay h hact)
    exact ⟨m + 1, w₃, Nat.succ_le_succ hle, hs₃, by rwa [Nat.add_right_comm] at hend⟩
  | @poll n a b hpoll _ ih =>
    obtain ⟨w₂, hs₂, hact | hact⟩ := hpoll _ (hothers k w₁ hs)
    · obtain ⟨m, w₃, hle, hs₃, hend⟩ := ih hs₂ (turns_stay h hact)
      exact ⟨m + 1, w₃, Nat.succ_le_succ hle, hs₃, by rwa [Nat.add_right_comm] at hend⟩
    · -- The thread was asked to stop: its next turn comes after the release.
      have hwait := turns_stay h hact
      obtain ⟨w₃, hs₃, hgo⟩ := goes_release a _ (hothers (k + 1) w₂ hs₂)
      obtain ⟨m, w₄, hle, hs₄, hend⟩ := ih hs₃ (turns_stay hwait hgo)
      refine ⟨m + 2, w₄, Nat.succ_le_succ (Nat.le_succ_of_le hle), hs₄, ?_⟩
      rw [← hend]
      congr 1
      omega

theorem Finishes.turns (hothers : ∀ k w, Serves t w → Serves t (others k w)) {r : Direct.Result}
    (hf : Finishes t r a) (hs : Serves t w₁) (h : turns t others w c k = (w₁, a.control)) :
    ∃ w₂ o, ManagedCore.turns t others w c (k + 1) = (w₂, { tasks := [], answer := some o }) ∧
      Agrees r w₂ o := by
  obtain ⟨w₂, o, hact, hagrees⟩ := hf _ (hothers k w₁ hs)
  refine ⟨w₂, o, ?_, hagrees⟩
  simp only [ManagedCore.turns, h, step, Activation.control, Task.act, hact, Move.apply]

/-- A thread with tasks left had some at every turn before. -/
theorem turns_isDone_of_le (hle : n ≤ m)
    (h : (turns t others w c m).2.isDone = false) : (turns t others w c n).2.isDone = false := by
  induction hle with
  | refl => exact h
  | @step m hle ih =>
    refine ih ?_
    cases hd : (turns t others w c m).2.isDone with
    | false => rfl
    | true =>
      have htasks : (turns t others w c m).2.tasks = [] := List.isEmpty_iff.mp hd
      have hstep : turns t others w c (m + 1) =
          (others m (turns t others w c m).1, (turns t others w c m).2) := by
        simp only [turns, step, htasks]
      rw [hstep, hd] at h
      exact h

end Turns

/-! ## Single turns -/

namespace Activation

variable {t : ThreadId} {a : Activation} {b : Block} {r : Reg} {slot : Nat} {i : Instr}
  {c : BlockCall} {k : Int32}

def Before (a : Activation) (i : Instr) : Prop :=
  a.wait = .nothing ∧
    ∃ b pc, a.function.block? a.block = some b ∧ b.instrs[a.index]? = some ⟨i, pc⟩

def AtEnd (a : Activation) (b : Block) : Prop :=
  a.wait = .nothing ∧ a.function.block? a.block = some b ∧ b.instrs[a.index]? = none

theorem act_of_wait (h : a.wait = .nothing) (w : World) : a.act t w = a.execute t w := by
  unfold act
  rw [h]

def settle (t : ThreadId) (a : Activation) : EStateM.Result Trap World Effect → World × Move
  | .ok effect w => a.carryOut t w effect
  | .error trap w => a.receive t w trap.outcome

def proceed (t : ThreadId) (a : Activation) : EStateM.Result Trap World Flow → World × Move
  | .ok flow w => a.follow t w flow
  | .error trap w => a.receive t w trap.outcome

theorem act_before (h : a.Before i) {w : World} (hw : Serves t w) :
    ∃ w', Serves t w' ∧ a.act t w = a.settle t ((evaluate a i).runOn t w') := by
  obtain ⟨hwait, b, pc, hb, hi⟩ := h
  rw [act_of_wait hwait, execute, hb]
  simp only [hi]
  cases i.isNumeric with
  | true => exact ⟨w, hw, rfl⟩
  | false => exact ⟨_, hw.setPc pc, rfl⟩

theorem act_atEnd (h : a.AtEnd b) (w : World) :
    a.act t w = a.proceed t ((terminate a b).runOn t w) := by
  obtain ⟨hwait, hb, hi⟩ := h
  rw [act_of_wait hwait, execute, hb]
  simp only [hi]
  rfl

theorem goes_assign {v : Value} (h : a.Before i)
    (he : ∀ w, Serves t w → (evaluate a i).runOn t w = .ok (.assign r v) w) :
    Goes t a (a.set r v).next := by
  intro w hw
  obtain ⟨w', hw', hact⟩ := act_before h hw
  exact ⟨w', hw', by rw [hact, he w' hw']; rfl⟩

theorem goes_storeLocal (h : a.Before (.storeLocal slot r)) (hslot : slot < a.locals.size) :
    Goes t a { a with locals := a.locals.setIfInBounds slot (a.get r) }.next := by
  intro w hw
  obtain ⟨w', hw', hact⟩ := act_before h hw
  refine ⟨w', hw', ?_⟩
  have he : (evaluate a (.storeLocal slot r)).runOn t w' = .ok (.store slot (a.get r)) w' := by
    simp only [evaluate, hslot]
    rfl
  rw [hact, he]
  rfl

theorem finishes_storeLocal (h : a.Before (.storeLocal slot r))
    (hslot : a.locals.size ≤ slot) : Finishes t .fatal a := by
  intro w hw
  obtain ⟨w', hw', hact⟩ := act_before h hw
  have he : (evaluate a (.storeLocal slot r)).runOn t w' =
      .error (.failed (.internal s!"local {slot} out of range")) w' := by
    simp only [evaluate, Nat.not_lt.mpr hslot]
    rfl
  refine ⟨_, _, by rw [hact, he]; rfl, _, rfl⟩

theorem polls_safepoint (h : a.Before .safepoint) : Polls t a := by
  intro w hw
  obtain ⟨w', hw', hact⟩ := act_before h hw
  have he : a.act t w = a.carryOut t w' .poll := hact
  rw [he, carryOut]
  split
  · exact ⟨_, (hw'.publish _).joinSafepoint, .inr rfl⟩
  · exact ⟨_, hw', .inl rfl⟩

theorem goes_goTo (h : a.AtEnd b)
    (he : ∀ w, (terminate a b).runOn t w = .ok (.goTo c) w) : Goes t a (a.goTo c) := by
  intro w hw
  exact ⟨w, hw, by rw [act_atEnd h, he]; rfl⟩

theorem terminate_jump (hb : b.terminator = .jump c) (w : World) :
    (terminate a b).runOn t w = .ok (.goTo c) w := by
  rw [terminate, hb]
  rfl

theorem terminate_branch {yes no : BlockCall} (hb : b.terminator = .branch r yes no)
    (hr : a.get r = .int k) (w : World) :
    (terminate a b).runOn t w = .ok (.goTo (if k = 0 then no else yes)) w := by
  have hint : int a r = pure k := by rw [int, hr]
  rw [terminate, hb]
  simp only [hint]
  rfl

theorem terminate_switch {cases : List (Int32 × BlockCall)} {default : BlockCall}
    (hb : b.terminator = .switch r cases default) (hr : a.get r = .int k) (w : World) :
    (terminate a b).runOn t w =
      .ok (.goTo (((cases.find? fun c => c.1 == k).map (·.2)).getD default)) w := by
  have hint : int a r = pure k := by rw [int, hr]
  rw [terminate, hb]
  simp only [hint]
  rfl

theorem finishes_result {v : Option Reg} (h : a.AtEnd b) (hb : b.terminator = .result v) :
    Finishes t (.value (v.map a.get)) a := by
  intro w _
  refine ⟨w.restore t a.scope, .value (v.map a.get), ?_, rfl⟩
  rw [act_atEnd h, terminate, hb]
  rfl

theorem finishes_unreachable (h : a.AtEnd b) (hb : b.terminator = .unreachable) :
    Finishes t .fatal a := by
  intro w _
  have he : (terminate a b).runOn t w = .error (.failed (.internal
      s!"{a.function.name} reached the end of {BlockId.text a.block}")) w := by
    simp only [terminate, hb]
    rfl
  exact ⟨_, _, by rw [act_atEnd h, he]; rfl, _, rfl⟩

end Activation

/-! ## Divisions by zero -/

/-- The heap holds an exception for a division by zero, with its message. -/
def HoldsArithmetic (w : World) (e : ObjId) : Prop :=
  ∃ c f obj fields s txt, w.registry.class? c.id = some c ∧
    c.name = Fault.arithmetic.className ∧ c.findField? "message" messageDescriptor = some f ∧
    w.heap.get? e = some obj ∧ obj.cls = c.ref ∧ obj.content = .instance fields ∧
    fields[f.slot]? = some (.obj s) ∧ w.heap.get? s = some txt ∧ txt.content = .text "/ by zero"

namespace HoldsArithmetic

variable {w : World} {e : ObjId}

theorem agrees (h : HoldsArithmetic w e) : Agrees .zeroDivisor w (.thrown e) := by
  obtain ⟨c, f, obj, fields, s, txt, hc, hname, hf, hobj, hcls, hcontent, hfield, hs, htext⟩ := h
  refine ⟨e, rfl, ?_, ?_⟩
  · simp only [World.className, World.object?, hobj, map_some, hcls]
    exact hname
  · have hclass : w.classOf? e = some c := by
      simp only [World.classOf?, World.object?, hobj, bind_some, hcls]
      exact hc
    have hmsg : w.string? s = some "/ by zero" := by
      simp only [World.string?, World.object?, hs, bind_some, Object.string?, htext]
    simp only [World.exceptionMessage?, hclass, hf, World.object?, hobj, hcontent, hfield,
      bind_eq_bind, bind_some, Value.obj, Value.obj?, hmsg]

theorem captureTrace (h : HoldsArithmetic w e) (t : ThreadId) :
    HoldsArithmetic (w.captureTrace t e) e := by
  unfold World.captureTrace
  split
  · rename_i thread _ _
    obtain ⟨c, f, obj, fields, s, txt, hc, hname, hf, hobj, hcls, hcontent, hfield, hs, htext⟩ := h
    have hne : e ≠ s := by
      rintro rfl
      rw [hobj, some.injEq] at hs
      rw [← hs, hcontent] at htext
      cases htext
    refine ⟨c, f, { obj with trace := some (thread.frames.trace w.registry) }, fields, s, txt, hc,
      hname, hf, ?_, hcls, hcontent, hfield, ?_, htext⟩
    · rw [Heap.get?] at hobj
      simp only [Heap.get?, Heap.modify, getElem?_modify, if_true, hobj, map_some]
    · rw [Heap.get?] at hs
      simp only [Heap.get?, Heap.modify, getElem?_modify, if_neg hne, hs]
  · exact h

end HoldsArithmetic

theorem Heap.allocateSized_unlimited {h : Heap} (hl : h.limit = 0) (size : Nat)
    (o : Unit → Object) : ∃ h', h.allocateSized size o = (.ok h.objects.size, h') ∧
      h'.objects = h.objects.push (o ()) ∧ h'.limit = 0 := by
  have hgrant : h.grant size = .ok (min (h.allocated + size) 18446744073709551615) := by
    simp only [grant, hl, Nat.lt_irrefl, false_and, if_false]
  rw [allocateSized, hgrant]
  exact ⟨_, rfl, rfl, hl⟩

theorem Serves.createException {t : ThreadId} {w : World} (h : Serves t w) :
    HoldsArithmetic (w.createException .arithmetic (some "/ by zero")).2
      (w.createException .arithmetic (some "/ by zero")).1 := by
  obtain ⟨c, f, hloaded, hc, hf, hslot, hfields⟩ := h.arithmetic
  have hname : c.name = Fault.arithmetic.className := by simpa using find?_some hloaded
  obtain ⟨h₁, hobj, hobjects, hlimit⟩ :=
    allocateSized_unlimited h.unlimited c.size fun _ => instanceOf c
  obtain ⟨h₂, htext, hobjects₂, -⟩ :=
    allocateSized_unlimited hlimit (16 + "/ by zero".utf8ByteSize)
      fun _ => { cls := w.stringRef, content := .text "/ by zero" }
  rw [hobjects, size_push] at htext
  let named (o : Object) : Object := World.setField o messageSlot (.obj (w.heap.objects.size + 1))
  have hcreate : w.createException .arithmetic (some "/ by zero") =
      (w.heap.objects.size, { w with heap := h₂.modify w.heap.objects.size named }) := by
    simp only [World.createException, hloaded, World.allocate, allocate, hobj,
      World.allocateText, allocateText]
    rw [show World.stringRef { w with heap := h₁ } = w.stringRef from rfl, htext]
  have hlen : messageSlot < (c.fieldTypes.map Value.zero).length := by rwa [List.length_map]
  rw [hcreate]
  refine ⟨c, f, named (instanceOf c), _, w.heap.objects.size + 1,
    { cls := w.stringRef, content := .text "/ by zero" }, hc, hname, hf, ?_, rfl, rfl, ?_, ?_, rfl⟩
  · simp only [Heap.get?, Heap.modify, getElem?_modify, if_true, hobjects₂, hobjects]
    rw [getElem?_push_lt (by simp), getElem_push_eq, map_some]
  · rw [hslot, getElem?_setIfInBounds_self_of_lt (by simpa using hlen)]
  · simp only [Heap.get?, Heap.modify, getElem?_modify, hobjects₂, hobjects]
    rw [if_neg (by omega), getElem?_push, if_pos (by simp)]

theorem Activation.finishes_raise {t : ThreadId} {a : Activation} {b : Block} (h : a.AtEnd b)
    (hb : b.terminator = .raise .arithmetic [] (some "/ by zero")) (hhandler : b.handler = none) :
    Finishes t .zeroDivisor a := by
  intro w hw
  have hw' := hw.setPc b.terminatorPc
  have he : ∃ e w', (terminate a b).runOn t w = .error (.thrown e) w' ∧
      HoldsArithmetic w' e := by
    refine ⟨_, _, ?_, hw'.createException.captureTrace t⟩
    simp only [terminate, hb]
    rfl
  obtain ⟨e, w', he, hholds⟩ := he
  have hnone : a.handler? = none := by
    simp only [Activation.handler?, h.2.1, bind_some, hhandler]
  refine ⟨w'.restore t a.scope, .thrown e, ?_, hholds.agrees⟩
  rw [act_atEnd h, he]
  simp only [proceed, Trap.outcome, receive, unpin, h.1, hnone, leave]

end ManagedCore
