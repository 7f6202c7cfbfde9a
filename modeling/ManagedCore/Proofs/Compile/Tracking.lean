import ManagedCore.Proofs.Compile.Edges
import ManagedCore.Proofs.Machine.Turns

/-!
# Activations that follow emitted code

An activation of the finished function stands where emission stood in an earlier state. The
registers on the symbolic stack hold the values of an operand stack, and the local slots are those
of a body that is run directly. Each lemma takes the activation past one piece of code that was
emitted there.
-/

namespace ManagedCore

open Activation Direct List

namespace Activation

variable {a : Activation} {r k : Nat} {v : Value}

theorem get_set_self (h : r < a.regs.size) : (a.set r v).get r = v := by simp [get, set, h]

theorem get_set_ne (h : k ≠ r) : (a.set r v).get k = a.get k := by
  simp [get, set, Array.getElem?_setIfInBounds_ne (Ne.symm h)]

@[simp] theorem size_regs_set : (a.set r v).regs.size = a.regs.size := Array.size_setIfInBounds

/-- Assignments of registers that differ from one another all last. -/
theorem foldl_set {params : List Reg} {vs : List Value} (hnodup : params.Nodup)
    (hlen : params.length = vs.length) (hlt : ∀ p ∈ params, p < a.regs.size) :
    let b := (params.zip vs).foldl (fun a p => a.set p.1 p.2) a
    params.map b.get = vs ∧ (∀ k, k ∉ params → b.get k = a.get k) ∧
      b.regs.size = a.regs.size ∧ b = { a with regs := b.regs } := by
  induction params generalizing vs a with
  | nil =>
    cases vs with
    | nil => exact ⟨rfl, fun _ _ => rfl, rfl, rfl⟩
    | cons v vs => cases hlen
  | cons p params ih =>
    cases vs with
    | nil => cases hlen
    | cons v vs =>
      obtain ⟨hnot, hnodup⟩ := nodup_cons.mp hnodup
      have hp : p < a.regs.size := hlt p mem_cons_self
      obtain ⟨hvals, hothers, hsize, heq⟩ := ih (a := a.set p v) hnodup
        (Nat.succ.inj hlen) fun q hq => by
          rw [size_regs_set]
          exact hlt q (mem_cons_of_mem _ hq)
      rw [zip_cons_cons, foldl_cons]
      refine ⟨?_, ?_, hsize.trans size_regs_set, heq⟩
      · rw [map_cons, hvals, hothers p hnot, get_set_self hp]
      · intro k hk
        rw [hothers k fun hmem => hk (mem_cons_of_mem _ hmem),
          get_set_ne (ne_of_not_mem_cons hk)]

theorem goTo_nil (b : BlockId) :
    a.goTo ⟨b, []⟩ = { a with block := b, index := 0, wait := .nothing } := by
  simp [goTo, enter]

end Activation

structure Carries (n : Nat) (a : Activation) (s : SymStack) (vs : List Value) : Prop where
  values : s.map (fun e => a.get e.1) = vs
  typed : ∀ e ∈ s, e.1 < n ∧ (a.get e.1).type = e.2

namespace Carries

variable {n : Nat} {a : Activation} {s : SymStack} {vs : List Value} {r : Nat} {t : ValueType}

theorem uncons (h : Carries n a ((r, t) :: s) vs) :
    ∃ rest, vs = a.get r :: rest ∧ (a.get r).type = t ∧ r < n ∧ Carries n a s rest := by
  obtain ⟨hlt, htype⟩ := h.typed (r, t) mem_cons_self
  exact ⟨_, h.values.symm, htype, hlt, rfl, fun e he => h.typed e (mem_cons_of_mem _ he)⟩

theorem cons (h : Carries n a s vs) (hlt : r < n) (ht : (a.get r).type = t) :
    Carries n a ((r, t) :: s) (a.get r :: vs) :=
  ⟨by rw [map_cons, h.values], forall_mem_cons.mpr ⟨⟨hlt, ht⟩, h.typed⟩⟩

theorem types (h : Carries n a s vs) : vs.map Value.type = s.map (·.2) := by
  rw [← h.values, map_map]
  exact map_congr_left fun e he => (h.typed e he).2

theorem congr {m : Nat} {b : Activation} (h : Carries n a s vs) (hle : n ≤ m)
    (hb : ∀ k, k < n → b.get k = a.get k) : Carries m b s vs := by
  refine ⟨?_, fun e he => ?_⟩
  · rw [← h.values]
    exact map_congr_left fun e he => hb e.1 (h.typed e he).1
  · obtain ⟨hlt, ht⟩ := h.typed e he
    exact ⟨Nat.lt_of_lt_of_le hlt hle, by rw [hb _ hlt, ht]⟩

theorem of_subset {s' : SymStack} (h : Carries n a s vs) (hsub : ∀ e ∈ s', e ∈ s) :
    Carries n a s' (s'.map fun e => a.get e.1) :=
  ⟨rfl, fun e he => h.typed e (hsub e he)⟩

end Carries

structure Stands (fin st : EmitState) (a : Activation) : Prop where
  function : a.function = fin.function
  wait : a.wait = .nothing
  block : a.block = st.block
  index : ∀ blk, st.function.block? st.block = some blk → a.index = blk.instrs.size
  regs : a.regs.size = fin.nextReg

/-- The activation stands where emission stood with this symbolic stack, and agrees with a state
of the body that is run directly. -/
structure Tracks (body : Body) (fin st : EmitState) (s : SymStack) (d : State)
    (a : Activation) : Prop where
  stands : Stands fin st a
  stack : Carries st.nextReg a s d.stack
  locals : a.locals = d.locals
  room : a.locals.size = body.code.maxLocals

/-- The activation stands at the start of the block for the offset of a direct state. -/
structure AtBlock (body : Body) (fin : EmitState) (d : State) (a : Activation) : Prop where
  function : a.function = fin.function
  wait : a.wait = .nothing
  index : a.index = 0
  regs : a.regs.size = fin.nextReg
  block : body.graph.blockAt? d.pc = some a.block
  stack : ∃ ps, fin.shapes.lookup a.block = some ps ∧ Carries fin.nextReg a ps.reverse d.stack
  locals : a.locals = d.locals
  room : a.locals.size = body.code.maxLocals

/-- Compiled code does what the direct step did: it gets to a good state after the least number
of turns, or ends in the same way. Nothing is said once a local was used with a wrong type. -/
def Simulates (tid : ThreadId) (least : Nat) (Good : State → Activation → Prop)
    (a : Activation) : Step → Prop
  | .next d => ∃ n b, least ≤ n ∧ Leads tid n a b ∧ Good d b
  | .done r => ∃ n b, Leads tid n a b ∧ Finishes tid r b
  | .mistyped => True
  | .malformed => False

section

open EmitState

variable {body : Body} {fin st st' : EmitState} {s : SymStack} {d : State} {a : Activation}
  {tid : ThreadId} {least : Nat} {Good : State → Activation → Prop} {r : Step}
  {t : ValueType} {branch failure : Terminator} {make : Reg → Instr} {slot : Nat} {i : Instr}

theorem Simulates.of_leads {n : Nat} {b : Activation} (hl : Leads tid n a b)
    (h : Simulates tid least Good b r) : Simulates tid (n + least) Good a r := by
  cases r with
  | next d =>
    obtain ⟨m, c, hle, hlead, hgood⟩ := h
    exact ⟨n + m, c, Nat.add_le_add_left hle n, hl.trans hlead, hgood⟩
  | done r =>
    obtain ⟨m, c, hlead, hfin⟩ := h
    exact ⟨n + m, c, hl.trans hlead, hfin⟩
  | mistyped => trivial
  | malformed => exact h

theorem Simulates.andThen {Good' : State → Activation → Prop}
    (h : Simulates tid least Good a r) (m : Nat)
    (hgood : ∀ d b, Good d b → ∃ c, Leads tid m b c ∧ Good' d c) :
    Simulates tid (least + m) Good' a r := by
  cases r with
  | next d =>
    obtain ⟨n, b, hle, hlead, hg⟩ := h
    obtain ⟨c, hlead', hg'⟩ := hgood d b hg
    exact ⟨n + m, c, Nat.add_le_add_right hle m, hlead.trans hlead', hg'⟩
  | done | malformed => exact h
  | mistyped => trivial

theorem Simulates.mono {m : Nat} (h : Simulates tid least Good a r) (hle : m ≤ least) :
    Simulates tid m Good a r := by
  cases r with
  | next d =>
    obtain ⟨n, b, hn, hrest⟩ := h
    exact ⟨n, b, Nat.le_trans hle hn, hrest⟩
  | done | malformed => exact h
  | mistyped => trivial

theorem Stands.sameSpot (h : Stands fin st a) (hs : SameSpot st st') : Stands fin st' a where
  function := h.function
  wait := h.wait
  block := h.block.trans hs.block.symm
  index blk hblk := by
    rw [hs.block, hs.content] at hblk
    exact h.index blk hblk
  regs := h.regs

section

variable (h : Tracks body fin st s d a)

include h

theorem Tracks.sameSpot (hs : SameSpot st st')
    (hle : st.nextReg ≤ st'.nextReg) : Tracks body fin st' s d a :=
  ⟨h.stands.sameSpot hs, h.stack.congr hle fun _ _ => rfl, h.locals, h.room⟩

theorem Tracks.at_pc (pc : Nat) : Tracks body fin st s { d with pc } a :=
  ⟨h.stands, h.stack, h.locals, h.room⟩

theorem Tracks.local_lt (hslot : slot < body.code.maxLocals) : slot < d.locals.size := by
  rw [← h.locals, h.room]
  exact hslot

theorem Tracks.exists_local (hslot : slot < body.code.maxLocals) : ∃ v, d.locals[slot]? = some v ∧
      ∀ r tid w, (Exec.evaluate a (.loadLocal r slot)).runOn tid w = .ok (.assign r v) w := by
  have hget := Array.getElem?_eq_getElem (h.local_lt hslot)
  refine ⟨_, hget, fun r tid w => ?_⟩
  simp only [Exec.evaluate, h.locals, hget]
  rfl

end

theorem Stands.before (h : Stands fin st a) (hs : Sound body.graph st)
    (he : Extends body.graph (st.addInstr i) fin) : a.Before i := by
  obtain ⟨blk, hblk⟩ := hs.inRange
  have hnew : (st.addInstr i).function.block? (st.addInstr i).block =
      some { blk with instrs := blk.instrs.push ⟨i, st.pc⟩ } := by
    rw [show (st.addInstr i).block = st.block from rfl, EmitState.addInstr, block_onCurrent,
      if_pos rfl, hblk, Option.map_some]
  obtain ⟨final, hfinal, hbegins⟩ := he.current _ hnew
  refine ⟨h.wait, final, st.pc, ?_, ?_⟩
  · rw [h.function, h.block]
    exact hfinal
  · rw [h.index blk hblk]
    exact hbegins _ _ (by simp)

theorem Stands.next_addInstr (h : Stands fin st a) {b : Activation}
    (hb : b.function = a.function ∧ b.block = a.block ∧ b.regs.size = a.regs.size)
    (hindex : b.index = a.index + 1) (hwait : b.wait = .nothing) :
    Stands fin (st.addInstr i) b where
  function := hb.1.trans h.function
  wait := hwait
  block := hb.2.1.trans h.block
  index blk hblk := by
    rw [show (st.addInstr i).block = st.block from rfl, EmitState.addInstr, block_onCurrent,
      if_pos rfl] at hblk
    obtain ⟨old, hold, rfl⟩ := Option.map_eq_some_iff.mp hblk
    rw [hindex, h.index old hold, Array.size_push]
  regs := hb.2.2.trans h.regs

theorem nextReg_addValue : (st.addValue t make).nextReg = st.nextReg + 1 := Array.size_push _

section

variable (tid : ThreadId) (h : Tracks body fin st s d a) (hs : Sound body.graph st) {v : Value}
include h hs

theorem Tracks.addValue (he : Extends body.graph (st.addValue t make) fin) (hv : v.type = t)
    (heval : ∀ w, Serves tid w →
      (Exec.evaluate a (make st.nextReg)).runOn tid w = .ok (.assign st.nextReg v) w) :
    ∃ b, Leads tid 1 a b ∧ b.get st.nextReg = v ∧
      Tracks body fin (st.addValue t make) ((st.nextReg, t) :: s)
        { d with stack := v :: d.stack } b := by
  have hstands := h.stands.sameSpot (sameSpot_addReg t)
  have hbefore : a.Before (make st.nextReg) := hstands.before (hs.addReg t) he
  have hlt : st.nextReg < a.regs.size := by
    have hle := he.nextReg_le
    rw [nextReg_addValue] at hle
    rw [h.stands.regs]
    exact hle
  let b := (a.set st.nextReg v).next
  have hget : b.get st.nextReg = v := get_set_self hlt
  refine ⟨b, .go (goes_assign hbefore heval) (.here _), hget,
    hstands.next_addInstr ⟨rfl, rfl, size_regs_set⟩ rfl rfl, ?_, h.locals, h.room⟩
  have hcarries : Carries (st.nextReg + 1) b s d.stack :=
    h.stack.congr (Nat.le_succ _) fun k hk => get_set_ne (Nat.ne_of_lt hk)
  rw [nextReg_addValue]
  have hcons := hcarries.cons (Nat.lt_succ_self _) (by rw [hget, hv])
  rwa [hget] at hcons

theorem Tracks.addStore {slot r : Nat} {vs : List Value} (hstack : d.stack = v :: vs)
    (htop : ∃ s', s = (r, t) :: s') (he : Extends body.graph (st.addInstr (.storeLocal slot r)) fin)
    (hslot : slot < body.code.maxLocals) :
    ∃ b, Leads tid 1 a b ∧ Tracks body fin (st.addInstr (.storeLocal slot r)) s
      { d with locals := d.locals.setIfInBounds slot v } b := by
  obtain ⟨s', rfl⟩ := htop
  have hr : a.get r = v := by
    obtain ⟨rest, hvs, -⟩ := h.stack.uncons
    rw [hstack, cons.injEq] at hvs
    exact hvs.1.symm
  have hbefore := h.stands.before hs he
  have hgo := goes_storeLocal (t := tid) hbefore (h.room.symm ▸ hslot)
  rw [hr] at hgo
  refine ⟨_, .go hgo (.here _), h.stands.next_addInstr ⟨rfl, rfl, rfl⟩ rfl rfl,
    h.stack.congr (Nat.le_refl _) fun _ _ => rfl, ?_, ?_⟩
  · change a.locals.setIfInBounds slot v = d.locals.setIfInBounds slot v
    rw [h.locals]
  · change (a.locals.setIfInBounds slot v).size = _
    rw [Array.size_setIfInBounds, h.room]

theorem Tracks.addPoll (he : Extends body.graph (st.addInstr .safepoint) fin) :
    ∃ b, Leads tid 1 a b ∧ Tracks body fin (st.addInstr .safepoint) s d b := by
  have hbefore := h.stands.before hs he
  exact ⟨a.next, .poll (polls_safepoint hbefore) (.here _),
    h.stands.next_addInstr ⟨rfl, rfl, rfl⟩ rfl rfl,
    h.stack.congr (Nat.le_refl _) fun _ _ => rfl, h.locals, h.room⟩

end

/-! ## Ends of blocks -/

theorem Stands.atEnd (h : Stands fin st a) (hs : Sound body.graph st) {t : Terminator}
    (hfix : (st.close t).Closed body.graph) (he : Extends body.graph (st.close t) fin) :
    ∃ blk, a.AtEnd blk ∧ blk.terminator = t := by
  obtain ⟨blk, hblk⟩ := hs.inRange
  have hnew : (st.close t).function.block? st.block =
      some { blk with terminator := t, terminatorPc := st.pc } := by
    rw [EmitState.close, block_onCurrent, if_pos rfl, hblk, Option.map_some]
  refine ⟨{ blk with terminator := t, terminatorPc := st.pc }, ⟨h.wait, ?_, ?_⟩, rfl⟩
  · rw [h.function, h.block]
    exact (he.fixed _ hfix).2.trans hnew
  · rw [h.index blk hblk]
    exact Array.getElem?_eq_none (Nat.le_refl _)

theorem EmitState.Reaches.atBlock {target : Nat} {c : BlockCall}
    (hr : Reaches body.graph target s c fin) (hfin : Sound body.graph fin) (h : Tracks body fin st s d a) :
    AtBlock body fin { d with pc := target } (a.goTo c) := by
  obtain ⟨ps, hlook, htypes⟩ := hr.shape
  obtain ⟨-, hnodup, hlt, blk, hblk, hparams⟩ := hfin.shaped _ _ hlook
  have hps : ((a.function.block? c.block).map Block.params).getD [] = ps.map (·.1) := by
    rw [h.stands.function, hblk, Option.map_some, Option.getD_some, hparams]
  have hargs : c.args.map a.get = d.stack.reverse := by
    rw [hr.args, SymStack.regs, map_reverse, map_map, ← h.stack.values]
    rfl
  have hlen : (ps.map (·.1)).length = d.stack.reverse.length := by
    have hshape := congrArg length htypes
    simp only [SymStack.shape, length_map] at hshape
    rw [← h.stack.values]
    simp only [length_map, length_reverse, hshape]
  have hlt' : ∀ p ∈ ps.map (·.1), p < a.regs.size := by
    intro p hp
    obtain ⟨q, hq, rfl⟩ := mem_map.mp hp
    rw [h.stands.regs]
    exact hlt q hq
  obtain ⟨hvals, -, hsize, heq⟩ := foldl_set hnodup hlen hlt'
  have hgo : a.goTo c = { ((ps.map (·.1)).zip d.stack.reverse).foldl
      (fun a p => a.set p.1 p.2) a with block := c.block, index := 0, wait := .nothing } := by
    simp only [goTo, enter, hps, hargs]
  rw [hgo]
  generalize ((ps.map (·.1)).zip d.stack.reverse).foldl (fun a p => a.set p.1 p.2) a = b at *
  have hvals' : ps.map (fun p => b.get p.1) = d.stack.reverse := by
    rw [← hvals, map_map]
    rfl
  refine ⟨?_, rfl, rfl, hsize.trans h.stands.regs, hr.block, ⟨ps, hlook, ?_, ?_⟩, ?_, ?_⟩
  · rw [heq]
    exact h.stands.function
  · change ps.reverse.map (fun p => b.get p.1) = d.stack
    rw [map_reverse, hvals', reverse_reverse]
  · have htypes' : ps.map (fun p => (b.get p.1).type) = ps.map (·.2) := by
      rw [htypes, SymStack.shape, ← h.stack.types, ← map_reverse, ← hvals', map_map]
      rfl
    intro p hp
    have hp' : p ∈ ps := mem_reverse.mp hp
    exact ⟨hlt p hp', map_inj_left.mp htypes' p hp'⟩
  · rw [heq]
    exact h.locals
  · rw [heq]
    exact h.room

/-! ## Guards -/

theorem Stands.atFork (h : Stands fin st a) (hs : Sound body.graph st)
    (hbranch : branch ≠ .unreachable) (he : Extends body.graph (st.fork branch failure) fin) :
    ∃ blk, a.AtEnd blk ∧ blk.terminator = branch := by
  obtain ⟨blk, hblk⟩ := hs.inRange
  have hnew : (st.fork branch failure).function.block? st.block =
      some { blk with terminator := branch, terminatorPc := st.pc } := block_fork_current hblk
  refine ⟨{ blk with terminator := branch, terminatorPc := st.pc }, ⟨h.wait, ?_, ?_⟩, rfl⟩
  · rw [h.function, h.block]
    exact (he.fixed _ ⟨_, hnew, hs.current, fun _ => hbranch⟩).2.trans hnew
  · rw [h.index blk hblk]
    exact Array.getElem?_eq_none (Nat.le_refl _)

theorem Tracks.pass (h : Tracks body fin st s d a) :
    Tracks body fin (st.fork branch failure) s d (a.goTo ⟨st.nextBlock + 1, []⟩) := by
  rw [goTo_nil]
  refine ⟨⟨h.stands.function, rfl, rfl, ?_, h.stands.regs⟩,
    h.stack.congr (Nat.le_refl _) fun _ _ => rfl, h.locals, h.room⟩
  intro blk hblk
  rw [show (st.fork branch failure).block = st.nextBlock + 1 from rfl, block_fork_next] at hblk
  cases hblk
  rfl

theorem Stands.fail (h : Stands fin st a) (hs : Sound body.graph st)
    (he : Extends body.graph (st.fork branch failure) fin) :
    (a.goTo ⟨st.nextBlock, []⟩).AtEnd { terminator := failure, terminatorPc := st.pc } := by
  rw [goTo_nil]
  have hblk := @block_fork_failure st branch failure
  have hfixed : (st.fork branch failure).Fixed body.graph st.nextBlock :=
    ⟨_, hblk, fun hp => hs.nextBlock_not_mem (n := 0) hp.1,
      fun heq => absurd heq (Nat.ne_of_lt (Nat.lt_succ_self _))⟩
  refine ⟨rfl, ?_, rfl⟩
  rw [h.function]
  exact (he.fixed _ hfixed).2.trans hblk

end

end ManagedCore
