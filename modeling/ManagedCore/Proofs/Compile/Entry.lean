import ManagedCore.Proofs.Compile.Composition
import ManagedCore.Proofs.Compile.Expansion

/-!
# Monitors of synchronized methods

A synchronized method takes a monitor at the end of its entry block: that of the receiver, or that
of the class. The register of the object is set nowhere else, so the block that releases the
monitor finds the same object in it.
-/

namespace ManagedCore

open EmitState Array

/-- Blocks in front of the body: the entry, the release of the monitor, and the check of the
stack. -/
def Method.frontBlocks (m : Method) : Nat := if m.isSynchronized then 3 else 2

/-- The code leaves the object whose monitor the method takes in a register. -/
inductive Fetches (m : Method) (object : Reg) (params : List Reg) : List PlacedInstr → Prop where
  | receiver {front : List PlacedInstr} {rest : List Reg} : m.isStatic = false →
      params = object :: rest → object ∉ rest → (∀ p ∈ front, p.instr.dest? = none) →
      Fetches m object params front
  | classLock {front : List PlacedInstr} {pc : Nat} : m.isStatic = true →
      Fetches m object params
        (front ++ [⟨.classMonitor object (.resolved ⟨m.owner, m.ownerName⟩), pc⟩])

/-- The entry block takes a monitor at its end. -/
structure Block.Takes (blk : Block) (m : Method) (object : Reg) : Prop where
  instrs : ∃ front pc, blk.instrs.toList = front ++ [⟨.monitorEnter object, pc⟩] ∧
    Fetches m object blk.params front
  handler : blk.handler = none

/-- The entry block takes a monitor, and no other block sets the register of its object. -/
structure Function.Takes (f : Function) (m : Method) (object : Reg) : Prop where
  reg : object < f.regTypes.size
  entry : ∃ blk start, f.block? 0 = some blk ∧ blk.Takes m object ∧
    blk.terminator = .jump ⟨start, []⟩
  only : ∀ b blk, b ≠ 0 → f.block? b = some blk → ¬ blk.Sets object

inductive Acquired (m : Method) (st : EmitState) :
    Option (Reg × BlockId) → EmitState → Prop where
  | plain : m.isSynchronized = false → Acquired m st none st
  | locked {object : Reg} {entry release : Block} {st' : EmitState} : m.isSynchronized = true →
      st'.function.blocks = #[entry, release] → entry.Takes m object →
      ¬ release.Sets object → object < st'.nextReg → Acquired m st (some (object, 1)) st'

/-- The block that releases the monitor of an object and passes the exception on. -/
def EmitState.addUnwind (st : EmitState) (object : Reg) : EmitState :=
  let new := st.addContinuation none (some .ref)
  ({ new with block := st.nextBlock }.addInstr (.monitorExit object)).close (.resume st.nextReg)

section

variable {st st' : EmitState} {m : Method} {blk : Block} {params : List Reg}
  {lock : Option (Reg × BlockId)}

theorem Emit.acquire_ok (h : acquire m params st = .ok lock st') :
    (m.isSynchronized = false ∧ lock = none ∧ st' = st) ∨ m.isSynchronized = true ∧ ∃ object mid,
        lock = some (object, (mid.addInstr (.monitorEnter object)).nextBlock) ∧
        st' = (mid.addInstr (.monitorEnter object)).addUnwind object ∧
        ((m.isStatic = false ∧ (∃ rest, params = object :: rest) ∧ mid = st) ∨
          (m.isStatic = false → params = []) ∧ object = st.nextReg ∧
            mid = st.addValue .ref (.classMonitor · (.resolved ⟨m.owner, m.ownerName⟩))) := by
  cases hsync : m.isSynchronized with
  | false =>
    rw [acquire, hsync] at h
    cases h
    exact .inl ⟨rfl, rfl, rfl⟩
  | true =>
    have htaken : ∀ object mid, (do
        instr (.monitorEnter object)
        let unwind ← newBlock none
        let exception ← newParam unwind .ref
        switchTo unwind
        instr (.monitorExit object)
        terminate (.resume exception)
        return some (object, unwind)) mid = .ok lock st' →
        lock = some (object, (mid.addInstr (.monitorEnter object)).nextBlock) ∧
          st' = (mid.addInstr (.monitorEnter object)).addUnwind object := by
      intro object mid h
      have henter : instr (.monitorEnter object) mid =
          .ok () (mid.addInstr (.monitorEnter object)) := rfl
      rw [bind_eq henter, bind_eq (newBlock_eq _ none)] at h
      cases h
      exact ⟨rfl, rfl⟩
    let monitor (r : Reg) : Instr := .classMonitor r (.resolved ⟨m.owner, m.ownerName⟩)
    have hclass := htaken st.nextReg (st.addValue .ref monitor)
    refine .inr ⟨rfl, ?_⟩
    rw [acquire, hsync] at h
    cases hstatic : m.isStatic with
    | true =>
      simp only [hstatic] at h
      obtain ⟨hlock, hst⟩ := hclass h
      exact ⟨_, _, hlock, hst, .inr ⟨by simp, rfl, rfl⟩⟩
    | false =>
      cases params with
      | nil =>
        simp only [hstatic] at h
        obtain ⟨hlock, hst⟩ := hclass h
        exact ⟨_, _, hlock, hst, .inr ⟨fun _ => rfl, rfl, rfl⟩⟩
      | cons receiver rest =>
        simp only [hstatic] at h
        obtain ⟨hlock, hst⟩ := htaken receiver st h
        exact ⟨receiver, st, hlock, hst, .inl ⟨rfl, ⟨rest, rfl⟩, rfl⟩⟩

theorem acquired_acquire (hblock : st.block = 0)
    (hblocks : st.function.blocks = #[blk]) (hhandler : blk.handler = none)
    (hstores : ∀ p ∈ blk.instrs, p.instr.dest? = none) (hparams : blk.params = params)
    (hnodup : params.Nodup) (hlt : ∀ r ∈ params, r < st.nextReg)
    (hreceiver : m.isStatic = false → params ≠ [])
    (h : Emit.acquire m params st = .ok lock st') : Acquired m st lock st' := by
  obtain ⟨hsync, rfl, rfl⟩ | ⟨hsync, object, mid, rfl, rfl, hobject⟩ := Emit.acquire_ok h
  · exact .plain hsync
  obtain ⟨blk', hblock', hblocks', hhandler', hfetches, hlt'⟩ : ∃ blk', mid.block = 0 ∧
      mid.function.blocks = #[blk'] ∧ blk'.handler = none ∧
      Fetches m object blk'.params blk'.instrs.toList ∧ object < mid.nextReg := by
    rcases hobject with ⟨hstatic, ⟨rest, rfl⟩, rfl⟩ | ⟨hnone, rfl, rfl⟩
    · refine ⟨blk, hblock, hblocks, hhandler, ?_, hlt object List.mem_cons_self⟩
      exact .receiver hstatic hparams (List.nodup_cons.mp hnodup).1 fun p hp =>
        hstores p (mem_toList_iff.mp hp)
    · let monitor (r : Reg) : Instr := .classMonitor r (.resolved ⟨m.owner, m.ownerName⟩)
      have hstatic : m.isStatic = true := Bool.of_not_eq_false fun hs => hreceiver hs (hnone hs)
      refine ⟨{ blk with instrs := blk.instrs.push ⟨monitor st.nextReg, st.pc⟩ }, hblock, ?_,
        hhandler, ?_, ?_⟩
      · simp only [addValue, addReg, Function.addReg, hblocks, hblock]
        rfl
      · rw [toList_push]
        exact .classLock hstatic
      · change st.nextReg < (st.function.regTypes.push .ref).size
        rw [size_push]
        exact Nat.lt_succ_self _
  let entry : Block := { blk' with instrs := blk'.instrs.push ⟨.monitorEnter object, mid.pc⟩ }
  let release : Block :=
    { params := [mid.nextReg]
      instrs := #[⟨.monitorExit object, mid.pc⟩]
      terminator := .resume mid.nextReg
      terminatorPc := mid.pc }
  have hentry : (mid.addInstr (.monitorEnter object)).function.blocks = #[entry] := by
    simp only [EmitState.addInstr, onCurrent, Function.modifyBlock, hblocks', hblock']
    rfl
  have hone : (mid.addInstr (.monitorEnter object)).nextBlock = 1 := by
    rw [nextBlock, hentry]
    rfl
  have htakes : entry.Takes m object :=
    ⟨⟨blk'.instrs.toList, mid.pc, toList_push, hfetches⟩, hhandler'⟩
  have hspares : ¬ release.Sets object := by
    rintro (hparam | ⟨p, hp, hdest⟩)
    · exact absurd (List.mem_singleton.mp hparam) (Nat.ne_of_lt hlt')
    · rw [mem_singleton.mp hp] at hdest
      cases hdest
  rw [hone]
  refine .locked hsync ?_ htakes hspares ?_
  · rw [addUnwind]
    simp only [EmitState.addInstr, onCurrent, Function.modifyBlock, hblocks', hblock']
    rfl
  · change object < (mid.function.regTypes.push .ref).size
    rw [size_push]
    exact Nat.lt_succ_of_lt hlt'

theorem Acquired.start (h : Acquired m st lock st') (hone : st.nextBlock = 1) :
    (st'.startBody lock).nextBlock = m.frontBlocks ∧ ∀ object unwind,
      lock = some (object, unwind) → (st'.startBody lock).function.Takes m object := by
  have hsize : (st'.startBody lock).nextBlock = st'.nextBlock + 1 :=
    size_modify.trans nextBlock_addHandled
  cases h with
  | plain hsync =>
    refine ⟨?_, by simp⟩
    rw [hsize, hone, Method.frontBlocks, hsync]
    rfl
  | @locked object entry release _ hsync hblocks htakes hspares hlt =>
    have htwo : st'.nextBlock = 2 := by rw [nextBlock, hblocks]; rfl
    refine ⟨?_, fun object' unwind' heq => ?_⟩
    · rw [hsize, htwo, Method.frontBlocks, hsync]
      rfl
    · cases heq
      let ended (blk : Block) : Block :=
        { blk with terminator := .jump ⟨st'.nextBlock, []⟩, terminatorPc := st'.pc }
      have hlast : (st'.startBody (some (object, 1))).function.blocks =
          #[ended entry, release, { handler := some 1 }] := by
        change (st'.function.blocks.push { handler := some 1 }).modify 0 ended = _
        rw [hblocks]
        rfl
      refine ⟨hlt, ⟨ended entry, st'.nextBlock, ?_, ⟨htakes.instrs, htakes.handler⟩, rfl⟩, ?_⟩
      · rw [Function.block?, hlast]
        rfl
      · intro b blk hb hblk
        rw [Function.block?, hlast] at hblk
        rcases b with _ | _ | _ | b
        · exact absurd rfl hb
        · cases hblk
          exact hspares
        · cases hblk
          rintro (hparam | ⟨p, hp, -⟩)
          · cases hparam
          · exact absurd hp (not_mem_empty p)
        · cases hblk

theorem Function.Takes.keep {object : Reg} (h : st.function.Takes m object)
    (hentry : st'.function.block? 0 = st.function.block? 0) (hspares : st.Spares st.nextReg st') :
    st'.function.Takes m object := by
  refine ⟨Nat.lt_of_lt_of_le h.reg hspares.regs, ?_, fun b blk' hb hblk' hset => ?_⟩
  · rw [hentry]
    exact h.entry
  · obtain ⟨blk, hblk, hset⟩ := hspares.blocks b blk' hblk' object h.reg hset
    exact h.only b blk hb hblk hset

end

end ManagedCore
