import Mathlib.Algebra.Order.Field.Basic
import Mathlib.Algebra.Order.Field.Rat
import Mathlib.Tactic.Linarith
import Mathlib.Tactic.Positivity
import ManagedCore.Proofs.Compile.Forms
import ManagedCore.Proofs.Ir.Cycles

/-!
# Emission that rises

Emission gives each new block a height such that control rises wherever it does not poll. The code
of an instruction stays below a height of its own, which lies below everything that starts behind
the instruction; a jump back to what starts earlier polls first.
-/

namespace ManagedCore

open Option

namespace EmitState

variable {st st' st'' : EmitState} {b : BlockId}

theorem nextBlock_close {t : Terminator} : (st.close t).nextBlock = st.nextBlock :=
  Array.size_modify

/-- The two states agree on where control goes, up to more polls. -/
structure Alike (st st' : EmitState) : Prop where
  block : st'.block = st.block
  size : st'.nextBlock = st.nextBlock
  blocks : ∀ b blk, st.function.block? b = some blk → ∃ blk', st'.function.block? b = some blk' ∧
    blk'.terminator = blk.terminator ∧ blk'.handler = blk.handler ∧ (blk.Polls → blk'.Polls)

namespace Alike

theorem of_same (hfun : st'.function = st.function) (hblock : st'.block = st.block) :
    st.Alike st' := by
  refine ⟨hblock, ?_, fun b blk hb => ⟨blk, ?_, rfl, rfl, id⟩⟩
  · rw [nextBlock, hfun, nextBlock]
  · rw [hfun, hb]

theorem trans (h : st.Alike st') (h' : st'.Alike st'') : st.Alike st'' := by
  refine ⟨h'.block.trans h.block, h'.size.trans h.size, fun b blk hb => ?_⟩
  obtain ⟨blk₁, hb₁, hend, hhandler, hpolls⟩ := h.blocks b blk hb
  obtain ⟨blk₂, hb₂, hend', hhandler', hpolls'⟩ := h'.blocks b blk₁ hb₁
  exact ⟨blk₂, hb₂, hend'.trans hend, hhandler'.trans hhandler, fun hp => hpolls' (hpolls hp)⟩

theorem addReg (st : EmitState) (t : ValueType) : st.Alike (st.addReg t) :=
  ⟨rfl, rfl, fun _ blk hb => ⟨blk, hb, rfl, rfl, id⟩⟩

theorem addInstr (st : EmitState) (i : Instr) : st.Alike (st.addInstr i) := by
  refine ⟨rfl, Array.size_modify, fun b blk hb => ?_⟩
  rw [EmitState.addInstr, block_onCurrent, hb]
  split
  · refine ⟨_, rfl, rfl, rfl, ?_⟩
    rintro ⟨p, hp, hi⟩
    exact ⟨p, Array.mem_push.mpr (.inl hp), hi⟩
  · exact ⟨blk, rfl, rfl, rfl, id⟩

theorem addsParams {ps : List (Reg × ValueType)} (h : AddsParams b ps st st') : st.Alike st' := by
  refine ⟨by rw [h.same], h.blocks, fun c blk hc => ?_⟩
  by_cases hcb : c = b
  · subst hcb
    refine ⟨{ blk with params := blk.params ++ ps.map (·.1) }, ?_, rfl, rfl, id⟩
    rw [h.target, hc, map_some]
  · exact ⟨blk, (h.others c hcb).trans hc, rfl, rfl, id⟩

theorem polls (h : st.Alike st') (hb : st.function.Polls b) : st'.function.Polls b := by
  obtain ⟨blk, hblk, hp⟩ := hb
  obtain ⟨blk', hblk', -, -, hpolls⟩ := h.blocks b blk hblk
  exact ⟨blk', hblk', hpolls hp⟩

end Alike

end EmitState

open EmitState

/-! ## Heights -/

structure Stretches (height : BlockId → ℚ) (n : Nat) (height' : BlockId → ℚ) (n' : Nat) :
    Prop where
  size : n ≤ n'
  same : ∀ b, b < n → height' b = height b

namespace Stretches

variable {height height' height'' : BlockId → ℚ} {n n' n'' : Nat}

theorem refl (height : BlockId → ℚ) (n : Nat) : Stretches height n height n :=
  ⟨Nat.le_refl n, fun _ _ => rfl⟩

theorem trans (h : Stretches height n height' n') (h' : Stretches height' n' height'' n'') :
    Stretches height n height'' n'' :=
  ⟨Nat.le_trans h.size h'.size, fun b hb =>
    (h'.same b (Nat.lt_of_lt_of_le hb h.size)).trans (h.same b hb)⟩

theorem update (height : BlockId → ℚ) (n : Nat) (z : ℚ) :
    Stretches height n (Function.update height n z) (n + 1) :=
  ⟨Nat.le_succ n, fun _ hb => Function.update_of_ne (Nat.ne_of_lt hb) z height⟩

end Stretches

structure Climbing (caught : Prop) (height : BlockId → ℚ) (top : ℚ) (st : EmitState) : Prop where
  rises : st.function.Rises caught height
  current : st.block < st.nextBlock
  below : height st.block < top

section

variable {caught : Prop} {height : BlockId → ℚ} {top : ℚ} {st st' : EmitState}

theorem EmitState.Alike.rises (h : st.Alike st') (hr : st.function.Rises caught height) :
    st'.function.Rises caught height := by
  intro b blk' hb
  have hlt : b < st.nextBlock := h.size ▸ lt_nextBlock hb
  have hold : st.function.block? b = some (st.function.blocks[b]) := Array.getElem?_eq_getElem hlt
  obtain ⟨blk'', hb', hend, hhandler, hpolls⟩ := h.blocks b _ hold
  cases hb.symm.trans hb'
  exact (hr b _ hold).keep hlt (Nat.le_of_eq h.size.symm) (fun _ _ => rfl) hend hhandler hpolls

theorem Climbing.alike (hc : Climbing caught height top st) (h : st.Alike st') :
    Climbing caught height top st' := by
  refine ⟨h.rises hc.rises, ?_, ?_⟩
  · rw [h.block, h.size]
    exact hc.current
  · rw [h.block]
    exact hc.below

theorem Climbing.mono {top' : ℚ} (hc : Climbing caught height top st) (h : top ≤ top') :
    Climbing caught height top' st :=
  ⟨hc.rises, hc.current, hc.below.trans_le h⟩

def Upward (height : BlockId → ℚ) (st : EmitState) (c : BlockCall) : Prop :=
  c.block < st.nextBlock ∧ (st.function.Polls st.block ∨ height st.block < height c.block)

/-! ## New blocks -/

theorem Function.Rises.addHandled (h : st.function.Rises caught height)
    (handler : Option BlockId) (z : ℚ)
    (hz : caught → ∀ x, handler = some x → x < st.nextBlock ∧ z < height x) :
    (st.addHandled handler).function.Rises caught (Function.update height st.nextBlock z) := by
  have hstretch := Stretches.update height st.nextBlock z
  intro b blk hb
  rw [block_addHandled] at hb
  change blk.Rises caught _ (st.addHandled handler).nextBlock b
  rw [nextBlock_addHandled]
  split at hb
  · rename_i hnew
    subst hnew
    cases hb
    refine .empty rfl fun hcaught x hx => ?_
    obtain ⟨hlt, hrise⟩ := hz hcaught x hx
    rw [Function.update_self, hstretch.same x hlt]
    exact ⟨Nat.lt_succ_of_lt hlt, hrise⟩
  · exact (h b blk hb).keep (lt_nextBlock hb) hstretch.size hstretch.same rfl rfl id

/-- The block at hand ends, and what follows it lies higher unless the block polls. -/
theorem Function.Rises.close {t : Terminator} (h : st.function.Rises caught height)
    (ht : ∀ c ∈ t.successors, Upward height st c) : (st.close t).function.Rises caught height := by
  intro b blk hb
  change blk.Rises caught height (st.close t).nextBlock b
  rw [nextBlock_close]
  rw [EmitState.close, block_onCurrent] at hb
  split at hb
  · rename_i hcur
    subst hcur
    obtain ⟨old, hold, rfl⟩ := map_eq_some_iff.mp hb
    refine ⟨fun c hc => ?_, (h _ old hold).handler⟩
    obtain ⟨hlt, hrise⟩ := ht c hc
    refine ⟨hlt, hrise.imp_left ?_⟩
    rintro ⟨blk, hblk, hpolls⟩
    rw [hold, some.injEq] at hblk
    exact hblk ▸ hpolls
  · exact h b blk hb

theorem Climbing.addHandled {handler : Option BlockId} {z : ℚ}
    (hc : Climbing caught height top st) (hlow : height st.block < z)
    (hz : caught → ∀ x, handler = some x → x < st.nextBlock ∧ z < height x) :
    let height' := Function.update height st.nextBlock z
    Climbing caught height' top (st.addHandled handler) ∧
      (∀ args, Upward height' (st.addHandled handler) ⟨st.nextBlock, args⟩) ∧
      ∀ c, Upward height st c → Upward height' (st.addHandled handler) c := by
  intro height'
  have hstretch : Stretches height st.nextBlock height' _ := .update ..
  have hn : (st.addHandled handler).nextBlock = st.nextBlock + 1 := nextBlock_addHandled
  have hnew : height' st.nextBlock = z := Function.update_self ..
  have hcur : height' st.block = height st.block := hstretch.same _ hc.current
  refine ⟨⟨hc.rises.addHandled handler z hz, ?_, ?_⟩, fun args => ?_, fun c hup => ?_⟩
  · exact hn ▸ Nat.lt_succ_of_lt hc.current
  · exact hcur.symm ▸ hc.below
  · refine ⟨hn ▸ Nat.lt_succ_self _, .inr ?_⟩
    change height' st.block < height' st.nextBlock
    rwa [hcur, hnew]
  · obtain ⟨hlt, hrise⟩ := hup
    refine ⟨hn ▸ Nat.lt_succ_of_lt hlt, hrise.imp ?_ fun hrise => ?_⟩
    · rintro ⟨blk, hblk, hpolls⟩
      exact ⟨blk, (block_addHandled _).trans ((if_neg (Nat.ne_of_lt hc.current)).trans hblk), hpolls⟩
    · change height' st.block < height' c.block
      rwa [hcur, hstretch.same _ hlt]

/-- There is room for a block between the block at hand, its handler and the top. -/
theorem Climbing.room (hc : Climbing caught height top st) : ∃ handler z,
    Emit.currentHandler st = .ok handler st ∧ height st.block < z ∧ z < top ∧
    (caught → ∀ x, handler = some x → x < st.nextBlock ∧ z < height x) := by
  obtain ⟨blk, hold⟩ : ∃ blk, st.function.block? st.block = some blk :=
    ⟨_, Array.getElem?_eq_getElem hc.current⟩
  have hhandler : Emit.currentHandler st = .ok blk.handler st := by
    change EStateM.Result.ok ((st.function.block? st.block).bind (·.handler)) st = _
    rw [hold, bind_some]
  by_cases hx : caught ∧ blk.handler.isSome
  · obtain ⟨x, hx'⟩ := isSome_iff_exists.mp hx.2
    obtain ⟨hlt, hrise⟩ := (hc.rises _ blk hold).handler hx.1 x hx'
    obtain ⟨z, hlow, hhigh⟩ := exists_between (lt_min hc.below hrise)
    obtain ⟨htop, hz⟩ := lt_min_iff.mp hhigh
    refine ⟨blk.handler, z, hhandler, hlow, htop, fun _ y hy => ?_⟩
    rw [hx', some.injEq] at hy
    exact hy ▸ ⟨hlt, hz⟩
  · obtain ⟨z, hlow, hhigh⟩ := exists_between hc.below
    refine ⟨blk.handler, z, hhandler, hlow, hhigh, fun hcaught y hy => ?_⟩
    exact absurd ⟨hcaught, isSome_iff_exists.mpr ⟨y, hy⟩⟩ hx

theorem Climbing.guard {cond : Reg} {raiseWhen : Bool} {fault : Fault} {args : List Reg}
    {detail : Option String} (hc : Climbing caught height top st)
    (h : Emit.guard cond raiseWhen fault args detail st = .ok () st') :
    ∃ height', Stretches height st.nextBlock height' st'.nextBlock ∧
      Climbing caught height' top st' := by
  obtain ⟨handler, z, hhandler, hlow, htop, hz⟩ := hc.room
  obtain ⟨t, ht, heq⟩ := Outline.guard_eq hhandler cond raiseWhen fault args detail
  rw [heq] at h
  cases h
  let height₁ := Function.update height st.nextBlock z
  let height₂ := Function.update height₁ (st.nextBlock + 1) z
  have hn₁ : (st.addHandled handler).nextBlock = st.nextBlock + 1 := nextBlock_addHandled
  have hn₂ : ((st.addHandled handler).addHandled handler).nextBlock = st.nextBlock + 2 :=
    nextBlock_addHandled.trans (congrArg (· + 1) hn₁)
  have hstretch₁ : Stretches height st.nextBlock height₁ (st.nextBlock + 1) := .update _ _ _
  have hstretch₂ : Stretches height₁ (st.nextBlock + 1) height₂ (st.nextBlock + 2) := .update _ _ _
  obtain ⟨hc₁, hup₁, -⟩ := hc.addHandled hlow hz
  have hcur : height₁ st.block < z := (hstretch₁.same _ hc.current).symm ▸ hlow
  obtain ⟨hc₂, hup₂, hkeep⟩ := hc₁.addHandled hcur fun hcaught x hx => by
    obtain ⟨hlt, hrise⟩ := hz hcaught x hx
    exact ⟨hn₁ ▸ Nat.lt_succ_of_lt hlt, Trans.trans hrise (hstretch₁.same x hlt).symm⟩
  rw [hn₁] at hc₂ hup₂ hkeep
  have hrises := hc₂.rises.close (t := t) fun c hmem => by
    have hways : c = ⟨st.nextBlock, []⟩ ∨ c = ⟨st.nextBlock + 1, []⟩ := by
      rcases ht with rfl | rfl <;> grind [Terminator.successors]
    rcases hways with rfl | rfl
    · exact hkeep _ (hup₁ [])
    · exact hup₂ []
  let raised : EmitState :=
    { ((st.addHandled handler).addHandled handler).close t with block := st.nextBlock }
  have hsize : (raised.close (.raise fault args detail)).nextBlock = st.nextBlock + 2 :=
    nextBlock_close.trans (nextBlock_close.trans hn₂)
  refine ⟨height₂, hsize ▸ hstretch₁.trans hstretch₂, ?_, ?_, ?_⟩
  · have hrises' : raised.function.Rises caught height₂ := hrises
    exact hrises'.close (List.forall_mem_nil _)
  · exact Nat.lt_of_lt_of_eq (Nat.lt_succ_self _) hsize.symm
  · rwa [show height₂ (st.nextBlock + 1) = z from Function.update_self ..]

end

namespace Emit

variable {α β : Type} {caught : Prop} {top : ℚ} {st st' : EmitState} {x : Emit α}

def Ascends (caught : Prop) (top : ℚ) (x : Emit α) : Prop :=
  ∀ height st a st', Climbing caught height top st → x st = .ok a st' →
    ∃ height', Stretches height st.nextBlock height' st'.nextBlock ∧
      Climbing caught height' top st'

theorem Ascends.bind {f : α → Emit β} (hx : Ascends caught top x)
    (hf : ∀ a, Ascends caught top (f a)) : Ascends caught top (x >>= f) := by
  intro height st b st' hc h
  obtain ⟨a, mid, hmid, hrest⟩ := bind_ok h
  obtain ⟨height₁, hstretch₁, hc₁⟩ := hx height st a mid hc hmid
  obtain ⟨height₂, hstretch₂, hc₂⟩ := hf a height₁ mid b st' hc₁ hrest
  exact ⟨height₂, hstretch₁.trans hstretch₂, hc₂⟩

theorem Ascends.of_alike (h : ∀ st a st', x st = .ok a st' → st.Alike st') :
    Ascends caught top x := by
  intro height st a st' hc hx
  have halike := h st a st' hx
  exact ⟨height, halike.size ▸ .refl _ _, hc.alike halike⟩

theorem Straight.ascends {k : Nat} (h : Straight k 0 x) : Ascends caught top x := by
  induction h with
  | aside _ hsame =>
    exact .of_alike fun st a st' hx => .of_same (hsame st a st' hx).1 (hsame st a st' hx).2.1
  | newReg t _ ih =>
    refine .bind (.of_alike fun st a st' hx => ?_) fun r => ih r (Nat.zero_le r)
    cases hx
    exact .addReg st t
  | instr i _ _ =>
    refine .of_alike fun st a st' hx => ?_
    cases hx
    exact .addInstr st i
  | guard cond raiseWhen fault args detail => exact fun height st a st' hc hx => hc.guard hx
  | bind _ _ ihx ihf => exact ihx.bind ihf

end Emit

end ManagedCore
