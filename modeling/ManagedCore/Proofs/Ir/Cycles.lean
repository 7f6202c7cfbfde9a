import Mathlib.Algebra.Order.Ring.Rat
import Mathlib.Logic.Relation
import ManagedCore.Ir.Basic

/-!
# Cycles of control

A thread that runs compiled code notices a pending stop only where the code polls for it, so no
cycle of control may avoid all polls. Heights of blocks show that: if control that does not poll
only rises, it cannot come back.
-/

namespace ManagedCore

def Block.Polls (blk : Block) : Prop := ∃ p ∈ blk.instrs, p.instr = .safepoint

namespace Function

variable {f : Function}

def Polls (f : Function) (b : BlockId) : Prop := ∃ blk, f.block? b = some blk ∧ blk.Polls

def Follows (f : Function) (b c : BlockId) : Prop :=
  ∃ blk, f.block? b = some blk ∧ ∃ e ∈ blk.terminator.successors, e.block = c

def Escapes (f : Function) (b c : BlockId) : Prop :=
  ∃ blk, f.block? b = some blk ∧ blk.handler = some c

/-- There is no cycle of blocks none of which polls. -/
def PollsAround (f : Function) (next : BlockId → BlockId → Prop) : Prop :=
  ∀ b, ¬ Relation.TransGen (fun b c => next b c ∧ ¬ f.Polls b) b b

theorem pollsAround_of_heights {next : BlockId → BlockId → Prop} (height : BlockId → ℚ)
    (h : ∀ b c, next b c → ¬ f.Polls b → height b < height c) : f.PollsAround next := by
  have hrises : ∀ b c, Relation.TransGen (fun b c => next b c ∧ ¬ f.Polls b) b c →
      height b < height c := by
    intro b c hbc
    induction hbc with
    | single hbc => exact h _ _ hbc.1 hbc.2
    | tail _ hcd ih => exact ih.trans (h _ _ hcd.1 hcd.2)
  exact fun b hb => lt_irrefl _ (hrises b b hb)

end Function

/-! ## Rising control -/

/-- Control that leaves the block rises, unless the block polls before its end. Exceptions count
only where they are asked for. All blocks have numbers below `n`. -/
structure Block.Rises (caught : Prop) (height : BlockId → ℚ) (n : Nat) (b : BlockId)
    (blk : Block) : Prop where
  successors : ∀ c ∈ blk.terminator.successors,
    c.block < n ∧ (blk.Polls ∨ height b < height c.block)
  handler : caught → ∀ x, blk.handler = some x → x < n ∧ height b < height x

def Function.Rises (caught : Prop) (height : BlockId → ℚ) (f : Function) : Prop :=
  ∀ b blk, f.block? b = some blk → blk.Rises caught height f.blocks.size b

namespace Function.Rises

variable {caught : Prop} {height height' : BlockId → ℚ} {f f' : Function}

theorem pollsAround (h : f.Rises caught height) : f.PollsAround f.Follows := by
  refine pollsAround_of_heights height ?_
  rintro b c ⟨blk, hblk, e, he, rfl⟩ hpolls
  rcases ((h b blk hblk).successors e he).2 with hp | hlt
  · exact absurd ⟨blk, hblk, hp⟩ hpolls
  · exact hlt

theorem pollsAround_caught (h : f.Rises True height) :
    f.PollsAround fun b c => f.Follows b c ∨ f.Escapes b c := by
  refine pollsAround_of_heights height ?_
  rintro b c (⟨blk, hblk, e, he, rfl⟩ | ⟨blk, hblk, hx⟩) hpolls
  · rcases ((h b blk hblk).successors e he).2 with hp | hlt
    · exact absurd ⟨blk, hblk, hp⟩ hpolls
    · exact hlt
  · exact ((h b blk hblk).handler trivial c hx).2

end Function.Rises

theorem Block.Rises.keep {caught : Prop} {height height' : BlockId → ℚ} {n n' : Nat}
    {b : BlockId} {blk blk' : Block} (h : blk.Rises caught height n b) (hb : b < n) (hn : n ≤ n')
    (hsame : ∀ c, c < n → height' c = height c) (hend : blk'.terminator = blk.terminator)
    (hhandler : blk'.handler = blk.handler) (hpolls : blk.Polls → blk'.Polls) :
    blk'.Rises caught height' n' b where
  successors c hc := by
    rw [hend] at hc
    obtain ⟨hlt, hrise⟩ := h.successors c hc
    rw [hsame b hb, hsame _ hlt]
    exact ⟨Nat.lt_of_lt_of_le hlt hn, hrise.imp_left hpolls⟩
  handler hcaught x hx := by
    rw [hhandler] at hx
    obtain ⟨hlt, hrise⟩ := h.handler hcaught x hx
    rw [hsame b hb, hsame _ hlt]
    exact ⟨Nat.lt_of_lt_of_le hlt hn, hrise⟩

theorem Block.Rises.empty {caught : Prop} {height : BlockId → ℚ} {n : Nat} {b : BlockId}
    {blk : Block} (hend : blk.terminator.successors = [])
    (hhandler : caught → ∀ x, blk.handler = some x → x < n ∧ height b < height x) :
    blk.Rises caught height n b where
  successors c hc := by
    rw [hend] at hc
    cases hc
  handler := hhandler

end ManagedCore
