import ManagedCore.Proofs.Compile.Method
import ManagedCore.Proofs.Machine.Paths

/-!
# The monitor of an activation

An activation of a synchronized method enters a monitor in its first block. No edge and no handler
leads back there, and no other block sets the register of the object, so wherever the activation
gets, the register holds the object whose monitor was entered.
-/

namespace ManagedCore

open Activation Array

def Function.Forward (f : Function) : Prop :=
  ∀ b blk, f.block? b = some blk →
    (∀ c ∈ blk.terminator.successors, 0 < c.block) ∧ ∀ h, blk.handler = some h → 0 < h

theorem Outline.Laid.forward {o : Outline} {st : EmitState} (h : o.Laid st) :
    st.function.Forward := by
  intro b blk hblk
  have hok := h.blocks b blk hblk
  refine ⟨fun c hc => ?_, fun x hx => ?_⟩
  · obtain ⟨-, -, -, -, hpos⟩ := hok.edges c hc
    exact hpos
  · obtain ⟨⟨-, hpos, -⟩, -⟩ := hok.caught x hx
    exact hpos

namespace Activation

variable {a a₀ b c : Activation} {t : ThreadId} {o : ObjId}

def Entering (a : Activation) (o : ObjId) : Prop :=
  a.block = a.function.entry ∧
    ∃ p r, a.instr? = some p ∧ p.instr = .monitorEnter r ∧ a.get r = .obj o

/-- The activation entered the monitor of an object at the start of its way. -/
def Entered (t : ThreadId) (a₀ a : Activation) (o : ObjId) : Prop :=
  ∃ b, a₀.Reaches t b ∧ b.Entering o ∧ b.Reaches t a

theorem Entered.next (h : Entered t a₀ a o) (hnext : a.Reaches t b) : Entered t a₀ b o := by
  obtain ⟨c, hc, hentering, ha⟩ := h
  exact ⟨c, hc, hentering, ha.trans hnext⟩

end Activation

section

variable {f : Function} {m : Method} {object : Reg} {t : ThreadId} {id : MethodId} {code : CodeId}
  {scope : Scope} {args : List Value} {a b : Activation} {blk : Block}

/-- In front of the monitor, the receiver is still to be entered. -/
def Activation.Unentered (a : Activation) (m : Method) (object : Reg) (args : List Value)
    (k : Nat) : Prop :=
  a.block = 0 ∧ a.index ≤ k ∧ (m.isStatic = false → a.get object = args.head?.getD default)

/-- Behind the monitor, its object is at hand. -/
def Activation.Holding (a : Activation) (t : ThreadId) (a₀ : Activation) (m : Method)
    (object : Reg) (args : List Value) (k : Nat) : Prop :=
  (a.block = 0 → k < a.index) ∧ ∃ o, Entered t a₀ a o ∧ a.get object = .obj o ∧
    (m.isStatic = false → args.head? = some (.obj o))

theorem head_of_getD {o : ObjId} (h : args.head?.getD default = .obj o) :
    args.head? = some (.obj o) := by
  cases hargs : args.head? with
  | none =>
    rw [hargs] at h
    cases h
  | some v =>
    rw [hargs] at h
    exact congrArg some h

structure Block.EntersAt (blk : Block) (m : Method) (object : Reg) (k : Nat) : Prop where
  size : blk.instrs.size = k + 1
  enters : ∃ pc, blk.instrs[k]? = some ⟨.monitorEnter object, pc⟩
  spares : m.isStatic = false → ∀ p ∈ blk.instrs, p.instr.dest? = none
  receiver : m.isStatic = false → ∃ rest, blk.params = object :: rest ∧ object ∉ rest

theorem Block.Takes.entersAt (h : blk.Takes m object) : ∃ k, blk.EntersAt m object k := by
  obtain ⟨front, pc, hinstrs, hfetches⟩ := h.instrs
  refine ⟨front.length, ?_, ⟨pc, ?_⟩, fun hstatic p hp => ?_, fun hstatic => ?_⟩
  · rw [← length_toList, hinstrs, List.length_append]
    rfl
  · rw [← getElem?_toList, hinstrs]
    simp
  · cases hfetches with
    | classLock hstatic' => rw [hstatic] at hstatic'; cases hstatic'
    | receiver _ _ _ hfront =>
      rw [← mem_toList_iff, hinstrs] at hp
      rcases List.mem_append.mp hp with hmem | hmem
      · exact hfront p hmem
      · rw [List.mem_singleton.mp hmem]
        rfl
  · cases hfetches with
    | classLock hstatic' => rw [hstatic] at hstatic'; cases hstatic'
    | receiver _ hparams hnot _ => exact ⟨_, hparams, hnot⟩

theorem Activation.unentered_start {k : Nat} (hentry : f.entry = 0)
    (hblk : f.block? 0 = some blk) (hreg : object < f.regTypes.size) (h : blk.EntersAt m object k) :
    (start id code f scope args).Unentered m object args k := by
  refine ⟨hentry, Nat.zero_le k, fun hstatic => ?_⟩
  obtain ⟨rest, hparams, hnot⟩ := h.receiver hstatic
  unfold start enter
  simp only [hentry, hblk, Option.map_some, Option.getD_some, hparams]
  cases args with
  | nil =>
    change (replicate f.regTypes.size default).getD object default = default
    rw [getD_eq_getD_getElem?, getElem?_replicate, if_pos hreg]
    rfl
  | cons v vs =>
    rw [List.zip_cons_cons, List.foldl_cons]
    refine ((foldl_set_spares (rest.zip vs)).2.2 object fun p hp heq => ?_).trans
      (get_set_self ?_)
    · exact hnot (heq ▸ (List.of_mem_zip hp).1)
    · rwa [size_replicate]

/-- Wherever an activation of a synchronized method is behind its first block, the register of the
monitor holds the object whose monitor was entered at the start. -/
theorem Function.Takes.entered (h : f.Takes m object) (hentry : f.entry = 0) (hforward : f.Forward)
    (hreaches : (start id code f scope args).Reaches t a) (hblock : a.block ≠ 0) :
    ∃ o, Entered t (.start id code f scope args) a o ∧ a.get object = .obj o ∧
      (m.isStatic = false → args.head? = some (.obj o)) := by
  obtain ⟨blk, target, hblk, htakes, -⟩ := h.entry
  obtain ⟨k, hk⟩ := htakes.entersAt
  let a₀ := start id code f scope args
  suffices a.function = f ∧
      (a.Unentered m object args k ∨ a.Holding t a₀ m object args k) by
    rcases this.2 with hun | hold
    · exact absurd hun.1 hblock
    · exact hold.2
  refine hreaches.induction (P := fun a => a.function = f ∧
    (a.Unentered m object args k ∨ a.Holding t a₀ m object args k)) trivial
    ⟨function_enter _ _, .inl (unentered_start hentry hblk h.reg hk)⟩
    fun b c hb hinv hpass hnext => ?_
  obtain ⟨hfun, hinv⟩ := hinv
  refine ⟨hpass.keeps.1.trans hfun, ?_⟩
  have hsame : ∀ x vs, 0 < x → (b.enter x vs).get object = b.get object := by
    intro x vs hx
    refine get_enter_of_not_mem fun blk' hblk' hmem => ?_
    exact h.only x blk' (Nat.ne_of_gt hx) (hfun ▸ hblk') (.inl hmem)
  rcases hinv with ⟨hzero, hle, hreceiver⟩ | ⟨hbehind, o, hentered, hobject, hreceiver⟩
  · have hhere : ∀ i, b.index = i → b.instr? = blk.instrs[i]? := by
      rintro i rfl
      rw [instr?, hfun, hzero, hblk]
      rfl
    have hlt : b.index < blk.instrs.size := hk.size ▸ Nat.lt_succ_of_le hle
    cases hpass with
    | rests _ => exact .inl ⟨hzero, hle, hreceiver⟩
    | @advances p regs locals hp _ hregs henters =>
      rcases Nat.lt_or_eq_of_le hle with hlt | heq
      · refine .inl ⟨hzero, hlt, fun hstatic => ?_⟩
        have hdest := hk.spares hstatic p (mem_of_getElem? (hhere _ rfl ▸ hp))
        exact (hregs object (by simp [hdest])).trans (hreceiver hstatic)
      · obtain ⟨pc, hat⟩ := hk.enters
        rw [hhere k heq, hat, Option.some.injEq] at hp
        subst hp
        obtain ⟨o, ho⟩ := henters object rfl
        have hentering : b.Entering o :=
          ⟨by rw [hzero, hfun, hentry], _, object, (hhere k heq).trans hat, rfl, ho⟩
        refine .inr ⟨fun _ => heq ▸ Nat.lt_succ_self _, o, ⟨b, hb, hentering, hnext⟩,
          (hregs object (by simp [Instr.dest?])).trans ho, fun hstatic => ?_⟩
        exact head_of_getD ((hreceiver hstatic).symm.trans ho)
    | @jumps blk' e hblk' hend _ =>
      rw [hfun, hzero, hblk, Option.some.injEq] at hblk'
      subst hblk'
      exact absurd hlt (Nat.not_lt.mpr (Array.getElem?_eq_none_iff.mp hend))
    | @faults x e hx =>
      rw [handler?, hfun, hzero, hblk, Option.bind_some, htakes.handler] at hx
      cases hx
  · have hblocks : ∀ {x}, 0 < x → x = 0 → k < 0 := fun hx heq => absurd heq (Nat.ne_of_gt hx)
    cases hpass with
    | rests _ => exact .inr ⟨hbehind, o, hentered.next hnext, hobject, hreceiver⟩
    | @advances p regs locals hp _ hregs _ =>
      refine .inr ⟨fun hzero => Nat.lt_succ_of_lt (hbehind hzero), o, hentered.next hnext,
        (hregs object fun hdest => ?_).trans hobject, hreceiver⟩
      rw [instr?, hfun, Option.bind_eq_some_iff] at hp
      obtain ⟨blk', hblk', hp⟩ := hp
      by_cases hzero : b.block = 0
      · rw [hzero, hblk, Option.some.injEq] at hblk'
        subst hblk'
        have hlt := (Array.getElem?_eq_some_iff.mp hp).1
        rw [hk.size] at hlt
        exact absurd hlt (Nat.not_lt.mpr (hbehind hzero))
      · exact h.only _ blk' hzero hblk' (.inr ⟨p, mem_of_getElem? hp, hdest⟩)
    | @jumps blk' e hblk' _ he =>
      have hpos := (hforward _ blk' (hfun ▸ hblk')).1 e he
      exact .inr ⟨hblocks hpos, o, hentered.next hnext, (hsame _ _ hpos).trans hobject, hreceiver⟩
    | @faults x e hx =>
      rw [handler?, hfun, Option.bind_eq_some_iff] at hx
      obtain ⟨blk', hblk', hx⟩ := hx
      have hpos := (hforward _ blk' hblk').2 x hx
      exact .inr ⟨hblocks hpos, o, hentered.next hnext, (hsame _ _ hpos).trans hobject, hreceiver⟩

end

end ManagedCore
