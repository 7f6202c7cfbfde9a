import ManagedCore.Proofs.Compile.Supply

/-!
# Straight code

Whatever an instruction is, its code up to the end of its block is put together from the same few
pieces: registers, instructions, guards, and steps that leave the function alone. What holds of the
pieces and is kept by sequencing holds of all such code: it reads only registers at hand, and what
it leaves on the symbolic stack is at hand behind it.
-/

namespace ManagedCore

open Instr List

/-- The instruction neither uses a static field nor calls. -/
def Instr.isFree : Instr → Bool
  | .getStatic .. | .putStatic .. | .call .. => false
  | _ => true

/-- Register that an instruction assigns, if it may stand in code of the level. -/
def Instr.assigns? (lv : Nat) (i : Instr) : Option (Option Reg) :=
  if !i.isFree && lv == 0 then none else some i.dest?

variable {i : Instr}

theorem Instr.assigns?_eq {lv : Nat} {dest : Option Reg}
    (h : i.assigns? lv = some dest) : (lv = 0 → i.isFree = true) ∧ i.dest? = dest := by
  unfold assigns? at h
  split at h
  · cases h
  · rename_i hfree
    refine ⟨fun hf => ?_, Option.some.inj h⟩
    simpa [hf] using hfree

def Instr.lays? (lv : Nat) (i : Instr) : Option (Option Reg) :=
  if i.callSite?.isSome then none else i.assigns? lv

theorem Instr.lays?_eq {lv : Nat} {dest : Option Reg} (h : i.lays? lv = some dest) :
    i.callSite? = none ∧ i.assigns? lv = some dest := by
  unfold lays? at h
  split at h
  · cases h
  · rename_i hsite
    exact ⟨Option.not_isSome_iff_eq_none.mp hsite, h⟩

theorem Outline.Inside.addInstr {o : Outline} {st : EmitState} {c : Spot} {s : SymStack}
    (h : o.Inside st c) (hs : o.Holds st s) (hsite : i.callSite? = none)
    (huses : ∀ u ∈ i.uses, ∃ t, (u, t) ∈ s) : Proceeds o st o (st.addInstr i) := by
  refine h.laid.addInstr (fun u hu => ?_) fun site hcall => ?_
  · obtain ⟨t, ht⟩ := huses u hu
    exact (hs _ ht).2
  · rw [hsite] at hcall
    cases hcall

namespace Emit

open EmitState Outline

variable {α β : Type} {lv n : Nat}

/-- Emission that goes on behind the code it adds, which assigns no register below `n`. Code of level
0 neither uses static fields nor calls. -/
inductive Straight (lv n : Nat) : {α : Type} → Emit α → Prop where
  | aside {α : Type} {x : Emit α} : Learns x →
      (∀ st a st', x st = .ok a st' →
        st'.function = st.function ∧ st'.block = st.block ∧ st'.emitted = st.emitted) →
      Straight lv n x
  | newReg {α : Type} {f : Reg → Emit α} (t : ValueType) : (∀ r, n ≤ r → Straight lv n (f r)) →
      Straight lv n (newReg t >>= f)
  | instr (i : Instr) : (∀ r, i.dest? = some r → n ≤ r) → (lv = 0 → i.isFree = true) →
      Straight lv n (instr i)
  | guard (cond : Reg) (raiseWhen : Bool) (fault : Fault) (args : List Reg)
      (detail : Option String) : Straight lv n (guard cond raiseWhen fault args detail)
  | bind {α β : Type} {x : Emit α} {f : α → Emit β} : Straight lv n x → (∀ a, Straight lv n (f a)) →
      Straight lv n (x >>= f)

namespace Straight

theorem pure {a : α} : Straight lv n (pure a : Emit α) := by
  refine .aside (.of_ok (fun _ => rfl) fun _ => .same) fun st b st' h => ?_
  cases h
  exact ⟨rfl, rfl, rfl⟩

end Straight

theorem straight_instr (h : i.assigns? lv = some none) : Straight lv n (instr i) := by
  obtain ⟨hfree, hdest⟩ := assigns?_eq h
  refine .instr i (fun r hr => ?_) hfree
  rw [hdest] at hr
  cases hr

theorem straight_assign {d : Reg} (h : i.assigns? lv = some (some d)) (hd : n ≤ d) :
    Straight lv n (instr i) := by
  obtain ⟨hfree, hdest⟩ := assigns?_eq h
  refine .instr i (fun r hr => ?_) hfree
  rw [hdest] at hr
  cases hr
  exact hd

theorem Silent.straight {x : Emit α} (h : Silent x) : Straight lv n x :=
  .aside h.learns fun st a st' hx => by
    obtain ⟨hfun, hblock, -, -, hemitted, -⟩ := h.kept st a st' hx
    exact ⟨hfun, hblock, hemitted⟩

theorem straight_value (t : ValueType) (make : Reg → Instr)
    (hmake : ∀ r, (make r).assigns? lv = some (some r)) : Straight lv n (value t make) :=
  .newReg t fun r hr => .bind (straight_assign (hmake r) hr) fun _ => .pure

/-! ## Operands -/

/-- Straight code that reads registers of the second stack or its own, and leaves others at
hand. The registers of the first stack were made to be assigned. -/
inductive Wired (lv : Nat) : SymStack → SymStack → {α : Type} → Emit α → (α → SymStack) → Prop where
  | aside {fresh s : SymStack} {α : Type} {x : Emit α} {s' : α → SymStack} : Learns x →
      (∀ st a st', x st = .ok a st' → st.Beside st' ∧ ∀ e ∈ s' a, e ∈ s) → Wired lv fresh s x s'
  | newReg {fresh s : SymStack} {α : Type} {f : Reg → Emit α} {s' : α → SymStack} (t : ValueType) :
      (∀ r, Wired lv ((r, t) :: fresh) s (f r) s') → Wired lv fresh s (newReg t >>= f) s'
  | instr {fresh s : SymStack} {i : Instr} : i.lays? lv = some none →
      (∀ u ∈ i.uses, ∃ t, (u, t) ∈ s) → Wired lv fresh s (instr i) fun _ => []
  | assign {fresh s : SymStack} {i : Instr} {r : Reg} {t : ValueType} : (r, t) ∈ fresh →
      i.lays? lv = some (some r) → (∀ u ∈ i.uses, ∃ t, (u, t) ∈ s) →
      Wired lv fresh s (instr i) fun _ => [(r, t)]
  | guard {fresh s : SymStack} {cond : Reg} {raiseWhen : Bool} {fault : Fault} {args : List Reg}
      {detail : Option String} : (∃ t, (cond, t) ∈ s) → (∀ u ∈ args, ∃ t, (u, t) ∈ s) →
      Wired lv fresh s (guard cond raiseWhen fault args detail) fun _ => []
  | bind {fresh s : SymStack} {α β : Type} {x : Emit α} {f : α → Emit β} {s' : α → SymStack}
      {t : β → SymStack} : Wired lv fresh s x s' → (∀ a, Wired lv fresh (s' a ++ s) (f a) t) →
      Wired lv fresh s (x >>= f) t

variable {fresh s r : SymStack} {x : Emit α} {s' : α → SymStack} {c : Spot}

namespace Wired

theorem straight_of (h : Wired lv fresh s x s') (hn : ∀ e ∈ fresh, n ≤ e.1) : Straight lv n x := by
  induction h with
  | aside hlearns hx =>
    refine .aside hlearns fun st a st' h => ?_
    obtain ⟨⟨hfun, hblock, -, -, hemitted, -⟩, -⟩ := hx st a st' h
    exact ⟨hfun, hblock, hemitted⟩
  | newReg t _ ih => exact .newReg t fun r hr => ih r (forall_mem_cons.mpr ⟨hr, hn⟩)
  | instr hi _ => exact straight_instr (lays?_eq hi).2
  | assign hr hi _ => exact straight_assign (lays?_eq hi).2 (hn _ hr)
  | guard _ _ => exact .guard _ _ _ _ _
  | bind _ _ ihx ihf => exact .bind (ihx hn) fun a => ihf a hn

theorem straight (h : Wired lv [] s x s') : Straight lv n x := h.straight_of nofun

theorem supplies_of (h : Wired lv fresh s x s') (hfresh : ∀ e ∈ fresh, e ∈ c.fresh) :
    Supplies c s x s' := by
  induction h generalizing c with
  | aside _ hx =>
    intro o st a st' hin hs h
    obtain ⟨⟨hfun, hblock, hpc, hshapes, hemitted, hsites, hregistry⟩, hsub⟩ := hx st a st' h
    have hp := hin.laid.proceeds_same hfun hblock hpc hshapes hemitted hsites hregistry
    exact ⟨o, hp, fun e he => hs.proceed hp e (hsub e he)⟩
  | newReg t _ ih =>
    intro o st a st' hin hs h
    have hreg := hin.laid.addReg t
    have hin' := hin.proceed hreg
    have hmore : ∀ e ∈ (st.nextReg, t) :: c.fresh, (st.addReg t).function.regType? e.1 = some e.2 :=
      forall_mem_cons.mpr ⟨regType_addReg, hin'.fresh⟩
    obtain ⟨o', hp, hs'⟩ := @ih st.nextReg { c with fresh := (st.nextReg, t) :: c.fresh }
      (cons_subset_cons _ hfresh) o (st.addReg t) a st' { hin' with fresh := hmore }
      (hs.proceed hreg) h
    exact ⟨o', hreg.trans hp, hs'⟩
  | instr hi huses =>
    intro o st a st' hin hs h
    cases h
    exact ⟨o, hin.addInstr hs (lays?_eq hi).1 huses, nofun⟩
  | assign hr hi huses =>
    intro o st a st' hin hs h
    cases h
    have hp := hin.addInstr hs (lays?_eq hi).1 huses
    refine ⟨o, hp, fun e he => ?_⟩
    rw [mem_singleton.mp he]
    exact ⟨hp.regs _ _ (hin.fresh _ (hfresh _ hr)),
      hin.laid.here_addInstr (assigns?_eq (lays?_eq hi).2).2⟩
  | guard hcond hargs =>
    intro o st a st' hin hs h
    obtain ⟨t, ht⟩ := hcond
    obtain ⟨o', hp⟩ := hin.laid.guard (hs _ ht).2 (fun r hr => by
      obtain ⟨t, ht⟩ := hargs r hr
      exact (hs _ ht).2) h
    exact ⟨o', hp, nofun⟩
  | bind _ _ ihx ihf => exact .bind (ihx hfresh) fun a => ihf a hfresh

theorem supplies (h : Wired lv [] s x s') : Supplies c s x s' := h.supplies_of nofun
theorem pure {a : α} (h : ∀ e ∈ s' a, e ∈ s) : Wired lv fresh s (pure a) s' := by
  refine .aside (.of_ok (fun _ => rfl) fun _ => .same) fun st b st' hx => ?_
  cases hx
  exact ⟨⟨rfl, rfl, rfl, rfl, rfl, prefix_refl _, .same⟩, h⟩

theorem throw {e : CompileError} : Wired lv fresh s (throw e) s' :=
  .aside .throw fun _ _ _ h => nomatch h

theorem ite {p : Prop} [Decidable p] {y : Emit α} (hx : Wired lv fresh s x s')
    (hy : Wired lv fresh s y s') : Wired lv fresh s (if p then x else y) s' := by
  split
  · exact hx
  · exact hy

theorem forM {f : β → Emit Unit} (xs : List β) (h : ∀ a ∈ xs, Wired lv fresh s (f a) fun _ => []) :
    Wired lv fresh s (xs.forM f) fun _ => [] := by
  induction xs with
  | nil => exact pure nofun
  | cons a xs ih =>
    obtain ⟨hfirst, hrest⟩ := forall_mem_cons.mp h
    exact .bind hfirst fun _ => ih hrest

section

variable {t : ValueType} {make : Reg → Instr} (huses : ∀ r, ∀ u ∈ (make r).uses, ∃ t, (u, t) ∈ s)
  (hmake : ∀ r, (make r).lays? lv = some (some r))
include huses hmake

theorem value : Wired lv fresh s (value t make) fun r => [(r, t)] :=
  .newReg t fun r => .bind (.assign mem_cons_self (hmake r) (huses r)) fun _ => pure (by simp)

theorem push (hsub : ∀ e ∈ r, e ∈ s) : Wired lv fresh s (push t make r) id := by
  refine .bind (value huses hmake) fun d => pure fun e he => ?_
  rcases mem_cons.mp he with rfl | he
  · simp
  · simp [hsub e he]

end

end Wired

theorem Supplies.wired {f : α → Emit β} {t : β → SymStack} (hx : Wired 0 [] s x s')
    (hf : ∀ a, Supplies c (s' a ++ s) (f a) t) : Supplies c s (x >>= f) t :=
  .bind hx.supplies hf

theorem Silent.wiredWith (h : Silent x) (hs : ∀ st a st', x st = .ok a st' → ∀ e ∈ s' a, e ∈ s) :
    Wired lv fresh s x s' := by
  refine .aside h.learns fun st a st' hx => ⟨?_, hs st a st' hx⟩
  obtain ⟨hfun, hblock, hpc, hshapes, hemitted, hsites, hregistry⟩ := h.kept st a st' hx
  exact ⟨hfun, hblock, hpc, hshapes, hemitted, hsites ▸ prefix_refl _, hregistry⟩

theorem Silent.wired (h : Silent x) : Wired lv fresh s x fun _ => [] :=
  h.wiredWith fun _ _ _ _ => nofun

theorem silent_pop (pc : Nat) (s : SymStack) : Silent (pop pc s) := by
  cases s with
  | nil => exact .throw
  | cons e s => exact .pure

theorem wired_pop (pc : Nat) (s : SymStack) :
    Wired lv fresh s (pop pc s) fun p => (p.1, p.2.1) :: p.2.2 := by
  refine (silent_pop pc s).wiredWith fun st ⟨r, t, rest⟩ st' hx => ?_
  obtain ⟨rfl, -⟩ := pop_ok hx
  exact fun _ => id

theorem wired_popTyped (pc : Nat) (t : ValueType) (h : ∀ e ∈ r, e ∈ s) :
    Wired lv fresh s (popTyped pc t r) fun p => (p.1, t) :: p.2 := by
  have hsilent : Silent (popTyped pc t r) := by
    refine .bind (silent_pop pc r) fun p => ?_
    dsimp only
    split
    · exact .pure
    · exact .throw
  refine hsilent.wiredWith fun st ⟨u, rest⟩ st' hx => ?_
  obtain ⟨rfl, -⟩ := popTyped_ok hx
  exact h

theorem Wired.popped {pc : Nat} {t : ValueType} {f : Reg × SymStack → Emit β} {s' : β → SymStack}
    (h : ∀ e ∈ r, e ∈ s) (hf : ∀ v rest, Wired lv fresh ((v, t) :: rest ++ s) (f (v, rest)) s') :
    Wired lv fresh s (popTyped pc t r >>= f) s' :=
  .bind (wired_popTyped pc t h) fun p => hf p.1 p.2

end Emit

end ManagedCore
