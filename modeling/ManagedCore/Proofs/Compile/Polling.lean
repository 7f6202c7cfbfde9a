import ManagedCore.Proofs.Compile.Method
import ManagedCore.Proofs.Compile.RisingBodies

/-!
# Compiled code polls

Every cycle of compiled code polls for a pending stop, as long as control goes from block to block
by branches. Exceptions are different: a handler that does not lie behind the code it protects can
be entered from that code again and again without a poll. Where all handlers lie behind what they
protect, every cycle polls.
-/

namespace ManagedCore

open EmitState Registry

namespace Emit

variable {caught : Prop} {height : BlockId → ℚ} {top : ℚ} {st st' : EmitState} {code : Code}

theorem ascends_newParam (b : BlockId) (t : ValueType) : Ascends caught top (newParam b t) := by
  refine .of_alike fun st a st' h => ?_
  cases h
  exact .addsParams (.cons (.nil b _))

theorem ascends_parameters (entry slot : Nat) (ts : List ValueType) :
    Ascends caught top (method.parameters entry slot ts) := by
  induction ts generalizing slot with
  | nil => exact Straight.pure.ascends (k := 0)
  | cons t ts ih =>
    exact .bind (ascends_newParam entry t) fun r =>
      .bind ((straight_instr rfl).ascends (k := 0)) fun _ =>
        .bind (ih _) fun _ => Straight.pure.ascends (k := 0)

theorem rises_acquire {m : Method} {params : List Reg} {lock : Option (Reg × BlockId)} (z : ℚ)
    (hc : Climbing caught height top st) (h : acquire m params st = .ok lock st') :
    ∃ height', Stretches height st.nextBlock height' st'.nextBlock ∧
      st'.function.Rises caught height' ∧ ∀ object unwind, lock = some (object, unwind) →
        unwind < st'.nextBlock ∧ height' unwind = z := by
  obtain ⟨-, rfl, rfl⟩ | ⟨-, object, mid, rfl, rfl, hobject⟩ := acquire_ok h
  · exact ⟨height, .refl _ _, hc.rises, nofun⟩
  have halike : st.Alike (mid.addInstr (.monitorEnter object)) := by
    refine Alike.trans ?_ (.addInstr mid _)
    rcases hobject with ⟨-, -, rfl⟩ | ⟨-, -, rfl⟩
    · exact .of_same rfl rfl
    · exact (Alike.addReg st .ref).trans (.addInstr _ _)
  generalize mid.addInstr (.monitorEnter object) = front at *
  have hnew := alike_addContinuation front none (some .ref)
  have hexit := Alike.addInstr
    { front.addContinuation none (some .ref) with block := front.nextBlock } (.monitorExit object)
  have hrises := hexit.rises (hnew.rises ((halike.rises hc.rises).addHandled none z nofun))
  have hsize : (front.addUnwind object).nextBlock = front.nextBlock + 1 :=
    nextBlock_close.trans (hexit.size.trans (nextBlock_addContinuation _))
  refine ⟨_, ?_, hrises.close nofun, ?_⟩
  · rw [hsize, ← halike.size]
    exact .update ..
  · rintro _ _ heq
    cases heq
    rw [hsize]
    exact ⟨Nat.lt_succ_self _, Function.update_self ..⟩

theorem rises_method {m : Method} (hempty : st.function.blocks = #[])
    (hforward : caught → ∀ row ∈ code.handlers, row.stop ≤ row.handler)
    (h : method m code st = .ok () st') : ∃ height, st'.function.Rises caught height := by
  obtain ⟨regs, lock, st₁, graph, drawn, mid, depth, hparams, hlock, hdraw, hprologue, hfill⟩ :=
    method_steps hempty h
  have hn : st.atEntry.nextBlock = 1 := by
    change (st.function.blocks.push {}).size = 1
    rw [hempty]
    rfl
  have hc : Climbing caught (fun _ => -2) (-1) st.atEntry := by
    refine ⟨fun b blk hb => ?_, hn ▸ Nat.zero_lt_one, by norm_num⟩
    have hb : (st.function.blocks.push {})[b]? = some blk := hb
    rw [hempty, Array.getElem?_push] at hb
    split at hb
    · cases hb
      exact .empty rfl nofun
    · cases hb
  obtain ⟨height₁, hstretch₁, hc₁⟩ := ascends_parameters 0 0 m.paramTypes _ _ _ _ hc hparams
  obtain ⟨height₂, hstretch₂, hrises₂, hunwind⟩ := rises_acquire 2 hc₁ hlock
  have hstretch := hstretch₁.trans hstretch₂
  have hentry : 0 < st₁.nextBlock ∧ height₂ 0 = -2 :=
    ⟨Nat.lt_of_lt_of_le (hn ▸ Nat.zero_lt_one) hstretch.size, hstretch.same 0 (hn ▸ Nat.zero_lt_one)⟩
  -- The block in front of the body.
  have hguard : ∀ x, lock.map (·.2) = some x → x < st₁.nextBlock ∧ height₂ x = 2 := by
    intro x hx
    obtain ⟨⟨object, unwind⟩, hlock, rfl⟩ := Option.map_eq_some_iff.mp hx
    exact hunwind object unwind hlock
  have hc₂ : Climbing caught height₂ (-1) { st₁ with block := 0 } :=
    ⟨hrises₂, hentry.1, hentry.2 ▸ by norm_num⟩
  have habove : caught → ∀ x, lock.map (·.2) = some x → x < st₁.nextBlock ∧ -1 < height₂ x :=
    fun _ x hx => ⟨(hguard x hx).1, (hguard x hx).2 ▸ by norm_num⟩
  obtain ⟨hc₃, hup, -⟩ := hc₂.addHandled hc₂.below habove
  have hrises₄ := hc₃.rises.close (t := .jump ⟨st₁.nextBlock, []⟩)
    fun c hmem => by rw [List.mem_singleton.mp hmem]; exact hup []
  have hstretch₃ := Stretches.update height₂ st₁.nextBlock (-1)
  have hsize₄ : (st₁.startBody lock).nextBlock = st₁.nextBlock + 1 :=
    nextBlock_close.trans nextBlock_addHandled
  obtain ⟨f, hof, rfl⟩ := flowGraph_ok hdraw
  have hbounds := between_bounds zero_lt_one
  obtain ⟨height₅, hstretch₅, hrises₅, hlevels⟩ := levels_draw (FlowGraph.drawn_ofCode hof) hrises₄
    (strictMono_between zero_lt_one) hforward
  have hl := hlevels (.ofMethod m code graph lock) rfl rfl nofun fun _ x hx => by
    obtain ⟨hlt, heq⟩ := hguard x hx
    rw [hsize₄]
    exact ⟨Nat.lt_succ_of_lt hlt, fun i => ((hbounds i).2.trans (by norm_num)).trans_eq
      ((hstretch₃.same x hlt).trans heq).symm⟩
  have hlast : st₁.nextBlock < (st₁.startBody lock).nextBlock := hsize₄ ▸ Nat.lt_succ_self _
  have hc₅ : Climbing caught height₅ 0 { st₁.startBody lock with function := f } := by
    refine ⟨hrises₅, Nat.lt_of_lt_of_le hlast hstretch₅.size, ?_⟩
    have hstart : height₅ st₁.nextBlock = -1 :=
      (hstretch₅.same _ hlast).trans (Function.update_self ..)
    change height₅ st₁.nextBlock < 0
    rw [hstart]
    norm_num
  obtain ⟨ok, st₆, hcheck, h⟩ := bind_ok hprologue
  obtain ⟨height₆, hstretch₆, hc₆⟩ :=
    (straight_value _ _ fun _ => rfl).ascends (k := 0) _ _ _ _ hc₅ hcheck
  obtain ⟨_, st₇, hraise, h⟩ := bind_ok h
  obtain ⟨height₇, hstretch₇, hc₇⟩ := hc₆.guard hraise
  obtain ⟨_, st₈, hpoll, h⟩ := bind_ok h
  obtain ⟨height₈, hstretch₈, hc₈⟩ := (straight_instr rfl).ascends (k := 0) _ _ _ _ hc₇ hpoll
  have hl₈ := ((hl.stretch hstretch₆).stretch hstretch₇).stretch hstretch₈
  obtain ⟨hstretch₉, hrises₉⟩ := rises_enterBody hl₈ (hc₈.mono (hbounds 1).1.le) h
  obtain ⟨height', -, hrises⟩ :=
    fills_fillBody (climbs_expander caught depth) _ _ _ _ _ (hl₈.stretch hstretch₉) hrises₉ hfill
  exact ⟨height', hrises⟩

end Emit

/-! ## Compiled functions -/

/-- **Compiled code polls**: on every cycle of branches, and on every cycle of branches and
exceptions if no handler lies in front of the end of the code that it protects. -/
theorem compile_polls {config : Config} {registry : Registry} {m : Method} {compiled : Compiled}
    (hcompile : (compile config registry m).1 = .ok compiled) :
    compiled.function.PollsAround compiled.function.Follows ∧
      ((∀ code, m.code = some code → ∀ row ∈ code.handlers, row.stop ≤ row.handler) →
        compiled.function.PollsAround fun b c =>
          compiled.function.Follows b c ∨ compiled.function.Escapes b c) := by
  obtain ⟨code, last, hcode, hmethod, hfun, -⟩ := compile_ok hcompile
  rw [hfun]
  refine ⟨?_, fun hforward => ?_⟩
  · obtain ⟨height, hrises⟩ : ∃ height, last.function.Rises False height :=
      Emit.rises_method rfl nofun hmethod
    exact hrises.pollsAround
  · obtain ⟨height, hrises⟩ : ∃ height, last.function.Rises True height :=
      Emit.rises_method rfl (fun _ => hforward code hcode) hmethod
    exact hrises.pollsAround_caught

/-- Divides by a number that it counts down, until division by zero ends the loop. -/
def countdownCode : Code :=
  { bytes := [0x04, 0x1a, 0x6c, 0x57, 0x84, 0x00, 0xff, 0xa7, 0xff, 0xf9, 0x57, 0x1a, 0xac]
    maxLocals := 1
    maxStack := 2
    handlers := [⟨0, 10, 10, none⟩] }

def countdownMethod : Method :=
  { id := 0, owner := 1, ownerName := "Numbers", name := "countdown", descriptor := "(I)I"
    signature := ⟨[.int], some .int⟩, flags := Flag.isPublic ||| Flag.isStatic
    code := some countdownCode, native := none, loader := 0, offset := none
    entry := { current := .stub } }

theorem compile_polls_countdown : ∃ compiled,
    (compile {} Registry.core countdownMethod).1 = .ok compiled ∧
      compiled.function.PollsAround compiled.function.Follows ∧
      compiled.function.PollsAround fun b c =>
        compiled.function.Follows b c ∨ compiled.function.Escapes b c := by
  have hcompiles : (compile {} Registry.core countdownMethod).1.isOk = true := by decide +kernel
  cases hcompile : (compile {} Registry.core countdownMethod).1 with
  | error e =>
    rw [hcompile] at hcompiles
    cases hcompiles
  | ok compiled =>
    obtain ⟨hbranches, hall⟩ := compile_polls hcompile
    refine ⟨compiled, rfl, hbranches, hall ?_⟩
    rintro _ ⟨⟩
    decide

/-- Throws null under a handler that protects itself, and throws what it catches. -/
def rethrowCode : Code :=
  { bytes := [0x01, 0xbf], maxLocals := 0, maxStack := 1, handlers := [⟨1, 2, 1, none⟩] }

def rethrowMethod : Method :=
  { id := 0, owner := 1, ownerName := "Numbers", name := "rethrow", descriptor := "()V"
    signature := ⟨[], none⟩, flags := Flag.isPublic ||| Flag.isStatic
    code := some rethrowCode, native := none, loader := 0, offset := none
    entry := { current := .stub } }

/-- A handler that protects itself is entered from itself without a poll. -/
theorem compile_rethrow_not_polls : ∃ compiled,
    (compile {} Registry.core rethrowMethod).1 = .ok compiled ∧
      ¬ compiled.function.PollsAround fun b c =>
        compiled.function.Follows b c ∨ compiled.function.Escapes b c := by
  have hhandler : (compile {} Registry.core rethrowMethod).1.toOption.bind
      (·.function.block? 3) = some ⟨[2], #[⟨.isNull 4 2, 1⟩], .branch 4 ⟨7, []⟩ ⟨8, []⟩, 1, some 4⟩ := by
    decide +kernel
  have hdispatch : (compile {} Registry.core rethrowMethod).1.toOption.bind
      (·.function.block? 4) = some ⟨[0], #[], .jump ⟨3, [0]⟩, 1, none⟩ := by
    decide +kernel
  cases hcompile : (compile {} Registry.core rethrowMethod).1 with
  | error e =>
    rw [hcompile] at hhandler
    cases hhandler
  | ok compiled =>
    rw [hcompile] at hhandler hdispatch
    have hhandler : compiled.function.block? 3 = _ := hhandler
    have hdispatch : compiled.function.block? 4 = _ := hdispatch
    refine ⟨compiled, rfl, fun hpolls => hpolls 3 ?_⟩
    have hquiet : ∀ b blk, compiled.function.block? b = some blk →
        (∀ p ∈ blk.instrs, p.instr ≠ .safepoint) → ¬ compiled.function.Polls b := by
      rintro b blk hb hnone ⟨blk', hb', p, hp, hsafe⟩
      rw [hb, Option.some.injEq] at hb'
      exact hnone p (hb' ▸ hp) hsafe
    refine .tail (.single ⟨.inr ⟨_, hhandler, rfl⟩, hquiet 3 _ hhandler (by decide)⟩)
      ⟨.inl ⟨_, hdispatch, ⟨3, [0]⟩, by decide, rfl⟩, hquiet 4 _ hdispatch (by decide)⟩

end ManagedCore
