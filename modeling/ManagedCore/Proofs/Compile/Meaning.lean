import ManagedCore.Proofs.Compile.Prologue
import ManagedCore.Proofs.Machine.Start

/-!
# Compilation keeps the meaning of a body

A body of covered instructions, without an exception table, ends when it is compiled exactly as it
ends when its instructions are run directly: with the same result, with the exception of a division
by zero, or with a fatal error. If it runs for ever directly, it does so when it is compiled.
-/

namespace ManagedCore

open EmitState Direct

section

variable {expand : Option Expander} {body : Body} {instrs : List Instruction}
  {fin : EmitState} {a : Activation} {tid : ThreadId} {w : World} {c : Control}
  {others : Nat → World → World} {d : State} {st : Step}

def Follows (expand : Option Expander) (body : Body) (fin : EmitState) (tid : ThreadId)
    (a : Activation) (st : Step) : Prop :=
  Simulates tid 0 (fun d b => ∃ n, Matches expand body fin n d b) a st

theorem Matches.follows (tid : ThreadId) (hbody : PlainBody body instrs)
    (hfin : Complete expand body fin) {n : Nat} (h : Matches expand body fin n d a) :
    Follows expand body fin tid a (Direct.step instrs d) := by
  rcases h.step tid hbody hfin with hturn | hshort
  · exact hturn.mono (Nat.zero_le 1)
  · refine hshort.andThen 0 fun d' b hb => ?_
    obtain ⟨m, -, hmatch⟩ := hb
    exact ⟨b, .here b, m, hmatch⟩

theorem Follows.not_malformed (hbody : PlainBody body instrs) (hfin : Complete expand body fin)
    (n : Nat) (h : Follows expand body fin tid a st) : after instrs n st ≠ .malformed := by
  induction n generalizing a st with
  | zero =>
    rintro rfl
    exact h
  | succ n ih =>
    cases st with
    | next d =>
      obtain ⟨k, b, -, -, m, hmatch⟩ := h
      exact ih (hmatch.follows tid hbody hfin)
    | malformed => exact absurd h id
    | done | mistyped => nofun

section

variable (hothers : ∀ k w, Serves tid w → Serves tid (others k w)) {w₁ : World} {r : Result}
  {k : Nat}
include hothers

theorem Follows.finish (h : Follows expand body fin tid a (.done r))
    (hs : Serves tid w₁) (hturns : turns tid others w c k = (w₁, a.control)) :
    ∃ k w₂ o, turns tid others w c k = (w₂, { tasks := [], answer := some o }) ∧ Agrees r w₂ o := by
  obtain ⟨j, b, hleads, hfinish⟩ := h
  obtain ⟨m, w₂, -, hs₂, hturns₂⟩ := hleads.turns hothers hs hturns
  obtain ⟨w₃, o, hturns₃, hagrees⟩ := hfinish.turns hothers hs₂ hturns₂
  exact ⟨_, w₃, o, hturns₃, hagrees⟩

theorem Follows.done (hbody : PlainBody body instrs) (hfin : Complete expand body fin) (n : Nat)
    (h : Follows expand body fin tid a st)
    (hdone : after instrs n st = .done r) (hs : Serves tid w₁)
    (hturns : turns tid others w c k = (w₁, a.control)) :
    ∃ k w₂ o, turns tid others w c k = (w₂, { tasks := [], answer := some o }) ∧ Agrees r w₂ o := by
  induction n generalizing a st k w₁ with
  | zero =>
    obtain rfl : st = .done r := hdone
    exact h.finish hothers hs hturns
  | succ n ih =>
    cases st with
    | next d =>
      obtain ⟨j, b, -, hleads, m, hmatch⟩ := h
      obtain ⟨i, w₂, -, hs₂, hturns₂⟩ := hleads.turns hothers hs hturns
      exact ih (hmatch.follows tid hbody hfin) hdone hs₂ hturns₂
    | done r' =>
      cases hdone
      exact h.finish hothers hs hturns
    | mistyped | malformed => cases hdone

/-- A body that runs for ever keeps its activation busy for any number of turns. -/
theorem Matches.forever (hbody : PlainBody body instrs) (hfin : Complete expand body fin) (n : Nat)
    {m : Nat} (h : Matches expand body fin m d a)
    (hrun : ∀ n, ∃ s, after instrs n (.next d) = .next s)
    (hs : Serves tid w₁) (hturns : turns tid others w c k = (w₁, a.control)) :
    ∃ k' w₂ b, k + n ≤ k' ∧ turns tid others w c k' = (w₂, Activation.control b) := by
  induction n generalizing m d a k w₁ with
  | zero => exact ⟨k, w₁, a, Nat.le_refl k, hturns⟩
  | succ n ih =>
    -- Steps without turns make the rest of the block shorter.
    induction m using Nat.strongRecOn generalizing d a k w₁ with
    | ind m ihm =>
      obtain ⟨d', hd'⟩ := hrun 1
      have hstep : Direct.step instrs d = .next d' := hd'
      have hrun' : ∀ n, ∃ s, after instrs n (.next d') = .next s := fun n => by
        obtain ⟨s, hafter⟩ := hrun (n + 1)
        rw [after, hstep] at hafter
        exact ⟨s, hafter⟩
      have hcases := h.step tid hbody hfin
      rw [hstep] at hcases
      rcases hcases with ⟨j, b, hj, hleads, m', hmatch⟩ | ⟨j, b, -, hleads, m', hlt, hmatch⟩
      · obtain ⟨i, w₂, hi, hs₂, hturns₂⟩ := hleads.turns hothers hs hturns
        obtain ⟨k', w₃, b', hle, hend⟩ := ih hmatch hrun' hs₂ hturns₂
        exact ⟨k', w₃, b', by omega, hend⟩
      · obtain ⟨i, w₂, hi, hs₂, hturns₂⟩ := hleads.turns hothers hs hturns
        obtain ⟨k', w₃, b', hle, hend⟩ := ihm m' hlt hmatch hrun' hs₂ hturns₂
        exact ⟨k', w₃, b', by omega, hend⟩

end

theorem compile_follows {config : Config} {registry : Registry} {m : Method} {code : Code}
    {compiled : Compiled} {args : List Value} (tid : ThreadId) (id : CodeId) (scope : Scope)
    (hcode : m.code = some code) (hcompile : (compile config registry m).1 = .ok compiled)
    (hdecode : Bytecode.decode code.bytes = .ok instrs)
    (hcovers : ∀ i ∈ instrs, covers i.op = true) (hhandlers : code.handlers = [])
    (hsync : m.isSynchronized = false) (hargs : args.map Value.type = m.paramTypes) :
    ∃ expand body fin, PlainBody body instrs ∧ Complete expand body fin ∧
      Follows expand body fin tid (Activation.start m.id id compiled.function scope args)
        (start code.maxLocals args) := by
  obtain ⟨code', fin, hcode', hmethod, hfun, -⟩ := compile_ok hcompile
  cases hcode.symm.trans hcode'
  have hfresh : Fresh (.ofMethod config registry m code) := ⟨rfl, rfl, rfl, rfl, rfl, rfl⟩
  obtain ⟨body, expand, k, mid, hbody, hbcode, hblocks, hprologue, hfill⟩ :=
    method_ok hfresh hsync hhandlers hdecode hcovers hmethod
  obtain ⟨hends, -⟩ := prologue_ok (sound_atBody hfresh hblocks) open_atBody hprologue
  have hnone : mid.emitted = [] := hends.emitted
  have hfilling : Filling expand body mid :=
    ⟨hends.sound, hends.closed, fun b _ hb => by rw [hnone] at hb; cases hb⟩
  obtain ⟨hfin, hlater⟩ := fillBody_ok hbody hfilling hfill
  refine ⟨expand, body, fin, hbody, hfin, ?_⟩
  rw [hfun, ← hbcode]
  refine (start_simulates hfresh hblocks (by rw [hbcode]; rfl) hargs hprologue hfin.sound
    hlater).andThen 0 fun d b hat => ?_
  exact ⟨b, .here b, hat.matches hbody hfin⟩

/-- **Compilation preserves meaning.** Take a method of covered instructions that compiles, without
exception table and not synchronized, and arguments of its types. If its instructions, run directly,
end, then the compiled code ends, whatever other threads do in between, and with the same outcome.
If they run for ever, so does the compiled code, and they are never malformed. -/
theorem compile_preserves_meaning {config : Config} {registry : Registry} {m : Method}
    {code : Code} {compiled : Compiled} (id : CodeId) (scope : Scope) (args : List Value)
    (hcode : m.code = some code) (hcompile : (compile config registry m).1 = .ok compiled)
    (hdecode : Bytecode.decode code.bytes = .ok instrs)
    (hcovers : ∀ i ∈ instrs, Direct.covers i.op = true) (hhandlers : code.handlers = [])
    (hsync : m.isSynchronized = false) (hargs : args.map Value.type = m.paramTypes)
    (hw : Serves tid w) (hothers : ∀ k w, Serves tid w → Serves tid (others k w)) :
    let run := turns tid others w (Activation.start m.id id compiled.function scope args).control
    let direct := fun n => Direct.after instrs n (Direct.start code.maxLocals args)
    (∀ n r, direct n = .done r → ∃ k w' o, run k = (w', { tasks := [], answer := some o }) ∧
      Agrees r w' o) ∧
    ((∀ n, ∃ s, direct n = .next s) → ∀ k, (run k).2.isDone = false) ∧
    ∀ n, direct n ≠ .malformed := by
  intro run direct
  obtain ⟨expand, body, fin, hbody, hfin, hfollows⟩ := compile_follows tid id scope hcode
    hcompile hdecode hcovers hhandlers hsync hargs
  have hzero : run 0 = (w, (Activation.start m.id id compiled.function scope args).control) := rfl
  refine ⟨fun n r hdone => ?_, fun hrun k => ?_, fun n => hfollows.not_malformed hbody hfin n⟩
  · exact hfollows.done hothers hbody hfin n hdone hw hzero
  · obtain ⟨d, hd⟩ := hrun 0
    have hstart : Direct.start code.maxLocals args = .next d := hd
    rw [hstart] at hfollows
    obtain ⟨j, b, -, hleads, m', hmatch⟩ := hfollows
    obtain ⟨i, w₁, -, hs₁, hturns⟩ := hleads.turns hothers hw hzero
    have hrun' : ∀ n, ∃ s, Direct.after instrs n (.next d) = .next s := by
      rw [← hstart]
      exact hrun
    obtain ⟨k', w₂, b', hle, hend⟩ := hmatch.forever hothers hbody hfin k hrun' hs₁ hturns
    refine turns_isDone_of_le (m := k') (by omega) ?_
    rw [hend]
    rfl

end

/-- Takes remainders until the second number is zero. -/
def gcdCode : Code :=
  { bytes := [0x1b, 0x99, 0x00, 0x0d, 0x1a, 0x1b, 0x70, 0x1b, 0x3b, 0x3c, 0xa7, 0xff, 0xf6, 0x00,
      0x1a, 0xac]
    maxLocals := 2
    maxStack := 2 }

def gcdMethod : Method :=
  { id := 0, owner := 1, ownerName := "Numbers", name := "gcd", descriptor := "(II)I"
    signature := ⟨[.int, .int], some .int⟩, flags := Flag.isStatic, code := some gcdCode
    native := none, loader := 0, offset := none, entry := { current := .stub } }

theorem compile_preserves_meaning_gcd : ∃ compiled w t k w',
    (compile {} Registry.core gcdMethod).1 = .ok compiled ∧ Serves t w ∧
    turns t (fun _ w => w) w (Activation.start gcdMethod.id 0 compiled.function ⟨0, none, none⟩
      [.int 48, .int 18]).control k =
        (w', { tasks := [], answer := some (.value (some (.int 6))) }) := by
  have hcompiles : (compile {} Registry.core gcdMethod).1.isOk = true := by decide +kernel
  have hruns : (match Bytecode.decode gcdCode.bytes with
    | .ok instrs => decide (∀ i ∈ instrs, Direct.covers i.op = true) &&
        decide (Direct.after instrs 100 (Direct.start 2 [.int 48, .int 18]) =
          .done (.value (some (.int 6))))
    | .error _ => false) = true := by decide +kernel
  cases hcompile : (compile {} Registry.core gcdMethod).1 with
  | error e =>
    rw [hcompile] at hcompiles
    cases hcompiles
  | ok compiled =>
    cases hdecode : Bytecode.decode gcdCode.bytes with
    | error e =>
      rw [hdecode] at hruns
      cases hruns
    | ok instrs =>
      rw [hdecode, Bool.and_eq_true, decide_eq_true_eq, decide_eq_true_eq] at hruns
      obtain ⟨t, w, hserves⟩ := World.exists_serves
      obtain ⟨hdone, -, -⟩ := compile_preserves_meaning 0 ⟨0, none, none⟩ [.int 48, .int 18] rfl
        hcompile hdecode hruns.1 rfl (by decide) rfl hserves fun _ _ h => h
      obtain ⟨k, w', o, hturns, rfl⟩ := hdone 100 _ hruns.2
      exact ⟨compiled, w, t, k, w', rfl, hserves, hturns⟩

end ManagedCore
