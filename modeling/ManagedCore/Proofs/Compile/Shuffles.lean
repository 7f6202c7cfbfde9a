import ManagedCore.Proofs.Compile.Method

/-!
# Shuffles of the operand stack

A value of two slots stands for two words. The instructions that reorder the stack are defined on
words, whatever values these are halves of, and the emitter moves whole values. Both do the same
wherever the words that an instruction takes as one group are whole values.
-/

namespace ManagedCore

open List

/-- What an instruction does with words, the top first. -/
def StackOp.onWords {α : Type} : StackOp → List α → Option (List α)
  | .pop, _ :: s => some s
  | .pop2, _ :: _ :: s => some s
  | .dup, a :: s => some (a :: a :: s)
  | .dupX1, a :: b :: s => some (a :: b :: a :: s)
  | .dupX2, a :: b :: c :: s => some (a :: b :: c :: a :: s)
  | .dup2, a :: b :: s => some (a :: b :: a :: b :: s)
  | .dup2X1, a :: b :: c :: s => some (a :: b :: c :: a :: b :: s)
  | .dup2X2, a :: b :: c :: d :: s => some (a :: b :: c :: d :: a :: b :: s)
  | .swap, a :: b :: s => some (b :: a :: s)
  | _, _ => none

/-- How many words lie above the places where an instruction cuts the stack: below the words that it
copies or moves, and below those that it moves them under. -/
def StackOp.cuts : StackOp → List Nat
  | .pop | .dup => [1]
  | .pop2 | .dup2 => [2]
  | .dupX1 | .swap => [1, 2]
  | .dupX2 => [1, 3]
  | .dup2X1 => [2, 3]
  | .dup2X2 => [2, 4]

theorem StackOp.isSome_onWords {α : Type} (op : StackOp) (s : List α) :
    (op.onWords s).isSome ↔ ∀ n ∈ op.cuts, n ≤ s.length := by
  obtain _ | ⟨a, _ | ⟨b, _ | ⟨c, _ | ⟨d, s⟩⟩⟩⟩ := s <;> cases op <;>
    simp [onWords, cuts]

namespace SymStack

variable {pc n k : Nat} {s t b : SymStack} {e : CompileError}

/-- The words of the values on a stack: a value and which half of it. -/
def words (s : SymStack) : List ((Reg × ValueType) × Nat) :=
  s.flatMap fun e => (range e.2.slots).map (e, ·)

@[simp] theorem words_nil : words [] = [] := rfl

@[simp] theorem words_append (s t : SymStack) : words (s ++ t) = words s ++ words t :=
  flatMap_append

@[simp] theorem length_words_cons (e : Reg × ValueType) (s : SymStack) :
    (words (e :: s)).length = e.2.slots + (words s).length := by
  simp [words]

/-- The place below `n` words is inside a value. -/
def Splits (s : SymStack) (n : Nat) : Prop :=
  ∃ t e b, s = t ++ e :: b ∧ (words t).length < n ∧ n < (words (t ++ [e])).length

theorem not_splits (h : (words t).length = n) : ¬ Splits (t ++ b) n := by
  rintro ⟨t', e, b', heq, hlt, hgt⟩
  obtain ⟨c, rfl, -⟩ | ⟨c, rfl, hc⟩ := append_eq_append_iff.mp heq
  · simp only [words_append, length_append] at hlt
    omega
  · cases c with
    | nil => simp_all
    | cons e' c =>
      obtain ⟨rfl, -⟩ := cons.inj hc
      simp only [words_append, words_nil, length_append, length_words_cons,
        length_nil] at h hgt
      omega

theorem Splits.under (h : Splits s k) (t : SymStack) : Splits (t ++ s) ((words t).length + k) := by
  obtain ⟨u, e, b, rfl, hlt, hgt⟩ := h
  refine ⟨t ++ u, e, b, by simp, ?_, ?_⟩ <;> simp only [words_append, length_append] at * <;>
    omega

/-- The faults of a shuffle. -/
def Fault (pc : Nat) (e : CompileError) : Prop := e = .stackUnderflow pc ∨ e = .splitsWideValue pc

/-- The place below `n` words is above the bottom and inside no value. -/
def Whole (s : SymStack) (n : Nat) : Prop := n ≤ (words s).length ∧ ¬ Splits s n

theorem whole_append (h : (words t).length = n) : Whole (t ++ b) n :=
  ⟨by rw [words_append, length_append, h]; exact Nat.le_add_right n _, not_splits h⟩

theorem popSlots_spec (pc n : Nat) (s : SymStack) :
    (∃ t b, popSlots pc n s = .ok (t, b) ∧ s = t ++ b ∧ (words t).length = n) ∨
      ∃ e, popSlots pc n s = .error e ∧ Fault pc e ∧ ¬ Whole s n := by
  fun_induction popSlots pc n s with
  | case1 s => exact .inl ⟨[], s, rfl, rfl, rfl⟩
  | case2 n => exact .inr ⟨_, rfl, .inl rfl, fun h => by simpa [words] using h.1⟩
  | case3 n e s hle ih =>
    obtain ⟨t, b, hok, rfl, hlen⟩ | ⟨err, herr, hfault, hwhole⟩ := ih
    · refine .inl ⟨e :: t, b, by rw [hok]; rfl, rfl, ?_⟩
      rw [length_words_cons]
      omega
    · refine .inr ⟨err, by rw [herr]; rfl, hfault, fun h => hwhole ⟨?_, fun hs => h.2 ?_⟩⟩
      · have := h.1
        rw [length_words_cons] at this
        omega
      · have := hs.under [e]
        rwa [show (words [e]).length + (n + 1 - e.2.slots) = n + 1 by simp; omega] at this
  | case4 n e s hgt =>
    exact .inr ⟨_, rfl, .inr rfl, fun h => h.2 ⟨[], e, s, rfl, by simp, by simp; omega⟩⟩

/-- A shuffle gives what the words say where the places that it cuts at are whole, and fails
otherwise. -/
def Agrees (pc : Nat) (op : StackOp) (s : SymStack) (r : Except CompileError SymStack) : Prop :=
  (∃ s', r = .ok s' ∧ op.onWords (words s) = some (words s') ∧ ∀ n ∈ op.cuts, Whole s n) ∨
    ∃ e, r = .error e ∧ Fault pc e ∧ ∃ n ∈ op.cuts, ¬ Whole s n

section

variable (op : StackOp) (pc : Nat) (s : SymStack)

theorem agrees_one {g : SymStack → SymStack → SymStack}
    (g' : {α : Type} → List α → List α → List α) (hcuts : op.cuts = [n])
    (hg : ∀ t b, words (g t b) = g' (words t) (words b))
    (hop : ∀ {α : Type} (t b : List α), t.length = n → op.onWords (t ++ b) = some (g' t b)) :
    Agrees pc op s ((popSlots pc n s).map fun p => g p.1 p.2) := by
  rw [Agrees, hcuts]
  obtain ⟨t, b, hok, rfl, hlen⟩ | ⟨e, herr, hfault, hwhole⟩ := popSlots_spec pc n s
  · refine .inl ⟨g t b, by rw [hok]; rfl, by rw [words_append, hop _ _ hlen, hg], ?_⟩
    simpa using whole_append hlen
  · exact .inr ⟨e, by rw [herr]; rfl, hfault, n, mem_singleton_self n, hwhole⟩

theorem agrees_two {g : SymStack → SymStack → SymStack → SymStack}
    (g' : {α : Type} → List α → List α → List α → List α) (hcuts : op.cuts = [n, n + k])
    (hg : ∀ t u b, words (g t u b) = g' (words t) (words u) (words b))
    (hop : ∀ {α : Type} (t u b : List α), t.length = n → u.length = k →
      op.onWords (t ++ (u ++ b)) = some (g' t u b)) :
    Agrees pc op s ((popSlots pc n s).bind fun p =>
      (popSlots pc k p.2).map fun q => g p.1 q.1 q.2) := by
  rw [Agrees, hcuts]
  obtain ⟨t, b, hok, rfl, hlen⟩ | ⟨e, herr, hfault, hwhole⟩ := popSlots_spec pc n s
  · rw [hok]
    obtain ⟨u, b, hok, rfl, hlen'⟩ | ⟨e, herr, hfault, hwhole⟩ := popSlots_spec pc k b
    · refine .inl ⟨g t u b, by simp only [Except.bind, hok]; rfl, ?_, ?_⟩
      · rw [words_append, words_append, hop _ _ _ hlen hlen', hg]
      · have hboth : Whole ((t ++ u) ++ b) (n + k) := whole_append (by simp [hlen, hlen'])
        simpa using ⟨whole_append hlen, append_assoc t u b ▸ hboth⟩
    · refine .inr ⟨e, by simp only [Except.bind, herr]; rfl, hfault, n + k, by simp, fun h => ?_⟩
      refine hwhole ⟨?_, fun hs => h.2 (hlen ▸ hs.under t)⟩
      have := h.1
      simp only [words_append, length_append] at this
      omega
  · exact .inr ⟨e, by rw [herr]; rfl, hfault, n, by simp, hwhole⟩

theorem agrees_copy (n : Nat) (hcuts : op.cuts = [n])
    (hop : ∀ {α : Type} (t b : List α), t.length = n → op.onWords (t ++ b) = some (t ++ t ++ b)) :
    Agrees pc op s (shuffle.copy pc s n) :=
  agrees_one op pc s (g := fun t b => t ++ t ++ b) (fun t b => t ++ t ++ b) hcuts (by simp) hop

theorem agrees_copyUnder (n k : Nat) (hcuts : op.cuts = [n, n + k])
    (hop : ∀ {α : Type} (t u b : List α), t.length = n → u.length = k →
      op.onWords (t ++ (u ++ b)) = some (t ++ u ++ t ++ b)) :
    Agrees pc op s (shuffle.copyUnder pc s n k) :=
  agrees_two op pc s (g := fun t u b => t ++ u ++ t ++ b) (fun t u b => t ++ u ++ t ++ b) hcuts
    (by simp) hop

theorem agrees_shuffle : Agrees pc op s (s.shuffle pc op) := by
  cases op with
  | pop => exact agrees_one .pop pc s (fun _ b => b) rfl (fun _ _ => rfl) fun | [_], _, _ => rfl
  | pop2 =>
    exact agrees_one .pop2 pc s (fun _ b => b) rfl (fun _ _ => rfl) fun | [_, _], _, _ => rfl
  | dup => exact agrees_copy .dup pc s 1 rfl fun | [_], _, _ => rfl
  | dup2 => exact agrees_copy .dup2 pc s 2 rfl fun | [_, _], _, _ => rfl
  | dupX1 => exact agrees_copyUnder .dupX1 pc s 1 1 rfl fun | [_], [_], _, _, _ => rfl
  | dupX2 => exact agrees_copyUnder .dupX2 pc s 1 2 rfl fun | [_], [_, _], _, _, _ => rfl
  | dup2X1 => exact agrees_copyUnder .dup2X1 pc s 2 1 rfl fun | [_, _], [_], _, _, _ => rfl
  | dup2X2 => exact agrees_copyUnder .dup2X2 pc s 2 2 rfl fun | [_, _], [_, _], _, _, _ => rfl
  | swap =>
    exact agrees_two .swap pc s (g := fun t u b => u ++ t ++ b)
      (fun t u b => u ++ t ++ b) rfl (by simp) fun | [_], [_], _, _, _ => rfl

end

end SymStack

namespace Emit

/-- The run of an action comes to another one. -/
inductive Reaches {β : Type} (y : Emit β) : {α : Type} → Emit α → EmitState → Prop
  | here {st : EmitState} : Reaches y y st
  | first {α γ : Type} {x : Emit α} {f : α → Emit γ} {st : EmitState} (h : Reaches y x st) :
      Reaches y (x >>= f) st
  | next {α γ : Type} {x : Emit α} {f : α → Emit γ} {st st' : EmitState} {a : α}
      (hx : x st = .ok a st') (h : Reaches y (f a) st') : Reaches y (x >>= f) st

variable {st : EmitState}

theorem Reaches.error {α β : Type} {y : Emit β} {x : Emit α} {e : CompileError}
    (h : Reaches y x st) (hy : ∀ st, y st = .error e st) : ∃ last, x st = .error e last := by
  induction h with
  | here => exact ⟨_, hy _⟩
  | first _ ih =>
    obtain ⟨last, hlast⟩ := ih
    exact ⟨last, show EStateM.bind _ _ _ = _ by rw [EStateM.bind, hlast]⟩
  | next hx _ ih => rwa [bind_eq hx]

/-- What an action gives if it does not fail, and the state after it. -/
def settle {α : Type} (x : Emit α) (st : EmitState) : Option α × EmitState :=
  match x st with
  | .ok a st' => (some a, st')
  | .error _ st' => (none, st')

theorem Reaches.onward {α β γ : Type} (a : α) {y : Emit β} {x : Emit α} {f : α → Emit γ}
    (ha : (x.settle st).1 = some a)
    (h : Reaches y (f a) (x.settle st).2) : Reaches y (x >>= f) st := by
  rw [settle] at ha h
  cases hx : x st with
  | ok b st' =>
    simp only [hx] at ha h
    cases ha
    exact .next hx h
  | error e st' => simp [hx] at ha

theorem Reaches.ready {β : Type} {y : Emit β} {expand : Option Expander} {body : Body}
    {nodes rest : List Node} {node : Node} (b : BlockId)
    (params : List (Reg × ValueType)) (hnodes : nodes = node :: rest)
    (hready : (node.block.filter fun b => !st.emitted.contains b) = some b)
    (hparams : st.shapes.lookup b = some params)
    (h : Reaches y (block expand body (node :: rest) node.instr.pc b params) st) :
    Reaches y (round expand body nodes) st := by
  rw [hnodes]
  refine .next rfl ?_
  simp only [hready, Option.bind_some, hparams]
  exact h.first

end Emit

theorem compile_error {config : Config} {registry : Registry} {m : Method} {code : Code}
    {e : CompileError} {last : EmitState} (hcode : m.code = some code)
    (h : Emit.method m code (.ofMethod config registry m code) = .error e last) :
    (compile config registry m).1 = .error e := by
  have hrun : (Emit.method m code).run (.ofMethod config registry m code) = .error e last := h
  unfold EmitState.ofMethod at hrun
  simp only [compile, hcode, hrun]

/-- **Shuffles do to whole values what they are defined to do to words.** One succeeds exactly where
there are words enough and no place that it cuts at is inside a value. Otherwise it fails for one of
these two reasons, and a compilation that comes to it is rejected for the same. -/
theorem shuffle_moves_words (pc : Nat) (op : StackOp) (s : SymStack) :
    ((∃ s', s.shuffle pc op = .ok s') ↔
      (op.onWords s.words).isSome ∧ ∀ n ∈ op.cuts, ¬ s.Splits n) ∧
    (∀ s', s.shuffle pc op = .ok s' → op.onWords s.words = some s'.words) ∧
    ∀ e, s.shuffle pc op = .error e → (e = .stackUnderflow pc ∨ e = .splitsWideValue pc) ∧
      ∀ config registry m code len, m.code = some code → ∀ expand body,
        (Emit.instruction expand body ⟨pc, .stack op, len⟩ s).Reaches (Emit.method m code)
          (.ofMethod config registry m code) →
        (compile config registry m).1 = .error e := by
  obtain ⟨s', hok, hwords, hwhole⟩ | ⟨e, herr, hfault, n, hn, hwhole⟩ :=
    SymStack.agrees_shuffle op pc s
  · refine ⟨⟨fun _ => ⟨by rw [hwords]; rfl, fun n hn => (hwhole n hn).2⟩, fun _ => ⟨s', hok⟩⟩, ?_, ?_⟩
    · intro s'' h
      cases hok.symm.trans h
      exact hwords
    · intro e h
      cases hok.symm.trans h
  · refine ⟨⟨?_, ?_⟩, ?_, ?_⟩
    · rintro ⟨s', h⟩
      cases herr.symm.trans h
    · rintro ⟨hsome, hsplits⟩
      exact absurd ⟨(op.isSome_onWords _).mp hsome n hn, hsplits n hn⟩ hwhole
    · intro s' h
      cases herr.symm.trans h
    · intro e' h
      cases herr.symm.trans h
      refine ⟨hfault, fun config registry m code len hcode expand body hreach => ?_⟩
      have hshuffle : ∀ st, Emit.instruction expand body ⟨pc, .stack op, len⟩ s st = .error e st := by
        intro st
        simp only [Emit.instruction, herr]
        rfl
      obtain ⟨last, hlast⟩ := hreach.error hshuffle
      exact compile_error hcode hlast

def splitCode : Code := { bytes := [0x09, 0x57, 0xb1], maxLocals := 0, maxStack := 2 }

/-- Pushes a long and pops half of it. -/
def splitMethod : Method :=
  { id := 0, owner := 1, ownerName := "Numbers", name := "half", descriptor := "()V"
    signature := ⟨[], none⟩, flags := Flag.isPublic ||| Flag.isStatic, code := some splitCode
    native := none, loader := 0, offset := none, entry := { current := .stub } }

/-- Its instructions, all in one block. -/
def splitGraph : FlowGraph :=
  { nodes :=
      [⟨⟨0, .constLong false, 1⟩, some 2, none, false⟩, ⟨⟨1, .stack .pop, 1⟩, none, none, false⟩,
        ⟨⟨2, .result none, 1⟩, none, none, false⟩]
    regions := [], returnSites := [] }

open Emit in
theorem shuffle_moves_words_half :
    SymStack.shuffle 1 .pop [(1, .i64)] = .error (.splitsWideValue 1) ∧
      (compile {} Registry.core splitMethod).1 = .error (.splitsWideValue 1) := by
  have hfails : SymStack.shuffle 1 .pop [(1, .i64)] = .error (.splitsWideValue 1) := by
    decide +kernel
  refine ⟨hfails, ?_⟩
  apply ((shuffle_moves_words 1 .pop _).2.2 _ hfails).2 {} Registry.core splitMethod splitCode 1
    rfl
  -- The way there: the frame of the method, its first block, and the instruction before.
  unfold Emit.method
  apply Reaches.onward 0 (by decide +kernel)
  iterate 2 apply Reaches.onward () (by decide +kernel)
  apply Reaches.onward [] (by decide +kernel)
  apply Reaches.onward none (by decide +kernel)
  apply Reaches.onward 1 (by decide +kernel)
  iterate 3 apply Reaches.onward () (by decide +kernel)
  apply Reaches.onward splitGraph (by decide +kernel)
  apply Reaches.onward 0 (by decide +kernel)
  iterate 3 apply Reaches.onward () (by decide +kernel)
  apply Reaches.next (x := get) rfl
  apply Reaches.onward () (by decide +kernel)
  apply Reaches.first
  apply Reaches.ready 2 [] rfl (by decide +kernel) (by decide +kernel)
  iterate 4 apply Reaches.onward () (by decide +kernel)
  apply Reaches.onward (some [(1, .i64)]) (by decide +kernel)
  apply Reaches.onward () (by decide +kernel)
  exact .first .here

end ManagedCore
