import ManagedCore.Proofs.Machine.Entered
import ManagedCore.Proofs.Machine.Requests

/-!
# Exceptions and the table of their handlers

An exception that an instruction of a body raises goes to the first row of the exception table that
covers the instruction and catches its class. The tests in between leave the local slots alone, and
the handler starts with the exception as its only operand. An exception that no row catches leaves
the activation. A synchronized method releases its monitor first, and a release that is refused
raises in place of the exception.
-/

namespace ManagedCore

open FieldType Option

/-! ## Turns with others in between -/

variable {name : String}

/-- The thread comes to a state of this kind, whatever happens to the world between its turns. -/
def Comes (t : ThreadId) (P : World → Control → Prop) (s : World × Control) : Prop :=
  ∀ others : Nat → World → World, (∀ k (w : World), w.Onward (others k w)) →
    ∃ n, P (turns t others s.1 s.2 n).1 (turns t others s.1 s.2 n).2

section Comes

variable {t : ThreadId} {P Q : World → Control → Prop} {w : World} {c : Control}

theorem turns_succ_left (others : Nat → World → World) (w : World) (c : Control) (n : Nat) :
    turns t others w c (n + 1) = turns t (fun k => others (k + 1)) (step t (others 0 w) c).1
      (step t (others 0 w) c).2 n := by
  induction n with
  | zero => rfl
  | succ n ih =>
    rw [turns, ih]
    rfl

theorem Comes.now (h : P w c) : Comes t P (w, c) := fun _ _ => ⟨0, h⟩

theorem Comes.turn (h : ∀ w', w.Onward w' → Comes t P (step t w' c)) : Comes t P (w, c) := by
  intro others hothers
  obtain ⟨n, hn⟩ := h (others 0 w) (hothers 0 w) (fun k => others (k + 1)) fun k => hothers (k + 1)
  refine ⟨n + 1, ?_⟩
  rw [turns_succ_left]
  exact hn

theorem Comes.mono {s : World × Control} (h : Comes t P s) (hpq : ∀ w c, P w c → Q w c) :
    Comes t Q s := by
  intro others hothers
  obtain ⟨n, hn⟩ := h others hothers
  exact ⟨n, hpq _ _ hn⟩

end Comes

/-! ## Worlds that go on -/

namespace World.Onward

variable {w w' w'' : World}

theorem trans (h : w.Onward w') (h' : w'.Onward w'') : w.Onward w'' :=
  ⟨h'.outOfMemory.trans h.outOfMemory, h.heap.trans h'.heap, h.registry.trans h'.registry⟩

theorem modifyThread (t : ThreadId) (f : Thread → Thread) : w.Onward (w.modifyThread t f) :=
  .of_calm (.modifyThread t f)

theorem classOf (h : w.Onward w') {e : ObjId} {c : Class} (hc : w.classOf? e = some c) :
    ∃ c', w'.classOf? e = some c' ∧ c.SameLink c' := by
  obtain ⟨obj, hobj, hc⟩ := bind_eq_some_iff.mp hc
  obtain ⟨obj', hobj', hcls⟩ := h.heap.objects e obj hobj
  obtain ⟨c', hc', hsame⟩ := h.registry.later.keeps.classes _ c hc
  refine ⟨c', ?_, hsame⟩
  rw [classOf?, show w'.object? e = some obj' from hobj', bind_some, hcls]
  exact hc'

end World.Onward

/-! ## Rows of the table -/

theorem Registry.Names.keep {r r' : Registry} {h : Handle ClassRef}
    (hn : r.Names h name) (hk : r.Keeps r') : r'.Names h name := by
  rcases hn with hlazy | ⟨c, rfl, hc⟩
  · exact .inl hlazy
  · obtain ⟨c', hc', hsame⟩ := hk.names name c hc
    refine .inr ⟨c', ?_, hc'⟩
    rw [hsame]
    rfl

theorem Registry.poolName_keep {r r' : Registry} {owner : ClassId} {index : Nat}
    (h : r.poolName? owner index = some name) (hk : r.Keeps r') :
    r'.poolName? owner index = some name := by
  obtain ⟨c, hc, hname⟩ := bind_eq_some_iff.mp h
  obtain ⟨c', hc', hsame⟩ := hk.classes _ c hc
  rw [poolName?, hc', ← hname, hsame]
  rfl

def HandlerRow.class? (row : HandlerRow) (r : Registry) (owner : ClassId) : Option Class :=
  row.catchType.bind fun index => (r.poolName? owner index).bind r.loaded?

/-- Whether a row catches exceptions of a class: it names no class, or one that they belong to. -/
def HandlerRow.catches (row : HandlerRow) (r : Registry) (owner : ClassId) (c : Class) : Bool :=
  row.catchType.isNone || (row.class? r owner).any (r.isAssignable c ·)

/-- The class that a row names is there, and one that is named like an array is an array class. -/
def HandlerRow.Loaded (row : HandlerRow) (r : Registry) (owner : ClassId) : Prop :=
  ∀ index, row.catchType = some index → ∃ name c, r.poolName? owner index = some name ∧
    r.loaded? name = some c ∧
    (name.startsWith "[" = true → ∃ component, parse name = .ok (.array component))

namespace Exec

variable {t : ThreadId} {w : World} {α β : Type} {f : α → Exec β} {x : Exec α} {w₁ : World}

theorem bind_runOn_error {trap : Trap}
    (h : x.runOn t w = .error trap w₁) : (x >>= f).runOn t w = .error trap w₁ := by
  change EStateM.bind (x t) (fun a => f a t) w = _
  unfold EStateM.bind
  rw [show x t w = .error trap w₁ from h]

theorem registered_runOn {id : ClassId} {c : Class} (hc : w.registry.class? id = some c) :
    (registered id).runOn t w = .ok c w := by
  rw [registered, get_runOn, hc]
  rfl

theorem arrayClass_loaded {component : FieldType} {c : Class}
    (h : w.registry.loaded? (array component).text = some c) :
    (arrayClass? component).runOn t w = .ok (some c) w := by
  have hclass : w.registry.arrayClass component = (.ok c, w.registry) := by
    have hlen : ∃ n, component.toChars.length = n + 1 := by cases component <;> exact ⟨_, rfl⟩
    obtain ⟨n, hn⟩ := hlen
    rw [Registry.arrayClass, hn, Registry.arrayClassFrom, h]
  change EStateM.Result.ok (w.registry.arrayClass component).1.toOption
    { w with registry := (w.registry.arrayClass component).2 } = _
  rw [hclass]
  rfl

theorem namedClass_loaded {c : Class} (h : w.registry.loaded? name = some c)
    (harray : name.startsWith "[" = true → ∃ component, parse name = .ok (.array component)) :
    (namedClass? name).runOn t w = .ok (some c) w := by
  unfold namedClass?
  by_cases hname : name.startsWith "[" = true
  · obtain ⟨component, hparse⟩ := harray hname
    rw [if_pos hname, hparse]
    refine arrayClass_loaded ?_
    rw [(parse_ok_iff.mp hparse).2]
    exact h
  · rw [if_neg hname]
    change EStateM.Result.ok (w.lookup name).1 (w.lookup name).2 = _
    have hlookup : w.registry.lookup name = (some c, w.registry) := by rw [Registry.lookup, h]
    rw [World.lookup, hlookup]

theorem classHandle_loaded {h : Handle ClassRef} {c : Class} (ho : w.registry.Orderly)
    (hnames : w.registry.Names h name) (hc : w.registry.loaded? name = some c)
    (harray : name.startsWith "[" = true → ∃ component, parse name = .ok (.array component)) :
    (classHandle h).runOn t w = .ok c w := by
  rcases hnames with ⟨index, rfl⟩ | ⟨c', rfl, hc'⟩
  · exact bind_runOn (namedClass_loaded hc harray)
  · cases hc.symm.trans hc'
    exact registered_runOn (ho.of_loaded hc).1

theorem classOf_runOn {e : ObjId} {c : Class} (h : w.classOf? e = some c) :
    (classOf e).runOn t w = .ok c w := by
  rw [classOf, get_runOn, h]
  rfl

theorem evaluate_instanceOf {a : Activation} {d x : Reg} {h : Handle ClassRef}
    {e : ObjId} {c cls : Class} (ho : w.registry.Orderly) (hnames : w.registry.Names h name)
    (hc : w.registry.loaded? name = some c)
    (harray : name.startsWith "[" = true → ∃ component, parse name = .ok (.array component))
    (hx : a.get x = .obj e) (hcls : w.classOf? e = some cls) :
    (evaluate a (.instanceOf d x h)).runOn t w =
      .ok (.assign d (ofBool (w.registry.isAssignable cls c))) w := by
  have hinstance : (isInstance a x h false).runOn t w =
      .ok (w.registry.isAssignable cls c) w := by
    have href : (reference a x).runOn t w = .ok (some e) w := by
      unfold reference
      rw [hx]
      rfl
    unfold isInstance
    rw [bind_runOn href]
    rw [bind_runOn (classHandle_loaded ho hnames hc harray), bind_runOn (classOf_runOn hcls)]
    rfl
  exact bind_runOn hinstance

end Exec

/-! ## Turns of activations -/

theorem PlacedInstr.onward_mark (p : PlacedInstr) (t : ThreadId) (w : World) :
    w.Onward (p.mark t w) := by
  unfold mark
  split
  · exact .of_calm .refl
  · exact .modifyThread t _

theorem step_activation (t : ThreadId) (w : World) (a : Activation) (rest : List Task) :
    step t w ⟨.activation a :: rest, none⟩ = ((a.act t w).1, (a.act t w).2.apply rest) := rfl

namespace Activation

variable {a b : Activation} {t : ThreadId} {w w' : World} {e : ObjId} {rest : List Task}
  {blk : Block} {answer : Option Outcome}

section

variable (hwait : a.wait = .nothing ∨ a.wait = .checked)

include hwait

theorem act_eq_execute : a.act t w = a.execute t w := by
  unfold act
  rcases hwait with hwait | hwait <;> rw [hwait]

theorem act_instr {p : PlacedInstr}
    (hblk : a.function.block? a.block = some blk) (hp : blk.instrs[a.index]? = some p) :
    a.act t w = a.settle t ((Exec.evaluate a p.instr).runOn t (p.mark t w)) := by
  rw [act_eq_execute hwait, execute, hblk]
  simp only [hp]
  rfl

theorem act_terminator
    (hblk : a.function.block? a.block = some blk) (hend : blk.instrs[a.index]? = none) :
    a.act t w = a.proceed t ((Exec.terminate a blk).runOn t w) := by
  rw [act_eq_execute hwait, execute, hblk]
  simp only [hend]
  rfl

end

theorem terminate_resume {x : Reg} (hend : blk.terminator = .resume x) (hx : a.get x = .obj e)
    (w : World) : (Exec.terminate a blk).runOn t w = .ok (.unwind e) w := by
  unfold Exec.terminate Exec.nonNull Exec.reference
  rw [hend]
  dsimp only
  rw [hx]
  rfl

def At (a : Activation) (b : BlockId) (vs : List Value) : Prop :=
  a.block = b ∧ a.index = 0 ∧ a.wait = .nothing ∧
    ∃ blk, a.function.block? b = some blk ∧ blk.params.map a.get = vs

theorem at_enter {y : Reg} {target : BlockId} {v : Value}
    (hblk : a.function.block? target = some blk) (hparams : blk.params = [y])
    (hy : y < a.regs.size) : (a.enter target [v]).At target [v] := by
  refine ⟨rfl, rfl, rfl, blk, ?_, ?_⟩
  · rw [function_enter]
    exact hblk
  · have hget : (a.enter target [v]).get y = v := by
      unfold enter
      simp only [hblk, map_some, hparams]
      exact get_set_self hy
    rw [hparams]
    exact congrArg (fun v => [v]) hget

/-- The activation raises an exception at an offset, either by itself or by receiving it from the
task above. -/
inductive Raises (t : ThreadId) (w : World) (a : Activation) :
    Option Outcome → Nat → ObjId → World → Prop where
  | instr {blk : Block} {p : PlacedInstr} {e : ObjId} {w' : World} :
      a.wait = .nothing ∨ a.wait = .checked → a.function.block? a.block = some blk →
      blk.instrs[a.index]? = some p →
      (Exec.evaluate a p.instr).runOn t (p.mark t w) = .error (.thrown e) w' →
      Raises t w a none p.pc e w'
  | terminator {blk : Block} {e : ObjId} {w' : World} :
      a.wait = .nothing ∨ a.wait = .checked → a.function.block? a.block = some blk →
      blk.instrs[a.index]? = none →
      (Exec.terminate a blk).runOn t w = .error (.thrown e) w' →
      Raises t w a none blk.terminatorPc e w'
  | answer {blk : Block} {p : PlacedInstr} {e : ObjId} : a.Awaits →
      a.function.block? a.block = some blk → blk.instrs[a.index]? = some p →
      Raises t w a (some (.thrown e)) p.pc e w

theorem Raises.step {pc : Nat} (h : a.Raises t w answer pc e w') :
    step t w ⟨.activation a :: rest, answer⟩ =
      ((a.receive t w' (.thrown e)).1, (a.receive t w' (.thrown e)).2.apply rest) := by
  cases h with
  | instr hwait hblk hp heval =>
    rw [step_activation, act_instr hwait hblk hp, heval]
    rfl
  | terminator hwait hblk hend heval =>
    rw [step_activation, act_terminator hwait hblk hend, heval]
    rfl
  | answer _ _ _ => rfl

theorem Raises.reaches {pc : Nat} {h : BlockId} (hraises : a.Raises t w answer pc e w')
    (hh : a.handler? = some h) : a.Reaches t (a.enter h [.obj e]) := by
  have hreceive : (a.receive t w' (.thrown e)).2.activation? = some (a.enter h [.obj e]) := by
    unfold receive
    simp only [hh]
    rfl
  cases hraises with
  | instr hwait hblk hp heval =>
    refine .act .here (w := w) ?_
    rw [act_instr hwait hblk hp, heval]
    exact hreceive
  | terminator hwait hblk hend heval =>
    refine .act .here (w := w) ?_
    rw [act_terminator hwait hblk hend, heval]
    exact hreceive
  | answer hawaits _ _ => exact .receive .here hawaits hreceive

theorem onward_unpin (a : Activation) (t : ThreadId) (w : World) : w.Onward (a.unpin t w) := by
  unfold unpin
  split
  · exact .modifyThread t _
  · exact .of_calm .refl

end Activation

/-! ## Searching the table -/

section Search

variable {t : ThreadId} {body : Body} {rest : List Task} {e : ObjId} {a b : Activation}
  {blk : Block} {b₀ : BlockId}

def Emerges (t : ThreadId) (body : Body) (rest : List Task) (e : ObjId) (a : Activation)
    (c : Control) : Prop :=
  match body.fallback with
  | some unwind => ∃ a', c = ⟨.activation a' :: rest, none⟩ ∧ a.Reaches t a' ∧
      a'.At unwind [.obj e]
  | none => c = ⟨rest, some (.thrown e)⟩

def Found (t : ThreadId) (body : Body) (rest : List Task) (e : ObjId) (a : Activation)
    (row : Option HandlerRow) (c : Control) : Prop :=
  match row with
  | some row => ∃ a' target, c = ⟨.activation a' :: rest, none⟩ ∧ a'.locals = a.locals ∧
      body.graph.blockAt? row.handler = some target ∧ a'.At target [.obj e]
  | none => Emerges t body rest e a c

theorem Found.back {row : Option HandlerRow} {c : Control} (h : Found t body rest e b row c)
    (hreach : a.Reaches t b) (hlocals : b.locals = a.locals) : Found t body rest e a row c := by
  cases row with
  | some row =>
    obtain ⟨a', target, hc, hsame, hat⟩ := h
    exact ⟨a', target, hc, hsame.trans hlocals, hat⟩
  | none =>
    change Emerges t body rest e b c at h
    change Emerges t body rest e a c
    unfold Emerges at h ⊢
    cases hfallback : body.fallback with
    | none =>
      simp only [hfallback] at h
      exact h
    | some unwind =>
      simp only [hfallback] at h
      obtain ⟨a', hc, hreach', hat⟩ := h
      exact ⟨a', hc, hreach.trans hreach', hat⟩

/-- The activation stands at the start of a block that tests an exception. -/
structure Activation.Tests (a : Activation) (f : Function) (x : Reg) (e : ObjId) (b : BlockId) :
    Prop where
  function : a.function = f
  block : a.block = b
  index : a.index = 0
  wait : a.wait = .nothing
  size : a.regs.size = f.regTypes.size
  exception : a.get x = .obj e

/-- Calls with the exception lead to blocks that take one operand. -/
def Function.TakesOne (f : Function) (x : Reg) : Prop :=
  ∀ b blk target, f.block? b = some blk → ⟨target, [x]⟩ ∈ blk.terminator.successors →
    ∃ blk' y, f.block? target = some blk' ∧ blk'.params = [y] ∧ y < f.regTypes.size

variable {f : Function} {x : Reg} {w w₁ : World} {cls : Class}

section

variable (h : a.Tests f x e b₀) (hblk : f.block? b₀ = some blk) (hinstrs : blk.instrs = #[])
include h hblk hinstrs

theorem Activation.Tests.atEnd : a.AtEnd blk :=
  ⟨h.wait, by rw [h.function, h.block]; exact hblk, by rw [hinstrs]; rfl⟩

theorem Activation.Tests.jump {target : BlockId} (htakes : f.TakesOne x)
    (hend : blk.terminator = .jump ⟨target, [x]⟩) (w : World) :
    ∃ b : Activation, b.locals = a.locals ∧ b.At target [.obj e] ∧ a.Reaches t b ∧
      step t w ⟨.activation a :: rest, none⟩ = (w, ⟨.activation b :: rest, none⟩) := by
  have hact : a.act t w = (w, .stay (.activation (a.goTo ⟨target, [x]⟩))) := by
    rw [act_atEnd (h.atEnd hblk hinstrs), terminate_jump hend]
    rfl
  obtain ⟨blk', y, hblk', hparams, hy⟩ := htakes b₀ blk target hblk (by
    rw [hend]
    exact List.mem_singleton_self _)
  refine ⟨a.goTo ⟨target, [x]⟩, locals_enter _ _, ?_, .act .here (w := w) ?_, ?_⟩
  · have henter : a.goTo ⟨target, [x]⟩ = a.enter target [.obj e] := by
      rw [← h.exception]
      rfl
    rw [henter]
    exact at_enter (h.function ▸ hblk') hparams (h.size ▸ hy)
  · rw [hact]
    rfl
  · rw [step_activation, hact]
    rfl

theorem Activation.Tests.step_resume (hend : blk.terminator = .resume x) (w : World) :
    step t w ⟨.activation a :: rest, none⟩ = (w.restore t a.scope, ⟨rest, some (.thrown e)⟩) := by
  rw [step_activation, act_atEnd (h.atEnd hblk hinstrs), terminate_resume hend h.exception]
  rfl

end

theorem Activation.Tests.branch {target next : BlockId} {caught : Reg} {h : Handle ClassRef}
    {pc : Nat} {v : Bool} {w' : World} (ha : a.Tests f x e b₀) (htakes : f.TakesOne x)
    (hblk : f.block? b₀ = some blk) (hinstrs : blk.instrs = #[⟨.instanceOf caught x h, pc⟩])
    (hne : caught ≠ x) (hcaught : caught < f.regTypes.size)
    (hend : blk.terminator = .branch caught ⟨target, [x]⟩ ⟨next, []⟩)
    (heval : (Exec.evaluate a (.instanceOf caught x h)).runOn t
      (PlacedInstr.mark ⟨.instanceOf caught x h, pc⟩ t w) = .ok (.assign caught (ofBool v)) w') :
    ∃ mid b : Activation, step t w ⟨.activation a :: rest, none⟩ =
        (w', ⟨.activation mid :: rest, none⟩) ∧
      (∀ w, step t w ⟨.activation mid :: rest, none⟩ = (w, ⟨.activation b :: rest, none⟩)) ∧
      a.Reaches t b ∧ b.locals = a.locals ∧
      if v then b.At target [.obj e] else b.Tests f x e next := by
  have hblk' : a.function.block? a.block = some blk := by rw [ha.function, ha.block]; exact hblk
  have hact : a.act t w = (w', .stay (.activation (a.set caught (ofBool v)).next)) := by
    rw [act_instr (.inl ha.wait) hblk' (p := ⟨.instanceOf caught x h, pc⟩)
      (by rw [hinstrs, ha.index]; rfl), heval]
    rfl
  let mid := (a.set caught (ofBool v)).next
  have hat : mid.AtEnd blk := by
    refine ⟨rfl, hblk', ?_⟩
    rw [hinstrs]
    rfl
  have hcond : mid.get caught = .int (if v then 1 else 0) := get_set_self (ha.size ▸ hcaught)
  have hx : mid.get x = .obj e := (get_set_ne hne.symm).trans ha.exception
  let call : BlockCall := if v then ⟨target, [x]⟩ else ⟨next, []⟩
  have hmid : ∀ w, mid.act t w = (w, .stay (.activation (mid.goTo call))) := by
    intro w
    rw [act_atEnd hat, terminate_branch hend hcond]
    cases v <;> rfl
  have hreach : a.Reaches t (mid.goTo call) := by
    refine .act (b := mid) (w := w) (.act .here (w := w) ?_) ?_
    · rw [hact]
      rfl
    · rw [hmid]
      rfl
  refine ⟨mid, mid.goTo call, ?_, fun w => ?_, hreach, locals_enter _ _, ?_⟩
  · rw [step_activation, hact]
    rfl
  · rw [step_activation, hmid]
    rfl
  · cases v with
    | true =>
      obtain ⟨blk', y, hblk'', hparams, hy⟩ := htakes b₀ blk target hblk (by
        rw [hend]
        exact List.mem_cons_self)
      have henter : mid.goTo call = mid.enter target [.obj e] := by
        rw [← hx]
        rfl
      rw [henter]
      refine at_enter ?_ hparams ?_
      · change a.function.block? target = _
        rw [ha.function]
        exact hblk''
      · change y < (a.regs.setIfInBounds _ _).size
        rw [Array.size_setIfInBounds, ha.size]
        exact hy
    | false =>
      have hcall : mid.goTo call = { mid with block := next, index := 0, wait := .nothing } :=
        goTo_nil next
      rw [hcall]
      refine ⟨ha.function, rfl, rfl, rfl, ?_, hx⟩
      change (a.regs.setIfInBounds _ _).size = _
      rw [Array.size_setIfInBounds, ha.size]

theorem Chain.comes {r : Registry} {own : BlockId → Prop} {rows : List HandlerRow}
    (h : Chain r body f x own b₀ rows) (htakes : f.TakesOne x) (hbuilt : r.Built)
    (hlater : r.Later w₁.registry) (hcls : w₁.classOf? e = some cls)
    (hloaded : ∀ row ∈ rows, row.Loaded w₁.registry body.method.owner) (hw : w₁.Onward w)
    (ha : a.Tests f x e b₀) : Comes t (fun _ c => Found t body rest e a
      (rows.find? (·.catches w₁.registry body.method.owner cls)) c)
      (w, ⟨.activation a :: rest, none⟩) := by
  have hbuilt₁ : w₁.registry.Built := Registry.Later.trans hbuilt hlater
  induction h generalizing a w with
  | @unmatched b blk _ hblk hinstrs hend =>
    refine .turn fun w' _ => ?_
    cases hfallback : body.fallback with
    | some outer =>
      have hjump : blk.terminator = .jump ⟨outer, [x]⟩ := by rw [hend, Emit.unmatched, hfallback]
      obtain ⟨a', -, hat, hreach, hstep⟩ := ha.jump hblk hinstrs htakes hjump w'
      rw [hstep]
      refine .now ?_
      change Emerges t body rest e a _
      unfold Emerges
      rw [hfallback]
      exact ⟨a', rfl, hreach, hat⟩
    | none =>
      have hresume : blk.terminator = .resume x := by rw [hend, Emit.unmatched, hfallback]
      rw [ha.step_resume hblk hinstrs hresume]
      refine .now ?_
      change Emerges t body rest e a _
      unfold Emerges
      rw [hfallback]
  | @all b target blk row rows _ hblk hinstrs hcatch hat hend =>
    refine .turn fun w' _ => ?_
    obtain ⟨a', hlocals, hstarts, -, hstep⟩ := ha.jump hblk hinstrs htakes hend w'
    have hrow : row.catches w₁.registry body.method.owner cls = true := by
      rw [HandlerRow.catches, hcatch]
      rfl
    rw [hstep, List.find?_cons, hrow]
    exact .now ⟨a', target, rfl, hlocals, hat, hstarts⟩
  | @test b target next blk row rows index pc name handle caught _ hblk hinstrs hne htype hcatch
      hname hnames hat hend _ ih =>
    obtain ⟨hrow, hrows⟩ := List.forall_mem_cons.mp hloaded
    obtain ⟨name', c, hname', hc, harray⟩ := hrow index hcatch
    have hsame : name' = name := by
      rw [Registry.poolName_keep hname hlater.keeps, some.injEq] at hname'
      exact hname'.symm
    subst hsame
    have hcaught : caught < f.regTypes.size := (Array.getElem?_eq_some_iff.mp htype).1
    refine .turn fun w' hw' => ?_
    -- The classes are the same ones in the world of this turn.
    let p : PlacedInstr := ⟨.instanceOf caught x handle, pc⟩
    have hon : w₁.Onward (p.mark t w') := (hw.trans hw').trans (p.onward_mark t w')
    have hkeeps := hon.registry.later.keeps
    obtain ⟨cls', hcls', hsame⟩ := hon.classOf hcls
    obtain ⟨c', hc', hsame'⟩ := hkeeps.names _ c hc
    have horderly : w₁.registry.Orderly := hbuilt₁.orderly
    have horderly' : (p.mark t w').registry.Orderly :=
      Registry.Built.orderly (Registry.Later.trans hbuilt₁ hon.registry.later)
    have hassign : (p.mark t w').registry.isAssignable cls' c' =
        w₁.registry.isAssignable cls c := by
      obtain ⟨obj, -, hclass⟩ := bind_eq_some_iff.mp hcls
      exact horderly.isAssignable_later hkeeps hclass (horderly.of_loaded hc).1 hsame hsame'
    have heval := Exec.evaluate_instanceOf (t := t) (d := caught) horderly'
      (hnames.keep (hlater.trans hon.registry.later).keeps) hc' harray ha.exception hcls'
    rw [hassign] at heval
    obtain ⟨mid, b, hstep, hmid, hreach, hlocals, hends⟩ :=
      ha.branch htakes hblk hinstrs hne hcaught hend heval
    have hcatches : row.catches w₁.registry body.method.owner cls =
        w₁.registry.isAssignable cls c := by
      rw [HandlerRow.catches, HandlerRow.class?, hcatch, bind_some,
        hname', bind_some, hc]
      rfl
    rw [hstep]
    refine .turn fun w'' hw'' => ?_
    rw [hmid, List.find?_cons, hcatches]
    cases hv : w₁.registry.isAssignable cls c with
    | true =>
      rw [hv] at hends
      exact .now ⟨b, target, rfl, hlocals, hat, hends⟩
    | false =>
      rw [hv] at hends
      exact (ih hrows (hon.trans hw'') hends).mono fun _ c hfound => hfound.back hreach hlocals

end Search

end ManagedCore
