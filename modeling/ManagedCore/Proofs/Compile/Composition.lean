import ManagedCore.Proofs.Compile.Forms
import ManagedCore.Proofs.Compile.Regions

/-!
# How emission is composed

All code of a method is put together from a few primitive steps. What holds of the steps and is
kept by sequencing holds of whole methods: what they do to the registry, and that code assigns only
registers that were made for it.
-/

namespace ManagedCore

namespace Emit

variable {α β : Type} {lv n : Nat} {x : Emit α} {body : Body}
  {expand : Option Expander}

/-- Emission put together from primitive steps, which assigns no register below `n`. Below level 2
it adds no local slots. -/
inductive Composed (lv n : Nat) : {α : Type} → Emit α → Prop where
  | aside {α : Type} {x : Emit α} : Learns x →
      (∀ st a st', x st = .ok a st' → st'.function = st.function ∧ st.emitted ⊆ st'.emitted) →
      Composed lv n x
  | newReg {α : Type} {f : Reg → Emit α} (t : ValueType) : (∀ r, n ≤ r → Composed lv n (f r)) →
      Composed lv n (newReg t >>= f)
  | instr (i : Instr) : (∀ r, i.dest? = some r → n ≤ r) → (lv = 0 → i.isFree = true) →
      Composed lv n (instr i)
  | newBlock (handler : Option BlockId) : Composed lv n (newBlock handler)
  | newParam (b : BlockId) (t : ValueType) : Composed lv n (newParam b t)
  | terminate (t : Terminator) : Composed lv n (terminate t)
  | setHandler (b : BlockId) (handler : Option BlockId) : Composed lv n (setHandler b handler)
  | reframe {g : Function → Function} :
      (∀ f, (g f).blocks = f.blocks ∧ (g f).regTypes = f.regTypes ∧
        (lv < 2 → (g f).maxLocals = f.maxLocals)) → Composed lv n (modifyFunction g)
  | flowGraph (code : Code) : Composed lv n (flowGraph code)
  | bind {α β : Type} {x : Emit α} {f : α → Emit β} : Composed lv n x → (∀ a, Composed lv n (f a)) →
      Composed lv n (x >>= f)

theorem Silent.composed (h : Silent x) : Composed lv n x :=
  .aside h.learns fun st a st' hx => by
    obtain ⟨hfun, -, -, -, hemitted, -⟩ := h.kept st a st' hx
    exact ⟨hfun, hemitted ▸ List.Subset.refl _⟩

namespace Composed

theorem pure {a : α} : Composed lv n (pure a : Emit α) := Silent.pure.composed

theorem throw {e : CompileError} : Composed lv n (throw e : Emit α) := Silent.throw.composed

theorem get : Composed lv n (MonadState.get : Emit EmitState) := Silent.get.composed

theorem modify {f : EmitState → EmitState}
    (hf : ∀ st, (f st).registry = st.registry ∧ (f st).function = st.function ∧
      st.emitted ⊆ (f st).emitted) :
    Composed lv n (MonadState.modifyGet fun st => (PUnit.unit, f st) : Emit PUnit) := by
  refine .aside (.of_ok (fun _ => rfl) fun st => ?_) fun st a st' h => ?_
  · rw [(hf st).1]
    exact .same
  · cases h
    exact (hf st).2

theorem switchTo (b : BlockId) : Composed lv n (switchTo b) :=
  .modify fun _ => ⟨rfl, rfl, fun _ => id⟩

theorem mapM {f : α → Emit β} (h : ∀ a, Composed lv n (f a)) (xs : List α) :
    Composed lv n (xs.mapM f) := by
  induction xs with
  | nil => exact pure
  | cons a xs ih =>
    rw [List.mapM_cons]
    exact .bind (h a) fun _ => .bind ih fun _ => pure

end Composed

theorem composed_setPc (body : Body) (pc : Nat) : Composed lv n (setPc body pc) :=
  .modify fun _ => ⟨rfl, rfl, fun _ => id⟩

theorem composed_currentHandler : Composed lv n currentHandler := .bind .get fun _ => .pure

theorem Straight.composed (h : Straight lv n x) : Composed lv n x := by
  induction h with
  | aside hlearns hsame =>
    refine .aside hlearns fun st a st' hx => ?_
    obtain ⟨hfun, -, hemitted⟩ := hsame st a st' hx
    exact ⟨hfun, hemitted ▸ List.Subset.refl _⟩
  | newReg t _ ih => exact .newReg t ih
  | instr i hdest hfree => exact .instr i hdest hfree
  | guard cond raiseWhen fault args detail =>
    refine .bind composed_currentHandler fun handler => .bind (.newBlock _) fun fail =>
      .bind (.newBlock _) fun ok => ?_
    have hrest : Composed lv n (do
        switchTo fail
        terminate (.raise fault args detail)
        switchTo ok) :=
      .bind (.switchTo _) fun _ => .bind (.terminate _) fun _ => .switchTo _
    split <;> exact .bind (.terminate _) fun _ => hrest
  | bind _ _ ihx ihf => exact .bind ihx ihf

theorem composed_instr {i : Instr} (h : i.assigns? lv = some none) : Composed lv n (instr i) :=
  (straight_instr h).composed

/-! ## Ends of blocks -/

theorem composed_edge (body : Body) (target : Nat) (s : SymStack) :
    Composed lv n (edge body target s) := by
  unfold edge
  split
  · exact .throw
  · refine .bind .get fun st => ?_
    split
    · dsimp only
      split
      · exact .throw
      · exact .pure
    · refine .bind (.mapM (fun t => .bind (.newParam _ t) fun _ => .pure) _) fun ps => ?_
      exact .bind (.modify fun _ => ⟨rfl, rfl, fun _ => id⟩) fun _ => .pure

theorem composed_jumpTo (body : Body) (target : Nat) (s : SymStack) :
    Composed lv n (do terminate (.jump (← edge body target s))) :=
  .bind (composed_edge ..) fun _ => .terminate _

theorem composed_backEdgePoll (i : Instruction) : Composed lv n (backEdgePoll i) := by
  unfold backEdgePoll
  split
  · exact composed_instr rfl
  · exact .pure

theorem composed_branch (i : Instruction) (cond : Reg) (inverted : Bool) (target : Nat)
    (s : SymStack) : Composed lv n (branch body i cond inverted target s) := by
  refine .bind (composed_backEdgePoll i) fun _ => .bind (composed_edge ..) fun taken =>
    .bind (composed_edge ..) fun next => ?_
  split <;> exact .terminate _

theorem composed_jump (i : Instruction) (target : Nat) (s : SymStack) :
    Composed lv n (jump body i target s) :=
  .bind (composed_backEdgePoll i) fun _ => composed_jumpTo ..

theorem composed_returnTable (tag : Reg) (s : SymStack) :
    Composed lv n (returnTable body tag s) :=
  .bind (.mapM (fun _ => .bind (composed_edge ..) fun _ => .pure) _) fun _ =>
    .bind composed_currentHandler fun _ => .bind (.newBlock _) fun _ => .terminate _

theorem composed_leave (v : Option Reg) : Composed lv n (leave body v) := by
  unfold leave
  split
  · rename_i lock _
    cases lock with
    | none => exact .terminate _
    | some object => exact .bind (composed_instr rfl) fun _ => .terminate _
  · exact .terminate _

theorem Ending.composed {i : Instruction} {s : SymStack} {x : Emit Unit} (h : Ending body i s x) :
    Composed 0 n x := by
  induction h with
  | throw e => exact .throw
  | wired hx _ ih => exact .bind hx.straight.composed ih
  | branch _ _ _ => exact composed_branch ..
  | jump _ _ => exact composed_jump ..
  | switch _ _ _ _ =>
    exact .bind (composed_backEdgePoll i) fun _ =>
      .bind (.mapM (fun _ => .bind (composed_edge ..) fun _ => .pure) _) fun _ =>
        .bind (composed_edge ..) fun _ => .terminate _
  | polledTable _ _ => exact .bind (composed_instr rfl) fun _ => composed_returnTable ..
  | table _ _ _ => exact composed_returnTable ..
  | leave _ _ => exact composed_leave _
  | terminate _ _ _ => exact .terminate _

/-! ## Instructions and blocks -/

theorem Composed.weaken {lv' : Nat} (h : Composed lv n x) (hle : lv ≤ lv') : Composed lv' n x := by
  induction h with
  | aside hlearns hsame => exact .aside hlearns hsame
  | newReg t _ ih => exact .newReg t ih
  | instr i hdest hfree => exact .instr i hdest fun h => hfree (by omega)
  | newBlock handler => exact .newBlock handler
  | newParam b t => exact .newParam b t
  | terminate t => exact .terminate t
  | setHandler b handler => exact .setHandler b handler
  | reframe hg => exact .reframe fun f => ⟨(hg f).1, (hg f).2.1, fun h => (hg f).2.2 (by omega)⟩
  | flowGraph code => exact .flowGraph code
  | bind _ _ ihx ihf => exact .bind ihx ihf

/-- A relation that free code and uses of static fields have to themselves, that calls have if what
they are expanded by is related, and that sequencing keeps. -/
structure Pervades (E : Body → Option Expander → Option Expander → Prop)
    (P : {α : Type} → Emit α → Emit α → Prop) : Prop where
  composed {α : Type} {x : Emit α} : (∀ n, Composed 0 n x) → P x x
  bind {α β : Type} {x y : Emit α} {f g : α → Emit β} : P x y → (∀ a, P (f a) (g a)) →
    P (x >>= f) (y >>= g)
  access {body : Body} {pc : Nat} {s : SymStack} {x : Emit SymStack} : Access body pc s x → P x x
  invoke {body : Body} {expand expand' : Option Expander} (pc : Nat) (op : Operation) (index : Nat)
    (s : SymStack) : E body expand expand' →
    P (invoke expand body pc op index s) (invoke expand' body pc op index s)

namespace Pervades

variable {E : Body → Option Expander → Option Expander → Prop}
  {P : {α : Type} → Emit α → Emit α → Prop}

theorem map (h : Pervades E P) {f : α → β} {y : Emit α} (hx : P x y) : P (f <$> x) (f <$> y) := by
  rw [← bind_pure_comp, ← bind_pure_comp]
  exact h.bind hx fun _ => h.composed fun _ => .pure

theorem forM (h : Pervades E P) {f : α → Emit Unit} (hf : ∀ a, P (f a) (f a)) (xs : List α) :
    P (xs.forM f) (xs.forM f) := by
  induction xs with
  | nil => exact h.composed fun _ => .pure
  | cons a xs ih => exact h.bind (hf a) fun _ => ih

section

variable (h : Pervades E P) {expand' : Option Expander} (hexpand : E body expand expand')

include h hexpand

theorem instruction (i : Instruction) (s : SymStack) :
    P (instruction expand body i s) (instruction expand' body i s) := by
  have hform := instruction_form body i s
  change P ((fun e => Emit.instruction e body i s) expand) ((fun e => Emit.instruction e body i s) _)
  generalize (fun e => Emit.instruction e body i s) = x at hform ⊢
  cases hform with
  | straight hx => exact h.map (h.composed fun _ => hx.straight.composed)
  | access hx => exact h.map (h.access hx)
  | invoke op index => exact h.map (h.invoke i.pc op index s hexpand)
  | ending hx => exact h.map (h.composed fun _ => hx.composed)

theorem instructions (nodes : List Node) (s : SymStack) :
    P (instructions expand body nodes s) (instructions expand' body nodes s) := by
  induction nodes generalizing s with
  | nil => exact h.composed fun _ => .pure
  | cons node rest ih =>
    refine h.bind (h.composed fun _ => composed_setPc ..) fun _ =>
      h.bind (h.instruction hexpand ..) fun out => ?_
    cases out with
    | none => exact h.composed fun _ => .pure
    | some s' =>
      cases rest with
      | nil => exact h.composed fun _ => .throw
      | cons next rest =>
        dsimp only
        split
        · exact h.composed fun _ => composed_jumpTo ..
        · exact ih s'

theorem block (nodes : List Node) (start : Nat) (b : BlockId) (params : List (Reg × ValueType)) :
    P (block expand body nodes start b params) (block expand' body nodes start b params) := by
  refine h.bind (h.composed fun _ => .modify fun _ => ⟨rfl, rfl, List.subset_cons_self ..⟩) fun _ =>
    ?_
  refine h.bind (h.composed fun _ => .setHandler _ _) fun _ => ?_
  exact h.bind (h.composed fun _ => .switchTo b) fun _ => h.instructions hexpand ..

theorem round (nodes : List Node) : P (round expand body nodes) (round expand' body nodes) := by
  induction nodes with
  | nil => exact h.composed fun _ => .pure
  | cons node rest ih =>
    refine h.bind (h.composed fun _ => .get) fun st => ?_
    dsimp only
    split
    · exact h.bind (h.block hexpand ..) fun _ => h.bind (h.map ih) fun _ =>
        h.composed fun _ => .pure
    · exact ih

theorem rounds (fuel : Nat) : P (rounds expand body fuel) (rounds expand' body fuel) := by
  induction fuel with
  | zero => exact h.composed fun _ => .pure
  | succ fuel ih =>
    refine h.bind (h.round hexpand _) fun more => ?_
    split
    · exact ih
    · exact h.composed fun _ => .pure

end

end Pervades

/-! ## Bodies and methods -/

/-- Adds local slots. -/
def grow (k : Nat) : Emit Unit := modifyFunction fun f => { f with maxLocals := f.maxLocals + k }

theorem composed_dispatchRows (exception : Reg) (rows : List HandlerRow) :
    Composed lv n (dispatchRows body exception rows) := by
  induction rows with
  | nil => exact .terminate _
  | cons row rest ih =>
    refine .bind (composed_setPc ..) fun _ => .bind (composed_edge ..) fun target => ?_
    split
    · exact .terminate _
    · exact .bind (silent_classHandle ..).composed fun _ =>
        .bind (straight_value _ _ fun _ => rfl).composed fun _ => .bind (.newBlock _) fun _ =>
          .bind (.terminate _) fun _ => .bind (.switchTo _) fun _ => ih

theorem composed_dispatch (region : Region) : Composed lv n (dispatch body region) :=
  .bind (.switchTo _) fun _ => .bind (.setHandler _ _) fun _ => composed_dispatchRows ..

theorem composed_parameters (entry : BlockId) (slot : Nat) (types : List ValueType) :
    Composed lv n (method.parameters entry slot types) := by
  induction types generalizing slot with
  | nil => exact .pure
  | cons t ts ih =>
    exact .bind (.newParam _ _) fun _ => .bind (composed_instr rfl) fun _ =>
      .bind (ih _) fun _ => .pure

theorem composed_acquire (m : Method) (params : List Reg) : Composed lv n (acquire m params) := by
  have hrest : ∀ object : Reg, Composed lv n (do
      instr (.monitorEnter object)
      let unwind ← newBlock none
      let exception ← newParam unwind .ref
      switchTo unwind
      instr (.monitorExit object)
      terminate (.resume exception)
      return some (object, unwind)) := fun object =>
    .bind (composed_instr rfl) fun _ => .bind (.newBlock _) fun _ =>
      .bind (.newParam _ _) fun _ => .bind (.switchTo _) fun _ =>
        .bind (composed_instr rfl) fun _ => .bind (.terminate _) fun _ => .pure
  unfold acquire
  split
  · exact .pure
  · split
    · exact hrest _
    · exact .bind (straight_value _ _ fun _ => rfl).composed hrest

theorem composed_prologue (body : Body) : Composed lv n (prologue body) :=
  .bind (straight_value _ _ fun _ => rfl).composed fun _ =>
    .bind (Straight.guard _ _ _ _ _).composed fun _ =>
      .bind (composed_instr rfl) fun _ => composed_jumpTo ..

theorem composed_front (m : Method) (code : Code) : Composed lv n (front m code) :=
  .bind (.newBlock _) fun _ => .bind (.reframe fun _ => ⟨rfl, rfl, fun _ => rfl⟩) fun _ =>
  .bind (.switchTo _) fun _ => .bind (composed_parameters ..) fun params =>
  .bind (composed_acquire m params) fun _ => .bind (.newBlock _) fun _ =>
  .bind (.switchTo _) fun _ => .bind (.terminate _) fun _ => .bind (.switchTo _) fun _ =>
  .bind (.flowGraph code) fun _ => .bind (composed_prologue _) fun _ => .pure

namespace Pervades

variable {E : Body → Option Expander → Option Expander → Prop}
  {P : {α : Type} → Emit α → Emit α → Prop} {expand' : Option Expander}

theorem fillBody (h : Pervades E P) (hexpand : E body expand expand') :
    P (fillBody expand body) (fillBody expand' body) :=
  h.bind (h.forM (fun _ => h.composed fun _ => composed_dispatch _) _) fun _ =>
    h.rounds hexpand _

/-- All of an expansion behind its local slots. -/
theorem expandCall (h : Pervades E P) {Q : Emit (Option Reg) → Emit (Option Reg) → Prop} {m : Method}
    {code : Code} (hcode : m.code = some code)
    (hexpand : ∀ callee : Body, callee.chain = m.id :: body.chain → E callee expand expand')
    (hgrow : ∀ {f g : EmitState → Emit (Option Reg)}, (∀ st, P (f st) (g st)) →
      Q (do let st ← get; grow code.maxLocals; f st)
        (do let st ← get; grow code.maxLocals; g st))
    (pc : Nat) (args : List (Reg × ValueType)) :
    Q (expandCall expand body pc m args) (expandCall expand' body pc m args) := by
  unfold Emit.expandCall
  rw [hcode]
  refine hgrow fun st => h.bind (h.composed fun _ => composed_currentHandler) fun handler => ?_
  refine h.bind (h.composed fun _ => .newBlock _) fun continuation => ?_
  have hresult : ∀ n, Composed 0 n (m.signature.resultType.mapM (newParam continuation)) := by
    intro n
    cases m.signature.resultType with
    | none => exact .pure
    | some t => exact .bind (.newParam _ _) fun _ => .pure
  refine h.bind (h.composed hresult) fun _ => ?_
  refine h.bind (h.composed fun _ => (wired_storeArguments fun _ => id).straight.composed) fun _ =>
    ?_
  refine h.bind (h.composed fun _ => .flowGraph _) fun _ => ?_
  refine h.bind (h.composed fun _ => composed_jumpTo ..) fun _ => ?_
  refine h.bind (h.fillBody (hexpand _ rfl)) fun _ => ?_
  refine h.bind (h.composed fun _ => .modify fun _ => ⟨rfl, rfl, fun _ => id⟩) fun _ => ?_
  exact h.composed fun _ => .bind (.switchTo _) fun _ => .bind (composed_setPc ..) fun _ => .pure

end Pervades

/-- What an expander does is related to itself, whatever it expands. -/
def Each (P : {α : Type} → Emit α → Emit α → Prop) (_ : Body) (expand _ : Option Expander) : Prop :=
  ∀ e ∈ expand, ∀ body pc m args, P (e body pc m args) (e body pc m args)

section

variable {P : {α : Type} → Emit α → Emit α → Prop} (h : Pervades (Each P) P)
  (hgrow : ∀ k, P (grow k) (grow k))

include h hgrow

theorem each_expander (depth : Nat) : Each P body (expander depth) (expander depth) := by
  induction depth with
  | zero => nofun
  | succ depth ih =>
    rintro _ ⟨⟩ body pc m args
    cases hcode : m.code with
    | none =>
      unfold expandCall
      rw [hcode]
      exact h.composed fun _ => .throw
    | some code =>
      exact h.expandCall hcode (fun _ _ => ih) (fun hf =>
        h.bind (h.composed fun _ => .get) fun st => h.bind (hgrow _) fun _ => hf st) pc args

theorem Pervades.method (m : Method) (code : Code) : P (method m code) (method m code) := by
  rw [method_eq]
  exact h.bind (h.composed fun _ => composed_front m code) fun _ => h.bind (h.composed fun _ => .get)
    fun _ => h.fillBody (each_expander h hgrow _)

end

theorem composed_invoke (hexpand : Each (fun x _ => Composed 2 n x) body expand expand)
    (pc : Nat) (op : Operation) (index : Nat) (s : SymStack) :
    Composed 2 n (invoke expand body pc op index s) := by
  rw [invoke_eq]
  refine .bind (silent_poolEntry ..).composed fun member => .bind (silent_liftExcept _).composed
    fun signature => .bind (wired_popArguments ..).straight.composed fun ⟨args, s₁⟩ =>
    .bind (straight_selectTarget ..).composed fun ⟨single, target⟩ => .bind .get fun st => ?_
  split
  · exact (straight_call ..).composed
  · rename_i hexp
    rw [← bind_pure_comp]
    exact .bind (hexpand _ (expansion?_some hexp).2.1 ..) fun _ => .pure

theorem pervades_composed (n : Nat) :
    Pervades (Each fun x _ => Composed 2 n x) fun x _ => Composed 2 n x where
  composed h := (h n).weaken (Nat.zero_le 2)
  bind hx hf := .bind hx hf
  access h := h.wired.straight.composed.weaken (by decide)
  invoke _ _ _ _ hexpand := composed_invoke hexpand ..

theorem composed_grow (k : Nat) : Composed 2 n (grow k) := .reframe fun _ => ⟨rfl, rfl, by omega⟩

/-! ## Blocks -/

theorem Learns.grown_ok {st st' : EmitState} {a : α} (h : Learns x) (hx : x st = .ok a st') :
    st.registry.Grown st'.registry := by
  have hgrown := h.grown st
  rwa [last, hx] at hgrown

/-- A property of blocks, whatever their ends and handlers are, that code keeps if it assigns no
register below `n`. -/
structure Durable (lv n : Nat) (P : Registry → BlockId → Block → Prop) : Prop where
  grown {r r' : Registry} {b : BlockId} {blk : Block} : r.Grown r' → P r b blk → P r' b blk
  empty {r : Registry} {b : BlockId} {blk : Block} : blk.instrs = #[] → (∀ p ∈ blk.params, n ≤ p) →
    P r b blk
  close {r : Registry} {b : BlockId} {blk : Block} (handler : Option BlockId) (t : Terminator)
    (pc : Nat) : P r b blk → P r b { blk with handler, terminator := t, terminatorPc := pc }
  param {r : Registry} {b : BlockId} {blk : Block} {p : Reg} : n ≤ p → P r b blk →
    P r b { blk with params := blk.params ++ [p] }
  instr {r : Registry} {b : BlockId} {blk : Block} {p : PlacedInstr} :
    (∀ d, p.instr.dest? = some d → n ≤ d) → (lv = 0 → p.instr.isFree = true) → P r b blk →
    P r b { blk with instrs := blk.instrs.push p }

end Emit

/-- All blocks have a property, and registers below `n` are taken. -/
structure EmitState.All (n : Nat) (P : Registry → BlockId → Block → Prop) (st : EmitState) :
    Prop where
  regs : n ≤ st.nextReg
  blocks : ∀ b blk, st.function.block? b = some blk → P st.registry b blk

namespace EmitState.All

variable {n : Nat} {P : Registry → BlockId → Block → Prop} {st : EmitState}

theorem addReg (h : st.All n P) (t : ValueType) : (st.addReg t).All n P := by
  refine ⟨Nat.le_trans h.regs ?_, h.blocks⟩
  simp [nextReg, EmitState.addReg, Function.addReg]

theorem modify (h : st.All n P) (b : BlockId) {g : Block → Block}
    (hg : ∀ blk, P st.registry b blk → P st.registry b (g blk)) :
    All n P { st with function := st.function.modifyBlock b g } := by
  refine ⟨h.regs, fun c blk hc => ?_⟩
  change (st.function.blocks.modify b g)[c]? = some blk at hc
  rw [Array.getElem?_modify] at hc
  split at hc
  · rename_i heq
    subst heq
    obtain ⟨old, hold, rfl⟩ := Option.map_eq_some_iff.mp hc
    exact hg old (h.blocks b old hold)
  · exact h.blocks c blk hc

end EmitState.All

theorem Emit.Composed.keeps {α : Type} {lv n : Nat} {x : Emit α}
    {P : Registry → BlockId → Block → Prop} (hP : Durable lv n P) (h : Composed lv n x) :
    ∀ st a st', st.All n P → x st = .ok a st' → st'.All n P := by
  induction h with
  | aside hlearns hsame =>
    intro st a st' hst hx
    obtain ⟨hfun, -⟩ := hsame st a st' hx
    refine ⟨?_, fun b blk hb => hP.grown (hlearns.grown_ok hx) (hst.blocks b blk (hfun ▸ hb))⟩
    rw [EmitState.nextReg, hfun]
    exact hst.regs
  | newReg t _ ih =>
    intro st a st' hst hx
    obtain ⟨r, mid, hmid, hrest⟩ := bind_ok hx
    cases hmid
    exact ih _ hst.regs _ _ _ (hst.addReg t) hrest
  | instr i hdest hfree =>
    intro st a st' hst hx
    cases hx
    exact hst.modify st.block fun _ => hP.instr hdest hfree
  | newBlock handler =>
    intro st a st' hst hx
    rw [EmitState.newBlock_eq] at hx
    cases hx
    refine ⟨hst.regs, fun b blk hb => ?_⟩
    rw [EmitState.block_addHandled] at hb
    split at hb
    · cases hb
      exact hP.empty rfl (by simp)
    · exact hst.blocks b blk hb
  | newParam b t =>
    intro st a st' hst hx
    cases hx
    exact (hst.addReg t).modify b fun _ => hP.param hst.regs
  | terminate t =>
    intro st a st' hst hx
    cases hx
    exact hst.modify st.block fun _ => hP.close _ t st.pc
  | setHandler b handler =>
    intro st a st' hst hx
    cases hx
    exact hst.modify b fun _ => hP.close handler _ _
  | @reframe g hg =>
    intro st a st' hst hx
    cases hx
    obtain ⟨hblocks, hregs, -⟩ := hg st.function
    refine ⟨?_, fun b blk hb => hst.blocks b blk ?_⟩
    · change n ≤ (g st.function).regTypes.size
      rw [hregs]
      exact hst.regs
    · rwa [Function.block?, hblocks] at hb
  | flowGraph code =>
    intro st graph st' hst hx
    obtain ⟨f, hof, rfl⟩ := flowGraph_ok hx
    have hd := FlowGraph.drawn_ofCode hof
    obtain ⟨k, -, hdispatch⟩ := hd.blocks
    refine ⟨?_, fun b blk hb => ?_⟩
    · change n ≤ f.regTypes.size
      rw [hdispatch.function]
      simpa using Nat.le_trans hst.regs (Nat.le_add_right st.function.regTypes.size _)
    · by_cases hlt : b < st.function.blocks.size
      · rw [hd.block_lt hlt] at hb
        exact hst.blocks b blk hb
      · obtain ⟨hinstrs, -, -, hparams⟩ := hd.block_new (Nat.not_lt.mp hlt) hb
        exact hP.empty hinstrs fun p hp => Nat.le_trans hst.regs (hparams p hp)
  | bind _ _ ihx ihf =>
    intro st b st' hst hx
    obtain ⟨a, mid, hmid, hrest⟩ := bind_ok hx
    exact ihf a _ _ _ (ihx _ _ _ hst hmid) hrest

/-! ## Registers -/

def Block.Sets (blk : Block) (r : Reg) : Prop :=
  r ∈ blk.params ∨ ∃ p ∈ blk.instrs, p.instr.dest? = some r

/-- No block was made to set a register below `n`. -/
def EmitState.Spares (n : Nat) (st : EmitState) : EmitState → Prop :=
  All n fun _ b blk' => ∀ r, r < n → blk'.Sets r →
    ∃ blk, st.function.block? b = some blk ∧ blk.Sets r

theorem EmitState.Spares.refl {n : Nat} {st : EmitState} (h : n ≤ st.nextReg) : st.Spares n st :=
  ⟨h, fun _ blk hb _ _ hset => ⟨blk, hb, hset⟩⟩

theorem Emit.Composed.spares {α : Type} {lv n : Nat} {x : Emit α} {a : α}
    {st mid st' : EmitState} (h : Composed lv n x) (hmid : st.Spares n mid)
    (hx : x mid = .ok a st') : st.Spares n st' := by
  refine h.keeps ⟨fun _ h => h, fun hinstrs hparams r hr hset => ?_, fun _ _ _ h => h,
    fun hp h r hr hset => h r hr ?_, fun hi _ h r hr hset => h r hr ?_⟩ mid a st' hmid hx
  · rcases hset with hparam | ⟨p, hp, -⟩
    · exact absurd (hparams r hparam) (Nat.not_le.mpr hr)
    · rw [hinstrs] at hp
      exact absurd hp (Array.not_mem_empty p)
  · refine hset.imp_left fun hparam => ?_
    rcases List.mem_append.mp hparam with hold | hnew
    · exact hold
    · rw [List.mem_singleton.mp hnew] at hr
      exact absurd hp (Nat.not_le.mpr hr)
  · refine hset.imp_right fun ⟨p, hp, hdest⟩ => ?_
    rcases Array.mem_push.mp hp with hold | rfl
    · exact ⟨p, hold, hdest⟩
    · exact absurd (hi r hdest) (Nat.not_le.mpr hr)

end ManagedCore
