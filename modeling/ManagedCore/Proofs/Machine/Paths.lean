import ManagedCore.Proofs.Compile.Tracking

/-!
# Ways of an activation

An activation goes on turn by turn, in worlds that others change in between, and receives what
becomes of the calls and requests that it makes. Whatever the worlds are, a turn either leaves the
activation at its instruction, takes it past the instruction, along an edge or to the handler of its
block, and only the register that the instruction names changes on the way.
-/

namespace ManagedCore

/-! ## Values of computations -/

namespace Exec

variable {α β : Type} {P : α → Prop} {Q : β → Prop} {f : β → Exec α} {x : Exec β}

theorem bind_runOn_ok {x : Exec α} {f : α → Exec β} {t : ThreadId} {w w' : World} {b : β}
    (h : (x >>= f).runOn t w = .ok b w') :
    ∃ a w₁, x.runOn t w = .ok a w₁ ∧ (f a).runOn t w₁ = .ok b w' := by
  change EStateM.bind (x t) (fun a => f a t) w = .ok b w' at h
  unfold EStateM.bind at h
  cases hx : x t w with
  | ok a w₁ =>
    rw [hx] at h
    exact ⟨a, w₁, hx, h⟩
  | error e w₁ =>
    rw [hx] at h
    cases h

def Gives (P : α → Prop) (x : Exec α) : Prop := ∀ t w a w', x.runOn t w = .ok a w' → P a

namespace Gives

theorem pure {a : α} (h : P a) : Gives P (Pure.pure a : Exec α) := by
  intro t w b w' hb
  cases hb
  exact h

theorem bind (hx : Gives Q x) (hf : ∀ b, Q b → Gives P (f b)) : Gives P (x >>= f) := by
  intro t w a w' ha
  obtain ⟨b, w₁, hb, ha⟩ := bind_runOn_ok ha
  exact hf b (hx t w b w₁ hb) t w₁ a w' ha

theorem after (hf : ∀ b, Gives P (f b)) : Gives P (x >>= f) := by
  intro t w a w' ha
  obtain ⟨b, w₁, -, ha⟩ := bind_runOn_ok ha
  exact hf b t w₁ a w' ha

theorem throw {e : Trap} : Gives P (MonadExcept.throw e : Exec α) := by
  intro t w a w' ha
  cases ha

theorem fail {e : EngineError} : Gives P (Exec.fail e : Exec α) := .throw

theorem raise {fault : Fault} {message : Option String} : Gives P (Exec.raise fault message) :=
  .after fun _ => .after fun _ => .after fun _ => .throw

end Gives

end Exec

/-! ## Effects -/

def Instr.isEntry : Instr → Bool
  | monitorEnter _ => true
  | _ => false

/-- Instructions that ask for a class, and whether they are evaluated again once it is there. -/
def Instr.requests : Instr → Option Bool
  | initCheck _ => some false
  | getStatic _ _ | putStatic _ _ => some true
  | _ => none

/-- Effects that an instruction can have. -/
def Effect.Of (a : Activation) (i : Instr) : Effect → Prop
  | .assign r _ => i.dest? = some r
  | .call _ _ dest => ∃ target args, i = .call dest target args
  | .acquire o => ∃ r, i = .monitorEnter r ∧ a.get r = .obj o
  | .prepare _ again => i.requests = some again
  | .poll => i = .safepoint
  | .nothing | .store _ _ => i.isEntry = false

theorem Exec.gives_nonNull (a : Activation) (r : Reg) :
    Gives (fun o => a.get r = .obj o) (nonNull a r) := by
  have href : Gives (fun o => a.get r = .ref o) (reference a r) := by
    unfold reference
    split
    · rename_i ho
      exact .pure ho
    · exact .after fun _ => .fail
  refine .bind href fun o ho => ?_
  cases o with
  | some o => exact .pure ho
  | none => exact .raise

theorem Exec.gives_static (a : Activation) {i : Instr} {h : Handle StaticSlot}
    {use : StaticSlot → Exec Effect} (hi : i.requests = some true)
    (huse : ∀ s, Gives (Effect.Of a i) (use s)) : Gives (Effect.Of a i) (static a h use) := by
  refine .after fun s => ?_
  split
  · exact huse s
  · exact .pure hi

theorem Exec.gives_evaluate (a : Activation) (i : Instr) :
    Gives (Effect.Of a i) (evaluate a i) := by
  cases i with
  | constInt | constLong | constFloat | constDouble | constNull | move | safepoint =>
    exact .pure rfl
  | constString | binary | neg | narrow | cmp | compare | isNull | initCheck | storeCheck
  | instanceOf | canCast | stackCheck => exact .after fun _ => .pure rfl
  | loadLocal | storeLocal =>
    unfold evaluate
    dsimp only
    split
    · exact .pure rfl
    · exact .fail
  | convert d s =>
    unfold evaluate
    dsimp only
    split
    · exact .fail
    · exact .after fun _ => .pure rfl
  | classMonitor | new | arrayLength => exact .after fun _ => .after fun _ => .pure rfl
  | newArray | newMultiArray | getField | putField =>
    exact .after fun _ => .after fun _ => .after fun _ => .pure rfl
  | arrayLoad | arrayStore =>
    exact .after fun _ => .after fun _ => .after fun _ => .after fun _ => .pure rfl
  | getStatic | putStatic => exact gives_static a rfl fun _ => .after fun _ => .pure rfl
  | monitorEnter r => exact .bind (gives_nonNull a r) fun o ho => .pure ⟨r, rfl, ho⟩
  | monitorExit r =>
    refine .after fun o => .after fun done => ?_
    split
    · exact .pure rfl
    · exact .raise
    · exact .fail
  | call d target args => exact .after fun _ => .pure ⟨target, args, rfl⟩

theorem Exec.gives_terminate (a : Activation) (b : Block) :
    Gives (fun flow => ∀ c, flow = .goTo c → c ∈ b.terminator.successors) (terminate a b) := by
  unfold terminate
  cases hb : b.terminator with
  | jump c =>
    refine .pure fun e he => ?_
    cases he
    exact List.mem_singleton_self _
  | branch r t e =>
    refine .after fun k => .pure fun c hc => ?_
    cases hc
    split <;> simp [Terminator.successors]
  | switch r cases d =>
    refine .after fun k => .pure fun c hc => ?_
    cases hc
    cases hfind : cases.find? fun c => c.1 == k with
    | none => exact List.mem_append_right _ (List.mem_singleton_self _)
    | some found =>
      exact List.mem_append_left _ (List.mem_map_of_mem (List.mem_of_find?_eq_some hfind))
  | result v => exact .pure nofun
  | throw r => exact .after fun _ => .after fun _ => .after fun _ => .after fun _ => .throw
  | raise fault args detail => exact .after fun _ => .after fun _ => .raise
  | resume r => exact .after fun _ => .pure nofun
  | unreachable => exact .fail

/-! ## Turns -/

namespace Activation

variable {a b c : Activation} {t : ThreadId} {w : World}

def instr? (a : Activation) : Option PlacedInstr :=
  (a.function.block? a.block).bind (·.instrs[a.index]?)

/-- What an activation waits for, and the instruction that made it wait. -/
def Sits (a : Activation) : Prop :=
  match a.wait with
  | .nothing => True
  | .call dest _ => ∃ p target args, a.instr? = some p ∧ p.instr = .call dest target args
  | .initialization again => ∃ p, a.instr? = some p ∧ p.instr.requests = some again
  | .checked => ∃ p, a.instr? = some p ∧ p.instr.requests = some true
  | .release => ∃ p, a.instr? = some p ∧ p.instr = .safepoint
  | .monitor o => ∃ p r, a.instr? = some p ∧ p.instr = .monitorEnter r ∧ a.get r = .obj o

/-- What a turn can make of an activation that goes on. -/
inductive Passes (a : Activation) : Activation → Prop where
  | rests {wait : Wait} : { a with wait }.Sits → Passes a { a with wait }
  | advances {p : PlacedInstr} {regs locals : Array Value} : a.instr? = some p →
      regs.size = a.regs.size →
      (∀ r, p.instr.dest? ≠ some r → regs.getD r default = a.get r) →
      (∀ r, p.instr = .monitorEnter r → ∃ o, a.get r = .obj o) →
      Passes a { a with regs, locals }.next
  | jumps {blk : Block} {e : BlockCall} : a.function.block? a.block = some blk →
      blk.instrs[a.index]? = none → e ∈ blk.terminator.successors → Passes a (a.goTo e)
  | faults {h : BlockId} {e : ObjId} : a.handler? = some h → Passes a (a.enter h [.obj e])

end Activation

/-- The activation that a move leaves, on top or below another task. -/
def Move.activation? : Move → Option Activation
  | .stay (.activation a) | .push _ (.activation a) => some a
  | _ => none

namespace Activation

variable {a b c : Activation} {t : ThreadId} {w : World} {p : PlacedInstr}

theorem foldl_set_spares (ps : List (Reg × Value)) : let b := ps.foldl (fun a p => a.set p.1 p.2) a
    b = { a with regs := b.regs } ∧ b.regs.size = a.regs.size ∧
      ∀ r, (∀ p ∈ ps, p.1 ≠ r) → b.get r = a.get r := by
  induction ps generalizing a with
  | nil => exact ⟨rfl, rfl, fun _ _ => rfl⟩
  | cons p ps ih =>
    obtain ⟨heq, hsize, hget⟩ := ih
    refine ⟨heq, hsize.trans size_regs_set, fun r hr => ?_⟩
    obtain ⟨hp, hps⟩ := List.forall_mem_cons.mp hr
    exact (hget r hps).trans (get_set_ne hp.symm)

theorem enter_eq (b : BlockId) (vs : List Value) : a.enter b vs =
    { a with regs := (a.enter b vs).regs, block := b, index := 0, wait := .nothing } :=
  congrArg (fun a : Activation => { a with block := b, index := 0, wait := .nothing })
    (foldl_set_spares _).1

theorem function_enter (b : BlockId) (vs : List Value) : (a.enter b vs).function = a.function := by
  rw [enter_eq]

theorem code_enter (b : BlockId) (vs : List Value) : (a.enter b vs).code = a.code := by
  rw [enter_eq]

theorem locals_enter (b : BlockId) (vs : List Value) : (a.enter b vs).locals = a.locals := by
  rw [enter_eq]

theorem size_regs_enter (b : BlockId) (vs : List Value) :
    (a.enter b vs).regs.size = a.regs.size := (foldl_set_spares _).2.1

theorem get_enter_of_not_mem {b : BlockId} {vs : List Value} {r : Reg}
    (h : ∀ blk, a.function.block? b = some blk → r ∉ blk.params) :
    (a.enter b vs).get r = a.get r := by
  refine (foldl_set_spares _).2.2 r fun p hp heq => ?_
  have hmem := (List.of_mem_zip hp).1
  cases hblk : a.function.block? b with
  | none =>
    rw [hblk] at hmem
    cases hmem
  | some blk =>
    rw [hblk] at hmem
    exact h blk hblk (heq ▸ hmem)

theorem passes_next (hp : a.instr? = some p)
    (henters : ∀ r, p.instr = .monitorEnter r → ∃ o, a.get r = .obj o) : a.Passes a.next :=
  .advances hp rfl (fun _ _ => rfl) henters

theorem passes_set {d : Reg} {v : Value} (hp : a.instr? = some p) (hdest : p.instr.dest? = some d) :
    a.Passes (a.set d v).next := by
  refine .advances hp size_regs_set (fun r hr => get_set_ne fun heq => ?_) fun r hr => ?_
  · exact hr (heq ▸ hdest)
  · rw [hr] at hdest
    cases hdest

theorem passes_setResult {dest : Option Reg} {target : CallTarget} {args : List Reg}
    (v : Option Value) (hp : a.instr? = some p) (hcall : p.instr = .call dest target args) :
    a.Passes (a.setResult dest v).next := by
  cases dest with
  | none => exact passes_next hp fun r hr => by rw [hcall] at hr; cases hr
  | some d => exact passes_set hp (hcall ▸ rfl)

/-- An exception goes to the handler of the block, and a failure goes nowhere. -/
theorem passes_trap {trap : Trap} (h : (a.receive t w trap.outcome).2.activation? = some b) :
    a.Passes b := by
  cases trap with
  | failed e => cases h
  | thrown e =>
    unfold receive at h
    simp only [Trap.outcome] at h
    split at h
    · rename_i hx
      cases h
      exact .faults hx
    · cases h

theorem passes_acquire {r : Reg} {o : ObjId} (hp : a.instr? = some p)
    (henter : p.instr = .monitorEnter r) (ho : a.get r = .obj o)
    (h : (a.acquire t w o).2.activation? = some b) : a.Passes b := by
  unfold acquire at h
  split at h
  · cases h
    refine passes_next hp fun r' hr' => ?_
    rw [henter] at hr'
    cases hr'
    exact ⟨o, ho⟩
  · cases h
    exact .rests ⟨p, r, hp, henter, ho⟩
  · exact passes_trap h

theorem passes_carryOut {effect : Effect} (hp : a.instr? = some p) (heffect : effect.Of a p.instr)
    (h : (a.carryOut t w effect).2.activation? = some b) : a.Passes b := by
  have hno : p.instr.isEntry = false → ∀ r, p.instr = .monitorEnter r → ∃ o, a.get r = .obj o := by
    intro hentry r hr
    rw [hr] at hentry
    cases hentry
  cases effect with
  | nothing =>
    cases h
    exact passes_next hp (hno heffect)
  | assign r v =>
    cases h
    exact passes_set hp heffect
  | store slot v =>
    cases h
    exact .advances hp rfl (fun _ _ => rfl) (hno heffect)
  | call m args dest =>
    cases h
    obtain ⟨target, args, hcall⟩ := heffect
    exact .rests ⟨p, target, args, hp, hcall⟩
  | prepare cls again =>
    cases h
    exact .rests ⟨p, hp, heffect⟩
  | poll =>
    rw [carryOut] at h
    split at h
    · cases h
      exact .rests ⟨p, hp, heffect⟩
    · cases h
      exact passes_next hp (hno (heffect ▸ rfl))
  | acquire o =>
    obtain ⟨r, henter, ho⟩ := heffect
    exact passes_acquire hp henter ho h

theorem passes_execute (h : (a.execute t w).2.activation? = some b) : a.Passes b := by
  unfold execute at h
  split at h
  · cases h
  · rename_i blk hblk
    split at h
    · rename_i p hp
      have hinstr : a.instr? = some p := by rw [instr?, hblk]; exact hp
      dsimp only at h
      split at h
      · rename_i heval
        exact passes_carryOut hinstr (Exec.gives_evaluate a p.instr _ _ _ _ heval) h
      · exact passes_trap h
    · rename_i hend
      split at h
      · rename_i flow w' hflow
        cases flow with
        | goTo e =>
          cases h
          exact .jumps hblk hend (Exec.gives_terminate a blk _ _ _ _ hflow e rfl)
        | result | unwind => cases h
      · exact passes_trap h

theorem passes_act (hsits : a.Sits) (h : (a.act t w).2.activation? = some b) : a.Passes b := by
  unfold act at h
  unfold Sits at hsits
  split at h
  · rename_i hwait
    cases h
    rw [hwait] at hsits
    obtain ⟨p, hp, hpoll⟩ := hsits
    refine passes_next hp fun r hr => ?_
    rw [hr] at hpoll
    cases hpoll
  · rename_i o hwait
    rw [hwait] at hsits
    obtain ⟨p, r, hp, henter, ho⟩ := hsits
    split at h
    · cases h
      refine passes_next hp fun r' hr' => ?_
      rw [henter] at hr'
      cases hr'
      exact ⟨o, ho⟩
    · cases h
      have hrests : a.Passes { a with wait := .monitor o } := .rests ⟨p, r, hp, henter, ho⟩
      rwa [← hwait] at hrests
    · exact passes_trap h
  · exact passes_execute h

def Awaits (a : Activation) : Prop :=
  (∃ dest mark, a.wait = .call dest mark) ∨ ∃ again, a.wait = .initialization again

theorem passes_receive {o : Outcome} (hsits : a.Sits) (hawaits : a.Awaits)
    (h : (a.receive t w o).2.activation? = some b) : a.Passes b := by
  cases o with
  | thrown e => exact @passes_trap a b t w (.thrown e) h
  | failed e => cases h
  | value v =>
    unfold Sits at hsits
    unfold receive at h
    rcases hawaits with ⟨dest, mark, hwait⟩ | ⟨again, hwait⟩
    · simp only [hwait] at h hsits
      cases h
      obtain ⟨p, target, args, hp, hcall⟩ := hsits
      exact passes_setResult v hp hcall
    · simp only [hwait] at h hsits
      obtain ⟨p, hp, hrequests⟩ := hsits
      cases again with
      | true =>
        cases h
        exact .rests ⟨p, hp, hrequests⟩
      | false =>
        cases h
        refine passes_next hp fun r hr => ?_
        rw [hr] at hrequests
        cases hrequests

theorem Passes.sits (h : a.Passes b) : b.Sits := by
  cases h with
  | rests hsits => exact hsits
  | advances | jumps | faults => trivial

/-! ## Ways -/

/-- The activation can become another one, turn by turn and in any worlds. -/
inductive Reaches (t : ThreadId) (a : Activation) : Activation → Prop where
  | here : Reaches t a a
  | act {b c : Activation} {w : World} : Reaches t a b →
      (b.act t w).2.activation? = some c → Reaches t a c
  | receive {b c : Activation} {w : World} {o : Outcome} : Reaches t a b → b.Awaits →
      (b.receive t w o).2.activation? = some c → Reaches t a c

theorem Reaches.trans (h : a.Reaches t b) (h' : b.Reaches t c) : a.Reaches t c := by
  induction h' with
  | here => exact h
  | act _ hact ih => exact .act ih hact
  | receive _ hawaits hreceive ih => exact .receive ih hawaits hreceive

theorem Reaches.induction {P : Activation → Prop} (h : a.Reaches t b) (hsits : a.Sits) (ha : P a)
    (hstep : ∀ b c, a.Reaches t b → P b → b.Passes c → b.Reaches t c → P c) : P b := by
  suffices b.Sits ∧ P b from this.2
  induction h with
  | here => exact ⟨hsits, ha⟩
  | act hb hact ih =>
    have hpass := passes_act ih.1 hact
    exact ⟨hpass.sits, hstep _ _ hb ih.2 hpass (.act .here hact)⟩
  | receive hb hawaits hreceive ih =>
    have hpass := passes_receive ih.1 hawaits hreceive
    exact ⟨hpass.sits, hstep _ _ hb ih.2 hpass (.receive .here hawaits hreceive)⟩

theorem Passes.keeps (h : a.Passes b) : b.function = a.function ∧ b.regs.size = a.regs.size := by
  cases h with
  | rests _ => exact ⟨rfl, rfl⟩
  | advances _ hsize _ _ => exact ⟨rfl, hsize⟩
  | jumps | faults => exact ⟨function_enter _ _, size_regs_enter _ _⟩

end Activation

end ManagedCore
