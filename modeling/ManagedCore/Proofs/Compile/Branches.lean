import ManagedCore.Proofs.Compile.StraightLine

/-!
# Code that ends its block

A branch, a switch or a jump takes the activation to the block of the offset where the instruction
goes when it is run directly, with the rest of the stack in the parameters of that block.
-/

namespace ManagedCore

open EmitState Direct Emit

/-- Between two states of emission stands code that ends its block and does what a step does. -/
structure Branches (body : Body) (step : State → Step) (st st' : EmitState)
    (s : SymStack) : Prop extends Ends body.graph st st' where
  runs : ∀ ⦃fin tid d a⦄, Sound body.graph fin → Extends body.graph st' fin →
    Tracks body fin st s d a → Simulates tid 1 (AtBlock body fin) a (step d)

def Direct.State.onInt (d : State) (f : Int32 → List Value → Step) : Step :=
  match d.stack with
  | .int k :: vs => f k vs
  | _ => .malformed

/-- A step that goes to the offset if its two operands compare, and to the next instruction if
they do not. -/
def Compares (step : State → Step) (i : Instruction) (target : Nat) (t : ValueType)
    (op : CmpOp) : Prop :=
  ∀ u v : Value, u.type = t → v.type = t → ∃ yes, u.cmp? op v = some yes ∧ ∀ d vs,
    d.stack = v :: u :: vs → step d = d.goTo (if yes then target else i.next) vs

section

variable {body : Body} {instrs : List Instruction} {i : Instruction} {fin st mid st' : EmitState}
  {s s' : SymStack} {d : State} {a : Activation} {tid : ThreadId} {target : Nat}
  {step step' : State → Step} {t : ValueType}

theorem Branches.onInt {r : Reg} {f : State → Int32 → List Value → Step}
    (hends : Ends body.graph st st')
    (hruns : ∀ ⦃fin tid d a k vs⦄, Sound body.graph fin → Extends body.graph st' fin →
      a.get r = .int k → Tracks body fin st s { d with stack := vs } a →
      Simulates tid 1 (AtBlock body fin) a (f d k vs)) :
    Branches body (fun d => d.onInt (f d)) st st' ((r, .i32) :: s) := by
  refine ⟨hends, fun fin tid d a hfin he htr => ?_⟩
  obtain ⟨v, vs, hstack, hv, htype, htail⟩ := htr.exists_top
  cases v <;> cases htype
  simp only [State.onInt, hstack]
  exact hruns hfin he hv htail

theorem Branches.value {make : Reg → Instr} (hs : Sound body.graph st)
    (ho : st.Open) (h : Branches body step (st.addValue t make) st' ((st.nextReg, t) :: s'))
    (hrun : ∀ ⦃fin d a⦄, Tracks body fin st s d a → step' d = .mistyped ∨ ∃ v vs, v.type = t ∧
      step' d = step { d with stack := v :: vs } ∧ Carries st.nextReg a s' vs ∧ ∀ tid w,
      Serves tid w →
        (Exec.evaluate a (make st.nextReg)).runOn tid w = .ok (.assign st.nextReg v) w) :
    Branches body step' st st' s where
  toEnds := ((Continues.refl hs ho).addValue t make).ends h.toEnds
  runs fin tid d a hfin he htr := by
    rcases hrun htr with hmis | ⟨v, vs, hv, hstep, hcarries, heval⟩
    · rw [hmis]
      trivial
    · have htail : Tracks body fin st s' { d with stack := vs } a :=
        ⟨htr.stands, hcarries, htr.locals, htr.room⟩
      obtain ⟨b, hleads, -, htr'⟩ := htail.addValue tid hs (h.later.trans he) hv (heval tid)
      rw [hstep]
      exact ((h.runs hfin he htr').of_leads hleads).mono (Nat.le_add_left 1 1)

/-! ## Polls -/

structure AddsPoll (body : Body) (st st' : EmitState) : Prop extends Continues body.graph st st' where
  runs : ∀ ⦃fin s d a⦄ (tid : ThreadId), Extends body.graph st' fin → Tracks body fin st s d a →
    ∃ n b, Leads tid n a b ∧ Tracks body fin st' s d b

section

variable (hs : Sound body.graph st) (ho : st.Open)

include hs ho

theorem AddsPoll.nothing : AddsPoll body st st :=
  ⟨.refl hs ho, fun _ _ _ a _ _ h => ⟨0, a, .here a, h⟩⟩

theorem AddsPoll.safepoint : AddsPoll body st (st.addInstr .safepoint) := by
  refine ⟨(Continues.refl hs ho).addInstr _, fun fin s d a tid he h => ?_⟩
  obtain ⟨b, hleads, htracks⟩ := h.addPoll tid hs he
  exact ⟨1, b, hleads, htracks⟩

theorem backEdgePoll_ok (h : backEdgePoll i st = .ok () st') : AddsPoll body st st' := by
  unfold backEdgePoll at h
  split at h
  · cases h
    exact .safepoint hs ho
  · cases h
    exact .nothing hs ho

end

theorem AddsPoll.branches (hp : AddsPoll body st mid) (h : Branches body step mid st' s) :
    Branches body step st st' s where
  toEnds := hp.ends h.toEnds
  runs fin tid d a hfin he htr := by
    obtain ⟨n, b, hleads, htr'⟩ := hp.runs tid (h.later.trans he) htr
    exact ((h.runs hfin he htr').of_leads hleads).mono (Nat.le_add_left 1 n)

/-! ## Jumps -/

theorem Tracks.reach (tid : ThreadId) {st₁ st₂ : EmitState} {t : Terminator} {c : BlockCall}
    (h : Tracks body fin st₁ s d a) (hs : Sound body.graph st₂) (hspot : SameSpot st₁ st₂)
    (hend : Ends body.graph st₁ (st₂.close t)) (hfin : Sound body.graph fin)
    (he : Extends body.graph (st₂.close t) fin) (hreach : Reaches body.graph target s c fin)
    (hterm : ∀ blk : Block, blk.terminator = t → ∀ w,
      (Exec.terminate a blk).runOn tid w = .ok (.goTo c) w) :
    ∃ b, Leads tid 1 a b ∧ AtBlock body fin { d with pc := target } b := by
  obtain ⟨blk, hatEnd, hblk⟩ := (h.stands.sameSpot hspot).atEnd hs hend.closed he
  exact ⟨a.goTo c, .go (Activation.goes_goTo hatEnd (hterm blk hblk)) (.here _),
    hreach.atBlock hfin h⟩

theorem jumpTo_ok (hs : Sound body.graph st) (ho : st.Open)
    (h : (edge body target s >>= fun c => terminate (.jump c)) st = .ok () st') :
    Ends body.graph st st' ∧ ∀ ⦃fin⦄ ⦃d : State⦄ ⦃a⦄ (tid : ThreadId), Sound body.graph fin →
        Extends body.graph st' fin → Tracks body fin st s d a →
        ∃ b, Leads tid 1 a b ∧ AtBlock body fin { d with pc := target } b := by
  obtain ⟨c, mid, hedge, hend⟩ := bind_ok h
  obtain ⟨hreach, hs', he', hspot⟩ := edge_ok hs hedge
  obtain rfl : st' = mid.close (.jump c) := by
    cases hend
    rfl
  have hcont := Continues.of_sameSpot hspot ho hs' he'
  have hends := hcont.close (t := .jump c) nofun
  refine ⟨hends, fun fin d a tid hfin he htr => ?_⟩
  have hefin := (hcont.opened.extends_close (.jump c)).trans he
  exact htr.reach tid hs' hspot hends hfin he (hreach.extend hefin)
    fun blk hblk w => Activation.terminate_jump hblk w

section

variable (hs : Sound body.graph st) (ho : st.Open) {c : Condition} {op : CmpOp}

include hs ho

theorem branches_jump (h : jump body i target s st = .ok () st') :
    Branches body (fun d => d.goTo target d.stack) st st' s := by
  obtain ⟨_, mid, hpoll, hjump⟩ := bind_ok h
  have hp := backEdgePoll_ok hs ho hpoll
  obtain ⟨hends, hruns⟩ := jumpTo_ok hp.sound hp.opened hjump
  refine hp.branches ⟨hends, fun fin tid d a hfin he htr => ?_⟩
  obtain ⟨b, hleads, hblock⟩ := hruns tid hfin he htr
  exact ⟨1, b, Nat.le_refl 1, hleads, hblock⟩

theorem branches_jsr (hsites : body.graph.returnSites = returnSites instrs)
    (hop : i.op = .jsr target) (h : callSubroutine body i target s st = .ok () st') :
    Branches body (execute instrs i) st st' s := by
  unfold callSubroutine at h
  cases htag : body.graph.returnTag? i.next with
  | none =>
    simp only [htag] at h
    cases h
  | some tag =>
    simp only [htag] at h
    obtain ⟨s', mid, hpush, hjump⟩ := bind_ok h
    obtain ⟨rfl, rfl⟩ := push_ok hpush
    refine .value hs ho (branches_jump (hs.addValue _ _) (ho.addValue _ _) hjump)
      fun fin d a htr => .inr ⟨.int (Int32.ofNat tag), d.stack, rfl, ?_, htr.stack, fun _ _ _ => rfl⟩
    rw [FlowGraph.returnTag?, hsites] at htag
    simp only [execute, hop, htag]
    rfl

/-! ## Conditional branches -/

theorem branches_branch {cond : Reg} {inverted : Bool}
    (h : branch body i cond inverted target s st = .ok () st') :
    Branches body (fun d => d.onInt fun k vs =>
      d.goTo (if decide (k = 0) = inverted then target else i.next) vs) st st'
      ((cond, .i32) :: s) := by
  obtain ⟨_, st₁, hpoll, hedges⟩ := bind_ok h
  obtain ⟨taken, st₂, htaken, hedges'⟩ := bind_ok hedges
  obtain ⟨next, st₃, hnext, hend⟩ := bind_ok hedges'
  have hp := backEdgePoll_ok hs ho hpoll
  obtain ⟨hreach₂, hs₂, he₂, hspot₂⟩ := edge_ok hp.sound htaken
  obtain ⟨hreach₃, hs₃, he₃, hspot₃⟩ := edge_ok hs₂ hnext
  let t : Terminator := if inverted then .branch cond next taken else .branch cond taken next
  obtain rfl : st' = st₃.close t := by cases inverted <;> cases hend <;> rfl
  have hspot := hspot₂.trans hspot₃
  have hcont := Continues.of_sameSpot hspot hp.opened hs₃ (he₂.trans he₃)
  have hends := hcont.close (t := t) (by cases inverted <;> nofun)
  refine hp.branches (.onInt hends fun fin tid d a k vs hfin he hcond htail => ?_)
  have hefin := (hcont.opened.extends_close t).trans he
  have hreach : Reaches body.graph (if decide (k = 0) = inverted then target else i.next) s
      (if decide (k = 0) = inverted then taken else next) fin := by
    split
    · exact hreach₂.extend (he₃.trans hefin)
    · exact hreach₃.extend hefin
  obtain ⟨b, hleads, hblock⟩ := htail.reach tid hs₃ hspot hends hfin he hreach fun blk hblk w => by
    cases inverted <;> by_cases hk : k = 0 <;>
      simpa [hk] using Activation.terminate_branch hblk hcond w
  exact ⟨1, b, Nat.le_refl 1, hleads, hblock⟩

theorem branches_cmp {x y : Reg} (hrun : Compares step i target t op)
    (h : (cmp op x y >>= fun r => branch body i r false target s) st = .ok () st') :
    Branches body step st st' ((y, t) :: (x, t) :: s) := by
  obtain ⟨r, mid, hcmp, hbranch⟩ := bind_ok h
  obtain ⟨rfl, rfl⟩ := value_ok hcmp
  refine .value hs ho (branches_branch (hs.addValue _ _) (ho.addValue _ _) hbranch)
    fun fin d a htr => .inr ?_
  obtain ⟨vs, hstack, hv, hu, htail⟩ := htr.exists_two
  obtain ⟨yes, hcmp, hstep⟩ := hrun _ _ hu hv
  refine ⟨ofBool yes, vs, rfl, ?_, htail.stack, fun tid w _ => evaluate_cmp hcmp⟩
  rw [hstep d vs hstack]
  cases yes <;> rfl

theorem branches_ifCompare (hrun : Compares step i target t op)
    (h : ifCompare body i t op target s st = .ok () st') : Branches body step st st' s := by
  obtain ⟨⟨y, rest⟩, mid, hy, hcode⟩ := bind_ok h
  obtain ⟨rfl, rfl⟩ := popTyped_ok hy
  obtain ⟨⟨x, rest'⟩, mid', hx, htest⟩ := bind_ok hcode
  obtain ⟨rfl, rfl⟩ := popTyped_ok hx
  exact branches_cmp hs ho hrun htest

omit hs ho in
theorem execute_ifInt (hop : i.op = .ifInt c target) :
    Compares (execute instrs i) i target .i32 (ofCondition c) := by
  intro u v hu hv
  cases u <;> cases hu
  cases v <;> cases hv
  rename_i x y
  refine ⟨holds c x y, cmp_holds c x y, fun d vs hd => ?_⟩
  simp only [execute, hop, hd]

theorem branches_ifZero (hop : i.op = .ifZero c target)
    (h : ifZero body i c target s st = .ok () st') :
    Branches body (execute instrs i) st st' s := by
  obtain ⟨⟨v, rest⟩, mid, hpop, hcode⟩ := bind_ok h
  obtain ⟨rfl, rfl⟩ := popTyped_ok hpop
  obtain ⟨z, mid', hzero, htest⟩ := bind_ok hcode
  obtain ⟨rfl, rfl⟩ := value_ok hzero
  have hcmp : Branches body (execute instrs { i with op := .ifInt c target })
      (mid.addValue .i32 (.constInt · 0)) st' ((mid.nextReg, .i32) :: (v, .i32) :: rest) :=
    branches_cmp (i := i) (hs.addValue _ _) (ho.addValue _ _) (execute_ifInt rfl) htest
  refine .value hs ho hcmp fun fin d a htr => .inr ⟨.int 0, d.stack, rfl, ?_, htr.stack,
    fun _ _ _ => rfl⟩
  obtain ⟨x, vs, hstack, -, htype, -⟩ := htr.exists_top
  cases x <;> cases htype
  simp only [execute, hop, hstack]
  rfl

theorem branches_ifRef {equal : Bool} (hop : i.op = .ifRef equal target)
    (h : ifCompare body i .ref (if equal then .eq else .ne) target s st = .ok () st') :
    Branches body (execute instrs i) st st' s := by
  refine branches_ifCompare hs ho (fun u v hu hv => ?_) h
  cases u <;> cases hu
  cases v <;> cases hv
  rename_i x y
  refine ⟨decide ((x = y) = equal), ?_, fun d vs hd => ?_⟩
  · cases equal <;> by_cases hxy : x = y <;> simp [Value.cmp?, hxy]
  · simp only [execute, hop, hd, decide_eq_true_eq]

theorem branches_ifNull {null : Bool} (hop : i.op = .ifNull null target)
    (h : ifNull body i null target s st = .ok () st') :
    Branches body (execute instrs i) st st' s := by
  obtain ⟨⟨r, rest⟩, mid, hpop, htest⟩ := bind_ok h
  obtain ⟨rfl, rfl⟩ := popTyped_ok hpop
  obtain ⟨_, mid', hnull, hbranch⟩ := bind_ok htest
  obtain ⟨rfl, rfl⟩ := value_ok hnull
  refine .value hs ho (branches_branch (hs.addValue _ _) (ho.addValue _ _) hbranch)
    fun fin d a htr => .inr ?_
  obtain ⟨v, vs, hstack, hv, htype, hrest⟩ := htr.exists_top
  cases v <;> cases htype
  rename_i o
  refine ⟨ofBool o.isNone, vs, rfl, ?_, hrest.stack, fun tid w _ => ?_⟩
  · simp only [execute, hop, hstack]
    cases o.isNone <;> cases null <;> rfl
  · have href : Exec.reference a r = pure o := by rw [Exec.reference, hv]
    simp only [Exec.evaluate, href]
    rfl

/-! ## Switches -/

omit hs ho in
/-- Edges for the cases of a switch: a key selects the edge to where it selects the offset. -/
theorem edges_ok {α : Type} {key : α → Int32} {target : α → Nat} (l : List α)
    {cases : List (Int32 × BlockCall)} (hs : Sound body.graph st)
    (h : (l.mapM fun x => return (key x, ← edge body (target x) s)) st = .ok cases st') :
    Sound body.graph st' ∧ Extends body.graph st st' ∧ SameSpot st st' ∧
      ∀ k, (l.find? (key · == k) = none ∧ cases.find? (·.1 == k) = none) ∨
        ∃ x c, l.find? (key · == k) = some x ∧ cases.find? (·.1 == k) = some (key x, c) ∧
          Reaches body.graph (target x) s c st' := by
  induction l generalizing st cases with
  | nil =>
    rw [List.mapM_nil] at h
    cases h
    exact ⟨hs, .refl, .refl, fun k => .inl ⟨rfl, rfl⟩⟩
  | cons x l ih =>
    rw [List.mapM_cons] at h
    obtain ⟨_, mid, hfirst, hrest⟩ := bind_ok h
    obtain ⟨c, mid', hedge, hpair⟩ := bind_ok hfirst
    cases hpair
    obtain ⟨tail, mid'', htail, hcons⟩ := bind_ok hrest
    cases hcons
    obtain ⟨hreach, hs₁, he₁, hspot₁⟩ := edge_ok hs hedge
    obtain ⟨hs₂, he₂, hspot₂, hkeys⟩ := ih hs₁ htail
    refine ⟨hs₂, he₁.trans he₂, hspot₁.trans hspot₂, fun k => ?_⟩
    simp only [List.find?_cons]
    cases key x == k with
    | true => exact .inr ⟨x, c, rfl, rfl, hreach.extend he₂⟩
    | false => exact hkeys k

theorem branches_switch {default : Nat} {pairs : List (Int32 × Nat)}
    (hstep : ∀ d k vs, d.stack = .int k :: vs →
      step d = d.goTo (lookupTarget default pairs k) vs)
    (h : switch body i default pairs s st = .ok () st') : Branches body step st st' s := by
  obtain ⟨⟨r, rest⟩, mid, hpop, hcode⟩ := bind_ok h
  obtain ⟨rfl, rfl⟩ := popTyped_ok hpop
  obtain ⟨_, mid', hpoll, hswitch⟩ := bind_ok hcode
  have hp := backEdgePoll_ok hs ho hpoll
  obtain ⟨cases, st₁, hcases, hdefault⟩ := bind_ok hswitch
  obtain ⟨c, st₂, hdefault, hend⟩ := bind_ok hdefault
  obtain ⟨hs₁, he₁, hspot₁, hkeys⟩ := edges_ok pairs hp.sound hcases
  obtain ⟨hreach, hs₂, he₂, hspot₂⟩ := edge_ok hs₁ hdefault
  obtain rfl : st' = st₂.close (.switch r cases c) := by
    cases hend
    rfl
  have hspot := hspot₁.trans hspot₂
  have hcont := Continues.of_sameSpot hspot hp.opened hs₂ (he₁.trans he₂)
  have hends := hcont.close (t := .switch r cases c) nofun
  refine hp.branches ⟨hends, fun fin tid d a hfin he htr => ?_⟩
  obtain ⟨v, vs, hstack, hr, htype, hbelow⟩ := htr.exists_top
  cases v <;> cases htype
  rename_i k
  have hefin := (hcont.opened.extends_close (.switch r cases c)).trans he
  have hreach' : Reaches body.graph (lookupTarget default pairs k) rest
      (((cases.find? (·.1 == k)).map (·.2)).getD c) fin := by
    rw [lookupTarget]
    rcases hkeys k with ⟨hnone, hnone'⟩ | ⟨x, e, hsome, hsome', hreach'⟩
    · rw [hnone, hnone']
      exact hreach.extend hefin
    · rw [hsome, hsome']
      exact hreach'.extend (he₂.trans hefin)
  obtain ⟨b, hleads, hblock⟩ := hbelow.reach tid hs₂ hspot hends hfin he hreach'
    fun blk hblk w => Activation.terminate_switch hblk hr w
  rw [hstep d k vs hstack]
  exact ⟨1, b, Nat.le_refl 1, hleads, hblock⟩

/-! ## Returns -/

/-- A switch over the return sites; a value that is no tag of theirs goes nowhere. -/
theorem branches_sites {sites : List Nat} {r : Reg}
    (h : ((sites.zipIdx.mapM fun x => return (Int32.ofNat x.2, ← edge body x.1 s)) >>=
      fun cases => currentHandler >>= fun handler => newBlock handler >>= fun default =>
        terminate (.switch r cases ⟨default, []⟩)) st = .ok () st') :
    Branches body (fun d => d.onInt fun k vs => match sites[k.toUInt32.toNat]? with
      | some site => d.goTo site vs
      | none => .done .fatal) st st' ((r, .i32) :: s) := by
  obtain ⟨cases, st₁, hcases, hrest⟩ := bind_ok h
  obtain ⟨hs₁, he₁, hspot₁, hkeys⟩ := edges_ok sites.zipIdx hs hcases
  rw [bind_eq hs₁.currentHandler, bind_eq newBlock_none] at hrest
  let t : Terminator := .switch r cases ⟨st₁.nextBlock, []⟩
  obtain rfl : st' = st₁.addBlock.close t := by
    cases hrest
    rfl
  have hs₂ := hs₁.addBlock
  have hspot := hspot₁.trans hs₁.sameSpot_addBlock
  have hcont := Continues.of_sameSpot hspot ho hs₂ (he₁.trans extends_addBlock)
  have hends := hcont.close (t := t) nofun
  refine .onInt hends fun fin tid d a k vs hfin he hr hbelow => ?_
  rw [← find?_zipIdx_ofNat]
  rcases hkeys k with ⟨hnone, hnone'⟩ | ⟨⟨site, n⟩, c, hsome, hsome', hreach⟩
  · rw [hnone]
    obtain ⟨blk, hatEnd, hblk⟩ := (hbelow.stands.sameSpot hspot).atEnd hs₂ hends.closed he
    have hgo := Activation.goes_goTo (t := tid) hatEnd (Activation.terminate_switch hblk hr)
    rw [hnone'] at hgo
    refine ⟨1, _, .go hgo (.here _), Activation.finishes_unreachable (b := {}) ?_ rfl⟩
    -- The default of the switch is a new block, and nothing was added to it.
    have hcur : st₁.addBlock.block ≠ st₁.nextBlock := by
      obtain ⟨old, hold⟩ := hs₁.inRange
      exact Nat.ne_of_lt (lt_nextBlock hold)
    have hnew : (st₁.addBlock.close t).function.block? st₁.nextBlock = some {} := by
      rw [EmitState.close, block_onCurrent, if_neg hcur, block_addBlock, if_pos rfl]
    have hfixed : (st₁.addBlock.close t).Fixed body.graph st₁.nextBlock :=
      ⟨_, hnew, fun hp => hs₁.nextBlock_not_mem (n := 0) hp.1, fun heq => absurd heq.symm hcur⟩
    change (a.goTo ⟨st₁.nextBlock, []⟩).AtEnd {}
    rw [Activation.goTo_nil]
    refine ⟨rfl, ?_, rfl⟩
    rw [hbelow.stands.function]
    exact (he.fixed _ hfixed).2.trans hnew
  · rw [hsome]
    have hefin := (hcont.opened.extends_close t).trans he
    have hreach' := hreach.extend (extends_addBlock.trans hefin)
    obtain ⟨b, hleads, hblock⟩ := hbelow.reach tid hs₂ hspot hends hfin he hreach'
      fun blk hblk w => by
        rw [Activation.terminate_switch hblk hr, hsome']
        rfl
    exact ⟨1, b, Nat.le_refl 1, hleads, hblock⟩

theorem branches_ret {slot : Nat} (hbase : body.localBase = 0)
    (hsites : body.graph.returnSites = returnSites instrs) (hop : i.op = .ret slot)
    (h : returnFromSubroutine body i.pc slot s st = .ok () st') :
    Branches body (execute instrs i) st st' s := by
  unfold returnFromSubroutine at h
  split at h
  · cases h
  · obtain ⟨n, mid, hslot, hcode⟩ := bind_ok h
    obtain ⟨rfl, rfl, hlt⟩ := localSlot_ok hbase hslot
    obtain ⟨r, mid', hload, hcode'⟩ := bind_ok hcode
    obtain ⟨rfl, rfl⟩ := value_ok hload
    have hs₁ := hs.addValue .i32 (.loadLocal · n)
    have ho₁ := ho.addValue .i32 (.loadLocal · n)
    have hswitch : Branches body (fun d => d.onInt fun k vs =>
        match body.graph.returnSites[k.toUInt32.toNat]? with
        | some site => d.goTo site vs
        | none => .done .fatal) (mid.addValue .i32 (.loadLocal · n)) st'
          ((mid.nextReg, .i32) :: s) := by
      split at hcode'
      · obtain ⟨_, st₁, hpoll, hswitch⟩ := bind_ok hcode'
        cases hpoll
        have hp := AddsPoll.safepoint hs₁ ho₁
        exact hp.branches (branches_sites hp.sound hp.opened hswitch)
      · exact branches_sites hs₁ ho₁ hcode'
    refine .value hs ho hswitch fun fin d a htr => ?_
    obtain ⟨v, hget, hload⟩ := htr.exists_local hlt
    simp only [execute, hop, hget, ← hsites]
    cases v with
    | int k => exact .inr ⟨.int k, d.stack, rfl, rfl, htr.stack, fun tid w _ => hload _ tid w⟩
    | _ => exact .inl rfl

theorem branches_result {t : Option ValueType} (hexit : body.exit = .result none)
    (hop : i.op = .result t) (h : result body i.pc i.op t s st = .ok () st') :
    Branches body (execute instrs i) st st' s := by
  unfold result at h
  split at h
  · cases h
  · simp only [hexit] at h
    obtain ⟨v, rfl, hvalue⟩ : ∃ v, st' = st.close (.result v) ∧ ∀ ⦃fin d a⦄,
        Tracks body fin st s d a → execute instrs i d = .done (.value (v.map a.get)) := by
      cases t with
      | none =>
        cases h
        refine ⟨none, rfl, fun fin d a _ => ?_⟩
        simp only [execute, hop]
        rfl
      | some t =>
        obtain ⟨⟨r, rest⟩, mid, hpop, hend⟩ := bind_ok h
        obtain ⟨rfl, rfl⟩ := popTyped_ok hpop
        cases hend
        refine ⟨some r, rfl, fun fin d a htr => ?_⟩
        obtain ⟨u, us, hstack, hu, -⟩ := htr.exists_top
        simp only [execute, hop, hstack]
        rw [Option.map_some, hu]
    have hends := (Continues.refl hs ho).close (t := .result v) (by simp)
    refine ⟨hends, fun fin tid d a hfin he htr => ?_⟩
    obtain ⟨blk, hatEnd, hblk⟩ := htr.stands.atEnd hs hends.closed he
    rw [hvalue htr]
    exact ⟨0, a, .here a, Activation.finishes_result hatEnd hblk⟩

/-! ## All of them -/

theorem instruction_none {expand : Option Expander} (hbase : body.localBase = 0)
    (hexit : body.exit = .result none) (hsites : body.graph.returnSites = returnSites instrs)
    (hc : covers i.op = true) (hfits : TableFits i.op)
    (h : instruction expand body i s st = .ok none st') :
    Branches body (execute instrs i) st st' s := by
  have hmap : ∀ {x : Emit Unit}, ((fun _ => (none : Option SymStack)) <$> x) st = .ok none st' →
      x st = .ok () st' := fun h => (map_ok h).choose_spec.1
  unfold instruction at h
  generalize hop : i.op = op at h hc hfits
  cases op with
  | ifZero c target => exact branches_ifZero hs ho hop (hmap h)
  | ifInt c target => exact branches_ifCompare hs ho (execute_ifInt hop) (hmap h)
  | ifRef equal target => exact branches_ifRef hs ho hop (hmap h)
  | ifNull null target => exact branches_ifNull hs ho hop (hmap h)
  | goto target =>
    have hjump := branches_jump hs ho (hmap h)
    refine ⟨hjump.toEnds, fun fin tid d a hfin he htr => ?_⟩
    simp only [execute, hop]
    exact hjump.runs hfin he htr
  | jsr target => exact branches_jsr hs ho hsites hop (hmap h)
  | ret slot => exact branches_ret hs ho hbase hsites hop (hmap h)
  | tableSwitch default low targets =>
    refine branches_switch hs ho (fun d k vs hd => ?_) (hmap h)
    simp only [execute, hop, hd, tableCases_target hfits]
  | lookupSwitch default pairs =>
    refine branches_switch hs ho (fun d k vs hd => ?_) (hmap h)
    simp only [execute, hop, hd]
  | result t => exact branches_result hs ho hexit hop (hop ▸ hmap h)
  | nop => cases h
  | increment =>
    obtain ⟨_, _, -, hsome⟩ := bind_ok h
    cases hsome
  | throw => cases hc
  | _ =>
    obtain ⟨_, _, hsome⟩ := map_ok h
    cases hsome

end

end

end ManagedCore
