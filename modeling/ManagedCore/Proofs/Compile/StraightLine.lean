import ManagedCore.Proofs.Compile.Operands
import ManagedCore.Proofs.Compile.Tracking

/-!
# Code that goes on behind its instruction

The code of an instruction that does not end its block does to registers and local slots what the
instruction does to the operand stack and the locals when it is run directly.
-/

namespace ManagedCore

open EmitState Emit Direct Exec

/-- Between two states of emission stands the code of an instruction that goes on behind it. -/
structure Straight (body : Body) (instrs : List Instruction) (i : Instruction)
    (st st' : EmitState) (s s' : SymStack) : Prop extends Continues body.graph st st' where
  runs : ∀ ⦃fin tid d a⦄, Sound body.graph fin → Extends body.graph st' fin →
    Tracks body fin st s d a →
    Simulates tid 0 (fun d' b => d'.pc = i.next ∧ Tracks body fin st' s' d' b) a
      (Direct.execute instrs i d)

section

variable {body : Body} {instrs : List Instruction} {i : Instruction} {fin st st' : EmitState}
  {s s' : SymStack} {d : State} {a : Activation} {tid : ThreadId} {pc slot : Nat} {r y : Reg}
  {t : ValueType} {make : Reg → Instr} {op : BinaryOp} {x : Reg} {rest : SymStack} {v : Value}
  {w : World}

theorem pop_ok (h : pop pc s st = .ok (r, t, rest) st') : s = (r, t) :: rest ∧ st' = st := by
  cases s with
  | nil => cases h
  | cons e s =>
    cases h
    exact ⟨rfl, rfl⟩

theorem popTyped_ok (h : popTyped pc t s st = .ok (r, rest) st') :
    s = (r, t) :: rest ∧ st' = st := by
  obtain ⟨⟨r, u, rest⟩, mid, hpop, hcheck⟩ := bind_ok h
  obtain ⟨rfl, rfl⟩ := pop_ok hpop
  dsimp only at hcheck
  split at hcheck
  · rename_i htype
    cases hcheck
    exact ⟨by rw [← htype], rfl⟩
  · cases hcheck

theorem localSlot_ok {n : Nat} (hbase : body.localBase = 0)
    (h : localSlot body slot t pc st = .ok n st') :
    n = slot ∧ st' = st ∧ slot < body.code.maxLocals := by
  unfold localSlot at h
  split at h
  · cases h
  · cases h
    have hslots := t.slots_eq
    exact ⟨by omega, rfl, by omega⟩

theorem value_ok (h : value t make st = .ok r st') :
    r = st.nextReg ∧ st' = st.addValue t make := by
  cases h
  exact ⟨rfl, rfl⟩

theorem push_ok (h : push t make s st = .ok s' st') :
    s' = (st.nextReg, t) :: s ∧ st' = st.addValue t make := by
  cases h
  exact ⟨rfl, rfl⟩

theorem binary_ok (h : binary pc op t s st = .ok s' st') :
    ∃ x y rest, s = (y, if op.isShift then .i32 else t) :: (x, t) :: rest ∧
      (divisorCheck op t y >>= fun _ => push t (.binary op · x y) rest) st =
        .ok s' st' := by
  obtain ⟨⟨y, rest⟩, mid, hy, hcode⟩ := bind_ok h
  obtain ⟨rfl, rfl⟩ := popTyped_ok hy
  obtain ⟨⟨x, rest'⟩, mid', hx, hcode'⟩ := bind_ok hcode
  obtain ⟨rfl, rfl⟩ := popTyped_ok hx
  exact ⟨x, y, rest', rfl, hcode'⟩

theorem Tracks.top {vs : List Value} (h : Tracks body fin st ((r, t) :: s) d a)
    (hstack : d.stack = v :: vs) :
    a.get r = v ∧ v.type = t ∧ Tracks body fin st s { d with stack := vs } a := by
  obtain ⟨rest, hvs, htype, -, hcarries⟩ := h.stack.uncons
  rw [hstack, List.cons.injEq] at hvs
  obtain ⟨hv, rfl⟩ := hvs
  exact ⟨hv.symm, hv ▸ htype, h.stands, hcarries, h.locals, h.room⟩

theorem Tracks.exists_top (h : Tracks body fin st ((r, t) :: s) d a) :
    ∃ v vs, d.stack = v :: vs ∧ a.get r = v ∧ v.type = t ∧
      Tracks body fin st s { d with stack := vs } a := by
  obtain ⟨rest, hvs, htype, -⟩ := h.stack.uncons
  exact ⟨a.get r, rest, hvs, h.top hvs⟩

theorem Tracks.exists_two {u : ValueType} (h : Tracks body fin st ((y, u) :: (x, t) :: s) d a) :
    ∃ vs, d.stack = a.get y :: a.get x :: vs ∧ (a.get y).type = u ∧ (a.get x).type = t ∧
      Tracks body fin st s { d with stack := vs } a := by
  obtain ⟨_, _, hstack, rfl, hv, hbelow⟩ := h.exists_top
  obtain ⟨_, vs, rfl, rfl, hu, htail⟩ := hbelow.exists_top
  exact ⟨vs, hstack, hv, hu, htail⟩

theorem evaluate_binary (h : (a.get x).binary op (a.get y) = .ok v) :
    (evaluate a (.binary op r x y)).runOn tid w = .ok (.assign r v) w := by
  have hb : Exec.binary a op x y = pure v := by rw [Exec.binary, h]
  simp only [evaluate, hb]
  rfl

theorem evaluate_cmp {op : CmpOp} {b : Bool} (h : (a.get x).cmp? op (a.get y) = some b) :
    (evaluate a (.cmp op r x y)).runOn tid w = .ok (.assign r (ofBool b)) w := by
  simp only [evaluate, h]
  rfl

theorem Tracks.addInt (tid : ThreadId) (h : Tracks body fin st s d a) (hs : Sound body.graph st)
    {v : Int32} (he : Extends body.graph (st.addValue .i32 (.constInt · v)) fin) :
    ∃ b, Leads tid 1 a b ∧ Tracks body fin (st.addValue .i32 (.constInt · v))
      ((st.nextReg, .i32) :: s) { d with stack := .int v :: d.stack } b := by
  obtain ⟨b, hleads, -, htracks⟩ := h.addValue tid hs he rfl fun _ _ => rfl
  exact ⟨b, hleads, htracks⟩

section

variable (hs : Sound body.graph st) (ho : st.Open)

include hs ho

theorem Straight.value
    (hrun : ∀ ⦃fin tid d a⦄, fin.function.regType? st.nextReg = some t → Tracks body fin st s d a →
      Direct.execute instrs i d = .mistyped ∨ ∃ v vs, v.type = t ∧
      Direct.execute instrs i d = d.push i v vs ∧ Carries st.nextReg a s' vs ∧ ∀ w, Serves tid w →
      (evaluate a (make st.nextReg)).runOn tid w = .ok (.assign st.nextReg v) w) :
    Straight body instrs i st (st.addValue t make) s ((st.nextReg, t) :: s') where
  toContinues := (Continues.refl hs ho).addValue t make
  runs fin tid d a _ he h := by
    have hreg : fin.function.regType? st.nextReg = some t := he.regs _ _ regType_addReg
    rcases hrun hreg h with hmis | ⟨v, vs, hv, hexec, hcarries, heval⟩
    · rw [hmis]
      trivial
    · have h' : Tracks body fin st s' { d with stack := vs } a :=
        ⟨h.stands, hcarries, h.locals, h.room⟩
      obtain ⟨b, hleads, -, htracks⟩ := h'.addValue tid hs he hv heval
      rw [hexec]
      exact ⟨1, b, Nat.zero_le 1, hleads, rfl, htracks.at_pc _⟩

theorem straight_const (v : Value)
    (h : (some <$> push t make s) st = .ok (some s') st') (hv : v.type = t)
    (heval : ∀ a tid w r, (evaluate a (make r)).runOn tid w = .ok (.assign r v) w)
    (hexec : ∀ d, Direct.execute instrs i d = d.push i v d.stack) :
    Straight body instrs i st st' s s' := by
  obtain ⟨rfl, rfl⟩ := push_ok (map_some_ok h)
  exact .value hs ho fun fin tid d a _ htracks =>
    .inr ⟨v, d.stack, hv, hexec d, htracks.stack, fun w _ => heval a tid w _⟩

theorem straight_nop (hexec : ∀ d, Direct.execute instrs i d = d.goTo i.next d.stack) :
    Straight body instrs i st st s s where
  toContinues := .refl hs ho
  runs fin tid d a _ _ h := by
    rw [hexec]
    exact ⟨0, a, Nat.le_refl 0, .here a, rfl, h.at_pc _⟩

theorem straight_load (hbase : body.localBase = 0) (hop : i.op = .load t slot)
    (h : load body i.pc t slot s st = .ok s' st') : Straight body instrs i st st' s s' := by
  obtain ⟨n, mid, hslot, hpush⟩ := bind_ok h
  obtain ⟨rfl, rfl, hlt⟩ := localSlot_ok hbase hslot
  obtain ⟨rfl, rfl⟩ := push_ok hpush
  refine .value hs ho fun fin tid d a _ htracks => ?_
  obtain ⟨v, hget, hload⟩ := htracks.exists_local hlt
  simp only [Direct.execute, hop, hget]
  by_cases htype : v.type = t
  · rw [if_pos htype]
    exact .inr ⟨v, d.stack, htype, rfl, htracks.stack, fun w _ => hload _ tid w⟩
  · rw [if_neg htype]
    exact .inl rfl

theorem straight_store (hbase : body.localBase = 0) (hop : i.op = .store t slot)
    (h : store body i.pc t slot s st = .ok s' st') : Straight body instrs i st st' s s' := by
  obtain ⟨⟨r, found, rest⟩, mid, hpop, hcheck⟩ := bind_ok h
  obtain ⟨rfl, rfl⟩ := pop_ok hpop
  dsimp only at hcheck
  split at hcheck
  · cases hcheck
  · obtain ⟨n, mid', hslot, hstore⟩ := bind_ok hcheck
    obtain ⟨rfl, rfl, hlt⟩ := localSlot_ok hbase hslot
    cases hstore
    refine ⟨(Continues.refl hs ho).addInstr _, fun fin tid d a _ he htr => ?_⟩
    obtain ⟨v, vs, hstack, -⟩ := htr.exists_top
    obtain ⟨b, hleads, htracks⟩ := htr.addStore tid hs hstack ⟨s', rfl⟩ he hlt
    simp only [Direct.execute, hop, hstack, State.setLocal, htr.local_lt hlt]
    obtain ⟨-, -, htail⟩ := htracks.top hstack
    exact ⟨1, b, Nat.zero_le 1, hleads, rfl, htail.at_pc _⟩

theorem straight_increment (hbase : body.localBase = 0) {delta : Int32}
    (hop : i.op = .increment slot delta) (h : increment body i.pc slot delta st = .ok () st') :
    Straight body instrs i st st' s s := by
  obtain ⟨n, mid, hslot, hcode⟩ := bind_ok h
  obtain ⟨rfl, rfl, hlt⟩ := localSlot_ok hbase hslot
  -- The code loads the local, adds the constant and stores the sum.
  let st₁ := mid.addValue .i32 (.loadLocal · n)
  let st₂ := st₁.addValue .i32 (.constInt · delta)
  let st₃ := st₂.addValue .i32 (.binary .add · mid.nextReg st₁.nextReg)
  obtain rfl : st' = st₃.addInstr (.storeLocal n st₂.nextReg) := by
    cases hcode
    rfl
  have h₁ : Continues body.graph mid st₁ := (Continues.refl hs ho).addValue _ _
  have h₂ : Continues body.graph st₁ st₂ := (Continues.refl h₁.sound h₁.opened).addValue _ _
  have h₃ : Continues body.graph st₂ st₃ := (Continues.refl h₂.sound h₂.opened).addValue _ _
  have h₄ := (Continues.refl h₃.sound h₃.opened).addInstr (.storeLocal n st₂.nextReg)
  refine ⟨h₁.trans (h₂.trans (h₃.trans h₄)), fun fin tid d a _ he htr => ?_⟩
  have he₃ := h₄.later.trans he
  have he₂ := h₃.later.trans he₃
  obtain ⟨v, hget, hload⟩ := htr.exists_local hlt
  cases v with
  | int x =>
    obtain ⟨b₁, hl₁, -, htr₁⟩ := htr.addValue tid hs (h₂.later.trans he₂) rfl
      fun w _ => hload _ tid w
    obtain ⟨b₂, hl₂, htr₂⟩ := htr₁.addInt tid h₁.sound he₂
    obtain ⟨hy, -, hbelow⟩ := htr₂.top rfl
    obtain ⟨hx, -, hrest⟩ := hbelow.top rfl
    have hadd : (b₂.get mid.nextReg).binary .add (b₂.get st₁.nextReg) = .ok (.int (x + delta)) := by
      rw [hx, hy]
      rfl
    obtain ⟨b₃, hl₃, -, htr₃⟩ := hrest.addValue tid h₂.sound he₃ rfl
      fun _ _ => evaluate_binary hadd
    obtain ⟨b₄, hl₄, htr₄⟩ := htr₃.addStore tid h₃.sound rfl ⟨s, rfl⟩ he hlt
    obtain ⟨-, -, hend⟩ := htr₄.top rfl
    simp only [Direct.execute, hop, hget, State.setLocal, htr.local_lt hlt]
    exact ⟨4, b₄, Nat.zero_le 4, hl₁.trans (hl₂.trans (hl₃.trans hl₄)), rfl, hend.at_pc _⟩
  | _ =>
    simp only [Direct.execute, hop, hget]
    trivial

theorem straight_stack {op : StackOp} (hop : i.op = .stack op) (h : s.shuffle i.pc op = .ok s') :
    Straight body instrs i st st s s' := by
  refine ⟨.refl hs ho, fun fin tid d a _ _ htr => ?_⟩
  have hsym := SymStack.shuffle_ok h
  have hwide : shuffle (fun e => isWide (a.get e.1)) op s = some s' := by
    rw [← hsym]
    refine shuffle_congr op fun e he => ?_
    simp only [isWide, SymStack.wide, (htr.stack.typed e he).2]
  have hvals : shuffle isWide op d.stack = some (s'.map fun e => a.get e.1) := by
    rw [← htr.stack.values, shuffle_map, hwide, Option.map_some]
  simp only [Direct.execute, hop, hvals]
  exact ⟨0, a, Nat.le_refl 0, .here a, rfl, htr.stands,
    htr.stack.of_subset (shuffle_subset hsym), htr.locals, htr.room⟩

/-! ## Arithmetic -/

theorem straight_unary {source target : ValueType} {make : Reg → Reg → Instr}
    (hrun : ∀ v : Value, v.type = source → ∃ u : Value, u.type = target ∧
      (∀ d vs, d.stack = v :: vs → Direct.execute instrs i d = d.push i u vs) ∧
      ∀ a r tid w, a.get r = v → a.function.regType? st.nextReg = some target →
        (evaluate a (make st.nextReg r)).runOn tid w = .ok (.assign st.nextReg u) w)
    (h : unary i.pc source target make s st = .ok s' st') :
    Straight body instrs i st st' s s' := by
  obtain ⟨⟨r, rest⟩, mid, hpop, hpush⟩ := bind_ok h
  obtain ⟨rfl, rfl⟩ := popTyped_ok hpop
  obtain ⟨rfl, rfl⟩ := push_ok hpush
  refine .value hs ho fun fin tid d a hreg htr => .inr ?_
  obtain ⟨v, vs, hstack, hget, htype, htail⟩ := htr.exists_top
  rw [← htr.stands.function] at hreg
  obtain ⟨u, hu, hexec, heval⟩ := hrun v htype
  exact ⟨u, vs, hu, hexec d vs hstack, htail.stack, fun w _ => heval a r tid w hget hreg⟩

theorem straight_neg {t : NumType} (hop : i.op = .neg t) (hc : covers i.op = true)
    (h : unary i.pc t.valueType t.valueType .neg s st = .ok s' st') :
    Straight body instrs i st st' s s' := by
  refine straight_unary hs ho (fun v htype => ?_) h
  rw [hop] at hc
  cases t <;> cases hc <;> cases v <;> cases htype
  · rename_i x
    refine ⟨.int (-x), rfl, fun d vs hd => ?_, fun a r tid w hget _ => ?_⟩
    · simp only [Direct.execute, hop, hd]
    · simp only [evaluate, hget]
      rfl
  · rename_i x
    refine ⟨.long (-x), rfl, fun d vs hd => ?_, fun a r tid w hget _ => ?_⟩
    · simp only [Direct.execute, hop, hd]
    · simp only [evaluate, hget]
      rfl

theorem straight_convert {c : Conversion} (hop : i.op = .convert c) (hc : covers i.op = true)
    (h : unary i.pc c.source.valueType c.target.valueType .convert s st = .ok s' st') :
    Straight body instrs i st st' s s' := by
  refine straight_unary hs ho (fun v htype => ?_) h
  rw [hop] at hc
  cases c <;> cases hc <;> cases v <;> cases htype
  · rename_i x
    refine ⟨.long x.toInt64, rfl, fun d vs hd => ?_, fun a r tid w hget hreg => ?_⟩
    · simp only [Direct.execute, hop, hd]
    · simp only [evaluate, hget, hreg]
      rfl
  · rename_i x
    refine ⟨.int x.toInt32, rfl, fun d vs hd => ?_, fun a r tid w hget hreg => ?_⟩
    · simp only [Direct.execute, hop, hd]
    · simp only [evaluate, hget, hreg]
      rfl

theorem straight_narrow {n : Narrowing} (hop : i.op = .narrow n)
    (h : unary i.pc .i32 .i32 (.narrow n.elementKind) s st = .ok s' st') :
    Straight body instrs i st st' s s' := by
  refine straight_unary hs ho (fun v htype => ?_) h
  cases v <;> cases htype
  rename_i x
  refine ⟨.int (narrowed n x), rfl, fun d vs hd => ?_, fun a r tid w hget _ => ?_⟩
  · simp only [Direct.execute, hop, hd]
  · have hint : int a r = pure x := by rw [int, hget]
    simp only [evaluate, hint, ← narrowInt_narrowed]
    rfl

theorem straight_compare (hop : i.op = .compare .long)
    (h : compare i.pc .long s st = .ok s' st') : Straight body instrs i st st' s s' := by
  obtain ⟨⟨y, rest⟩, mid, hy, hcode⟩ := bind_ok h
  obtain ⟨rfl, rfl⟩ := popTyped_ok hy
  obtain ⟨⟨x, rest'⟩, mid', hx, hpush⟩ := bind_ok hcode
  obtain ⟨rfl, rfl⟩ := popTyped_ok hx
  obtain ⟨rfl, rfl⟩ := push_ok hpush
  refine .value hs ho fun fin tid d a _ htr => .inr ?_
  obtain ⟨v, vs, hstack, hvget, hv, hbelow⟩ := htr.exists_top
  obtain ⟨u, us, rfl, huget, hu, htail⟩ := hbelow.exists_top
  cases v <;> cases hv
  cases u <;> cases hu
  rename_i y x
  refine ⟨.int (Direct.longOrder x y), us, rfl, ?_, htail.stack, fun w _ => ?_⟩
  · simp only [Direct.execute, hop, hstack]
  · simp only [evaluate, hvget, huget, nanResult, compare_longOrder]
    rfl

theorem straight_binary (hdiv : ¬ (op = .div ∨ op = .rem))
    (hrun : ∀ u v : Value, u.type = t → v.type = (if op.isShift then .i32 else t) → ∃ x : Value,
      x.type = t ∧ u.binary op v = .ok x ∧ ∀ d vs, d.stack = v :: u :: vs →
      Direct.execute instrs i d = d.push i x vs) (h : binary i.pc op t s st = .ok s' st') :
    Straight body instrs i st st' s s' := by
  obtain ⟨x, y, rest, rfl, hcode⟩ := binary_ok h
  have hcheck : divisorCheck op t y st = .ok () st := by
    unfold divisorCheck
    rw [if_neg fun h => hdiv h.1]
    rfl
  rw [bind_eq hcheck] at hcode
  obtain ⟨rfl, rfl⟩ := push_ok hcode
  refine .value hs ho fun fin tid d a _ htr => .inr ?_
  obtain ⟨vs, hstack, hv, hu, htail⟩ := htr.exists_two
  obtain ⟨z, hz, hbinary, hexec⟩ := hrun _ _ hu hv
  exact ⟨z, vs, hz, hexec d vs hstack, htail.stack, fun w _ => evaluate_binary hbinary⟩

theorem straight_bits {op : BitOp} {long : Bool} (hop : i.op = .bits op long)
    (h : binary i.pc (ofBits op) (if long then .i64 else .i32) s st = .ok s' st') :
    Straight body instrs i st st' s s' := by
  refine straight_binary hs ho (by cases op <;> nofun) (fun u v hu hv => ?_) h
  cases long with
  | false =>
    have hv' : v.type = .i32 := by cases op <;> exact hv
    cases u <;> cases hu
    cases v <;> cases hv'
    refine ⟨_, rfl, binary_intBits op _ _, fun d vs hd => ?_⟩
    simp only [Direct.execute, hop, hd]
  | true =>
    cases u <;> cases hu
    rename_i x
    obtain ⟨z, hz⟩ : ∃ z, longBits op x v = some z := by
      cases op <;> cases v <;> cases hv <;> exact ⟨_, rfl⟩
    refine ⟨.long z, rfl, binary_longBits hz, fun d vs hd => ?_⟩
    simp only [Direct.execute, hop, hd, hz]

end

/-! ## Division -/

def zeroInstr (t : ValueType) (r : Reg) : Instr :=
  if t = .i64 then .constLong r 0 else .constInt r 0

def withZeroTest (st : EmitState) (t : ValueType) (y : Reg) : EmitState :=
  (st.addValue t (zeroInstr t)).addValue .i32 (.cmp .eq · y st.nextReg)

theorem divisorCheck_eq (hs : Sound body.graph st) (hop : op = .div ∨ op = .rem)
    (ht : t.isInteger = true) : divisorCheck op t y st = .ok () ((withZeroTest st t y).fork
      ((withZeroTest st t y).guardBranch (st.addValue t (zeroInstr t)).nextReg true)
      (.raise .arithmetic [] (some "/ by zero"))) := by
  have hs₂ : Sound body.graph (withZeroTest st t y) := (hs.addValue _ _).addValue _ _
  have hguard := hs₂.guard (st.addValue t (zeroInstr t)).nextReg true .arithmetic []
    (some "/ by zero")
  rw [divisorCheck, if_pos ⟨hop, ht⟩]
  cases t with
  | i32 | i64 => exact hguard
  | _ => cases ht

theorem evaluate_zeroInstr (ht : t.isInteger = true) (r : Reg) (w : World) :
    (evaluate a (zeroInstr t r)).runOn tid w = .ok (.assign r (.zero t)) w := by
  cases t <;> cases ht <;> rfl

theorem Tracks.zeroTest (tid : ThreadId) (ht : t.isInteger = true) (hs : Sound body.graph st)
    (ho : st.Open) (h : Tracks body fin st ((y, t) :: s) d a)
    (he : Extends body.graph (withZeroTest st t y) fin) : ∃ b, Leads tid 2 a b ∧ b.get y = a.get y ∧
      b.get (st.addValue t (zeroInstr t)).nextReg = ofBool (decide (a.get y = .zero t)) ∧
      Tracks body fin (withZeroTest st t y) ((y, t) :: s) d b := by
  have hs₁ := hs.addValue t (zeroInstr t)
  have he₁ := ((ho.addValue t (zeroInstr t)).extends_addValue .i32
    (.cmp .eq · y st.nextReg)).trans he
  obtain ⟨b₁, hl₁, -, htr₁⟩ := h.addValue tid hs he₁ (Value.type_zero t)
    fun w _ => evaluate_zeroInstr ht _ w
  obtain ⟨hz, -, hbelow⟩ := htr₁.top rfl
  obtain ⟨v, vs, hstack, hv, htype, -⟩ := h.exists_top
  obtain ⟨hy, -, -⟩ := hbelow.top hstack
  have hcmp : (b₁.get y).cmp? .eq (b₁.get st.nextReg) = some (decide (v = .zero t)) := by
    rw [hy, hz, cmp_zero htype ht]
  obtain ⟨b₂, hl₂, hc, htr₂⟩ := hbelow.addValue tid hs₁ he rfl fun w _ => evaluate_cmp hcmp
  obtain ⟨-, -, hend⟩ := htr₂.top rfl
  obtain ⟨hy₂, -, -⟩ := hend.top hstack
  exact ⟨b₂, hl₁.trans hl₂, hy₂.trans hv.symm, by rw [hc, hv], hend⟩

section

variable (hs : Sound body.graph st) (ho : st.Open)

include hs ho

theorem straight_division (hdiv : op = .div ∨ op = .rem) (ht : t.isInteger = true)
    (hrun : ∀ u v : Value, u.type = t → v.type = t → ((v = .zero t → ∀ d vs,
      d.stack = v :: u :: vs → Direct.execute instrs i d = .done .zeroDivisor) ∧ (v ≠ .zero t →
      ∃ x : Value, x.type = t ∧ u.binary op v = .ok x ∧ ∀ d vs, d.stack = v :: u :: vs →
      Direct.execute instrs i d = d.push i x vs))) (h : binary i.pc op t s st = .ok s' st') :
    Straight body instrs i st st' s s' := by
  obtain ⟨x, y, rest, rfl, hcode⟩ := binary_ok h
  rw [bind_eq (divisorCheck_eq hs hdiv ht)] at hcode
  obtain ⟨rfl, rfl⟩ := push_ok hcode
  have hshift : (if op.isShift then ValueType.i32 else t) = t := by
    rcases hdiv with rfl | rfl <;> rfl
  rw [hshift]
  let c := (st.addValue t (zeroInstr t)).nextReg
  let st₂ := withZeroTest st t y
  let branch := st₂.guardBranch c true
  let failure : Terminator := .raise .arithmetic [] (some "/ by zero")
  have h₂ : Continues body.graph st st₂ := ((Continues.refl hs ho).addValue _ _).addValue _ _
  have h₃ : Continues body.graph st₂ (st₂.fork branch failure) :=
    .fork h₂.sound h₂.opened (guardBranch_ne _ _) _
  have h₄ := (Continues.refl h₃.sound h₃.opened).addValue t (.binary op · x y)
  refine ⟨h₂.trans (h₃.trans h₄), fun fin tid d a hfin he htr => ?_⟩
  have hefork := h₄.later.trans he
  obtain ⟨vs, hstack, hv, hu, -⟩ := htr.exists_two
  obtain ⟨b, hleads, hy, hc, htr₂⟩ := htr.zeroTest tid ht hs ho (h₃.later.trans hefork)
  obtain ⟨blk, hatEnd, hterm⟩ := htr₂.stands.atFork h₂.sound (guardBranch_ne _ _) hefork
  obtain ⟨hzero, hnonzero⟩ := hrun _ _ hu hv
  by_cases hz : a.get y = .zero t
  · rw [hzero hz d vs hstack]
    have hcond : b.get c = .int 1 := by rw [hc, decide_eq_true hz]; rfl
    have hgo := Activation.goes_goTo (t := tid) hatEnd (Activation.terminate_branch hterm hcond)
    refine ⟨3, _, hleads.trans (.go hgo (.here _)), ?_⟩
    exact Activation.finishes_raise (htr₂.stands.fail h₂.sound hefork) rfl rfl
  · obtain ⟨z, hztype, hbinary, hexec⟩ := hnonzero hz
    have hcond : b.get c = .int 0 := by rw [hc, decide_eq_false hz]; rfl
    have hgo := Activation.goes_goTo (t := tid) hatEnd (Activation.terminate_branch hterm hcond)
    have hpass : Tracks body fin (st₂.fork branch failure) _ _ _ := htr₂.pass
    obtain ⟨ws, hwstack, -, -, htail⟩ := hpass.exists_two
    rw [hstack, List.cons.injEq, List.cons.injEq] at hwstack
    obtain ⟨hyget, hxget, rfl⟩ := hwstack
    obtain ⟨b', hl', -, htr₄⟩ := htail.addValue tid h₃.sound he hztype fun w _ => by
      refine evaluate_binary ?_
      rw [← hxget, ← hyget, hbinary]
    rw [hexec d vs hstack]
    exact ⟨4, b', Nat.zero_le 4, hleads.trans (.go hgo hl'), rfl, htr₄.at_pc _⟩

/-- Arithmetic on one type: its operators have a result unless they divide by zero. -/
theorem straight_arithOn {op : ArithOp} (ht : t.isInteger = true)
    (hrun : ∀ u v : Value, u.type = t → v.type = t →
      ((ofArith op).isDivision = true ∧ v = .zero t ∧ ∀ d vs, d.stack = v :: u :: vs →
        Direct.execute instrs i d = .done .zeroDivisor) ∨
      (¬((ofArith op).isDivision = true ∧ v = .zero t) ∧ ∃ x : Value, x.type = t ∧
        u.binary (ofArith op) v = .ok x ∧ ∀ d vs, d.stack = v :: u :: vs →
        Direct.execute instrs i d = d.push i x vs))
    (h : binary i.pc (ofArith op) t s st = .ok s' st') :
    Straight body instrs i st st' s s' := by
  by_cases hdiv : (ofArith op).isDivision = true
  · refine straight_division hs ho ((isDivision_iff _).mp hdiv) ht (fun u v hu hv => ?_) h
    rcases hrun u v hu hv with ⟨-, hz, hnone⟩ | ⟨hne, hsome⟩
    · exact ⟨fun _ => hnone, fun hne => absurd hz hne⟩
    · exact ⟨fun hz => absurd ⟨hdiv, hz⟩ hne, fun _ => hsome⟩
  · refine straight_binary hs ho (fun hd => hdiv ((isDivision_iff _).mpr hd))
      (fun u v hu hv => ?_) h
    rcases hrun u v hu (by cases op <;> exact hv) with ⟨hd, -⟩ | ⟨-, hsome⟩
    · exact absurd hd hdiv
    · exact hsome

theorem straight_arith {op : ArithOp} {t : NumType} (hop : i.op = .arith op t)
    (hc : covers i.op = true)
    (h : binary i.pc (ofArith op) t.valueType s st = .ok s' st') :
    Straight body instrs i st st' s s' := by
  rw [hop] at hc
  have ht : t.valueType.isInteger = true := by cases t <;> cases hc <;> rfl
  refine straight_arithOn hs ho ht (fun u v hu hv => ?_) h
  cases t <;> cases hc <;> cases u <;> cases hu <;> cases v <;> cases hv <;> rename_i x y
  · rcases intArith_cases op x y with ⟨hdiv, rfl, hnone⟩ | ⟨hne, z, hz, hbinary⟩
    · exact .inl ⟨hdiv, rfl, fun d vs hd => by simp only [Direct.execute, hop, hd, hnone]⟩
    · refine .inr ⟨fun hzero => hne ⟨hzero.1, Value.int.inj hzero.2⟩, .int z, rfl, hbinary,
        fun d vs hd => ?_⟩
      simp only [Direct.execute, hop, hd, hz]
  · rcases longArith_cases op x y with ⟨hdiv, rfl, hnone⟩ | ⟨hne, z, hz, hbinary⟩
    · exact .inl ⟨hdiv, rfl, fun d vs hd => by simp only [Direct.execute, hop, hd, hnone]⟩
    · refine .inr ⟨fun hzero => hne ⟨hzero.1, Value.long.inj hzero.2⟩, .long z, rfl, hbinary,
        fun d vs hd => ?_⟩
      simp only [Direct.execute, hop, hd, hz]

/-! ## All of them -/

theorem instruction_some {expand : Option Expander} (hbase : body.localBase = 0)
    (hc : covers i.op = true) (h : instruction expand body i s st = .ok (some s') st') :
    Straight body instrs i st st' s s' := by
  have hcovers := hc
  unfold instruction at h
  generalize hop : i.op = op at h hc
  have hexec : ∀ d, Direct.execute instrs i d = Direct.execute instrs { i with op } d := by
    rw [← hop]
    exact fun d => rfl
  cases op with
  | nop =>
    cases h
    exact straight_nop hs ho hexec
  | constNull => exact straight_const hs ho .null h rfl (fun _ _ _ _ => rfl) hexec
  | constInt v =>
    exact straight_const hs ho (.int (Int32.ofInt (v.val - 1))) h rfl (fun _ _ _ _ => rfl) hexec
  | constLong one =>
    exact straight_const hs ho (.long (if one then 1 else 0)) h rfl (fun _ _ _ _ => rfl) hexec
  | pushByte v | pushShort v => exact straight_const hs ho (.int v) h rfl (fun _ _ _ _ => rfl) hexec
  | load t slot => exact straight_load hs ho hbase hop (map_some_ok h)
  | store t slot => exact straight_store hs ho hbase hop (map_some_ok h)
  | increment slot delta =>
    obtain ⟨_, mid, h, hsome⟩ := bind_ok h
    cases hsome
    exact straight_increment hs ho hbase hop h
  | stack op =>
    obtain ⟨hshuffle, rfl⟩ := liftExcept_ok (map_some_ok h)
    exact straight_stack hs ho hop hshuffle
  | arith op t => exact straight_arith hs ho hop hcovers (map_some_ok h)
  | neg t => exact straight_neg hs ho hop hcovers (map_some_ok h)
  | bits op long => exact straight_bits hs ho hop (map_some_ok h)
  | convert c => exact straight_convert hs ho hop hcovers (map_some_ok h)
  | narrow n => exact straight_narrow hs ho hop (map_some_ok h)
  | compare c =>
    cases c <;> cases hc
    exact straight_compare hs ho hop (map_some_ok h)
  | ifZero | ifInt | ifRef | ifNull | goto | jsr | ret | tableSwitch | lookupSwitch | result =>
    obtain ⟨_, _, hsome⟩ := map_ok h
    cases hsome
  | _ => cases hc

end

end

end ManagedCore
