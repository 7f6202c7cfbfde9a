import ManagedCore.Proofs.Compile.Straight

/-!
# What the code of single instructions supplies

The code of an instruction that does not end its block reads only registers that were on the
symbolic stack or that it assigned itself, and it leaves a symbolic stack of registers that are
assigned and have their types.
-/

namespace ManagedCore.Emit

open EmitState Outline Instr List

variable {lv n : Nat} {c : Spot} {fresh s r : SymStack} {i : Instruction} {t : ValueType}
  {target : Nat} {tag : Reg}

/-! ## Constants and locals -/

theorem wired_loadConst (body : Body) (pc : Nat) (op : Operation) (wide : Bool) (index : Nat)
    (s : SymStack) : Wired lv fresh s (loadConst body pc op wide index s) id := by
  refine .bind (silent_poolEntry body pc _).wired fun k => ?_
  split
  · exact .push (by simp [uses]) (fun _ => rfl) (by simp)
  · exact .push (by simp [uses]) (fun _ => rfl) (by simp)
  · exact .push (by simp [uses]) (fun _ => rfl) (by simp)
  · exact .push (by simp [uses]) (fun _ => rfl) (by simp)
  · refine .bind (.value (by simp [uses]) fun _ => rfl) fun d => ?_
    exact .bind (silent_markNonNull d).wired fun _ => .pure (by grind)
  · exact .throw
  · exact .throw

theorem wired_load (body : Body) (pc : Nat) (t : ValueType) (slot : Nat) (s : SymStack) :
    Wired lv fresh s (load body pc t slot s) id := by
  refine .bind (silent_localSlot body slot t pc).wired fun n => ?_
  exact .push (by simp [uses]) (fun _ => rfl) (by simp)

theorem wired_store (body : Body) (pc : Nat) (t : ValueType) (slot : Nat) (s : SymStack) :
    Wired lv fresh s (store body pc t slot s) id := by
  refine .bind (wired_pop pc s) fun ⟨src, found, rest⟩ => ?_
  dsimp only
  split
  · exact .throw
  · refine .bind (silent_localSlot body slot found pc).wired fun n => ?_
    refine .bind (.instr rfl (by simp [uses])) fun _ => ?_
    exact .pure (by grind)

theorem wired_increment (body : Body) (pc slot : Nat) (delta : Int32) :
    Wired lv fresh s (increment body pc slot delta) fun _ => [] := by
  refine .bind (silent_localSlot body slot .i32 pc).wired fun n => ?_
  refine .bind (.value (by simp [uses]) fun _ => rfl) fun v => ?_
  refine .bind (.value (by simp [uses]) fun _ => rfl) fun d => ?_
  refine .bind (.value (by simp [uses]; grind) fun _ => rfl) fun sum => ?_
  exact .instr rfl (by simp [uses])

/-! ## Arithmetic -/

theorem wired_constInt (v : Int32) : Wired lv fresh s (constInt v) fun r => [(r, .i32)] :=
  .value (by simp [uses]) fun _ => rfl

theorem wired_cmp (op : CmpOp) {l r : Reg} (hl : ∃ t, (l, t) ∈ s) (hr : ∃ t, (r, t) ∈ s) :
    Wired lv fresh s (cmp op l r) fun r => [(r, .i32)] :=
  .value (by simp [uses, hl, hr]) fun _ => rfl

theorem wired_divisorCheck (op : BinaryOp) (t : ValueType) {divisor : Reg}
    (h : ∃ t, (divisor, t) ∈ s) : Wired lv fresh s (divisorCheck op t divisor) fun _ => [] := by
  unfold divisorCheck
  split
  · have hrest : ∀ z u, Wired lv fresh ([(z, u)] ++ s)
        (cmp .eq divisor z >>= fun isZero => raiseIf isZero .arithmetic [] (some "/ by zero"))
        fun _ => [] := by
      intro z u
      refine .bind (wired_cmp .eq (by grind) (by grind)) fun isZero => ?_
      exact .guard (by grind) (by simp)
    split
    · refine .bind ?_ fun z => hrest z .i64
      exact .value (by simp [uses]) fun _ => rfl
    · exact .bind (wired_constInt 0) fun z => hrest z .i32
  · exact .pure (by simp)

theorem wired_binary (pc : Nat) (op : BinaryOp) (t : ValueType) (s : SymStack) :
    Wired lv fresh s (binary pc op t s) id := by
  refine .popped (fun _ h => h) fun right s₁ => ?_
  refine .popped (by grind) fun left s₂ => ?_
  refine .bind (wired_divisorCheck op t (by grind)) fun _ => ?_
  exact .push (by simp [uses]; grind) (fun _ => rfl) (by grind)

theorem wired_unary (pc : Nat) (source target : ValueType) {make : Reg → Reg → Instr}
    (huses : ∀ d u, (make d u).uses = [u]) (hmake : ∀ d u, (make d u).lays? lv = some (some d))
    (s : SymStack) : Wired lv fresh s (unary pc source target make s) id := by
  refine .popped (fun _ h => h) fun src s₁ => ?_
  exact .push (by grind) (fun d => hmake d src) (by grind)

theorem wired_compare (pc : Nat) (k : Comparison) (s : SymStack) :
    Wired lv fresh s (compare pc k s) id := by
  refine .popped (fun _ h => h) fun right s₁ => ?_
  refine .popped (by grind) fun left s₂ => ?_
  exact .push (by simp [uses]; grind) (fun _ => rfl) (by grind)

theorem wired_stack (pc : Nat) (op : StackOp) (s : SymStack) :
    Wired lv fresh s (liftExcept (s.shuffle pc op)) id := by
  cases h : s.shuffle pc op with
  | error e => exact .throw
  | ok s' => exact .pure (Direct.shuffle_subset (SymStack.shuffle_ok h))

/-! ## Arrays -/

theorem wired_nullCheck {object : Reg} (h : ∃ t, (object, t) ∈ s) :
    Wired lv fresh s (nullCheck object) fun _ => [] := by
  refine .bind Silent.get.wired fun st => ?_
  split
  · refine .bind (.value (by simp [uses]; grind) fun _ => rfl) fun null => ?_
    refine .bind (.guard (by grind) (by simp)) fun _ => ?_
    exact (silent_markNonNull object).wired
  · exact .pure (by simp)

theorem wired_boundsCheck {array index : Reg} (ha : ∃ t, (array, t) ∈ s)
    (hi : ∃ t, (index, t) ∈ s) : Wired lv fresh s (boundsCheck array index) fun _ => [] := by
  refine .bind (wired_nullCheck ha) fun _ => ?_
  refine .bind (.value (by simp [uses]; grind) fun _ => rfl) fun length => ?_
  refine .bind (wired_cmp .ult (by grind) (by grind)) fun inside => ?_
  exact .guard (by grind) (by grind)

theorem wired_arrayLoad (pc : Nat) (form : ArrayForm) (s : SymStack) :
    Wired lv fresh s (arrayLoad pc form s) id := by
  refine .popped (fun _ h => h) fun index s₁ => ?_
  refine .popped (by grind) fun array s₂ => ?_
  refine .bind (wired_boundsCheck (by grind) (by grind)) fun _ => ?_
  exact .push (by simp [uses]; grind) (fun _ => rfl) (by grind)

theorem wired_arrayStore (pc : Nat) (form : ArrayForm) (s : SymStack) :
    Wired lv fresh s (arrayStore pc form s) id := by
  refine .popped (fun _ h => h) fun v s₁ => ?_
  refine .popped (by grind) fun index s₂ => ?_
  refine .popped (by grind) fun array s₃ => ?_
  refine .bind (wired_boundsCheck (by grind) (by grind)) fun _ => ?_
  have hstore : ∀ t : SymStack, (∃ t', (array, t') ∈ t) → (∃ t', (index, t') ∈ t) →
      (∃ t', (v, t') ∈ t) → (∀ e ∈ s₃, e ∈ t) →
      Wired lv fresh t (instr (.arrayStore array index v) >>= fun _ => pure s₃) id := by
    intro t ha hi hv hsub
    refine .bind (.instr rfl (by simp [uses, ha, hi, hv])) fun _ => ?_
    exact .pure (by grind)
  split
  · refine .bind (.value (by simp [uses]; grind) fun _ => rfl) fun ok => ?_
    refine .bind (.guard (by grind) (by grind)) fun _ => ?_
    exact hstore _ (by grind) (by grind) (by grind) (by grind)
  · exact hstore _ (by grind) (by grind) (by grind) (by grind)

theorem wired_arrayLength (pc : Nat) (s : SymStack) : Wired lv fresh s (arrayLength pc s) id := by
  refine .popped (fun _ h => h) fun array s₁ => ?_
  refine .bind (wired_nullCheck (by grind)) fun _ => ?_
  exact .push (by simp [uses]) (fun _ => rfl) (by grind)

theorem wired_lengthCheck {length : Reg} (h : ∃ t, (length, t) ∈ s) :
    Wired lv fresh s (lengthCheck length) fun _ => [] := by
  refine .bind (wired_constInt 0) fun z => ?_
  refine .bind (wired_cmp .lt (by grind) (by grind)) fun negative => ?_
  exact .guard (by grind) (by grind)

theorem wired_newArray {pc : Nat} {dest : Reg} {cls : Handle ClassRef}
    (hdest : (dest, .ref) ∈ fresh) (hsub : ∀ e ∈ r, e ∈ s) :
    Wired lv fresh s (newArray pc dest cls r) id := by
  refine .popped hsub fun length s₁ => ?_
  refine .bind (wired_lengthCheck (by grind)) fun _ => ?_
  refine .bind (.assign hdest rfl (by simp [uses])) fun _ => ?_
  exact .bind (silent_markNonNull dest).wired fun _ => .pure (by grind)

theorem wired_newPrimitiveArray (pc : Nat) (op : Operation) (typeCode : Nat) (s : SymStack) :
    Wired lv fresh s (newPrimitiveArray pc op typeCode s) id := by
  refine .newReg _ fun dest => ?_
  split
  · exact .throw
  · split
    · exact .throw
    · refine .bind (silent_primitiveArrayHandle _).wired fun cls => ?_
      exact wired_newArray (by simp) (by simp)

theorem wired_newRefArray (body : Body) (pc index : Nat) (s : SymStack) :
    Wired lv fresh s (newRefArray body pc index s) id := by
  refine .newReg _ fun dest => ?_
  refine .bind (silent_arrayOfHandle body index pc).wired fun cls => ?_
  exact wired_newArray (by simp) (by simp)

theorem wired_popAll (pc : Nat) (ts : List ValueType) (hsub : ∀ e ∈ r, e ∈ s) :
    Wired lv fresh s (popAll pc ts r) fun p => p.1.zip ts ++ p.2 := by
  induction ts generalizing r with
  | nil => exact .pure (by simpa using hsub)
  | cons t ts ih =>
    refine .bind (ih hsub) fun ⟨rs, s₁⟩ => ?_
    refine .popped (by grind) fun r s₂ => .pure ?_
    simp only [zip_cons_cons]
    grind

theorem length_popAll {pc : Nat} {ts : List ValueType} {rs : List Reg} {st st' : EmitState}
    (h : popAll pc ts s st = .ok (rs, r) st') : rs.length = ts.length := by
  induction ts generalizing rs r st' with
  | nil =>
    cases h
    rfl
  | cons t ts ih =>
    obtain ⟨⟨rs', s₁⟩, mid, hmid, h⟩ := bind_ok h
    obtain ⟨⟨r', s₂⟩, mid', -, h⟩ := bind_ok h
    cases h
    rw [length_cons, length_cons, ih hmid]

theorem wired_popEach (pc : Nat) (t : ValueType) (k : Nat) (hsub : ∀ e ∈ r, e ∈ s) :
    Wired lv fresh s (popAll pc (.replicate k t) r) fun p => p.1.map (·, t) ++ p.2 := by
  induction k generalizing r with
  | zero => exact .pure (by simpa using hsub)
  | succ k ih =>
    refine .bind (ih hsub) fun ⟨rs, s₁⟩ => ?_
    refine .popped (by grind) fun r s₂ => ?_
    exact .pure (by grind)

theorem wired_newMultiArray (body : Body) (pc index dims : Nat) (s : SymStack) :
    Wired lv fresh s (newMultiArray body pc index dims s) id := by
  refine .newReg _ fun dest => ?_
  refine .bind (silent_classHandle body index pc).wired fun cls => ?_
  refine .bind (wired_popEach pc _ dims (by simp)) fun ⟨lengths, s₁⟩ => ?_
  have hmem : ∀ n ∈ lengths, (n, ValueType.i32) ∈ lengths.map (·, .i32) := by simp
  refine .bind (.forM lengths fun n hn => wired_lengthCheck (by grind)) fun _ => ?_
  refine .bind (.assign mem_cons_self rfl (by simp [uses]; grind)) fun _ => ?_
  exact .bind (silent_markNonNull dest).wired fun _ => .pure (by grind)

/-! ## Fields -/

theorem wired_initCheck (cls : Handle ClassRef) :
    Wired lv fresh s (initCheck cls) fun _ => [] := by
  refine .bind Silent.get.wired fun st => ?_
  refine .ite ?_ (.pure (by simp))
  exact .instr rfl (by simp [uses])

theorem straight_initCheck (cls : Handle ClassRef) : Straight lv n (initCheck cls) :=
  (wired_initCheck (s := []) cls).straight

theorem wired_staticHandle (body : Body) (index : Nat) (member : MemberRef) :
    Wired lv fresh s (staticHandle body index member) fun _ => [] := by
  refine .bind (silent_boundClass _).wired fun cls => ?_
  refine .bind Silent.get.wired fun st => ?_
  dsimp only
  split
  · refine .bind (wired_initCheck _) fun _ => ?_
    exact (silent_bound body index _).wired
  · exact (silent_lazy index _).wired

theorem silent_fieldHandle (body : Body) (index : Nat) (member : MemberRef) (t : ValueType) :
    Silent (fieldHandle body index member t) := by
  refine Silent.bind (silent_boundClass _) fun cls => ?_
  split
  · exact silent_bound body index _
  · exact silent_lazy index _

section

variable (body : Body) (pc index : Nat) (s : SymStack)

theorem wired_getStatic : Wired 1 fresh s (getStatic body pc index s) id := by
  refine .bind (silent_fieldRef body pc index).wired fun ⟨member, t⟩ => ?_
  refine .bind (wired_staticHandle body index member) fun field => ?_
  exact .push (by simp [uses]) (fun _ => rfl) (by simp)

theorem wired_putStatic : Wired 1 fresh s (putStatic body pc index s) id := by
  refine .bind (silent_fieldRef body pc index).wired fun ⟨member, t⟩ => ?_
  refine .bind (wired_staticHandle body index member) fun field => ?_
  refine .popped (by simp) fun v s₁ => ?_
  exact .bind (.instr rfl (by simp [uses])) fun _ => .pure (by grind)

theorem wired_getField : Wired lv fresh s (getField body pc index s) id := by
  refine .bind (silent_fieldRef body pc index).wired fun ⟨member, t⟩ => ?_
  refine .bind (silent_fieldHandle body index member t).wired fun field => ?_
  refine .popped (by simp) fun object s₁ => ?_
  refine .bind (wired_nullCheck (by grind)) fun _ => ?_
  exact .push (by simp [uses]) (fun _ => rfl) (by grind)

theorem wired_putField : Wired lv fresh s (putField body pc index s) id := by
  refine .bind (silent_fieldRef body pc index).wired fun ⟨member, t⟩ => ?_
  refine .bind (silent_fieldHandle body index member t).wired fun field => ?_
  refine .popped (by simp) fun v s₁ => ?_
  refine .popped (by grind) fun object s₂ => ?_
  refine .bind (wired_nullCheck (by grind)) fun _ => ?_
  exact .bind (.instr rfl (by simp [uses]; grind)) fun _ => .pure (by grind)

/-! ## Objects -/

theorem wired_newObject : Wired lv fresh s (newObject body pc index s) id := by
  refine .bind (silent_classHandle body index pc).wired fun cls => ?_
  refine .bind (wired_initCheck cls) fun _ => ?_
  refine .bind (.value (by simp [uses]) fun _ => rfl) fun r => ?_
  exact .bind (silent_markNonNull r).wired fun _ => .pure (by grind)

theorem wired_checkCast : Wired lv fresh s (checkCast body pc index s) id := by
  refine .bind (silent_poolEntry body pc _).wired fun name => ?_
  refine .bind (silent_classHandle body index pc).wired fun cls => ?_
  refine .popped (by simp) fun object s₁ => ?_
  refine .bind (.value (by simp [uses]) fun _ => rfl) fun ok => ?_
  exact .bind (.guard (by grind) (by grind)) fun _ => .pure (by grind)

theorem wired_instanceOf : Wired lv fresh s (instanceOf body pc index s) id := by
  refine .bind (silent_classHandle body index pc).wired fun cls => ?_
  refine .popped (by simp) fun object s₁ => ?_
  exact .push (by simp [uses]) (fun _ => rfl) (by grind)

end

theorem wired_monitor (pc : Nat) {make : Reg → Instr} (huses : ∀ u, (make u).uses = [u])
    (hmake : ∀ u, (make u).lays? lv = some none) (s : SymStack) :
    Wired lv fresh s (monitor pc make s) id := by
  refine .popped (fun _ h => h) fun object s₁ => ?_
  refine .bind (wired_nullCheck (by grind)) fun _ => ?_
  exact .bind (.instr (hmake object) (by grind)) fun _ => .pure (by grind)

/-! ## Control -/

theorem wired_backEdgePoll (i : Instruction) : Wired lv fresh s (backEdgePoll i) fun _ => [] :=
  .ite (.instr rfl (by simp [uses])) (.pure (by simp))

theorem supplies_branch {cond : Reg} {inverted : Bool}
    (hcond : ∃ t, (cond, t) ∈ s) (hsub : ∀ e ∈ r, e ∈ s) :
    Supplies c s (branch c.body i cond inverted target r) fun _ => [] := by
  refine .wired (wired_backEdgePoll i) fun _ => ?_
  refine supplies_edge hsub fun taken => ?_
  refine supplies_edge hsub fun next => ?_
  refine .ite ?_ ?_
  all_goals
    refine supplies_terminate (fun u hu => ?_) (by simp [Terminator.successors]) (by simp)
    grind [Terminator.uses]

theorem supplies_jump (hsub : ∀ e ∈ r, e ∈ s) :
    Supplies c s (jump c.body i target r) fun _ => [] := by
  refine .wired (wired_backEdgePoll i) fun _ => ?_
  refine supplies_edge hsub fun e => ?_
  exact supplies_terminate (by simp [Terminator.uses]; grind) (by simp [Terminator.successors]) nofun

theorem supplies_edges {α β : Type} (key : α → Int32) (target : α → Nat) {xs : List α}
    {f : List (Int32 × BlockCall) → Emit β} {s' : β → SymStack} (hsub : ∀ e ∈ r, e ∈ s)
    (hf : ∀ cases ways, (∀ p ∈ cases, p.2 ∈ ways) → (∀ e ∈ c.ways, e ∈ ways) →
      Supplies { c with ways } s (f cases) s') :
    Supplies c s ((xs.mapM fun x => return (key x, ← edge c.body (target x) r)) >>= f) s' := by
  induction xs generalizing c f with
  | nil => exact hf [] c.ways (by simp) fun _ he => he
  | cons x xs ih =>
    rw [mapM_cons, bind_assoc, bind_assoc]
    refine supplies_edge hsub fun e => ?_
    simp only [bind_assoc]
    exact @ih { c with ways := e :: c.ways } _ fun cases ways hmem hways =>
      hf _ _ (by grind) (by grind)

/-- The end of a block by a switch, once its key is at hand. -/
def switchOn (body : Body) (i : Instruction) (key : Reg) (default : Nat)
    (pairs : List (Int32 × Nat)) (s : SymStack) : Emit Unit := do
  backEdgePoll i
  let cases ← pairs.mapM fun (v, target) => return (v, ← edge body target s)
  terminate (.switch key cases (← edge body default s))

theorem supplies_switchOn {key : Reg} {default : Nat}
    {pairs : List (Int32 × Nat)} (hkey : ∃ t, (key, t) ∈ s) (hsub : ∀ e ∈ r, e ∈ s) :
    Supplies c s (switchOn c.body i key default pairs r) fun _ => [] := by
  refine .wired (wired_backEdgePoll i) fun _ => ?_
  refine supplies_edges Prod.fst Prod.snd (by grind) fun cases ways hmem _ => ?_
  refine supplies_edge (by grind) fun e => ?_
  exact supplies_terminate (by simp [Terminator.uses]; grind)
    (by simp [Terminator.successors]; grind) nofun

theorem supplies_lastWay {cases : List (Int32 × BlockCall)}
    (htag : (tag, t) ∈ s) (hways : ∀ p ∈ cases, p.2 ∈ c.ways) : Supplies c s (do
      let default ← newBlock (← currentHandler)
      terminate (.switch tag cases ⟨default, []⟩)) fun _ => [] := by
  intro o st a st' hin hs h
  obtain ⟨handler, hhandler, -, -, hcaught⟩ := hin.laid.currentHandler
  rw [bind_eq hhandler, bind_eq (newBlock_eq st handler)] at h
  cases h
  have hnew := hin.laid.addHandled True hcaught
  have hin' := hin.proceed hnew
  have hblk : (st.addHandled handler).function.block? st.nextBlock = some { handler } := by
    rw [block_addHandled, if_pos rfl]
  refine ⟨_, hnew.trans (hin'.laid.close ?_ ?_ nofun), nofun⟩
  · intro r hr
    simp only [Terminator.uses, append_nil, mem_cons, mem_flatMap] at hr
    rcases hr with rfl | ⟨p, hp, hr⟩
    · exact hnew.known _ (hs _ htag).2
    · exact (hin'.ways p.2 (hways p hp)).2 r hr
  · intro e he
    simp only [Terminator.successors, mem_append, mem_map, mem_singleton] at he
    rcases he with ⟨p, hp, rfl⟩ | rfl
    · exact (hin'.ways p.2 (hways p hp)).1
    · refine leads_nil hblk rfl (fun r hr => hnew.known r ?_) (by simp [add]) (by simp [add])
        hin.laid.nextBlock_pos
      simpa [add] using hr

/-- The table of a return, with a case for each place that it may go to and a block of its own for
all else. -/
def returnTable (body : Body) (tag : Reg) (s : SymStack) : Emit Unit := do
  let cases ← body.graph.returnSites.zipIdx.mapM fun (site, n) =>
    return (Int32.ofNat n, ← edge body site s)
  let default ← newBlock (← currentHandler)
  terminate (.switch tag cases ⟨default, []⟩)

theorem supplies_returnTable (htag : (tag, t) ∈ s)
    (hsub : ∀ e ∈ r, e ∈ s) : Supplies c s (returnTable c.body tag r) fun _ => [] :=
  supplies_edges (fun x => Int32.ofNat x.2) Prod.fst hsub fun _ _ hmem _ =>
    supplies_lastWay htag hmem

def leave (body : Body) (v : Option Reg) : Emit Unit :=
  match body.exit with
  | .result lock => do
    if let some object := lock then
      instr (.monitorExit object)
    terminate (.result v)
  | .inline continuation => terminate (.jump ⟨continuation, v.toList⟩)

theorem supplies_leave {v : Option Reg}
    (hsome : v.isSome = c.body.method.signature.resultType.isSome)
    (hv : ∀ e ∈ v.toList.zip c.body.method.signature.resultType.toList, e ∈ s) :
    Supplies c s (leave c.body v) fun _ => [] := by
  intro o st a st' hin hs h
  have hvalue : ∀ r, v = some r → ∃ t, c.body.method.signature.resultType = some t ∧
      st.function.regType? r = some t ∧ o.Here st r := by
    intro r hr
    rw [hr, Option.isSome_some, eq_comm, Option.isSome_iff_exists] at hsome
    obtain ⟨t, ht⟩ := hsome
    exact ⟨t, ht, hs (r, t) (hv _ (by simp [hr, ht]))⟩
  have hhere : ∀ r ∈ v.toList, o.Here st r := by
    intro r hr
    obtain ⟨t, -, -, hr⟩ := hvalue r (Option.mem_toList.mp hr)
    exact hr
  cases hexit : c.body.exit with
  | result lock =>
    obtain ⟨hresult, hlock⟩ := hin.frames.returns lock hexit
    have hclose : ∀ st₁, Proceeds o st o st₁ → Proceeds o st o (st₁.close (.result v)) := by
      intro st₁ hp
      refine hp.trans (hp.laid.close (fun r hr => hp.known r (hhere r hr)) nofun ?_)
      rintro w ⟨⟩
      rw [hp.result, hresult]
      refine ⟨hsome, fun r hr => ?_⟩
      obtain ⟨t, ht, hreg, -⟩ := hvalue r hr
      rw [ht]
      exact hp.regs r t hreg
    simp only [leave, hexit] at h
    cases lock with
    | none =>
      cases h
      exact ⟨o, hclose st (.refl hin.laid), nofun⟩
    | some object =>
      cases h
      refine ⟨o, hclose _ (hin.laid.addInstr ?_ nofun), nofun⟩
      intro r hr
      rw [mem_singleton.mp hr]
      exact hin.base object (hlock object rfl)
  | inline continuation =>
    simp only [leave, hexit] at h
    cases h
    obtain ⟨hjoin, hcoded, hpos, hgiven, blk, hblk, hparams⟩ := hin.frames.continues _ hexit
    refine ⟨o, hin.laid.close hhere ?_ nofun, nofun⟩
    intro e he
    rw [mem_singleton.mp he]
    refine ⟨⟨blk, _, hblk, ?_, hparams⟩, fun r hr => hin.base r (hgiven r hr),
      fun hj => absurd hj hjoin, fun _ => hcoded, hpos⟩
    cases v with
    | none =>
      cases hnone : c.body.method.signature.resultType with
      | none => rfl
      | some t =>
        rw [hnone] at hsome
        cases hsome
    | some r =>
      obtain ⟨t, ht, hreg, -⟩ := hvalue r rfl
      rw [ht]
      exact congrArg (· :: []) hreg

end ManagedCore.Emit
