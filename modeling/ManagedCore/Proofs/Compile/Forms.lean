import ManagedCore.Proofs.Compile.Calls

/-!
# Forms of instructions

The code of an instruction is free straight code, the use of a static field, a call, or the end of
its block. Whatever its form, it takes one symbolic stack to the next.
-/

namespace ManagedCore.Emit

open Outline

variable {c : Spot} {expand : Option Expander} {i : Instruction} {s : SymStack}

/-- Emission that ends the block of an instruction behind straight code, at places that the
instruction names. -/
inductive Ending (body : Body) (i : Instruction) : SymStack → Emit Unit → Prop where
  | throw {s : SymStack} (e : CompileError) : Ending body i s (throw e)
  | wired {s : SymStack} {α : Type} {x : Emit α} {s' : α → SymStack} {f : α → Emit Unit} :
      Wired 0 [] s x s' → (∀ a, Ending body i (s' a ++ s) (f a)) → Ending body i s (x >>= f)
  | branch {s r : SymStack} {cond : Reg} {inverted : Bool} {target : Nat} :
      (∃ t, (cond, t) ∈ s) → (∀ e ∈ r, e ∈ s) → target ∈ i.op.targets →
      Ending body i s (branch body i cond inverted target r)
  | jump {s r : SymStack} {target : Nat} : (∀ e ∈ r, e ∈ s) → target ∈ i.op.targets →
      Ending body i s (jump body i target r)
  | switch {s r : SymStack} {key : Reg} {default : Nat} {pairs : List (Int32 × Nat)} :
      (∃ t, (key, t) ∈ s) → (∀ e ∈ r, e ∈ s) → default ∈ i.op.targets →
      (∀ p ∈ pairs, p.2 ∈ i.op.targets) → Ending body i s (switchOn body i key default pairs r)
  | polledTable {s r : SymStack} {tag : Reg} : (tag, .i32) ∈ s → (∀ e ∈ r, e ∈ s) →
      Ending body i s (instr .safepoint >>= fun _ => returnTable body tag r)
  | table {s r : SymStack} {tag : Reg} : (tag, .i32) ∈ s → (∀ e ∈ r, e ∈ s) →
      (∀ site ∈ body.graph.returnSites, i.pc < site) → Ending body i s (returnTable body tag r)
  | leave {s : SymStack} {v : Option Reg} : v.isSome = body.method.signature.resultType.isSome →
      (∀ e ∈ v.toList.zip body.method.signature.resultType.toList, e ∈ s) →
      Ending body i s (leave body v)
  | terminate {s : SymStack} {t : Terminator} : (∀ r ∈ t.uses, ∃ t, (r, t) ∈ s) →
      t.successors = [] → (∀ v, t ≠ .result v) → Ending body i s (terminate t)

section

variable {body : Body} {i : Instruction} {target : Nat} (htarget : target ∈ i.op.targets)
  (s : SymStack)

include htarget

theorem ending_ifZero (k : Condition) : Ending body i s (ifZero body i k target s) := by
  refine .wired (wired_popTyped i.pc _ fun _ h => h) fun ⟨v, s₁⟩ => ?_
  refine .wired (wired_constInt 0) fun z => ?_
  refine .wired (wired_cmp _ (by grind) (by grind)) fun cond => ?_
  exact .branch (by grind) (by grind) htarget

theorem ending_ifCompare (t : ValueType) (op : CmpOp) :
    Ending body i s (ifCompare body i t op target s) := by
  refine .wired (wired_popTyped i.pc _ fun _ h => h) fun ⟨right, s₁⟩ => ?_
  refine .wired (wired_popTyped i.pc _ (by grind)) fun ⟨left, s₂⟩ => ?_
  refine .wired (wired_cmp _ (by grind) (by grind)) fun cond => ?_
  exact .branch (by grind) (by grind) htarget

theorem ending_ifNull (null : Bool) : Ending body i s (ifNull body i null target s) := by
  refine .wired (wired_popTyped i.pc _ fun _ h => h) fun ⟨v, s₁⟩ => ?_
  refine .wired (.value (by simp [Instr.uses]) fun _ => rfl) fun cond => ?_
  exact .branch (by grind) (by grind) htarget

theorem ending_callSubroutine : Ending body i s (callSubroutine body i target s) := by
  unfold callSubroutine
  split
  · exact .throw _
  · refine .wired (.push (by simp [Instr.uses]) (fun _ => rfl) fun _ => id) fun s₁ => ?_
    exact .jump (by grind) htarget

theorem ending_switch {pairs : List (Int32 × Nat)} (hpairs : ∀ p ∈ pairs, p.2 ∈ i.op.targets) :
    Ending body i s (switch body i target pairs s) :=
  .wired (wired_popTyped i.pc _ fun _ h => h) fun _ =>
    .switch (by grind) (by grind) htarget hpairs

end

section

variable (body : Body) (i : Instruction) (s : SymStack)

/-- A return from a subroutine polls unless it only goes to later places. -/
theorem ending_returnFromSubroutine (slot : Nat) :
    Ending body i s (returnFromSubroutine body i.pc slot s) := by
  unfold returnFromSubroutine
  dsimp only
  split
  · exact .throw _
  · refine .wired (silent_localSlot _ slot _ i.pc).wired fun slot => ?_
    refine .wired (.value (by simp [Instr.uses]) fun _ => rfl) fun tag => ?_
    split
    · exact .polledTable (by simp) (by grind)
    · rename_i hnot
      refine .table (by simp) (by grind) fun site hsite => Nat.lt_of_not_le fun hle => hnot ?_
      exact List.any_eq_true.mpr ⟨site, hsite, decide_eq_true hle⟩

/-- A return carries a value exactly when the method has a result. -/
theorem ending_result (op : Operation) (t : Option ValueType) :
    Ending body i s (result body i.pc op t s) := by
  unfold result
  dsimp only
  split
  · exact .throw _
  · rename_i ht
    have ht := Decidable.not_not.mp ht
    cases t with
    | none => exact .leave (by simp [← ht]) (by simp)
    | some t =>
      refine .wired (wired_popTyped i.pc _ fun _ h => h) fun ⟨v, s₁⟩ => ?_
      exact .leave (by simp [← ht]) (by simp [← ht])

theorem ending_throwTop : Ending body i s (throwTop i.pc s) := by
  refine .wired (wired_popTyped i.pc _ fun _ h => h) fun ⟨exception, s₁⟩ => ?_
  refine .wired (wired_nullCheck (by grind)) fun _ => ?_
  exact .terminate (by simp [Terminator.uses]) rfl nofun

end

inductive Access (body : Body) (pc : Nat) (s : SymStack) : Emit SymStack → Prop where
  | read (index : Nat) : Access body pc s (getStatic body pc index s)
  | write (index : Nat) : Access body pc s (putStatic body pc index s)

theorem Access.wired {body : Body} {pc : Nat} {x : Emit SymStack}
    (h : Access body pc s x) : Wired 1 [] s x id := by
  cases h with
  | read index => exact wired_getStatic body pc index s
  | write index => exact wired_putStatic body pc index s

/-- An instruction is free straight code, the use of a static field, a call, or the end of its
block. -/
inductive Form (body : Body) (i : Instruction) (s : SymStack) :
    (Option Expander → Emit (Option SymStack)) → Prop where
  | straight {x : Emit SymStack} : Wired 0 [] s x id → Form body i s fun _ => some <$> x
  | access {x : Emit SymStack} : Access body i.pc s x → Form body i s fun _ => some <$> x
  | invoke (op : Operation) (index : Nat) :
      Form body i s fun expand => some <$> invoke expand body i.pc op index s
  | ending {x : Emit Unit} : Ending body i s x → Form body i s fun _ => (fun _ => none) <$> x

theorem instruction_form (body : Body) (i : Instruction) (s : SymStack) :
    Form body i s fun expand => instruction expand body i s := by
  have hto : ∀ {target : Nat} {others : List Nat}, i.op.targets = target :: others →
      target ∈ i.op.targets := fun h => h ▸ List.mem_cons_self
  unfold instruction
  cases hop : i.op with
  | nop => exact .straight (.pure fun _ => id)
  | constNull | constInt | constLong | constFloat | constDouble | pushByte | pushShort =>
    exact .straight (.push (by simp [Instr.uses]) (fun _ => rfl) fun _ => id)
  | loadConst form index => exact .straight (wired_loadConst _ _ _ _ _ s)
  | load t slot => exact .straight (wired_load _ _ _ _ s)
  | store t slot => exact .straight (wired_store _ _ _ _ s)
  | increment slot delta =>
    have hform : Form body i s
        fun _ => some <$> (increment body i.pc slot delta >>= fun _ => Pure.pure s) :=
      .straight (.bind (wired_increment ..) fun _ => .pure fun _ => id)
    simp only [map_bind] at hform
    exact hform
  | arrayLoad form => exact .straight (wired_arrayLoad _ _ s)
  | arrayStore form => exact .straight (wired_arrayStore _ _ s)
  | arrayLength => exact .straight (wired_arrayLength _ s)
  | newArray code => exact .straight (wired_newPrimitiveArray _ _ _ s)
  | newRefArray index => exact .straight (wired_newRefArray _ _ _ s)
  | newMultiArray index dims => exact .straight (wired_newMultiArray _ _ _ _ s)
  | stack op => exact .straight (wired_stack _ _ s)
  | arith | bits => exact .straight (wired_binary _ _ _ s)
  | neg | convert | narrow =>
    exact .straight (wired_unary _ _ _ (fun _ _ => rfl) (fun _ _ => rfl) s)
  | compare k => exact .straight (wired_compare _ _ s)
  | getStatic index => exact .access (.read index)
  | putStatic index => exact .access (.write index)
  | getField index => exact .straight (wired_getField _ _ _ s)
  | putField index => exact .straight (wired_putField _ _ _ s)
  | invokeVirtual index | invokeSpecial index | invokeStatic index | invokeInterface index count =>
    exact .invoke _ index
  | new index => exact .straight (wired_newObject _ _ _ s)
  | checkCast index => exact .straight (wired_checkCast _ _ _ s)
  | instanceOf index => exact .straight (wired_instanceOf _ _ _ s)
  | monitorEnter | monitorExit => exact .straight (wired_monitor _ (fun _ => rfl) (fun _ => rfl) s)
  | ifZero k target => exact .ending (ending_ifZero (hto (by rw [hop]; rfl)) s k)
  | ifInt | ifRef => exact .ending (ending_ifCompare (hto (by rw [hop]; rfl)) s _ _)
  | ifNull null target => exact .ending (ending_ifNull (hto (by rw [hop]; rfl)) s null)
  | goto target => exact .ending (.jump (fun _ => id) (hto (by rw [hop]; rfl)))
  | jsr target => exact .ending (ending_callSubroutine (hto (by rw [hop]; rfl)) s)
  | ret slot => exact .ending (ending_returnFromSubroutine body i s slot)
  | tableSwitch default low targets =>
    refine .ending (ending_switch (hto (by rw [hop]; rfl)) s fun p hp => ?_)
    obtain ⟨⟨t, n⟩, ht, rfl⟩ := List.mem_map.mp hp
    rw [hop]
    exact List.mem_cons_of_mem _ ((List.mem_zipIdx ht).2.2 ▸ List.getElem_mem _)
  | lookupSwitch default pairs =>
    refine .ending (ending_switch (hto (by rw [hop]; rfl)) s fun p hp => ?_)
    rw [hop]
    exact List.mem_cons_of_mem _ (List.mem_map_of_mem hp)
  | result t => exact .ending (ending_result body i s _ t)
  | throw => exact .ending (ending_throwTop body i s)

theorem Ending.supplies {x : Emit Unit} (h : Ending c.body i s x) : Supplies c s x fun _ => [] := by
  induction h with
  | throw e => exact .throw
  | wired hx _ ih => exact .wired hx ih
  | branch hcond hsub _ => exact supplies_branch hcond hsub
  | jump hsub _ => exact supplies_jump hsub
  | switch hkey hsub _ _ => exact supplies_switchOn hkey hsub
  | polledTable htag hsub =>
    exact .wired (.instr rfl (by simp [Instr.uses])) fun _ => supplies_returnTable htag hsub
  | table htag hsub _ => exact supplies_returnTable htag hsub
  | leave hsome hv => exact supplies_leave hsome hv
  | terminate huses hend hresult =>
    exact supplies_terminate (fun r hr => .inl (huses r hr)) (by simp [hend]) hresult

theorem supplies_instruction (hexpand : ∀ e ∈ expand, Expands e)
    (hpc : c.pc = i.pc) (s : SymStack) :
    Supplies c s (instruction expand c.body i s) fun s' => s'.getD [] := by
  have hform := instruction_form c.body i s
  change Supplies c s ((fun e => instruction e c.body i s) expand) _
  generalize (fun e => instruction e c.body i s) = x at hform ⊢
  cases hform with
  | straight hx | ending hx => exact .map hx.supplies
  | access hx => exact .map hx.wired.supplies
  | invoke op index => exact .map (hpc ▸ supplies_invoke hexpand op index s)

end ManagedCore.Emit
