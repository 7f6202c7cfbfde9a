import ManagedCore.Proofs.Class.Search
import ManagedCore.Proofs.Compile.Instructions

/-!
# What the code of calls supplies

A call through a cache is made only after its site was added. An expanded call supplies the result
of the method that it replaces, so code behind it cannot tell the two apart.
-/

namespace ManagedCore.Emit

open EmitState Outline

variable {lv n : Nat} {c : Spot} {fresh s r : SymStack} {st st' : EmitState}
  {index : Nat} {member : MemberRef} {target : CallTarget} {body : Body}
  {resolved exact : Option Method} {m : Method} {expand : Option Expander} {o : Outline}

/-! ## Targets -/

theorem wired_cachedTarget (index : Nat) (member : MemberRef) :
    Wired lv fresh s (cachedTarget index member) fun _ => [] := by
  refine .aside (.of_ok (fun _ => rfl) fun _ => .same) fun st a st' h => ⟨?_, nofun⟩
  cases h
  exact ⟨rfl, rfl, rfl, rfl, rfl, List.prefix_append _ _, .same⟩

theorem silent_directTarget (body : Body) (index : Nat) (member : MemberRef)
    (resolved : Option Method) : Silent (directTarget body index member resolved) := by
  cases resolved with
  | some m => exact Silent.bind (silent_bound body index _) fun _ => .pure
  | none => exact Silent.bind (silent_lazy index _) fun _ => .pure

theorem wired_virtualTarget (body : Body) (index : Nat) (member : MemberRef)
    (cls : Option Class) (resolved : Option Method) :
    Wired lv fresh s (virtualTarget body index member cls resolved) fun _ => [] := by
  unfold virtualTarget
  split
  · refine .ite (silent_directTarget body index member _).wired (.ite ?_ ?_)
    · exact .bind (silent_bound body index _).wired fun _ => .pure nofun
    · exact .bind (wired_cachedTarget index member) fun _ => .pure nofun
  · exact .bind (wired_cachedTarget index member) fun _ => .pure nofun
  · exact .bind (silent_lazy index _).wired fun _ => .pure nofun

theorem wired_staticTarget (body : Body) (index : Nat) (member : MemberRef)
    (resolved : Option Method) :
    Wired lv fresh s (staticTarget body index member resolved) fun _ => [] := by
  have hrest : ∀ owner : Handle ClassRef, Wired lv fresh s (do
      initCheck owner
      directTarget body index member resolved) fun _ => [] := fun owner =>
    .bind (wired_initCheck owner) fun _ => (silent_directTarget body index member resolved).wired
  cases resolved with
  | some m => exact .bind (silent_bound body index _).wired hrest
  | none => exact .bind (silent_lazy index _).wired hrest

theorem wired_selectTarget (body : Body) (op : Operation) (index : Nat) (member : MemberRef) :
    Wired lv fresh s (selectTarget body op index member) fun _ => [] := by
  refine .bind (silent_boundClass _).wired fun cls => ?_
  refine .bind Silent.get.wired fun st => ?_
  split
  · exact wired_staticTarget body index member _
  · exact (silent_directTarget body index member _).wired
  · exact wired_virtualTarget body index member cls _
  · exact .bind (wired_cachedTarget index member) fun _ => .pure nofun

theorem straight_selectTarget (body : Body) (op : Operation) (index : Nat) (member : MemberRef) :
    Straight lv n (selectTarget body op index member) :=
  (wired_selectTarget (s := []) body op index member).straight

def Registered (sites : List CallSite) (target : CallTarget) : Prop :=
  ∀ site, target = .cached site → sites[site.number]? = some site

theorem cachedTarget_ok (h : cachedTarget index member st = .ok target st') :
    target = .cached ⟨st.sites.length, index, member⟩ ∧
      st'.sites = st.sites ++ [⟨st.sites.length, index, member⟩] := by
  cases h
  exact ⟨rfl, rfl⟩

theorem registered_cachedTarget (h : cachedTarget index member st = .ok target st') :
    Registered st'.sites target := by
  obtain ⟨rfl, hsites⟩ := cachedTarget_ok h
  rintro site ⟨⟩
  rw [hsites, List.getElem?_concat_length]

theorem directTarget_ok (h : directTarget body index member resolved st = .ok (exact, target) st') :
    exact = resolved ∧ ∃ handle, target = .direct handle ∧
      ∀ m, resolved = some m → handle = .resolved ⟨m.id, m.text⟩ := by
  cases resolved with
  | some m =>
    cases h
    exact ⟨rfl, _, rfl, by rintro _ ⟨⟩; rfl⟩
  | none =>
    cases h
    exact ⟨rfl, _, rfl, nofun⟩

theorem staticTarget_ok (h : staticTarget body index member resolved st = .ok (exact, target) st') :
    exact = resolved ∧ ∃ handle, target = .direct handle := by
  have hrest : ∀ (owner : Handle ClassRef) mid,
      (initCheck owner >>= fun _ => directTarget body index member resolved) mid =
        .ok (exact, target) st' → exact = resolved ∧ ∃ handle, target = .direct handle := by
    intro owner mid h
    obtain ⟨_, mid', -, h⟩ := bind_ok h
    obtain ⟨hexact, handle, htarget, -⟩ := directTarget_ok h
    exact ⟨hexact, handle, htarget⟩
  cases resolved with
  | some | none =>
    obtain ⟨owner, mid, -, h⟩ := bind_ok h
    exact hrest owner mid h

/-- The ways to call a virtual method, by what is known of it. -/
theorem virtualTarget_ok {cls : Option Class}
    (h : virtualTarget body index member cls resolved st = .ok (exact, target) st') :
    (∃ k m, cls = some k ∧ resolved = some m ∧ isExact k m ∧ exact = some m ∧
      target = .direct (.resolved ⟨m.id, m.text⟩)) ∨
    (∃ k m, cls = some k ∧ resolved = some m ∧ isExact k m = false ∧ m.isVirtual ∧ exact = none ∧
      target = .virtual (.resolved ⟨m.id, m.text⟩)) ∨
    ((∃ k, cls = some k ∧ ∀ m, resolved = some m → isExact k m = false ∧ m.isVirtual = false) ∧
      exact = none ∧ target = .cached ⟨st.sites.length, index, member⟩ ∧
      Registered st'.sites target) ∨
    (cls = none ∧ exact = none ∧ target = .virtual (.lazy index (.method member))) := by
  unfold virtualTarget at h
  split at h
  · rename_i k m
    split at h
    · rename_i hexact
      obtain ⟨rfl, handle, rfl, hhandle⟩ := directTarget_ok h
      exact .inl ⟨k, m, rfl, rfl, hexact, rfl, by rw [hhandle m rfl]⟩
    · rename_i hexact
      have hexact := Bool.eq_false_iff.mpr hexact
      split at h
      · rename_i hvirtual
        cases h
        exact .inr (.inl ⟨k, m, rfl, rfl, hexact, hvirtual, rfl, rfl⟩)
      · rename_i hvirtual
        obtain ⟨target', mid, hmid, hrest⟩ := bind_ok h
        cases hrest
        refine .inr (.inr (.inl ⟨⟨k, rfl, ?_⟩, rfl, (cachedTarget_ok hmid).1,
          registered_cachedTarget hmid⟩))
        rintro _ ⟨⟩
        exact ⟨hexact, Bool.eq_false_iff.mpr hvirtual⟩
  · rename_i k
    obtain ⟨target', mid, hmid, hrest⟩ := bind_ok h
    cases hrest
    exact .inr (.inr (.inl ⟨⟨k, rfl, nofun⟩, rfl, (cachedTarget_ok hmid).1,
      registered_cachedTarget hmid⟩))
  · cases h
    exact .inr (.inr (.inr ⟨rfl, rfl, rfl⟩))

/-- Whatever the instruction, a target known exactly is the method found, and one behind a cache
has its site. -/
theorem selectTarget_ok {op : Operation}
    (h : selectTarget body op index member st = .ok (exact, target) st') :
    Registered st'.sites target ∧ ∀ m, exact = some m →
      (∃ n, st.registry.method? n = some m) ∧ m.descriptor = member.descriptor := by
  obtain ⟨cls, mid, hmid, h⟩ := bind_ok h
  have h := get_ok h
  have hfound : ∀ m, cls.bind (mid.registry.findMethod? · member.name member.descriptor) = some m →
      (∃ n, st.registry.method? n = some m) ∧ m.descriptor = member.descriptor := by
    intro m hm
    obtain ⟨k, -, hm⟩ := Option.bind_eq_some_iff.mp hm
    obtain ⟨⟨n, hn⟩, -, hdescriptor⟩ := Registry.findMethod_some hm
    obtain ⟨-, -, -, -, -, -, hregistry⟩ := (silent_boundClass _).kept st _ mid hmid
    rw [Registry.method?, hregistry.methods] at hn
    exact ⟨⟨n, hn⟩, hdescriptor⟩
  split at h
  · obtain ⟨rfl, handle, rfl⟩ := staticTarget_ok h
    exact ⟨by rintro _ ⟨⟩, hfound⟩
  · obtain ⟨rfl, handle, rfl, -⟩ := directTarget_ok h
    exact ⟨by rintro _ ⟨⟩, hfound⟩
  · rcases virtualTarget_ok h with ⟨k, m, -, hm, -, rfl, rfl⟩ | ⟨k, m, -, -, -, -, rfl, rfl⟩ |
      ⟨-, rfl, -, hsite⟩ | ⟨-, rfl, rfl⟩
    · refine ⟨by rintro _ ⟨⟩, ?_⟩
      rintro _ ⟨⟩
      exact hfound m hm
    · exact ⟨by rintro _ ⟨⟩, by rintro _ ⟨⟩⟩
    · exact ⟨hsite, by rintro _ ⟨⟩⟩
    · exact ⟨by rintro _ ⟨⟩, by rintro _ ⟨⟩⟩
  · obtain ⟨target', mid', hmid', hrest⟩ := bind_ok h
    cases hrest
    exact ⟨registered_cachedTarget hmid', by rintro _ ⟨⟩⟩

/-! ## Arguments -/

theorem wired_popArguments (pc : Nat) (hasReceiver : Bool) (types : List ValueType) (s : SymStack) :
    Wired lv fresh s (popArguments pc hasReceiver types s) fun p => p.1 ++ p.2 := by
  refine .bind (wired_popAll pc types fun _ h => h) fun ⟨regs, s₁⟩ => ?_
  refine .ite ?_ (.pure (by grind))
  refine .popped (by grind) fun receiver s₂ => ?_
  exact .bind (wired_nullCheck (by grind)) fun _ => .pure (by grind)

theorem wired_storeArguments {args : List (Reg × ValueType)} {slot : Nat}
    (h : ∀ e ∈ args, e ∈ s) : Wired lv [] s (storeArguments slot args) fun _ => [] := by
  induction args generalizing slot with
  | nil => exact .pure nofun
  | cons arg rest ih =>
    obtain ⟨hfirst, hrest⟩ := List.forall_mem_cons.mp h
    refine .bind (.instr rfl fun r hr => ?_) fun _ => ih hrest
    rw [List.mem_singleton.mp hr]
    exact ⟨arg.2, hfirst⟩

/-! ## Calls -/

theorem supplies_call {args : List Reg} {t : Option ValueType} {a : SymStack}
    (hin : o.Inside st c) (hs : o.Holds st s) (hargs : ∀ r ∈ args, ∃ t, (r, t) ∈ s)
    (hsub : ∀ e ∈ r, e ∈ s) (hsite : Registered st.sites target)
    (h : call target args t r st = .ok a st') : ∃ o', Proceeds o st o' st' ∧ o'.Holds st' a := by
  have hhere : ∀ u ∈ args, o.Here st u := by
    intro u hu
    obtain ⟨t, ht⟩ := hargs u hu
    exact (hs _ ht).2
  have hcached : ∀ dest site, (Instr.call dest target args).callSite? = some site →
      st.sites[site.number]? = some site := by
    intro dest site hcall
    cases target with
    | cached site' =>
      cases hcall
      exact hsite _ rfl
    | direct | virtual => cases hcall
  cases t with
  | none =>
    cases h
    have hp : Proceeds o st o (st.addInstr (.call none target args)) :=
      hin.laid.addInstr hhere (hcached none)
    exact ⟨o, hp, fun e he => hs.proceed hp e (hsub e he)⟩
  | some t =>
    cases h
    obtain ⟨hp, hnew⟩ : Proceeds o st o (st.addValue t fun d => .call (some d) target args) ∧
        o.Holds (st.addValue t fun d => .call (some d) target args) [(st.nextReg, t)] :=
      hin.laid.addValue hhere rfl (hcached _)
    exact ⟨o, hp, List.forall_mem_cons.mpr ⟨hnew _ List.mem_cons_self, fun e he =>
      hs.proceed hp e (hsub e he)⟩⟩

def Expands (expand : Expander) : Prop :=
  ∀ (c : Spot) (s : SymStack) (m : Method) (args : List (Reg × ValueType)) (limit : Nat),
    (∀ e ∈ args, e ∈ s) → m.isInlinable limit → Supplies c s (expand c.body c.pc m args) fun v =>
      v.toList.zip m.signature.resultType.toList

def fits (body : Body) (m : Method) (st : EmitState) : Bool := m.code.any fun code =>
  m.isInlinable st.config.maxInlineLength && !body.chain.contains m.id &&
    m.loader == body.method.loader && st.function.maxLocals + code.maxLocals ≤ 65535

theorem canExpand_eq : canExpand body m st = .ok (fits body m st) st := by
  unfold canExpand fits
  cases m.code <;> rfl

theorem fits_ok (h : fits body m st) :
    m.isInlinable st.config.maxInlineLength ∧ m.id ∉ body.chain ∧
      ∃ code, m.code = some code ∧ st.function.maxLocals + code.maxLocals ≤ 65535 := by
  obtain ⟨code, hcode, h⟩ := (Option.any_eq_true _ _).mp h
  simp only [Bool.and_eq_true, Bool.not_eq_true', List.contains_eq_mem, decide_eq_true_eq,
    decide_eq_false_iff_not] at h
  exact ⟨h.1.1.1, h.1.1.2, code, hcode, h.2⟩

/-- The method that takes the place of a call, and what expands it. -/
def expansion? (expand : Option Expander) (body : Body) (single : Option Method) (st : EmitState) :
    Option (Method × Expander) := do
  let m ← single
  let e ← expand
  if fits body m st then some (m, e) else none

theorem expansion?_some {single : Option Method} {e : Expander}
    (h : expansion? expand body single st = some (m, e)) :
    single = some m ∧ expand = some e ∧ fits body m st := by
  obtain ⟨m', hm, h⟩ := Option.bind_eq_some_iff.mp h
  obtain ⟨e', he, h⟩ := Option.bind_eq_some_iff.mp h
  obtain ⟨hfits, rfl, rfl⟩ : fits body m' st ∧ m' = m ∧ e' = e := by simpa using h
  exact ⟨hm, he, hfits⟩

theorem invoke_eq (expand : Option Expander) (body : Body) (pc : Nat) (op : Operation) (index : Nat)
    (s : SymStack) : invoke expand body pc op index s = (do
      let member ← poolEntry body pc (·.method index)
      let signature ← liftExcept ((Signature.parse member.descriptor).mapError .descriptor)
      let (args, s) ← popArguments pc (!isStaticCall op) signature.paramTypes s
      let (single, target) ← selectTarget body op index member
      match expansion? expand body single (← get) with
      | none => call target (args.map (·.1)) signature.resultType s
      | some (m, e) =>
        (fun v => v.toList.zip signature.resultType.toList ++ s) <$> e body pc m args) := by
  refine bind_congr fun member => bind_congr fun signature => bind_congr fun ⟨args, s⟩ =>
    bind_congr fun ⟨single, target⟩ => funext fun st => ?_
  obtain _ | m := single
  · rfl
  obtain _ | e := expand
  · rfl
  refine (bind_eq canExpand_eq).trans ?_
  change _ = (match if fits body m st then some (m, e) else none with
    | none => _
    | some (m, e) => _ : Emit SymStack) st
  cases fits body m st with
  | false => rfl
  | true =>
    simp only [if_true, ← bind_pure_comp]
    refine congrFun (bind_congr fun v => ?_) st
    cases v <;> cases signature.resultType <;> rfl

theorem supplies_invoke (hexpand : ∀ e ∈ expand, Expands e) (op : Operation) (index : Nat)
    (s : SymStack) : Supplies c s (invoke expand c.body c.pc op index s) id := by
  rw [invoke_eq]
  refine .wired (silent_poolEntry _ _ _).wired fun member => ?_
  refine .bindWith (show Wired 0 _ _ _ _ from (silent_liftExcept _).wired).supplies
    (fun _ _ _ h => (liftExcept_ok h).1) fun signature hsignature => ?_
  refine .wired (wired_popArguments _ _ _ s) fun ⟨args, s₁⟩ => ?_
  intro o st a st' hin hs h
  obtain ⟨⟨exact, target⟩, mid, hmid, h⟩ := bind_ok h
  have htarget : Wired 0 [] (args ++ s₁ ++ s) (selectTarget c.body op index member) fun _ => [] :=
    wired_selectTarget ..
  obtain ⟨o₁, hp₁, -⟩ := htarget.supplies o st _ mid hin hs hmid
  obtain ⟨hsite, hfound⟩ := selectTarget_ok hmid
  have hin₁ := hin.proceed hp₁
  have hs₁ := hs.proceed hp₁
  have h := get_ok h
  cases hexp : expansion? expand c.body exact mid with
  | none =>
    simp only [hexp] at h
    obtain ⟨o₂, hp₂, hs₂⟩ := supplies_call hin₁ hs₁ (by grind) (by grind) hsite h
    exact ⟨o₂, hp₁.trans hp₂, hs₂⟩
  | some found =>
    obtain ⟨m, e⟩ := found
    simp only [hexp] at h
    obtain ⟨v, hv, rfl⟩ := map_ok h
    obtain ⟨hm, he, hfits⟩ := expansion?_some hexp
    obtain ⟨o₂, hp₂, hs₂⟩ := hexpand e he c (args ++ s₁ ++ s) m args _ (fun e he => by simp [he])
      (fits_ok hfits).1 o₁ mid v st' hin₁ hs₁ hv
    obtain ⟨⟨n, hn⟩, hdescriptor⟩ := hfound m hm
    have hparsed := hin.parsed n m hn
    rw [hdescriptor, Except.mapError_ok hsignature, Except.ok.injEq] at hparsed
    rw [← hparsed] at hs₂
    exact ⟨o₂, hp₁.trans hp₂, List.forall_mem_append.mpr
      ⟨hs₂, fun e he => hs₁.proceed hp₂ e (by simp [he])⟩⟩

theorem straight_call (target : CallTarget) (args : List Reg) (t : Option ValueType)
    (s : SymStack) : Straight (lv + 1) n (call target args t s) := by
  cases t with
  | none => exact .bind (straight_instr rfl) fun _ => .pure
  | some t => exact .bind (straight_value _ _ fun _ => rfl) fun _ => .pure

end ManagedCore.Emit
