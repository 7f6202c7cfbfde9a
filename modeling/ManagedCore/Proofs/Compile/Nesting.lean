import ManagedCore.Proofs.Compile.Checks
import Mathlib.Data.List.Perm.Subperm

/-!
# Expansions within each other

The methods of a chain of expansions differ, so their number bounds its length whatever the
configuration allows, and each round of a body but the last takes up a block. Neither bound is felt:
a deeper limit or more rounds change nothing. Nor do expansions run out of local slots.
-/

namespace ManagedCore

namespace Emit

variable {α β : Type} {x y : Emit α} {st st' : EmitState} {body : Body}
  {expand expand' : Option Expander}

/-- Emission gives up no block it took up, and code below level 2 adds no local slots. -/
theorem Composed.kept {lv : Nat} (h : Composed lv 0 x) : ∀ st a st', x st = .ok a st' →
    st.emitted ⊆ st'.emitted ∧ (lv < 2 → st'.function.maxLocals = st.function.maxLocals) := by
  induction h with
  | aside _ hsame =>
    intro st a st' hx
    obtain ⟨hfun, hemitted⟩ := hsame st a st' hx
    exact ⟨hemitted, fun _ => by rw [hfun]⟩
  | newReg t _ ih =>
    intro st a st' hx
    obtain ⟨hemitted, hlocals⟩ := ih st.nextReg (Nat.zero_le _) (st.addReg t) a st' hx
    exact ⟨hemitted, hlocals⟩
  | instr | newBlock | newParam | terminate | setHandler =>
    rintro st a st' ⟨⟩
    exact ⟨fun _ => id, fun _ => rfl⟩
  | reframe hg =>
    rintro st a st' ⟨⟩
    exact ⟨fun _ => id, (hg _).2.2⟩
  | flowGraph code =>
    intro st graph st' hx
    obtain ⟨f, hof, rfl⟩ := flowGraph_ok hx
    obtain ⟨k, -, hdispatch⟩ := (FlowGraph.drawn_ofCode hof).blocks
    exact ⟨fun _ => id, fun _ => by rw [hdispatch.function]⟩
  | bind _ _ ihx ihf =>
    intro st b st' hx
    obtain ⟨a, mid, hmid, hrest⟩ := bind_ok hx
    obtain ⟨hemitted, hlocals⟩ := ihx _ _ _ hmid
    obtain ⟨hemitted', hlocals'⟩ := ihf a _ _ _ hrest
    exact ⟨List.Subset.trans hemitted hemitted', fun h => (hlocals' h).trans (hlocals h)⟩

/-! ## Rounds -/

section

variable (hexpand : Each (fun x _ => Composed 2 0 x) body expand expand)

include hexpand

theorem round_pending {nodes : List Node} (hnodes : nodes ⊆ body.graph.nodes)
    (h : round expand body nodes st = .ok true st') :
    (pending body st').length < (pending body st).length := by
  have hround : ∀ nodes, Composed 2 0 (round expand body nodes) :=
    (pervades_composed 0).round hexpand
  have hemitted := ((hround nodes).kept _ _ _ h).1
  induction nodes generalizing st with
  | nil => cases h
  | cons node rest ih =>
    obtain ⟨hnode, hrest⟩ := List.cons_subset.mp hnodes
    rcases round_cons h with ⟨b, ps, mid, _, hb, hnew, -, hblock, hlater, -⟩ | ⟨-, h⟩
    · obtain ⟨_, mid', hmark, hblock⟩ := bind_ok hblock
      cases hmark
      have hinstrs : Composed 2 0 (do
          setHandler b (handlerFor body node.instr.pc)
          switchTo b
          instructions expand body (node :: rest) ps.reverse) :=
        .bind (.setHandler _ _) fun _ => .bind (.switchTo b) fun _ =>
          (pervades_composed 0).instructions hexpand ..
      have htaken := (hinstrs.kept _ _ _ hblock).1 List.mem_cons_self
      exact pending_lt hemitted (List.mem_filterMap.mpr ⟨node, hnode, hb⟩) hnew
        (((hround rest).kept _ _ _ hlater).1 htaken)
    · exact ih hrest h hemitted

theorem rounds_more (k : Nat) {fuel : Nat} (hfuel : (pending body st).length < fuel) :
    rounds expand body (fuel + k) st = rounds expand body fuel st := by
  induction fuel generalizing st with
  | zero => cases hfuel
  | succ fuel ih =>
    rw [Nat.succ_add_eq_add_succ]
    refine bind_congr_ok rfl fun more mid hround => ?_
    cases more with
    | false => rfl
    | true => exact ih (by have := round_pending hexpand (fun _ => id) hround; omega)

end

/-! ## Chains -/

/-- From a state, two actions do the same and lead to states with a property. -/
def AgreeAt (J : EmitState → Prop) (st : EmitState) (x y : Emit α) : Prop :=
  x st = y st ∧ ∀ a st', x st = .ok a st' → J st'

theorem AgreeAt.bind {J : EmitState → Prop} {f g : α → Emit β} (hx : AgreeAt J st x y)
    (hf : ∀ a mid, x st = .ok a mid → J mid → AgreeAt J mid (f a) (g a)) :
    AgreeAt J st (x >>= f) (y >>= g) := by
  refine ⟨bind_congr_ok hx.1 fun a mid h => (hf a mid h (hx.2 a mid h)).1, fun b st' h => ?_⟩
  obtain ⟨a, mid, hmid, hrest⟩ := bind_ok h
  exact (hf a mid hmid (hx.2 a mid hmid)).2 b st' hrest

/-- The methods are as they were, and the local slots addressable. -/
def Kept (methods : Array Method) (st : EmitState) : Prop :=
  st.registry.methods = methods ∧ st.function.maxLocals ≤ 65535

variable {methods : Array Method}

theorem Composed.agree {lv : Nat} (h : Composed lv 0 x) (hlv : lv < 2) (hst : Kept methods st) :
    AgreeAt (Kept methods) st x x := by
  refine ⟨rfl, fun a st' hx => ⟨?_, ?_⟩⟩
  · rw [(h.learns.grown_ok hx).methods, hst.1]
  · rw [(h.kept st a st' hx).2 hlv]
    exact hst.2

/-- Expands where the chain of methods is in order: none is there twice, the outermost is among
them, and as many are within it as there are levels up to the limit. Elsewhere, or if the slots of
the method are not addressable, it does something else. -/
def nested (other : Expander) (root : MethodId) (limit : Nat) : Nat → Option Expander
  | 0 => none
  | left + 1 => some fun body pc m args st =>
    if (m.id :: body.chain).Nodup ∧ root ∈ body.chain ∧ body.chain.length + left = limit ∧
        ∀ code ∈ m.code, st.function.maxLocals + code.maxLocals ≤ 65535 then
      expandCall (nested other root limit left) body pc m args st
    else other body pc m args st

/-- Two expanders are none, or agree on the methods that fit. -/
def Match (methods : Array Method) (body : Body) (expand expand' : Option Expander) : Prop :=
  expand = none ∧ expand' = none ∨
    ∀ m pc args st, m.id < methods.size → fits body m st → Kept methods st →
      ∃ e e', expand = some e ∧ expand' = some e' ∧
        AgreeAt (Kept methods) st (e body pc m args) (e' body pc m args)

section

variable (hids : ∀ (n : MethodId) m, methods[n]? = some m → m.id = n) {root : MethodId}

include hids

theorem agree_invoke (pc : Nat) (op : Operation) (index : Nat) (s : SymStack)
    (hexpand : Match methods body expand expand') (hst : Kept methods st) :
    AgreeAt (Kept methods) st (invoke expand body pc op index s)
      (invoke expand' body pc op index s) := by
  have hself : ∀ {α : Type} {x : Emit α} {st : EmitState}, Straight 1 0 x → Kept methods st →
      AgreeAt (Kept methods) st x x := fun hx => hx.composed.agree (by decide)
  rw [invoke_eq, invoke_eq]
  refine (hself (silent_poolEntry ..).straight hst).bind fun member st₁ _ h₁ => ?_
  refine (hself (silent_liftExcept _).straight h₁).bind fun signature st₂ _ h₂ => ?_
  refine (hself (wired_popArguments ..).straight h₂).bind fun ⟨args, s₁⟩ st₃ _ h₃ => ?_
  refine (hself (straight_selectTarget ..) h₃).bind fun ⟨single, target⟩ st₄ htarget h₄ => ?_
  refine (hself Silent.get.straight h₄).bind fun _ _ hget _ => ?_
  cases hget
  have hplain := hself (straight_call target (args.map (·.1)) signature.resultType s₁) h₄
  obtain _ | m := single
  · exact hplain
  -- Only a method that fits is expanded, and the expanders agree on those alone.
  cases hfits : fits body m st₄ with
  | false =>
    have hnone : ∀ expand, expansion? expand body (some m) st₄ = none := by
      intro expand
      cases expand <;> simp [expansion?, hfits]
    simp only [hnone]
    exact hplain
  | true =>
    rcases hexpand with ⟨rfl, rfl⟩ | hexpand
    · exact hplain
    obtain ⟨⟨n, hn⟩, -⟩ := (selectTarget_ok htarget).2 m rfl
    rw [Registry.method?, h₃.1] at hn
    obtain ⟨hlt, -⟩ := Array.getElem?_eq_some_iff.mp hn
    obtain ⟨e, e', rfl, rfl, hagree⟩ := hexpand m pc args st₄ (hids n m hn ▸ hlt) hfits h₄
    have hsome : ∀ e, expansion? (some e) body (some m) st₄ = some (m, e) := by
      simp [expansion?, hfits]
    simp only [hsome, ← bind_pure_comp]
    exact hagree.bind fun _ _ _ hmid => hself .pure hmid

theorem pervades_agree : Pervades (Match methods)
    fun x y => ∀ st, Kept methods st → AgreeAt (Kept methods) st x y where
  composed h _ := (h 0).agree (by decide)
  bind hx hf st hst := (hx st hst).bind fun a mid _ => hf a mid
  access h _ := h.wired.straight.composed.agree (by decide)
  invoke pc op index s hexpand _ := agree_invoke hids pc op index s hexpand

/-- Each method of a chain but the first was found among the methods. -/
structure Chained (methods : Array Method) (root : MethodId) (chain : List MethodId) : Prop where
  nodup : chain.Nodup
  outermost : root ∈ chain
  found : ∀ n ∈ chain, n = root ∨ n < methods.size

omit hids in
theorem Chained.length_le {chain : List MethodId} (h : Chained methods root chain) :
    chain.length ≤ methods.size + 1 := by
  have hsub : chain.erase root ⊆ List.range methods.size := by
    intro n hn
    obtain ⟨hne, hmem⟩ := h.nodup.mem_erase_iff.mp hn
    exact List.mem_range.mpr ((h.found n hmem).resolve_left hne)
  have hle := (List.subperm_of_subset (h.nodup.erase root) hsub).length_le
  rw [List.length_erase_of_mem h.outermost, List.length_range] at hle
  omega

/-- The number of methods limits expansions no more than their chain does. -/
theorem match_nested (other : Expander) {limit left : Nat}
    (hchain : Chained methods root body.chain) (hleft : body.chain.length + left = limit + 1) :
    Match methods body (expander (min left (methods.size + 1 - body.chain.length)))
      (nested other root limit left) := by
  -- The chain grows as the levels that are left get fewer. It cannot grow beyond the methods there
  -- are, so where one more fits, the number of methods leaves room for it.
  induction left generalizing body with
  | zero => exact .inl ⟨by rw [Nat.zero_min, expander], rfl⟩
  | succ left ih =>
    refine .inr fun m pc args st hlt hfits hst => ?_
    obtain ⟨-, hnew, code, hcode, hroom⟩ := fits_ok hfits
    have hinner : Chained methods root (m.id :: body.chain) :=
      ⟨List.nodup_cons.mpr ⟨hnew, hchain.nodup⟩, List.mem_cons_of_mem _ hchain.outermost,
        List.forall_mem_cons.mpr ⟨.inr hlt, hchain.found⟩⟩
    have hle := hinner.length_le
    rw [List.length_cons] at hle
    have hmin : min (left + 1) (methods.size + 1 - body.chain.length) =
        min left (methods.size + 1 - (body.chain.length + 1)) + 1 := by omega
    refine ⟨_, _, by rw [hmin, expander], rfl, ?_⟩
    have hagree := (pervades_agree hids).expandCall (Q := AgreeAt (Kept methods) st) hcode
      (fun callee heq => by
        have hmatch := @ih callee (heq ▸ hinner) (by rw [heq, List.length_cons]; omega)
        rwa [heq, List.length_cons] at hmatch)
      (fun hrest => hrest st _ ⟨hst.1, hroom⟩) pc args
    refine ⟨hagree.1.trans (if_pos ⟨hinner.nodup, hchain.outermost, by omega, ?_⟩).symm, hagree.2⟩
    rintro _ hmem
    cases hcode.symm.trans hmem
    exact hroom

theorem agree_method (other : Expander) (m : Method) (code : Code) (hst : Kept methods st) :
    AgreeAt (Kept methods) st (method m code) (do
      let (graph, lock) ← front m code
      let limit := (← get).config.maxInlineDepth
      fillBody (nested other m.id limit limit) (.ofMethod m code graph lock)) := by
  rw [method_eq]
  refine ((composed_front m code).agree Nat.two_pos hst).bind fun ⟨graph, lock⟩ mid _ hmid => ?_
  have hchain : Chained methods m.id [m.id] :=
    ⟨List.pairwise_singleton .., List.mem_singleton_self _, List.forall_mem_singleton.mpr (.inl rfl)⟩
  let limit := mid.config.maxInlineDepth
  have hmatch : Match methods (.ofMethod m code graph lock)
      (expander (min limit mid.registry.methods.size)) (nested other m.id limit limit) := by
    rw [hmid.1]
    exact match_nested hids other hchain (Nat.add_comm ..)
  have hget : Composed 0 0 (get : Emit EmitState) := .get
  refine (hget.agree Nat.two_pos hmid).bind fun _ _ hmid' _ => ?_
  cases hmid'
  exact (pervades_agree hids).fillBody hmatch mid hmid

end

end Emit

open Emit in
/-- **Compilation ends under any configuration.** The only limit that expansions know is that of the
configuration: at each of them the chain of methods has no repetition and the compiled method in it,
and is as long as the expansion is deep, so nothing else is ever done in its place. More rounds would
fill no more blocks of any body. Local slots stay addressable. -/
theorem compile_ends {registry : Registry} (hbuilt : registry.Built) (config : Config) (m : Method)
    {code : Code} (hcode : m.code = some code) (hlocals : code.maxLocals ≤ 65535)
    (other : Expander) : (method m code (.ofMethod config registry m code) = (do
      let (graph, lock) ← front m code
      let limit := (← get).config.maxInlineDepth
      fillBody (nested other m.id limit limit) (.ofMethod m code graph lock))
        (.ofMethod config registry m code)) ∧
    (∀ depth body st k, rounds (expander depth) body (body.graph.starts.length + 1 + k) st =
      rounds (expander depth) body (body.graph.starts.length + 1) st) ∧
    ∀ compiled, (compile config registry m).1 = .ok compiled →
      compiled.function.maxLocals ≤ 65535 := by
  have hstart : Kept registry.methods (.ofMethod config registry m code) := ⟨rfl, hlocals⟩
  have hagree := agree_method hbuilt.orderly.methodId other m code hstart
  refine ⟨hagree.1, fun depth body st k => ?_, fun compiled h => ?_⟩
  · exact rounds_more (each_expander (pervades_composed 0) composed_grow depth) k
      (pending_lt_fuel body st)
  · obtain ⟨code', last, hcode', hmethod, hfun, -⟩ := compile_ok h
    cases hcode.symm.trans hcode'
    rw [hfun]
    exact (hagree.2 () last hmethod).2

/-- Two methods that call each other, each to be expanded in the other. -/
def parityClass : ClassDef :=
  let step (name : String) (atZero other : UInt8) : MethodDef :=
    .ofCode name "(I)I" (Flag.isPublic ||| Flag.isStatic ||| Flag.isInline)
      { bytes := [0x1a, 0x9a, 0x00, 0x05, atZero, 0xac, 0x1a, 0x04, 0x64, 0xb8, 0x00, other, 0xac]
        maxLocals := 1
        maxStack := 2 }
  { name := "Parity", superclass := some objectClass
    constants := #[.method ⟨"Parity", "even", "(I)I"⟩, .method ⟨"Parity", "odd", "(I)I"⟩]
    methods := [step "even" 0x04 1, step "odd" 0x03 0] }

def parity : Registry := (Registry.core.define parityClass).2

theorem parity_compiles : ((parity.method? 6).bind fun m => m.code.bind fun code =>
    (compile { maxInlineDepth := 100 } parity m).1.toOption.map fun compiled =>
      (code.maxLocals, compiled.stats.inlined)) = some (1, 1) := by
  decide +kernel

/-- One is expanded in the other once, however deep expansions may go. -/
theorem compile_ends_parity : ∃ m compiled, parity.method? 6 = some m ∧
    (compile { maxInlineDepth := 100 } parity m).1 = .ok compiled ∧ compiled.stats.inlined = 1 ∧
      compiled.function.maxLocals ≤ 65535 := by
  obtain ⟨m, hm, h⟩ := Option.bind_eq_some_iff.mp parity_compiles
  obtain ⟨code, hcode, h⟩ := Option.bind_eq_some_iff.mp h
  obtain ⟨compiled, hcompiled, h⟩ := Option.map_eq_some_iff.mp h
  obtain ⟨hlocals, hinlined⟩ := Prod.mk.inj h
  cases hok : (compile { maxInlineDepth := 100 } parity m).1 with
  | error e =>
    rw [hok] at hcompiled
    cases hcompiled
  | ok found =>
    rw [hok] at hcompiled
    cases hcompiled
    obtain ⟨-, -, haddressable⟩ := compile_ends (.define _ Registry.built_core)
      { maxInlineDepth := 100 } m hcode (by rw [hlocals]; decide) (Emit.expandCall none)
    exact ⟨m, compiled, hm, hok, hinlined, haddressable compiled hok⟩

end ManagedCore
