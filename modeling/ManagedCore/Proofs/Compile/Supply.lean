import ManagedCore.Proofs.Compile.Layout
import ManagedCore.Proofs.Compile.StraightLine

/-!
# Registers that emission supplies

Code that does not end its block is described by the typed registers that it needs and those that
it supplies. Registers that were at hand before stay at hand, so descriptions compose, and the code
of an instruction takes one symbolic stack to the next.
-/

namespace ManagedCore

open EmitState

/-- A body whose code is being added, the registers assigned all through it, and the offset of the
instruction at hand. -/
structure Spot where
  body : Body
  base : Reg → Prop
  pc : Nat
  /-- Registers to be assigned later. -/
  fresh : SymStack := []
  /-- Edges for the end of the block. -/
  ways : List BlockCall := []

/-- The function is left alone, and sites and classes are only added. -/
def EmitState.Beside (st st' : EmitState) : Prop :=
  st'.function = st.function ∧ st'.block = st.block ∧ st'.pc = st.pc ∧ st'.shapes = st.shapes ∧
    st'.emitted = st.emitted ∧ st.sites <+: st'.sites ∧ st.registry.Grown st'.registry

namespace Outline

variable {o o' : Outline} {st st' : EmitState} {base : Reg → Prop}

/-- What the code of a body leads to lies where the outline says. -/
structure Frames (o : Outline) (st : EmitState) (body : Body) (base : Reg → Prop) : Prop where
  graph : o.Graph body.graph base
  fallback : ∀ h, body.fallback = some h → o.Catches st h ∧ ∀ r, o.given h r → base r
  regions : ∀ region ∈ body.graph.regions, o.Catches st region.dispatch ∧
    o.given region.dispatch = base ∧ ¬ o.coded region.dispatch
  returns : ∀ lock, body.exit = .result lock →
    st.function.result = body.method.signature.resultType ∧ ∀ r, lock = some r → base r
  continues : ∀ c, body.exit = .inline c → ¬ o.joins c ∧ o.coded c ∧ 0 < c ∧
    (∀ r, o.given c r → base r) ∧ ∃ blk, st.function.block? c = some blk ∧
      st.function.HasTypes blk.params body.method.signature.resultType.toList
  routes : ∀ node ∈ body.graph.nodes,
    o.route (body.callPc.getD node.instr.pc) = Emit.handlerFor body node.instr.pc
  steady : ∀ node next rest, node :: next :: rest <:+ body.graph.nodes → next.block = none →
    Emit.handlerFor body next.instr.pc = Emit.handlerFor body node.instr.pc

structure Inside (o : Outline) (st : EmitState) (c : Spot) : Prop where
  laid : o.Laid st
  frames : o.Frames st c.body c.base
  base : ∀ r, c.base r → o.Here st r
  coded : o.coded st.block
  pc : st.pc = c.body.callPc.getD c.pc
  parsed : st.registry.Parsed
  fresh : ∀ e ∈ c.fresh, st.function.regType? e.1 = some e.2
  ways : ∀ e ∈ c.ways, o.Leads st e ∧ ∀ r ∈ e.args, o.Here st r

theorem Graph.keep {g : FlowGraph} (hg : o.Graph g base) (h : o.Laid st)
    (hk : Keeps o st o' st') : o'.Graph g base where
  joins b hb := by
    rw [hk.outline.joins b (h.join_lt (hg.joins b hb))]
    exact hg.joins b hb
  coded b hb := by
    rw [hk.outline.coded b (h.join_lt (hg.joins b hb))]
    exact hg.coded b hb
  given b hb := by
    rw [hk.outline.given b (h.join_lt (hg.joins b hb))]
    exact hg.given b hb
  behind := hg.behind

theorem Frames.keep {body : Body} (hf : o.Frames st body base)
    (h : o.Laid st) (hk : Keeps o st o' st') : o'.Frames st' body base where
  graph := hf.graph.keep h hk
  fallback x hx := by
    obtain ⟨hcatch, hgiven⟩ := hf.fallback x hx
    refine ⟨hcatch.keep hk, fun r hr => hgiven r ?_⟩
    rwa [hk.outline.given x hcatch.lt] at hr
  regions region hregion := by
    obtain ⟨hcatch, hgiven, hcoded⟩ := hf.regions region hregion
    rw [hk.outline.given _ hcatch.lt, hk.outline.coded _ hcatch.lt]
    exact ⟨hcatch.keep hk, hgiven, hcoded⟩
  returns lock hexit := by
    rw [hk.result]
    exact hf.returns lock hexit
  continues c hexit := by
    obtain ⟨hjoin, hcoded, hpos, hgiven, blk, hblk, htypes⟩ := hf.continues c hexit
    have hlt := lt_nextBlock hblk
    obtain ⟨blk', hblk', hparams⟩ := hk.params c blk hblk fun hj => absurd hj hjoin
    rw [hk.outline.joins c hlt, hk.outline.coded c hlt, hk.outline.given c hlt]
    exact ⟨hjoin, hcoded, hpos, hgiven, blk', hblk', hparams ▸ hasTypes_keep hk.regs htypes⟩
  routes node hnode := by
    rw [hk.outline.route]
    exact hf.routes node hnode
  steady := hf.steady

theorem parsed_keep (h : st.registry.Parsed) (hk : Keeps o st o' st') : st'.registry.Parsed :=
  h.grow hk.registry

theorem Leads.proceed {e : BlockCall} (h : o.Leads st e) (hp : Proceeds o st o' st')
    (hback : o'.coded st'.block → o.coded st.block) : o'.Leads st' e := by
  obtain ⟨⟨target, ts, htarget, hargs, hparams⟩, hgiven, hjoin, hto, hpos⟩ := h
  have hlt := lt_nextBlock htarget
  obtain ⟨target', htarget', heq⟩ := hp.params _ target htarget hjoin
  refine ⟨⟨target', ts, htarget', hasTypes_keep hp.regs hargs,
    heq ▸ hasTypes_keep hp.regs hparams⟩, fun r hr => ?_, fun hj => ?_, fun hcoded => ?_, hpos⟩
  · rw [hp.outline.given _ hlt] at hr
    exact hp.known r (hgiven r hr)
  · rw [hp.outline.joins _ hlt] at hj
    obtain ⟨ps, hps⟩ := Option.isSome_iff_exists.mp (hjoin hj)
    rw [hp.shapes _ ps hps]
    rfl
  · rw [hp.outline.coded _ hlt]
    exact hto (hback hcoded)

theorem Inside.proceed {c : Spot} (h : o.Inside st c) (hp : Proceeds o st o' st') :
    o'.Inside st' c where
  laid := hp.laid
  frames := h.frames.keep h.laid hp.toKeeps
  base r hr := hp.known r (h.base r hr)
  coded := hp.coded h.coded
  pc := hp.pc.trans h.pc
  parsed := parsed_keep h.parsed hp.toKeeps
  fresh e he := hp.regs _ _ (h.fresh e he)
  ways e he :=
    ⟨(h.ways e he).1.proceed hp fun _ => h.coded, fun r hr => hp.known r ((h.ways e he).2 r hr)⟩

theorem Laid.addValue (h : o.Laid st) {t : ValueType} {make : Reg → Instr}
    (huses : ∀ u ∈ (make st.nextReg).uses, o.Here st u)
    (hdest : (make st.nextReg).dest? = some st.nextReg)
    (hsite : ∀ site, (make st.nextReg).callSite? = some site → st.sites[site.number]? = some site) :
    Proceeds o st o (st.addValue t make) ∧ o.Holds (st.addValue t make) [(st.nextReg, t)] := by
  have hreg := h.addReg t
  have hinstr : Proceeds o (st.addReg t) o (st.addValue t make) :=
    hreg.laid.addInstr (fun u hu => hreg.known u (huses u hu)) hsite
  refine ⟨hreg.trans hinstr, fun e he => ?_⟩
  rw [List.mem_singleton.mp he]
  exact ⟨hinstr.regs _ _ regType_addReg, hreg.laid.here_addInstr hdest⟩

end Outline

namespace Emit

open Outline

variable {α β : Type} {c : Spot} {s : SymStack} {x : Emit α} {t : ValueType}
  {f : EmitState → EmitState} {g : EmitState → α}

/-- Whenever the first registers are at hand, the emission goes on with the second ones at hand
as well. -/
def Supplies (c : Spot) (s : SymStack) (x : Emit α) (s' : α → SymStack) : Prop :=
  ∀ o st a st', Inside o st c → o.Holds st s → x st = .ok a st' →
    ∃ o', Proceeds o st o' st' ∧ o'.Holds st' (s' a)

/-! ## Composition -/

theorem holds_append {o : Outline} {st : EmitState} {s t : SymStack} (hs : o.Holds st s)
    (ht : o.Holds st t) : o.Holds st (s ++ t) := by
  intro e he
  rcases List.mem_append.mp he with he | he
  · exact hs e he
  · exact ht e he

namespace Supplies

variable {s' : α → SymStack} {t : β → SymStack}

theorem bindWith {P : α → Prop} {f : α → Emit β} (hx : Supplies c s x s')
    (hP : ∀ st a st', x st = .ok a st' → P a)
    (hf : ∀ a, P a → Supplies c (s' a ++ s) (f a) t) : Supplies c s (x >>= f) t := by
  intro o st b st' hin hs h
  obtain ⟨a, mid, hmid, hrest⟩ := bind_ok h
  obtain ⟨o₁, hp₁, hs₁⟩ := hx o st a mid hin hs hmid
  obtain ⟨o₂, hp₂, hs₂⟩ := hf a (hP st a mid hmid) o₁ mid b st' (hin.proceed hp₁)
    (holds_append hs₁ (hs.proceed hp₁)) hrest
  exact ⟨o₂, hp₁.trans hp₂, hs₂⟩

theorem bind {f : α → Emit β} (hx : Supplies c s x s')
    (hf : ∀ a, Supplies c (s' a ++ s) (f a) t) : Supplies c s (x >>= f) t :=
  bindWith hx (fun _ _ _ _ => trivial) fun a _ => hf a

theorem throw {e : CompileError} : Supplies c s (throw e) s' := by
  intro o st b st' hin hs hx
  cases hx

theorem ite {p : Prop} [Decidable p] {y : Emit α} (hx : Supplies c s x s')
    (hy : Supplies c s y s') : Supplies c s (if p then x else y) s' := by
  split
  · exact hx
  · exact hy

theorem map {f : α → β} (hx : Supplies c s x fun a => t (f a)) : Supplies c s (f <$> x) t := by
  intro o st b st' hin hs h
  obtain ⟨a, ha, rfl⟩ := map_ok h
  exact hx o st a st' hin hs ha

end Supplies

/-! ## Steps without code -/

def last (x : Emit α) (st : EmitState) : EmitState :=
  match x st with
  | .ok _ st' => st'
  | .error _ st' => st'

structure Learns (x : Emit α) : Prop where
  grown : ∀ st : EmitState, st.registry.Grown (x.last st).registry

theorem Learns.of_ok (hx : ∀ st, x st = .ok (g st) (f st))
    (hf : ∀ st : EmitState, st.registry.Grown (f st).registry) : Learns x := by
  refine ⟨fun st => ?_⟩
  rw [last, hx st]
  exact hf st

theorem Learns.throw {e : CompileError} : Learns (throw e : Emit α) := ⟨fun _ => .same⟩

theorem Learns.bind {f : α → Emit β} (hx : Learns x) (hf : ∀ a, Learns (f a)) :
    Learns (x >>= f) := by
  refine ⟨fun st => ?_⟩
  have hfirst := hx.grown st
  have hlast : (x >>= f).last st = match x st with
      | .ok a mid => (f a).last mid
      | .error _ mid => mid := by
    change (match EStateM.bind x f st with
      | .ok _ st' => st'
      | .error _ st' => st') = _
    unfold EStateM.bind
    cases x st <;> rfl
  rw [hlast]
  unfold last at hfirst
  split <;> rename_i heq <;> rw [heq] at hfirst
  · exact hfirst.trans ((hf _).grown _)
  · exact hfirst

structure Silent (x : Emit α) : Prop where
  kept : ∀ st a st', x st = .ok a st' → st'.function = st.function ∧ st'.block = st.block ∧
    st'.pc = st.pc ∧ st'.shapes = st.shapes ∧ st'.emitted = st.emitted ∧
    st'.sites = st.sites ∧ st.registry.Grown st'.registry
  learns : Learns x

theorem Silent.bind {f : α → Emit β} (hx : Silent x) (hf : ∀ a, Silent (f a)) :
    Silent (x >>= f) := by
  refine ⟨fun st b st' h => ?_, hx.learns.bind fun a => (hf a).learns⟩
  obtain ⟨a, mid, hmid, hrest⟩ := bind_ok h
  obtain ⟨h₁, h₂, h₃, h₄, h₅, h₆, h₇⟩ := hx.kept st a mid hmid
  obtain ⟨g₁, g₂, g₃, g₄, g₅, g₆, g₇⟩ := (hf a).kept mid b st' hrest
  exact ⟨g₁.trans h₁, g₂.trans h₂, g₃.trans h₃, g₄.trans h₄, g₅.trans h₅, g₆.trans h₆,
    h₇.trans g₇⟩

theorem Silent.of_ok (hx : ∀ st, x st = .ok (g st) (f st))
    (hf : ∀ st, (f st).function = st.function ∧ (f st).block = st.block ∧ (f st).pc = st.pc ∧
      (f st).shapes = st.shapes ∧ (f st).emitted = st.emitted ∧ (f st).sites = st.sites ∧
      st.registry.Grown (f st).registry) : Silent x := by
  refine ⟨fun st b st' h => ?_, .of_ok hx fun st => (hf st).2.2.2.2.2.2⟩
  rw [hx st] at h
  cases h
  exact hf st

theorem Silent.pure {a : α} : Silent (pure a : Emit α) :=
  .of_ok (fun _ => rfl) fun _ => ⟨rfl, rfl, rfl, rfl, rfl, rfl, .same⟩

theorem Silent.throw {e : CompileError} : Silent (throw e : Emit α) where
  kept _ _ _ h := nomatch h
  learns := .throw

theorem Silent.get : Silent (get : Emit EmitState) :=
  .of_ok (fun _ => rfl) fun _ => ⟨rfl, rfl, rfl, rfl, rfl, rfl, .same⟩

theorem silent_liftExcept (r : Except CompileError α) : Silent (liftExcept r) := by
  cases r with
  | ok a => exact .pure
  | error e => exact .throw

theorem silent_poolEntry (body : Body) (pc : Nat) (read : Pool → Except PoolError α) :
    Silent (poolEntry body pc read) := by
  refine .bind (.bind .get fun _ => .pure) fun p => ?_
  split
  · exact .pure
  · exact .throw

theorem silent_bindsDirectly : Silent bindsDirectly := .bind .get fun _ => .pure

theorem silent_countBound : Silent countBound :=
  .of_ok (fun _ => rfl) fun _ => ⟨rfl, rfl, rfl, rfl, rfl, rfl, .same⟩

theorem silent_markNonNull (r : Reg) : Silent (markNonNull r) :=
  .of_ok (fun _ => rfl) fun _ => ⟨rfl, rfl, rfl, rfl, rfl, rfl, .same⟩

theorem silent_bound (body : Body) (index : Nat) (a : α) : Silent (bound body index a) := by
  exact .of_ok (fun _ => rfl) fun _ => ⟨rfl, rfl, rfl, rfl, rfl, rfl, .mark _ _ .same⟩

theorem silent_lazy (index : Nat) (symbol : Symbol) : Silent (lazy index symbol : Emit (Handle α)) := by
  exact .of_ok (fun _ => rfl) fun _ => ⟨rfl, rfl, rfl, rfl, rfl, rfl, .same⟩

theorem silent_lookupClass (name : String) : Silent (lookupClass name) :=
  .of_ok (fun _ => rfl) fun st => ⟨rfl, rfl, rfl, rfl, rfl, rfl,
    .arrays .same (Registry.arraysAdded_lookup st.registry name)⟩

theorem silent_arrayClass (component : FieldType) : Silent (arrayClass? component) :=
  .of_ok (fun _ => rfl) fun st => ⟨rfl, rfl, rfl, rfl, rfl, rfl,
    .arrays .same (Registry.arraysAdded_arrayClass st.registry component)⟩

theorem silent_classHandle (body : Body) (index pc : Nat) : Silent (classHandle body index pc) := by
  refine .bind (silent_poolEntry body pc _) fun name => ?_
  refine .bind silent_bindsDirectly fun direct => ?_
  split
  · refine .bind (silent_lookupClass name) fun found => ?_
    split
    · exact silent_bound body index _
    · exact silent_lazy index _
  · exact silent_lazy index _

theorem silent_arrayOfHandle (body : Body) (index pc : Nat) :
    Silent (arrayOfHandle body index pc) := by
  refine .bind (silent_poolEntry body pc _) fun name => ?_
  refine .bind silent_bindsDirectly fun direct => ?_
  split
  · refine .bind (silent_liftExcept _) fun component => ?_
    refine .bind (silent_lookupClass name) fun found => ?_
    split
    · refine .bind (silent_arrayClass component) fun array => ?_
      split
      · exact silent_bound body index _
      · exact silent_lazy index _
    · exact silent_lazy index _
  · exact silent_lazy index _

theorem silent_primitiveArrayHandle (component : FieldType) :
    Silent (primitiveArrayHandle component) := by
  refine .bind silent_bindsDirectly fun direct => ?_
  split
  · refine .bind (silent_arrayClass component) fun array => ?_
    split
    · exact .bind silent_countBound fun _ => .pure
    · exact silent_lazy 0 _
  · exact silent_lazy 0 _

theorem silent_boundClass (name : String) : Silent (boundClass name) := by
  refine .bind silent_bindsDirectly fun direct => ?_
  split
  · exact silent_lookupClass name
  · exact .pure

theorem silent_fieldRef (body : Body) (pc index : Nat) : Silent (fieldRef body pc index) :=
  .bind (silent_poolEntry body pc _) fun _ =>
    .bind (silent_liftExcept _) fun _ => .pure

theorem silent_localSlot (body : Body) (slot : Nat) (t : ValueType) (pc : Nat) :
    Silent (localSlot body slot t pc) := by
  unfold localSlot
  split
  · exact .throw
  · exact .pure

/-! ## Ends of blocks -/

theorem supplies_edge {target : Nat} {r : SymStack} {f : BlockCall → Emit α} {s' : α → SymStack}
    (hsub : ∀ e ∈ r, e ∈ s) (hf : ∀ e, Supplies { c with ways := e :: c.ways } s (f e) s') :
    Supplies c s (edge c.body target r >>= f) s' := by
  intro o st a st' hin hs h
  obtain ⟨e, mid, hmid, hrest⟩ := bind_ok h
  have hr : o.Holds st r := fun x hx => hs x (hsub x hx)
  obtain ⟨hp, hlead, -, hargs, -⟩ := hin.laid.edge hin.frames.graph hin.base hr hmid
  have hin' := hin.proceed hp
  have hhere : ∀ u ∈ e.args, o.Here mid u := by
    intro u hu
    rw [hargs, SymStack.regs, List.mem_reverse] at hu
    obtain ⟨x, hx, rfl⟩ := List.mem_map.mp hu
    exact hp.known _ (hr x hx).2
  obtain ⟨o', hp', hs'⟩ := hf e o mid a st'
    { hin' with ways := List.forall_mem_cons.mpr ⟨⟨hlead, hhere⟩, hin'.ways⟩ }
    (hs.proceed hp) hrest
  exact ⟨o', hp.trans hp', hs'⟩

theorem supplies_terminate {t : Terminator}
    (huses : ∀ r ∈ t.uses, (∃ t, (r, t) ∈ s) ∨ ∃ e ∈ c.ways, r ∈ e.args)
    (hways : ∀ e ∈ t.successors, e ∈ c.ways) (hresult : ∀ v, t ≠ .result v) :
    Supplies c s (terminate t) fun _ => [] := by
  intro o st a st' hin hs h
  cases h
  refine ⟨o, hin.laid.close (fun r hr => ?_) (fun e he => (hin.ways e (hways e he)).1)
    fun v hv => absurd hv (hresult v), nofun⟩
  rcases huses r hr with ⟨t, ht⟩ | ⟨e, he, hre⟩
  · exact (hs _ ht).2
  · exact (hin.ways e he).2 r hre

end Emit

end ManagedCore
