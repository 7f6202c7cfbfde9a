import ManagedCore.Proofs.Class.Hierarchy
import ManagedCore.Proofs.Compile.Entry

/-!
# Whole methods

The code in front of a body stores the arguments, takes the monitor of a synchronized method and
checks the stack. With the layout of the body it makes the layout of a whole function, in which
nothing is assigned before the entry, so every way through the function assigns what it reads.
-/

namespace ManagedCore

open EmitState Emit FlowGraph List

namespace Outline

variable {o o' : Outline} {st st' : EmitState} {ts : List ValueType} {regs : List Reg}

/-! ## Ways through a function -/

theorem Laid.known_of_walk (h : o.Laid st) (hentry : ∀ r, ¬ o.given st.function.entry r)
    {b i : Nat} {rs : List Reg} (hw : st.function.Walk b i rs) {blk : Block}
    (hblk : st.function.block? b = some blk) {r : Reg} (hr : o.Known b blk i r) : r ∈ rs := by
  induction hw generalizing blk with
  | entry hb =>
    cases hb.symm.trans hblk
    rcases hr with hgiven | hparam | ⟨j, p, hj, -⟩
    · exact absurd hgiven (hentry r)
    · exact hparam
    · exact absurd hj (Nat.not_lt_zero j)
  | @next b i rs found p _ hb hp ih =>
    cases hb.symm.trans hblk
    rcases hr with hgiven | hparam | ⟨j, q, hj, hq, hdest⟩
    · exact mem_append_right _ (ih hb (.inl hgiven))
    · exact mem_append_right _ (ih hb (.inr (.inl hparam)))
    · rcases Nat.lt_succ_iff_lt_or_eq.mp hj with hj | rfl
      · exact mem_append_right _ (ih hb (.inr (.inr ⟨j, q, hj, hq, hdest⟩)))
      · cases hp.symm.trans hq
        exact mem_append_left _ (Option.mem_toList.mpr hdest)
  | @jump b rs source target c _ hb hc htarget ih =>
    cases htarget.symm.trans hblk
    rcases hr with hgiven | hparam | ⟨j, p, hj, -⟩
    · obtain ⟨-, hknown, -⟩ := (h.blocks _ _ hb).edges c hc
      exact mem_append_right _ (ih hb (hknown r hgiven))
    · exact mem_append_left _ hparam
    · exact absurd hj (Nat.not_lt_zero j)
  | @fault b i x rs source target _ hb hx htarget ih =>
    cases htarget.symm.trans hblk
    rcases hr with hgiven | hparam | ⟨j, p, hj, -⟩
    · obtain ⟨-, hknown⟩ := (h.blocks _ _ hb).caught x hx
      exact mem_append_right _
        (ih hb ((hknown r hgiven).mono rfl (.refl _) (Nat.zero_le i)))
    · exact mem_append_left _ hparam
    · exact absurd hj (Nat.not_lt_zero j)

/-- A layout in which nothing is assigned before the entry is one of a well-formed function. -/
theorem Laid.wellFormed (h : o.Laid st) (hentry : ∀ r, ¬ o.given st.function.entry r)
    {blk : Block} (hblk : st.function.block? st.function.entry = some blk) :
    st.function.WellFormed where
  entry := ⟨blk, hblk⟩
  edges b found hb c hc := by
    obtain ⟨⟨target, ts, htarget, hargs, hparams⟩, -⟩ := (h.blocks b found hb).edges c hc
    exact ⟨target, ts, htarget, hargs, hparams⟩
  handlers b found x hb hx := by
    obtain ⟨⟨-, -, target, r, htarget, hparams, hr⟩, -⟩ := (h.blocks b found hb).caught x hx
    exact ⟨target, r, htarget, hparams, hr⟩
  results b found v hb hv := (h.blocks b found hb).results v hv
  assigned b i rs found hw hb r hr := by
    refine h.known_of_walk hentry hw hb ?_
    unfold Function.reads at hr
    split at hr
    · rename_i p hp
      exact (h.blocks b found hb).reads i p hp r hr
    · rename_i hnone
      exact ((h.blocks b found hb).ends r hr).mono rfl (.refl _)
        (Array.getElem?_eq_none_iff.mp hnone)

/-! ## Arguments -/

def empty (route : Nat → Option BlockId) : Outline :=
  ⟨fun _ _ => False, fun _ => False, fun _ => False, route⟩

theorem mem_argumentStores {i : Instr} {slot r : Nat}
    (h : i ∈ argumentStores slot r ts) : ∃ s u, i = .storeLocal s u ∧ u ∈ range' r ts.length := by
  induction ts generalizing slot r with
  | nil => cases h
  | cons t ts ih =>
    rcases mem_cons.mp h with rfl | h
    · exact ⟨slot, r, rfl, mem_cons_self⟩
    · obtain ⟨s, u, hi, hu⟩ := ih h
      exact ⟨s, u, hi, mem_cons_of_mem _ hu⟩

theorem parameters_regs {b slot : Nat} (h : method.parameters b slot ts st = .ok regs st') :
    regs = range' st.nextReg ts.length := by
  induction ts generalizing st slot regs with
  | nil =>
    cases h
    rfl
  | cons t ts ih =>
    let mid := (st.addParam b t).addInstr (.storeLocal slot st.nextReg)
    have hrest : (method.parameters b (slot + t.slots) ts >>= fun rest =>
        pure (st.nextReg :: rest)) mid = .ok regs st' := h
    obtain ⟨rest, last, hparams, hregs⟩ := bind_ok hrest
    cases hregs
    rw [ih hparams, length_cons, range'_succ,
      show mid.nextReg = st.nextReg + 1 from Array.size_push _]

theorem laid_withArguments {route : Nat → Option BlockId}
    (hblock : st.block = 0) (hshapes : st.shapes = []) (hemitted : st.emitted = []) (slot : Nat) :
    (empty route).Laid (withArguments st slot ts {}) ∧
      ∀ r ∈ range' st.nextReg ts.length, (empty route).Here (withArguments st slot ts {}) r := by
  let instrs := ((argumentStores slot st.nextReg ts).map (PlacedInstr.mk · st.pc)).toArray
  let entry : Block := { params := range' st.nextReg ts.length, instrs }
  have hentry : ∀ b blk, (withArguments st slot ts {}).function.block? b = some blk ↔
      b = 0 ∧ blk = entry := by
    intro b blk
    have hblocks : (withArguments st slot ts {}).function.block? b = #[entry][b]? := by
      change #[_][b]? = _
      simp only [Array.empty_append]
      rfl
    rw [hblocks]
    cases b with
    | zero => simp [eq_comm]
    | succ b => simp
  have hinstr : ∀ p ∈ entry.instrs, ∃ s u, p.instr = .storeLocal s u ∧ u ∈ entry.params := by
    intro p hp
    obtain ⟨i, hi, rfl⟩ := mem_map.mp (mem_toArray.mp hp)
    exact mem_argumentStores hi
  have hok : (empty route).BlockOk (withArguments st slot ts {}) 0 entry := by
    refine ⟨fun k p hp r hr => .inr (.inl ?_), nofun, nofun, nofun, nofun, nofun, ?_⟩
    · obtain ⟨s, u, hi, hu⟩ := hinstr p (Array.mem_of_getElem? hp)
      rw [hi] at hr
      rwa [mem_singleton.mp hr]
    · intro p hp site hsite
      obtain ⟨s, u, hi, -⟩ := hinstr p hp
      rw [hi] at hsite
      cases hsite
  refine ⟨⟨fun b blk hb => ?_, nofun, ?_, nofun, ?_, nofun, entry, ?_, nofun⟩, fun r hr => ?_⟩
  · obtain ⟨rfl, rfl⟩ := (hentry b blk).mp hb
    exact hok
  · intro b ps hps
    rw [show (withArguments st slot ts {}).shapes = [] from hshapes] at hps
    cases hps
  · intro b hb
    rw [show (withArguments st slot ts {}).emitted = [] from hemitted] at hb
    cases hb
  · exact (hentry _ _).mpr ⟨hblock, rfl⟩
  · exact ⟨entry, (hentry _ _).mpr ⟨hblock, rfl⟩, .inr (.inl hr)⟩

theorem acquired_withArguments {m : Method} {lock : Option (Reg × BlockId)} (hblock : st.block = 0)
    (hregs : method.parameters 0 0 m.paramTypes st =
      .ok regs (withArguments st 0 m.paramTypes {}))
    (h : acquire m regs (withArguments st 0 m.paramTypes {}) = .ok lock st') :
    Acquired m (withArguments st 0 m.paramTypes {}) lock st' := by
  have heq := parameters_regs hregs
  refine acquired_acquire hblock rfl rfl (fun p hp => ?_) heq.symm
    (heq ▸ nodup_range') (fun r hr => ?_) ?_ h
  · rw [Array.empty_append] at hp
    obtain ⟨i, hi, rfl⟩ := mem_map.mp (mem_toArray.mp hp)
    obtain ⟨s, u, rfl, -⟩ := mem_argumentStores hi
    rfl
  · rw [heq] at hr
    change r < (st.function.regTypes ++ m.paramTypes.toArray).size
    rw [Array.size_append]
    exact (mem_range'_1.mp hr).2
  · intro hstatic
    rw [heq, Method.paramTypes, hstatic]
    nofun

/-! ## Monitors of synchronized methods -/

end Outline

def Function.Releases (f : Function) (object : Reg) (unwind : BlockId) : Prop :=
  ∃ blk x pc, f.block? unwind = some blk ∧ blk.params = [x] ∧
    blk.instrs = #[⟨.monitorExit object, pc⟩] ∧ blk.terminator = .resume x ∧ blk.handler = none

namespace Outline

variable {o o' : Outline} {st st' : EmitState}

/-- No block but those in front of the body is there, and the monitor, if there is one, is taken
at the end of the entry block. -/
structure Locked (o : Outline) (st : EmitState) (lock : Option (Reg × BlockId)) : Prop where
  laid : o.Laid st
  joins : ∀ b, ¬ o.joins b
  coded : ∀ b, ¬ o.coded b
  entry : ∃ blk, st.function.block? 0 = some blk
  unwinds : ∀ object unwind, lock = some (object, unwind) →
    o.Here { st with block := 0 } object ∧ o.Catches st unwind ∧
      (∀ r, o.given unwind r → o.Here { st with block := 0 } r) ∧
      st.function.Releases object unwind ∧ unwind ≠ 0

theorem Laid.unwind {object : Reg} (h : o.Laid st) (hblock : st.block = 0)
    (hjoins : ∀ b, ¬ o.joins b) (hcoded : ∀ b, ¬ o.coded b) (hobject : o.Here st object) :
    ∃ o', Keeps o st o' (st.addUnwind object) ∧
      o'.Locked (st.addUnwind object) (some (object, st.nextBlock)) := by
  let new := st.addContinuation none (some .ref)
  let last := st.addUnwind object
  let o' := o.add st.nextBlock (o.Here st) False
  have hzero : 0 < st.nextBlock := hblock ▸ lt_nextBlock h.here.choose_spec.1
  have hne : 0 ≠ st.nextBlock := Nat.ne_of_lt hzero
  have hjoins' : ∀ b, ¬ o'.joins b := fun b hj => hjoins b hj.2
  have hcoded' : ∀ b, ¬ o'.coded b := by
    intro b
    change ¬ if b = st.nextBlock then False else o.coded b
    split
    · exact id
    · exact hcoded b
  have hgiven : o'.given st.nextBlock = o.Here st := by
    simp [o', add]
  have hp₁ : Proceeds o st o' new := h.addContinuation (some .ref) False (by simp)
  have hblk : new.function.block? st.nextBlock = some { params := [st.nextReg] } := by
    rw [block_addContinuation, if_pos rfl]
    rfl
  have hreg : new.function.regType? st.nextReg = some .ref :=
    (cons.inj (hasTypes_resultReg (some .ref))).1
  have hcatch : o'.Catches new st.nextBlock := ⟨hjoins' _, hzero, _, _, hblk, rfl, hreg⟩
  have hswitch : o'.Laid { new with block := st.nextBlock } :=
    hp₁.laid.switchTo hblk (fun hj => absurd hj (hjoins' _)) fun hc => absurd hc (hcoded' _)
  have hhere : ∀ r, o.Here st r → o'.Here { new with block := st.nextBlock } r :=
    fun r hr => ⟨_, hblk, .inl (hgiven ▸ hr)⟩
  have hp₂ := hswitch.addInstr (i := .monitorExit object)
    (fun r hr => by rw [mem_singleton.mp hr]; exact hhere _ hobject)
    (by simp [Instr.callSite?])
  have hp₃ : Proceeds o' { new with block := st.nextBlock } o' last := by
    refine hp₂.trans (hp₂.laid.close (fun r hr => ?_) (forall_mem_nil _) (by simp))
    rw [mem_singleton.mp hr]
    exact hp₂.known _ ⟨_, hblk, .inr (.inl mem_cons_self)⟩
  have hkeeps : Keeps o st o' last := (hp₁.toKeeps.trans keeps_switchTo).trans hp₃.toKeeps
  -- The entry block is left alone.
  have hentry : last.function.block? 0 = st.function.block? 0 := by
    have hsettled : o.Settled st 0 := ⟨hzero, fun hj => absurd hj (hjoins 0)⟩
    refine (hp₃.kept 0 (hp₁.settled hsettled) hne).trans ?_
    rw [block_addContinuation, if_neg hne]
  have hfront : ∀ r, o.Here st r → o'.Here { last with block := 0 } r := by
    rintro r ⟨blk, hfound, hknown⟩
    rw [hblock] at hfound hknown
    refine ⟨blk, hentry.trans hfound, ?_⟩
    rwa [Known, hkeeps.outline.given 0 hzero]
  obtain ⟨first, hfirst, -⟩ := h.here
  rw [hblock] at hfirst
  refine ⟨o', hkeeps, hp₃.laid, hjoins', hcoded', ⟨first, hentry.trans hfirst⟩, ?_⟩
  intro object' unwind' heq
  cases heq
  refine ⟨hfront _ hobject, hcatch.keep (keeps_switchTo.trans hp₃.toKeeps), ?_, ?_, Ne.symm hne⟩
  · rw [hgiven]
    exact hfront
  · exact ⟨_, _, _, block_onCurrent_self (block_onCurrent_self hblk), rfl, rfl, rfl, rfl⟩

theorem Laid.acquire {m : Method} {params : List Reg} {lock : Option (Reg × BlockId)}
    (h : o.Laid st) (hblock : st.block = 0) (hjoins : ∀ b, ¬ o.joins b) (hcoded : ∀ b, ¬ o.coded b)
    (hparams : ∀ r ∈ params, o.Here st r) (hacquire : acquire m params st = .ok lock st') :
    ∃ o', Keeps o st o' st' ∧ o'.Locked st' lock ∧ lock.isSome = m.isSynchronized := by
  obtain ⟨hsync, rfl, rfl⟩ | ⟨hsync, object, mid, rfl, rfl, hobject⟩ := acquire_ok hacquire
  · obtain ⟨first, hfirst, -⟩ := h.here
    rw [hblock] at hfirst
    exact ⟨o, .refl o st', ⟨h, hjoins, hcoded, ⟨first, hfirst⟩, nofun⟩, hsync.symm⟩
  · -- Whichever object it is, its register is at hand where the monitor is taken.
    obtain ⟨hp₁, hhere, hblock₁⟩ : Proceeds o st o mid ∧ o.Here mid object ∧ mid.block = 0 := by
      rcases hobject with ⟨-, ⟨rest, rfl⟩, rfl⟩ | ⟨-, rfl, rfl⟩
      · exact ⟨.refl h, hparams _ mem_cons_self, hblock⟩
      · let monitor (r : Reg) : Instr := .classMonitor r (.resolved ⟨m.owner, m.ownerName⟩)
        obtain ⟨hp, hholds⟩ : Proceeds o st o (st.addValue .ref monitor) ∧
            o.Holds (st.addValue .ref monitor) [(st.nextReg, .ref)] := h.addValue nofun rfl nofun
        exact ⟨hp, (hholds _ mem_cons_self).2, hblock⟩
    have hp₂ := hp₁.laid.addInstr (i := .monitorEnter object)
      (fun r hr => by rw [mem_singleton.mp hr]; exact hhere) nofun
    obtain ⟨o', hkeeps, hlocked⟩ := hp₂.laid.unwind hblock₁ hjoins hcoded (hp₂.known _ hhere)
    exact ⟨o', (hp₁.trans hp₂).toKeeps.trans hkeeps, hlocked, hsync.symm⟩

def Guards (o : Outline) (st : EmitState) (lock : Option (Reg × BlockId)) : Prop :=
  ∀ object unwind, lock = some (object, unwind) → o.Here st object ∧ o.Catches st unwind ∧
    (∀ r, o.given unwind r → o.Here st r) ∧ st.function.Releases object unwind ∧
    unwind ≠ st.block

theorem Locked.start {lock : Option (Reg × BlockId)} (h : o.Locked st lock) :
    ∃ o', Keeps o st o' (st.startBody lock) ∧ o'.Laid (st.startBody lock) ∧
      o'.Guards (st.startBody lock) lock := by
  let new := st.addContinuation (lock.map (·.2)) none
  let last := st.startBody lock
  let front : EmitState := { st with block := 0 }
  let o' := o.add st.nextBlock (o.Here front) False
  obtain ⟨first, hfirst⟩ := h.entry
  have hzero : 0 < st.nextBlock := lt_nextBlock hfirst
  have hne : 0 ≠ st.nextBlock := Nat.ne_of_lt hzero
  have hjoins' : ∀ b, ¬ o'.joins b := fun b hj => h.joins b hj.2
  have hcoded' : ∀ b, ¬ o'.coded b := by
    intro b
    change ¬ if b = st.nextBlock then False else o.coded b
    split
    · exact id
    · exact h.coded b
  have hgiven : o'.given st.nextBlock = o.Here front := by
    simp [o', add]
  have hp₁ : Proceeds o st o' new := by
    refine h.laid.addContinuation none False fun x hx => ?_
    obtain ⟨⟨object, unwind⟩, hlock, rfl⟩ := Option.map_eq_some_iff.mp hx
    obtain ⟨-, hcatch, hknown, -⟩ := h.unwinds object unwind hlock
    exact ⟨hcatch, hknown⟩
  have hold : ∀ b, b ≠ st.nextBlock → new.function.block? b = st.function.block? b := by
    intro b hb
    rw [block_addContinuation, if_neg hb]
  have hblk : new.function.block? st.nextBlock = some { handler := lock.map (·.2) } := by
    rw [block_addContinuation, if_pos rfl]
    rfl
  have hfront : o'.Laid { new with block := 0 } :=
    hp₁.laid.switchTo ((hold 0 hne).trans hfirst) (fun hj => absurd hj (hjoins' _))
      fun hc => absurd hc (hcoded' _)
  have hjump : Proceeds o' { new with block := 0 } o'
      ({ new with block := 0 }.close (.jump ⟨st.nextBlock, []⟩)) := by
    refine hfront.close (forall_mem_nil _) (fun c hc => ?_) (by simp)
    rw [mem_singleton.mp hc]
    refine leads_nil hblk rfl (fun r hr => ?_) (hjoins' _) (fun hc => absurd hc (hcoded' _)) hzero
    rw [hgiven] at hr
    obtain ⟨blk, hfound, hknown⟩ := hr
    refine ⟨blk, (hold 0 hne).trans hfound, ?_⟩
    rwa [Known, hp₁.outline.given 0 hzero]
  have hlast : ∀ b, b ≠ 0 → last.function.block? b = new.function.block? b :=
    fun b hb => block_close_ne hb
  have hkeeps₂ : Keeps o' new o' last := (keeps_switchTo.trans hjump.toKeeps).trans keeps_switchTo
  refine ⟨o', hp₁.toKeeps.trans hkeeps₂, ?_, fun object unwind hlock => ?_⟩
  · exact hjump.laid.switchTo ((hlast _ (Ne.symm hne)).trans hblk)
      (fun hj => absurd hj (hjoins' _)) fun hc => absurd hc (hcoded' _)
  · obtain ⟨hobject, hcatch, hknown, ⟨blk, x, pc, hunwind, hrelease⟩, hnonzero⟩ :=
      h.unwinds object unwind hlock
    have hhere : ∀ r, o.Here front r → o'.Here last r := fun r hr =>
      ⟨_, (hlast _ (Ne.symm hne)).trans hblk, .inl (hgiven ▸ hr)⟩
    have hlt := lt_nextBlock hunwind
    refine ⟨hhere _ hobject, hcatch.keep (hp₁.toKeeps.trans hkeeps₂), fun r hr => hhere r ?_,
      ⟨blk, x, pc, ?_, hrelease⟩, Nat.ne_of_lt hlt⟩
    · rw [hp₁.outline.given unwind hlt] at hr
      exact hknown r hr
    · rw [hlast _ hnonzero, hold _ (Nat.ne_of_lt hlt), hunwind]

/-! ## Bodies of whole methods -/

end Outline

def Body.Routes (body : Body) (pc : Nat) (handler : Option BlockId) : Prop :=
  (∃ node ∈ body.graph.nodes, node.instr.pc = pc) ∧ handlerFor body pc = handler

def Body.route (body : Body) (between : BlockId) (pc : Nat) : Option BlockId :=
  if (body.graph.nodeAt? pc).isSome then handlerFor body pc else some between

namespace Outline

variable {o o' : Outline} {st st' : EmitState} {body : Body} {code : Code}

theorem nodeAt_isSome {pc : Nat} :
    (body.graph.nodeAt? pc).isSome ↔ ∃ node ∈ body.graph.nodes, node.instr.pc = pc := by
  simp [nodeAt?]

/-- No block lies beyond the last one, so code stands only for instructions that are there. -/
theorem Laid.routes (h : o.Laid st) (hroute : o.route = body.route st.nextBlock)
    {b : BlockId} {blk : Block} (hcoded : o.coded b) (hb : st.function.block? b = some blk) :
    (∀ p ∈ blk.instrs, body.Routes p.pc blk.handler) ∧
      (blk.terminator ≠ .unreachable → body.Routes blk.terminatorPc blk.handler) := by
  have hok := h.blocks b blk hb
  have hto : ∀ pc, o.route pc = blk.handler → body.Routes pc blk.handler := by
    intro pc hpc
    rw [hroute, Body.route] at hpc
    split at hpc
    · rename_i hsome
      exact ⟨nodeAt_isSome.mp hsome, hpc⟩
    · obtain ⟨hcatch, -⟩ := hok.caught st.nextBlock hpc.symm
      exact absurd hcatch.lt (Nat.lt_irrefl _)
  obtain ⟨hinstrs, hend⟩ := hok.routed hcoded
  exact ⟨fun p hp => hto _ (hinstrs p hp), fun hne => hto _ (hend hne)⟩

theorem Laid.root {lock : Option (Reg × BlockId)} {f : Function} (h : o.Laid st)
    (hparsed : st.registry.Parsed)
    (hof : ofCode body.code st.function = .ok (body.graph, f))
    (hroute : ∀ node ∈ body.graph.nodes,
      o.route node.instr.pc = handlerFor body node.instr.pc) (hcall : body.callPc = none)
    (hfallback : body.fallback = lock.map (·.2)) (hexit : body.exit = .result (lock.map (·.1)))
    (hresult : st.function.result = body.method.signature.resultType) (hguards : o.Guards st lock) :
    ∃ o', Proceeds o st o' { st with function := f } ∧
      o'.Between { st with function := f } body (o.Here st) ∧
      ∀ region ∈ body.graph.regions, st.nextBlock ≤ region.dispatch ∧
        o'.Awaits { st with function := f } (o.Here st) region := by
  have hd := drawn_ofCode hof
  obtain ⟨o', hp, hgraph, hawaits⟩ := h.draw hd
  have hbehind : ∀ region ∈ body.graph.regions, st.nextBlock ≤ region.dispatch := by
    intro region hregion
    obtain ⟨k, -, hdispatch⟩ := hd.blocks
    obtain ⟨i, hi⟩ := mem_iff_getElem?.mp hregion
    rw [(hdispatch.region hi).1, Array.size_append]
    exact Nat.le_trans (Nat.le_add_right _ _) (Nat.le_add_right _ i)
  have hframes : o'.Frames { st with function := f } body (o.Here st) := by
    refine ⟨hgraph, fun x hx => ?_, fun region hregion => ?_, fun r hr => ?_, ?_, ?_, ?_⟩
    · rw [hfallback] at hx
      obtain ⟨⟨object, unwind⟩, hlock, rfl⟩ := Option.map_eq_some_iff.mp hx
      obtain ⟨-, hcatch, hknown, -⟩ := hguards object unwind hlock
      refine ⟨hcatch.keep hp.toKeeps, fun r hr => hknown r ?_⟩
      rwa [hp.outline.given _ hcatch.lt] at hr
    · obtain ⟨hblk, htype, hjoin, hgiven, hcoded⟩ := hawaits region hregion
      exact ⟨⟨hjoin, Nat.lt_of_lt_of_le h.nextBlock_pos (hbehind region hregion), _, _, hblk, rfl,
        htype⟩, hgiven, hcoded⟩
    · rw [hexit] at hr
      cases hr
      refine ⟨hp.result.trans hresult, fun r hr => ?_⟩
      obtain ⟨⟨object, unwind⟩, hlock, rfl⟩ := Option.map_eq_some_iff.mp hr
      exact (hguards object unwind hlock).1
    · rw [hexit]
      nofun
    · intro node hnode
      rw [hcall, hp.outline.route]
      exact hroute node hnode
    · intro node next rest hnodes hnext
      have hmem : node ∈ body.graph.nodes ∧ next ∈ body.graph.nodes :=
        ⟨hnodes.subset (by simp), hnodes.subset (by simp)⟩
      unfold handlerFor regionAt?
      rw [hd.nodeAt hmem.1, hd.nodeAt hmem.2, Option.bind_some, Option.bind_some,
        hd.region_next hnodes hnext]
  exact ⟨o', hp, ⟨hp.laid, hframes, hparsed⟩, fun region hregion =>
    ⟨hbehind region hregion, hawaits region hregion⟩⟩

theorem Between.prologue {base : Reg → Prop} (h : o.Between st body base)
    (hbase : ∀ r, base r → o.Here st r) (hcode : prologue body st = .ok () st') :
    ∃ o', Proceeds o st o' st' := by
  obtain ⟨ok, mid, hcheck, hcode⟩ := bind_ok hcode
  cases hcheck
  let check (r : Reg) : Instr := .stackCheck r
  obtain ⟨hp₁, hholds⟩ : Proceeds o st o (st.addValue .i32 check) ∧
      o.Holds (st.addValue .i32 check) [(st.nextReg, .i32)] := h.laid.addValue nofun rfl nofun
  obtain ⟨_, mid₂, hguard, hcode⟩ := bind_ok hcode
  have hraise : guard st.nextReg false .stackOverflow [] none (st.addValue .i32 check) =
      .ok () mid₂ := hguard
  obtain ⟨o₂, hp₂⟩ := hp₁.laid.guard (hholds _ mem_cons_self).2 (by nofun) hraise
  obtain ⟨_, mid₃, hpoll, hcode⟩ := bind_ok hcode
  cases hpoll
  have hp₃ : Proceeds o₂ mid₂ o₂ (mid₂.addInstr .safepoint) := hp₂.laid.addInstr nofun nofun
  have hp := (hp₁.trans hp₂).trans hp₃
  obtain ⟨c, mid₄, hedge, hjump⟩ := bind_ok hcode
  obtain ⟨hp₄, hlead, -, hargs, -⟩ := hp.laid.edge (h.frames.keep h.laid hp.toKeeps).graph
    (fun r hr => hp.known r (hbase r hr)) (s := []) nofun hedge
  cases hjump
  refine ⟨o₂, (hp.trans hp₄).trans (hp₄.laid.close (fun r hr => ?_) (fun e he => ?_) nofun)⟩
  · rw [show (Terminator.jump c).uses = c.args from rfl, hargs] at hr
    cases hr
  · rw [mem_singleton.mp he]
    exact hlead

/-- The function of a method with all its code: the body, the monitor with the block that releases
it, and an outline for both. -/
structure Finished (o : Outline) (st : EmitState) (m : Method) (code : Code) (body : Body)
    (lock : Option (Reg × BlockId)) : Prop where
  method : body.method = m
  source : body.code = code
  callPc : body.callPc = none
  fallback : body.fallback = lock.map (·.2)
  locked : lock.isSome = m.isSynchronized
  drawn : ∃ f f', f.blocks.size = m.frontBlocks ∧ ofCode code f = .ok (body.graph, f')
  laid : o.Laid st
  routed : ∀ b blk, o.coded b → st.function.block? b = some blk →
    (∀ p ∈ blk.instrs, body.Routes p.pc blk.handler) ∧
    (blk.terminator ≠ .unreachable → body.Routes blk.terminatorPc blk.handler)
  coded : ∀ b ∈ body.graph.blocks, o.coded b
  first : st.function.entry = 0
  entry : ∃ blk, st.function.block? st.function.entry = some blk
  given : ∀ r, ¬ o.given st.function.entry r
  regions : ∀ region ∈ body.graph.regions,
    (∃ blk, st.function.block? region.dispatch = some blk ∧ blk.params = [region.exception]) ∧
    Chain st.registry body st.function region.exception (o.Settled st) region.dispatch
      (region.rows.filterMap (body.code.handlers[·]?))
  releases : ∀ object unwind, lock = some (object, unwind) → st.function.Releases object unwind
  takes : ∀ object unwind, lock = some (object, unwind) → st.function.Takes m object

theorem spares_body {graph : FlowGraph} {expand : Option Expander}
    {n : Nat} {drawn mid : EmitState} (hn : n ≤ st.nextReg)
    (hdraw : flowGraph code st = .ok graph drawn) (hprologue : prologue body drawn = .ok () mid)
    (hexpand : Each (fun x _ => Composed 2 n x) body expand expand)
    (hfill : fillBody expand body mid = .ok () st') : st.Spares n st' := by
  have hfront : Composed 2 n (prologue body) := composed_prologue body
  have hgraph : Composed 2 n (flowGraph code) := .flowGraph code
  have hdrawn := hgraph.spares (.refl hn) hdraw
  exact ((pervades_composed n).fillBody hexpand).spares (hfront.spares hdrawn hprologue) hfill

theorem finished_method {m : Method} (hfresh : Fresh st)
    (hparsed : st.registry.Parsed) (hresult : st.function.result = m.signature.resultType)
    (h : method m code st = .ok () st') : ∃ o body lock, Finished o st' m code body lock := by
  obtain ⟨regs, lock, st₃, graph, drawn, mid, depth, hregs, hacquire, hdraw, hprologue, hfill⟩ :=
    method_steps hfresh.blocks h
  obtain ⟨f, hof, rfl⟩ := flowGraph_ok hdraw
  let st₂ := withArguments st.atEntry 0 m.paramTypes {}
  let st₄ := st₃.startBody lock
  let body : Body := .ofMethod m code graph lock
  -- The body is known now, and with it the handler of each offset.
  obtain ⟨hlaid₂, hparams⟩ := @laid_withArguments st.atEntry m.paramTypes (body.route st'.nextBlock) rfl
    hfresh.shapes hfresh.emitted 0
  rw [← parameters_regs hregs] at hparams
  obtain ⟨hsize₄, htakes₄⟩ := (acquired_withArguments rfl hregs hacquire).start rfl
  obtain ⟨o₃, hkeeps₃, hlocked, hsome⟩ :=
    hlaid₂.acquire rfl (fun _ => id) (fun _ => id) hparams hacquire
  obtain ⟨o₄, hkeeps₄, hlaid₄, hguards⟩ := hlocked.start
  have hfront := hkeeps₃.trans hkeeps₄
  have hparsed₄ : st₄.registry.Parsed := hparsed.grow hfront.registry
  have hroute : ∀ node ∈ body.graph.nodes,
      o₄.route node.instr.pc = handlerFor body node.instr.pc := by
    intro node hnode
    rw [hfront.outline.route]
    exact if_pos (nodeAt_isSome.mpr ⟨node, hnode, rfl⟩)
  obtain ⟨o₅, hp₅, hbetween, hawaits⟩ :=
    hlaid₄.root hparsed₄ hof hroute rfl rfl rfl (hfront.result.trans hresult) hguards
  obtain ⟨o₆, hp₆⟩ := hbetween.prologue (fun r hr => hp₅.known r hr) hprologue
  have hcur : st₄.block < st₄.nextBlock := lt_nextBlock hlaid₄.here.choose_spec.1
  have hawaits₆ : ∀ region ∈ graph.regions, o₆.Awaits mid (o₄.Here st₄) region := by
    intro region hregion
    obtain ⟨hle, hawait⟩ := hawaits region hregion
    exact hawait.keep hp₆.toKeeps fun hb =>
      hp₆.kept _ hb (Nat.ne_of_gt (Nat.lt_of_lt_of_le hcur hle))
  have hnodup : (graph.regions.map (·.dispatch)).Nodup := by
    obtain ⟨k, -, hdispatch⟩ := (drawn_ofCode hof).blocks
    rw [hdispatch.ids]
    exact nodup_range'
  have hbetween₆ : o₆.Between mid body (o₄.Here st₄) :=
    ⟨hp₆.laid, hbetween.frames.keep hbetween.laid hp₆.toKeeps,
      parsed_keep hbetween.parsed hp₆.toKeeps⟩
  obtain ⟨o₇, hfills, hchains⟩ := Between.fillBody (expands_expander depth) hbetween₆ hawaits₆
    hnodup hfill
  have hkeeps₅ := hp₅.toKeeps.trans (hp₆.toKeeps.trans hfills.toKeeps)
  have hkeeps := hfront.trans hkeeps₅
  have hentry : st'.function.entry = 0 := hkeeps.entry
  have hfirst : ∃ blk, st₂.function.block? 0 = some blk := ⟨_, hlaid₂.here.choose_spec.1⟩
  have hspares : st₄.Spares st₄.nextReg st' :=
    spares_body (Nat.le_refl _) hdraw hprologue
      (each_expander (pervades_composed _) composed_grow depth) hfill
  refine ⟨o₇, body, lock, rfl, rfl, rfl, rfl, hsome, ⟨_, _, hsize₄, hof⟩, hfills.laid,
    fun b blk => hfills.laid.routes hkeeps.outline.route,
    (hbetween₆.fill hfills).frames.graph.coded, hentry, ?_, ?_, ?_, ?_, ?_⟩
  · obtain ⟨blk, hblk⟩ := hfirst
    obtain ⟨blk', hblk', -⟩ := hkeeps.params 0 blk hblk fun hj => absurd hj id
    exact ⟨blk', hentry ▸ hblk'⟩
  · intro r hr
    obtain ⟨blk, hblk⟩ := hfirst
    rw [hentry, hkeeps.outline.given 0 (lt_nextBlock hblk)] at hr
    exact hr
  · intro region hregion
    obtain ⟨hblk, -, hjoin, -⟩ := hawaits₆ region hregion
    obtain ⟨blk, hblk', hparams⟩ := hfills.params _ _ hblk fun hj => absurd hj hjoin
    exact ⟨⟨blk, hblk', hparams⟩, hchains region hregion⟩
  · intro object unwind hlock
    obtain ⟨-, ⟨hjoin, -⟩, -, ⟨blk, x, pc, hblk, hrelease⟩, hne⟩ := hguards object unwind hlock
    have hlt := lt_nextBlock hblk
    have hsettled : o₄.Settled st₄ unwind := ⟨hlt, fun hj => absurd hj hjoin⟩
    have hp := hp₅.trans hp₆
    have hnot : unwind ∉ graph.regions.map (·.dispatch) := by
      intro hmem
      obtain ⟨region, hregion, heq⟩ := mem_map.mp hmem
      exact absurd (hawaits region hregion).1 (Nat.not_le.mpr (heq ▸ hlt))
    exact ⟨blk, x, pc, (hfills.kept _ (hp.settled hsettled) hnot).trans
      ((hp.kept _ hsettled hne).trans hblk), hrelease⟩
  · intro object unwind hlock
    have htakes := htakes₄ object unwind hlock
    obtain ⟨first, hfirst⟩ := hfirst
    have hpos : 0 < st₂.nextBlock := lt_nextBlock hfirst
    have hsettled : o₄.Settled st₄ 0 := by
      refine ⟨Nat.lt_of_lt_of_le hpos hfront.size, fun hj => ?_⟩
      rw [hfront.outline.joins 0 hpos] at hj
      exact absurd hj id
    have hp := hp₅.trans hp₆
    have hne : 0 ≠ st₄.block := Nat.ne_of_lt (Nat.lt_of_lt_of_le hpos hkeeps₃.size)
    have hnot : 0 ∉ graph.regions.map (·.dispatch) := by
      intro hmem
      obtain ⟨region, hregion, heq⟩ := mem_map.mp hmem
      have hle := (hawaits region hregion).1
      rw [heq] at hle
      exact absurd hle (Nat.not_le.mpr hsettled.1)
    exact htakes.keep ((hfills.kept _ (hp.settled hsettled) hnot).trans
      (hp.kept _ hsettled hne)) hspares

end Outline

/-! ## Compiled functions -/

variable {registry : Registry} {compiled : Compiled} {config : Config}

theorem compile_finished {m : Method} (hbuilt : registry.Built)
    (h : (compile config registry m).1 = .ok compiled) :
    ∃ code last o body lock, m.code = some code ∧
      Outline.Finished o last m code body lock ∧ compiled.function = last.function ∧
      compiled.sites = last.sites ∧ (compile config registry m).2 = last.registry := by
  obtain ⟨code, last, hcode, hmethod, hfun, -, hsites, hregistry⟩ := compile_ok h
  obtain ⟨o, body, lock, hfinished⟩ :=
    Outline.finished_method ⟨rfl, rfl, rfl, rfl, rfl, rfl⟩ hbuilt.parsed rfl hmethod
  exact ⟨code, last, o, body, lock, hcode, hfinished, hfun, hsites, hregistry⟩

/-- **Compiled functions are well-formed**, whatever was expanded in them. -/
theorem compile_wellFormed {config : Config} {registry : Registry} {m : Method}
    {compiled : Compiled} (hbuilt : registry.Built)
    (hcompile : (compile config registry m).1 = .ok compiled) :
    compiled.function.WellFormed := by
  obtain ⟨code, last, o, body, lock, -, hfinished, hfun, -⟩ := compile_finished hbuilt hcompile
  obtain ⟨blk, hblk⟩ := hfinished.entry
  rw [hfun]
  exact hfinished.laid.wellFormed hfinished.given hblk

/-- Divides under a monitor, and gives zero where division fails. -/
def quotientCode : Code :=
  { bytes := [0x1b, 0x1c, 0x6c, 0xac, 0x57, 0x03, 0xac]
    maxLocals := 3
    maxStack := 2
    handlers := [⟨0, 4, 4, none⟩] }

def quotientMethod : Method :=
  { id := 0, owner := 1, ownerName := "Numbers", name := "quotient", descriptor := "(II)I"
    signature := ⟨[.int, .int], some .int⟩, flags := Flag.isPublic ||| Flag.isSynchronized
    code := some quotientCode, native := none, loader := 0, offset := none
    entry := { current := .stub } }

theorem compile_wellFormed_quotient : ∃ compiled,
    (compile {} Registry.core quotientMethod).1 = .ok compiled ∧
      compiled.function.WellFormed := by
  have hcompiles : (compile {} Registry.core quotientMethod).1.isOk = true := by decide +kernel
  cases hcompile : (compile {} Registry.core quotientMethod).1 with
  | error e =>
    rw [hcompile] at hcompiles
    cases hcompiles
  | ok compiled => exact ⟨compiled, rfl, compile_wellFormed Registry.built_core hcompile⟩

end ManagedCore
