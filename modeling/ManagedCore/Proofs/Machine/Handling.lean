import ManagedCore.Proofs.Machine.Exceptions

/-!
# Handling of exceptions in compiled methods

The blocks of a body agree with the exception table on where exceptions go: to the tests of the rows
that cover the instruction, in table order, and else out of the method.
-/

namespace ManagedCore

open Activation Exec Registry FlowGraph List Option

variable {code : Code} {f f' : Function} {g : FlowGraph} {args : List Value} {scope : Scope}
  {x b : BlockId} {m : Method} {answer : Option Outcome} {a : Activation} {t : ThreadId}
  {e : ObjId}

/-! ## Rows of a region -/

theorem FlowGraph.filterMap_rows {handlers : List HandlerRow} {ps : List (HandlerRow × Nat)}
    (h : ∀ p ∈ ps, handlers[p.2]? = some p.1) :
    (ps.map (·.2)).filterMap (handlers[·]?) = ps.map (·.1) := by
  induction ps with
  | nil => rfl
  | cons p ps ih =>
    obtain ⟨hp, hps⟩ := forall_mem_cons.mp h
    rw [map_cons, filterMap_cons_some hp, ih hps, map_cons]

theorem FlowGraph.filterMap_coveringRows (handlers : List HandlerRow) (pc : Nat) :
    (coveringRows handlers pc).filterMap (handlers[·]?) = handlers.filter (·.covers pc) := by
  have hrows : (coveringRows handlers pc).filterMap (handlers[·]?) =
      (handlers.zipIdx.filter fun p => p.1.covers pc).map (·.1) :=
    filterMap_rows fun p hp => mk_mem_zipIdx_iff_getElem?.mp (mem_filter.mp hp).1
  have hfst : (handlers.zipIdx.map (·.1)).filter (·.covers pc) =
      (handlers.zipIdx.filter fun p => p.1.covers pc).map (·.1) := filter_map
  rw [hrows, ← hfst, zipIdx_map_fst]

/-- The region of an instruction has the rows that cover it, in table order. -/
theorem FlowGraph.Drawn.regionAt (h : Drawn code f g f') {node : Node} (hnode : node ∈ g.nodes) :
    (g.regionAt? node.instr.pc = none ∧ code.handlers.filter (·.covers node.instr.pc) = []) ∨
    ∃ region ∈ g.regions, g.regionAt? node.instr.pc = some region ∧
      region.rows.filterMap (code.handlers[·]?) =
        code.handlers.filter (·.covers node.instr.pc) := by
  rw [← filterMap_coveringRows]
  rcases h.covered node hnode with ⟨hrows, hnone⟩ | ⟨-, i, hsome, hfind⟩
  · left
    rw [regionAt?, h.nodeAt hnode, bind_some, hnone, hrows]
    exact ⟨rfl, rfl⟩
  · right
    obtain ⟨hi, hrows, -⟩ := findIdx?_eq_some_iff_getElem.mp hfind
    refine ⟨g.regions[i], getElem_mem hi, ?_, ?_⟩
    · rw [regionAt?, h.nodeAt hnode, bind_some, hsome, bind_some,
        getElem?_eq_getElem hi]
    · rw [beq_iff_eq.mp hrows]

/-! ## The graph of a method -/

theorem FlowGraph.addBlocks_same (starts : List Nat) (instrs : List Instruction)
    (h : f'.blocks.size = f.blocks.size) :
    (addBlocks starts instrs f').1 = (addBlocks starts instrs f).1 := by
  induction instrs generalizing f f' with
  | nil => rfl
  | cons i rest ih =>
    rw [addBlocks, addBlocks]
    split
    · have hsize : f'.addBlock.2.blocks.size = f.addBlock.2.blocks.size := by
        simp only [Function.addBlock, Array.size_push, h]
      exact congrArg₂ (fun b tail => (i, some b) :: tail) h (ih hsize)
    · exact congrArg ((i, none) :: ·) (ih h)

theorem FlowGraph.addRegions_same {regions regions' : List Region} (handlers : List HandlerRow)
    (pairs : List (Instruction × Option BlockId))
    (h : regions'.map (·.rows) = regions.map (·.rows)) :
    (addRegions handlers pairs regions' f').1 = (addRegions handlers pairs regions f).1 := by
  induction pairs generalizing f f' regions regions' with
  | nil => rfl
  | cons pair rest ih =>
    have hfind : ∀ rows, regions'.findIdx? (·.rows == rows) = regions.findIdx? (·.rows == rows) := by
      intro rows
      have hmap := congrArg (findIdx? (· == rows)) h
      rwa [findIdx?_map, findIdx?_map] at hmap
    have hlen : regions'.length = regions.length := by simpa using congrArg length h
    rw [addRegions, addRegions]
    rw [hfind]
    split
    · exact congrArg (_ :: ·) (ih h)
    · split
      · exact congrArg (_ :: ·) (ih h)
      · rw [hlen]
        refine congrArg (_ :: ·) (ih ?_)
        rw [map_append, map_append, h]
        rfl

theorem FlowGraph.nodes_same {f₁ f₁' f₂ f₂' : Function} {g₁ g₂ : FlowGraph}
    (h₁ : ofCode code f₁ = .ok (g₁, f₁')) (h₂ : ofCode code f₂ = .ok (g₂, f₂'))
    (hsize : f₂.blocks.size = f₁.blocks.size) : g₂.nodes = g₁.nodes := by
  obtain ⟨instrs, hdecode, -, hadd⟩ := ofCode_adds h₁
  obtain ⟨instrs', hdecode', -, hadd'⟩ := ofCode_adds h₂
  rw [hdecode, Except.ok.injEq] at hdecode'
  subst hdecode'
  rw [addBlocks_same _ _ hsize] at hadd'
  exact (congrArg Prod.fst hadd').symm.trans
    ((addRegions_same _ _ rfl).trans (congrArg Prod.fst hadd))

/-- The function of a method before its flow graph is drawn, without the code. -/
def Method.front (m : Method) : Function :=
  { name := m.text
    params := m.paramTypes
    result := m.signature.resultType
    maxLocals := 0
    blocks := Array.replicate m.frontBlocks {} }

/-! ## Releasing the monitor -/

/-- The next turn releases the monitor of an object, and the one after it leaves with the exception.
A release that is refused leaves with what it raises. -/
def Control.Releases (t : ThreadId) (o e : ObjId) (rest : List Task) (c : Control) : Prop :=
  ∃ pc, ∀ w : World,
    match (exitMonitor o).runOn t
        (w.modifyThread t fun th => { th with frames := th.frames.setPc pc }) with
    | .ok (.ok ()) w' => ∃ c', step t w c = (w', c') ∧
        ∀ w'', (step t w'' c').2 = ⟨rest, some (.thrown e)⟩
    | .ok (.error (.notOwner _)) w' => (step t w c).2 =
        ⟨rest, some (.thrown (w'.createException .illegalMonitorState none).1)⟩
    | .ok (.error err) _ => (step t w c).2 = ⟨rest, some (.failed (.monitor err))⟩
    | .error trap _ => (step t w c).2 = ⟨rest, some trap.outcome⟩

namespace Activation

variable {a b : Activation} {t : ThreadId} {e o : ObjId} {rest : List Task} {w : World}

theorem receive_thrown (h : a.handler? = some x) :
    a.receive t w (.thrown e) = (a.unpin t w, .stay (.activation (a.enter x [.obj e]))) := by
  unfold receive
  simp only [h]

theorem receive_thrown_none (h : a.handler? = none) :
    a.receive t w (.thrown e) = a.leave t (a.unpin t w) (.thrown e) := by
  unfold receive
  simp only [h]

theorem settle_error {trap : Trap} (hhandler : a.handler? = none) :
    (a.settle t (.error trap w)).2.apply rest = ⟨rest, some trap.outcome⟩ := by
  cases trap with
  | failed err => rfl
  | thrown x =>
    change (a.receive t w (.thrown x)).2.apply rest = _
    rw [receive_thrown_none hhandler]
    rfl

theorem releases_at {object : Reg} {unwind : BlockId} (h : a.function.Releases object unwind)
    (hat : a.At unwind [.obj e]) (ho : a.get object = .obj o) :
    Control.Releases t o e rest ⟨.activation a :: rest, none⟩ := by
  obtain ⟨blk, x, pc, hblk, hparams, hinstrs, hend, hhandler⟩ := h
  obtain ⟨rfl, hindex, hwait, blk', hblk', hvals⟩ := hat
  cases hblk.symm.trans hblk'
  rw [hparams] at hvals
  have hx : a.get x = .obj e := by simpa using hvals
  have hnone : a.handler? = none := by rw [handler?, hblk, bind_some, hhandler]
  have hnonNull : ∀ w, (nonNull a object).runOn t w = .ok o w := by
    intro w
    unfold nonNull reference
    rw [ho]
    rfl
  have hat : a.next.AtEnd blk := by
    refine ⟨rfl, hblk, ?_⟩
    rw [hinstrs]
    rfl
  refine ⟨pc, fun w => ?_⟩
  have hact : a.act t w = a.settle t ((evaluate a (.monitorExit object)).runOn t
      (w.modifyThread t fun th => { th with frames := th.frames.setPc pc })) :=
    act_instr (.inl hwait) hblk (p := ⟨.monitorExit object, pc⟩) (by rw [hinstrs, hindex]; rfl)
  rw [step_activation, hact, evaluate, bind_runOn (hnonNull _)]
  generalize w.modifyThread t _ = w₁
  cases hexit : (exitMonitor o).runOn t w₁ with
  | error trap w₂ =>
    rw [bind_runOn_error hexit]
    exact settle_error hnone
  | ok done w₂ =>
    rw [bind_runOn hexit]
    rcases done with (k | id | -) | -
    · exact settle_error hnone
    · rfl
    · rfl
    · refine ⟨⟨.activation a.next :: rest, none⟩, rfl, fun w₃ => ?_⟩
      have hnext : a.next.get x = .obj e := hx
      rw [step_activation, act_atEnd hat, terminate_resume hend hnext]
      rfl

theorem Reaches.sits (h : a.Reaches t b) (ha : a.Sits) : b.Sits :=
  h.induction (P := Sits) ha ha fun _ _ _ _ hpass _ => hpass.sits

theorem Reaches.same_function (h : a.Reaches t b) (hsits : a.Sits) : b.function = a.function :=
  h.induction (P := fun b => b.function = a.function) hsits rfl fun _ _ _ hb hpass _ =>
    hpass.keeps.1.trans hb

/-- Behind the entry block, the register of the monitor stays as it is. -/
theorem Reaches.object {f : Function} {object : Reg} (h : a.Reaches t b)
    (htakes : f.Takes m object) (hforward : f.Forward) (hfun : a.function = f) (hsits : a.Sits)
    (hblock : a.block ≠ 0) : b.get object = a.get object := by
  suffices b.function = f ∧ b.block ≠ 0 ∧ b.get object = a.get object from this.2.2
  refine h.induction (P := fun b => b.function = f ∧ b.block ≠ 0 ∧ b.get object = a.get object)
    hsits ⟨hfun, hblock, rfl⟩ fun b c _ hb hpass _ => ?_
  obtain ⟨hfun, hblock, hobject⟩ := hb
  have henter : ∀ x vs, 0 < x → (b.enter x vs).get object = a.get object := by
    intro x vs hx
    refine (get_enter_of_not_mem fun blk hblk hmem => ?_).trans hobject
    exact htakes.only x blk (Nat.ne_of_gt hx) (hfun ▸ hblk) (.inl hmem)
  refine ⟨hpass.keeps.1.trans hfun, ?_⟩
  cases hpass with
  | rests _ => exact ⟨hblock, hobject⟩
  | @advances p regs locals hp _ hregs _ =>
    refine ⟨hblock, (hregs object fun hdest => ?_).trans hobject⟩
    obtain ⟨blk, hblk, hp⟩ := bind_eq_some_iff.mp hp
    exact htakes.only _ blk hblock (hfun ▸ hblk) (.inr ⟨p, Array.mem_of_getElem? hp, hdest⟩)
  | @jumps blk call hblk _ hcall =>
    have hpos := (hforward _ blk (hfun ▸ hblk)).1 call hcall
    exact ⟨Nat.ne_of_gt hpos, henter _ _ hpos⟩
  | @faults x _ hx =>
    obtain ⟨blk, hblk, hx⟩ := bind_eq_some_iff.mp hx
    have hpos := (hforward _ blk (hfun ▸ hblk)).2 x hx
    exact ⟨Nat.ne_of_gt hpos, henter _ _ hpos⟩

theorem Reaches.size_regs {f : Function} {id : MethodId} {code : CodeId}
    (h : (start id code f scope args).Reaches t a) :
    a.function = f ∧ a.regs.size = f.regTypes.size := by
  refine h.induction (P := fun a => a.function = f ∧ a.regs.size = f.regTypes.size) trivial ?_
    fun b c _ hb hpass _ => ?_
  · exact ⟨function_enter _ _, (size_regs_enter _ _).trans Array.size_replicate⟩
  · exact ⟨hpass.keeps.1.trans hb.1, hpass.keeps.2.trans hb.2⟩

end Activation

/-! ## Methods -/

/-- Blocks with the code of the instructions of a body. -/
inductive Function.Inside (f : Function) (g : FlowGraph) : BlockId → Prop where
  | start {b : BlockId} : b ∈ g.blocks → Inside f g b
  | edge {b : BlockId} {blk : Block} {c : BlockCall} : Inside f g b → f.block? b = some blk →
      c ∈ blk.terminator.successors → Inside f g c.block

theorem Function.Inside.same {g' : FlowGraph} (h : f.Inside g b)
    (hnodes : g.nodes = g'.nodes) : f.Inside g' b := by
  induction h with
  | start hb =>
    rw [FlowGraph.blocks, hnodes] at hb
    exact .start hb
  | edge _ hblk hc ih => exact .edge ih hblk hc

namespace Outline

variable {o : Outline} {st : EmitState} {m : Method} {code : Code} {body : Body}
  {lock : Option (Reg × BlockId)}

theorem Finished.pos_of_inside (h : Finished o st m code body lock)
    (hb : st.function.Inside body.graph b) : b ≠ 0 := by
  cases hb with
  | start hb =>
    obtain ⟨f, f', hsize, hof⟩ := h.drawn
    obtain ⟨k, hblocks, -⟩ := (drawn_ofCode hof).blocks
    rw [hblocks, mem_range'_1, hsize, Method.frontBlocks] at hb
    refine Nat.ne_of_gt (Nat.lt_of_lt_of_le ?_ hb.1)
    split <;> decide
  | edge _ hblk hc => exact Nat.ne_of_gt ((h.laid.forward _ _ hblk).1 _ hc)

theorem Finished.coded_of_inside (h : Finished o st m code body lock)
    (hb : st.function.Inside body.graph b) : o.coded b := by
  induction hb with
  | start hb => exact h.coded _ hb
  | edge _ hblk hc ih =>
    obtain ⟨-, -, -, hcoded, -⟩ := (h.laid.blocks _ _ hblk).edges _ hc
    exact hcoded ih

theorem Laid.takesOne (h : o.Laid st) (x : Reg) : st.function.TakesOne x := by
  intro b blk target hblk hc
  obtain ⟨⟨blk', ts, hblk', hargs, hparams⟩, -⟩ := (h.blocks b blk hblk).edges _ hc
  obtain ⟨v, rfl⟩ : ∃ v, ts = [v] := by
    have hlen := congrArg length hargs
    rw [length_map, length_map] at hlen
    exact length_eq_one_iff.mp hlen.symm
  obtain ⟨y, hy⟩ : ∃ y, blk'.params = [y] := by
    have hlen := congrArg length hparams
    rw [length_map] at hlen
    exact length_eq_one_iff.mp hlen
  rw [hy] at hparams
  have htype : st.function.regTypes[y]? = some v := (cons.inj hparams).1
  exact ⟨blk', y, hblk', hy, (Array.getElem?_eq_some_iff.mp htype).1⟩

theorem Finished.route_of_raises (h : Finished o st m code body lock) {w w' : World} {pc : Nat}
    (hfun : a.function = st.function) (hinside : st.function.Inside body.graph a.block)
    (hraises : a.Raises t w answer pc e w') : body.Routes pc a.handler? := by
  have hcoded := h.coded_of_inside hinside
  have hhandler : ∀ {blk}, a.function.block? a.block = some blk → a.handler? = blk.handler := by
    intro blk hblk
    rw [handler?, hblk, bind_some]
  cases hraises with
  | instr _ hblk hp _ | answer _ hblk hp =>
    rw [hhandler hblk]
    exact (h.routed _ _ hcoded (hfun ▸ hblk)).1 _ (Array.mem_of_getElem? hp)
  | @terminator blk _ _ _ hblk _ hthrows =>
    rw [hhandler hblk]
    refine (h.routed _ _ hcoded (hfun ▸ hblk)).2 fun hend => ?_
    rw [terminate, hend] at hthrows
    cases hthrows

variable {t : ThreadId} {a : Activation} {w w' : World} {answer : Option Outcome} {pc : Nat}
  {e : ObjId} {cls : Class} {rest : List Task}

section

variable (h : Finished o st m code body lock) (hfun : a.function = st.function)
  (hsize : a.regs.size = st.function.regTypes.size)
include h hfun hsize

theorem Finished.at_handler (hx : a.handler? = some x) : (a.enter x [.obj e]).At x [.obj e] := by
  obtain ⟨blk, hblk, hx⟩ := bind_eq_some_iff.mp hx
  obtain ⟨⟨-, -, target, y, htarget, hparams, hy⟩, -⟩ :=
    (h.laid.blocks _ blk (hfun ▸ hblk)).caught x hx
  have hlt : y < st.function.regTypes.size := (Array.getElem?_eq_some_iff.mp hy).1
  exact at_enter (hfun ▸ htarget) hparams (hsize ▸ hlt)

theorem Finished.emerges (hraises : a.Raises t w answer pc e w')
    (hhandler : a.handler? = body.fallback) : Comes t (fun _ c => Emerges t body rest e a c)
      ((a.receive t w' (.thrown e)).1, (a.receive t w' (.thrown e)).2.apply rest) := by
  cases hfallback : body.fallback with
  | none =>
    rw [hfallback] at hhandler
    rw [receive_thrown_none hhandler]
    refine .now ?_
    unfold Emerges
    rw [hfallback]
    rfl
  | some unwind =>
    rw [hfallback] at hhandler
    rw [receive_thrown hhandler]
    refine .now ?_
    unfold Emerges
    rw [hfallback]
    exact ⟨_, rfl, hraises.reaches hhandler, h.at_handler hfun hsize hhandler⟩

/-- The exception goes to the first row that catches it, or out. -/
theorem Finished.comes (hbuilt : st.registry.Built)
    (hinside : st.function.Inside body.graph a.block) (hraises : a.Raises t w answer pc e w')
    (hlater : st.registry.Later w'.registry) (hcls : w'.classOf? e = some cls)
    (hloaded : ∀ row ∈ code.handlers, row.Loaded w'.registry m.owner) :
    Comes t (fun _ c => Found t body rest e a (code.handlers.find? fun row =>
      row.covers pc && row.catches w'.registry m.owner cls) c)
      (step t w ⟨.activation a :: rest, answer⟩) := by
  obtain ⟨⟨node, hnode, rfl⟩, hroute⟩ := h.route_of_raises hfun hinside hraises
  obtain ⟨f₀, f₁, -, hof⟩ := h.drawn
  have hfind : (code.handlers.find? fun row => row.covers node.instr.pc &&
      row.catches w'.registry m.owner cls) =
      (code.handlers.filter (·.covers node.instr.pc)).find?
        (·.catches w'.registry m.owner cls) := by
    rw [find?_filter]
    congr 1
    funext row
    rw [Bool.decide_and, Bool.decide_eq_true, Bool.decide_eq_true]
  rw [hraises.step, hfind]
  rcases (drawn_ofCode hof).regionAt hnode with
    ⟨hnone, hrows⟩ | ⟨region, hregion, hsome, hrows⟩
  · have hhandler : a.handler? = body.fallback := by rw [← hroute, Emit.handlerFor, hnone]; rfl
    rw [hrows]
    exact h.emerges hfun hsize hraises hhandler
  · have hhandler : a.handler? = some region.dispatch := by
      rw [← hroute, Emit.handlerFor, hsome]
      rfl
    obtain ⟨⟨blk, hblk, hparams⟩, hchain⟩ := h.regions region hregion
    rw [h.source, hrows] at hchain
    have hat := h.at_handler (e := e) hfun hsize hhandler
    have htests : (a.enter region.dispatch [.obj e]).Tests st.function region.exception e
        region.dispatch := by
      obtain ⟨-, -, -, blk', hblk', hvals⟩ := hat
      rw [function_enter, hfun, hblk, some.injEq] at hblk'
      subst hblk'
      rw [hparams] at hvals
      exact ⟨(function_enter _ _).trans hfun, rfl, rfl, rfl,
        (size_regs_enter _ _).trans hsize, (cons.inj hvals).1⟩
    have hcomes : Comes t (fun _ c => Found t body rest e (a.enter region.dispatch [.obj e])
        ((code.handlers.filter (·.covers node.instr.pc)).find?
          (·.catches w'.registry body.method.owner cls)) c)
        (a.unpin t w', ⟨.activation (a.enter region.dispatch [.obj e]) :: rest, none⟩) :=
      hchain.comes (h.laid.takesOne region.exception) hbuilt hlater hcls
        (fun row hrow => h.method ▸ hloaded row (mem_filter.mp hrow).1)
        (a.onward_unpin t w') htests
    rw [h.method] at hcomes
    rw [receive_thrown hhandler]
    exact hcomes.mono fun _ c hfound =>
      hfound.back (hraises.reaches hhandler) (locals_enter _ _)

end

end Outline

/-- **Exceptions follow the exception table.** Whatever an instruction of the body raises goes to the
first row that covers the instruction and catches the exception, whose handler starts with the
exception as its only operand and with the local slots of the fault. Without such a row it leaves the
activation. A synchronized method releases the monitor it entered first, and a release that is
refused leaves with what it raises. -/
theorem raises_handled {config : Config} {registry : Registry} {m : Method} {code : Code}
    {compiled : Compiled} {graph : FlowGraph} {drawn : Function} {t : ThreadId} {id : CodeId}
    {scope : Scope} {args : List Value} {a : Activation} {w w' : World} {answer : Option Outcome}
    {pc : Nat} {e : ObjId} {cls : Class} (rest : List Task) (hbuilt : registry.Built)
    (hcode : m.code = some code) (hcompile : (compile config registry m).1 = .ok compiled)
    (hgraph : FlowGraph.ofCode code m.front = .ok (graph, drawn))
    (hreaches : (Activation.start m.id id compiled.function scope args).Reaches t a)
    (hinside : compiled.function.Inside graph a.block) (hraises : a.Raises t w answer pc e w')
    (hlater : (compile config registry m).2.Later w'.registry) (hcls : w'.classOf? e = some cls)
    (hloaded : ∀ row ∈ code.handlers, row.Loaded w'.registry m.owner) :
    let row? := code.handlers.find? fun row =>
      row.covers pc && row.catches w'.registry m.owner cls
    let next := step t w ⟨.activation a :: rest, answer⟩
    (∀ row, row? = some row → Comes t (fun _ c => ∃ b target,
      c = ⟨.activation b :: rest, none⟩ ∧ graph.blockAt? row.handler = some target ∧
        b.At target [.obj e] ∧ b.locals = a.locals) next) ∧
    (row? = none → m.isSynchronized = false →
      Comes t (fun _ c => c = ⟨rest, some (.thrown e)⟩) next) ∧
    (row? = none → m.isSynchronized = true →
      ∃ o, Activation.Entered t (.start m.id id compiled.function scope args) a o ∧
        (m.isStatic = false → args.head? = some (.obj o)) ∧
        Comes t (fun _ c => Control.Releases t o e rest c) next) := by
  intro row? next
  obtain ⟨code', last, o, body, lock, hcode', hfinished, hfun, -, hregistry⟩ :=
    compile_finished hbuilt hcompile
  rw [hcode, Option.some.injEq] at hcode'
  subst hcode'
  rw [hfun] at hreaches hinside
  rw [hfun]
  rw [hregistry] at hlater
  obtain ⟨f, f', hsize, hof⟩ := hfinished.drawn
  have hnodes : graph.nodes = body.graph.nodes :=
    FlowGraph.nodes_same hof hgraph (Array.size_replicate.trans hsize.symm)
  have hat : ∀ pc, graph.blockAt? pc = body.graph.blockAt? pc := by
    intro pc
    rw [FlowGraph.blockAt?, FlowGraph.nodeAt?, hnodes]
    rfl
  have hbuilt' : last.registry.Built := by
    rw [← hregistry]
    exact Registry.Later.trans hbuilt (compile_grown config registry m).later
  have hinside' : last.function.Inside body.graph a.block := hinside.same hnodes
  obtain ⟨hfun', hregs⟩ := hreaches.size_regs
  have hcomes : Comes t (fun _ c => Found t body rest e a row? c) next :=
    hfinished.comes hfun' hregs hbuilt' hinside' hraises hlater hcls hloaded
  refine ⟨fun row hrow => ?_, fun hnone hsync => ?_, fun hnone hsync => ?_⟩
  · rw [hrow] at hcomes
    refine hcomes.mono fun _ c hfound => ?_
    obtain ⟨b, target, hc, hlocals, htarget, hstarts⟩ := hfound
    exact ⟨b, target, hc, (hat _).trans htarget, hstarts, hlocals⟩
  · have hfallback : body.fallback = none := by
      have hlock := hfinished.locked.trans hsync
      rw [hfinished.fallback, Option.not_isSome_iff_eq_none.mp (ne_true_of_eq_false hlock)]
      rfl
    rw [hnone] at hcomes
    refine hcomes.mono fun _ c hfound => ?_
    change Emerges t body rest e a c at hfound
    unfold Emerges at hfound
    rwa [hfallback] at hfound
  · obtain ⟨⟨object, unwind⟩, hlock⟩ := Option.isSome_iff_exists.mp (hfinished.locked.trans hsync)
    have htakes := hfinished.takes object unwind hlock
    have hforward := hfinished.laid.forward
    have hblock := hfinished.pos_of_inside hinside'
    obtain ⟨o', hentered, hobject, hreceiver⟩ :=
      htakes.entered hfinished.first hforward hreaches hblock
    refine ⟨o', hentered, hreceiver, ?_⟩
    have hfallback : body.fallback = some unwind := by rw [hfinished.fallback, hlock]; rfl
    rw [hnone] at hcomes
    refine hcomes.mono fun _ c hfound => ?_
    change Emerges t body rest e a c at hfound
    unfold Emerges at hfound
    rw [hfallback] at hfound
    obtain ⟨b, rfl, hreach, hstarts⟩ := hfound
    have hsits : a.Sits := hreaches.sits trivial
    have hfunb : b.function = last.function := (hreach.same_function hsits).trans hfun'
    refine Activation.releases_at (hfunb ▸ hfinished.releases object unwind hlock) hstarts ?_
    exact (hreach.object htakes hforward hfun' hsits hblock).trans hobject

/-! ## Faults of a new engine -/

namespace Activation

variable {a b : Activation} {t : ThreadId} {w w' : World} {n pc : Nat} {e : ObjId}

def advance? (t : ThreadId) : Nat → World → Activation → Option (World × Activation)
  | 0, w, a => some (w, a)
  | n + 1, w, a => (a.act t w).2.activation?.bind (advance? t n (a.act t w).1)

theorem reaches_of_advance? (h : advance? t n w a = some (w', b)) : a.Reaches t b ∧ w.Calm w' := by
  induction n generalizing a w with
  | zero =>
    cases h
    exact ⟨.here, .refl⟩
  | succ n ih =>
    obtain ⟨c, hact, hrest⟩ := bind_eq_some_iff.mp h
    obtain ⟨hreaches, hcalm⟩ := ih hrest
    have hwithin := (plainly_act World.lenient_calm t w a (a.evaluates_calm t w)).within
    exact ⟨Reaches.trans (.act .here hact) hreaches, hwithin.trans hcalm⟩

def fault? (t : ThreadId) (w : World) (a : Activation) : Option (Nat × ObjId × World) :=
  (a.function.block? a.block).bind fun blk =>
    if a.wait = .nothing ∧ blk.instrs[a.index]?.isNone then
      match (terminate a blk).runOn t w with
      | .error (.thrown e) w' => some (blk.terminatorPc, e, w')
      | _ => none
    else none

theorem raises_of_fault? (h : a.fault? t w = some (pc, e, w')) :
    a.Raises t w none pc e w' ∧ w.Calm w' := by
  obtain ⟨blk, hblk, h⟩ := bind_eq_some_iff.mp h
  split at h
  · rename_i hends
    split at h
    · rename_i hrun
      cases h
      exact ⟨.terminator (.inl hends.1) hblk (isNone_iff_eq_none.mp hends.2) hrun,
        World.lenient_calm.error (quiet_terminate a blk) hrun⟩
    · cases h
  · cases h

end Activation

/-- Whether a method of a new engine, called on an object, raises after some turns and so that
something holds there. -/
def faultsWith (m : Method) (args : List Value) (n : Nat)
    (holds : FlowGraph → ThreadId → World → Activation → Nat × ObjId × World → Bool) : Bool :=
  match ((World.start {}).bind (·.attach "main" 2097152)), (compile {} core m).1,
      m.code.map (ofCode · m.front) with
  | .ok (t, w), .ok compiled, some (.ok (graph, _)) =>
    ((start m.id 0 compiled.function ⟨0, none, none⟩
        (.obj w.outOfMemory :: args)).advance? t n
      { w with registry := (compile {} core m).2 }).any fun (w, a) =>
        (a.fault? t w).any (holds graph t w a)
  | _, _, _ => false

theorem exists_of_faultsWith {n : Nat}
    {holds : FlowGraph → ThreadId → World → Activation → Nat × ObjId × World → Bool}
    (h : faultsWith m args n holds = true) : ∃ code compiled graph drawn t id scope args a w pc e w',
      m.code = some code ∧ (compile {} core m).1 = .ok compiled ∧
      ofCode code m.front = .ok (graph, drawn) ∧
      (start m.id id compiled.function scope args).Reaches t a ∧
      a.Raises t w none pc e w' ∧ (compile {} core m).2.Later w'.registry ∧
      holds graph t w a (pc, e, w') = true := by
  unfold faultsWith at h
  split at h
  · rename_i t w compiled graph drawn _ hcompile hgraph
    obtain ⟨code, hcode, hgraph⟩ := map_eq_some_iff.mp hgraph
    obtain ⟨⟨w₁, a⟩, hadvance, h⟩ := (any_eq_true _ _).mp h
    obtain ⟨⟨pc, e, w'⟩, hfault, hholds⟩ := (any_eq_true _ _).mp h
    obtain ⟨hreaches, hcalm⟩ := reaches_of_advance? hadvance
    obtain ⟨hraises, hcalm'⟩ := raises_of_fault? hfault
    exact ⟨code, compiled, graph, drawn, t, _, _, _, a, w₁, pc, e, w', hcode, hcompile, hgraph,
      hreaches, hraises, (hcalm.trans hcalm').later, hholds⟩
  · cases h

theorem quotient_faults : faultsWith quotientMethod [.int 1, .int 0] 14
    (fun graph _ _ a (pc, e, w') => pc == 2 && (w'.classOf? e).isSome &&
      graph.blocks.any fun b => (a.function.block? b).any fun blk =>
        blk.terminator.successors.any (·.block == a.block)) = true := by
  decide +kernel

/-- A division by zero goes on in the handler, with the operands of the division still there. -/
theorem raises_handled_quotient : ∃ compiled graph drawn t id scope args a w e w',
    (compile {} Registry.core quotientMethod).1 = .ok compiled ∧
    FlowGraph.ofCode quotientCode quotientMethod.front = .ok (graph, drawn) ∧
    (Activation.start quotientMethod.id id compiled.function scope args).Reaches t a ∧
    a.Raises t w none 2 e w' ∧
    Comes t (fun _ c => ∃ b target, c = ⟨[.activation b], none⟩ ∧
      graph.blockAt? 4 = some target ∧ b.At target [.obj e] ∧ b.locals = a.locals)
      (step t w ⟨[.activation a], none⟩) := by
  obtain ⟨code, compiled, graph, drawn, t, id, scope, args, a, w, pc, e, w', hcode, hcompile, hgraph,
    hreaches, hraises, hlater, hholds⟩ := exists_of_faultsWith quotient_faults
  cases hcode
  simp only [Bool.and_eq_true, beq_iff_eq, List.any_eq_true] at hholds
  obtain ⟨⟨rfl, hcls⟩, b, hb, hsuccessor⟩ := hholds
  obtain ⟨cls, hcls⟩ := Option.isSome_iff_exists.mp hcls
  obtain ⟨blk, hblk, hsuccessor⟩ := (Option.any_eq_true _ _).mp hsuccessor
  obtain ⟨c, hc, hblock⟩ := List.any_eq_true.mp hsuccessor
  rw [hreaches.size_regs.1] at hblk
  have hinside : compiled.function.Inside graph a.block := by
    rw [← beq_iff_eq.mp hblock]
    exact .edge (.start hb) hblk hc
  have hloaded : ∀ row ∈ quotientCode.handlers, row.Loaded w'.registry quotientMethod.owner := by
    intro row hrow index hindex
    rw [List.mem_singleton.mp hrow] at hindex
    cases hindex
  obtain ⟨hrow, -⟩ := raises_handled [] Registry.built_core rfl hcompile hgraph hreaches hinside
    hraises hlater hcls hloaded
  exact ⟨compiled, graph, drawn, t, id, scope, args, a, w, e, w', hcompile, hgraph, hreaches, hraises,
    hrow _ rfl⟩

/-- Leaves its own monitor, and then throws null. -/
def releaseMethod : Method :=
  { quotientMethod with
    name := "release", descriptor := "()V", signature := ⟨[], none⟩
    code := some { bytes := [0x2a, 0xc3, 0x01, 0xbf], maxLocals := 1, maxStack := 1 } }

/-- Exception that has left an activation after some turns, and its class. -/
def Activation.leaves? (t : ThreadId) (w : World) (a : Activation) (n : Nat) :
    Option (ObjId × Class) :=
  match turns t (fun _ w => w) w ⟨[.activation a], none⟩ n with
  | (w', ⟨[], some (.thrown x)⟩) => (w'.classOf? x).map (x, ·)
  | _ => none

theorem release_faults : faultsWith releaseMethod [] 14 (fun _ t w a (pc, e, w') => pc == 3 &&
    (w'.classOf? e).any (·.name == Fault.nullPointer.className) &&
    (a.leaves? t w 2).any (·.2.name == Fault.illegalMonitorState.className)) = true := by
  decide +kernel

/-- No row covers the throw, and yet what leaves the method is not what was thrown: the monitor is
not there any more to be released. -/
theorem release_replaces_exception : ∃ compiled t id scope args a w e w' c x c',
    (compile {} Registry.core releaseMethod).1 = .ok compiled ∧
    (Activation.start releaseMethod.id id compiled.function scope args).Reaches t a ∧
    a.Raises t w none 3 e w' ∧ w'.classOf? e = some c ∧ c.name = Fault.nullPointer.className ∧
    a.leaves? t w 2 = some (x, c') ∧ c'.name = Fault.illegalMonitorState.className := by
  obtain ⟨code, compiled, graph, drawn, t, id, scope, args, a, w, pc, e, w', -, hcompile, -,
    hreaches, hraises, -, hholds⟩ := exists_of_faultsWith release_faults
  simp only [Bool.and_eq_true, beq_iff_eq] at hholds
  obtain ⟨⟨rfl, hcls⟩, hleaves⟩ := hholds
  obtain ⟨c, hcls, hname⟩ := (Option.any_eq_true _ _).mp hcls
  obtain ⟨⟨x, c'⟩, hleaves, hname'⟩ := (Option.any_eq_true _ _).mp hleaves
  exact ⟨compiled, t, id, scope, args, a, w, e, w', c, x, c', hcompile, hreaches, hraises, hcls,
    beq_iff_eq.mp hname, hleaves, beq_iff_eq.mp hname'⟩

end ManagedCore
