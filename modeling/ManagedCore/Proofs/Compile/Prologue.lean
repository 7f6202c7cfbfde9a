import ManagedCore.Proofs.Compile.Rounds

/-!
# The code in front of a body

Entry to a method stores the arguments into their local slots, checks the stack and polls, and then
goes on at the block of offset zero. The blocks of the flow graph are numbered behind the two
blocks of this code.
-/

namespace ManagedCore

open EmitState Emit Direct List

/-! ## Flow graphs without exception tables -/

namespace FlowGraph

theorem addBlocks_ok (starts : List Nat) (instrs : List Instruction) (f : Function) :
    ∃ k, (addBlocks starts instrs f).1.map (·.1) = instrs ∧
      (addBlocks starts instrs f).1.filterMap (·.2) = range' f.blocks.size k ∧
      (addBlocks starts instrs f).2 = { f with blocks := f.blocks ++ Array.replicate k {} } := by
  induction instrs generalizing f with
  | nil => exact ⟨0, rfl, rfl, by simp [addBlocks]⟩
  | cons i rest ih =>
    rw [addBlocks]
    split
    · obtain ⟨k, hinstrs, hblocks, hfun⟩ := ih f.addBlock.2
      refine ⟨k + 1, congrArg (i :: ·) hinstrs, ?_, ?_⟩
      · exact congrArg (f.blocks.size :: ·) (hblocks.trans (by
          rw [Function.addBlock, Array.size_push]))
      · refine hfun.trans ?_
        rw [Function.addBlock, Array.push_eq_append, Array.append_assoc, Array.replicate_succ']
    · obtain ⟨k, hinstrs, hblocks, hfun⟩ := ih f
      exact ⟨k, congrArg (i :: ·) hinstrs, hblocks, hfun⟩

theorem addRegions_nil (pairs : List (Instruction × Option BlockId)) (f : Function) :
    addRegions [] pairs [] f = (pairs.map fun p =>
      { instr := p.1, block := p.2, region := none, handlerEntry := false }, [], f) := by
  induction pairs with
  | nil => rfl
  | cons p rest ih =>
    rw [addRegions]
    simp only [coveringRows, zipIdx_nil, filter_nil, map_nil, isEmpty_nil,
      if_true, ih, any_nil, map_cons]

theorem ofCode_ok {code : Code} {f f' : Function} {g : FlowGraph} {instrs : List Instruction}
    (hhandlers : code.handlers = []) (hdecode : Bytecode.decode code.bytes = .ok instrs)
    (h : ofCode code f = .ok (g, f')) : ∃ k, g.nodes.map (·.instr) = instrs ∧ g.regions = [] ∧
      g.returnSites = Direct.returnSites instrs ∧ g.blocks = range' f.blocks.size k ∧
      f' = { f with blocks := f.blocks ++ Array.replicate k {} } := by
  obtain ⟨k, hinstrs, hblocks, hfun⟩ := addBlocks_ok (startOffsets code instrs) instrs f
  rw [ofCode, hdecode, hhandlers] at h
  have hok : Except.ok ({ nodes := _, regions := _, returnSites := _ }, _) = Except.ok (g, f') := h
  simp only [addRegions_nil] at hok
  cases hok
  refine ⟨k, ?_, rfl, rfl, ?_, hfun⟩
  · rw [map_map]
    exact hinstrs
  · rw [blocks, filterMap_map]
    exact hblocks

end FlowGraph

/-! ## Arguments -/

/-- Stores of the arguments in consecutive registers into consecutive slots. -/
def argumentStores : Nat → Nat → List ValueType → List Instr
  | _, _, [] => []
  | slot, r, t :: ts => .storeLocal slot r :: argumentStores (slot + t.slots) (r + 1) ts

def withArguments (st : EmitState) (slot : Nat) (ts : List ValueType) (blk : Block) : EmitState :=
  { st with
    function := { st.function with
      regTypes := st.function.regTypes ++ ts.toArray
      blocks := #[{ blk with
        params := blk.params ++ range' st.nextReg ts.length
        instrs := blk.instrs ++
          ((argumentStores slot st.nextReg ts).map (PlacedInstr.mk · st.pc)).toArray }] } }

variable {blk : Block}

theorem parameters_ok {st : EmitState} (hblock : st.block = 0)
    (hblocks : st.function.blocks = #[blk]) (slot : Nat) (ts : List ValueType) :
    ∃ regs, method.parameters 0 slot ts st = .ok regs (withArguments st slot ts blk) := by
  induction ts generalizing st blk slot with
  | nil =>
    refine ⟨[], ?_⟩
    simp only [withArguments, argumentStores, length_nil, range'_zero, append_nil,
      map_nil, Array.append_empty, ← hblocks]
    rfl
  | cons t ts ih =>
    let blk' : Block := { blk with
      params := blk.params ++ [st.nextReg]
      instrs := blk.instrs.push ⟨.storeLocal slot st.nextReg, st.pc⟩ }
    let mid := (st.addParam 0 t).addInstr (.storeLocal slot st.nextReg)
    have hmid : mid.function.blocks = #[blk'] := by
      simp only [mid, addParam, addReg, Function.addReg, hblocks, hblock]
      rfl
    obtain ⟨regs, hregs⟩ := @ih blk' mid hblock hmid (slot + t.slots)
    have hend : withArguments mid (slot + t.slots) ts blk' = withArguments st slot (t :: ts) blk := by
      have hreg : mid.nextReg = st.nextReg + 1 := Array.size_push _
      have htypes : mid.function.regTypes = st.function.regTypes.push t := rfl
      have hpush : ∀ {α : Type} (xs : Array α) (x : α) (ys : List α),
          xs.push x ++ ys.toArray = xs ++ (x :: ys).toArray := by simp
      simp only [withArguments, hreg, htypes, blk', append_assoc, hpush]
      rfl
    refine ⟨st.nextReg :: regs, ?_⟩
    have hparam : newParam 0 t st = .ok st.nextReg (st.addParam 0 t) := rfl
    have hinstr : instr (.storeLocal slot st.nextReg) (st.addParam 0 t) = .ok () mid := rfl
    rw [method.parameters, bind_eq hparam, bind_eq hinstr, bind_eq hregs, hend]
    rfl

/-- The stores do what storing the arguments directly does. -/
theorem run_argumentStores (tid : ThreadId) {pc : Nat} (args : List Value)
    {a : Activation} {slot r : Nat} (hwait : a.wait = .nothing)
    (hblk : a.function.block? a.block = some blk) (hcode : blk.instrs.toList.drop a.index =
      (argumentStores slot r (args.map Value.type)).map (PlacedInstr.mk · pc))
    (hargs : (range' r args.length).map a.get = args) :
    match Direct.storeArguments slot args a.locals with
    | some locals =>
      Leads tid args.length a
        { a with locals, index := a.index + args.length, wait := .nothing }
    | none => ∃ n b, Leads tid n a b ∧ Finishes tid .fatal b := by
  induction args generalizing a slot r with
  | nil =>
    have hsame : { a with wait := .nothing } = a := by rw [← hwait]
    change Leads tid 0 a { a with wait := .nothing }
    rw [hsame]
    exact .here a
  | cons v args ih =>
    obtain ⟨hv, htail⟩ := cons.inj hargs
    have hfirst : blk.instrs[a.index]? = some ⟨.storeLocal slot r, pc⟩ := by
      rw [← Array.getElem?_toList, ← head?_drop, hcode]
      rfl
    have hbefore : a.Before (.storeLocal slot r) := ⟨hwait, blk, pc, hblk, hfirst⟩
    rw [Direct.storeArguments]
    by_cases hlt : slot < a.locals.size
    · rw [if_pos hlt]
      let b := { a with locals := a.locals.setIfInBounds slot v }.next
      have hgo : Goes tid a b := by
        have hstore := Activation.goes_storeLocal (t := tid) hbefore hlt
        rwa [hv] at hstore
      have hcode' : blk.instrs.toList.drop (a.index + 1) = (argumentStores
          (slot + v.type.slots) (r + 1) (args.map Value.type)).map (PlacedInstr.mk · pc) := by
        rw [← drop_drop, hcode]
        rfl
      have hrest := ih (a := b) rfl hblk hcode' htail
      rw [show b.locals = a.locals.setIfInBounds slot v from rfl] at hrest
      cases hs : Direct.storeArguments (slot + v.type.slots) args
          (a.locals.setIfInBounds slot v) with
      | some locals =>
        rw [hs] at hrest
        have hindex : b.index + args.length = a.index + (v :: args).length := by
          change a.index + 1 + args.length = a.index + (args.length + 1)
          omega
        rw [hindex] at hrest
        exact .go hgo hrest
      | none =>
        rw [hs] at hrest
        obtain ⟨n, c, hleads, hfin⟩ := hrest
        exact ⟨n + 1, c, .go hgo hleads, hfin⟩
    · rw [if_neg hlt]
      exact ⟨0, a, .here a, Activation.finishes_storeLocal hbefore (Nat.not_lt.mp hlt)⟩

/-! ## Entry -/

def entryBlock (ts : List ValueType) : Block :=
  { params := range' 0 ts.length
    instrs := ((argumentStores 0 0 ts).map (PlacedInstr.mk · 0)).toArray
    terminator := .jump ⟨1, []⟩ }

/-- Behind the entry block, with the blocks of a flow graph added. -/
def atBody (st : EmitState) (ts : List ValueType) (blocks : Nat) : EmitState :=
  { st with
    block := 1
    function := { st.function with
      entry := 0
      regTypes := ts.toArray
      blocks := #[entryBlock ts, {}] ++ Array.replicate blocks {} } }

structure Fresh (st : EmitState) : Prop where
  blocks : st.function.blocks = #[]
  regs : st.function.regTypes = #[]
  block : st.block = 0
  pc : st.pc = 0
  shapes : st.shapes = []
  emitted : st.emitted = []

section

variable {st st' fin : EmitState} {ts : List ValueType} {k : Nat} {body : Body}
  {instrs : List Instruction} {d : State} {a : Activation} {tid : ThreadId}
  {args : List Value} {scope : Scope} {m : MethodId} {id : CodeId}

theorem block_atBody (b : Nat) : (atBody st ts k).function.block? b =
    if b = 0 then some (entryBlock ts) else if b < 2 + k then some {} else none := by
  change (#[entryBlock ts, {}] ++ Array.replicate k ({} : Block))[b]? = _
  rw [Array.getElem?_append, Array.getElem?_replicate]
  match b with
  | 0 => rfl
  | 1 => exact (if_pos (Nat.lt_add_right k Nat.one_lt_two)).symm
  | b + 2 =>
    have hge : ¬ b + 2 < 2 := by omega
    have hlt : b < k ↔ b + 2 < 2 + k := by omega
    simp [hge, hlt]

theorem block_atBody_one : (atBody st ts k).function.block? 1 = some {} := by
  rw [block_atBody, if_neg Nat.one_ne_zero, if_pos (Nat.lt_add_right k Nat.one_lt_two)]

theorem sound_atBody (hfresh : Fresh st) (hblocks : body.graph.blocks = range' 2 k) :
    Sound body.graph (atBody st ts k) where
  current hp := by
    have hmem : 1 ∈ body.graph.blocks := hp.1
    rw [hblocks, mem_range'_1] at hmem
    omega
  inRange := ⟨{}, block_atBody_one⟩
  handlers b blk hblk := by
    rw [block_atBody] at hblk
    split at hblk
    · cases hblk
      rfl
    · split at hblk
      · cases hblk
        rfl
      · cases hblk
  graph b hb := by
    rw [hblocks, mem_range'_1] at hb
    refine ⟨{}, ?_, fun _ => ⟨rfl, rfl⟩, fun _ => ⟨rfl, ?_⟩⟩
    · rw [block_atBody, if_neg (by omega), if_pos hb.2]
    · rw [show (atBody st ts k).emitted = [] from hfresh.emitted]
      exact not_mem_nil
  shaped b ps hlook := by
    rw [show (atBody st ts k).shapes = [] from hfresh.shapes] at hlook
    cases hlook

theorem open_atBody : (atBody st ts k).Open := ⟨{}, block_atBody_one, rfl⟩

theorem flowGraph_ok {code : Code} {g : FlowGraph} (h : flowGraph code st = .ok g st') :
    ∃ f, FlowGraph.ofCode code st.function = .ok (g, f) ∧ st' = { st with function := f } := by
  have hlift := get_ok h
  obtain ⟨_, _, hlift, hrest⟩ := bind_ok hlift
  obtain ⟨hof, rfl⟩ := liftExcept_ok hlift
  cases hrest
  exact ⟨_, hof, rfl⟩

def prologue (body : Body) : Emit Unit := do
  let ok ← value .i32 (.stackCheck ·)
  raiseUnless ok .stackOverflow [] none
  instr .safepoint
  enterBody body

def EmitState.atEntry (st : EmitState) : EmitState :=
  { st.addBlock with function := { st.addBlock.function with entry := 0 }, block := 0 }

def EmitState.startBody (st : EmitState) (lock : Option (Reg × BlockId)) : EmitState :=
  let new := st.addHandled (lock.map (·.2))
  { ({ new with block := 0 }.close (.jump ⟨st.nextBlock, []⟩)) with block := st.nextBlock }

def Body.ofMethod (m : Method) (code : Code) (graph : FlowGraph) (lock : Option (Reg × BlockId)) :
    Body :=
  { method := m
    code
    graph
    localBase := 0
    fallback := lock.map (·.2)
    exit := .result (lock.map (·.1))
    chain := [m.id]
    callPc := none }

/-- All of a method but the code of its body. -/
def Emit.front (m : Method) (code : Code) : Emit (FlowGraph × Option (Reg × BlockId)) := do
  let entry ← newBlock none
  modifyFunction fun f => { f with entry }
  switchTo entry
  let params ← method.parameters entry 0 m.paramTypes
  let lock ← acquire m params
  let start ← newBlock (lock.map (·.2))
  switchTo entry
  terminate (.jump ⟨start, []⟩)
  switchTo start
  let graph ← flowGraph code
  prologue (.ofMethod m code graph lock)
  return (graph, lock)

theorem Emit.method_eq (m : Method) (code : Code) : method m code = (do
    let (graph, lock) ← front m code
    let s ← get
    fillBody (expander (min s.config.maxInlineDepth s.registry.methods.size))
      (.ofMethod m code graph lock)) := by
  simp only [method, front, prologue, bind_assoc, pure_bind]
  rfl

theorem method_steps {m : Method} {code : Code} (hempty : st.function.blocks = #[])
    (h : method m code st = .ok () fin) : ∃ regs lock st₁ graph drawn mid depth,
      method.parameters 0 0 m.paramTypes st.atEntry =
        .ok regs (withArguments st.atEntry 0 m.paramTypes {}) ∧
      acquire m regs (withArguments st.atEntry 0 m.paramTypes {}) = .ok lock st₁ ∧
      flowGraph code (st₁.startBody lock) = .ok graph drawn ∧
      prologue (.ofMethod m code graph lock) drawn = .ok () mid ∧
      fillBody (expander depth) (.ofMethod m code graph lock) mid = .ok () fin := by
  have hzero : st.nextBlock = 0 := by rw [nextBlock, hempty]; rfl
  have hentry : st.atEntry.function.blocks = #[{}] := by
    change st.function.blocks.push {} = #[{}]
    rw [hempty]
    rfl
  rw [method, bind_eq newBlock_none, hzero] at h
  obtain ⟨regs, hregs⟩ := @parameters_ok {} st.atEntry rfl hentry 0 m.paramTypes
  have hrest : (acquire m regs >>= _) (withArguments st.atEntry 0 m.paramTypes {}) =
      .ok () fin := (bind_eq hregs).symm.trans h
  obtain ⟨lock, st₁, hlock, hrest⟩ := bind_ok hrest
  rw [bind_eq (newBlock_eq st₁ _)] at hrest
  have hbody : (flowGraph code >>= _) (st₁.startBody lock) = .ok () fin := hrest
  obtain ⟨graph, drawn, hdraw, hbody⟩ := bind_ok hbody
  obtain ⟨ok, mid₁, h₁, hbody⟩ := bind_ok hbody
  obtain ⟨_, mid₂, h₂, hbody⟩ := bind_ok hbody
  obtain ⟨_, mid₃, h₃, hbody⟩ := bind_ok hbody
  obtain ⟨_, mid, h₄, hbody⟩ := bind_ok hbody
  have hfill := get_ok hbody
  refine ⟨regs, lock, st₁, graph, drawn, mid, _, hregs, hlock, hdraw, ?_, hfill⟩
  rw [prologue, bind_eq h₁, bind_eq h₂, bind_eq h₃]
  exact h₄

def EmitState.ofMethod (config : Config) (registry : Registry) (m : Method) (code : Code) :
    EmitState :=
  { config
    registry
    function :=
      { name := m.text
        params := m.paramTypes
        result := m.signature.resultType
        maxLocals := code.maxLocals } }

theorem compile_ok {config : Config} {registry : Registry} {m : Method} {compiled : Compiled}
    (h : (compile config registry m).1 = .ok compiled) : ∃ code last, m.code = some code ∧
      method m code (.ofMethod config registry m code) = .ok () last ∧
      compiled.function = last.function ∧ compiled.stackMaps = last.function.stackMaps ∧
      compiled.sites = last.sites ∧ (compile config registry m).2 = last.registry := by
  unfold compile at h ⊢
  split at h
  · cases h
  · rename_i code hcode
    dsimp only at h ⊢
    split at h
    · cases h
    · rename_i last hrun
      cases h
      exact ⟨code, last, hcode, hrun, rfl, rfl, rfl, rfl⟩

theorem method_ok {m : Method} {code : Code} (hfresh : Fresh st) (hsync : m.isSynchronized = false)
    (hhandlers : code.handlers = []) (hdecode : Bytecode.decode code.bytes = .ok instrs)
    (hcovers : ∀ i ∈ instrs, covers i.op = true) (h : method m code st = .ok () fin) :
    ∃ body expand k mid, PlainBody body instrs ∧ body.code = code ∧
      body.graph.blocks = range' 2 k ∧ prologue body (atBody st m.paramTypes k) = .ok () mid ∧
      fillBody expand body mid = .ok () fin := by
  obtain ⟨regs, lock, st₁, g, drawn, mid, depth, -, hlock, hdraw, hprologue, hfill⟩ :=
    method_steps hfresh.blocks h
  rw [acquire, hsync] at hlock
  cases hlock
  have hblocks₁ : ((withArguments st.atEntry 0 m.paramTypes {}).startBody none).function.blocks =
      #[entryBlock m.paramTypes, {}] := by
    have hreg : st.atEntry.nextReg = 0 := by
      change st.function.regTypes.size = 0
      rw [hfresh.regs]
      rfl
    have hpc : st.atEntry.pc = 0 := hfresh.pc
    simp only [withArguments, hreg, hpc, Array.empty_append]
    rfl
  obtain ⟨f, hof, rfl⟩ := flowGraph_ok hdraw
  obtain ⟨k, hnodes, hregions, hsites, hblocks, rfl⟩ := FlowGraph.ofCode_ok hhandlers hdecode hof
  rw [hblocks₁] at hprologue
  have hregs : st.function.regTypes ++ m.paramTypes.toArray = m.paramTypes.toArray := by
    rw [hfresh.regs, Array.empty_append]
  refine ⟨_, _, k, mid, ?_, rfl, hblocks, ?_, hfill⟩
  · exact ⟨rfl, rfl, rfl, hnodes, hregions, hsites, hblocks ▸ nodup_range',
      Bytecode.decode_consecutive hdecode, hcovers, fun i hi => Bytecode.decode_fits hdecode hi⟩
  · refine (congrArg (prologue _) ?_).trans hprologue
    simp only [startBody, withArguments, atEntry, addBlock, Function.addBlock, hregs]
    rfl

/-! ## Running the entry -/

theorem evaluate_stackCheck {w : World} (hw : Serves tid w) (r : Reg) :
    (Exec.evaluate a (.stackCheck r)).runOn tid w = .ok (.assign r (ofBool true)) w := by
  obtain ⟨th, hth, hroom⟩ := hw.room
  have hthread : Exec.thread.runOn tid w = .ok th w := by
    refine (Exec.bind_runOn rfl).trans ?_
    rw [Exec.get_runOn, hth]
    rfl
  rw [Exec.evaluate, Exec.bind_runOn hthread, hroom]
  rfl

theorem prologue_ok (hs : Sound body.graph st) (ho : st.Open) (h : prologue body st = .ok () st') :
    Ends body.graph st st' ∧ ∀ ⦃fin⦄ ⦃d : State⦄ ⦃a⦄ (tid : ThreadId),
      Sound body.graph fin → Extends body.graph st' fin → Tracks body fin st [] d a →
      ∃ n b, Leads tid n a b ∧ AtBlock body fin { d with pc := 0 } b := by
  obtain ⟨ok, st₁, hcheck, hcode⟩ := bind_ok h
  cases hcheck
  let st₁ := st.addValue .i32 (.stackCheck ·)
  have h₁ : Continues body.graph st st₁ := (Continues.refl hs ho).addValue _ _
  let branch := st₁.guardBranch st.nextReg false
  let failure : Terminator := .raise .stackOverflow [] none
  have h₂ : Continues body.graph st₁ (st₁.fork branch failure) :=
    .fork h₁.sound h₁.opened (guardBranch_ne _ _) _
  have hcode' : (instr .safepoint >>= fun _ => enterBody body) (st₁.fork branch failure) =
      .ok () st' :=
    (bind_eq (h₁.sound.guard st.nextReg false .stackOverflow [] none)).symm.trans hcode
  obtain ⟨_, st₃, hpoll, henter⟩ := bind_ok hcode'
  cases hpoll
  have h₃ := (Continues.refl h₂.sound h₂.opened).addInstr .safepoint
  obtain ⟨hends, hruns⟩ := jumpTo_ok h₃.sound h₃.opened henter
  refine ⟨h₁.ends (h₂.ends (h₃.ends hends)), fun fin d a tid hfin he htr => ?_⟩
  have he₃ := hends.later.trans he
  have he₂ := h₃.later.trans he₃
  obtain ⟨b₁, hl₁, hcond, htr₁⟩ := htr.addValue tid hs (h₂.later.trans he₂) rfl
    fun w hw => evaluate_stackCheck hw _
  obtain ⟨-, -, htail⟩ := htr₁.top rfl
  obtain ⟨blk, hatEnd, hterm⟩ := htail.stands.atFork h₁.sound (guardBranch_ne _ _) he₂
  have hgo := Activation.goes_goTo (t := tid) hatEnd (Activation.terminate_branch hterm hcond)
  have hpass : Tracks body fin (st₁.fork branch failure) _ _ _ := htail.pass
  obtain ⟨b₃, hl₃, htr₃⟩ := hpass.addPoll tid h₂.sound he₃
  obtain ⟨b₄, hl₄, hblock⟩ := hruns tid hfin he htr₃
  exact ⟨_, b₄, hl₁.trans (.go hgo (hl₃.trans hl₄)), hblock⟩

theorem start_enters {f : Function}
    (hblk : f.block? f.entry = some blk) (hparams : blk.params = range' 0 args.length)
    (hregs : args.length ≤ f.regTypes.size) (ha : a = Activation.start m id f scope args) :
    (a.function = f ∧ a.wait = .nothing ∧ a.block = f.entry ∧ a.index = 0) ∧
      a.regs.size = f.regTypes.size ∧ a.locals = Array.replicate f.maxLocals (.int 0) ∧
      (range' 0 args.length).map a.get = args := by
  let a₀ : Activation :=
    { method := m, code := id, function := f, scope, block := f.entry
      regs := Array.replicate f.regTypes.size default
      locals := Array.replicate f.maxLocals default }
  let b := ((range' 0 args.length).zip args).foldl (fun a p => a.set p.1 p.2) a₀
  have hstart : a = { b with block := f.entry, index := 0, wait := .nothing } := by
    have hps : ((f.block? f.entry).map Block.params).getD [] = range' 0 args.length := by
      rw [hblk, Option.map_some, Option.getD_some, hparams]
    simp only [ha, Activation.start, Activation.enter, hps, b, a₀]
  have hlt : ∀ p ∈ range' 0 args.length, p < a₀.regs.size := by
    intro p hp
    rw [mem_range'_1] at hp
    rw [Array.size_replicate]
    omega
  obtain ⟨hvals, -, hsize, heq⟩ := Activation.foldl_set nodup_range' length_range' hlt
  have hlocals : b.locals = a₀.locals := (congrArg Activation.locals heq).trans rfl
  have hfun : b.function = a₀.function := (congrArg Activation.function heq).trans rfl
  rw [hstart]
  exact ⟨⟨hfun, rfl, rfl, rfl⟩, hsize.trans Array.size_replicate, hlocals, hvals⟩

theorem Direct.size_storeArguments {slot : Nat} {locals locals' : Array Value}
    (h : Direct.storeArguments slot args locals = some locals') : locals'.size = locals.size := by
  induction args generalizing slot locals with
  | nil =>
    cases h
    rfl
  | cons v vs ih =>
    rw [Direct.storeArguments] at h
    split at h
    · rw [ih h, Array.size_setIfInBounds]
    · cases h

theorem size_argumentStores (slot r : Nat) (ts : List ValueType) :
    (argumentStores slot r ts).length = ts.length := by
  induction ts generalizing slot r with
  | nil => rfl
  | cons t ts ih => rw [argumentStores, length_cons, ih, length_cons]

/-- A new activation gets to the block of offset zero, with its arguments in their slots. -/
theorem start_simulates (hfresh : Fresh st) (hblocks : body.graph.blocks = range' 2 k)
    (hlocals : st.function.maxLocals = body.code.maxLocals) (hargs : args.map Value.type = ts)
    (hcode : prologue body (atBody st ts k) = .ok () st') (hfin : Sound body.graph fin)
    (he : Extends body.graph st' fin) :
    Simulates tid 0 (AtBlock body fin) (Activation.start m id fin.function scope args)
      (start body.code.maxLocals args) := by
  have hs : Sound body.graph (atBody st ts k) := sound_atBody hfresh hblocks
  obtain ⟨hends, hruns⟩ := prologue_ok hs open_atBody hcode
  have hlater := hends.later.trans he
  obtain ⟨hentry, hmax⟩ : fin.function.entry = 0 ∧
      fin.function.maxLocals = body.code.maxLocals := by
    have hframe := Prod.mk.inj hlater.frame
    exact ⟨hframe.1, hframe.2.trans hlocals⟩
  have hentryBlock : (atBody st ts k).function.block? 0 = some (entryBlock ts) := by
    rw [block_atBody, if_pos rfl]
  have hblock : fin.function.block? fin.function.entry = some (entryBlock ts) := by
    rw [hentry]
    refine (hlater.fixed 0 ⟨entryBlock ts, hentryBlock, fun hp => ?_, nofun⟩).2.trans hentryBlock
    have hmem := hp.1
    rw [hblocks, mem_range'_1] at hmem
    omega
  have hlen : ts.length = args.length := by rw [← hargs, length_map]
  have hregs : args.length ≤ fin.function.regTypes.size := by
    have hle := hlater.nextReg_le
    rwa [show (atBody st ts k).nextReg = ts.length from size_toArray, hlen] at hle
  generalize ha : Activation.start m id fin.function scope args = a
  obtain ⟨⟨hfun, hwait, hblk, hindex⟩, hsize, halocals, hvals⟩ :=
    start_enters hblock (by rw [entryBlock, hlen]) hregs ha.symm
  have hstores : (entryBlock ts).instrs.toList.drop a.index =
      (argumentStores 0 0 (args.map Value.type)).map (PlacedInstr.mk · 0) := by
    rw [hindex, hargs]
    rfl
  have hcurrent : a.function.block? a.block = some (entryBlock ts) := by rw [hfun, hblk, hblock]
  have hrun := run_argumentStores tid args hwait hcurrent hstores hvals
  rw [halocals, hmax] at hrun
  rw [start]
  cases hstore : Direct.storeArguments 0 args (Array.replicate body.code.maxLocals (.int 0)) with
  | none =>
    rw [hstore] at hrun
    exact hrun
  | some locals =>
    rw [hstore] at hrun
    let b : Activation := { a with locals, index := a.index + args.length, wait := .nothing }
    have hatEnd : b.AtEnd (entryBlock ts) := by
      refine ⟨rfl, hcurrent, Array.getElem?_eq_none ?_⟩
      change (entryBlock ts).instrs.size ≤ a.index + args.length
      rw [entryBlock, size_toArray, length_map, size_argumentStores]
      omega
    have hgo := Activation.goes_goTo (t := tid) hatEnd fun w => Activation.terminate_jump rfl w
    have htr : Tracks body fin (atBody st ts k) [] { pc := 0, stack := [], locals }
        (b.goTo ⟨1, []⟩) := by
      rw [Activation.goTo_nil]
      refine ⟨⟨hfun, rfl, rfl, fun blk' hblk' => ?_, hsize⟩, ⟨rfl, nofun⟩, rfl, ?_⟩
      · rw [show (atBody st ts k).block = 1 from rfl, block_atBody_one, Option.some.injEq] at hblk'
        rw [← hblk']
        rfl
      · rw [size_storeArguments hstore, Array.size_replicate]
    obtain ⟨n, c, hleads, hat⟩ := hruns tid hfin he htr
    exact ⟨_, c, Nat.zero_le _, hrun.trans (.go hgo hleads), hat⟩

end

end ManagedCore
