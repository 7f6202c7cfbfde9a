import ManagedCore.Proofs.Machine.Targets

/-!
# What activations know about classes

An activation that is past a check of a class, or has been given the class of a static field, can
rely on the class being initialized or claimed by its own thread further down the stack. Claims stay
as long as what stands above them, so nothing that happens in between takes this away. A static
method is called by compiled code only if its class can be relied upon in this way, unless the call
is bound when it is made and names another class.
-/

namespace ManagedCore

open World Exec Option

variable {r : Registry} {rest : List Task} {above' : Task ⊕ Outcome} {target : CallTarget}
  {o : Outcome} {m : Method} {c : Option Class} {r' : Registry}

/-! ## Classes to rely on -/

/-- The class is there and initialized, or it is claimed by the tasks. -/
def Granted (r : Registry) (tasks : List Task) (c : ClassId) : Prop :=
  r.phase? c = some .initialized ∨ c ∈ claims tasks

namespace Granted

variable {r r' : Registry} {tasks rest : List Task} {c : ClassId}

theorem onward (h : Granted r tasks c) (hr : r.Onward r') : Granted r' tasks c :=
  h.imp_left hr.phase?

theorem cons (h : Granted r rest c) (task : Task) : Granted r (task :: rest) c :=
  h.imp_right (claims_subset (List.suffix_cons task rest))

theorem of_ready {cls : Class} (hcls : r.class? c = some cls) (h : Ready r tasks c) :
    Granted r tasks c :=
  h.imp_left fun hphase => Registry.phase?_eq_some.mpr ⟨⟨cls, hcls⟩, hphase⟩

end Granted

/-- A request for one of these classes stands above the tasks, or it has been answered. -/
def Awaited (r : Registry) (rest : List Task) (P : ClassId → Prop) : Task ⊕ Outcome → Prop
  | .inl task => ∃ c stage, task = .prepare c stage ∧ P c
  | .inr (.value _) => ∃ c, P c ∧ Granted r rest c
  | .inr _ => True

theorem Awaited.onward {P Q : ClassId → Prop} {above : Task ⊕ Outcome}
    (h : Awaited r rest P above) (hr : r.Onward r') (hpq : ∀ c, P c → Q c) :
    Awaited r' rest Q above := by
  unfold Awaited at h ⊢
  split at h
  · obtain ⟨c, stage, htask, hc⟩ := h
    exact ⟨c, stage, htask, hpq c hc⟩
  · obtain ⟨c, hc, hgranted⟩ := h
    exact ⟨c, hpq c hc, hgranted.onward hr⟩
  · trivial

namespace Activation

variable {a b : Activation} {r r' : Registry} {rest : List Task} {c : ClassId}

def before? (a : Activation) : Option Instr := (a.function.block? a.block).bind (·.before? a.index)

theorem before?_next (hfun : b.function = a.function) (hblock : b.block = a.block)
    (hindex : b.index = a.index + 1) : b.before? = a.instr?.map (·.instr) := by
  rw [before?, instr?, hfun, hblock, hindex]
  cases a.function.block? a.block <;> rfl

theorem before?_start (hindex : a.index = 0) : a.before? = none := by
  rw [before?, hindex]
  cases a.function.block? a.block <;> rfl

def Asks (r : Registry) (a : Activation) (c : ClassId) : Prop :=
  ∃ p cls, a.instr? = some p ∧ p.instr.Asks r c ∧ r.class? c = some cls

theorem Asks.onward (h : a.Asks r c) (ho : r.Orderly) (hr : r.Onward r') : a.Asks r' c := by
  obtain ⟨p, cls, hp, hasks, hcls⟩ := h
  obtain ⟨cls', hcls', -⟩ := hr.later.keeps.classes c cls hcls
  exact ⟨p, cls', hp, hasks.keep ho hr.later.keeps, hcls'⟩

/-- If the instruction in front is a check, its class can be relied upon. -/
def Assured (r : Registry) (rest : List Task) (a : Activation) : Prop :=
  ∀ i, a.before? = some i → i.isCheck = true → ∃ c, i.Asks r c ∧ Granted r rest c

theorem Assured.onward (h : a.Assured r rest) (ho : r.Orderly) (hr : r.Onward r') :
    a.Assured r' rest := by
  intro i hi hcheck
  obtain ⟨c, hasks, hgranted⟩ := h i hi hcheck
  exact ⟨c, hasks.keep ho hr.later.keeps, hgranted.onward hr⟩

/-- The activation runs code of the world, sits where its wait says, and can rely on what it has
checked. -/
structure Kept (w : World) (rest : List Task) (a : Activation) : Prop where
  linked : a.Linked w
  sits : a.Sits
  assured : a.Assured w.registry rest

theorem Kept.forward {w w' : World} (h : a.Kept w rest) (ho : w.registry.Orderly)
    (hw : w.Forward w') : a.Kept w' rest :=
  ⟨h.linked.forward hw, h.sits, h.assured.onward ho hw.registry⟩

def Acts (r : Registry) (rest : List Task) (a : Activation) : Prop :=
  match a.wait with
  | .checked => ∃ c, a.Asks r c ∧ Granted r rest c
  | .call _ _ | .initialization _ => False
  | _ => True

/-- The instruction at hand is a call that names a class other than the one where its method turns
out to be, and that class can be relied upon. -/
def Misnames (r : Registry) (rest : List Task) (a : Activation) (owner : ClassId) : Prop :=
  ∃ p dest index member args k, a.instr? = some p ∧
    p.instr = .call dest (.direct (.lazy index (.method member))) args ∧
    r.loaded? member.owner = some k ∧ k.id ≠ owner ∧ Granted r rest k.id

theorem Misnames.onward {owner : ClassId} (h : a.Misnames r rest owner) (hr : r.Onward r') :
    a.Misnames r' rest owner := by
  obtain ⟨p, dest, index, member, args, k, hp, hcall, hk, hne, hgranted⟩ := h
  obtain ⟨k', hk', hsame⟩ := hr.later.keeps.names _ k hk
  have hid : k'.id = k.id := by rw [hsame]
  exact ⟨p, dest, index, member, args, k', hp, hcall, hk', hid ▸ hne, hid ▸ hgranted.onward hr⟩

end Activation

/-! ## Tasks -/

/-- A method may be called: the class of a static one can be relied upon, unless a native method
calls it, or compiled code that passes a receiver or names another class. -/
def Called (r : Registry) (rest : List Task) (m : MethodId) (args : List Value) : Prop :=
  (∃ s below, rest = .script s :: below) ∨ ∃ method, r.method? m = some method ∧
    (method.isStatic = true → Granted r rest method.owner ∨
      ∃ a below, rest = .activation a :: below ∧
        (args.length = method.signature.paramTypes.length + 1 ∨ a.Misnames r below method.owner))

theorem Called.onward {m : MethodId} {args : List Value} (h : Called r rest m args)
    (hr : r.Onward r') : Called r' rest m args := by
  refine h.imp_right fun ⟨method, hmethod, hgranted⟩ => ?_
  obtain ⟨method', hmethod', hsame⟩ := hr.later.keeps.methods m method hmethod
  refine ⟨method', hmethod', ?_⟩
  rw [hsame]
  intro hstatic
  refine (hgranted hstatic).imp (·.onward hr) ?_
  rintro ⟨a, below, hrest, hexcused⟩
  exact ⟨a, below, hrest, hexcused.imp_right (·.onward hr)⟩

namespace Task

def Acts (w : World) (rest : List Task) : Task → Prop
  | .activation a => a.Kept w rest ∧ a.Acts w.registry rest
  | .call m args | .entering m _ args => Called w.registry rest m args
  | .deferred _ _ => False
  | _ => True

/-- The class that a call waits for is that of its method. -/
def Owned (r : Registry) (m : MethodId) (c : ClassId) : Prop :=
  ∃ method cls, r.method? m = some method ∧ method.owner = c ∧ r.class? c = some cls

def Waits (w : World) (above : Task ⊕ Outcome) (rest : List Task) : Task → Prop
  | .activation a => a.Kept w rest ∧ match a.wait with
      | .call _ _ => True
      | .initialization _ => Awaited w.registry rest (a.Asks w.registry) above
      | _ => False
  | .deferred m _ => Awaited w.registry rest (Owned w.registry m) above
  | _ => True

variable {w w' : World} {above : Task ⊕ Outcome} {rest : List Task} {task : Task}

theorem Acts.forward (h : task.Acts w rest) (ho : w.registry.Orderly) (hw : w.Forward w') :
    task.Acts w' rest := by
  have hr := hw.registry
  cases task with
  | activation a =>
    refine ⟨h.1.forward ho hw, ?_⟩
    have hacts := h.2
    unfold Activation.Acts at hacts ⊢
    split
    · rename_i hwait
      rw [hwait] at hacts
      obtain ⟨c, hasks, hgranted⟩ := hacts
      exact ⟨c, hasks.onward ho hr, hgranted.onward hr⟩
    · rename_i hwait
      rw [hwait] at hacts
      exact hacts
    · rename_i hwait
      rw [hwait] at hacts
      exact hacts
    · trivial
  | call | entering => exact Called.onward h hr
  | _ => exact h

theorem Waits.change (h : task.Waits w above rest)
    (hchange : ∀ P : ClassId → Prop, (∀ c, P c → ∃ cls, w.registry.class? c = some cls) →
      Awaited w.registry rest P above → Awaited w.registry rest P above') :
    task.Waits w above' rest := by
  cases task with
  | activation a =>
    refine ⟨h.1, ?_⟩
    have hwaits := h.2
    split at hwaits
    · trivial
    · refine hchange _ ?_ hwaits
      rintro c ⟨p, cls, -, -, hcls⟩
      exact ⟨cls, hcls⟩
    · exact hwaits
  | deferred m args =>
    refine hchange _ ?_ h
    rintro c ⟨method, cls, -, -, hcls⟩
    exact ⟨cls, hcls⟩
  | _ => trivial

theorem Waits.forward (h : task.Waits w above rest) (ho : w.registry.Orderly)
    (hw : w.Forward w') : task.Waits w' above rest := by
  have hr := hw.registry
  cases task with
  | activation a =>
    refine ⟨h.1.forward ho hw, ?_⟩
    have hwaits := h.2
    split at hwaits
    · trivial
    · exact Awaited.onward hwaits hr fun c hc => hc.onward ho hr
    · exact hwaits
  | deferred m args =>
    refine Awaited.onward h hr ?_
    rintro c ⟨method, cls, hmethod, rfl, hcls⟩
    obtain ⟨method', hmethod', hsame⟩ := hr.later.keeps.methods m method hmethod
    obtain ⟨cls', hcls', -⟩ := hr.later.keeps.classes _ cls hcls
    refine ⟨method', cls', hmethod', ?_, hcls'⟩
    rw [hsame]
  | _ => trivial

end Task

def Lined (w : World) : Task ⊕ Outcome → List Task → Prop
  | _, [] => True
  | above, task :: rest => task.Waits w above rest ∧ Lined w (.inl task) rest

namespace Lined

variable {w w' : World} {above : Task ⊕ Outcome} {tasks rest : List Task} {task : Task}
  {c : ClassId} {stage : InitStage}

theorem forward (h : Lined w above tasks) (ho : w.registry.Orderly) (hw : w.Forward w') :
    Lined w' above tasks := by
  induction tasks generalizing above with
  | nil => trivial
  | cons task rest ih => exact ⟨h.1.forward ho hw, ih h.2⟩

theorem change (h : Lined w above rest)
    (hchange : ∀ below (P : ClassId → Prop), claims below = claims rest →
      (∀ c, P c → ∃ cls, w.registry.class? c = some cls) →
      Awaited w.registry below P above → Awaited w.registry below P above') :
    Lined w above' rest := by
  cases rest with
  | nil => trivial
  | cons task below =>
    refine ⟨?_, h.2⟩
    by_cases htask : task.isRequest = true
    · cases task with
      | prepare c stage => trivial
      | _ => cases htask
    · rw [Bool.not_eq_true] at htask
      exact h.1.change fun P => hchange below P (claims_cons_of_not_request htask).symm

theorem swap (h : Lined w (.inl task) rest) (htask : task.isRequest = false)
    (above : Task ⊕ Outcome) : Lined w above rest := by
  refine h.change ?_
  rintro below P - - ⟨c, stage, rfl, -⟩
  cases htask

theorem restage (h : Lined w (.inl (.prepare c stage)) rest) (stage' : InitStage) :
    Lined w (.inl (.prepare c stage')) rest := by
  refine h.change ?_
  rintro below P - - ⟨c', stage, heq, hc⟩
  cases heq
  exact ⟨c, stage', rfl, hc⟩

/-- A request on top may be answered, with a value only if the class is ready. -/
theorem answer (h : Lined w (.inl (.prepare c stage)) rest)
    (ho : ∀ v, o = .value v → Ready w.registry rest c) : Lined w (.inr o) rest := by
  refine h.change ?_
  rintro below P hclaims hknown ⟨c', stage, heq, hc⟩
  cases heq
  cases o with
  | value v =>
    obtain ⟨cls, hcls⟩ := hknown c hc
    have hready := ho v rfl
    rw [Ready, ← hclaims] at hready
    exact ⟨c, hc, .of_ready hcls hready⟩
  | _ => trivial

end Lined

/-! ## Calls -/

theorem CallTarget.Selects.descriptor (ho : r.Orderly)
    {d : String} (h : target.Selects r c m) (hd : target.Describes r d) : m.descriptor = d := by
  have hgives : ∀ {handle : Handle MethodRef} {m : Method}, handle.Gives r m →
      (CallTarget.direct handle).Describes r d → m.descriptor = d := by
    intro handle m hm hd
    cases handle with
    | resolved ref =>
      obtain ⟨m', hm', hd⟩ := hd
      rw [hm, some.injEq] at hm'
      exact hm' ▸ hd
    | lazy index s =>
      obtain ⟨member, k, rfl, -, hfound⟩ := hm
      obtain ⟨member', hs, hd⟩ := hd
      cases hs
      exact (Registry.findMethod_some hfound).2.2.trans hd
  cases h with
  | direct hm => exact hgives hm hd
  | @virtual handle declared _ _ hm hselect =>
    have hdeclared : declared.descriptor = d := by cases handle <;> exact hgives hm hd
    rw [← hdeclared]
    exact (Registry.eq_of_isNamed (ho.selectVirtual_some hselect).2).2
  | cached hm _ =>
    have hnamed := List.find?_some hm
    exact (Registry.eq_of_isNamed (by simpa using hnamed)).2.trans hd

/-- Compiled code calls a static method only if its class can be relied upon, or that of the name. -/
theorem Activation.called {a : Activation} {p : PlacedInstr} {dest : Option Reg}
    {args : List Reg} {wait : Wait}
    (hbuilt : r.Built) (hchecks : a.function.Checks r) (hassured : a.Assured r rest)
    (hp : a.instr? = some p) (hcall : p.instr = .call dest target args)
    (hselects : target.Selects r c m) :
    Called r (.activation { a with wait } :: rest) m.id (args.map a.get) := by
  have ho := hbuilt.orderly
  obtain ⟨blk, hblk, hindex⟩ := bind_eq_some_iff.mp hp
  have hbefore : a.before? = blk.before? a.index := by rw [before?, hblk, bind_some]
  have hfollows := hchecks _ blk hblk _ p hindex
  rw [hcall, ← hbefore] at hfollows
  obtain ⟨d, signature, hdescribes, hparse, hargs⟩ := hfollows
  refine .inr ⟨m, hselects.method ho, fun _ => ?_⟩
  have hsignature : m.signature = signature := by
    have hown := hbuilt.parsed _ m (hselects.method ho)
    rw [hselects.descriptor ho hdescribes, hparse, Except.ok.injEq] at hown
    exact hown.symm
  rcases hargs with hmore | ⟨-, hchecked⟩
  · refine .inr ⟨_, rest, rfl, .inl ?_⟩
    rw [List.length_map, hsignature]
    exact hmore
  cases hselects with
  | virtual | cached => exact hchecked.elim
  | @direct handle _ hm =>
    cases handle with
    | resolved ref =>
      left
      obtain ⟨m', hm', hinit | ⟨ref', hcheck, howner⟩⟩ := hchecked
      · rw [hm, some.injEq] at hm'
        exact .inl (hm' ▸ hinit)
      · rw [hm, some.injEq] at hm'
        obtain ⟨c, hasks, hgranted⟩ := hassured _ hcheck rfl
        have hc : ref'.id = c := hasks
        rw [hm', ← howner, hc]
        exact hgranted.cons _
    | lazy index s =>
      obtain ⟨member, k, rfl, hloaded, hfound⟩ := hm
      obtain ⟨member', index', hs, hcheck⟩ := hchecked
      cases hs
      obtain ⟨c, hasks, hgranted⟩ := hassured _ hcheck rfl
      obtain ⟨k', hloaded', rfl⟩ := hasks _ rfl
      cases hloaded.symm.trans hloaded'
      by_cases howner : k.id = m.owner
      · exact .inl (howner ▸ hgranted.cons _)
      · exact .inr ⟨_, rest, rfl, .inr ⟨p, dest, index, member, args, k, hp, hcall, hloaded, howner,
          hgranted⟩⟩

/-! ## Moves of activations -/

def Move.Attends (w : World) (rest : List Task) : Move → Prop
  | .stay task => task.Acts w rest
  | .push above task => above.Acts w (task :: rest) ∧ task.Waits w (.inl above) rest
  | .leave _ => True

namespace Activation

variable {a b : Activation} {rest : List Task} {t : ThreadId} {w w' : World} {p : PlacedInstr}
  {effect : Effect}

section

variable (h : a.Linked w) (hcode : b.code = a.code) (hfun : b.function = a.function)
  (hblock : b.block = a.block) (hindex : b.index = a.index + 1) (hwait : b.wait = .nothing)

include h hcode hfun hblock hindex hwait

theorem acts_next (hcheck : ∀ p, a.instr? = some p → p.instr.isCheck = true →
    ∃ c, p.instr.Asks w.registry c ∧ Granted w.registry rest c) : (Task.activation b).Acts w rest := by
  refine ⟨⟨h.same hcode hfun, ?_, fun i hi hi' => ?_⟩, ?_⟩
  · rw [Sits, hwait]
    trivial
  · rw [before?_next hfun hblock hindex] at hi
    obtain ⟨p, hp, rfl⟩ := map_eq_some_iff.mp hi
    exact hcheck p hp hi'
  · rw [Acts, hwait]
    trivial

theorem acts_past (hp : a.instr? = some p) (hno : p.instr.isCheck = false) :
    (Task.activation b).Acts w rest := by
  refine acts_next h hcode hfun hblock hindex hwait fun q hq hcheck => ?_
  rw [hp, some.injEq] at hq
  rw [← hq, hno] at hcheck
  cases hcheck

end

theorem acts_enter (h : a.Linked w) (target : BlockId) (vs : List Value) :
    (Task.activation (a.enter target vs)).Acts w rest := by
  refine ⟨⟨h.same (code_enter _ _) (function_enter _ _), trivial, fun i hi => ?_⟩, trivial⟩
  rw [before?_start rfl] at hi
  cases hi

/-- An exception goes to the start of a block, if it goes anywhere here. -/
theorem attends_trap (h : a.Linked w) (trap : Trap) :
    (a.receive t w trap.outcome).2.Attends (a.receive t w trap.outcome).1 rest := by
  have hforward := Forward.of_calm
    (a.plainly_receive lenient_calm t w trap.outcome).within
  have hlinked := h.forward hforward
  cases trap with
  | failed e => trivial
  | thrown e =>
    unfold receive at hlinked ⊢
    simp only [Trap.outcome]
    split
    · rename_i htarget
      simp only [htarget] at hlinked
      exact acts_enter hlinked _ _
    · trivial

theorem attends_acquire {o : ObjId} (ho : w.registry.Orderly) (h : a.Kept w rest)
    (hp : a.instr? = some p) {r : Reg} (henter : p.instr = .monitorEnter r)
    (hget : a.get r = .obj o) : (a.acquire t w o).2.Attends (a.acquire t w o).1 rest := by
  have hquiet := quiet_enterMonitor false o
  unfold acquire
  split <;> rename_i hrun
  · have hforward := Forward.of_calm (lenient_calm.ok hquiet hrun)
    exact acts_past (h.linked.forward hforward) rfl rfl rfl rfl rfl hp (henter ▸ rfl)
  · have hforward := Forward.of_calm ((lenient_calm.ok hquiet hrun).trans
      (lenient_calm.enterRegion t))
    obtain ⟨hlinked, -, hassured⟩ := h.forward ho hforward
    exact ⟨⟨hlinked, ⟨p, r, hp, henter, hget⟩, hassured⟩, trivial⟩
  · have hforward := Forward.of_calm (lenient_calm.error hquiet hrun)
    exact attends_trap (h.linked.forward hforward) _

theorem attends_carryOut (ho : w.registry.Orderly) (h : a.Kept w rest)
    (hp : a.instr? = some p) (hof : effect.Of a p.instr)
    (hcheck : p.instr.isCheck = true → ∃ c, effect = .prepare c false)
    (hasks : ∀ c again, effect = .prepare c again → a.Asks w.registry c)
    (hcalls : ∀ m args dest wait, effect = .call m args dest →
      Called w.registry (.activation { a with wait } :: rest) m args) :
    (a.carryOut t w effect).2.Attends (a.carryOut t w effect).1 rest := by
  have hno : (∀ c, effect ≠ .prepare c false) → p.instr.isCheck = false := by
    intro heffect
    by_contra hcheck'
    obtain ⟨c, hc⟩ := hcheck (eq_true_of_ne_false hcheck')
    exact heffect c hc
  cases effect with
  | nothing | assign | store => exact acts_past h.linked rfl rfl rfl rfl rfl hp (hno (by simp))
  | call m args dest =>
    obtain ⟨target, regs, hcall⟩ := hof
    exact ⟨hcalls m args dest _ rfl, ⟨h.linked, ⟨p, target, regs, hp, hcall⟩, h.assured⟩, trivial⟩
  | prepare c again =>
    exact ⟨trivial, ⟨h.linked, ⟨p, hp, hof⟩, h.assured⟩, c, .request, rfl, hasks c again rfl⟩
  | poll =>
    simp only [carryOut]
    split
    · exact ⟨⟨h.linked, ⟨p, hp, hof⟩, h.assured⟩, trivial⟩
    · exact acts_past h.linked rfl rfl rfl rfl rfl hp (hno (by simp))
  | acquire o =>
    obtain ⟨r, henter, hget⟩ := hof
    exact attends_acquire ho h hp henter hget

section

variable (hbuilt : w.registry.Built) (hcoded : w.Coded)

include hbuilt hcoded

theorem attends_effect (h : a.Kept w rest) (hp : a.instr? = some p)
    (hrun : (evaluate a p.instr).runOn t w = .ok effect w') :
    (a.carryOut t w' effect).2.Attends (a.carryOut t w' effect).1 rest := by
  have hcalm := within_ok (calm_evaluate a p.instr t w) hrun
  have hforward := Forward.of_calm hcalm
  have hbuilt' := hbuilt.later hcalm.later
  have hkept := h.forward hbuilt.orderly hforward
  have hof := gives_evaluate a p.instr _ _ _ _ hrun
  refine attends_carryOut hbuilt'.orderly hkept hp hof (evaluate_check · hrun) ?_ ?_
  · rintro c again rfl
    obtain ⟨hasks, cls, hcls⟩ := evaluate_prepare hbuilt hrun
    exact ⟨p, cls, hp, hasks, hcls⟩
  · rintro m args dest wait rfl
    obtain ⟨target, regs, hcall⟩ := hof
    rw [hcall] at hrun
    obtain ⟨id, w₁, hselect, hrest⟩ := bind_runOn_ok hrun
    cases hrest
    obtain ⟨c, method, hselects, hmethod, -⟩ := select_ok hbuilt hcoded (by
      rintro site rfl
      exact h.linked.sited hcoded hp (hcall ▸ rfl)) hselect
    rw [← hbuilt'.orderly.methodId _ method hmethod]
    exact called hbuilt' ((h.linked.checks hcoded).onward hforward.registry) hkept.assured hp hcall
      hselects

theorem attends_execute (h : a.Kept w rest) : (a.execute t w).2.Attends (a.execute t w).1 rest := by
  unfold execute
  split
  · trivial
  · rename_i blk hblk
    split
    · rename_i p hp
      have hinstr : a.instr? = some p := by
        rw [instr?, hblk]
        exact hp
      have hmark : w.Tended (p.mark t w) := by
        unfold PlacedInstr.mark
        split
        · exact lenient_tended.refl w
        · exact lenient_tended.modifyThread t _
      have hkept := h.forward hbuilt.orderly (.of_calm hmark.calm)
      have hbuilt' := hbuilt.later hmark.calm.later
      have hcoded' := hmark.coded hbuilt hcoded
      dsimp only
      split
      · rename_i hrun
        exact attends_effect hbuilt' hcoded' hkept hinstr hrun
      · rename_i hrun
        have hcalm := within_error (calm_evaluate a p.instr t _) hrun
        exact attends_trap (hkept.linked.forward (.of_calm hcalm)) _
    · have hquiet := quiet_terminate a blk
      split
      · rename_i flow w' hrun
        have hcalm := lenient_calm.ok hquiet hrun
        cases flow with
        | goTo e => exact acts_enter (h.linked.forward (.of_calm hcalm)) _ _
        | result | unwind => trivial
      · rename_i hrun
        have hcalm := lenient_calm.error hquiet hrun
        exact attends_trap (h.linked.forward (.of_calm hcalm)) _

theorem attends_act
    (hacts : (Task.activation a).Acts w rest) : (a.act t w).2.Attends (a.act t w).1 rest := by
  obtain ⟨hlinked, hsits, -⟩ := hacts.1
  unfold act
  unfold Sits at hsits
  split
  · rename_i hwait
    rw [hwait] at hsits
    obtain ⟨p, hp, hpoll⟩ := hsits
    exact acts_past hlinked rfl rfl rfl rfl rfl hp (hpoll ▸ rfl)
  · rename_i o hwait
    rw [hwait] at hsits
    obtain ⟨p, r, hp, henter, -⟩ := hsits
    have hquiet := quiet_enterMonitor true o
    split <;> rename_i hrun
    · have hcalm := (lenient_calm.ok hquiet hrun).trans (.leaveRegion t)
      exact acts_past (hlinked.forward (.of_calm hcalm)) rfl rfl rfl rfl rfl hp (henter ▸ rfl)
    · have hcalm := lenient_calm.ok hquiet hrun
      exact Task.Acts.forward hacts hbuilt.orderly (.of_calm hcalm)
    · have hcalm := (lenient_calm.error hquiet hrun).trans (.leaveRegion t)
      exact attends_trap (hlinked.forward (.of_calm hcalm)) _
  · exact attends_execute hbuilt hcoded hacts.1

end

/-- An answer takes the activation past its instruction, or back to it with the class at hand. -/
theorem attends_receive (ho : w.registry.Orderly)
    (hwaits : (Task.activation a).Waits w (.inr o) rest) :
    (a.receive t w o).2.Attends (a.receive t w o).1 rest := by
  cases o with
  | thrown e => exact attends_trap hwaits.1.linked (.thrown e)
  | failed e => exact attends_trap hwaits.1.linked (.failed e)
  | value v =>
    have hunpin : w.Calm (a.unpin t w) := by
      unfold unpin
      split
      · exact .modifyThread t _
      · exact .refl
    have hforward := Forward.of_calm hunpin
    obtain ⟨hlinked, hsits, hassured⟩ := hwaits.1.forward ho hforward
    have hwaits := hwaits.2
    unfold Sits at hsits
    unfold receive
    cases hwait : a.wait with
    | call dest mark =>
      simp only [hwait] at hsits
      obtain ⟨p, target, args, hp, hcall⟩ := hsits
      have hsame : (a.setResult dest v).code = a.code ∧
          (a.setResult dest v).function = a.function ∧
          (a.setResult dest v).block = a.block ∧ (a.setResult dest v).index = a.index := by
        cases dest <;> exact ⟨rfl, rfl, rfl, rfl⟩
      obtain ⟨hcode, hfun, hblock, hindex⟩ := hsame
      exact acts_past hlinked hcode hfun hblock (congrArg (· + 1) hindex) rfl hp (hcall ▸ rfl)
    | initialization again =>
      rw [hwait] at hwaits hsits
      obtain ⟨c, hasks, hgranted⟩ := hwaits
      have hasks := hasks.onward ho hforward.registry
      have hgranted := hgranted.onward hforward.registry
      cases again with
      | true => exact ⟨⟨hlinked, hsits, hassured⟩, c, hasks, hgranted⟩
      | false =>
        refine acts_next hlinked rfl rfl rfl rfl rfl fun q hq _ => ⟨c, ?_, hgranted⟩
        obtain ⟨p, cls, hp, hp', -⟩ := hasks
        rw [hp, some.injEq] at hq
        exact hq ▸ hp'
    | _ =>
      rw [hwait] at hwaits
      exact hwaits.elim

end Activation

end ManagedCore
