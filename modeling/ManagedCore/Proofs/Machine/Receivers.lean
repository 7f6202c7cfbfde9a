import ManagedCore.Proofs.Machine.Statics

/-!
# Calls through receivers

A call that names a virtual method is bound when its code is made. It goes straight to the method if
nothing below can replace it, and otherwise through the table of the receiver or the cache of the
call. Classes that are defined later make no difference to that: whichever way the call takes, it
runs a body of the most derived class of the receiver that has one.

Tables do not provide for everything. Names that start with a mark have no place in them, nor have
bodies declared in interfaces, and a method that is declared again as an abstract one hides the bodies
above it.
-/

namespace ManagedCore

open ManagedCore.Flag Emit Option

/-! ## Methods found again -/

namespace Registry

variable {r r' : Registry} {name descriptor : String}

/-- If any class on the chain has a body, one of them is the most derived. -/
theorem exists_mostDerived {declaring receiver c : Class} (hchain : r.Extends receiver c)
    (hassignable : r.isAssignable c declaring = true) (hbody : ∃ m, r.Body c name descriptor m) :
    ∃ c, r.MostDerived declaring name descriptor receiver c := by
  induction hchain with
  | refl c => exact ⟨c, .refl c, hassignable, hbody, fun _ hc' _ _ => hc'⟩
  | @step a s d hs hclass hrest ih =>
    by_cases hhere : r.isAssignable a declaring = true ∧ ∃ m, r.Body a name descriptor m
    · exact ⟨a, .refl a, hhere.1, hhere.2, fun _ hc' _ _ => hc'⟩
    · obtain ⟨c, hmost⟩ := ih hassignable hbody
      refine ⟨c, .step hs hclass hmost.chain, hmost.assignable, hmost.body, ?_⟩
      intro c' hc' hassignable' hbody'
      cases hc' with
      | refl => exact absurd ⟨hassignable', hbody'⟩ hhere
      | step hs' hclass' hrest' =>
        rw [hs, some.injEq] at hs'
        obtain rfl := eq_of_id hclass hclass' hs'
        exact hmost.nearest c' hrest' hassignable' hbody'

theorem Orderly.found_again (h : r.Orderly) (hk : r.Keeps r') {owner : String} {k k' : Class}
    {m m' : Method} (hloaded : r.loaded? owner = some k)
    (hm : r.findMethod? k name descriptor = some m) (hloaded' : r'.loaded? owner = some k')
    (hm' : r'.findMethod? k' name descriptor = some m') : k.SameLink k' ∧ m.SameLink m' := by
  obtain ⟨k₁, hk₁, hsame⟩ := hk.names _ k hloaded
  cases hloaded'.symm.trans hk₁
  obtain ⟨m₁, hm₁, hlink⟩ := h.findMethod_later hk (h.of_loaded hloaded).1 hsame hm
  rw [hm', some.injEq] at hm₁
  exact ⟨hsame, hm₁ ▸ hlink⟩

end Registry

theorem Emit.isExact_same {k k' : Class} {m m' : Method} (hk : k.SameLink k')
    (hm : m.SameLink m') : isExact k' m' = isExact k m := by
  rw [hk, hm]
  rfl

/-! ## Selecting -/

namespace Exec

variable {a : Activation} {t : ThreadId} {w : World} {r : Reg} {o : ObjId} {receiver : Class}

theorem nonNull_runOn (hget : a.get r = .obj o) : (nonNull a r).runOn t w = .ok o w := by
  have href : (reference a r).runOn t w = .ok (some o) w := by
    unfold reference
    rw [hget]
    rfl
  exact bind_runOn href

theorem select_direct {r' : Registry} {m : Method} {text : String} {receiver : Option Reg}
    (hm : r'.method? m.id = some m) (hw : r'.Onward w.registry) :
    (select a (.direct (.resolved ⟨m.id, text⟩)) receiver).runOn t w = .ok m.id w := by
  obtain ⟨m', hm', hsame⟩ := hw.later.keeps.methods _ m hm
  have hmethod : (methodHandle (.resolved ⟨m.id, text⟩)).runOn t w = .ok m' w := by
    rw [methodHandle, methodById, get_runOn, hm']
    rfl
  refine (bind_runOn hmethod).trans ?_
  rw [hsame]
  rfl

theorem select_virtual {id : MethodId} {text : String} {m b : Method} (hget : a.get r = .obj o)
    (hclass : w.classOf? o = some receiver) (hm : w.registry.method? id = some m)
    (hb : selectVirtual? w.registry m receiver = some b) :
    (select a (.virtual (.resolved ⟨id, text⟩)) (some r)).runOn t w = .ok b.id w := by
  have hread : (get : Exec World).runOn t w = .ok w w := rfl
  have hmethod : (methodHandle (.resolved ⟨id, text⟩)).runOn t w = .ok m w := by
    refine (bind_runOn hread).trans ?_
    rw [hm]
    rfl
  refine (bind_runOn hmethod).trans ((bind_runOn (nonNull_runOn hget)).trans
    ((bind_runOn (classOf_runOn hclass)).trans ((bind_runOn hread).trans ?_)))
  rw [hb]
  rfl

theorem select_cached {site : CallSite} {b : Method} (hcoded : w.Coded)
    (hsite : ∀ live, w.code? a.code = some live → live.compiled.sites[site.number]? = some site)
    (ho : w.registry.Orderly) (hget : a.get r = .obj o) (hclass : w.classOf? o = some receiver)
    (hb : w.registry.findVirtual? receiver site.member.name site.member.descriptor = some b)
    (hconcrete : b.isAbstract = false) :
    ∃ w', (select a (.cached site) (some r)).runOn t w = .ok b.id w' := by
  obtain ⟨obj, -, hreceiver⟩ := bind_eq_some_iff.mp hclass
  have hknown : w.registry.class? receiver.id = some receiver := by
    rw [(ho.formed _ receiver hreceiver).id]
    exact hreceiver
  obtain ⟨w', hlookup, -⟩ := lookupSite_runOn hcoded hsite hknown
  have htarget : cacheTarget? w.registry site.member receiver = some b.id := by
    rw [cacheTarget?, hb, filter_some, hconcrete]
    rfl
  rw [htarget] at hlookup
  exact ⟨w', (bind_runOn (nonNull_runOn hget)).trans
    ((bind_runOn (classOf_runOn hclass)).trans (bind_runOn hlookup))⟩

end Exec

/-! ## Calls in compiled code -/

theorem Emit.lookupClass_loaded {st : EmitState} {k : Class} {name : String}
    (hk : st.registry.loaded? name = some k) :
    lookupClass name st = .ok (some k) st := by
  rw [lookupClass, bind_eq (rfl : (get : Emit EmitState) st = .ok st st), Registry.lookup, hk]
  rfl

theorem Emit.boundClass_loaded {st : EmitState} {k : Class} {name : String}
    (hk : st.registry.loaded? name = some k) :
    boundClass name st = .ok (if st.config.bindsDirectly then some k else none) st := by
  rw [boundClass, bind_eq (rfl : bindsDirectly st = .ok st.config.bindsDirectly st)]
  cases st.config.bindsDirectly with
  | true => exact lookupClass_loaded hk
  | false => rfl

/-- The ways to bind a call of a virtual method whose name is found. -/
theorem Emit.selectTarget_virtual {st st' : EmitState} {body : Body} {n index : Nat}
    {member : MemberRef} {k : Class} {m : Method} {single : Option Method} {target : CallTarget}
    (hjit : st.config.compileMode = .jit) (hk : st.registry.loaded? member.owner = some k)
    (hm : st.registry.findMethod? k member.name member.descriptor = some m)
    (h : selectTarget body (.invokeVirtual n) index member st = .ok (single, target) st') :
    (isExact k m = true ∧ single = some m ∧ target = .direct (.resolved ⟨m.id, m.text⟩)) ∨
    (single = none ∧ target = .virtual (.resolved ⟨m.id, m.text⟩)) ∨
    (single = none ∧ ∃ number, target = .cached ⟨number, index, member⟩) := by
  obtain ⟨cls, mid, hcls, hrest⟩ := bind_ok h
  rw [boundClass_loaded hk] at hcls
  cases hcls
  have hrest := get_ok hrest
  rw [if_pos (by simp [Config.bindsDirectly, hjit])] at hrest
  simp only [bind_some, hm] at hrest
  rcases virtualTarget_ok hrest with ⟨k', m', hk', hm', hexact, rfl, rfl⟩ |
    ⟨k', m', -, hm', -, -, rfl, rfl⟩ | ⟨-, rfl, rfl, -⟩ | ⟨hnone, -⟩
  · cases hk'
    cases hm'
    exact .inl ⟨hexact, rfl, rfl⟩
  · cases hm'
    exact .inr (.inl ⟨rfl, rfl⟩)
  · exact .inr (.inr ⟨rfl, _, rfl⟩)
  · cases hnone

section

variable {st st' : EmitState} {body : Body} {n index : Nat} {member : MemberRef} {k₀ : Class}
  {m₀ : Method} {single : Option Method} {target : CallTarget}
  (hjit : st.config.compileMode = .jit) (ho : st.registry.Orderly)
  (hk₀ : st.registry.loaded? member.owner = some k₀)
  (hm₀ : st.registry.findMethod? k₀ member.name member.descriptor = some m₀)
  (hemit : selectTarget body (.invokeVirtual n) index member st = .ok (single, target) st')
  {r : Registry} (hr : st.registry.Onward r) (hor : r.Orderly) {cls declaring receiver c : Class}
  {m : Method} (hcls : r.loaded? member.owner = some cls)
  (href : r.Reference cls member.name member.descriptor m declaring receiver)
  (hmost : r.MostDerived declaring member.name member.descriptor receiver c)
  (hreg : r.Regular cls member.name member.descriptor m declaring receiver c)

include hjit ho hk₀ hm₀ hemit hr hor hcls href hmost hreg

theorem Emit.body_single {x : Method} (hx : single = some x) : ∃ b, r.method? x.id = some b ∧
    x.SameLink b ∧ r.Body c member.name member.descriptor b := by
  obtain ⟨hsame, hlink⟩ := ho.found_again hr.later.keeps hk₀ hm₀ hcls href.found
  have hm := hor.method_findMethod href.found
  have hid : m.id = m₀.id := by rw [hlink]
  rcases selectTarget_virtual hjit hk₀ hm₀ hemit with ⟨hexact, hsingle, -⟩ | ⟨hnone, -⟩ | ⟨hnone, -⟩
  · cases hx.symm.trans hsingle
    rw [← isExact_same hsame hlink] at hexact
    exact ⟨m, hid ▸ hm, hlink, href.exact hor hmost hreg hexact⟩
  · rw [hx] at hnone
    cases hnone
  · rw [hx] at hnone
    cases hnone

theorem Exec.select_body {a : Activation} {t : ThreadId} {w : World} {recv : Reg} {o : ObjId}
    (hw : w.registry = r) (hcoded : w.Coded)
    (hsite : ∀ site, target = .cached site → ∀ live, w.code? a.code = some live →
      live.compiled.sites[site.number]? = some site)
    (hget : a.get recv = .obj o) (hclass : w.classOf? o = some receiver) :
    ∃ b w', (select a target (some recv)).runOn t w = .ok b.id w' ∧ r.method? b.id = some b ∧
      r.Body c member.name member.descriptor b := by
  obtain ⟨hsame, hlink⟩ := ho.found_again hr.later.keeps hk₀ hm₀ hcls href.found
  have hm := hor.method_findMethod href.found
  have hid : m.id = m₀.id := by rw [hlink]
  subst hw
  rcases selectTarget_virtual hjit hk₀ hm₀ hemit with
    ⟨hexact, -, rfl⟩ | ⟨-, rfl⟩ | ⟨-, number, rfl⟩
  · rw [← isExact_same hsame hlink] at hexact
    have hcalls : (select a (.direct (.resolved ⟨m₀.id, m₀.text⟩)) (some recv)).runOn t w =
        .ok m₀.id w := select_direct (ho.method_findMethod hm₀) hr
    exact ⟨m, w, hid ▸ hcalls, hm, href.exact hor hmost hreg hexact⟩
  · obtain ⟨b, hb, hbody⟩ := href.selectVirtual hor hmost hreg
    exact ⟨b, w, select_virtual hget hclass (hid ▸ hm) hb, (hor.selectVirtual_some hb).1, hbody⟩
  · obtain ⟨b, hb, hbody⟩ := href.findVirtual hor hmost hreg
    obtain ⟨w', hrun⟩ := select_cached hcoded (hsite _ rfl) hor hget hclass hb hbody.concrete
    exact ⟨b, w', hrun, hor.method_of_mem_table (List.mem_of_find?_eq_some hb), hbody⟩

end

namespace PlacedInstr

variable (p : PlacedInstr) (t : ThreadId) (w : World)

theorem codes_mark : (p.mark t w).codes = w.codes := by
  unfold mark
  split <;> rfl

theorem classOf_mark (o : ObjId) : (p.mark t w).classOf? o = w.classOf? o := by
  unfold mark
  split <;> rfl

theorem coded_mark {p : PlacedInstr} {t : ThreadId} {w : World} (h : w.Coded) :
    (p.mark t w).Coded := by
  intro n live hlive
  rw [World.code?, p.codes_mark] at hlive
  rw [p.registry_mark]
  exact h n live hlive

end PlacedInstr

theorem Activation.act_call {a : Activation} {t : ThreadId} {w w' : World} {p : PlacedInstr}
    {dest : Option Reg} {target : CallTarget} {args : List Reg} {m : MethodId}
    (hwait : a.wait = .nothing) (hp : a.instr? = some p) (hcall : p.instr = .call dest target args)
    (hrun : (Exec.select a target args.head?).runOn t (p.mark t w) = .ok m w') :
    ∃ wait w'', a.act t w = (w'', .push (.call m (args.map a.get)) (.activation { a with wait })) := by
  obtain ⟨blk, hblk, hindex⟩ := bind_eq_some_iff.mp hp
  have heval : (Exec.evaluate a p.instr).runOn t (p.mark t w) =
      .ok (.call m (args.map a.get) dest) w' := by
    rw [hcall]
    exact Exec.bind_runOn hrun
  rw [act, hwait]
  rw [execute, hblk]
  dsimp only
  rw [hindex]
  dsimp only
  rw [PlacedInstr.mark] at heval
  rw [heval]
  exact ⟨_, _, rfl⟩

namespace Engine

theorem Guarded.wait_call {e : Engine} {t : ThreadId} {a : Activation} {rest : List Task}
    {p : PlacedInstr} {dest : Option Reg} {target : CallTarget} {args : List Reg} (h : e.Guarded)
    (hcontrol : e.controls t = ⟨.activation a :: rest, none⟩) (hp : a.instr? = some p)
    (hcall : p.instr = .call dest target args) : a.wait = .nothing := by
  have hattends := h.threads t
  rw [hcontrol] at hattends
  obtain ⟨hkept, hacts⟩ := (hattends.acting _ rest rfl rfl).1
  have hsits := hkept.sits
  unfold Activation.Sits at hsits
  unfold Activation.Acts at hacts
  cases hwait : a.wait with
  | nothing => rfl
  | call | initialization =>
    rw [hwait] at hacts
    exact hacts.elim
  | checked | release =>
    rw [hwait] at hsits
    obtain ⟨q, hq, hinstr⟩ := hsits
    rw [hp, some.injEq] at hq
    rw [← hq, hcall] at hinstr
    cases hinstr
  | monitor o =>
    rw [hwait] at hsits
    obtain ⟨q, r, hq, henter, -⟩ := hsits
    rw [hp, some.injEq] at hq
    rw [← hq, hcall] at henter
    cases henter

theorem Guarded.onward {e e' : Engine} (h : e.Guarded) (hcourse : e.Course e') :
    e.registry.Onward e'.registry := by
  induction hcourse with
  | here => exact ⟨.same, fun _ _ _ h => h, fun _ h => h, fun _ _ _ h => h⟩
  | @turn e₁ t hcourse ih =>
    have hsound := (h.course hcourse).sound.threads t
    exact ih.trans ((moves_step hsound).forward hsound).registry
  | call t args _ hidle hm ih => exact ih
  | define d _ hknown ih => exact ih.trans (.define _ d)
  | @compile e₁ m _ ih =>
    have hcalm := World.Calm.compileMethod (w := e₁.world) m
    exact ih.trans (World.Forward.of_calm hcalm).registry
  | outside _ hcalm _ ih => exact ih.trans (World.Forward.of_calm hcalm).registry

/-- A call that names a virtual method, and finds it when the code is made, runs a body of the most
derived class that has one, whether the body is expanded in place or the call is made. -/
theorem virtual_call_most_derived {st st' : EmitState} {body : Body} {n index : Nat}
    {member : MemberRef} {k₀ : Class} {m₀ : Method} {single : Option Method} {target : CallTarget}
    (hbuilt : st.registry.Built) (hjit : st.config.compileMode = .jit)
    (hk₀ : st.registry.loaded? member.owner = some k₀)
    (hm₀ : st.registry.findMethod? k₀ member.name member.descriptor = some m₀)
    (hemit : Emit.selectTarget body (.invokeVirtual n) index member st = .ok (single, target) st')
    {e₀ e : Engine} (hinitial : e₀.Initial) (hcodes : e₀.world.codes = #[])
    (hcourse : e₀.Course e) (hlater : st'.registry.Onward e.registry)
    {cls declaring receiver c : Class} {m : Method}
    (hcls : e.registry.loaded? member.owner = some cls)
    (href : e.registry.Reference cls member.name member.descriptor m declaring receiver)
    (hchain : e.registry.Extends receiver c) (hassignable : e.registry.isAssignable c declaring = true)
    (hbody : ∃ b, e.registry.Body c member.name member.descriptor b) :
    ∃ c', e.registry.MostDerived declaring member.name member.descriptor receiver c' ∧
      (e.registry.Regular cls member.name member.descriptor m declaring receiver c' →
        (∀ x, single = some x → ∃ b, e.registry.method? x.id = some b ∧ x.SameLink b ∧
          e.registry.Body c' member.name member.descriptor b) ∧
        ∀ t a rest p dest recv regs o, e.controls t = ⟨.activation a :: rest, none⟩ →
          a.instr? = some p → p.instr = .call dest target (recv :: regs) → a.get recv = .obj o →
          e.world.classOf? o = some receiver →
          ∃ b a', e.registry.method? b.id = some b ∧
            e.registry.Body c' member.name member.descriptor b ∧ (e.turn t).controls t =
              ⟨.call b.id ((recv :: regs).map a.get) :: .activation a' :: rest, none⟩) := by
  have hguarded := (Guarded.of_initial hinitial hcodes).course hcourse
  have ho := hbuilt.orderly
  have hor := hguarded.built.orderly
  have hr : st.registry.Onward e.registry :=
    ((Emit.straight_selectTarget ..).learns.grown_ok hemit).onward.trans hlater
  obtain ⟨c', hmost⟩ := Registry.exists_mostDerived hchain hassignable hbody
  refine ⟨c', hmost, fun hreg => ⟨fun x hx => ?_, ?_⟩⟩
  · exact Emit.body_single hjit ho hk₀ hm₀ hemit hr hor hcls href hmost hreg hx
  · intro t a rest p dest recv regs o hcontrol hp hcall hget hclass
    have hkept : a.Kept e.world rest := by
      have hattends := hguarded.threads t
      rw [hcontrol] at hattends
      exact (hattends.acting _ rest rfl rfl).1.1
    have hsite : ∀ site, target = .cached site → ∀ live, (p.mark t e.world).code? a.code = some live →
        live.compiled.sites[site.number]? = some site := by
      intro site hsite live hlive
      rw [World.code?, p.codes_mark] at hlive
      exact hkept.linked.sited hguarded.coded hp (by rw [hcall, hsite]; rfl) live hlive
    obtain ⟨b, w', hrun, hb, hbody⟩ := Exec.select_body hjit ho hk₀ hm₀ hemit hr hor hcls href hmost
      hreg (t := t) (p.registry_mark t e.world) (PlacedInstr.coded_mark hguarded.coded) hsite hget
      (by rw [p.classOf_mark]; exact hclass)
    obtain ⟨wait, w'', hact⟩ := Activation.act_call (hguarded.wait_call hcontrol hp hcall) hp hcall
      hrun
    refine ⟨b, { a with wait }, hb, hbody, ?_⟩
    rw [controls_turn, hcontrol, ManagedCore.step]
    dsimp only [Task.act]
    rw [hact]
    rfl

end Engine

/-! ## Examples -/

theorem Emit.selectTarget_found {st : EmitState} {body : Body} {n index : Nat}
    {member : MemberRef} {k : Class} {m : Method} (hjit : st.config.compileMode = .jit)
    (hk : st.registry.loaded? member.owner = some k)
    (hm : st.registry.findMethod? k member.name member.descriptor = some m) :
    selectTarget body (.invokeVirtual n) index member st =
      virtualTarget body index member (some k) (some m) st := by
  have hbinds : st.config.bindsDirectly = true := by rw [Config.bindsDirectly, hjit]; rfl
  rw [selectTarget, bind_eq (boundClass_loaded hk),
    bind_eq (rfl : (get : Emit EmitState) st = .ok st st), if_pos hbinds]
  simp only [bind_some, hm]

/-- The chain above a class is in its display. -/
theorem Registry.Orderly.mem_display {r : Registry} (h : r.Orderly) {a c : Class}
    (ha : r.class? a.id = some a) (hac : r.Extends a c) : c.id ∈ a.display := by
  have hsub := (h.isSubclassOf_iff ha (hac.registered ha)).mpr hac
  rw [Class.isSubclassOf, beq_iff_eq] at hsub
  exact List.mem_of_getElem? hsub

def startOf (mode : CompileMode) (r : Registry) : EmitState :=
  { config := { compileMode := mode }
    registry := r
    function := { name := "start", params := [], result := none, maxLocals := 0, blocks := #[{}] } }

def bodyOf (m : Method) : Body :=
  { method := m
    code := { bytes := [], maxLocals := 0, maxStack := 1 }
    graph := ⟨[], [], []⟩
    localBase := 0
    fallback := none
    exit := .result none
    chain := [m.id]
    callPc := none }

/-- A shape that is asked for its area by way of the interface. -/
def shapes : List ClassDef :=
  let area (v : UInt8) : MethodDef :=
    .ofCode "area" "()I" isPublic { bytes := [v, 0xac], maxLocals := 1, maxStack := 1 }
  [{ name := "Shape", superclass := some objectClass
     flags := isPublic ||| isInterface ||| isAbstract
     methods := [.ofAbstract "area" "()I" isPublic] },
   { name := "Disc", superclass := some objectClass, interfaces := ["Shape"], methods := [area 0x06] },
   { name := "Coin", superclass := some "Disc", methods := [area 0x07] },
   { name := "Survey", superclass := some objectClass
     constants := #[.method ⟨"Shape", "area", "()I"⟩, .class "Coin"]
     methods := [
       .ofCode "measure" "()I" (isPublic ||| isStatic)
         { bytes := [0xbb, 0x00, 0x01, 0xb6, 0x00, 0x00, 0xac], maxLocals := 0, maxStack := 1 }] }]

def shapesRegistry : Registry := .defining shapes

def areaRef : MemberRef := ⟨"Shape", "area", "()I"⟩

/-- The target of the call that a thread is about to make, and its first argument. -/
def Engine.calling? (e : Engine) (t : ThreadId) : Option (CallTarget × Value) :=
  match e.controls t with
  | ⟨.activation a :: _, none⟩ => a.instr?.bind fun p =>
    match p.instr with
    | .call _ target (recv :: _) => some (target, a.get recv)
    | _ => none
  | _ => none

/-- What makes the method found for the area a regular one for the receiver. -/
def measurable (r : Registry) (cls : Class) (m : Method) (declaring receiver : Class) : Bool :=
  let named (x : Method) : Bool := x.isNamed "area" "()I"
  let runs (x : Method) : Bool := !x.isAbstract && !has x.flags isPrivate && !x.isStatic
  m.isAbstract && !m.isFinal && !has m.flags isPrivate && !m.isStatic &&
    !has cls.flags isFinal && r.isAssignable receiver cls &&
    r.isAssignable receiver declaring && (r.declares receiver).any (fun x => named x && runs x) &&
    receiver.display.all fun n => (r.class? n).all fun c =>
      !c.isInterface && (r.declares c).all fun x => !named x || !x.isAbstract

/-- A coin is measured, up to the call of its method. -/
theorem survey_measures : (methodRun? shapes "Survey" "measure" fun t e => (e.calling? t).isSome).any
    (fun (t, e) => (e.calling? t).any fun (target, v) => target == .cached ⟨0, 0, areaRef⟩ && match v with
      | .obj o => (e.world.classOf? o).any fun receiver =>
        (e.registry.loaded? "Shape").any fun cls =>
          (e.registry.findMethod? cls "area" "()I").any fun m =>
            (e.registry.class? m.owner).any fun declaring =>
              measurable e.registry cls m declaring receiver
      | _ => false) = true := by
  decide +kernel

theorem shapes_found : (shapesRegistry.loaded? "Shape").any (fun k =>
    (shapesRegistry.findMethod? k "area" "()I").any fun m =>
      !isExact k m && !m.isVirtual) = true := by
  decide +kernel

namespace Engine

variable {e : Engine} {t : ThreadId}

theorem calling_some {target : CallTarget} {v : Value} (h : e.calling? t = some (target, v)) :
    ∃ a rest p dest recv regs, e.controls t = ⟨.activation a :: rest, none⟩ ∧ a.instr? = some p ∧
      p.instr = .call dest target (recv :: regs) ∧ a.get recv = v := by
  unfold calling? at h
  split at h
  · rename_i a rest hcontrol
    obtain ⟨p, hp, h⟩ := bind_eq_some_iff.mp h
    split at h
    · rename_i dest target' recv regs hcall
      cases h
      exact ⟨a, rest, p, dest, recv, regs, hcontrol, hp, hcall, rfl⟩
    · cases h
  · cases h

/-- The table of a measurable receiver provides for its method. -/
theorem regular_of_measurable {r : Registry} (ho : r.Orderly) {cls declaring receiver c : Class}
    {m : Method} (hreceiver : r.class? receiver.id = some receiver)
    (hchain : r.Extends receiver c) (h : measurable r cls m declaring receiver = true) :
    r.Regular cls "area" "()I" m declaring receiver c := by
  simp only [measurable, Bool.and_eq_true, Bool.not_eq_true', List.all_eq_true] at h
  obtain ⟨⟨⟨⟨⟨⟨⟨⟨habstract, hfinal⟩, -⟩, -⟩, hclass⟩, -⟩, -⟩, -⟩, hdisplay⟩ := h
  have hon : ∀ c', r.Extends receiver c' → c'.isInterface = false ∧ ∀ x ∈ r.declares c',
      x.isNamed "area" "()I" = true → x.isAbstract = false := by
    intro c' hc'
    have hall := hdisplay _ (ho.mem_display hreceiver hc')
    rw [hc'.registered hreceiver, all_some, Bool.and_eq_true, Bool.not_eq_true',
      List.all_eq_true] at hall
    refine ⟨hall.1, fun x hx hnamed => ?_⟩
    have hx := hall.2 x hx
    rwa [hnamed, Bool.not_true, Bool.false_or, Bool.not_eq_true'] at hx
  exact ⟨by decide, (hon c hchain).1, fun c' hc' _ x hx hnamed _ => (hon c' hc').2 x hx hnamed,
    fun _ => habstract, fun h => absurd h (by rw [hfinal]; nofun), fun _ => hclass⟩

theorem virtual_call_most_derived_coin : ∃ e₀ e t receiver declaring c b a args rest, Initial e₀ ∧
    Course e₀ e ∧ e.registry.MostDerived declaring "area" "()I" receiver c ∧
    e.registry.Body c "area" "()I" b ∧
    (e.turn t).controls t = ⟨.call b.id args :: .activation a :: rest, none⟩ := by
  obtain ⟨⟨t, e⟩, hrun, hfacts⟩ := (Option.any_eq_true _ _).mp survey_measures
  obtain ⟨⟨target, v⟩, hcalling, hfacts⟩ := (Option.any_eq_true _ _).mp hfacts
  rw [Bool.and_eq_true, beq_iff_eq] at hfacts
  obtain ⟨rfl, hfacts⟩ := hfacts
  split at hfacts
  swap
  · cases hfacts
  rename_i o
  obtain ⟨receiver, hreceiver, hfacts⟩ := (Option.any_eq_true _ _).mp hfacts
  obtain ⟨cls, hcls, hfacts⟩ := (Option.any_eq_true _ _).mp hfacts
  obtain ⟨m, hm, hfacts⟩ := (Option.any_eq_true _ _).mp hfacts
  obtain ⟨declaring, hdeclaring, hfacts⟩ := (Option.any_eq_true _ _).mp hfacts
  obtain ⟨k₀, hk₀, hfound⟩ := (Option.any_eq_true _ _).mp shapes_found
  obtain ⟨m₀, hm₀, hbinding⟩ := (Option.any_eq_true _ _).mp hfound
  rw [Bool.and_eq_true, Bool.not_eq_true', Bool.not_eq_true'] at hbinding
  obtain ⟨e₀, hinitial, hcodes, hregistry, hcourse⟩ := methodRun_course hrun
  change e₀.registry = shapesRegistry at hregistry
  have hguarded := Guarded.of_initial hinitial hcodes
  have ho := (hguarded.course hcourse).built.orderly
  have hlater : shapesRegistry.Onward e.registry := hregistry ▸ hguarded.onward hcourse
  have hbuilt : shapesRegistry.Built := hregistry ▸ hguarded.built
  generalize shapesRegistry = r at *
  have hemit : Emit.selectTarget (bodyOf m₀) (.invokeVirtual 0) 0 areaRef (startOf .jit r) =
      .ok (none, .cached ⟨0, 0, areaRef⟩)
        { startOf .jit r with sites := [⟨0, 0, areaRef⟩] } := by
    rw [Emit.selectTarget_found rfl hk₀ hm₀]
    simp only [Emit.virtualTarget, hbinding]
    rfl
  have hknown : e.registry.class? receiver.id = some receiver := by
    obtain ⟨obj, -, hclass⟩ := Option.bind_eq_some_iff.mp hreceiver
    rw [(ho.formed _ receiver hclass).id]
    exact hclass
  have hmeasurable := hfacts
  simp only [measurable, Bool.and_eq_true, Bool.not_eq_true', List.any_eq_true] at hfacts
  obtain ⟨⟨⟨⟨⟨⟨⟨⟨-, -⟩, hvisible⟩, hinstance⟩, -⟩, hassignable⟩, hdeclared⟩, b₀, hb₀, hnamed, hruns⟩,
    -⟩ := hfacts
  have hbody : e.registry.Body receiver "area" "()I" b₀ :=
    ⟨hb₀, hnamed, hruns.1.1, hruns.1.2, hruns.2⟩
  obtain ⟨c, hmost, hcalls⟩ := virtual_call_most_derived hbuilt rfl hk₀ hm₀ hemit hinitial
    hcodes hcourse hlater
    (show e.registry.loaded? areaRef.owner = some cls from hcls)
    ⟨(ho.of_loaded hcls).1, hm, hdeclaring, hvisible, hinstance, hknown, hassignable⟩
    (.refl receiver) hdeclared ⟨b₀, hbody⟩
  obtain ⟨a, rest, p, dest, recv, regs, hcontrol, hp, hcall, hget⟩ := calling_some hcalling
  obtain ⟨b, a', -, hb, hturn⟩ := (hcalls (regular_of_measurable ho hknown hmost.chain hmeasurable)).2
    t a rest p dest recv regs o hcontrol hp hcall hget hreceiver
  exact ⟨e₀, e, t, receiver, declaring, c, b, a', _, rest, hinitial, hcourse, hmost, hb, hturn⟩

end Engine

theorem Registry.Orderly.owner_of_declares {r : Registry} (h : r.Orderly) {c : Class} {m : Method}
    (hc : r.class? c.id = some c) (hm : m ∈ r.declares c) : m.owner = c.id := by
  obtain ⟨n, hn, hmethod⟩ := List.mem_filterMap.mp hm
  obtain ⟨m', hm', howner⟩ := (h.formed _ c hc).methods n hn
  rw [hmethod, some.injEq] at hm'
  exact hm' ▸ howner

/-- A body in an interface, and one below the class that inherits it. -/
def greetings : List ClassDef :=
  let greet (v : UInt8) : MethodDef :=
    .ofCode "greet" "()I" isPublic { bytes := [v, 0xac], maxLocals := 1, maxStack := 1 }
  [{ name := "Greeter", superclass := some objectClass
     flags := isPublic ||| isInterface ||| isAbstract, methods := [greet 0x04] },
   { name := "Person", superclass := some objectClass, interfaces := ["Greeter"] },
   { name := "Child", superclass := some "Person", methods := [greet 0x05] }]

def greetingsRegistry : Registry := .defining greetings

def greetRef : MemberRef := ⟨"Person", "greet", "()I"⟩

theorem greetings_found : (greetingsRegistry.loaded? "Person").any (fun cls =>
    (greetingsRegistry.loaded? "Child").any fun receiver =>
      (greetingsRegistry.findMethod? cls "greet" "()I").any fun m =>
        (greetingsRegistry.class? m.owner).any fun declaring =>
          isExact cls m && !has m.flags isPrivate && !m.isStatic &&
            greetingsRegistry.isAssignable receiver cls &&
            greetingsRegistry.isAssignable receiver declaring &&
            !receiver.display.contains m.owner && (greetingsRegistry.declares receiver).any fun b =>
              b.isNamed "greet" "()I" && !b.isAbstract && !has b.flags isPrivate &&
                !b.isStatic) = true := by
  decide +kernel

/-- The call of the inherited method is bound to the interface, although the receiver may have a
method of its own. -/
theorem bound_to_interface : ∃ (st st' : EmitState) (body : Body) (member : MemberRef)
    (target : CallTarget) (cls declaring receiver c : Class) (m : Method),
    st.registry.Built ∧ st.config.compileMode = .jit ∧
    st.registry.loaded? member.owner = some cls ∧
    st.registry.Reference cls member.name member.descriptor m declaring receiver ∧
    st.registry.MostDerived declaring member.name member.descriptor receiver c ∧
    Emit.selectTarget body (.invokeVirtual 0) 0 member st = .ok (some m, target) st' ∧
    ¬ st.registry.Body c member.name member.descriptor m := by
  obtain ⟨cls, hcls, hfacts⟩ := (Option.any_eq_true _ _).mp greetings_found
  obtain ⟨receiver, hreceiver, hfacts⟩ := (Option.any_eq_true _ _).mp hfacts
  obtain ⟨m, hm, hfacts⟩ := (Option.any_eq_true _ _).mp hfacts
  obtain ⟨declaring, hdeclaring, hfacts⟩ := (Option.any_eq_true _ _).mp hfacts
  simp only [Bool.and_eq_true, Bool.not_eq_true', List.any_eq_true, List.contains_eq_mem,
    decide_eq_false_iff_not] at hfacts
  obtain ⟨⟨⟨⟨⟨⟨hexact, hvisible⟩, hinstance⟩, hassignable⟩, hdeclared⟩, hdisplay⟩, b, hb,
    ⟨⟨hnamed, hconcrete⟩, hopen⟩, hbound⟩ := hfacts
  have hbuilt : greetingsRegistry.Built := Registry.built_core.later (Registry.later_defining _)
  generalize greetingsRegistry = r at *
  have ho := hbuilt.orderly
  have hknown := (ho.of_loaded hreceiver).1
  obtain ⟨c, hmost⟩ := Registry.exists_mostDerived (.refl receiver) hdeclared
    ⟨b, hb, hnamed, hconcrete, hopen, hbound⟩
  obtain ⟨target, st', hemit⟩ : ∃ target st', Emit.selectTarget (bodyOf m) (.invokeVirtual 0) 0
      greetRef (startOf .jit r) = .ok (some m, target) st' := by
    rw [Emit.selectTarget_found rfl hcls hm]
    simp only [Emit.virtualTarget, hexact]
    exact ⟨_, _, rfl⟩
  refine ⟨startOf .jit r, st', bodyOf m, greetRef, target, cls, declaring, receiver, c, m, hbuilt, rfl,
    hcls, ⟨(ho.of_loaded hcls).1, hm, hdeclaring, hvisible, hinstance, hknown, hassignable⟩, hmost,
    hemit, fun hbody => ?_⟩
  have howner := ho.owner_of_declares (hmost.chain.registered hknown) hbody.declared
  exact hdisplay (howner ▸ ho.mem_display hknown hmost.chain)

end ManagedCore
