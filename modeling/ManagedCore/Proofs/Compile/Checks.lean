import ManagedCore.Proofs.Class.Phases
import ManagedCore.Proofs.Compile.Learning
import ManagedCore.Proofs.Compile.Method

/-!
# Checks in front of static members

A static field that is bound when its code is made is used right behind a check of its class, and a
static method is called right behind one, unless the class was initialized then. A call through a
receiver passes one argument more than a static method takes, so it cannot be mistaken for one.
-/

namespace ManagedCore

variable {blk : Block} {i : Instr} {p : PlacedInstr} {d : String} {m : Method} {target : CallTarget}
  {r : Registry}

/-! ## Guarded instructions -/

/-- The class was initialized when the code was made, or the instruction before checks it. -/
def Instr.Checked (r : Registry) (before : Option Instr) (c : ClassId) : Prop :=
  r.phase? c = some .initialized ∨
    ∃ ref, before = some (.initCheck (.resolved ref)) ∧ ref.id = c

namespace CallTarget

def Describes (r : Registry) (d : String) : CallTarget → Prop
  | .direct (.resolved ref) | .virtual (.resolved ref) =>
      ∃ m, r.method? ref.id = some m ∧ m.descriptor = d
  | .direct (.lazy _ s) | .virtual (.lazy _ s) => ∃ member, s = .method member ∧ member.descriptor = d
  | .cached site => site.member.descriptor = d

/-- The instruction before checks the class of the method, or the class that the target names if it
is not bound. -/
def Checked (r : Registry) (before : Option Instr) : CallTarget → Prop
  | .direct (.resolved ref) => ∃ m, r.method? ref.id = some m ∧ Instr.Checked r before m.owner
  | .direct (.lazy _ s) => ∃ member index, s = .method member ∧
      before = some (.initCheck (.lazy index (.class member.owner)))
  | _ => False

end CallTarget

/-- The instruction may stand behind another one, as far as static members go. -/
def Instr.Follows (r : Registry) (before : Option Instr) : Instr → Prop
  | .getStatic _ (.resolved s) | .putStatic (.resolved s) _ => Checked r before s.owner.id
  | .call _ target args => ∃ d signature, target.Describes r d ∧ Signature.parse d = .ok signature ∧
      (args.length = signature.paramTypes.length + 1 ∨
        args.length = signature.paramTypes.length ∧ target.Checked r before)
  | _ => True

theorem Instr.follows_of_isFree {before : Option Instr}
    (h : i.isFree = true) : i.Follows r before := by
  cases i with
  | getStatic | putStatic | call => cases h
  | _ => trivial

section

variable {r r' : Registry} {before : Option Instr}

theorem Instr.Checked.onward {c : ClassId} (h : Instr.Checked r before c) (hr : r.Onward r') :
    Instr.Checked r' before c :=
  h.imp_left hr.phase?

theorem Registry.Grown.method (h : r.Grown r') (n : MethodId) : r'.method? n = r.method? n := by
  rw [Registry.method?, Registry.method?, h.methods]

theorem CallTarget.Describes.onward (h : target.Describes r d)
    (hr : r.Onward r') : target.Describes r' d := by
  cases target with
  | direct handle | virtual handle =>
    cases handle with
    | resolved ref =>
      obtain ⟨m, hm, hd⟩ := h
      obtain ⟨m', hm', hsame⟩ := hr.later.keeps.methods _ m hm
      refine ⟨m', hm', ?_⟩
      rw [hsame]
      exact hd
    | lazy index s => exact h
  | cached site => exact h

theorem CallTarget.Checked.onward (h : target.Checked r before)
    (hr : r.Onward r') : target.Checked r' before := by
  cases target with
  | direct handle =>
    cases handle with
    | resolved ref =>
      obtain ⟨m, hm, hchecked⟩ := h
      obtain ⟨m', hm', hsame⟩ := hr.later.keeps.methods _ m hm
      refine ⟨m', hm', ?_⟩
      rw [hsame]
      exact hchecked.onward hr
    | lazy index s => exact h
  | virtual | cached => exact h

theorem Instr.Follows.onward (h : i.Follows r before) (hr : r.Onward r') : i.Follows r' before := by
  cases i with
  | getStatic _ handle | putStatic handle _ =>
    cases handle with
    | resolved s => exact Instr.Checked.onward h hr
    | lazy index s => trivial
  | call dest target args =>
    obtain ⟨d, signature, hd, hsignature, hargs⟩ := h
    exact ⟨d, signature, hd.onward hr, hsignature, hargs.imp_right fun h => ⟨h.1, h.2.onward hr⟩⟩
  | _ => trivial

end

/-! ## Blocks -/

def Block.before? (blk : Block) : Nat → Option Instr
  | 0 => none
  | i + 1 => (blk.instrs[i]?).map (·.instr)

def Block.Checks (r : Registry) (blk : Block) : Prop :=
  ∀ (i : Nat) p, blk.instrs[i]? = some p → p.instr.Follows r (blk.before? i)

theorem Block.before?_push {i : Nat} (h : i ≤ blk.instrs.size) :
    { blk with instrs := blk.instrs.push p }.before? i = blk.before? i := by
  cases i with
  | zero => rfl
  | succ i =>
    change ((blk.instrs.push p)[i]?).map _ = _
    rw [Array.getElem?_push, if_neg (by omega)]
    rfl

theorem Block.Checks.push (h : blk.Checks r)
    (hp : p.instr.Follows r (blk.before? blk.instrs.size)) :
    { blk with instrs := blk.instrs.push p }.Checks r := by
  intro i q hq
  rw [Array.getElem?_push] at hq
  split at hq
  · rename_i hi
    cases hq
    rw [hi, before?_push (Nat.le_refl _)]
    exact hp
  · have hlt := (Array.getElem?_eq_some_iff.mp hq).1
    rw [before?_push (Nat.le_of_lt hlt)]
    exact h i q hq

namespace EmitState

variable {st st' : EmitState} {P : Option Instr → Prop}

def Latest (st : EmitState) (P : Option Instr → Prop) : Prop :=
  ∀ blk, st.function.block? st.block = some blk → P (blk.before? blk.instrs.size)

theorem Latest.mono {Q : Option Instr → Prop} (h : st.Latest P) (hpq : ∀ i, P i → Q i) :
    st.Latest Q :=
  fun blk hblk => hpq _ (h blk hblk)

theorem Latest.of_same (h : st.Latest P) (hblocks : st'.function.blocks = st.function.blocks)
    (hblock : st'.block = st.block) : st'.Latest P := by
  intro blk hblk
  rw [Function.block?, hblocks, hblock] at hblk
  exact h blk hblk

theorem latest_addInstr (st : EmitState) (i : Instr) : (st.addInstr i).Latest (· = some i) := by
  intro blk hblk
  change (st.function.blocks.modify st.block _)[st.block]? = some blk at hblk
  rw [Array.getElem?_modify, if_pos rfl] at hblk
  obtain ⟨old, -, rfl⟩ := Option.map_eq_some_iff.mp hblk
  simp [Block.before?]

/-- All code so far is checked, and methods have the numbers they are found by. -/
structure Checks (st : EmitState) : Prop where
  blocks : ∀ b blk, st.function.block? b = some blk → blk.Checks st.registry
  numbers : ∀ n m, st.registry.method? n = some m → m.id = n

theorem Checks.addInstr (h : st.Checks) (hi : st.Latest (i.Follows st.registry ·)) :
    (st.addInstr i).Checks := by
  refine ⟨fun c blk hc => ?_, h.numbers⟩
  change (st.function.blocks.modify st.block _)[c]? = some blk at hc
  rw [Array.getElem?_modify] at hc
  split at hc
  · rename_i heq
    obtain ⟨old, hold, rfl⟩ := Option.map_eq_some_iff.mp hc
    exact (h.blocks c old hold).push (hi old (heq ▸ hold))
  · exact h.blocks c blk hc

end EmitState

namespace Emit

variable {α β : Type} {x : Emit α} {s : SymStack}

def Checking (x : Emit α) : Prop := ∀ st a st', st.Checks → x st = .ok a st' → st'.Checks

theorem Checking.bind {f : α → Emit β} (hx : Checking x) (hf : ∀ a, Checking (f a)) :
    Checking (x >>= f) := by
  intro st b st' hst h
  obtain ⟨a, mid, hmid, hrest⟩ := bind_ok h
  exact hf a mid b st' (hx st a mid hst hmid) hrest

theorem durable_checks : Durable 0 0 fun r _ blk => blk.Checks r where
  grown hr h i p hp := (h i p hp).onward hr.onward
  empty hinstrs _ i p hp := by
    rw [hinstrs] at hp
    cases hp
  close _ _ _ h := h
  param _ h := h
  instr _ hfree h := h.push (Instr.follows_of_isFree (hfree rfl))

theorem Composed.checking (h : Composed 0 0 x) : Checking x := by
  intro st a st' hst hx
  have hgrown := h.learns.grown_ok hx
  exact ⟨(h.keeps durable_checks st a st' ⟨Nat.zero_le _, hst.blocks⟩ hx).blocks,
    fun n m hm => hst.numbers n m ((hgrown.method n).symm.trans hm)⟩

theorem Silent.checking (h : Silent x) : Checking x := h.composed.checking

theorem Straight.checking (h : Straight 0 0 x) : Checking x := h.composed.checking

/-! ## Static fields -/

variable {st st' : EmitState} {body : Body} {f : Handle StaticSlot} {s' : SymStack}
  {member : MemberRef} {index : Nat}

theorem initCheck_ok {c : Handle ClassRef} (h : initCheck c st = .ok () st') :
    (st' = st ∧ ∃ ref, c = .resolved ref ∧ st.registry.phase? ref.id = some .initialized) ∨
      st' = st.addInstr (.initCheck c) := by
  cases c with
  | lazy index s =>
    cases h
    exact .inr rfl
  | resolved ref =>
    obtain ⟨_, _, hget, hrest⟩ := bind_ok h
    cases hget
    dsimp only at hrest
    by_cases hdone : (st.registry.class? ref.id).any (·.isInitialized) = true
    · rw [hdone] at hrest
      cases hrest
      obtain ⟨cls, hcls, hinit⟩ := (Option.any_eq_true _ _).mp hdone
      refine .inl ⟨rfl, ref, rfl, ?_⟩
      rw [Registry.phase?, hcls, Option.map_some, beq_iff_eq.mp hinit]
    · rw [Bool.eq_false_iff.mpr hdone] at hrest
      cases hrest
      exact .inr rfl

theorem latest_initCheck {ref : ClassRef} (h : initCheck (.resolved ref) st = .ok () st') :
    st'.Latest (Instr.Checked st'.registry · ref.id) := by
  rcases initCheck_ok h with ⟨rfl, ref', href, hphase⟩ | rfl
  · cases href
    exact fun _ _ => .inl hphase
  · exact (EmitState.latest_addInstr st _).mono fun _ hi => .inr ⟨ref, hi, rfl⟩

theorem Silent.latest {P : Option Instr → Prop} {a : α} (h : Silent x) (hx : x st = .ok a st')
    (hst : st.Latest P) : st'.Latest P := by
  obtain ⟨hfun, hblock, -⟩ := h.kept st a st' hx
  exact hst.of_same (by rw [hfun]) hblock

theorem Silent.grown {a : α} (h : Silent x) (hx : x st = .ok a st') :
    st.registry.Grown st'.registry :=
  h.learns.grown_ok hx

theorem staticHandle_checks
    (h : staticHandle body index member st = .ok f st') {s : StaticSlot} (hf : f = .resolved s) :
    st'.Latest (Instr.Checked st'.registry · s.owner.id) := by
  obtain ⟨cls, mid, -, hrest⟩ := bind_ok h
  have hrest := get_ok hrest
  cases hfound : cls.bind (mid.registry.findStatic? · member.name member.descriptor) with
  | none =>
    rw [hfound] at hrest
    cases hrest
    cases hf
  | some found =>
    obtain ⟨owner, slot⟩ := found
    rw [hfound] at hrest
    obtain ⟨_, mid', hcheck, hrest⟩ := bind_ok hrest
    have hbound : Silent (bound body index (⟨owner.ref, slot⟩ : StaticSlot)) := silent_bound ..
    have hlatest := (latest_initCheck hcheck).mono fun _ hi => hi.onward (hbound.grown hrest).onward
    have hsame := hbound.latest hrest hlatest
    cases hrest
    cases hf
    exact hsame

theorem follows_access (hi : (∃ d, i = .getStatic d f) ∨ ∃ v, i = .putStatic f v)
    (h : ∀ s, f = .resolved s → st.Latest (Instr.Checked st.registry · s.owner.id)) :
    st.Latest (i.Follows st.registry ·) := by
  cases f with
  | resolved s => rcases hi with ⟨d, rfl⟩ | ⟨v, rfl⟩ <;> exact h s rfl
  | lazy index s => rcases hi with ⟨d, rfl⟩ | ⟨v, rfl⟩ <;> exact fun _ _ => trivial

theorem Access.checking {pc : Nat} {x : Emit SymStack} (h : Access body pc s x) : Checking x := by
  intro st a st' hst hx
  cases h with
  | read index =>
    obtain ⟨⟨member, t⟩, mid, hmid, hx⟩ := bind_ok hx
    obtain ⟨f, mid', hhandle, hx⟩ := bind_ok hx
    have hmid' := (wired_staticHandle (s := []) body index member).straight.checking mid f mid'
      ((silent_fieldRef body pc index).checking _ _ _ hst hmid) hhandle
    cases hx
    have hreg : (mid'.addReg t).Checks := ⟨hmid'.blocks, hmid'.numbers⟩
    refine hreg.addInstr (follows_access (.inl ⟨_, rfl⟩) fun s hs => ?_)
    exact (staticHandle_checks hhandle hs).of_same rfl rfl
  | write index =>
    obtain ⟨⟨member, t⟩, mid, hmid, hx⟩ := bind_ok hx
    obtain ⟨f, mid', hhandle, hx⟩ := bind_ok hx
    have hmid' := (wired_staticHandle (s := []) body index member).straight.checking mid f mid'
      ((silent_fieldRef body pc index).checking _ _ _ hst hmid) hhandle
    obtain ⟨⟨v, s₁⟩, mid₂, hpop, hrest⟩ := bind_ok hx
    obtain ⟨-, rfl⟩ := popTyped_ok hpop
    cases hrest
    exact hmid'.addInstr (follows_access (.inr ⟨_, rfl⟩) fun s hs => staticHandle_checks hhandle hs)

/-! ## Calls -/

theorem length_popArguments {pc : Nat} {hasReceiver : Bool} {types : List ValueType}
    {args : List (Reg × ValueType)}
    (h : popArguments pc hasReceiver types s st = .ok (args, s') st') :
    args.length = types.length + if hasReceiver then 1 else 0 := by
  obtain ⟨⟨regs, s₁⟩, mid, hmid, h⟩ := bind_ok h
  have hlength := length_popAll hmid
  dsimp only at h
  split at h
  · rename_i hreceiver
    obtain ⟨⟨receiver, s₂⟩, mid', -, h⟩ := bind_ok h
    obtain ⟨_, mid₂, -, h⟩ := bind_ok h
    cases h
    simp [hlength, hreceiver]
  · rename_i hreceiver
    cases h
    simp [hlength, hreceiver]

section

variable {index : Nat} {member : MemberRef} {resolved exact : Option Method} {target : CallTarget}

section

variable (hfound : ∀ m, resolved = some m →
  st.registry.method? m.id = some m ∧ m.descriptor = member.descriptor)

include hfound

theorem describes_directTarget
    (h : directTarget body index member resolved st = .ok (exact, target) st') :
    target.Describes st'.registry member.descriptor := by
  have hgrown := (silent_directTarget body index member resolved).grown h
  cases resolved with
  | some m =>
    obtain ⟨hm, hd⟩ := hfound m rfl
    cases h
    exact ⟨m, (hgrown.method _).trans hm, hd⟩
  | none =>
    cases h
    exact ⟨member, rfl, rfl⟩

theorem describes_virtualTarget {cls : Option Class}
    (h : virtualTarget body index member cls resolved st = .ok (exact, target) st') :
    target.Describes st'.registry member.descriptor := by
  have hgrown :=
    (wired_virtualTarget (s := []) body index member cls resolved).straight.learns.grown_ok h
  rcases virtualTarget_ok h with ⟨k, m, -, hm, -, -, rfl⟩ | ⟨k, m, -, hm, -, -, -, rfl⟩ |
    ⟨-, -, rfl, -⟩ | ⟨-, -, rfl⟩
  · exact ⟨m, (hgrown.method _).trans (hfound m hm).1, (hfound m hm).2⟩
  · exact ⟨m, (hgrown.method _).trans (hfound m hm).1, (hfound m hm).2⟩
  · rfl
  · exact ⟨member, rfl, rfl⟩

theorem staticTarget_checks
    (h : staticTarget body index member resolved st = .ok (exact, target) st') :
    target.Describes st'.registry member.descriptor ∧
      st'.Latest (target.Checked st'.registry ·) := by
  have hsilent := silent_directTarget body index member resolved
  cases resolved with
  | some m =>
    obtain ⟨owner, mid, hbound, hrest⟩ := bind_ok h
    obtain ⟨_, mid', hcheck, htarget⟩ := bind_ok hrest
    have hmid := (silent_bound body index _).grown hbound
    have hmid' := hmid.trans ((straight_initCheck owner).learns.grown_ok hcheck)
    have hfound' : mid'.registry.method? m.id = some m := (hmid'.method _).trans (hfound m rfl).1
    have hgrown := hsilent.grown htarget
    refine ⟨describes_directTarget ?_ htarget, ?_⟩
    · rintro _ ⟨⟩
      exact ⟨hfound', (hfound m rfl).2⟩
    · cases hbound
      have hlatest := hsilent.latest htarget (latest_initCheck hcheck)
      cases htarget
      exact hlatest.mono fun _ hi => ⟨m, (hgrown.method _).trans hfound', hi.onward hgrown.onward⟩
  | none =>
    obtain ⟨owner, mid, hlazy, hrest⟩ := bind_ok h
    obtain ⟨_, mid', hcheck, htarget⟩ := bind_ok hrest
    have hnone : ∀ m, none = some m →
        mid'.registry.method? m.id = some m ∧ m.descriptor = member.descriptor := nofun
    refine ⟨describes_directTarget hnone htarget, ?_⟩
    cases hlazy
    rcases initCheck_ok hcheck with ⟨-, ref, href, -⟩ | rfl
    · cases href
    · have hlatest := hsilent.latest htarget (EmitState.latest_addInstr _ _)
      cases htarget
      exact hlatest.mono fun _ hi => ⟨member, index, rfl, hi⟩

end

/-- Where a static call can only lead to one method, the class of that is checked. -/
theorem staticTarget_single
    (h : staticTarget body index member resolved st = .ok (some m, target) st') :
    st'.Latest (Instr.Checked st'.registry · m.owner) := by
  have hsilent := silent_directTarget body index member resolved
  cases resolved with
  | some m' =>
    obtain ⟨owner, mid, hbound, hrest⟩ := bind_ok h
    obtain ⟨_, mid', hcheck, htarget⟩ := bind_ok hrest
    have hgrown := hsilent.grown htarget
    cases hbound
    have hlatest := hsilent.latest htarget (latest_initCheck hcheck)
    cases htarget
    exact hlatest.mono fun _ hi => hi.onward hgrown.onward
  | none =>
    obtain ⟨owner, mid, -, hrest⟩ := bind_ok h
    obtain ⟨_, mid', -, htarget⟩ := bind_ok hrest
    cases htarget

end

/-- The target of a call has the descriptor that the call names, and that of a static call is
checked. -/
theorem selectTarget_checks {op : Operation} {exact : Option Method} (hst : st.Checks)
    (h : selectTarget body op index member st = .ok (exact, target) st') :
    target.Describes st'.registry member.descriptor ∧
      (isStaticCall op = true → st'.Latest (target.Checked st'.registry ·)) := by
  obtain ⟨cls, mid, hcls, h⟩ := bind_ok h
  have h := get_ok h
  have hmid : mid.Checks := (silent_boundClass _).checking st cls mid hst hcls
  have hfound : ∀ m, cls.bind (mid.registry.findMethod? · member.name member.descriptor) = some m →
      mid.registry.method? m.id = some m ∧ m.descriptor = member.descriptor := by
    intro m hm
    obtain ⟨k, -, hm⟩ := Option.bind_eq_some_iff.mp hm
    obtain ⟨⟨n, hn⟩, -, hdescriptor⟩ := Registry.findMethod_some hm
    rw [hmid.numbers n m hn]
    exact ⟨hn, hdescriptor⟩
  split at h
  · obtain ⟨hdescribes, hlatest⟩ := staticTarget_checks hfound h
    exact ⟨hdescribes, fun _ => hlatest⟩
  · exact ⟨describes_directTarget hfound h, nofun⟩
  · exact ⟨describes_virtualTarget hfound h, nofun⟩
  · rename_i hstatic _ _
    obtain ⟨target', mid', hmid', hrest⟩ := bind_ok h
    cases hrest
    obtain ⟨rfl, -⟩ := cachedTarget_ok hmid'
    refine ⟨rfl, fun hop => ?_⟩
    unfold isStaticCall at hop
    split at hop
    · exact absurd rfl (hstatic _)
    · cases hop

theorem checking_call {args : List Reg} {t : Option ValueType}
    {signature : Signature} (hst : st.Checks) (hd : target.Describes st.registry d)
    (hsignature : Signature.parse d = .ok signature)
    (hargs : args.length = signature.paramTypes.length + 1 ∨
      args.length = signature.paramTypes.length ∧ st.Latest (target.Checked st.registry ·))
    (h : call target args t s st = .ok s' st') : st'.Checks := by
  have hfollows : ∀ dest, st.Latest ((Instr.call dest target args).Follows st.registry ·) := by
    intro dest blk hblk
    exact ⟨d, signature, hd, hsignature, hargs.imp_right fun h => ⟨h.1, h.2 blk hblk⟩⟩
  cases t with
  | none =>
    cases h
    exact hst.addInstr (hfollows none)
  | some t =>
    cases h
    have hreg : (st.addReg t).Checks := ⟨hst.blocks, hst.numbers⟩
    exact hreg.addInstr ((hfollows _).of_same rfl rfl)

theorem checking_invoke {expand : Option Expander}
    (hexpand : Each (fun x _ => Checking x) body expand expand) (pc : Nat) (op : Operation)
    (index : Nat) (s : SymStack) :
    Checking (invoke expand body pc op index s) := by
  rw [invoke_eq]
  intro st a st' hst h
  obtain ⟨member, st₁, hmember, h⟩ := bind_ok h
  obtain ⟨signature, st₂, hsignature, h⟩ := bind_ok h
  obtain ⟨⟨args, s₁⟩, st₃, hargs, h⟩ := bind_ok h
  obtain ⟨⟨single, target⟩, st₄, htarget, h⟩ := bind_ok h
  have h₁ := (silent_poolEntry body pc _).checking _ _ _ hst hmember
  have h₂ := (silent_liftExcept _).checking _ _ _ h₁ hsignature
  have h₃ := (wired_popArguments ..).straight.checking _ _ _ h₂ hargs
  have h₄ := (straight_selectTarget ..).checking _ _ _ h₃ htarget
  have h := get_ok h
  cases hexp : expansion? expand body single st₄ with
  | none =>
    simp only [hexp] at h
    obtain ⟨hdescribes, hchecked⟩ := selectTarget_checks h₃ htarget
    refine checking_call h₄ hdescribes (Except.mapError_ok (liftExcept_ok hsignature).1) ?_ h
    rw [List.length_map, length_popArguments hargs]
    cases hop : isStaticCall op with
    | true => exact .inr ⟨rfl, hchecked hop⟩
    | false => exact .inl rfl
  | some found =>
    simp only [hexp] at h
    obtain ⟨v, hv, -⟩ := map_ok h
    exact hexpand _ (expansion?_some hexp).2.1 body pc _ args _ _ _ h₄ hv

theorem bind_congr_ok {x y : Emit α} {f g : α → Emit β} (hxy : x st = y st)
    (hfg : ∀ a mid, x st = .ok a mid → f a mid = g a mid) : (x >>= f) st = (y >>= g) st := by
  change EStateM.bind x f st = EStateM.bind y g st
  unfold EStateM.bind
  rw [← hxy]
  cases hx : x st with
  | error e mid => rfl
  | ok a mid => exact hfg a mid hx

/-- Expands behind a check of the class of the method, and does something else elsewhere. -/
noncomputable def whereChecked (expand other : Expander) : Expander :=
  fun body pc m args st =>
    open Classical in
    if st.Latest (Instr.Checked st.registry · m.owner) then expand body pc m args st
    else other body pc m args st

/-- Static calls are expanded only behind a check of the class of their method. -/
theorem invoke_whereChecked (expand other : Expander) (body : Body) (pc k index : Nat)
    (s : SymStack) (st : EmitState) :
    invoke (some (whereChecked expand other)) body pc (.invokeStatic k) index s st =
      invoke (some expand) body pc (.invokeStatic k) index s st := by
  refine bind_congr_ok rfl fun member st₁ _ => bind_congr_ok rfl fun signature st₂ _ =>
    bind_congr_ok rfl fun popped st₃ _ => bind_congr_ok rfl fun selected st₄ hselected => ?_
  obtain ⟨_ | m, target⟩ := selected
  · rfl
  · refine bind_congr_ok rfl fun _ _ hfits => ?_
    cases canExpand_eq.symm.trans hfits
    cases fits body m st₄ with
    | false => rfl
    | true =>
      refine bind_congr_ok ?_ fun _ _ _ => rfl
      obtain ⟨cls, mid, -, hrest⟩ := bind_ok hselected
      have htarget := get_ok hrest
      exact if_pos (staticTarget_single htarget)

theorem pervades_checking : Pervades (Each fun x _ => Checking x) fun x _ => Checking x where
  composed h := (h 0).checking
  bind hx hf := hx.bind hf
  access h := h.checking
  invoke pc op index s hexpand := checking_invoke hexpand pc op index s

end Emit

/-- **Compiled code checks classes in front of static members.** -/
theorem compile_checks {config : Config} {registry : Registry} {compiled : Compiled}
    (hbuilt : registry.Built) (h : (compile config registry m).1 = .ok compiled) {b : BlockId}
    (hblk : compiled.function.block? b = some blk) : blk.Checks (compile config registry m).2 := by
  obtain ⟨code, last, -, hmethod, hfun, -, -, hregistry⟩ := compile_ok h
  have hstart : (EmitState.ofMethod config registry m code).Checks := by
    refine ⟨fun b blk hb => ?_, hbuilt.orderly.methodId⟩
    cases (Array.getElem?_empty.symm.trans hb)
  have hgrow : ∀ k, Emit.Checking (Emit.grow k) := by
    rintro k st a st' hst ⟨⟩
    exact ⟨hst.blocks, hst.numbers⟩
  have hchecks := Emit.pervades_checking.method hgrow m code _ _ _ hstart hmethod
  rw [hfun] at hblk
  rw [hregistry]
  exact hchecks.blocks b blk hblk

end ManagedCore
