import ManagedCore.Proofs.Compile.Checks
import ManagedCore.Proofs.InlineCache.Chain
import ManagedCore.Proofs.Machine.Paths
import ManagedCore.Proofs.Machine.Requests

/-!
# Code in use

Compiled code comes into being in one piece, and afterwards only its inline caches change. What a
cache remembers for a class is what the class would be given if the site had no cache, as long as
the sites of the code are those that its instructions name.
-/

namespace ManagedCore

open World Option

/-! ## Inline caches -/

/-- Every target that the cache remembers is the one that its class would be given anew. -/
def InlineCache.Sound (r : Registry) (cache : InlineCache) : Prop :=
  ∀ i p, cache.pair? i = some p → ∃ cls, r.class? p.1 = some cls ∧
    Exec.cacheTarget? r cache.member cls = some p.2

namespace InlineCache.Sound

variable {r r' : Registry} {cache : InlineCache}

theorem keep (h : cache.Sound r) (ho : r.Orderly) (hk : r.Keeps r') : cache.Sound r' := by
  intro i p hp
  obtain ⟨cls, hcls, htarget⟩ := h i p hp
  obtain ⟨cls', hcls', hsame⟩ := hk.classes _ cls hcls
  exact ⟨cls', hcls', (ho.cacheTarget_later hk hcls hsame _).trans htarget⟩

theorem lookup (h : cache.Sound r) {cls : Class} (hcls : r.class? cls.id = some cls) :
    let found := cache.lookup cls.id fun _ => Exec.cacheTarget? r cache.member cls
    found.1 = Exec.cacheTarget? r cache.member cls ∧ found.2.2.member = cache.member ∧
      found.2.2.Sound r := by
  obtain ⟨hanswer, hentries⟩ := lookup_entries (fun _ => Exec.cacheTarget? r cache.member cls) h
    fun m hm => ⟨cls, hcls, hm⟩
  refine ⟨?_, member_lookup _, fun i p hp => (member_lookup _).symm ▸ hentries i p hp⟩
  rcases hanswer with ⟨m, ⟨c, hc, hm⟩, heq⟩ | heq
  · obtain rfl : cls = c := some.inj (hcls.symm.trans hc)
    exact heq.trans hm.symm
  · exact heq

end InlineCache.Sound

/-! ## Code -/

def Function.Checks (r : Registry) (f : Function) : Prop :=
  ∀ b blk, f.block? b = some blk → blk.Checks r

theorem Function.Checks.onward {r r' : Registry} {f : Function} (h : f.Checks r)
    (hr : r.Onward r') : f.Checks r' :=
  fun b blk hb i p hp => (h b blk hb i p hp).onward hr

/-- The sites of the code are those of its instructions, and its caches are sound. -/
structure LiveCode.Sound (r : Registry) (live : LiveCode) : Prop where
  checks : live.compiled.function.Checks r
  sited : ∀ b blk, live.compiled.function.block? b = some blk → ∀ p ∈ blk.instrs, ∀ site,
    p.instr.callSite? = some site → live.compiled.sites[site.number]? = some site
  caches : ∀ (k : Nat) cache, live.caches[k]? = some cache → cache.Sound r ∧
    ∃ site, live.compiled.sites[k]? = some site ∧ cache.member = site.member

namespace LiveCode.Sound

variable {r r' : Registry} {live : LiveCode}

theorem onward (h : live.Sound r) (ho : r.Orderly) (hr : r.Onward r') : live.Sound r' where
  checks := h.checks.onward hr
  sited := h.sited
  caches k cache hcache := ⟨(h.caches k cache hcache).1.keep ho hr.later.keeps,
    (h.caches k cache hcache).2⟩

theorem ofCompiled {config : Config} {m : Method} {compiled : Compiled} (hbuilt : r.Built)
    (h : (compile config r m).1 = .ok compiled) :
    (LiveCode.ofCompiled compiled).Sound (compile config r m).2 := by
  refine ⟨fun b blk hblk => compile_checks hbuilt h hblk, fun b blk hblk p hp site hsite => ?_,
    fun k cache hcache => ?_⟩
  · obtain ⟨code, last, o, body, lock, -, hfinished, hfun, hsites, -⟩ := compile_finished hbuilt h
    change compiled.function.block? b = some blk at hblk
    rw [hfun] at hblk
    change compiled.sites[site.number]? = some site
    rw [hsites]
    exact (hfinished.laid.blocks b blk hblk).sited p hp site hsite
  · change (compiled.sites.map _).toArray[k]? = some cache at hcache
    rw [List.getElem?_toArray, List.getElem?_map] at hcache
    obtain ⟨site, hsite, rfl⟩ := map_eq_some_iff.mp hcache
    refine ⟨fun i p hp => ?_, site, hsite, rfl⟩
    cases i <;> cases hp

theorem setCache (h : live.Sound r) {k : Nat} {cache cache' : InlineCache}
    (hcache : live.caches[k]? = some cache) (hmember : cache'.member = cache.member)
    (hsound : cache'.Sound r) :
    LiveCode.Sound r { live with caches := live.caches.setIfInBounds k cache' } where
  checks := h.checks
  sited := h.sited
  caches j c hc := by
    rw [Array.getElem?_setIfInBounds] at hc
    split at hc
    · rename_i hj
      subst hj
      split at hc
      · cases hc
        obtain ⟨-, site, hsite, heq⟩ := h.caches k cache hcache
        exact ⟨hsound, site, hsite, hmember.trans heq⟩
      · cases hc
    · exact h.caches j c hc

end LiveCode.Sound

def World.Coded (w : World) : Prop := ∀ n live, w.code? n = some live → live.Sound w.registry

namespace World.Coded

variable {w w' : World}

theorem onward (h : w.Coded) (ho : w.registry.Orderly) (hr : w.registry.Onward w'.registry)
    (hcodes : w'.codes = w.codes) : w'.Coded := by
  intro n live hlive
  rw [code?, hcodes] at hlive
  exact (h n live hlive).onward ho hr

theorem codeFor (h : w.Coded) (hbuilt : w.registry.Built) (m : Method) : (w.codeFor m).2.Coded := by
  unfold World.codeFor
  split
  · exact h
  · have hanew : (w.compileAnew m).2.Coded :=
      h.onward hbuilt.orderly (compile_grown w.config w.registry m).onward rfl
    split
    · rename_i heq
      rw [heq] at hanew
      exact hanew
    · rename_i c w₁ heq
      have hcompile : (compile w.config w.registry m).1 = .ok c := congrArg Prod.fst heq
      have hregistry : (compile w.config w.registry m).2 = w₁.registry :=
        congrArg (·.2.registry) heq
      rw [heq] at hanew
      intro n live hlive
      change (w₁.codes.push (LiveCode.ofCompiled c))[n]? = some live at hlive
      rw [Array.getElem?_push] at hlive
      split at hlive
      · cases hlive
        exact hregistry ▸ LiveCode.Sound.ofCompiled hbuilt hcompile
      · exact hanew n live hlive

theorem compileMethod (h : w.Coded) (hbuilt : w.registry.Built) (m : MethodId) :
    (w.compileMethod m).2.Coded := by
  unfold World.compileMethod
  split
  · exact h
  · rename_i method _
    split
    · exact h
    · have hcoded := h.codeFor hbuilt method
      have hcalm := Calm.codeFor (w := w) method
      split
      · rename_i heq
        rw [heq] at hcoded
        exact hcoded
      · rename_i heq
        rw [heq] at hcoded hcalm
        refine hcoded.onward (hbuilt.later hcalm.later).orderly ?_ rfl
        exact .of_samePhases (.publish m .same fun _ => rfl) (.modifyMethod m _)

end World.Coded

/-! ## Moves -/

/-- What moves leave alone, with the code in order behind them if it was before. -/
structure World.Tended (w w' : World) : Prop where
  calm : w.Calm w'
  coded : w.registry.Built → w.Coded → w'.Coded

namespace World.Tended

variable {w w' w'' : World}

theorem trans (h : w.Tended w') (h' : w'.Tended w'') : w.Tended w'' :=
  ⟨h.calm.trans h'.calm, fun hbuilt hcoded =>
    h'.coded (hbuilt.later h.calm.later) (h.coded hbuilt hcoded)⟩

theorem of_calm (h : w.Calm w') (hcodes : w'.codes = w.codes) : w.Tended w' :=
  ⟨h, fun hbuilt hcoded => hcoded.onward hbuilt.orderly (.of_samePhases h.later h.phases) hcodes⟩

end World.Tended

theorem World.lenient_tended : Lenient Tended where
  refl _ := .of_calm .refl rfl
  trans := .trans
  quiet h := .of_calm (.of_quiet h) h.codes
  same houtOfMemory hregistry hheap hcodes :=
    .of_calm (.of_same houtOfMemory hregistry hheap hcodes) hcodes
  compile _ m := ⟨.compileMethod m, fun hbuilt hcoded => hcoded.compileMethod hbuilt m⟩

/-- Registries go on, and code stays but for its caches. -/
structure World.Forward (w w' : World) : Prop where
  registry : w.registry.Onward w'.registry
  codes : ∀ (n : CodeId) live, w.code? n = some live →
    ∃ live', w'.code? n = some live' ∧ live'.compiled = live.compiled

theorem World.Forward.of_calm {w w' : World} (h : w.Calm w') : w.Forward w' :=
  ⟨.of_samePhases h.later h.phases, h.codes⟩

namespace Activation

variable {a b : Activation} {w w' : World}

def Linked (w : World) (a : Activation) : Prop :=
  ∃ live, w.code? a.code = some live ∧ live.compiled.function = a.function

theorem Linked.forward (h : a.Linked w) (hw : w.Forward w') : a.Linked w' := by
  obtain ⟨live, hlive, hfun⟩ := h
  obtain ⟨live', hlive', hsame⟩ := hw.codes _ live hlive
  exact ⟨live', hlive', hsame ▸ hfun⟩

theorem Linked.same (h : a.Linked w) (hcode : b.code = a.code) (hfun : b.function = a.function) :
    b.Linked w := by
  obtain ⟨live, hlive, hlive'⟩ := h
  exact ⟨live, hcode ▸ hlive, hlive'.trans hfun.symm⟩

theorem Linked.checks (h : a.Linked w) (hcoded : w.Coded) : a.function.Checks w.registry := by
  obtain ⟨live, hlive, hfun⟩ := h
  exact hfun ▸ (hcoded _ live hlive).checks

theorem Linked.sited {p : PlacedInstr} {site : CallSite} (h : a.Linked w) (hcoded : w.Coded)
    (hp : a.instr? = some p) (hsite : p.instr.callSite? = some site) (live : LiveCode)
    (hlive : w.code? a.code = some live) : live.compiled.sites[site.number]? = some site := by
  obtain ⟨live', hlive', hfun⟩ := h
  cases hlive.symm.trans hlive'
  obtain ⟨blk, hblk, hindex⟩ := bind_eq_some_iff.mp hp
  rw [← hfun] at hblk
  exact (hcoded _ live hlive).sited _ blk hblk p (Array.mem_of_getElem? hindex) site hsite

end Activation

namespace Exec

variable {a : Activation} {t : ThreadId} {w : World}

theorem tended_lookupSite {code : CodeId} {site : CallSite} {receiver : Class}
    (hsite : ∀ live, w.code? code = some live → live.compiled.sites[site.number]? = some site)
    (hreceiver : w.registry.class? receiver.id = some receiver) :
    w.Tended ((lookupSite code site receiver).world t w) := by
  refine ⟨calm_lookupSite code site receiver t w, fun hbuilt hcoded => ?_⟩
  rw [world, runOn_lookupSite]
  cases hcache : (w.code? code).bind (·.caches[site.number]?) with
  | none => exact hcoded
  | some cache =>
    obtain ⟨live, hlive, hcache⟩ := bind_eq_some_iff.mp hcache
    intro n live' hlive'
    change (w.codes.modify code _)[n]? = some live' at hlive'
    rw [Array.getElem?_modify] at hlive'
    split at hlive'
    · rename_i hn
      subst hn
      have hsound := hcoded code live hlive
      obtain ⟨hcachesound, site', hsite', hmember⟩ := hsound.caches _ cache hcache
      cases (hsite live hlive).symm.trans hsite'
      obtain ⟨-, hsame, hfound⟩ := hcachesound.lookup hreceiver
      rw [hmember] at hsame hfound
      rw [show w.codes[code]? = some live from hlive, map_some, some.injEq] at hlive'
      subst hlive'
      exact hsound.setCache hcache (hsame.trans hmember.symm) hfound
    · exact hcoded n live' hlive'

theorem classOf_ok {o : ObjId} {c : Class} {w' : World} (h : (classOf o).runOn t w = .ok c w') :
    w' = w ∧ w.classOf? o = some c := by
  rw [classOf, get_runOn] at h
  split at h
  · cases h
    exact ⟨rfl, ‹_›⟩
  · cases h

theorem tended_select (hbuilt : w.registry.Built) {target : CallTarget} {receiver : Option Reg}
    (hsite : ∀ site, target = .cached site → ∀ live, w.code? a.code = some live →
      live.compiled.sites[site.number]? = some site) :
    w.Tended ((select a target receiver).world t w) := by
  have hlenient := lenient_tended
  cases target with
  | direct | virtual => exact hlenient.quiet (quiet_select a (by rintro site ⟨⟩) receiver t w)
  | cached site =>
    cases receiver with
    | none => exact hlenient.quiet (quiet_fail t w)
    | some r =>
      have hnull := quiet_nonNull a r
      refine within_bind_ok (R := Tended) hlenient.trans (hlenient.quiet (hnull t w)) ?_
      intro o w₁ ho
      have hquiet₁ := within_ok (hnull t w) ho
      refine within_bind_ok (R := Tended) hlenient.trans
        (hlenient.quiet (quiet_classOf o t w₁)) ?_
      intro c w₂ hc
      obtain ⟨rfl, hc⟩ := classOf_ok hc
      obtain ⟨obj, -, hc⟩ := bind_eq_some_iff.mp hc
      have hid := ((hbuilt.later hquiet₁.later).orderly.formed _ c hc).id
      refine within_bind_ok (R := Tended) hlenient.trans (tended_lookupSite ?_ (hid ▸ hc)) ?_
      · intro live hlive
        rw [code?, hquiet₁.codes] at hlive
        exact hsite site rfl live hlive
      · intro m w₃ _
        cases m with
        | some m => exact hlenient.quiet (Quiet.pure t w₃)
        | none => exact hlenient.quiet (quiet_raise t w₃)

theorem tended_evaluate (hbuilt : w.registry.Built) {i : Instr}
    (hsite : ∀ site, i.callSite? = some site → ∀ live, w.code? a.code = some live →
      live.compiled.sites[site.number]? = some site) : w.Tended ((evaluate a i).world t w) := by
  have hlenient := lenient_tended
  cases hcall : i.callSite? with
  | none => exact hlenient.quiet (quiet_evaluate a hcall t w)
  | some site =>
    cases i with
    | call d target args =>
      refine within_bind_ok (R := Tended) hlenient.trans (tended_select hbuilt ?_) ?_
      · rintro site' rfl
        exact hsite site' rfl
      · exact fun m w' _ => hlenient.quiet (Quiet.pure t w')
    | _ => cases hcall

end Exec

/-- Activations that run code of the world keep the code in order. -/
theorem Activation.evaluates_tended {a : Activation} {w : World} (t : ThreadId)
    (hbuilt : w.registry.Built) (hlinked : a.Linked w) (hcoded : w.Coded) :
    a.Evaluates Tended t w := by
  intro blk p hblk hp w' hregistry hcodes
  have hinstr : a.instr? = some p := by
    rw [instr?, hblk]
    exact hp
  refine Exec.tended_evaluate (hregistry ▸ hbuilt) fun site hsite live hlive => ?_
  rw [code?, hcodes] at hlive
  exact hlinked.sited hcoded hinstr hsite live hlive

end ManagedCore
