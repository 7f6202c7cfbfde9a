import ManagedCore.Machine.Control
import ManagedCore.Proofs.Class.Phases
import ManagedCore.Proofs.Thread.Lookup

/-!
# What computations leave alone

Within one step a thread may link array classes, allocate and change objects and take monitors. It
does not replace classes, compiled code or the class of an object, it leaves each class in its phase,
and it does not touch the roots of any thread. Calls through inline caches change the caches and
nothing else of the code.
-/

namespace ManagedCore

/-! ## Heaps -/

/-- Objects stay, each keeps its class, and the room for them is the same. -/
structure Heap.Keeps (h h' : Heap) : Prop where
  objects : ∀ o obj, h.get? o = some obj → ∃ obj', h'.get? o = some obj' ∧ obj'.cls = obj.cls
  limit : h'.limit = h.limit

namespace Heap.Keeps

variable {h h' h'' : Heap}

theorem refl : h.Keeps h := ⟨fun _ obj ho => ⟨obj, ho, rfl⟩, rfl⟩

theorem trans (hk : h.Keeps h') (hk' : h'.Keeps h'') : h.Keeps h'' := by
  refine ⟨fun o obj ho => ?_, hk'.limit.trans hk.limit⟩
  obtain ⟨obj', ho', hcls⟩ := hk.objects o obj ho
  obtain ⟨obj'', ho'', hcls'⟩ := hk'.objects o obj' ho'
  exact ⟨obj'', ho'', hcls'.trans hcls⟩

theorem modify (o : ObjId) {f : Object → Object} (hf : ∀ obj, (f obj).cls = obj.cls) :
    h.Keeps (h.modify o f) := by
  refine ⟨fun k obj hobj => ?_, rfl⟩
  rw [Heap.get?, Heap.modify, Array.getElem?_modify, ← Heap.get?, hobj]
  split
  · exact ⟨f obj, rfl, hf obj⟩
  · exact ⟨obj, rfl, rfl⟩

theorem add (o : Object) : h.Keeps (h.add o).2 := by
  refine ⟨fun k obj hobj => ?_, rfl⟩
  refine ⟨obj, ?_, rfl⟩
  have hlt := (Array.getElem?_eq_some_iff.mp hobj).1
  exact (Array.getElem?_push_lt hlt).trans (Array.getElem?_eq_getElem hlt ▸ hobj)

theorem allocateSized (size : Nat) (o : Unit → Object) : h.Keeps (h.allocateSized size o).2 := by
  unfold Heap.allocateSized
  split
  · exact .refl
  · exact ⟨(Keeps.add (o ())).objects, rfl⟩

end Heap.Keeps

/-! ## Worlds -/

structure World.Quiet (w w' : World) : Prop where
  config : w'.config = w.config
  outOfMemory : w'.outOfMemory = w.outOfMemory
  later : w.registry.Later w'.registry
  phases : w.registry.SamePhases w'.registry
  codes : w'.codes = w.codes
  roots : ∀ t, (w'.thread? t).map (·.roots) = (w.thread? t).map (·.roots)
  heap : w.heap.Keeps w'.heap

namespace World.Quiet

variable {w w' w'' : World} {registry : Registry}

theorem refl : w.Quiet w := ⟨rfl, rfl, .same, .refl, rfl, fun _ => rfl, .refl⟩

theorem trans (h : w.Quiet w') (h' : w'.Quiet w'') : w.Quiet w'' :=
  ⟨h'.config.trans h.config, h'.outOfMemory.trans h.outOfMemory, h.later.trans h'.later,
    h.phases.trans h'.phases, h'.codes.trans h.codes, fun t => (h'.roots t).trans (h.roots t),
    h.heap.trans h'.heap⟩

theorem of_heap {heap : Heap} (h : w.heap.Keeps heap) : w.Quiet { w with heap } :=
  ⟨rfl, rfl, .same, .refl, rfl, fun _ => rfl, h⟩

theorem of_registry (h : w.registry.Later registry)
    (hp : w.registry.SamePhases registry) : w.Quiet { w with registry } :=
  ⟨rfl, rfl, h, hp, rfl, fun _ => rfl, .refl⟩

theorem of_arrays (h : w.registry.ArraysAdded registry) : w.Quiet { w with registry } :=
  of_registry (.arrays .same h) (.arraysAdded h)

theorem modifyThread (k : ThreadId) {f : Thread → Thread}
    (hf : ∀ th, (f th).id = th.id ∧ (f th).roots = th.roots) : w.Quiet (w.modifyThread k f) := by
  refine ⟨rfl, rfl, .same, .refl, rfl, fun t => ?_, .refl⟩
  rw [World.thread?, World.modifyThread, Threads.find?_modify _ _ _ fun th => (hf th).1]
  split
  · rename_i hk
    rw [hk, Option.map_map]
    congr 1
    funext th
    exact (hf th).2
  · rfl

theorem lookup (name : String) : w.Quiet (w.lookup name).2 :=
  of_arrays (Registry.arraysAdded_lookup w.registry name)

theorem allocate (c : Class) : w.Quiet (w.allocate c).2 :=
  of_heap (Heap.Keeps.allocateSized c.size fun _ => Heap.instanceOf c)

theorem allocateArray (c : Class) (kind : ElementKind) (length : Nat) :
    w.Quiet (w.allocateArray c kind length).2 :=
  of_heap (Heap.Keeps.allocateSized (Heap.arraySize kind length) fun _ =>
    Heap.arrayOf c.ref kind length)

theorem allocateText (s : String) : w.Quiet (w.allocateText s).2 :=
  of_heap (Heap.Keeps.allocateSized (16 + s.utf8ByteSize) fun _ =>
    { cls := w.stringRef, content := .text s })

theorem intern (s : String) : w.Quiet (w.intern s).2 := by
  unfold World.intern
  split
  · exact .refl
  · have htext := allocateText (w := w) s
    split
    · rename_i heq
      rw [heq] at htext
      exact ⟨htext.config, htext.outOfMemory, htext.later, htext.phases, htext.codes, htext.roots,
        htext.heap⟩
    · rename_i heq
      rwa [heq] at htext

theorem classLock (c : Class) : w.Quiet (w.classLock c).2 := by
  unfold World.classLock
  split
  · exact .refl
  · exact ⟨rfl, rfl, .change c.id .same fun _ => rfl, .modifyClass c.id fun _ => ⟨rfl, rfl⟩, rfl,
      fun _ => rfl, Heap.Keeps.add _⟩

theorem setField_cls (o : Object) (slot : Nat) (v : Value) : (World.setField o slot v).cls = o.cls := by
  unfold World.setField
  split <;> rfl

theorem createException (fault : Fault) (message : Option String) :
    w.Quiet (w.createException fault message).2 := by
  unfold World.createException
  split
  · exact .refl
  · exact .refl
  · rename_i c _ _
    have halloc := allocate (w := w) c
    split
    · rename_i heq
      rwa [heq] at halloc
    · rename_i heq
      rwa [heq] at halloc
    · rename_i e w₁ text heq
      rw [heq] at halloc
      have htext := allocateText (w := w₁) text
      split
      · rename_i s w₂ heq'
        rw [heq'] at htext
        exact (halloc.trans htext).trans
          (of_heap (Heap.Keeps.modify e fun obj => setField_cls obj messageSlot (.obj s)))
      · rename_i heq'
        rw [heq'] at htext
        exact halloc.trans htext

theorem captureTrace (t : ThreadId) (e : ObjId) : w.Quiet (w.captureTrace t e) := by
  unfold World.captureTrace
  split
  · exact of_heap (Heap.Keeps.modify e fun _ => rfl)
  · exact .refl

theorem poolView (c : Class) (i : Nat) : w.Quiet (w.poolView c i).2 := by
  unfold World.poolView
  split
  · exact .refl
  · rename_i name _
    exact lookup name

end World.Quiet

/-! ## Computations -/

namespace Exec

variable {α β : Type} {f : α → Exec β} {R : World → World → Prop} {x : Exec α}

def world (x : Exec α) (t : ThreadId) (w : World) : World :=
  match x.runOn t w with
  | .ok _ w => w
  | .error _ w => w

/-- What holds of two computations one after the other, if it holds of the first and then of the
second. -/
theorem within_bind_ok (htrans : ∀ {w w' w''}, R w w' → R w' w'' → R w w'')
    {t : ThreadId} {w : World} (hx : R w (x.world t w))
    (hf : ∀ a w', x.runOn t w = .ok a w' → R w' ((f a).world t w')) :
    R w ((x >>= f).world t w) := by
  have hworld : (x >>= f).world t w = match x.runOn t w with
      | .ok a w => (f a).world t w
      | .error _ w => w := by
    change (match EStateM.bind (x t) (fun a => f a t) w with
      | .ok _ w => w
      | .error _ w => w) = _
    unfold EStateM.bind
    change _ = match x t w with
      | .ok a w => (match f a t w with | .ok _ w => w | .error _ w => w)
      | .error _ w => w
    cases x t w <;> rfl
  rw [hworld]
  unfold world at hx
  cases hrun : x.runOn t w with
  | ok a w₁ =>
    rw [hrun] at hx
    exact htrans hx (hf a w₁ hrun)
  | error e w₁ =>
    rw [hrun] at hx
    exact hx

theorem within_bind (htrans : ∀ {w w' w''}, R w w' → R w' w'' → R w w'')
    (hx : ∀ t w, R w (x.world t w))
    (hf : ∀ a t w, R w ((f a).world t w)) (t : ThreadId) (w : World) : R w ((x >>= f).world t w) :=
  within_bind_ok (R := R) htrans (hx t w) fun a w' _ => hf a t w'

def Quiet (x : Exec α) : Prop := ∀ (t : ThreadId) (w : World), w.Quiet (x.world t w)

namespace Quiet

theorem pure {a : α} : (Pure.pure a : Exec α).Quiet := fun _ _ => .refl

theorem bind (hx : x.Quiet) (hf : ∀ a, (f a).Quiet) : (x >>= f).Quiet :=
  within_bind World.Quiet.trans hx hf

theorem get : (MonadState.get : Exec World).Quiet := fun _ _ => .refl

theorem read : (MonadReader.read : Exec ThreadId).Quiet := fun _ _ => .refl

theorem throw {e : Trap} : (MonadExcept.throw e : Exec α).Quiet := fun _ _ => .refl

theorem modifyGet {f : World → α × World} (hf : ∀ w : World, w.Quiet (f w).2) :
    (modifyGet f : Exec α).Quiet := fun _ w => hf w

theorem modify {f : World → World} (hf : ∀ w : World, w.Quiet (f w)) : (modify f : Exec Unit).Quiet :=
  fun _ w => hf w

end Quiet

theorem quiet_fail {e : EngineError} : (fail e : Exec α).Quiet := .throw

theorem quiet_throwObject (e : ObjId) : (throwObject e : Exec α).Quiet :=
  .bind .read fun t => .bind (.modify fun _ => .captureTrace t e) fun _ => .throw

theorem quiet_create (fault : Fault) (message : Option String) : (create fault message).Quiet :=
  .modifyGet fun _ => .createException fault message

theorem quiet_raise {fault : Fault} {message : Option String} :
    (raise fault message : Exec α).Quiet :=
  .bind (quiet_create fault message) quiet_throwObject

theorem quiet_allocating {full : AllocError → Exec α} {alloc : World → Except AllocError α × World}
    (hfull : ∀ e, (full e).Quiet) (halloc : ∀ w : World, w.Quiet (alloc w).2) :
    (allocating full alloc).Quiet := by
  refine .bind (.modifyGet halloc) fun a => ?_
  cases a with
  | ok a => exact .pure
  | error e => exact hfull e

theorem quiet_thread : thread.Quiet := by
  refine .bind .read fun t => .bind .get fun w => ?_
  split
  · exact .pure
  · exact quiet_fail

theorem quiet_modifyThread {f : Thread → Thread}
    (hf : ∀ th, (f th).id = th.id ∧ (f th).roots = th.roots) : (modifyThread f).Quiet :=
  .bind .read fun t => .modify fun _ => .modifyThread t hf

/-! ### Objects -/

section

variable (o : ObjId)

include o

theorem quiet_object : (object o).Quiet := by
  refine .bind .get fun w => ?_
  split
  · exact .pure
  · exact quiet_fail

theorem quiet_modifyObject {f : Object → Object} (hf : ∀ obj, (f obj).cls = obj.cls) :
    (modifyObject o f).Quiet :=
  .modify fun _ => .of_heap (Heap.Keeps.modify o hf)

theorem quiet_classOf : (classOf o).Quiet := by
  refine .bind .get fun w => ?_
  split
  · exact .pure
  · exact quiet_fail

theorem quiet_className : (className o).Quiet := .bind .get fun _ => .pure

theorem quiet_field (slot : Nat) : (field o slot).Quiet := by
  refine .bind (quiet_object o) fun obj => ?_
  split
  · split
    · exact .pure
    · exact quiet_fail
  · exact quiet_fail

theorem quiet_setField (slot : Nat) (v : Value) : (setField o slot v).Quiet := by
  refine .bind (quiet_object o) fun obj => ?_
  split
  · split
    · exact quiet_modifyObject o fun obj => World.Quiet.setField_cls obj slot v
    · exact quiet_fail
  · exact quiet_fail

theorem quiet_arrayLength : (arrayLength o).Quiet := by
  refine .bind (quiet_object o) fun obj => ?_
  split
  · exact .pure
  · exact quiet_fail

theorem quiet_element (i : Nat) : (element o i).Quiet := by
  refine .bind (quiet_object o) fun obj => ?_
  split
  · split
    · exact .pure
    · exact quiet_fail
  · exact quiet_fail

end

theorem storeElement_cls (i : Nat) (v : Value) (obj : Object) :
    (storeElement i v obj).cls = obj.cls := by
  unfold storeElement
  split <;> rfl

theorem quiet_setElement (o : ObjId) (i : Nat) (v : Value) : (setElement o i v).Quiet := by
  refine .bind (quiet_arrayLength o) fun n => ?_
  split
  · exact quiet_modifyObject o (storeElement_cls i v)
  · exact quiet_fail

theorem quiet_staticValue (s : StaticSlot) : (staticValue s).Quiet := by
  refine .bind .get fun w => ?_
  split
  · exact .pure
  · exact quiet_fail

theorem quiet_setStaticValue (s : StaticSlot) (v : Value) : (setStaticValue s v).Quiet := by
  refine .bind .get fun w => ?_
  split
  · split
    · exact .modify fun _ => .of_registry (.change s.owner.id .same fun _ => rfl)
        (.modifyClass s.owner.id fun _ => ⟨rfl, rfl⟩)
    · exact quiet_fail
  · exact quiet_fail

theorem quiet_enterMonitor (after : Bool) (o : ObjId) : (enterMonitor after o).Quiet := by
  refine .bind .read fun t => .bind (quiet_object o) fun obj => .bind .get fun w => ?_
  dsimp only
  split
  · exact quiet_fail
  · exact .pure
  · exact .bind (.modify fun _ => ⟨rfl, rfl, .same, .refl, rfl, fun _ => rfl,
      Heap.Keeps.modify o fun _ => rfl⟩) fun _ => .pure

theorem quiet_exitMonitor (o : ObjId) : (exitMonitor o).Quiet := by
  refine .bind .read fun t => .bind (quiet_object o) fun obj => .bind .get fun w => ?_
  split
  · exact .pure
  · exact .bind (.modify fun _ => ⟨rfl, rfl, .same, .refl, rfl, fun _ => rfl,
      Heap.Keeps.modify o fun _ => rfl⟩) fun _ => .pure

/-! ### Handles -/

theorem quiet_arrayClass (component : FieldType) : (arrayClass? component).Quiet := by
  intro t w
  exact .of_arrays (Registry.arraysAdded_arrayClass _ component)

theorem quiet_namedClass (name : String) : (namedClass? name).Quiet := by
  unfold namedClass?
  split
  · split
    · exact quiet_arrayClass _
    · exact .pure
  · exact .modifyGet fun _ => .lookup name

theorem quiet_resolveClass (s : Symbol) : (resolveClass s).Quiet := by
  have hsymbol : (symbolClass? s).Quiet := by
    unfold symbolClass?
    split
    · exact quiet_namedClass _
    · split
      · exact quiet_arrayClass _
      · exact .pure
    · exact quiet_fail
  refine .bind hsymbol fun c => ?_
  cases c with
  | some c => exact .pure
  | none => exact quiet_raise

theorem quiet_registered (id : ClassId) : (registered id).Quiet := by
  refine .bind .get fun w => ?_
  split
  · exact .pure
  · exact quiet_fail

theorem quiet_classHandle (h : Handle ClassRef) : (classHandle h).Quiet := by
  cases h with
  | resolved c => exact quiet_registered c.id
  | lazy _ s => exact quiet_resolveClass s

theorem quiet_fieldHandle (h : Handle FieldSlot) : (fieldHandle h).Quiet := by
  unfold fieldHandle
  split
  · exact .pure
  · refine .bind (quiet_resolveClass _) fun c => ?_
    split
    · exact .pure
    · exact quiet_raise
  · exact quiet_fail

theorem quiet_staticHandle (h : Handle StaticSlot) : (staticHandle h).Quiet := by
  unfold staticHandle
  split
  · exact .pure
  · refine .bind (quiet_resolveClass _) fun c => .bind .get fun w => ?_
    split
    · exact .pure
    · exact quiet_raise
  · exact quiet_fail

theorem quiet_methodById (id : MethodId) : (methodById id).Quiet := by
  refine .bind .get fun w => ?_
  split
  · exact .pure
  · exact quiet_fail

theorem quiet_methodHandle (h : Handle MethodRef) : (methodHandle h).Quiet := by
  unfold methodHandle
  split
  · exact quiet_methodById _
  · refine .bind (quiet_resolveClass _) fun c => .bind .get fun w => ?_
    split
    · exact .pure
    · exact quiet_raise
  · exact quiet_fail

/-! ### Registers -/

variable (a : Activation)

theorem quiet_mismatch (r : Reg) (v : Value) (expected : String) :
    (mismatch r v expected : Exec α).Quiet :=
  .bind .get fun _ => quiet_fail

theorem quiet_int (r : Reg) : (int a r).Quiet := by
  unfold int
  split
  · exact .pure
  · exact quiet_mismatch _ _ _

theorem quiet_reference (r : Reg) : (reference a r).Quiet := by
  unfold reference
  split
  · exact .pure
  · exact quiet_mismatch _ _ _

theorem quiet_nonNull (r : Reg) : (nonNull a r).Quiet := by
  refine .bind (quiet_reference a r) fun o => ?_
  cases o with
  | some o => exact .pure
  | none => exact quiet_raise

theorem quiet_operand (v : Option Value) (r : Reg) (found : Value) (expected : String) :
    (operand v r found expected).Quiet := by
  cases v with
  | some v => exact .pure
  | none => exact quiet_mismatch _ _ _

theorem quiet_nameOf (r : Reg) : (nameOf a r).Quiet := by
  refine .bind (quiet_reference a r) fun o => ?_
  cases o with
  | some o => exact quiet_className o
  | none => exact .pure

theorem quiet_faultMessage (fault : Fault) (args : List Reg) (detail : Option String) :
    (faultMessage a fault args detail).Quiet := by
  unfold faultMessage
  split
  · exact .pure
  · exact .pure
  · exact .bind (quiet_int a _) fun _ => .bind (quiet_int a _) fun _ => .pure
  · exact .bind (quiet_nameOf a _) fun _ => .bind (quiet_nameOf a _) fun _ => .pure
  · exact .pure
  · exact .bind (quiet_int a _) fun _ => .pure
  · exact .bind (quiet_nameOf a _) fun _ => .pure
  · exact .pure

theorem quiet_raiseFault (fault : Fault) (args : List Reg) (detail : Option String) :
    (raiseFault a fault args detail : Exec α).Quiet :=
  .bind (quiet_faultMessage a fault args detail) fun _ => quiet_raise

theorem quiet_binary (op : BinaryOp) (l r : Reg) : (binary a op l r).Quiet := by
  unfold binary
  split
  · exact .pure
  · exact quiet_raise
  · exact quiet_mismatch _ _ _
  · exact quiet_mismatch _ _ _
  · exact quiet_mismatch _ _ _

/-! ### Arrays -/

theorem quiet_checkedIndex (o : ObjId) (index : Int32) : (checkedIndex o index).Quiet := by
  refine .bind (quiet_arrayLength o) fun n => ?_
  split
  · exact .pure
  · exact quiet_raise

theorem quiet_fillWith (o : ObjId) {inner : Exec ObjId} (hinner : inner.Quiet) (i count : Nat) :
    (fillWith o inner i count).Quiet := by
  induction count generalizing i with
  | zero => exact .pure
  | succ count ih => exact .bind hinner fun e => .bind (quiet_setElement o i _) fun _ => ih (i + 1)

theorem quiet_newArray (c : Class) (lengths : List Int32) : (newArray c lengths).Quiet := by
  induction lengths generalizing c with
  | nil =>
    rw [newArray]
    exact quiet_fail
  | cons n rest ih =>
    rw [newArray]
    split
    on_goal 1 => refine .bind quiet_raise fun _ => ?_
    all_goals
      split
      · exact quiet_fail
      · refine .bind (quiet_allocating (fun _ => quiet_raise) fun _ => .allocateArray _ _ _)
          fun o => ?_
        split
        · exact .pure
        · split
          · exact quiet_fail
          · exact .bind (quiet_registered _) fun k =>
              .bind (quiet_fillWith o (ih k) 0 _) fun _ => .pure

/-! ### Instructions and terminators -/

theorem quiet_isInstance (r : Reg) (h : Handle ClassRef) (default : Bool) :
    (isInstance a r h default).Quiet := by
  refine .bind (quiet_reference a r) fun o => ?_
  cases o with
  | none => exact .pure
  | some o =>
    exact .bind (quiet_classHandle h) fun _ => .bind (quiet_classOf o) fun _ =>
      .bind .get fun _ => .pure

theorem quiet_isStorable (array value : Reg) : (isStorable a array value).Quiet := by
  refine .bind (quiet_nonNull a array) fun arr => .bind (quiet_reference a value) fun v => ?_
  cases v with
  | none => exact .pure
  | some v =>
    refine .bind (quiet_classOf arr) fun c => ?_
    split
    · exact .pure
    · exact .bind (quiet_registered _) fun _ => .bind (quiet_classOf v) fun _ =>
        .bind .get fun _ => .pure

theorem quiet_static (h : Handle StaticSlot) {use : StaticSlot → Exec Effect}
    (huse : ∀ s, (use s).Quiet) : (static a h use).Quiet := by
  refine .bind (quiet_staticHandle h) fun s => ?_
  split
  · exact huse s
  · exact .pure

theorem quiet_setPc (pc : Nat) : (setPc pc).Quiet := quiet_modifyThread fun _ => ⟨rfl, rfl⟩

theorem quiet_terminate (b : Block) : (terminate a b).Quiet := by
  unfold terminate
  split
  · exact .pure
  · exact .bind (quiet_int a _) fun _ => .pure
  · exact .bind (quiet_int a _) fun _ => .pure
  · exact .pure
  · exact .bind (quiet_setPc _) fun _ => .bind (quiet_nonNull a _) fun o => quiet_throwObject o
  · exact .bind (quiet_setPc _) fun _ => quiet_raiseFault a _ _ _
  · exact .bind (quiet_nonNull a _) fun _ => .pure
  · exact quiet_fail

end Exec

end ManagedCore
