import ManagedCore.Proofs.Class.Hierarchy
import ManagedCore.Proofs.Machine.Turns

/-!
# New engines

An engine starts with the core classes, and a thread that is attached to it has room on its stack.
So unless its heap is limited, it serves the code of the thread.
-/

namespace ManagedCore

open World

theorem core_arithmetic_fields : (Registry.core.loaded? Fault.arithmetic.className).any (fun c =>
    (c.findField? "message" messageDescriptor).any fun f =>
      f.slot = messageSlot ∧ messageSlot < c.fieldTypes.length) = true := by
  decide +kernel

/-- The core classes have the exception for divisions by zero, with a field for its message. -/
theorem core_arithmetic : ∃ c f, Registry.core.loaded? Fault.arithmetic.className = some c ∧
    Registry.core.class? c.id = some c ∧ c.findField? "message" messageDescriptor = some f ∧
    f.slot = messageSlot ∧ messageSlot < c.fieldTypes.length := by
  obtain ⟨c, hc, hfield⟩ := (Option.any_eq_true _ _).mp core_arithmetic_fields
  obtain ⟨f, hf, hvalues⟩ := (Option.any_eq_true _ _).mp hfield
  obtain ⟨hclass, _⟩ := Registry.built_core.orderly.of_loaded hc
  exact ⟨c, f, hc, hclass, hf, of_decide_eq_true hvalues⟩

theorem World.start_ok {config : Config} {w : World} (h : start config = .ok w) :
    w.registry = Registry.core ∧ w.threads = {} ∧ (config.maxHeapBytes = 0 → w.heap.limit = 0) := by
  obtain ⟨_, _, h⟩ := Except.bind_ok_iff.mp h
  dsimp only at h
  split at h
  · rename_i c _
    obtain ⟨_, ⟨⟩, h⟩ := Except.bind_ok_iff.mp h
    split at h
    · cases h
    · rename_i halloc
      cases h
      refine ⟨by dsimp only, by dsimp only, fun hlimit => ?_⟩
      obtain ⟨heap', hok, -, hzero⟩ := Heap.allocateSized_unlimited
        (h := { limit := config.maxHeapBytes }) hlimit c.size fun _ => Heap.instanceOf c
      cases hok.symm.trans halloc
      exact hzero
  · cases h

/-- The first thread of a new engine finds what its code needs. -/
theorem World.start_serves {config : Config} {w w' : World} {name : String} {stack : Nat}
    {t : ThreadId} (hstart : start config = .ok w) (hlimit : config.maxHeapBytes = 0)
    (hattach : w.attach name stack = .ok (t, w')) : Serves t w' := by
  obtain ⟨hregistry, hthreads, hheap⟩ := start_ok hstart
  unfold attach at hattach
  split at hattach
  · cases hattach
  · cases hattach
    refine ⟨?_, hheap hlimit, by rw [hregistry]; exact core_arithmetic⟩
    rw [hthreads]
    exact ⟨_, rfl, by simp [Thread.stackExhausted, Thread.stackUsed, FrameStack.size]⟩

theorem World.exists_serves : ∃ t w, Serves t w := by
  have hstarts : (start {} >>= (·.attach "main" 2097152)).isOk = true := by decide +kernel
  cases hrun : start {} >>= (·.attach "main" 2097152) with
  | error e =>
    rw [hrun] at hstarts
    cases hstarts
  | ok p =>
    obtain ⟨w, hstart, hattach⟩ := Except.bind_ok_iff.mp hrun
    exact ⟨p.1, p.2, start_serves hstart rfl hattach⟩

end ManagedCore
