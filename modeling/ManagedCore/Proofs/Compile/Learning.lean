import ManagedCore.Proofs.Compile.Composition

/-!
# What compiling does to the registry

Emission may search for classes, which brings array classes into being, and marks the entries of a
pool that it binds. Nothing else of the registry changes, whether the method compiles or not.
-/

namespace ManagedCore

namespace Emit

variable {α β : Type} {x : Emit α}

namespace Learns

theorem pure {a : α} : Learns (pure a : Emit α) := .of_ok (fun _ => rfl) fun _ => .same

theorem get : Learns (MonadState.get : Emit EmitState) := .of_ok (fun _ => rfl) fun _ => .same

theorem modify {f : EmitState → EmitState} (hf : ∀ st, (f st).registry = st.registry) :
    Learns (MonadState.modifyGet fun st => (PUnit.unit, f st) : Emit PUnit) :=
  .of_ok (fun _ => rfl) fun st => by
    rw [hf st]
    exact .same

end Learns

theorem Composed.learns {lv : Nat} (h : Composed lv 0 x) : Learns x := by
  induction h with
  | aside hlearns _ => exact hlearns
  | newReg t _ ih =>
    exact .bind (.of_ok (fun _ => rfl) fun _ => .same) fun r => ih r (Nat.zero_le r)
  | newBlock | newParam => exact .of_ok (fun _ => rfl) fun _ => .same
  | instr | terminate | setHandler | reframe => exact .modify fun _ => rfl
  | flowGraph code =>
    exact .bind .get fun _ => .bind (silent_liftExcept _).learns fun _ =>
      .bind (.modify fun _ => rfl) fun _ => .pure
  | bind _ _ ihx ihf => exact .bind ihx ihf

theorem Straight.learns (h : Straight 0 0 x) : Learns x := h.composed.learns

end Emit

/-- Compiling a method leaves the registry as it is but for array classes and marks in pools. -/
theorem compile_grown (config : Config) (registry : Registry) (m : Method) :
    registry.Grown (compile config registry m).2 := by
  unfold compile
  split
  · exact .same
  · rename_i code _
    have hlearns := ((Emit.pervades_composed 0).method Emit.composed_grow m code).learns.grown
      (.ofMethod config registry m code)
    unfold Emit.last EmitState.ofMethod at hlearns
    dsimp only [EStateM.run]
    split <;> rename_i heq <;> rw [heq] at hlearns <;> exact hlearns

end ManagedCore
