import ManagedCore.Class.Registry

/-!
# What a search for a method finds
-/

namespace ManagedCore.Registry

variable {r : Registry} {name descriptor : String} {m : Method} {c : Class}

theorem declared_some (h : r.declared? c name descriptor = some m) :
    (∃ id ∈ c.methods, r.method? id = some m) ∧ m.name = name ∧ m.descriptor = descriptor := by
  obtain ⟨id, hid, hm⟩ := List.mem_filterMap.mp (List.mem_of_find?_eq_some h)
  have hnamed := List.find?_some h
  rw [Method.isNamed, Bool.and_eq_true, beq_iff_eq, beq_iff_eq] at hnamed
  exact ⟨⟨id, hid, hm⟩, hnamed⟩

theorem findMethodFrom_declared {fuel : Nat} {id : ClassId}
    (h : r.findMethodFrom name descriptor fuel id = some m) :
    ∃ n c, r.class? n = some c ∧ r.declared? c name descriptor = some m := by
  induction fuel generalizing id with
  | zero => cases h
  | succ fuel ih =>
    rw [findMethodFrom] at h
    split at h
    · cases h
    · rename_i c hc
      split at h
      · rename_i hdeclared
        cases h
        exact ⟨id, c, hc, hdeclared⟩
      · split at h
        · rename_i hsuper
          obtain ⟨s, -, hs⟩ := Option.bind_eq_some_iff.mp hsuper
          cases h
          exact ih hs
        · obtain ⟨i, -, hi⟩ := List.exists_of_findSome?_eq_some h
          exact ih hi

theorem findMethod_some (h : r.findMethod? c name descriptor = some m) :
    (∃ n, r.method? n = some m) ∧ m.name = name ∧ m.descriptor = descriptor := by
  obtain ⟨-, d, -, hdeclared⟩ := findMethodFrom_declared h
  obtain ⟨⟨n, -, hn⟩, hnamed⟩ := declared_some hdeclared
  exact ⟨⟨n, hn⟩, hnamed⟩

end ManagedCore.Registry
