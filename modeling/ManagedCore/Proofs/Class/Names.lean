import ManagedCore.Class.Registry
import ManagedCore.Proofs.Class.Descriptors

/-!
# What names lead to

The array class created for a name has that name, so a search by the name finds it again.
-/

namespace ManagedCore

open FieldType

namespace Registry

variable {r r' : Registry} {component : FieldType} {c : Class} {name : String} {fuel : Nat}

theorem loaded_push {c : Class} (h : r.loaded? name = none) :
    ({ r with classes := r.classes.push c } : Registry).loaded? name =
      if c.name = name then some c else none := by
  unfold loaded? at h ⊢
  rw [Array.find?_push, h]
  by_cases hname : c.name = name <;> simp

theorem length_inner {text : String} {inner : FieldType}
    (h : ofClassName text = .ok (.array inner)) :
    (array inner).toChars.length < (object text).toChars.length := by
  have htext : text.toList = (array inner).toChars := by
    rw [← FieldType.text_of_ofClassName h, FieldType.text, String.toList_ofList]
  change _ < ('L' :: text.toList ++ [';']).length
  rw [htext, List.length_append, List.length_cons]
  omega

theorem loaded_none_arrayClassFrom (h : r.loaded? name = none)
    (hlen : (array component).toChars.length < name.toList.length) :
    (arrayClassFrom fuel r component).2.loaded? name = none := by
  induction fuel generalizing r component with
  | zero => exact h
  | succ fuel ih =>
    have hadd : ∀ (r : Registry) (object : Class) (cls : Option ClassId),
        r.loaded? name = none → (r.addArray object component cls).2.loaded? name = none := by
      intro r object cls hr
      refine (loaded_push hr).trans (if_neg ?_)
      rintro rfl
      simp [makeArray, FieldType.text] at hlen
    rw [toChars, List.length_cons] at hlen
    rw [arrayClassFrom]
    split
    · exact h
    · exact h
    · split
      · split
        · exact hadd _ _ _ h
        · rename_i inner _ hinner
          have hnone := @ih r inner h (by have := length_inner hinner; omega)
          split
          · rename_i heq
            rw [heq] at hnone
            exact hadd _ _ _ hnone
          · rename_i heq
            rwa [heq] at hnone
        · exact h
      · rename_i inner _
        have hnone := @ih r inner h (by omega)
        split
        · rename_i heq
          rw [heq] at hnone
          exact hadd _ _ _ hnone
        · rename_i heq
          rwa [heq] at hnone
      · exact hadd _ _ _ h

theorem loaded_addArray {object : Class} {cls : Option ClassId}
    (h : r.loaded? (array component).text = none)
    (hc : r.addArray object component cls = (.ok c, r')) :
    r'.loaded? (array component).text = some c := by
  cases hc
  exact (loaded_push h).trans (if_pos rfl)

theorem loaded_arrayClassFrom (h : arrayClassFrom fuel r component = (.ok c, r')) :
    r'.loaded? (array component).text = some c := by
  cases fuel with
  | zero => cases h
  | succ fuel =>
    rw [arrayClassFrom] at h
    split at h
    · rename_i heq
      cases h
      exact heq
    · cases h
    · rename_i hnone _
      -- The array class of an inner component has a shorter name.
      have hinner : ∀ inner r₁ c₁, arrayClassFrom fuel r inner = (.ok c₁, r₁) →
          (array inner).toChars.length < (array component).toChars.length →
          r₁.loaded? (array component).text = none := by
        intro inner r₁ c₁ heq hlen
        have hlater := @loaded_none_arrayClassFrom r inner _ fuel hnone
          (by rwa [FieldType.text, String.toList_ofList])
        rwa [heq] at hlater
      split at h
      · split at h
        · exact loaded_addArray hnone h
        · rename_i hname
          split at h
          · rename_i heq
            exact loaded_addArray (hinner _ _ _ heq (Nat.lt_succ_of_lt (length_inner hname))) h
          · cases h
        · cases h
      · split at h
        · rename_i heq
          exact loaded_addArray (hinner _ _ _ heq (Nat.lt_succ_self _)) h
        · cases h
      · exact loaded_addArray hnone h

/-- A class that a search finds is found by its name from then on. -/
theorem loaded_lookup (h : r.lookup name = (some c, r')) : r'.loaded? name = some c := by
  rw [lookup] at h
  split at h
  · rename_i hloaded
    cases h
    exact hloaded
  · rename_i hname
    split at h
    · rename_i heq
      cases h
      rw [← FieldType.text_of_ofClassName hname]
      exact loaded_arrayClassFrom heq
    · cases h
  · cases h

end Registry

end ManagedCore
