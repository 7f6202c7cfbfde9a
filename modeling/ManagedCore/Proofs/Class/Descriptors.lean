import ManagedCore.Descriptor
import ManagedCore.Proofs.Bytecode.Encoding
import Mathlib.Data.List.TakeDrop
import Mathlib.Data.List.TakeWhile

/-!
# Descriptors read back

Reading a type takes exactly its text off the front, whatever follows. So the texts that are read
are the texts of the grammar, each of them is the text of one type, and a type or signature whose
class names are proper is what its text is read as.
-/

namespace ManagedCore

open Signature List ManagedCore.Except

variable {whole : String} {cs rest : List Char}

namespace FieldType

variable {t : FieldType}

/-- The grammar of field types. -/
inductive Text : List Char → Prop where
  | primitive {c : Char} : c ∈ ['B', 'C', 'D', 'F', 'I', 'J', 'S', 'Z'] → Text [c]
  | object {name : List Char} : name ≠ [] → ';' ∉ name → Text ('L' :: name ++ [';'])
  | array {cs : List Char} : Text cs → Text ('[' :: cs)

/-- Class names are not empty and have no mark that would end them. -/
def Proper : FieldType → Prop
  | object name => name.toList ≠ [] ∧ ';' ∉ name.toList
  | array t => t.Proper
  | _ => True

theorem text_iff : Text cs ↔ ∃ t : FieldType, t.Proper ∧ cs = t.toChars := by
  constructor
  · intro h
    induction h with
    | @primitive c hc =>
      simp only [mem_cons, not_mem_nil, or_false] at hc
      rcases hc with rfl | rfl | rfl | rfl | rfl | rfl | rfl | rfl
      · exact ⟨byte, trivial, rfl⟩
      · exact ⟨char, trivial, rfl⟩
      · exact ⟨double, trivial, rfl⟩
      · exact ⟨float, trivial, rfl⟩
      · exact ⟨int, trivial, rfl⟩
      · exact ⟨long, trivial, rfl⟩
      · exact ⟨short, trivial, rfl⟩
      · exact ⟨boolean, trivial, rfl⟩
    | @object name hne hend =>
      exact ⟨object (String.ofList name), by simp [Proper, hne, hend], by simp [toChars]⟩
    | array _ ih =>
      obtain ⟨t, ht, rfl⟩ := ih
      exact ⟨array t, ht, rfl⟩
  · rintro ⟨t, ht, rfl⟩
    induction t with
    | object name => exact .object ht.1 ht.2
    | array t ih => exact .array (ih ht)
    | _ => exact .primitive (by decide)

theorem span_name {name tail : List Char} {c : Char} :
    cs.span (· ≠ ';') = (name, c :: tail) ↔ ';' ∉ name ∧ c = ';' ∧ cs = name ++ ';' :: tail := by
  rw [span_eq_takeWhile_dropWhile, Prod.mk.injEq]
  constructor
  · rintro ⟨rfl, htail⟩
    have hend := head?_dropWhile_not (fun c => decide (c ≠ ';')) cs
    have hcs := takeWhile_append_dropWhile (p := fun c => decide (c ≠ ';')) (l := cs)
    rw [htail] at hend hcs
    have hc : c = ';' := by simpa using hend
    subst hc
    refine ⟨fun hmem => ?_, rfl, hcs.symm⟩
    simpa using mem_takeWhile_imp hmem
  · rintro ⟨hname, rfl, rfl⟩
    have hpos : ∀ a ∈ name, decide (a ≠ ';') = true := by grind
    rw [takeWhile_append_of_pos hpos, dropWhile_append_of_pos hpos]
    simp

theorem read_ok (h : read whole cs = .ok (t, rest)) : t.Proper ∧ cs = t.toChars ++ rest := by
  fun_induction read whole cs generalizing t with
  | case11 cs ih =>
    obtain ⟨⟨t', rest'⟩, hread, h⟩ := bind_ok_iff.mp h
    cases h
    exact ⟨(ih hread).1, by rw [toChars, cons_append, ← (ih hread).2]⟩
  | case14 cs name c tail hne hspan =>
    obtain ⟨hend, rfl, rfl⟩ := span_name.mp hspan
    cases h
    simp only [Proper, toChars, String.toList_ofList]
    exact ⟨⟨by simpa using hne, hend⟩, by simp⟩
  | _ => cases h <;> exact ⟨trivial, rfl⟩

theorem read_toChars (ht : t.Proper) : read whole (t.toChars ++ rest) = .ok (t, rest) := by
  induction t with
  | object name =>
    have hspan := span_name.mpr ⟨ht.2, rfl, @rfl _ (name.toList ++ ';' :: rest)⟩
    simp only [toChars, cons_append, append_assoc, nil_append, read, hspan]
    cases h : name.toList with
    | nil => exact absurd h ht.1
    | cons c cs => simp [← h]
  | array t ih => exact bind_ok_iff.mpr ⟨_, ih ht, rfl⟩
  | _ => rfl

theorem read_ok_iff : read whole cs = .ok (t, rest) ↔ t.Proper ∧ cs = t.toChars ++ rest :=
  ⟨read_ok, fun ⟨ht, hcs⟩ => hcs ▸ read_toChars ht⟩

theorem parse_ok_iff : parse whole = .ok t ↔ t.Proper ∧ t.text = whole := by
  unfold parse
  rw [bind_ok_iff]
  constructor
  · rintro ⟨⟨t', rest⟩, hread, h⟩
    obtain ⟨ht, hcs⟩ := read_ok hread
    cases rest with
    | nil =>
      cases h
      exact ⟨ht, by rw [text, ← append_nil t.toChars, ← hcs, String.ofList_toList]⟩
    | cons c rest => cases h
  · rintro ⟨ht, rfl⟩
    exact ⟨(t, []), read_ok_iff.mpr ⟨ht, by simp [text]⟩, rfl⟩

theorem text_of_ofClassName {name : String} {component : FieldType}
    (h : ofClassName name = .ok (.array component)) : (array component).text = name := by
  unfold ofClassName at h
  split at h
  · exact (parse_ok_iff.mp h).2
  · cases h

/-- The text of a type starts neither like the end of a list of parameters nor like no result. -/
theorem toChars_cons (t : FieldType) : ∃ c cs, t.toChars = c :: cs ∧ c ≠ ')' ∧ c ≠ 'V' := by
  cases t <;> exact ⟨_, _, rfl, by decide⟩

end FieldType

namespace Signature

/-- The grammar of signatures. -/
def Text (cs : List Char) : Prop :=
  ∃ (params : List (List Char)) (result : List Char), (∀ p ∈ params, FieldType.Text p) ∧
    (FieldType.Text result ∨ result = ['V']) ∧ cs = '(' :: params.flatten ++ ')' :: result

def Proper (s : Signature) : Prop := (∀ t ∈ s.params, t.Proper) ∧ ∀ t ∈ s.result, t.Proper

variable {s : Signature} {ts : List FieldType} {r : Option FieldType} {fuel : Nat}

theorem readParams_ok (h : readParams whole fuel cs = .ok (ts, rest)) :
    (∀ t ∈ ts, t.Proper) ∧ cs = ts.flatMap FieldType.toChars ++ ')' :: rest := by
  fun_induction readParams whole fuel cs generalizing ts with
  | case2 => cases h; exact ⟨nofun, rfl⟩
  | case4 fuel cs _ _ ih =>
    obtain ⟨⟨t, mid⟩, hread, h⟩ := bind_ok_iff.mp h
    obtain ⟨⟨ts', rest'⟩, hrest, h⟩ := bind_ok_iff.mp h
    cases h
    obtain ⟨ht, rfl⟩ := FieldType.read_ok hread
    obtain ⟨hts, rfl⟩ := ih _ hrest
    exact ⟨forall_mem_cons.mpr ⟨ht, hts⟩, by simp⟩
  | _ => cases h

theorem readParams_toChars (hts : ∀ t ∈ ts, t.Proper)
    (hfuel : (ts.flatMap FieldType.toChars).length ≤ fuel) :
    readParams whole fuel (ts.flatMap FieldType.toChars ++ ')' :: rest) = .ok (ts, rest) := by
  induction ts generalizing fuel with
  | nil => rw [flatMap_nil, nil_append, readParams]
  | cons t ts ih =>
    obtain ⟨c, cs, hcs, hc, -⟩ := t.toChars_cons
    obtain ⟨ht, hts⟩ := forall_mem_cons.mp hts
    rw [flatMap_cons, length_append, hcs, length_cons] at hfuel
    obtain ⟨fuel, rfl⟩ : ∃ n, fuel = n + 1 := ⟨fuel - 1, by omega⟩
    have hread : FieldType.read whole
        (t.toChars ++ (ts.flatMap FieldType.toChars ++ ')' :: rest)) = _ := FieldType.read_toChars ht
    rw [flatMap_cons, append_assoc, hcs, cons_append, readParams]
    · rw [← cons_append, ← hcs, bind_ok_iff]
      exact ⟨_, hread, bind_ok_iff.mpr ⟨_, ih hts (by omega), rfl⟩⟩
    · simp
    · exact fun _ h => hc (cons.inj h).1

theorem readResult_ok_iff : readResult whole cs = .ok (r, rest) ↔
    (∀ t ∈ r, t.Proper) ∧ cs = (r.map FieldType.toChars).getD ['V'] ++ rest := by
  constructor
  · intro h
    unfold readResult at h
    split at h
    · cases h
    · cases h
      exact ⟨nofun, rfl⟩
    · obtain ⟨⟨t, mid⟩, hread, h⟩ := bind_ok_iff.mp h
      cases h
      obtain ⟨ht, rfl⟩ := FieldType.read_ok hread
      exact ⟨by simpa using ht, rfl⟩
  · rintro ⟨hr, rfl⟩
    cases r with
    | none => rfl
    | some t =>
      obtain ⟨c, cs, hcs, -, hc⟩ := t.toChars_cons
      have hread : FieldType.read whole (t.toChars ++ rest) = _ := FieldType.read_toChars (hr t rfl)
      rw [hcs] at hread
      rw [Option.map_some, hcs, readResult]
      · exact bind_ok_iff.mpr ⟨_, hread, rfl⟩
      · nofun
      · exact fun _ h => hc (cons.inj h).1

theorem parse_ok_iff : parse whole = .ok s ↔ s.Proper ∧ s.text = whole := by
  constructor
  · intro h
    unfold parse at h
    split at h
    · cases h
    · rename_i hwhole
      obtain ⟨⟨params, mid⟩, hparams, hrest⟩ := bind_ok_iff.mp h
      obtain ⟨⟨result, rest⟩, hresult, hend⟩ := bind_ok_iff.mp hrest
      obtain ⟨hp, rfl⟩ := readParams_ok hparams
      obtain ⟨hr, rfl⟩ := readResult_ok_iff.mp hresult
      cases rest with
      | nil =>
        cases hend
        refine ⟨⟨hp, hr⟩, String.toList_inj.mp ?_⟩
        simp [text, toChars, hwhole]
      | cons c rest => cases hend
    · cases h
  · rintro ⟨⟨hp, hr⟩, rfl⟩
    have hchars : s.text.toList = '(' :: (s.params.flatMap FieldType.toChars ++
        ')' :: (s.result.map FieldType.toChars).getD ['V']) := by simp [text, toChars]
    simp only [parse, hchars]
    refine bind_ok_iff.mpr ⟨_, readParams_toChars hp (by simp), ?_⟩
    exact bind_ok_iff.mpr ⟨_, readResult_ok_iff.mpr ⟨hr, (append_nil _).symm⟩, rfl⟩

theorem exists_params {params : List (List Char)} (h : ∀ p ∈ params, FieldType.Text p) :
    ∃ ts : List FieldType, (∀ t ∈ ts, t.Proper) ∧ params = ts.map FieldType.toChars := by
  induction params with
  | nil => exact ⟨[], nofun, rfl⟩
  | cons p params ih =>
    obtain ⟨hp, hparams⟩ := forall_mem_cons.mp h
    obtain ⟨t, ht, rfl⟩ := FieldType.text_iff.mp hp
    obtain ⟨ts, hts, rfl⟩ := ih hparams
    exact ⟨t :: ts, forall_mem_cons.mpr ⟨ht, hts⟩, rfl⟩

theorem text_iff : Text cs ↔ ∃ s : Signature, s.Proper ∧ cs = s.toChars := by
  constructor
  · rintro ⟨params, result, hp, hr, rfl⟩
    obtain ⟨ts, hts, rfl⟩ := exists_params hp
    rcases hr with hr | rfl
    · obtain ⟨t, ht, rfl⟩ := FieldType.text_iff.mp hr
      exact ⟨⟨ts, some t⟩, ⟨hts, by simpa using ht⟩, rfl⟩
    · exact ⟨⟨ts, none⟩, ⟨hts, nofun⟩, rfl⟩
  · rintro ⟨s, ⟨hp, hr⟩, rfl⟩
    refine ⟨s.params.map FieldType.toChars, (s.result.map FieldType.toChars).getD ['V'], ?_, ?_, ?_⟩
    · simp only [mem_map, forall_exists_index, and_imp, forall_apply_eq_imp_iff₂]
      exact fun t ht => FieldType.text_iff.mpr ⟨t, hp t ht, rfl⟩
    · cases h : s.result with
      | none => exact .inr rfl
      | some t => exact .inl (FieldType.text_iff.mpr ⟨t, hr t h, rfl⟩)
    · rw [toChars, flatMap_def]

end Signature

/-- Descriptors are read exactly as they are written. -/
theorem descriptors_read_back :
    (∀ whole s, Signature.parse whole = .ok s → s.text = whole) ∧
    (∀ whole : String, (∃ s, Signature.parse whole = .ok s) ↔ Signature.Text whole.toList) ∧
    (∀ whole t, FieldType.parse whole = .ok t → t.text = whole) ∧
    (∀ whole : String, (∃ t, FieldType.parse whole = .ok t) ↔ FieldType.Text whole.toList) ∧
    (∀ t : FieldType, t.Proper → FieldType.parse t.text = .ok t) ∧
    ∀ s : Signature, s.Proper → Signature.parse s.text = .ok s := by
  have hchars {cs : List Char} {whole : String} : String.ofList cs = whole ↔ whole.toList = cs :=
    ⟨fun h => h ▸ String.toList_ofList, fun h => h ▸ String.ofList_toList⟩
  refine ⟨fun whole s h => (Signature.parse_ok_iff.mp h).2, fun whole => ?_,
    fun whole t h => (FieldType.parse_ok_iff.mp h).2, fun whole => ?_,
    fun t ht => FieldType.parse_ok_iff.mpr ⟨ht, rfl⟩, fun s hs => Signature.parse_ok_iff.mpr ⟨hs, rfl⟩⟩
  · simp only [Signature.parse_ok_iff, Signature.text_iff, Signature.text, hchars]
  · simp only [FieldType.parse_ok_iff, FieldType.text_iff, FieldType.text, hchars]

theorem descriptors_read_back_grid :
    (Signature.mk [.array (.array .int), .object "java/lang/String"] none).Proper ∧
    Signature.parse "([[ILjava/lang/String;)V" =
      .ok ⟨[.array (.array .int), .object "java/lang/String"], none⟩ := by
  have h : (Signature.mk [.array (.array .int), .object "java/lang/String"] none).Proper := by
    simp [Signature.Proper, FieldType.Proper]
  exact ⟨h, descriptors_read_back.2.2.2.2.2 _ h⟩

end ManagedCore
