import ModuleGraph.Reference
import Mathlib

namespace ModuleGraph

namespace Reference

open scoped Computability

def oneOf (chars : Set Char) : Language Char := {text | ∃ c ∈ chars, text = [c]}

abbrev letters : Set Char := Set.Icc 'A' 'Z' ∪ Set.Icc 'a' 'z'

abbrev digits : Set Char := Set.Icc '0' '9'

abbrev nameEnds : Set Char := Set.Icc 'a' 'z' ∪ digits

abbrev nameChars : Set Char := nameEnds ∪ {'.', '_', '-'}

abbrev versionChars : Set Char := letters ∪ digits ∪ {'.', '+', '_', '-'}

/-- Names of modules: `[a-z]([a-z0-9._-]*[a-z0-9])?`. -/
def names : Language Char :=
  oneOf (Set.Icc 'a' 'z') * (1 + (oneOf nameChars)∗ * oneOf nameEnds)

/-- Versions, and isolation keys as well: `[A-Za-z0-9.+_-]+`. -/
def versions : Language Char := oneOf versionChars * (oneOf versionChars)∗

/-- Names of extensions: `[A-Za-z_][A-Za-z0-9_]*`. -/
def extensionNames : Language Char :=
  oneOf (letters ∪ {'_'}) * (oneOf (letters ∪ digits ∪ {'_'}))∗

/-- References to modules: the root's token, a name, or a name with a version. -/
def moduleTexts : Language Char :=
  {Key.rootText.toList} + names + names * oneOf {'@'} * versions

/-- References to extensions: a module and a name, with an isolation key or without. -/
def extensionTexts : Language Char :=
  moduleTexts * oneOf {'%'} * extensionNames * (1 + oneOf {'~'} * versions)

variable {chars : Set Char} {language : Language Char} {s : List Char} {c : Char}

theorem mem_oneOf_mul :
    s ∈ oneOf chars * language ↔ ∃ c ∈ chars, ∃ v ∈ language, s = c :: v := by
  rw [Language.mem_mul]
  constructor
  · rintro ⟨_, ⟨c, hc, rfl⟩, v, hv, rfl⟩
    exact ⟨c, hc, v, hv, rfl⟩
  · rintro ⟨c, hc, v, hv, rfl⟩
    exact ⟨[c], ⟨c, hc, rfl⟩, v, hv, rfl⟩

theorem mem_mul_oneOf :
    s ∈ language * oneOf chars ↔ ∃ v ∈ language, ∃ c ∈ chars, s = v ++ [c] := by
  rw [Language.mem_mul]
  constructor
  · rintro ⟨v, hv, _, ⟨c, hc, rfl⟩, rfl⟩
    exact ⟨v, hv, c, hc, rfl⟩
  · rintro ⟨v, hv, c, hc, rfl⟩
    exact ⟨v, hv, [c], ⟨c, hc, rfl⟩, rfl⟩

theorem mem_kstar_oneOf : s ∈ (oneOf chars)∗ ↔ ∀ c ∈ s, c ∈ chars := by
  constructor
  · rintro ⟨parts, rfl, hparts⟩ c hc
    obtain ⟨part, hpart, hc⟩ := List.mem_flatten.1 hc
    obtain ⟨d, hd, rfl⟩ := hparts part hpart
    exact List.mem_singleton.1 hc ▸ hd
  · intro h
    refine Language.mem_kstar.2 ⟨s.map fun c => [c], by simp [← List.flatMap_def], ?_⟩
    rw [List.forall_mem_map]
    exact fun c hc => ⟨c, h c hc, rfl⟩

theorem mem_names_iff : s ∈ names ↔ (∃ c ∈ s.head?, c ∈ Set.Icc 'a' 'z') ∧
    (∃ c ∈ s.getLast?, c ∈ nameEnds) ∧ ∀ c ∈ s, c ∈ nameChars := by
  rw [names, mem_oneOf_mul]
  simp only [Language.mem_add, Language.mem_one, mem_mul_oneOf, mem_kstar_oneOf]
  constructor
  · rintro ⟨c, hc, v, rfl | ⟨v, hv, d, hd, rfl⟩, rfl⟩
    · exact ⟨⟨c, rfl, hc⟩, ⟨c, rfl, .inl hc⟩, List.forall_mem_singleton.2 (.inl (.inl hc))⟩
    · refine ⟨⟨c, rfl, hc⟩, ⟨d, List.getLast?_concat (l := c :: v), hd⟩, ?_⟩
      simp only [List.forall_mem_cons, List.forall_mem_append]
      exact ⟨.inl (.inl hc), hv, .inl hd, by simp⟩
  · rintro ⟨⟨c, hhead, hc⟩, ⟨d, hlast, hd⟩, hall⟩
    obtain ⟨v, rfl⟩ := List.head?_eq_some_iff.1 hhead
    refine ⟨c, hc, v, ?_, rfl⟩
    rcases List.eq_nil_or_concat' v with rfl | ⟨v, e, rfl⟩
    · exact .inl rfl
    · rw [← List.cons_append, List.getLast?_concat] at hlast
      obtain rfl := Option.some.inj hlast
      exact .inr ⟨v, fun x hx => hall x (by simp [hx]), e, hd, rfl⟩

theorem mem_versions_iff : s ∈ versions ↔ s ≠ [] ∧ ∀ c ∈ s, c ∈ versionChars := by
  rw [versions, mem_oneOf_mul]
  simp only [mem_kstar_oneOf]
  constructor
  · rintro ⟨c, hc, v, hv, rfl⟩
    exact ⟨List.cons_ne_nil c v, List.forall_mem_cons.2 ⟨hc, hv⟩⟩
  · rintro ⟨hne, hall⟩
    obtain ⟨c, v, rfl⟩ := List.exists_cons_of_ne_nil hne
    obtain ⟨hc, hv⟩ := List.forall_mem_cons.1 hall
    exact ⟨c, hc, v, hv, rfl⟩

theorem mem_extensionNames_iff : s ∈ extensionNames ↔ (∃ c ∈ s.head?, c ∈ letters ∪ {'_'}) ∧
    ∀ c ∈ s, c ∈ letters ∪ digits ∪ {'_'} := by
  rw [extensionNames, mem_oneOf_mul]
  simp only [mem_kstar_oneOf]
  constructor
  · rintro ⟨c, hc, v, hv, rfl⟩
    exact ⟨⟨c, rfl, hc⟩, List.forall_mem_cons.2 ⟨hc.imp_left .inl, hv⟩⟩
  · rintro ⟨⟨c, hhead, hc⟩, hall⟩
    obtain ⟨v, rfl⟩ := List.head?_eq_some_iff.1 hhead
    exact ⟨c, hc, v, (List.forall_mem_cons.1 hall).2, rfl⟩

theorem isLower_iff : c.isLower = true ↔ c ∈ Set.Icc 'a' 'z' := by
  simp [Char.isLower, Char.le_def]

theorem isDigit_iff : c.isDigit = true ↔ c ∈ digits := by
  simp [Char.isDigit, Char.le_def]

theorem isAlpha_iff : c.isAlpha = true ↔ c ∈ letters := by
  simp [Char.isAlpha, Char.isUpper, Char.isLower, Char.le_def]

theorem isModuleName_iff : isModuleName s = true ↔ s ∈ names := by
  simp only [mem_names_iff, isModuleName, isNameChar, isNameEnd, Bool.and_eq_true,
    Bool.or_eq_true, Option.any_eq_true, List.all_eq_true, isLower_iff, isDigit_iff, beq_iff_eq,
    Set.mem_union, Set.mem_insert_iff, Set.mem_singleton_iff, Option.mem_def, and_assoc, or_assoc]

theorem isVersion_iff : isVersion s = true ↔ s ∈ versions := by
  simp only [mem_versions_iff, isVersion, isVersionChar, Char.isAlphanum, Bool.and_eq_true,
    Bool.or_eq_true, Bool.not_eq_true', List.isEmpty_eq_false_iff, List.all_eq_true, isAlpha_iff,
    isDigit_iff, beq_iff_eq, Set.mem_union, Set.mem_insert_iff, Set.mem_singleton_iff, or_assoc]

theorem isExtensionName_iff : isExtensionName s = true ↔ s ∈ extensionNames := by
  simp only [mem_extensionNames_iff, isExtensionName, isWordStart, Char.isAlphanum,
    Bool.and_eq_true, Bool.or_eq_true, Option.any_eq_true, List.all_eq_true, isAlpha_iff,
    isDigit_iff, beq_iff_eq, Set.mem_union, Set.mem_singleton_iff, Option.mem_def, or_assoc]

end Reference

end ModuleGraph
