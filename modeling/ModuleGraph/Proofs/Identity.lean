import ModuleGraph.ExtensionId
import Mathlib.Data.List.Basic
import Mathlib.Tactic.Common

namespace ModuleGraph

namespace Key

variable {s : String} {k l : Key}

theorem at_not_mem_rootText : '@' ∉ Key.rootText.toList := by decide

theorem ne_rootText_of_at (h : '@' ∈ s.toList) : s ≠ rootText := by
  rintro rfl
  exact at_not_mem_rootText h

theorem at_mem_text (h : k ≠ root) : '@' ∈ k.text.toList := by
  rw [text, if_neg h]
  split <;> simp

theorem text_ne_rootText (h : k ≠ root) : k.text ≠ rootText := ne_rootText_of_at (at_mem_text h)

theorem ofText_eq_ok_iff (hroot : s ≠ rootText) : ofText s = .ok k ↔
    ∃ name version, s.toList = name ++ '@' :: version ∧ '@' ∉ name ∧ name ≠ [] ∧
      version ≠ [] ∧ '@' ∉ version ∧
      k = ⟨String.ofList name, if version = noVersionText.toList then "" else .ofList version⟩ := by
  rw [ofText, if_neg hroot]
  constructor
  · intro h
    split at h
    · simp at h
    · next name version hsplit =>
      obtain ⟨hname, hs⟩ := Text.splitFirst_eq_some_iff.1 hsplit
      refine ⟨name, version, hs, hname, ?_⟩
      split at h
      · simp at h
      split at h
      · simp at h
      split at h
      · simp at h
      next hne hve hat =>
      refine ⟨hne, hve, hat, ?_⟩
      split at h <;> simp_all
  · rintro ⟨name, version, hs, hname, hne, hve, hat, rfl⟩
    rw [hs, Text.splitFirst_append hname]
    simp only [hne, hve, hat, if_false]
    split <;> rfl

theorem text_of_ofText (h : ofText s = .ok k) : k.text = s := by
  by_cases hroot : s = rootText
  · rw [ofText, if_pos hroot] at h
    obtain rfl := Except.ok.inj h
    exact hroot.symm
  · obtain ⟨name, version, hs, -, hne, hve, -, rfl⟩ := (ofText_eq_ok_iff hroot).1 h
    have hname : String.ofList name ≠ "" := by simpa using hne
    rw [← String.toList_inj, hs]
    split
    · next hnone => simp [text, root, hname, hnone]
    · have hversion : String.ofList version ≠ "" := by simpa using hve
      simp [text, root, hname, hversion]

def Readable (k : Key) : Prop := ofText k.text = .ok k

theorem readable_of_ofText (h : ofText s = .ok k) : k.Readable := by
  rw [Readable, text_of_ofText h, h]

theorem Readable.parts (h : k.Readable) (hroot : k ≠ root) :
    k.name ≠ "" ∧ '@' ∉ k.name.toList ∧ '@' ∉ k.version.toList ∧ k.version ≠ noVersionText := by
  obtain ⟨name, version, -, hat, hne, -, hatv, rfl⟩ :=
    (ofText_eq_ok_iff (text_ne_rootText hroot)).1 h
  refine ⟨by simpa using hne, by simpa using hat, ?_, ?_⟩
  · split
    · simp
    · simpa using hatv
  · split
    · simp [noVersionText]
    · next hversion => simpa [← String.toList_inj] using hversion

def versionText (k : Key) : String := if k.version = "" then noVersionText else k.version

theorem toList_text (h : k ≠ root) :
    k.text.toList = k.name.toList ++ '@' :: k.versionText.toList := by
  rw [text, if_neg h, versionText]
  split <;> simp

/-- A key reads back just if it is the root, or its name and version leave the text to be cut at
the one `@` and the version is not spelled like a missing one. -/
theorem readable_iff : k.Readable ↔ k = root ∨
    k.name ≠ "" ∧ '@' ∉ k.name.toList ∧ '@' ∉ k.version.toList ∧ k.version ≠ noVersionText := by
  constructor
  · intro h
    by_cases hroot : k = root
    · exact .inl hroot
    · exact .inr (h.parts hroot)
  · rintro (rfl | ⟨hname, hat, hatv, hversion⟩)
    · simp [Readable, text, ofText]
    have hroot : k ≠ root := by
      rintro rfl
      exact hname rfl
    refine (ofText_eq_ok_iff (text_ne_rootText hroot)).2
      ⟨_, _, toList_text hroot, hat, by simpa using hname, ?_⟩
    obtain ⟨name, version⟩ := k
    by_cases hempty : version = ""
    · simp [versionText, hempty, noVersionText]
    · have hspelled : version.toList ≠ noVersionText.toList := mt String.toList_inj.1 hversion
      simp [versionText, hempty, hatv, hspelled]

theorem percent_mem_text_iff :
    '%' ∈ k.text.toList ↔ '%' ∈ k.name.toList ∨ '%' ∈ k.version.toList := by
  by_cases h : k = root
  · subst h
    decide
  · rw [toList_text h, versionText]
    split
    · next hempty => simp [noVersionText, hempty]
    · simp

end Key

namespace ExtensionId

variable {s : String} {e : ExtensionId}

theorem ofText_eq_ok_iff : ofText s = .ok e ↔
    ∃ module rest key, s.toList = module ++ '%' :: rest ∧ '%' ∉ module ∧
      Key.ofText (String.ofList module) = .ok key ∧ (splitIsolation rest).1 ≠ [] ∧
      (splitIsolation rest).2 ≠ some [] ∧
      e = ⟨key, String.ofList (splitIsolation rest).1,
        (splitIsolation rest).2.map String.ofList⟩ := by
  rw [ofText]
  constructor
  · intro h
    split at h
    · simp at h
    · next module rest hsplit =>
      obtain ⟨hmodule, hs⟩ := Text.splitFirst_eq_some_iff.1 hsplit
      split at h
      · simp at h
      · next key hkey =>
        dsimp only at h
        split at h
        · simp at h
        split at h
        · simp at h
        next hname hisolation =>
        exact ⟨module, rest, key, hs, hmodule, hkey, hname, hisolation, (Except.ok.inj h).symm⟩
  · rintro ⟨module, rest, key, hs, hmodule, hkey, hname, hisolation, rfl⟩
    rw [hs, Text.splitFirst_append hmodule]
    simp only [hkey, hname, hisolation, if_false]

theorem splitIsolation_append (rest : List Char) :
    rest = (splitIsolation rest).1 ++
      ((splitIsolation rest).2.map fun isolation => '~' :: isolation).getD [] := by
  rw [splitIsolation]
  split
  · simp
  · next hsplit => simpa using (Text.splitFirst_eq_some_iff.1 hsplit).2

theorem toList_text (e : ExtensionId) : e.text.toList = e.module.text.toList ++
    '%' :: (e.name.toList ++ ((e.isolation.map String.toList).map ('~' :: ·)).getD []) := by
  rw [text]
  cases e.isolation <;> simp

theorem text_of_ofText (h : ofText s = .ok e) : e.text = s := by
  obtain ⟨module, rest, key, hs, -, hkey, -, -, rfl⟩ := ofText_eq_ok_iff.1 h
  have hrest := splitIsolation_append rest
  rw [← String.toList_inj, hs, toList_text, Key.text_of_ofText hkey]
  simp [Function.comp_def, ← hrest]

def Readable (e : ExtensionId) : Prop := ofText e.text = .ok e

theorem readable_of_ofText (h : ofText s = .ok e) : e.Readable := by
  rw [Readable, text_of_ofText h, h]

theorem tilde_not_mem_fst_splitIsolation (rest : List Char) : '~' ∉ (splitIsolation rest).1 := by
  rw [splitIsolation]
  split
  · next hsplit => exact Text.splitFirst_eq_none_iff.1 hsplit
  · next hsplit => exact (Text.splitFirst_eq_some_iff.1 hsplit).1

theorem splitIsolation_join {name : List Char} (h : '~' ∉ name) (isolation : Option (List Char)) :
    splitIsolation (name ++ (isolation.map ('~' :: ·)).getD []) = (name, isolation) := by
  cases isolation with
  | none => simp [splitIsolation, Text.splitFirst_eq_none_iff.2 h]
  | some isolation => simp [splitIsolation, Text.splitFirst_append h]

/-- An extension reads back just if its module does and has no `%`, and its name and isolation key
are not empty and are cut at the first `~`. -/
theorem readable_iff : e.Readable ↔ e.module.Readable ∧ '%' ∉ e.module.name.toList ∧
    '%' ∉ e.module.version.toList ∧ e.name ≠ "" ∧ '~' ∉ e.name.toList ∧
    e.isolation ≠ some "" := by
  constructor
  · intro h
    obtain ⟨module, rest, key, -, hmodule, hkey, hname, hisolation, rfl⟩ := ofText_eq_ok_iff.1 h
    have hpercent : '%' ∉ key.text.toList := by
      rw [Key.text_of_ofText hkey]
      simpa using hmodule
    rw [Key.percent_mem_text_iff, not_or] at hpercent
    refine ⟨Key.readable_of_ofText hkey, hpercent.1, hpercent.2, by simpa using hname,
      by simpa using tilde_not_mem_fst_splitIsolation rest, fun hempty => hisolation ?_⟩
    obtain ⟨isolation, hrest, hnil⟩ := Option.map_eq_some_iff.1 hempty
    rw [hrest, String.ofList_eq_empty_iff.1 hnil]
  · rintro ⟨hmodule, hpn, hpv, hname, htilde, hisolation⟩
    have hpercent : '%' ∉ e.module.text.toList := by
      rw [Key.percent_mem_text_iff, not_or]
      exact ⟨hpn, hpv⟩
    have hsplit := splitIsolation_join htilde (e.isolation.map String.toList)
    refine ofText_eq_ok_iff.2 ⟨_, _, e.module, e.toList_text, hpercent, ?_, ?_, ?_, ?_⟩
    · rw [String.ofList_toList]
      exact hmodule
    · rw [hsplit]
      simpa using hname
    · rw [hsplit]
      intro hempty
      obtain ⟨isolation, hsome, hnil⟩ := Option.map_eq_some_iff.1 hempty
      rw [String.toList_eq_nil_iff.1 hnil] at hsome
      exact hisolation hsome
    · rw [hsplit]
      simp [Function.comp_def]

end ExtensionId

/-- A text is read as nothing but what it is the text of, so no key and no extension has two texts;
and the text of a key or an extension is read as it just if its parts can be told apart in it. -/
theorem identity_readBack :
    (∀ s k, Key.ofText s = .ok k → k.text = s) ∧
    (∀ s e, ExtensionId.ofText s = .ok e → e.text = s) ∧
    (∀ s s' k, Key.ofText s = .ok k → Key.ofText s' = .ok k → s = s') ∧
    (∀ s s' e, ExtensionId.ofText s = .ok e → ExtensionId.ofText s' = .ok e → s = s') ∧
    (∀ k : Key, Key.ofText k.text = .ok k ↔ k = .root ∨
      k.name ≠ "" ∧ '@' ∉ k.name.toList ∧ '@' ∉ k.version.toList ∧ k.version ≠ "_") ∧
    ∀ e : ExtensionId, ExtensionId.ofText e.text = .ok e ↔
      (e.module = .root ∨ e.module.name ≠ "" ∧ '@' ∉ e.module.name.toList ∧
        '@' ∉ e.module.version.toList ∧ e.module.version ≠ "_") ∧
      '%' ∉ e.module.name.toList ∧ '%' ∉ e.module.version.toList ∧
      e.name ≠ "" ∧ '~' ∉ e.name.toList ∧ e.isolation ≠ some "" := by
  refine ⟨fun _ _ => Key.text_of_ofText, fun _ _ => ExtensionId.text_of_ofText,
    fun s s' k hs hs' => ?_, fun s s' e hs hs' => ?_, fun k => Key.readable_iff, fun e => ?_⟩
  · rw [← Key.text_of_ofText hs, Key.text_of_ofText hs']
  · rw [← ExtensionId.text_of_ofText hs, ExtensionId.text_of_ofText hs']
  · exact ExtensionId.readable_iff.trans (and_congr_left' Key.readable_iff)

/-- Behind the first `~` an isolation key may hold every separator, and so may a name hold `%`. -/
theorem identity_readBack_separators :
    ExtensionId.ofText "a@1%e%f~x~y%z@" = .ok ⟨⟨"a", "1"⟩, "e%f", some "x~y%z@"⟩ ∧
      (⟨⟨"a", "1"⟩, "e%f", some "x~y%z@"⟩ : ExtensionId).text = "a@1%e%f~x~y%z@" := by
  obtain ⟨-, htext, -, -, -, hread⟩ := identity_readBack
  have hback := (hread ⟨⟨"a", "1"⟩, "e%f", some "x~y%z@"⟩).2 (by decide)
  exact ⟨hback, htext _ _ hback⟩

end ModuleGraph
