import ModuleGraph.Proofs.ArgumentLists
import ModuleGraph.Proofs.BareNames
import ModuleGraph.Proofs.Grammar

namespace ModuleGraph

open scoped Computability

open Reference

namespace Reference

variable {s : List Char}

theorem isVersionChar_of_isExtensionName (h : isExtensionName s) :
    ∀ c ∈ s, isVersionChar c := by
  simp only [isExtensionName, Bool.and_eq_true, List.all_eq_true, Bool.or_eq_true] at h
  intro c hc
  simp only [isVersionChar, Bool.or_eq_true]
  exact (h.2 c hc).elim (fun hword => .inl (.inl (.inl (.inl hword)))) fun hlow => .inl (.inr hlow)

theorem tilde_not_mem_of_isExtensionName (h : isExtensionName s) : '~' ∉ s := fun hc =>
  absurd (isVersionChar_of_isExtensionName h _ hc) (by decide)

end Reference

namespace ModuleRef

variable {token : String} {ref : ModuleRef}

theorem ofText_of_reads (h : Reads token ref) : ofText token = .ok ref := by
  cases h with
  | root h => rw [ofText, if_pos h]
  | named hname hat =>
    rw [ofText, if_neg (ne_rootText_of_isModuleName hname), Text.splitFirst_eq_none_iff.2 hat]
    simp [hname]
  | @exact name version htoken hat hname hversion =>
    have hroot : token ≠ Key.rootText := Key.ne_rootText_of_at (by simp [htoken])
    rw [ofText, if_neg hroot, htoken, Text.splitFirst_append hat]
    simp only [hname, Bool.not_true, Bool.false_eq_true, if_false]
    split
    · rfl
    · next hsome => rw [if_pos (hversion.resolve_left hsome)]

theorem ofText_eq_ok_iff : ofText token = .ok ref ↔ Reads token ref :=
  ⟨reads_of_ofText, ofText_of_reads⟩

theorem exists_ofText_iff : (∃ ref, ofText token = .ok ref) ↔ token.toList ∈ moduleTexts := by
  simp only [ofText_eq_ok_iff]
  constructor
  · rintro ⟨ref, h⟩
    cases h with
    | root h => exact .inl (.inl (congrArg String.toList h))
    | named hname => exact .inl (.inr (isModuleName_iff.1 hname))
    | @exact name version htoken hat hname hversion =>
      have hversion : isVersion version = true := hversion.elim (fun h => h ▸ rfl) id
      refine .inr (Language.mem_mul.2 ⟨name ++ ['@'], ?_, version, isVersion_iff.1 hversion, ?_⟩)
      · exact mem_mul_oneOf.2 ⟨name, isModuleName_iff.1 hname, '@', rfl, rfl⟩
      · simp [htoken]
  · have hat : ∀ name ∈ names, '@' ∉ name := fun name hname hc =>
      absurd ((isVersionChar_of_isModuleName (isModuleName_iff.2 hname)).2 _ hc) (by decide)
    rintro ((h | h) | h)
    · exact ⟨.root, .root (String.toList_inj.1 h)⟩
    · exact ⟨_, .named (isModuleName_iff.2 h) (hat _ h)⟩
    · obtain ⟨_, hfirst, version, hversion, htoken⟩ := Language.mem_mul.1 h
      obtain ⟨name, hname, _, rfl, rfl⟩ := mem_mul_oneOf.1 hfirst
      have htoken : token.toList = name ++ '@' :: version := by simp [← htoken]
      exact ⟨_, .exact htoken (hat name hname) (isModuleName_iff.2 hname)
        (.inr (isVersion_iff.2 hversion))⟩

theorem text_of_ofText (h : ofText token = .ok ref) : ref.text = token := by
  have hreads := reads_of_ofText h
  cases ref with
  | root =>
    cases hreads with
    | root hroot => exact hroot.symm
  | named name => exact hreads.eq_of_named
  | exact k => exact Key.text_of_ofText hreads.key

theorem percent_not_mem (h : ofText token = .ok ref) : '%' ∉ token.toList := by
  intro hc
  have hchar := (reads_of_ofText h).isVersionChar_or hc
  revert hchar
  decide

theorem ofText_eq_root_iff : ofText token = .ok .root ↔ token = Key.rootText := by
  refine ofText_eq_ok_iff.trans ⟨fun h => ?_, .root⟩
  cases h with
  | root hroot => exact hroot

theorem key_of_named {name : String} (h : ofText token = .ok (.named name)) :
    Key.ofText token = .error .noSeparator := by
  cases reads_of_ofText h with
  | named hname hat =>
    rw [Key.ofText, if_neg (ne_rootText_of_isModuleName hname),
      Text.splitFirst_eq_none_iff.2 hat]

end ModuleRef

theorem Key.ofText_eq_root_iff {token : String} :
    Key.ofText token = .ok .root ↔ token = Key.rootText := by
  constructor
  · intro h
    by_contra hroot
    obtain ⟨name, version, -, -, hname, -, -, hkey⟩ := (Key.ofText_eq_ok_iff hroot).1 h
    have hempty : "" = String.ofList name := congrArg Key.name hkey
    exact hname (String.ofList_eq_empty_iff.1 hempty.symm)
  · rintro rfl
    rfl

namespace ExtensionRef

open ExtensionId (splitIsolation)

variable {token : String} {ref : ExtensionRef}

theorem ofText_eq_ok_iff : ofText token = .ok ref ↔
    ∃ module rest base, token.toList = module ++ '%' :: rest ∧ '%' ∉ module ∧
      ModuleRef.ofText (.ofList module) = .ok base ∧
      isExtensionName (splitIsolation rest).1 ∧ (splitIsolation rest).2.all isIsolation ∧
      ref = ⟨base, .ofList (splitIsolation rest).1, (splitIsolation rest).2.map .ofList⟩ := by
  rw [ofText]
  constructor
  · intro h
    split at h
    · simp at h
    · next module rest hsplit =>
      obtain ⟨hmodule, htoken⟩ := Text.splitFirst_eq_some_iff.1 hsplit
      split at h
      · simp at h
      · next base hbase =>
        dsimp only at h
        split at h
        · simp at h
        split at h
        · simp at h
        next hname hisolation =>
        exact ⟨module, rest, base, htoken, hmodule, hbase, by simpa using hname,
          by simpa using hisolation, (Except.ok.inj h).symm⟩
  · rintro ⟨module, rest, base, htoken, hmodule, hbase, hname, hisolation, rfl⟩
    rw [htoken, Text.splitFirst_append hmodule]
    simp only [hbase, hname, hisolation, Bool.not_true, Bool.false_eq_true, if_false]

theorem mem_rest_iff {rest : List Char} :
    rest ∈ extensionNames * (1 + oneOf {'~'} * versions) ↔
      isExtensionName (splitIsolation rest).1 ∧ (splitIsolation rest).2.all isIsolation := by
  rw [Language.mem_mul]
  simp only [Language.mem_add, Language.mem_one, mem_oneOf_mul, ← isExtensionName_iff]
  constructor
  · rintro ⟨name, hname, _, rfl | ⟨_, rfl, isolation, hisolation, rfl⟩, rfl⟩
    · have hsplit :=
        ExtensionId.splitIsolation_join (tilde_not_mem_of_isExtensionName hname) none
      rw [Option.map_none, Option.getD_none, List.append_nil] at hsplit
      simp [hsplit, hname]
    · have hsplit :=
        ExtensionId.splitIsolation_join (tilde_not_mem_of_isExtensionName hname) (some isolation)
      rw [Option.map_some, Option.getD_some] at hsplit
      simp [hsplit, hname, isIsolation, isVersion_iff, hisolation]
  · rintro ⟨hname, hisolation⟩
    refine ⟨_, hname, _, ?_, (ExtensionId.splitIsolation_append rest).symm⟩
    cases hkey : (splitIsolation rest).2 with
    | none => exact .inl rfl
    | some isolation =>
      rw [hkey] at hisolation
      exact .inr ⟨'~', rfl, isolation, isVersion_iff.1 hisolation, rfl⟩

theorem exists_ofText_iff : (∃ ref, ofText token = .ok ref) ↔ token.toList ∈ extensionTexts := by
  rw [extensionTexts, mul_assoc, Language.mem_mul]
  simp only [ofText_eq_ok_iff]
  constructor
  · rintro ⟨_, module, rest, base, htoken, -, hbase, hname, hisolation, rfl⟩
    have hmodule := ModuleRef.exists_ofText_iff.1 ⟨base, hbase⟩
    rw [String.toList_ofList] at hmodule
    exact ⟨module ++ ['%'], mem_mul_oneOf.2 ⟨module, hmodule, '%', rfl, rfl⟩, rest,
      mem_rest_iff.2 ⟨hname, hisolation⟩, by simp [htoken]⟩
  · rintro ⟨_, hfirst, rest, hrest, htoken⟩
    obtain ⟨module, hmodule, _, rfl, rfl⟩ := mem_mul_oneOf.1 hfirst
    rw [← String.toList_ofList (l := module)] at hmodule
    obtain ⟨base, hbase⟩ := ModuleRef.exists_ofText_iff.2 hmodule
    obtain ⟨hname, hisolation⟩ := mem_rest_iff.1 hrest
    have hpercent := ModuleRef.percent_not_mem hbase
    rw [String.toList_ofList] at hpercent
    exact ⟨_, module, rest, base, by simp [← htoken], hpercent, hbase, hname, hisolation, rfl⟩

theorem toList_text (ref : ExtensionRef) : ref.text.toList = ref.module.text.toList ++
    '%' :: (ref.name.toList ++ ((ref.isolation.map String.toList).map ('~' :: ·)).getD []) := by
  rw [text]
  cases ref.isolation <;> simp

theorem text_of_ofText (h : ofText token = .ok ref) : ref.text = token := by
  obtain ⟨module, rest, base, htoken, -, hbase, -, -, rfl⟩ := ofText_eq_ok_iff.1 h
  have hrest := ExtensionId.splitIsolation_append rest
  rw [← String.toList_inj, htoken, toList_text, ModuleRef.text_of_ofText hbase]
  simp [Function.comp_def, ← hrest]

theorem solid (h : ofText token = .ok ref) : Text.Solid token.toList := by
  obtain ⟨module, rest, base, htoken, -, hbase, hname, hisolation, -⟩ := ofText_eq_ok_iff.1 h
  have hmodule := (ModuleRef.reads_of_ofText hbase).solid.1
  rw [String.toList_ofList] at hmodule
  rw [htoken, ExtensionId.splitIsolation_append rest]
  intro c hc
  rcases List.mem_append.1 hc with hc | hc
  · exact hmodule c hc
  rcases List.mem_cons.1 hc with rfl | hc
  · decide
  rcases List.mem_append.1 hc with hc | hc
  · exact isVersionChar_solid (isVersionChar_of_isExtensionName hname c hc)
  · cases hkey : (splitIsolation rest).2 with
    | none => simp [hkey] at hc
    | some isolation =>
      rw [hkey] at hisolation hc
      rcases List.mem_cons.1 hc with rfl | hc
      · decide
      · exact isVersionChar_solid
          ((ModuleRef.isVersionChar_of_isVersion (.inr hisolation)).2 c hc)

theorem ne_empty (h : ofText token = .ok ref) : token ≠ "" := by
  obtain ⟨module, rest, base, htoken, -⟩ := ofText_eq_ok_iff.1 h
  rintro rfl
  simp at htoken

theorem extensionId_of_key {k : Key} (h : ofText token = .ok ref)
    (hkey : ∀ module, ModuleRef.ofText module = .ok ref.module → Key.ofText module = .ok k) :
    ExtensionId.ofText token = .ok ⟨k, ref.name, ref.isolation⟩ := by
  obtain ⟨module, rest, base, htoken, hpercent, hbase, hname, hisolation, rfl⟩ :=
    ofText_eq_ok_iff.1 h
  refine ExtensionId.ofText_eq_ok_iff.2
    ⟨module, rest, k, htoken, hpercent, hkey _ hbase, ?_, ?_, rfl⟩
  · intro hnil
    rw [hnil] at hname
    exact absurd hname (by decide)
  · intro hempty
    rw [hempty] at hisolation
    exact absurd hisolation (by decide)

end ExtensionRef

namespace Reference

theorem mapM_tokens_join {α : Type} {read : String → Except InvalidReference α}
    {text : α → String} {refs : List α} (h : ∀ ref ∈ refs, Text.Solid (text ref).toList ∧
      text ref ≠ "" ∧ read (text ref) = .ok ref) :
    (tokens (",".intercalate (refs.map text))).mapM read = .ok refs := by
  have htokens : tokens (",".intercalate (refs.map text)) = refs.map text := by
    rw [tokens_intercalate, List.flatMap_map]
    refine (List.flatMap_congr fun ref href => ?_).trans List.map_eq_flatMap.symm
    obtain ⟨hsolid, hne, -⟩ := h ref href
    exact tokens_of_solid hsolid hne
  rw [htokens, mapM_eq_ok_iff, List.forall₂_map_left_iff]
  exact List.forall₂_same.2 fun ref href => (h ref href).2.2

/-- The texts that read as references are those of the grammar. Each is the text of what it reads
as, so the texts of references, put together with commas, are read back as a list. -/
theorem grammar_readBack :
    (∀ token, (∃ ref, ModuleRef.ofText token = .ok ref) ↔ token.toList ∈ moduleTexts) ∧
    (∀ token, (∃ ref, ExtensionRef.ofText token = .ok ref) ↔ token.toList ∈ extensionTexts) ∧
    (∀ token ref, ModuleRef.ofText token = .ok ref → ref.text = token) ∧
    (∀ token ref, ExtensionRef.ofText token = .ok ref → ref.text = token) ∧
    (∀ refs : List ModuleRef, (∀ ref ∈ refs, ∃ token, ModuleRef.ofText token = .ok ref) →
      modules (",".intercalate (refs.map ModuleRef.text)) = .ok refs) ∧
    ∀ refs : List ExtensionRef, (∀ ref ∈ refs, ∃ token, ExtensionRef.ofText token = .ok ref) →
      extensions (",".intercalate (refs.map ExtensionRef.text)) = .ok refs := by
  refine ⟨fun _ => ModuleRef.exists_ofText_iff, fun _ => ExtensionRef.exists_ofText_iff,
    fun _ _ => ModuleRef.text_of_ofText, fun _ _ => ExtensionRef.text_of_ofText,
    fun refs hrefs => mapM_tokens_join fun ref href => ?_,
    fun refs hrefs => mapM_tokens_join fun ref href => ?_⟩
  · obtain ⟨token, htoken⟩ := hrefs ref href
    rw [ModuleRef.text_of_ofText htoken]
    obtain ⟨hsolid, hne⟩ := (ModuleRef.reads_of_ofText htoken).solid
    exact ⟨hsolid, hne, htoken⟩
  · obtain ⟨token, htoken⟩ := hrefs ref href
    rw [ExtensionRef.text_of_ofText htoken]
    exact ⟨ExtensionRef.solid htoken, ExtensionRef.ne_empty htoken, htoken⟩

theorem grammar_readBack_lists :
    ModuleRef.text (.exact ⟨"a", ""⟩) = "a@_" ∧
    modules "<root>,a@_,b.c,a@1.0+x" =
      .ok [.root, .exact ⟨"a", ""⟩, .named "b.c", .exact ⟨"a", "1.0+x"⟩] ∧
    extensions "a@_%e,<root>%_x~1.2" =
      .ok [⟨.exact ⟨"a", ""⟩, "e", none⟩, ⟨.root, "_x", some "1.2"⟩] := by
  obtain ⟨-, -, htext, -, hmodules, hextensions⟩ := grammar_readBack
  refine ⟨htext "a@_" _ (by decide), ?_, ?_⟩
  · refine hmodules [.root, .exact ⟨"a", ""⟩, .named "b.c", .exact ⟨"a", "1.0+x"⟩] ?_
    simp only [List.forall_mem_cons]
    exact ⟨⟨"<root>", by decide⟩, ⟨"a@_", by decide⟩, ⟨"b.c", by decide⟩,
      ⟨"a@1.0+x", by decide⟩, by simp⟩
  · refine hextensions [⟨.exact ⟨"a", ""⟩, "e", none⟩, ⟨.root, "_x", some "1.2"⟩] ?_
    simp only [List.forall_mem_cons]
    exact ⟨⟨"a@_%e", by decide⟩, ⟨"<root>%_x~1.2", by decide⟩, by simp⟩

/-- A text that refers to a module with its version, or to the root, reads as the same key, and so
does one that refers to an extension of such a module. A bare name reads as no key. -/
theorem identities_agree :
    (∀ token k, ModuleRef.ofText token = .ok (.exact k) → Key.ofText token = .ok k) ∧
    (∀ token, ModuleRef.ofText token = .ok .root ↔ token = "<root>") ∧
    (∀ token, Key.ofText token = .ok .root ↔ token = "<root>") ∧
    (∀ token ref, ExtensionRef.ofText token = .ok ref →
      (ref.module = .root → ExtensionId.ofText token = .ok ⟨.root, ref.name, ref.isolation⟩) ∧
      ∀ k, ref.module = .exact k →
        ExtensionId.ofText token = .ok ⟨k, ref.name, ref.isolation⟩) ∧
    ∀ token name, ModuleRef.ofText token = .ok (.named name) →
      Key.ofText token = .error .noSeparator := by
  have hexact : ∀ token k, ModuleRef.ofText token = .ok (.exact k) → Key.ofText token = .ok k :=
    fun _ _ h => (ModuleRef.reads_of_ofText h).key
  refine ⟨hexact, fun _ => ModuleRef.ofText_eq_root_iff, fun _ => Key.ofText_eq_root_iff,
    fun token ref h => ⟨fun hroot => ?_, fun k hk => ?_⟩, fun _ _ => ModuleRef.key_of_named⟩
  · refine ExtensionRef.extensionId_of_key h fun module hmodule => ?_
    exact Key.ofText_eq_root_iff.2 (ModuleRef.ofText_eq_root_iff.1 (hroot ▸ hmodule))
  · exact ExtensionRef.extensionId_of_key h fun module hmodule => hexact module k (hk ▸ hmodule)

/-- Two low lines are a version, one is none, and an isolation key may be one. -/
theorem identities_agree_lowLines :
    Key.ofText "a@__" = .ok ⟨"a", "__"⟩ ∧
    ExtensionId.ofText "a@_%e~_" = .ok ⟨⟨"a", ""⟩, "e", some "_"⟩ ∧
    ExtensionId.ofText "<root>%e" = .ok ⟨.root, "e", none⟩ ∧
    Key.ofText "a" = .error .noSeparator := by
  obtain ⟨hexact, -, -, hextension, hnamed⟩ := identities_agree
  refine ⟨hexact _ _ (by decide), ?_, ?_, hnamed "a" "a" (by decide)⟩
  · exact (hextension "a@_%e~_" ⟨.exact ⟨"a", ""⟩, "e", some "_"⟩ (by decide)).2 _ rfl
  · exact (hextension "<root>%e" ⟨.root, "e", none⟩ (by decide)).1 rfl

end Reference

end ModuleGraph
