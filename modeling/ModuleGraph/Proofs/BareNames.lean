import ModuleGraph.Proofs.DocumentText
import ModuleGraph.Proofs.FilterText
import ModuleGraph.Proofs.Resolution

namespace ModuleGraph

namespace Text

/-- No character of the text separates or pads the items of a list. -/
def Solid (s : List Char) : Prop := ∀ c ∈ s, c ≠ ',' ∧ isBlank c = false

theorem Solid.trim_eq {s : List Char} (h : Solid s) : trim s = s := by
  have hdrop : ∀ s : List Char, (∀ c ∈ s, isBlank c = false) → s.dropWhile isBlank = s := by
    intro s hs
    cases s with
    | nil => rfl
    | cons c s => rw [List.dropWhile_cons_of_neg (by simp [hs c List.mem_cons_self])]
  rw [trim, hdrop s fun c hc => (h c hc).2, trimEnd,
    hdrop s.reverse fun c hc => (h c (List.mem_reverse.1 hc)).2, List.reverse_reverse]

theorem mem_trim {c : Char} {s : List Char} (hc : c ∈ s) (hblank : isBlank c = false) :
    c ∈ trim s := by
  have hdrop : ∀ s : List Char, c ∈ s → c ∈ s.dropWhile isBlank := by
    intro s hs
    rw [← List.takeWhile_append_dropWhile (p := isBlank) (l := s)] at hs
    refine (List.mem_append.1 hs).resolve_left fun htake => ?_
    rw [List.mem_takeWhile_imp htake] at hblank
    simp at hblank
  rw [trim, trimEnd, List.mem_reverse]
  exact hdrop _ (List.mem_reverse.2 (hdrop _ hc))

end Text

namespace Reference

theorem tokens_of_solid {text : String} (h : Text.Solid text.toList) (hne : text ≠ "") :
    tokens text = [text] := by
  rw [tokens, Text.splitAll_of_not_mem fun hc => (h _ hc).1 rfl]
  simp [h.trim_eq, hne]

theorem exists_token_of_mem {text : String} {c : Char} (hc : c ∈ text.toList) (hcomma : c ≠ ',')
    (hblank : Text.isBlank c = false) : ∃ token ∈ tokens text, c ∈ token.toList := by
  obtain ⟨p, hp, hcp⟩ := Text.mem_splitAll_iff.2 ⟨hc, hcomma⟩
  have hmem := Text.mem_trim hcp hblank
  refine ⟨String.ofList (Text.trim p), ?_, by simpa using hmem⟩
  simp only [tokens, List.mem_map, List.mem_filter]
  exact ⟨_, ⟨⟨p, hp, rfl⟩, by simpa using List.ne_nil_of_mem hmem⟩, rfl⟩

theorem toNat_of_isAlphanum {c : Char} (h : c.isAlphanum) : 0x30 ≤ c.toNat ∧ c.toNat ≤ 0x7A := by
  simp only [Char.isAlphanum, Char.isAlpha, Char.isUpper, Char.isLower, Char.isDigit,
    Bool.or_eq_true, Bool.and_eq_true, decide_eq_true_eq, ge_iff_le, UInt32.le_iff_toNat_le] at h
  simp only [Char.toNat_val, Char.reduceToNat] at h
  omega

theorem isVersionChar_solid {c : Char} (h : isVersionChar c) :
    c ≠ ',' ∧ Text.isBlank c = false := by
  simp only [isVersionChar, Bool.or_eq_true, beq_iff_eq] at h
  rcases h with (((h | rfl) | rfl) | rfl) | rfl
  · have hrange := toNat_of_isAlphanum h
    constructor
    · rintro rfl
      simp at h
    · simp [Text.isBlank]
      omega
  all_goals decide

theorem isVersionChar_of_isNameChar {c : Char} (h : isNameChar c) : isVersionChar c := by
  simp only [isNameChar, isNameEnd, isVersionChar, Char.isAlphanum, Char.isAlpha,
    Bool.or_eq_true] at h ⊢
  tauto

end Reference

namespace ModuleRef

open Reference (isModuleName isVersion isVersionChar)

/-- What a token is made of when it reads as a reference. -/
inductive Reads (token : String) : ModuleRef → Prop
  | root : token = Key.rootText → Reads token .root
  | named : isModuleName token.toList → '@' ∉ token.toList → Reads token (.named token)
  | exact {name version : List Char} : token.toList = name ++ '@' :: version → '@' ∉ name →
      isModuleName name → (version = Key.noVersionText.toList ∨ isVersion version) →
      Reads token (.exact ⟨String.ofList name,
        if version = Key.noVersionText.toList then "" else .ofList version⟩)

variable {token : String} {ref : ModuleRef} {k : Key}

theorem reads_of_ofText (h : ofText token = .ok ref) : Reads token ref := by
  rw [ofText] at h
  split at h
  · next hroot =>
    obtain rfl := Except.ok.inj h
    exact .root hroot
  · cases hsplit : Text.splitFirst '@' token.toList with
    | none =>
      rw [hsplit] at h
      dsimp only at h
      split at h
      · simp at h
      · next hname =>
        obtain rfl := Except.ok.inj h
        rw [String.ofList_toList]
        exact .named (by simpa using hname) (Text.splitFirst_eq_none_iff.1 hsplit)
    | some p =>
      obtain ⟨name, version⟩ := p
      obtain ⟨hat, htoken⟩ := Text.splitFirst_eq_some_iff.1 hsplit
      rw [hsplit] at h
      dsimp only at h
      split at h
      · simp at h
      · next hname =>
        have hname : isModuleName name := by simpa using hname
        split at h
        · next hnone =>
          obtain rfl := Except.ok.inj h
          simpa [hnone] using Reads.exact htoken hat hname (.inl hnone)
        · next hsome =>
          split at h
          · next hversion =>
            obtain rfl := Except.ok.inj h
            simpa [hsome] using Reads.exact htoken hat hname (.inr hversion)
          · simp at h

theorem isVersionChar_of_isModuleName {s : List Char} (h : isModuleName s) :
    s ≠ [] ∧ ∀ c ∈ s, isVersionChar c := by
  simp only [isModuleName, Bool.and_eq_true, List.all_eq_true] at h
  refine ⟨?_, fun c hc => Reference.isVersionChar_of_isNameChar (h.2 c hc)⟩
  rintro rfl
  simp at h

theorem ne_rootText_of_isModuleName (h : isModuleName token.toList) : token ≠ Key.rootText := by
  rintro rfl
  exact absurd h (by decide)

theorem isVersionChar_of_isVersion {s : List Char}
    (h : s = Key.noVersionText.toList ∨ isVersion s) : s ≠ [] ∧ ∀ c ∈ s, isVersionChar c := by
  rcases h with rfl | h
  · simp [Key.noVersionText, isVersionChar]
  · simpa [isVersion] using h

theorem Reads.isVersionChar_or (h : Reads token ref) {c : Char} (hc : c ∈ token.toList) :
    isVersionChar c ∨ c = '<' ∨ c = '>' ∨ c = '@' := by
  cases h with
  | root hroot =>
    have hchars : Key.rootText.toList = ['<', 'r', 'o', 'o', 't', '>'] := rfl
    have hall : ∀ c ∈ ['<', 'r', 'o', 'o', 't', '>'],
        isVersionChar c ∨ c = '<' ∨ c = '>' ∨ c = '@' := by simp [isVersionChar]
    exact hall c (hchars ▸ hroot ▸ hc)
  | named hname => exact .inl ((isVersionChar_of_isModuleName hname).2 c hc)
  | exact htoken _ hname hversion =>
    rw [htoken, List.mem_append, List.mem_cons] at hc
    rcases hc with hc | rfl | hc
    · exact .inl ((isVersionChar_of_isModuleName hname).2 c hc)
    · exact .inr (.inr (.inr rfl))
    · exact .inl ((isVersionChar_of_isVersion hversion).2 c hc)

theorem Reads.solid (h : Reads token ref) : Text.Solid token.toList ∧ token ≠ "" := by
  constructor
  · intro c hc
    rcases h.isVersionChar_or hc with hc | rfl | rfl | rfl
    · exact Reference.isVersionChar_solid hc
    all_goals decide
  · rintro rfl
    cases h with
    | root hroot => exact absurd hroot (by decide)
    | named hname => exact (isVersionChar_of_isModuleName hname).1 rfl
    | exact htoken => simp at htoken

theorem Reads.eq_of_named {bare : String} (h : Reads token (.named bare)) : bare = token := by
  cases h
  rfl

theorem Reads.exists_key (h : Reads token ref) (hat : '@' ∈ token.toList) :
    ∃ k, ref = .exact k := by
  cases h with
  | root hroot => exact absurd hroot (Key.ne_rootText_of_at hat)
  | named _ hnone => exact absurd hat hnone
  | exact => exact ⟨_, rfl⟩

theorem Reads.key (h : Reads token (.exact k)) : Key.ofText token = .ok k := by
  cases h with
  | @exact name version htoken hat hname hversion =>
    obtain ⟨hne, -⟩ := isVersionChar_of_isModuleName hname
    obtain ⟨hne', hall⟩ := isVersionChar_of_isVersion hversion
    have hroot : token ≠ Key.rootText := Key.ne_rootText_of_at (by simp [htoken])
    have hat' : '@' ∉ version := fun hc => absurd (hall _ hc) (by decide)
    exact (Key.ofText_eq_ok_iff hroot).2 ⟨name, version, htoken, hat, hne, hne', hat', rfl⟩

end ModuleRef

namespace Resolver

variable {r : Resolver} {p : Policy} {ref : ModuleRef} {k : Key} {text token : String}

theorem mapM_accept_of_isUsed (h : r.snapshot.graph.isUsed k) :
    [k].mapM (r.accept p) = .ok [k] := by
  rw [List.mapM_cons, accept, if_pos h]
  rfl

theorem modules_of_ofText (href : ModuleRef.ofText text = .ok ref)
    (hdenoted : r.denoted p ref = .ok [k]) : r.modules p text = .ok [k] := by
  obtain ⟨hsolid, hne⟩ := (ModuleRef.reads_of_ofText href).solid
  have hrefs : Reference.modules text = .ok [ref] := by
    rw [Reference.modules, Reference.tokens_of_solid hsolid hne]
    exact mapM_eq_ok_iff.2 (.cons href .nil)
  have hkeys : [ref].mapM (r.denoted p) = .ok [[k]] := by
    rw [List.mapM_cons, hdenoted]
    rfl
  rw [modules, hrefs]
  simp only [Answer.lift, Except.mapError, Answer.bind_ok, hkeys]
  rfl

theorem modules_of_named (href : ModuleRef.ofText text = .ok (.named token))
    (hdep : r.base.deps.get? token = some k) (hused : r.snapshot.graph.isUsed k) :
    r.modules .usedOnly text = .ok [k] := by
  refine modules_of_ofText href ?_
  have hnamed : r.named .usedOnly token = [k] := by
    rw [named, hdep]
    rfl
  rw [denoted, hnamed]
  exact mapM_accept_of_isUsed hused

theorem modules_of_exact (href : ModuleRef.ofText text = .ok (.exact k))
    (hindexed : r.snapshot.index.contains k) (hused : r.snapshot.graph.isUsed k) :
    r.modules p text = .ok [k] := by
  refine modules_of_ofText href ?_
  rw [denoted, if_pos hindexed]
  exact mapM_accept_of_isUsed hused

theorem mem_of_denoted_exact {keys : List Key} (h : (r.denoted p (.exact k)).result = .ok keys) :
    k ∈ keys := by
  rw [denoted] at h
  split at h
  · rw [Answer.result_mapM] at h
    obtain ⟨b, hb, haccept⟩ := exists_mem_of_mapM h List.mem_cons_self
    exact (accept_ends r p k).of_ok haccept ▸ hb
  · simp [Answer.fail] at h

theorem mem_of_token {keys : List Key} (h : (r.modules p text).result = .ok keys)
    (htoken : token ∈ Reference.tokens text) (hat : '@' ∈ token.toList) :
    ∃ k, ModuleRef.ofText token = .ok (.exact k) ∧ k ∈ keys := by
  rw [modules, Answer.result_bind] at h
  obtain ⟨refs, hrefs, h⟩ := bind_eq_ok_iff.1 h
  rw [Answer.result_bind, Answer.result_mapM] at h
  obtain ⟨found, hfound, h⟩ := bind_eq_ok_iff.1 h
  obtain rfl := Except.ok.inj h
  obtain ⟨ref, href, hread⟩ := exists_mem_of_mapM (mapError_eq_ok_iff.1 hrefs) htoken
  obtain ⟨ks, hks, hdenoted⟩ := exists_mem_of_mapM hfound href
  obtain ⟨k, rfl⟩ := (ModuleRef.reads_of_ofText hread).exists_key hat
  exact ⟨k, hread, List.mem_eraseDups.2
    (List.mem_flatten.2 ⟨ks, hks, mem_of_denoted_exact hdenoted⟩)⟩

theorem modules_text_iff (hs : r.snapshot.Accepted) (hk : k.Readable)
    (hused : r.snapshot.graph.isUsed k) :
    (r.modules p k.text).result = .ok [k] ↔ ∃ ref, ModuleRef.ofText k.text = .ok ref := by
  by_cases hroot : k = .root
  · subst hroot
    have hmodules : r.modules p Key.rootText = .ok [.root] := modules_of_ofText rfl rfl
    exact ⟨fun _ => ⟨.root, rfl⟩, fun _ => congrArg Answer.result hmodules⟩
  have hat := Key.at_mem_text hroot
  constructor
  · intro h
    obtain ⟨token, htoken, hattoken⟩ := Reference.exists_token_of_mem hat (by decide) (by decide)
    obtain ⟨l, href, hl⟩ := mem_of_token h htoken hattoken
    obtain rfl := List.mem_singleton.1 hl
    have htext : l.text = token := Key.text_of_ofText (ModuleRef.reads_of_ofText href).key
    exact ⟨_, htext ▸ href⟩
  · rintro ⟨ref, href⟩
    have hreads := ModuleRef.reads_of_ofText href
    obtain ⟨l, rfl⟩ := hreads.exists_key hat
    obtain rfl : l = k := Except.ok.inj (hreads.key.symm.trans hk)
    obtain ⟨node, hnode, -⟩ := Graph.isUsed_iff_exists.1 hused
    exact congrArg Answer.result (modules_of_exact href (hs.contains_index hnode hroot) hused)

/-- In a used module of a document that is accepted, each local name refers to the module that is
depended on under it. The text of its key refers to that module just if the grammar of references
admits the text. -/
theorem modules_agree {text : String} {d : Document} {s : Snapshot} {base : Key}
    (hread : Document.ofText text = .ok d) (hbuilt : d.snapshot = .ok s)
    (hbase : s.graph.isUsed base) :
    ∃ r, anchored s base = .ok r ∧ ∀ name bare key, (name, key) ∈ r.base.deps.entries →
      ModuleRef.ofText name = .ok (.named bare) →
        r.modules .usedOnly name = .ok [key] ∧
        ((r.modules .usedOnly key.text).result = .ok [key] ↔
          ∃ ref, ModuleRef.ofText key.text = .ok ref) := by
  have hs : s.Accepted := ⟨_, _, hbuilt⟩
  obtain ⟨node, hnode, -⟩ := Graph.isUsed_iff_exists.1 hbase
  refine ⟨⟨s, node.declaration⟩, ?_, fun name bare key hdep hname => ?_⟩
  · rw [anchored, Graph.get, hnode]
    rfl
  have hused : s.graph.isUsed key :=
    hs.isUsed_target hbase ⟨node, hnode, List.mem_map.2 ⟨_, hdep, rfl⟩⟩
  have hkey : key.Readable :=
    (Document.readable_keys hread (Snapshot.declaration_mem hbuilt hnode).1).2 _ hdep
  refine ⟨modules_of_named hname ?_ hused, modules_text_iff hs hkey hused⟩
  obtain rfl := (ModuleRef.reads_of_ofText hname).eq_of_named
  exact (SortedMap.lookup_eq_some_iff node.declaration.deps.names_nodup).2 hdep

/-- A document whose root depends on two modules. The name of one starts with a capital letter. -/
def capital : String :=
  "\x7b\"modules\":[\x7b\"key\":\"<root>\",\"deps\":\x7b\"a\":\"A@1\",\"b\":\"b@1\"\x7d\x7d," ++
    "\x7b\"key\":\"A@1\"\x7d,\x7b\"key\":\"b@1\"\x7d]\x7d"

def capitalized : SortedMap Key Declaration :=
  (Snapshot.plain [(.root, []), (⟨"A", "1"⟩, []), (⟨"b", "1"⟩, [])]).adjust .root
    fun d => { d with deps := .ofList [("a", ⟨"A", "1"⟩), ("b", ⟨"b", "1"⟩)] }

set_option maxRecDepth 4000 in
theorem read_capital : Document.ofText capital = .ok ⟨capitalized.values, [], ∅⟩ := by cbv

theorem build_capital : Document.snapshot ⟨capitalized.values, [], ∅⟩ =
    .ok (.ofDeclared capitalized []) :=
  Snapshot.build_eq_ok_iff.2 ⟨capitalized, by cbv, by cbv, rfl⟩

theorem anchored_capital : ∃ r, anchored (.ofDeclared capitalized []) .root = .ok r ∧
    r.base.deps.entries = [("a", ⟨"A", "1"⟩), ("b", ⟨"b", "1"⟩)] ∧
    r.snapshot.graph.isUsed ⟨"A", "1"⟩ :=
  ⟨_, rfl, by cbv, by cbv⟩

theorem modules_agree_capital : ∃ d s r, Document.ofText capital = .ok d ∧ d.snapshot = .ok s ∧
    s.graph.isUsed .root ∧ anchored s .root = .ok r ∧ ("b", ⟨"b", "1"⟩) ∈ r.base.deps.entries ∧
    r.modules .usedOnly "b" = .ok [⟨"b", "1"⟩] ∧
    (r.modules .usedOnly "b@1").result = .ok [⟨"b", "1"⟩] := by
  have hused : (Snapshot.ofDeclared capitalized []).graph.isUsed .root := by cbv
  obtain ⟨r, hr, hagree⟩ := modules_agree read_capital build_capital hused
  obtain ⟨r', hr', hdeps, -⟩ := anchored_capital
  obtain rfl := Except.ok.inj (hr.symm.trans hr')
  have hmem : ("b", ⟨"b", "1"⟩) ∈ r.base.deps.entries := by simp [hdeps]
  obtain ⟨hbare, hqualified⟩ := hagree "b" "b" ⟨"b", "1"⟩ hmem (by decide)
  exact ⟨_, _, r, read_capital, build_capital, hused, hr, hmem, hbare,
    hqualified.2 ⟨.exact ⟨"b", "1"⟩, by decide⟩⟩

/-- The other one is found under its local name only. -/
theorem modules_disagree_capital : ∃ d s r, Document.ofText capital = .ok d ∧
    d.snapshot = .ok s ∧ s.graph.isUsed .root ∧ anchored s .root = .ok r ∧
    ("a", ⟨"A", "1"⟩) ∈ r.base.deps.entries ∧ ModuleRef.ofText "a" = .ok (.named "a") ∧
    r.modules .usedOnly "a" = .ok [⟨"A", "1"⟩] ∧
    r.modules .usedOnly (Key.text ⟨"A", "1"⟩) =
      .fail (.invalidReference ⟨"A@1", .moduleName⟩) := by
  have hused : (Snapshot.ofDeclared capitalized []).graph.isUsed .root := by cbv
  obtain ⟨r, hr, hdeps, htarget⟩ := anchored_capital
  have hname : ModuleRef.ofText "a" = .ok (.named "a") := by decide
  refine ⟨_, _, r, read_capital, build_capital, hused, hr, by simp [hdeps], hname, ?_, ?_⟩
  · exact modules_of_named hname (by rw [NameTable.get?, hdeps]; rfl) htarget
  · rfl

end Resolver

end ModuleGraph
