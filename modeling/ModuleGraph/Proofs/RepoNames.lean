import ModuleGraph.Proofs.DocumentText
import ModuleGraph.Proofs.Resolution

/-!
# Repositories that modules share

The name of a repository is the name of a module and its version with a tilde between them. Names
and versions may have tildes themselves, so two modules have the same repository when their texts
differ in the tilde at which the name ends, and only then.
-/
namespace ModuleGraph

namespace Key

variable {k l : Key}

/-- What makes up the repository name of both keys is cut at an earlier tilde in the first one. -/
def CutBefore (k l : Key) : Prop :=
  ∃ a b c, a ≠ "" ∧ k = ⟨a, b ++ "~" ++ c⟩ ∧ l = ⟨a ++ "~" ++ b, c⟩

theorem repoName_of_ne_root (h : k ≠ root) :
    k.repoName.toList = k.name.toList ++ '~' :: k.version.toList := by
  simp [repoName, h]

theorem CutBefore.repoName_eq (h : k.CutBefore l) : k.repoName = l.repoName := by
  obtain ⟨a, b, c, -, rfl, rfl⟩ := h
  have hk : (⟨a, b ++ "~" ++ c⟩ : Key) ≠ root := by simp [root]
  have hl : (⟨a ++ "~" ++ b, c⟩ : Key) ≠ root := by simp [root]
  rw [← String.toList_inj, repoName_of_ne_root hk, repoName_of_ne_root hl]
  simp

theorem eq_or_cutBefore {rest : List Char} (hk : k.name ≠ "")
    (hname : l.name.toList = k.name.toList ++ rest)
    (hversion : '~' :: k.version.toList = rest ++ '~' :: l.version.toList) :
    k = l ∨ k.CutBefore l := by
  obtain ⟨name, version⟩ := k
  obtain ⟨name', version'⟩ := l
  cases rest with
  | nil =>
    rw [List.append_nil, String.toList_inj] at hname
    rw [List.nil_append, List.cons.injEq, String.toList_inj] at hversion
    exact .inl (Key.mk.injEq .. ▸ ⟨hname.symm, hversion.2⟩)
  | cons c rest =>
    obtain ⟨rfl, hversion⟩ := List.cons.inj hversion
    refine .inr ⟨name, String.ofList rest, version', hk, ?_, ?_⟩
    · simpa [← String.toList_inj] using hversion
    · simpa [← String.toList_inj] using hname

theorem repoName_eq_iff (hk : k.Readable) (hl : l.Readable) :
    k.repoName = l.repoName ↔ k = l ∨ k.CutBefore l ∨ l.CutBefore k := by
  constructor
  · intro h
    by_cases hkroot : k = root
    · by_cases hlroot : l = root
      · exact .inl (hkroot.trans hlroot.symm)
      · rw [hkroot, ← String.toList_inj, repoName_of_ne_root hlroot] at h
        simp [repoName] at h
    by_cases hlroot : l = root
    · rw [hlroot, ← String.toList_inj, repoName_of_ne_root hkroot] at h
      simp [repoName] at h
    rw [← String.toList_inj, repoName_of_ne_root hkroot, repoName_of_ne_root hlroot] at h
    rcases List.append_eq_append_iff.1 h with ⟨rest, hname, hversion⟩ | ⟨rest, hname, hversion⟩
    · exact (eq_or_cutBefore (hk.parts hkroot).1 hname hversion).imp_right .inl
    · exact (eq_or_cutBefore (hl.parts hlroot).1 hname hversion).imp Eq.symm .inr
  · rintro (rfl | h | h)
    · rfl
    · exact h.repoName_eq
    · exact h.repoName_eq.symm

/-- Of two keys with one repository, the one has a tilde in its version and the other in its
name. -/
theorem CutBefore.tildes (h : k.CutBefore l) : '~' ∈ k.version.toList ∧ '~' ∈ l.name.toList := by
  obtain ⟨a, b, c, -, rfl, rfl⟩ := h
  simp

end Key

namespace Survey

theorem exists_of_mem_repos {rules : RuleSource} {modules : List Key} {shown : List ShownRepo}
    (h : (repos rules modules).result = .ok shown) {x : ShownRepo} (hx : x ∈ shown) :
    x.module ∈ modules ∧ x.repoName = x.module.repoName ∧
      rules.lookup x.repoName = .ok x.attributes := by
  rw [repos, Answer.result_mapM] at h
  obtain ⟨k, hk, hshow⟩ := exists_of_mem_mapM h hx
  split at hshow
  · next attributes hlookup =>
    obtain rfl := Except.ok.inj hshow
    exact ⟨hk, rfl, hlookup⟩
  · simp [Answer.fail] at hshow

/-- Two modules of a document that is accepted share a repository just if what makes up its name is
cut at different tildes in them. The rule that is shown for a module is that of its repository, so
it is the rule of that module only, up to those that the name is cut differently for. -/
theorem repos_shared {text : String} {d : Document} {s : Snapshot}
    (hread : Document.ofText text = .ok d) (hbuilt : d.snapshot = .ok s) :
    (∀ k l, s.graph.contains k → s.graph.contains l →
      (k.repoName = l.repoName ↔ k = l ∨ k.CutBefore l ∨ l.CutBefore k)) ∧
    (∀ k l, s.graph.contains k → s.graph.contains l →
      '~' ∉ k.name.toList → '~' ∉ k.version.toList → k.repoName = l.repoName → k = l) ∧
    ∀ rules modules shown, (∀ k ∈ modules, s.graph.contains k) →
      (repos rules modules).result = .ok shown → ∀ x ∈ shown,
        rules.lookup x.repoName = .ok x.attributes ∧
        ∀ l, s.graph.contains l → (l.repoName = x.repoName ↔
          l = x.module ∨ l.CutBefore x.module ∨ x.module.CutBefore l) := by
  have hiff : ∀ k l, s.graph.contains k → s.graph.contains l →
      (k.repoName = l.repoName ↔ k = l ∨ k.CutBefore l ∨ l.CutBefore k) := by
    have hreadable : ∀ k, s.graph.contains k → k.Readable := by
      intro k hk
      obtain ⟨node, hnode⟩ := Graph.contains_iff.1 hk
      obtain ⟨hmem, rfl⟩ := Snapshot.declaration_mem hbuilt hnode
      exact (Document.readable_keys hread hmem).1
    exact fun k l hk hl => Key.repoName_eq_iff (hreadable k hk) (hreadable l hl)
  refine ⟨hiff, fun k l hk hl hname hversion h => ?_, fun rules modules shown hmodules h x hx => ?_⟩
  · rcases (hiff k l hk hl).1 h with heq | hcut | hcut
    · exact heq
    · exact absurd hcut.tildes.1 hversion
    · exact absurd hcut.tildes.2 hname
  · obtain ⟨hmem, hrepo, hlookup⟩ := exists_of_mem_repos h hx
    rw [hrepo] at hlookup ⊢
    exact ⟨hlookup, fun l hl => hiff l x.module hl (hmodules x.module hmem)⟩

/-- A document with two modules whose texts differ in where the name ends, and one rule. -/
def tildes : String :=
  "\x7b\"modules\":[\x7b\"key\":\"<root>\",\"deps\":\x7b\"x\":\"a~b@c\",\"y\":\"a@b~c\"\x7d\x7d," ++
    "\x7b\"key\":\"a@b~c\"\x7d,\x7b\"key\":\"a~b@c\"\x7d],\"repo_rules\":\x7b\"a~b~c\":\x7b\x7d\x7d\x7d"

def tilded : SortedMap Key Declaration :=
  (Snapshot.plain [(.root, []), (⟨"a", "b~c"⟩, []), (⟨"a~b", "c"⟩, [])]).adjust .root
    fun d => { d with deps := .ofList [("x", ⟨"a~b", "c"⟩), ("y", ⟨"a", "b~c"⟩)] }

set_option maxRecDepth 4000 in
theorem read_tildes :
    Document.ofText tildes = .ok ⟨tilded.values, [], .ofList [("a~b~c", ∅)]⟩ := by cbv

theorem build_tildes (rules : RepoRules) :
    Document.snapshot ⟨tilded.values, [], rules⟩ = .ok (.ofDeclared tilded []) :=
  Snapshot.build_eq_ok_iff.2 ⟨tilded, by cbv, by cbv, rfl⟩

theorem contains_tildes : (Snapshot.ofDeclared tilded []).graph.contains ⟨"a", "b~c"⟩ ∧
    (Snapshot.ofDeclared tilded []).graph.contains ⟨"a~b", "c"⟩ :=
  ⟨by cbv, by cbv⟩

theorem repos_shared_tildes : ∃ d s, Document.ofText tildes = .ok d ∧ d.snapshot = .ok s ∧
    s.graph.contains ⟨"a", "b~c"⟩ ∧ s.graph.contains ⟨"a~b", "c"⟩ ∧
    Key.CutBefore ⟨"a", "b~c"⟩ ⟨"a~b", "c"⟩ := by
  obtain ⟨hk, hl⟩ := contains_tildes
  obtain ⟨hiff, -, -⟩ := repos_shared read_tildes (build_tildes _)
  refine ⟨_, _, read_tildes, build_tildes _, hk, hl, ?_⟩
  rcases (hiff _ _ hk hl).1 rfl with heq | hcut | hcut
  · simp at heq
  · exact hcut
  · exact absurd hcut.tildes.1 (by decide)

/-- The one rule of the document is shown for both modules. -/
theorem repos_confuse_tildes : ∃ d s, Document.ofText tildes = .ok d ∧ d.snapshot = .ok s ∧
    s.graph.contains ⟨"a", "b~c"⟩ ∧ s.graph.contains ⟨"a~b", "c"⟩ ∧
    Key.repoName ⟨"a", "b~c"⟩ = Key.repoName ⟨"a~b", "c"⟩ ∧
    (repos d.repoRules.get? [⟨"a~b", "c"⟩, ⟨"a", "b~c"⟩]).result =
      .ok [⟨⟨"a~b", "c"⟩, "a~b~c", ∅⟩, ⟨⟨"a", "b~c"⟩, "a~b~c", ∅⟩] := by
  obtain ⟨hk, hl⟩ := contains_tildes
  exact ⟨_, _, read_tildes, build_tildes _, hk, hl, rfl, rfl⟩

end Survey

end ModuleGraph
