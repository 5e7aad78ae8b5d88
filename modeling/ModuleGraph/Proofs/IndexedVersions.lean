import ModuleGraph.Proofs.BuiltGraph

namespace ModuleGraph

theorem Key.compare_eq_lt_of_name {k l : Key} (h : compare k.name l.name = .lt) :
    compare k l = .lt := by
  have hthen : compare k l = (compare k.name l.name).then (compare k.version l.version) := rfl
  rw [hthen, h, Ordering.lt_then]

namespace Index

variable {keys : List Key}

theorem toList_versions_ofKeys (hkeys : keys.Pairwise (compare · · = .lt)) (name : String) :
    ((ofKeys keys).versions name).toList = keys.filter fun k => k.name = name ∧ k ≠ .root := by
  have hmem : ∀ k, k ∈ ((ofKeys keys).versions name).toList ↔
      k ∈ keys.filter fun k => k.name = name ∧ k ≠ .root := fun k => by
    rw [← SortedSet.mem_def, mem_versions_ofKeys, List.mem_filter]
    simp [and_comm]
  exact SortedSet.eq_of_increasing ((ofKeys keys).versions name).increasing (hkeys.filter _) hmem

/-- The versions of one name after those of another, in the order of the names. -/
def allVersions (index : Index) : List Key :=
  index.keys.flatMap fun name => (index.versions name).toList

theorem mem_allVersions_ofKeys {k : Key} :
    k ∈ (ofKeys keys).allVersions ↔ k ∈ keys ∧ k ≠ .root := by
  simp only [allVersions, List.mem_flatMap, ← SortedMap.mem_def, ← SortedSet.mem_def,
    mem_versions_ofKeys]
  constructor
  · rintro ⟨name, -, hk, hroot, -⟩
    exact ⟨hk, hroot⟩
  · rintro ⟨hk, hroot⟩
    exact ⟨k.name, mem_ofKeys.2 ⟨k, hk, hroot, rfl⟩, hk, hroot, rfl⟩

theorem allVersions_ofKeys_increasing (keys : List Key) :
    (ofKeys keys).allVersions.Pairwise (compare · · = .lt) := by
  refine List.pairwise_flatMap.2 ⟨fun name _ => ((ofKeys keys).versions name).increasing, ?_⟩
  refine (ofKeys keys).keys_increasing.imp fun {name name'} hlt k hk l hl => ?_
  have hname : k.name = name := (mem_versions_ofKeys.1 hk).2.2
  have hname' : l.name = name' := (mem_versions_ofKeys.1 hl).2.2
  exact Key.compare_eq_lt_of_name (hname ▸ hname' ▸ hlt)

theorem allVersions_ofKeys (hkeys : keys.Pairwise (compare · · = .lt)) :
    (ofKeys keys).allVersions = keys.filter (· ≠ .root) := by
  have hmem : ∀ k, k ∈ (ofKeys keys).allVersions ↔ k ∈ keys.filter (· ≠ .root) := fun k => by
    rw [mem_allVersions_ofKeys, List.mem_filter, decide_eq_true_iff]
  exact SortedSet.eq_of_increasing (allVersions_ofKeys_increasing keys) (hkeys.filter _) hmem

end Index

namespace Snapshot

/-- In an accepted snapshot just the modules of the graph but the root are indexed, under their
names. The versions of each name stand in the order of the keys, and name after name they are the
keys of the graph without the root, in their order and each once. -/
theorem index_groups (s : Snapshot) (hs : s.Accepted) :
    (∀ k, s.index.contains k ↔ s.graph.contains k ∧ k ≠ .root) ∧
      (∀ name, name ∈ s.index.keys ↔ ∃ k ∈ s.graph.keys, k ≠ .root ∧ k.name = name) ∧
      (∀ name, (s.index.versions name).toList =
        s.graph.keys.filter fun k => k.name = name ∧ k ≠ .root) ∧
      s.index.allVersions = s.graph.keys.filter (· ≠ .root) ∧
      s.index.allVersions.Pairwise (compare · · = .lt) := by
  have hkeys : s.graph.keys.Pairwise (compare · · = .lt) := s.graph.nodes.keys_increasing
  refine ⟨fun k => hs.contains_index_iff, ?_⟩
  rw [hs.index_eq]
  exact ⟨fun name => Index.mem_ofKeys, Index.toList_versions_ofKeys hkeys,
    Index.allVersions_ofKeys hkeys, Index.allVersions_ofKeys_increasing _⟩

/-- Two versions of a module, one whose name begins with the same letter, and one that has no name
but a version, so that it is not the root. -/
def namesakes : SortedMap Key Declaration :=
  (plain [
    (.root, [⟨"", "1"⟩, ⟨"a", "2"⟩, ⟨"ab", "1"⟩]), (⟨"", "1"⟩, []), (⟨"a", "1"⟩, []),
    (⟨"a", "2"⟩, []), (⟨"ab", "1"⟩, [])]).adjust .root fun m =>
      { m with unusedDeps := .ofList [("a", ⟨"a", "1"⟩)] }

/-- Three names have four versions, and the root is none of those of the empty name. -/
theorem index_groups_namesakes :
    let s := ofDeclared namesakes []
    s.Accepted ∧ ¬ s.index.contains .root ∧ (s.index.versions "").toList = [⟨"", "1"⟩] ∧
      (s.index.versions "a").toList = [⟨"a", "1"⟩, ⟨"a", "2"⟩] ∧
      s.index.allVersions = [⟨"", "1"⟩, ⟨"a", "1"⟩, ⟨"a", "2"⟩, ⟨"ab", "1"⟩] := by
  intro s
  have hs : s.Accepted := accepted_ofDeclared (by cbv) (by cbv)
  have hkeys : s.graph.keys = [.root, ⟨"", "1"⟩, ⟨"a", "1"⟩, ⟨"a", "2"⟩, ⟨"ab", "1"⟩] := by cbv
  obtain ⟨hcontains, -, hversions, hall, -⟩ := index_groups s hs
  rw [hkeys] at hversions hall
  exact ⟨hs, fun hroot => ((hcontains .root).1 hroot).2 rfl, hversions "", hversions "a", hall⟩

end Snapshot

end ModuleGraph
