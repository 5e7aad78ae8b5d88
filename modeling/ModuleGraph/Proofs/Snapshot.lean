import ModuleGraph.Proofs.Declared
import ModuleGraph.Proofs.EdgeTable
import Mathlib

namespace ModuleGraph

namespace Snapshot

/-- Some declarations and usage rows build the snapshot. -/
def Accepted (s : Snapshot) : Prop := ∃ declarations rows, build declarations rows = .ok s

variable {declarations : List Declaration} {rows : List UsageRow} {s : Snapshot}
  {declared : SortedMap Key Declaration} {d : Declaration} {node : Node} {k l : Key}

theorem build_eq_ok_iff : build declarations rows = .ok s ↔
    ∃ declared, declare declarations = .ok declared ∧ fault? declared rows = none ∧
      s = ofDeclared declared rows := by
  unfold build
  cases hd : declare declarations with
  | error e => simp
  | ok declared => cases hf : fault? declared rows <;> simp [hf, eq_comm]

theorem fault?_eq_none_iff : fault? declared rows = none ↔
    missingRoot? declared = none ∧ badEdge? declared = none ∧ cycle? declared = none ∧
      unreachable? declared = none ∧ strayUsage? declared rows = none := by
  simp only [fault?, Option.orElse_eq_orElse, Option.orElse_eq_or,
    Option.or_eq_none_iff]

theorem Accepted.exists_declared (h : s.Accepted) : ∃ declared rows,
    fault? declared rows = none ∧ s = ofDeclared declared rows := by
  obtain ⟨declarations, rows, h⟩ := h
  obtain ⟨declared, -, hf, rfl⟩ := build_eq_ok_iff.1 h
  exact ⟨declared, rows, hf, rfl⟩

theorem missingRoot?_eq_none_iff : missingRoot? declared = none ↔ Key.root ∈ declared := by
  rw [missingRoot?]
  split <;> simp_all

theorem find?_undeclared_eq_none_iff :
    (d.deps.entries ++ d.unusedDeps.entries).find? (·.2 ∉ declared) = none ↔
      ∀ l ∈ d.deps.values ++ d.unusedDeps.values, l ∈ declared := by
  rw [List.find?_eq_none, NameTable.values, NameTable.values, ← List.map_append,
    List.forall_mem_map]
  simp

theorem edgeFault?_eq_none_iff : edgeFault? declared d = none ↔
    (∀ l ∈ d.deps.values ++ d.unusedDeps.values, l ∈ declared) ∧
      ∀ name ∈ d.extensionDeps.keys, name ∈ d.deps.names := by
  rw [← find?_undeclared_eq_none_iff]
  unfold edgeFault?
  split
  · next hfind =>
    rw [hfind]
    simp
  · next hfind =>
    rw [hfind]
    simp

theorem badEdge?_eq_none_iff : badEdge? declared = none ↔ ∀ d ∈ declared.values,
    (∀ l ∈ d.deps.values ++ d.unusedDeps.values, l ∈ declared) ∧
      ∀ name ∈ d.extensionDeps.keys, name ∈ d.deps.names := by
  simp only [badEdge?, List.findSome?_eq_none_iff, edgeFault?_eq_none_iff]

theorem exists_rank_of_cycle? (h : cycle? declared = none) : ∃ rank : Key → ℕ,
    ∀ k d, (k, d) ∈ declared.entries → ∀ l ∈ d.deps.values, rank l < rank k := by
  unfold cycle? at h
  split at h
  · next hleft =>
    obtain ⟨rank, hr⟩ := Dependencies.exists_rank_of_leftOver hleft
    refine ⟨rank, fun k d hd l hl => hr k l ?_⟩
    have htargets := Dependencies.targets_ofDeclared declared k
    rw [SortedMap.get?_eq_some_iff.2 hd, Option.map_some, Option.getD_some] at htargets
    exact htargets ▸ SortedSet.mem_ofList.2 hl
  · simp at h

theorem get?_graph_eq_some_iff : (ofDeclared declared rows).graph.get? k = some node ↔
    declared.get? k = some node.declaration ∧
      node.dependents = declared.keysWhere (fun _ user => k ∈ user.deps.values) ∧
      node.used = decide (k ∈ (Graph.usedArcs declared).reachable [Key.root]) := by
  simp only [ofDeclared, Graph.ofDeclared, Graph.get?, SortedMap.get?_mapValues,
    Option.map_eq_some_iff]
  constructor
  · rintro ⟨d, hd, rfl⟩
    exact ⟨hd, rfl, rfl⟩
  · rintro ⟨hd, hdependents, hused⟩
    refine ⟨node.declaration, hd, ?_⟩
    rw [← hdependents, ← hused]

theorem mem_entries_of_get? (hk : (ofDeclared declared rows).graph.get? k = some node) :
    (k, node.declaration) ∈ declared.entries :=
  SortedMap.get?_eq_some_iff.1 (get?_graph_eq_some_iff.1 hk).1

theorem mem_table_ofDeclared {declared : SortedMap Key Declaration} {rows : List UsageRow}
    (f : Filter) {k : Key} :
    k ∈ EdgeTable.ofGraph (ofDeclared declared rows).graph f ↔ k ∈ declared := by
  simp [EdgeTable.ofGraph, ofDeclared, Graph.ofDeclared, SortedMap.mem_def]

theorem size_table (s : Snapshot) (f : Filter) :
    (EdgeTable.ofGraph s.graph f).size = s.graph.size := by
  simp [EdgeTable.ofGraph, Graph.size, SortedMap.size, SortedMap.mapValues]

namespace Accepted

variable (f : Filter)

theorem acyclic (h : s.Accepted) : (EdgeTable.ofGraph s.graph f).Acyclic := by
  obtain ⟨declared, rows, hf, rfl⟩ := h.exists_declared
  obtain ⟨rank, hr⟩ := exists_rank_of_cycle? (fault?_eq_none_iff.1 hf).2.2.1
  refine ⟨rank, fun k l hstep => ?_⟩
  obtain ⟨node, hnode, hl⟩ := EdgeTable.exists_declaration_of_step hstep
  exact hr k _ (mem_entries_of_get? hnode) l hl

theorem target_mem (h : s.Accepted) (hstep : (EdgeTable.ofGraph s.graph f).Step k l) :
    l ∈ EdgeTable.ofGraph s.graph f := by
  obtain ⟨declared, rows, hf, rfl⟩ := h.exists_declared
  obtain ⟨node, hnode, hl⟩ := EdgeTable.exists_declaration_of_step hstep
  have hd : node.declaration ∈ declared.values :=
    List.mem_map.2 ⟨_, mem_entries_of_get? hnode, rfl⟩
  have htargets := (badEdge?_eq_none_iff.1 (fault?_eq_none_iff.1 hf).2.1 _ hd).1
  exact (mem_table_ofDeclared f).2 (htargets l (List.mem_append_left _ hl))

theorem size_pos (h : s.Accepted) : 0 < s.graph.size := by
  obtain ⟨declared, rows, hf, rfl⟩ := h.exists_declared
  have hroot := missingRoot?_eq_none_iff.1 (fault?_eq_none_iff.1 hf).1
  have hpos : 0 < declared.keys.length := List.length_pos_of_mem hroot
  simpa [ofDeclared, Graph.ofDeclared, Graph.size, SortedMap.size, SortedMap.mapValues,
    SortedMap.keys] using hpos

/-- No walk has more modules than the graph. -/
theorem length_le_size (h : s.Accepted) {a b : Key} {p : Path}
    (hw : (EdgeTable.ofGraph s.graph f).Walk a b p) : p.length ≤ s.graph.size := by
  by_cases ha : a ∈ EdgeTable.ofGraph s.graph f
  · rw [← size_table s f]
    exact hw.length_le_size (h.acyclic f) (fun k l => h.target_mem f) ha
  · cases hw with
    | single => exact h.size_pos
    | cons he _ => exact absurd (EdgeTable.mem_of_step ⟨_, he, rfl⟩) ha

end Accepted

theorem accepted_ofDeclared (hd : declare declared.values = .ok declared)
    (hf : fault? declared [] = none) : (ofDeclared declared []).Accepted :=
  ⟨declared.values, [], build_eq_ok_iff.2 ⟨declared, hd, hf, rfl⟩⟩

def plain (rows : List (Key × List Key)) : SortedMap Key Declaration :=
  .ofList (rows.map fun (k, deps) =>
    (k, ⟨k, .ofList (deps.map fun l => (l.name, l)), ∅, ∅, ∅⟩))

/-- A root with two dependencies, of which the first depends on the second. -/
def triangle : Snapshot :=
  ofDeclared (plain [
    (.root, [⟨"a", "1"⟩, ⟨"b", "1"⟩]), (⟨"a", "1"⟩, [⟨"b", "1"⟩]), (⟨"b", "1"⟩, [])]) []

set_option maxRecDepth 2000 in
theorem triangle_accepted : triangle.Accepted :=
  accepted_ofDeclared (by cbv) (by cbv)

end Snapshot

end ModuleGraph
