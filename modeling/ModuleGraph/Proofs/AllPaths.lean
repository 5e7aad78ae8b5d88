import ModuleGraph.Proofs.FirstSeen
import ModuleGraph.Proofs.Scan
import ModuleGraph.Proofs.Snapshot

namespace ModuleGraph

namespace Enumeration

variable {e : Enumeration}

/-- Paths found and the rest make up the walks; when cut short, some of the walks are missing. -/
def Accounts (e : Enumeration) (rest walks : List Path) : Prop :=
  if e.truncated then ∃ missing, missing ≠ [] ∧ e.paths.reverse ++ missing = walks
  else e.paths.reverse ++ rest = walks

theorem Accounts.of_truncated {rest walks missing : List Path} (htr : e.truncated = true)
    (hne : missing ≠ []) (h : e.paths.reverse ++ missing = walks) : e.Accounts rest walks := by
  rw [Accounts, if_pos htr]
  exact ⟨missing, hne, h⟩

theorem Accounts.of_not_truncated {rest walks : List Path} (htr : e.truncated = false)
    (h : e.paths.reverse ++ rest = walks) : e.Accounts rest walks := by
  rw [Accounts, if_neg (by simp [htr])]
  exact h

theorem Accounts.isPrefix {walks : List Path} (h : e.Accounts [] walks) :
    e.paths.reverse <+: walks := by
  unfold Accounts at h
  split at h
  · obtain ⟨missing, -, h⟩ := h
    exact ⟨missing, h⟩
  · exact ⟨[], h⟩

theorem Accounts.truncated_iff {walks : List Path} (h : e.Accounts [] walks) :
    e.truncated = true ↔ e.paths.reverse ≠ walks := by
  unfold Accounts at h
  split at h
  · next htr =>
    obtain ⟨missing, hne, h⟩ := h
    simp [htr, ← h, hne]
  · next htr =>
    rw [List.append_nil] at h
    simp [htr, h]

end Enumeration

namespace EdgeTable

variable {t : EdgeTable}

theorem accounts_enumerate (ht : t.Acyclic) (limits : Limits) (starts targets : List Key) :
    (t.enumerate limits starts targets).Accounts []
      ((SortedSet.ofList starts).toList.flatMap (t.routes ht (.ofList targets))) := by
  rw [← filter_flatMap_beginnings]
  cases scanned_enumerate ht limits starts targets with
  | going seen htr _ hpassed hall =>
    refine .of_not_truncated htr ?_
    rw [hall, hpassed.paths, List.append_nil, List.append_nil]
  | cut seen p missing htr _ hpassed hall hmissing _ =>
    obtain ⟨q, hq, harrives⟩ := hmissing
    refine .of_truncated htr (List.ne_nil_of_mem (List.mem_filter.2 ⟨hq, harrives⟩)) ?_
    rw [hall, hpassed.paths, List.filter_append]

section Enumerated

variable (ht : t.Acyclic) {limits : Limits} {starts targets : List Key} {p : Path}

include ht

theorem exists_route_of_mem_paths (hp : p ∈ (t.enumerate limits starts targets).paths) :
    ∃ a ∈ starts, t.Route (.ofList targets) a p := by
  have hprefix := (accounts_enumerate ht limits starts targets).isPrefix
  have hmem := hprefix.subset (List.mem_reverse.2 hp)
  obtain ⟨a, ha, hroute⟩ := List.mem_flatMap.1 hmem
  exact ⟨a, SortedSet.mem_ofList.1 ha, (mem_routes ht).1 hroute⟩

theorem exists_walk_of_mem_paths (hp : p ∈ (t.enumerate limits starts targets).paths) :
    ∃ a ∈ starts, ∃ b ∈ targets, t.Walk a b p := by
  obtain ⟨a, ha, b, hb, hw, -⟩ := exists_route_of_mem_paths ht hp
  exact ⟨a, ha, b, SortedSet.mem_ofList.1 hb, hw⟩

theorem paths_of_not_truncated
    (htruncated : (t.enumerate limits starts targets).truncated = false) :
    (t.enumerate limits starts targets).paths.reverse =
      (SortedSet.ofList starts).toList.flatMap (t.routes ht (.ofList targets)) :=
  not_ne_iff.1 (mt (accounts_enumerate ht limits starts targets).truncated_iff.2
    (by simp [htruncated]))

theorem mem_paths_iff (htruncated : (t.enumerate limits starts targets).truncated = false) :
    p ∈ (t.enumerate limits starts targets).paths ↔
      ∃ a ∈ starts, t.Route (.ofList targets) a p := by
  rw [← List.mem_reverse, paths_of_not_truncated ht htruncated, List.mem_flatMap]
  simp only [mem_routes, ← SortedSet.mem_def, SortedSet.mem_ofList]

end Enumerated

end EdgeTable

namespace Survey

/-- The enumeration finds the walks that end at their first target in order, each with its causes,
and is cut short only if it leaves some of them out. -/
theorem allPaths_complete (s : Snapshot) (hs : s.Accepted) (f : Filter) (limits : Limits)
    (starts targets : List Key) (depth : ℕ) :
    let survey : Survey := ⟨s, f, limits, false⟩
    ∃ found walks, (survey.allPaths starts targets depth).result = .ok found ∧
      walks.Pairwise (fun p q => Before p.nodes q.nodes) ∧
      (∀ p, p ∈ walks ↔ ∃ a ∈ starts, ∃ b ∈ targets, survey.table.Walk a b p ∧ p.nodes.Nodup ∧
        ∀ k ∈ p.nodes, k ∈ targets → k = b) ∧
      found.paths <+: walks ∧
      (found.truncated = true ↔ found.paths ≠ walks) ∧
      (survey.tree (found.paths.filterMap Path.last?).eraseDups depth).result =
        .ok found.targetTrees := by
  intro survey
  have ht : survey.table.Acyclic := hs.acyclic f
  have hord : survey.table.Ordered := EdgeTable.ordered_ofGraph _ _
  have hacc := EdgeTable.accounts_enumerate ht limits starts targets
  refine ⟨survey.table.allPathsOf depth (survey.table.enumerate limits starts targets),
    (SortedSet.ofList starts).toList.flatMap (survey.table.routes ht (.ofList targets)),
    rfl, EdgeTable.flatMap_routes_ordered ht hord _ _, fun p => ?_, ?_, ?_, ?_⟩
  · simp only [List.mem_flatMap, EdgeTable.mem_routes, EdgeTable.Route, SortedSet.mem_ofList,
      ← SortedSet.mem_def]
    constructor
    · rintro ⟨a, ha, b, hb, hw, hfirst⟩
      exact ⟨a, ha, b, hb, hw, hw.nodup ht, hfirst⟩
    · rintro ⟨a, ha, b, hb, hw, -, hfirst⟩
      exact ⟨a, ha, b, hb, hw, hfirst⟩
  · exact hacc.isPrefix
  · exact hacc.truncated_iff
  · change Except.ok (survey.table.tree _ depth) = Except.ok (survey.table.tree _ depth)
    rw [EdgeTable.tree, FirstSeen.eraseDups_eraseDups]
    rfl

set_option maxRecDepth 4000 in
/-- With room for one path only, one of the two walks through a triangle is left out. -/
theorem allPaths_triangle : Snapshot.triangle.Accepted ∧ ∃ found walks,
    (Survey.allPaths ⟨Snapshot.triangle, .complete, ⟨1, 10⟩, false⟩ [.root] [⟨"b", "1"⟩] 2).result =
      .ok found ∧
    walks.Pairwise (fun p q => Before p.nodes q.nodes) ∧
    found.paths = [⟨[.root, ⟨"a", "1"⟩, ⟨"b", "1"⟩], [.direct, .direct]⟩] ∧
    found.paths <+: walks ∧ found.paths ≠ walks := by
  obtain ⟨found, walks, hok, hord, -, hprefix, htr, -⟩ :=
    allPaths_complete Snapshot.triangle Snapshot.triangle_accepted .complete ⟨1, 10⟩ [.root]
      [⟨"b", "1"⟩] 2
  have hcut : (Survey.allPaths ⟨Snapshot.triangle, .complete, ⟨1, 10⟩, false⟩ [.root]
      [⟨"b", "1"⟩] 2).result.toOption.map (fun found => (found.paths, found.truncated)) =
      some ([⟨[.root, ⟨"a", "1"⟩, ⟨"b", "1"⟩], [.direct, .direct]⟩], true) := by cbv
  rw [hok] at hcut
  obtain ⟨hpaths, hcut⟩ := Prod.mk.inj (Option.some.inj hcut)
  exact ⟨Snapshot.triangle_accepted, found, walks, hok, hord, hpaths, hprefix, htr.1 hcut⟩

end Survey

end ModuleGraph
