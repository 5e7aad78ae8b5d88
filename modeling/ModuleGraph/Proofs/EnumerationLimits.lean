import ModuleGraph.Proofs.Scan
import ModuleGraph.Proofs.Snapshot
import ModuleGraph.Query.Survey

namespace ModuleGraph

namespace Enumeration

variable {targets : SortedSet Key} {limits : Limits} {e : Enumeration} {seen all : List Path}

theorem Passed.length_paths (h : Passed targets limits e seen) :
    e.paths.length = seen.countP (·.arrives targets) := by
  rw [List.countP_eq_length_filter, ← h.paths, List.length_reverse]

namespace Scanned

variable (h : Scanned targets limits e [] all)

include h

theorem truncated_iff : e.truncated = true ↔
    limits.maxPaths < all.countP (·.arrives targets) ∨ limits.maxSteps < all.length := by
  cases h with
  | going seen htr _ hpassed hall =>
    have hlen := hpassed.length_paths
    have hroom := hpassed.room
    have hwithin := hpassed.within
    rw [List.append_nil] at hall
    rw [htr, hall]
    refine iff_of_false Bool.false_ne_true ?_
    omega
  | cut seen p missing htr _ hpassed hall _ hlimit =>
    have hlen := hpassed.length_paths
    have hroom := hpassed.room
    rw [htr, hall, List.length_append, List.length_cons, List.countP_append]
    refine iff_of_true rfl ?_
    rcases hlimit with hfull | ⟨harrives, hnone⟩
    · omega
    · rw [List.countP_cons_of_pos harrives]
      omega

theorem paths_eq : e.paths.reverse = (all.filter (·.arrives targets)).take
    (min limits.maxPaths ((all.take limits.maxSteps).countP (·.arrives targets))) := by
  cases h with
  | going seen _ _ hpassed hall =>
    have hlen := hpassed.length_paths
    have hroom := hpassed.room
    rw [List.append_nil] at hall
    rw [hall, List.take_of_length_le hpassed.within, hpassed.paths, ← hlen]
    rw [List.take_of_length_le]
    rw [← List.countP_eq_length_filter, ← hlen]
    omega
  | cut seen p missing _ _ hpassed hall _ hlimit =>
    have hlen := hpassed.length_paths
    have hroom := hpassed.room
    have hmin : min limits.maxPaths ((all.take limits.maxSteps).countP (·.arrives targets)) =
        (seen.filter (·.arrives targets)).length := by
      rw [← List.countP_eq_length_filter, ← hlen]
      rcases hlimit with hfull | ⟨-, hnone⟩
      · rw [hall, ← hfull, List.take_left, ← hlen]
        omega
      · have hle : seen.countP (·.arrives targets) ≤
            (all.take limits.maxSteps).countP (·.arrives targets) := by
          refine List.Sublist.countP_le (List.IsPrefix.sublist ?_)
          rw [hall, List.prefix_take_iff]
          exact ⟨List.prefix_append _ _, hpassed.within⟩
        omega
    rw [hmin, hall, List.filter_append, List.take_left, hpassed.paths]

/-- Every step but the last one of an enumeration cut short passes one beginning. -/
theorem exists_passed : ∃ seen rest, all = seen ++ rest ∧
    e.steps = seen.length + (if e.truncated then 1 else 0) ∧
    e.paths.reverse = seen.filter (·.arrives targets) ∧ (e.truncated = true ↔ rest ≠ []) := by
  cases h with
  | going seen htr hsteps hpassed hall =>
    exact ⟨seen, [], hall, by simp [htr, hsteps], hpassed.paths, by simp [htr]⟩
  | cut seen p missing htr hsteps hpassed hall _ _ =>
    exact ⟨seen, p :: missing, hall, by simp [htr, hsteps], hpassed.paths, by simp [htr]⟩

end Scanned

end Enumeration

namespace Path

variable {targets : SortedSet Key} {p : Path} {l all : List Path}

theorem nodes_mem_iff_arrives (hp : p ∈ all) :
    p.nodes ∈ (all.filter (·.arrives targets)).map nodes ↔ p.arrives targets = true := by
  constructor
  · intro hin
    obtain ⟨q, hq, heq⟩ := List.mem_map.1 hin
    have harrives := (List.mem_filter.1 hq).2
    rwa [arrives, last?, heq] at harrives
  · exact fun harrives => List.mem_map_of_mem (List.mem_filter.2 ⟨hp, harrives⟩)

theorem filter_nodes (hl : l ⊆ all) :
    (l.map nodes).filter (· ∈ (all.filter (·.arrives targets)).map nodes) =
      (l.filter (·.arrives targets)).map nodes := by
  rw [List.filter_map]
  refine congrArg _ (List.filter_congr fun p hp => ?_)
  rw [Bool.eq_iff_iff, ← nodes_mem_iff_arrives (hl hp)]
  exact decide_eq_true_iff

theorem countP_nodes (hl : l ⊆ all) :
    (l.map nodes).countP (· ∈ (all.filter (·.arrives targets)).map nodes) =
      l.countP (·.arrives targets) := by
  rw [List.countP_eq_length_filter, filter_nodes hl, List.length_map,
    List.countP_eq_length_filter]

end Path

namespace EdgeTable

variable {t : EdgeTable} {targets : List Key} {a : Key} {p : Path}

theorem route_iff_dropLast (ht : t.Acyclic) : t.Route (.ofList targets) a p ↔
    ∃ b ∈ targets, t.Walk a b p ∧ ∀ k ∈ p.nodes.dropLast, k ∉ targets := by
  simp only [Route, SortedSet.mem_ofList]
  refine exists_congr fun b => and_congr_right fun hb => and_congr_right fun hw => ?_
  have hnodes : p.nodes = p.nodes.dropLast ++ [b] := (List.dropLast_append_getLast? b hw.last?).symm
  constructor
  · intro hfirst k hk hkt
    obtain rfl := hfirst k (List.dropLast_subset _ hk) hkt
    have hd := hw.nodup ht
    rw [hnodes, List.nodup_append] at hd
    exact hd.2.2 k hk k List.mem_cons_self rfl
  · intro hfirst k hk hkt
    rw [hnodes, List.mem_append, List.mem_singleton] at hk
    exact hk.resolve_left fun hk => hfirst k hk hkt

end EdgeTable

namespace Survey

/-- The enumeration enters the beginnings of the walks to a first target one by one, in order, for
one step each. It reports those walks among the first beginnings, as many as there may be steps, up
to the limit on walks, and says so just if there are more walks or more beginnings than that. -/
theorem allPaths_limited (s : Snapshot) (hs : s.Accepted) (f : Filter) (limits : Limits)
    (starts targets : List Key) (depth : ℕ) :
    let survey : Survey := ⟨s, f, limits, false⟩
    let steps := (survey.table.enumerate limits starts targets).steps
    ∃ (found : AllPaths) (walks : List Path) (prefixes : List (List Key)),
      survey.allPaths starts targets depth = ⟨.ok found,
        if found.truncated then [.truncated found.paths.length steps] else []⟩ ∧
      walks.Pairwise (fun p q => Before p.nodes q.nodes) ∧
      (∀ p, p ∈ walks ↔ ∃ a ∈ starts, ∃ b ∈ targets, survey.table.Walk a b p ∧
        ∀ k ∈ p.nodes.dropLast, k ∉ targets) ∧
      prefixes.Pairwise Before ∧
      (∀ v, v ∈ prefixes ↔ v ≠ [] ∧ ∃ p ∈ walks, v <+: p.nodes) ∧
      (found.truncated = true ↔
        limits.maxPaths < walks.length ∨ limits.maxSteps < prefixes.length) ∧
      found.paths = walks.take (min limits.maxPaths
        ((prefixes.take limits.maxSteps).countP (· ∈ walks.map Path.nodes))) ∧
      ∃ passed rest, prefixes = passed ++ rest ∧
        steps = passed.length + (if found.truncated then 1 else 0) ∧
        found.paths.map Path.nodes = passed.filter (· ∈ walks.map Path.nodes) ∧
        (found.truncated = true ↔ rest ≠ []) := by
  intro survey steps
  have ht : survey.table.Acyclic := hs.acyclic f
  have hord : survey.table.Ordered := EdgeTable.ordered_ofGraph _ _
  let enumeration := survey.table.enumerate limits starts targets
  let all := (SortedSet.ofList starts).toList.flatMap (survey.table.beginnings ht (.ofList targets))
  have hscan : Enumeration.Scanned (.ofList targets) limits enumeration [] all :=
    EdgeTable.scanned_enumerate ht limits starts targets
  have hwalks : all.filter (·.arrives (.ofList targets)) =
      (SortedSet.ofList starts).toList.flatMap (survey.table.routes ht (.ofList targets)) :=
    EdgeTable.filter_flatMap_beginnings ht _ _
  refine ⟨survey.table.allPathsOf depth enumeration, all.filter (·.arrives (.ofList targets)),
    all.map Path.nodes, ?_, ?_, fun p => ?_, ?_, fun v => ?_, ?_, ?_, ?_⟩
  · have hlen : (survey.table.allPathsOf depth enumeration).paths.length =
        enumeration.paths.length := List.length_reverse
    rw [hlen]
    rfl
  · exact hwalks ▸ EdgeTable.flatMap_routes_ordered ht hord _ _
  · rw [hwalks, List.mem_flatMap]
    simp only [EdgeTable.mem_routes, EdgeTable.route_iff_dropLast ht, ← SortedSet.mem_def,
      SortedSet.mem_ofList]
  · exact List.pairwise_map.2 (EdgeTable.flatMap_beginnings_ordered ht hord _ _)
  · rw [hwalks]
    exact EdgeTable.mem_nodes_flatMap_beginnings ht
  · rw [List.length_map, ← List.countP_eq_length_filter]
    exact hscan.truncated_iff
  · rw [← List.map_take, Path.countP_nodes (List.take_subset _ _)]
    exact hscan.paths_eq
  · obtain ⟨seen, rest, hall, hsteps, hpaths, hrest⟩ := hscan.exists_passed
    refine ⟨seen.map Path.nodes, rest.map Path.nodes, ?_, ?_, ?_, ?_⟩
    · rw [hall, List.map_append]
    · rw [List.length_map]
      exact hsteps
    · rw [Path.filter_nodes (hall ▸ List.subset_append_left _ _), ← hpaths]
      rfl
    · rw [Ne, List.map_eq_nil_iff]
      exact hrest

/-- Two walks through a triangle have four beginnings; after three steps one of them is found. -/
theorem allPaths_limited_triangle : Snapshot.triangle.Accepted ∧
    ∃ (found : AllPaths) (walks : List Path) (prefixes : List (List Key)),
      Survey.allPaths ⟨Snapshot.triangle, .complete, ⟨5, 3⟩, false⟩ [.root] [⟨"b", "1"⟩] 2 =
        ⟨.ok found, [.truncated 1 4]⟩ ∧
      found.paths.length = 1 ∧ found.paths <+: walks ∧
      (5 < walks.length ∨ 3 < prefixes.length) := by
  obtain ⟨found, walks, prefixes, hanswer, -, -, -, -, htruncated, hpaths, -⟩ :=
    allPaths_limited Snapshot.triangle Snapshot.triangle_accepted .complete ⟨5, 3⟩ [.root]
      [⟨"b", "1"⟩] 2
  have hwarnings : (Survey.allPaths ⟨Snapshot.triangle, .complete, ⟨5, 3⟩, false⟩ [.root]
      [⟨"b", "1"⟩] 2).warnings = [.truncated 1 4] := by cbv
  rw [hanswer] at hwarnings ⊢
  have hcut : found.truncated = true := by
    by_contra htr
    rw [if_neg htr] at hwarnings
    cases hwarnings
  have hlength : found.paths.length = 1 := by
    rw [if_pos hcut] at hwarnings
    exact (Warning.truncated.inj (List.singleton_inj.1 hwarnings)).1
  exact ⟨Snapshot.triangle_accepted, found, walks, prefixes, congrArg _ hwarnings, hlength,
    hpaths ▸ List.take_prefix _ _, htruncated.1 hcut⟩

end Survey

end ModuleGraph
