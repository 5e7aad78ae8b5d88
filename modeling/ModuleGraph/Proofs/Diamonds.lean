import ModuleGraph.Proofs.BuiltGraph
import ModuleGraph.Proofs.TreeSize

/-!
# Few entries for many walks

When one can go on from each of some modules to the next at once or by way of another module, the
number of walks doubles from module to module. A ladder of modules, each of which depends on the
next two, has exponentially many walks in this way. Its trees stay as small as all others: they have
at most one entry more than the graph has edges.
-/
namespace ModuleGraph

namespace Path

theorem extend_inj {p q : Path} {e f : Edge} (h : p.extend e = q.extend f) : p = q ∧ e = f := by
  obtain ⟨hnodes, htarget⟩ := List.append_inj' (congrArg Path.nodes h) rfl
  obtain ⟨hcauses, hcause⟩ := List.append_inj' (congrArg Path.causes h) rfl
  cases p; cases q; cases e; cases f
  simp_all

end Path

namespace EdgeTable

variable {t : EdgeTable} {n : ℕ}

/-- One can go on from a module to another at once and by way of a third one. -/
structure Detour (t : EdgeTable) (k l : Key) where
  direct : Edge
  off : Edge
  back : Edge
  direct_mem : direct ∈ t.edges k
  off_mem : off ∈ t.edges k
  back_mem : back ∈ t.edges off.target
  direct_target : direct.target = l
  back_target : back.target = l
  off_ne : off.target ≠ k

/-- With a detour between each stop and the next there are two walks for every choice of them. -/
theorem exists_walks_of_detours (stop : ℕ → Key)
    (h : ∀ i < n, Nonempty (t.Detour (stop i) (stop (i + 1)))) :
    ∃ walks : List Path, walks.Nodup ∧ walks.length = 2 ^ n ∧
      ∀ p ∈ walks, t.Walk (stop 0) (stop n) p := by
  induction n with
  | zero => exact ⟨[.single (stop 0)], List.nodup_singleton _, rfl, by simpa using .single _⟩
  | succ n ih =>
    obtain ⟨walks, hnodup, hlength, hwalks⟩ := ih fun i hi => h i (Nat.lt_succ_of_lt hi)
    obtain ⟨d⟩ := h n (Nat.lt_succ_self n)
    refine ⟨walks.flatMap fun p => [p.extend d.direct, (p.extend d.off).extend d.back], ?_, ?_, ?_⟩
    · have hne : ∀ p ∈ walks, ∀ q : Path, p.extend d.direct ≠ (q.extend d.off).extend d.back := by
        intro p hp q heq
        obtain ⟨rfl, -⟩ := Path.extend_inj heq
        have hlast := (hwalks _ hp).last?
        rw [Path.last?, Path.nodes_extend, List.getLast?_concat] at hlast
        exact d.off_ne (Option.some.inj hlast)
      rw [List.nodup_flatMap]
      refine ⟨fun p hp => by simpa using hne p hp p, hnodup.imp_of_mem fun {p q} hp hq hpq => ?_⟩
      rw [Function.onFun, List.disjoint_left]
      simp only [List.mem_cons, List.not_mem_nil, or_false]
      rintro r (rfl | rfl) (heq | heq)
      · exact hpq (Path.extend_inj heq).1
      · exact hne p hp q heq
      · exact hne q hq p heq.symm
      · exact hpq (Path.extend_inj (Path.extend_inj heq).1).1
    · simp [List.length_flatMap, hlength, pow_succ]
    · simp only [List.mem_flatMap, List.mem_cons, List.not_mem_nil, or_false]
      rintro r ⟨p, hp, rfl | rfl⟩
      · have hw := (hwalks p hp).snoc d.direct_mem
        rwa [d.direct_target] at hw
      · have hw := ((hwalks p hp).snoc d.off_mem).snoc d.back_mem
        rwa [d.back_target] at hw

theorem length_leastCauses_le (es : List Edge) : (leastCauses es).length ≤ es.length := by
  have hnodup : ((leastCauses es).map Edge.target).Nodup :=
    List.pairwise_map.2 ((ordered_leastCauses es).imp fun hlt heq => by simp [heq] at hlt)
  have hsub : (leastCauses es).map Edge.target ⊆ es.map Edge.target :=
    fun _ => mem_map_leastCauses_iff.1
  simpa using (hnodup.subperm hsub).length_le

theorem length_edges_le {g : Graph} {f : Filter} {k : Key} {node : Node}
    (hk : g.get? k = some node) :
    ((ofGraph g f).edges k).length ≤ node.declaration.deps.entries.length := by
  rw [edges_ofGraph, hk]
  exact (length_leastCauses_le _).trans (List.length_filterMap_le _ _)

end EdgeTable

namespace Snapshot

/-- The module at some height of a ladder, with the root at the bottom. -/
def rung (i : ℕ) : Key := ⟨String.ofList (List.replicate i 'a'), ""⟩

def rungDeclaration (top i : ℕ) : Declaration where
  key := rung i
  deps := .ofList (([i + 1, i + 2].filter (· ≤ top)).map fun j => ((rung j).name, rung j))
  unusedDeps := ∅
  extensionDeps := ∅
  extensions := ∅

def ladder (top : ℕ) : List Declaration := (List.range (top + 1)).map (rungDeclaration top)

variable {top i j : ℕ} {k l : Key} {s : Snapshot} {f : Filter}

theorem length_name_rung (i : ℕ) : (rung i).name.toList.length = i := by
  simp [rung]

theorem rung_injective : Function.Injective rung := fun i j h => by
  rw [← length_name_rung i, h, length_name_rung]

theorem deps_rungDeclaration (top i : ℕ) : (rungDeclaration top i).deps.entries =
    ([i + 1, i + 2].filter (· ≤ top)).map fun j => ((rung j).name, rung j) := by
  refine NameTable.entries_foldl_insert (t := ∅) ?_
  have hnodup : ([i + 1, i + 2].filter (· ≤ top)).Nodup := List.Nodup.filter _ (by simp)
  have hname : Function.Injective fun j => (rung j).name := fun j j' h => by
    have h : (rung j).name = (rung j').name := h
    rw [← length_name_rung j, h, length_name_rung]
  change ((([i + 1, i + 2].filter (· ≤ top)).map fun j => ((rung j).name, rung j)).map
    Prod.fst).Nodup
  rw [List.map_map]
  exact hnodup.map hname

theorem mem_deps_rungDeclaration : l ∈ (rungDeclaration top i).deps.values ↔
    ∃ j, (j = i + 1 ∨ j = i + 2) ∧ j ≤ top ∧ rung j = l := by
  simp [NameTable.values, deps_rungDeclaration, and_assoc]

theorem dependsOn_ladder_iff : DependsOn (ladder top) k l ↔ ∃ i ≤ top, rung i = k ∧
    ∃ j, (j = i + 1 ∨ j = i + 2) ∧ j ≤ top ∧ rung j = l := by
  simp only [DependsOn, ladder, List.mem_map, List.mem_range, ← mem_deps_rungDeclaration]
  constructor
  · rintro ⟨_, ⟨i, hi, rfl⟩, hk, hl⟩
    exact ⟨i, by omega, hk, hl⟩
  · rintro ⟨i, hi, hk, hl⟩
    exact ⟨_, ⟨i, by omega, rfl⟩, hk, hl⟩

theorem mem_keys_ladder_iff : k ∈ (ladder top).map Declaration.key ↔ ∃ i ≤ top, rung i = k := by
  simp [ladder, rungDeclaration]

theorem holds_ladder (top : ℕ) (c : Check) : c.Holds (ladder top) [] := by
  cases c with
  | distinctKeys =>
    change ((ladder top).map Declaration.key).Nodup
    rw [ladder, List.map_map]
    exact List.nodup_range.map rung_injective
  | rootDeclared => exact mem_keys_ladder_iff.2 ⟨0, Nat.zero_le top, rfl⟩
  | targetsDeclared k =>
    intro d hd _ l hl
    obtain ⟨i, -, rfl⟩ := List.mem_map.1 hd
    have hdeps := (List.mem_append.1 hl).resolve_right List.not_mem_nil
    obtain ⟨j, -, hj, rfl⟩ := mem_deps_rungDeclaration.1 hdeps
    exact mem_keys_ladder_iff.2 ⟨j, hj, rfl⟩
  | causesPlaced k =>
    intro d hd _ name hname
    obtain ⟨i, -, rfl⟩ := List.mem_map.1 hd
    exact absurd hname List.not_mem_nil
  | noCycle =>
    have hup : ∀ k l, DependsOn (ladder top) k l →
        k.name.toList.length < l.name.toList.length := by
      intro k l h
      obtain ⟨i, -, rfl, j, hj, -, rfl⟩ := dependsOn_ladder_iff.1 h
      rw [length_name_rung, length_name_rung]
      omega
    intro k hk
    have hlt : ∀ l, Relation.TransGen (DependsOn (ladder top)) k l →
        k.name.toList.length < l.name.toList.length := by
      intro l hl
      induction hl with
      | single h => exact hup _ _ h
      | tail _ h ih => exact ih.trans (hup _ _ h)
    exact absurd (hlt k hk) (Nat.lt_irrefl _)
  | allReachable =>
    intro k hk
    obtain ⟨i, hi, rfl⟩ := mem_keys_ladder_iff.1 hk
    clear hk
    induction i with
    | zero => exact .refl
    | succ i ih =>
      have hi' : i ≤ top := Nat.le_of_succ_le hi
      obtain ⟨d, hd, hkey, hl⟩ :=
        dependsOn_ladder_iff.2 ⟨i, hi', rfl, i + 1, .inl rfl, hi, rfl⟩
      exact (ih hi').tail ⟨d, hd, hkey, List.mem_append_left _ hl⟩
  | usersDeclared => exact nofun

theorem exists_edge_ladder (h : build (ladder top) [] = .ok s) (hi : i ≤ top)
    (hj : j = i + 1 ∨ j = i + 2) (hjtop : j ≤ top) :
    ∃ e ∈ (EdgeTable.ofGraph s.graph f).edges (rung i), e.target = rung j := by
  have hd : rungDeclaration top i ∈ ladder top :=
    List.mem_map_of_mem (List.mem_range.2 (Nat.lt_succ_of_le hi))
  obtain ⟨node, hnode, hdecl⟩ := exists_node h hd
  have hl : rung j ∈ (rungDeclaration top i).deps.values :=
    mem_deps_rungDeclaration.2 ⟨j, hj, hjtop, rfl⟩
  obtain ⟨⟨name, l⟩, hentry, hname⟩ := List.mem_map.1 hl
  obtain rfl : l = rung j := hname
  refine EdgeTable.step_ofGraph_iff.2 ⟨node, hnode, name, by rw [hdecl]; exact hentry, ?_⟩
  rw [hdecl]
  rfl

theorem size_ladder (h : build (ladder top) [] = .ok s) : s.graph.size = top + 1 := by
  have hlength := (declarations_perm h).length_eq
  simpa [Graph.size, SortedMap.size, SortedMap.values, ladder] using hlength

theorem length_arrows_ladder_le (h : build (ladder top) [] = .ok s) :
    (EdgeTable.ofGraph s.graph f).arrows.length ≤ (top + 1) * 2 := by
  rw [← size_ladder h, ← size_table s f]
  refine EdgeTable.length_arrows_le fun k => ?_
  cases hk : s.graph.get? k with
  | none => simp [EdgeTable.edges_ofGraph, hk]
  | some node =>
    refine (EdgeTable.length_edges_le hk).trans ?_
    obtain ⟨i, -, hi⟩ := List.mem_map.1 (declaration_mem h hk).1
    rw [← hi, deps_rungDeclaration, List.length_map]
    exact List.length_filter_le _ _

/-- The root of a ladder leads to the top in exponentially many ways. -/
theorem exists_walks_ladder {n : ℕ} (h : build (ladder (2 * n)) [] = .ok s) :
    ∃ walks : List Path, walks.Nodup ∧ walks.length = 2 ^ n ∧
      ∀ p ∈ walks, (EdgeTable.ofGraph s.graph f).Walk .root (rung (2 * n)) p := by
  refine EdgeTable.exists_walks_of_detours (fun i => rung (2 * i)) fun i hi => ?_
  obtain ⟨direct, hdirect, hdirect'⟩ :=
    exists_edge_ladder (f := f) h (by omega) (.inr rfl) (by omega : 2 * i + 2 ≤ 2 * n)
  obtain ⟨off, hoff, hoff'⟩ :=
    exists_edge_ladder (f := f) h (by omega) (.inl rfl) (by omega : 2 * i + 1 ≤ 2 * n)
  obtain ⟨back, hback, hback'⟩ :=
    exists_edge_ladder (f := f) h (by omega) (.inl rfl) (by omega : 2 * i + 1 + 1 ≤ 2 * n)
  refine ⟨direct, off, back, hdirect, hoff, hoff' ▸ hback, hdirect', hback', fun heq => ?_⟩
  have hheight := rung_injective (hoff'.symm.trans heq)
  omega

end Snapshot

namespace Survey

/-- Under one root each edge is listed at most once, every entry but the first is listed for an
edge, and the loop that lists them ends after as many turns. So a tree has at most one entry more
than the graph has edges, while some graphs with `2 * n + 1` modules have `2 ^ n` walks from the
root. -/
theorem tree_size_le :
    (∀ (s : Snapshot) (f : Filter) (limits : Limits) (roots : List Key) (depth : ℕ),
      let survey : Survey := ⟨s, f, limits, false⟩
      let under (root : Key) : Tree := ⟨survey.table.treeOf depth root⟩
      (survey.tree roots depth).result =
          .ok ⟨roots.eraseDups.flatMap fun root => (under root).entries⟩ ∧
        ∀ root,
          (∃ n expanded, survey.table.Turns depth ⟨[⟨root, 0, none⟩], ∅, []⟩
            ⟨[], expanded, (under root).entries⟩ n ∧ n ≤ 1 + survey.table.arrows.length) ∧
          (∀ l ∈ (under root).links, ∃ e ∈ survey.table.edges l.1.key,
            l.2.key = e.target ∧ l.2.cause = some e.cause) ∧
          ((under root).links.map fun l => (l.1.key, l.2.key)).Nodup ∧
          (under root).entries.length ≤ 1 + survey.table.arrows.length) ∧
    ∀ n, ∃ s : Snapshot, s.Accepted ∧ s.graph.size = 2 * n + 1 ∧ ∀ f,
      let table : EdgeTable := .ofGraph s.graph f
      table.arrows.length ≤ 2 * (2 * n + 1) ∧
        ∃ walks : List Path, walks.Nodup ∧ walks.length = 2 ^ n ∧
          ∀ p ∈ walks, ∃ k, table.Walk .root k p := by
  refine ⟨fun s f limits roots depth => ⟨rfl, fun root => ?_⟩, fun n => ?_⟩
  · have hord := EdgeTable.ordered_ofGraph s.graph f
    obtain ⟨hlinks, hnodup⟩ := EdgeTable.links_treeOf hord depth root
    exact ⟨EdgeTable.exists_turns_treeOf hord depth root, hlinks, hnodup,
      EdgeTable.length_treeOf_le hord depth root⟩
  · obtain ⟨s, hs⟩ := Snapshot.exists_build_of_holds (Snapshot.holds_ladder (2 * n))
    refine ⟨s, ⟨_, _, hs⟩, Snapshot.size_ladder hs, fun f => ⟨?_, ?_⟩⟩
    · exact (Snapshot.length_arrows_ladder_le hs).trans_eq (Nat.mul_comm _ _)
    · obtain ⟨walks, hnodup, hlength, hwalks⟩ := Snapshot.exists_walks_ladder (f := f) hs
      exact ⟨walks, hnodup, hlength, fun p hp => ⟨_, hwalks p hp⟩⟩

/-- The tree of a triangle attains the bound, with a link for each of the three edges. The least
ladder with a detour has two walks. -/
theorem tree_size_le_triangle :
    let table : EdgeTable := .ofGraph Snapshot.triangle.graph .complete
    let under : Tree := ⟨table.treeOf 4 .root⟩
    (∃ l ∈ under.links, ∃ e ∈ table.edges l.1.key, l.2.key = e.target) ∧
      under.entries.length ≤ 1 + table.arrows.length ∧
      under.entries.length = 4 ∧ table.arrows.length = 3 ∧
      ∃ s : Snapshot, s.graph.size = 3 ∧ ∃ walks : List Path, walks.length = 2 ∧
        ∃ p ∈ walks, ∃ k, (EdgeTable.ofGraph s.graph .complete).Walk .root k p := by
  intro table under
  have hlinks : under.links.map (fun l => (l.1.key, l.2.key)) =
      [(.root, ⟨"a", "1"⟩), (⟨"a", "1"⟩, ⟨"b", "1"⟩), (.root, ⟨"b", "1"⟩)] := by cbv
  have hentries : under.entries.length = 4 := by cbv
  have harrows : table.arrows.length = 3 := by cbv
  obtain ⟨htrees, hladders⟩ := tree_size_le
  obtain ⟨-, hroot⟩ := htrees Snapshot.triangle .complete .default [.root] 4
  obtain ⟨-, hedges, -, hle⟩ := hroot .root
  obtain ⟨l, hl, -⟩ := List.mem_map.1 (hlinks ▸ List.mem_cons_self)
  obtain ⟨e, he, htarget, -⟩ := hedges l hl
  obtain ⟨s, -, hsize, hwalks⟩ := hladders 1
  obtain ⟨-, walks, -, hlength, hall⟩ := hwalks .complete
  have hp : walks[0] ∈ walks := List.getElem_mem _
  exact ⟨⟨l, hl, e, he, htarget⟩, hle, hentries, harrows, s, hsize, walks, hlength, _, hp,
    hall _ hp⟩

end Survey

end ModuleGraph
