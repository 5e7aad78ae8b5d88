import ModuleGraph.Document.Reader
import ModuleGraph.Proofs.BuiltGraph
import ModuleGraph.Proofs.Reachability
import ModuleGraph.Proofs.Tree

/-!
# Whether the complete tree lists every used module

Modules are used along all dependencies, but the tree of the root goes only along those that have a
cause. The two differ at a dependency for which a module gives an empty set of causes: no filter
finds a cause in it, not even one that lets every extension pass.
-/
namespace ModuleGraph

/-- A dependency of one module on another for which no empty set of causes is given. -/
def Graph.Grounded (g : Graph) (k l : Key) : Prop :=
  ∃ node, g.get? k = some node ∧ ∃ name, (name, l) ∈ node.declaration.deps.entries ∧
    node.declaration.extensionDeps.get? name ≠ some ∅

theorem Graph.Grounded.dependsOn {g : Graph} {k l : Key} (h : g.Grounded k l) :
    g.DependsOn k l := by
  obtain ⟨node, hk, name, hentry, -⟩ := h
  exact ⟨node, hk, List.mem_map.2 ⟨_, hentry, rfl⟩⟩

theorem Filter.isSome_cause?_complete {d : Declaration} {name : String} :
    (Filter.complete.cause? (d.origin name)).isSome ↔ d.extensionDeps.get? name ≠ some ∅ := by
  rw [Declaration.origin]
  cases d.extensionDeps.get? name with
  | none => simp [Filter.cause?]
  | some causes =>
    have hfind : causes.toList.find? Filter.complete.contains = causes.toList.head? := by
      cases causes.toList <;> rfl
    simp [Filter.cause?, hfind, SortedSet.toList_eq_nil_iff]

theorem EdgeTable.step_complete_iff {g : Graph} {k l : Key} :
    (EdgeTable.ofGraph g .complete).Step k l ↔ g.Grounded k l := by
  simp only [EdgeTable.step_ofGraph_iff, Filter.isSome_cause?_complete]
  rfl

namespace Survey

variable {s : Snapshot} {k : Key} {depth : ℕ}

theorem exists_tree_of_leads (hs : s.Accepted) (f : Filter) (limits : Limits) (root : Key)
    (hdepth : s.graph.size < depth) :
    ∃ tree, (Survey.tree ⟨s, f, limits, false⟩ [root] depth).result = .ok tree ∧
      ∀ k, k ∈ tree.entries.map Entry.key ↔ (EdgeTable.ofGraph s.graph f).Leads root k := by
  have hord := EdgeTable.ordered_ofGraph s.graph f
  obtain ⟨items, hitems, h⟩ := EdgeTable.exists_treeListing hord depth root
  refine ⟨⟨items.map Item.entry⟩, ?_, fun k => h.mem_keys_iff fun k p hp => ?_⟩
  · change Except.ok ((EdgeTable.ofGraph s.graph f).tree [root] depth) = _
    rw [EdgeTable.tree_singleton, hitems]
  · exact (hs.length_le_size f hp).trans_lt hdepth

theorem isUsed_of_leads (hs : s.Accepted)
    (h : (EdgeTable.ofGraph s.graph .complete).Leads .root k) :
    s.graph.isUsed k := by
  rw [EdgeTable.leads_iff] at h
  refine hs.isUsed_iff.2 (Relation.ReflTransGen.mono (fun j l hstep => ?_) _ _ h)
  exact (EdgeTable.step_complete_iff.1 hstep).dependsOn

/-- Going up along grounded dependencies ends at the root. -/
theorem leads_of_grounded (hs : s.Accepted)
    (hall : ∀ l, s.graph.isUsed l → l ≠ .root → ∃ j, s.graph.isUsed j ∧ s.graph.Grounded j l)
    (hk : s.graph.isUsed k) : (EdgeTable.ofGraph s.graph .complete).Leads .root k := by
  induction k using (hs.acyclic .complete).wellFounded_parents.induction with
  | _ k ih =>
    by_cases hroot : k = .root
    · exact hroot ▸ .refl _ _
    · obtain ⟨j, hj, hground⟩ := hall k hk hroot
      have hstep := EdgeTable.step_complete_iff.2 hground
      exact (ih j hstep hj).trans hstep.leads

/-- The tree of the root lists used modules only. It lists all of them just if every one but the
root is a dependency of a used module with a cause, as it is when no set of causes is empty. -/
theorem tree_covers_used (s : Snapshot) (hs : s.Accepted) (limits : Limits) (depth : ℕ)
    (hdepth : s.graph.size < depth) :
    ∃ tree, (Survey.tree ⟨s, .complete, limits, false⟩ [.root] depth).result = .ok tree ∧
      (∀ k, k ∈ tree.entries.map Entry.key → s.graph.isUsed k) ∧
      ((∀ k, k ∈ tree.entries.map Entry.key ↔ s.graph.isUsed k) ↔
        ∀ k, s.graph.isUsed k → k ≠ .root →
          ∃ j, s.graph.isUsed j ∧ s.graph.Grounded j k) ∧
      ((∀ k node name, s.graph.get? k = some node →
          node.declaration.extensionDeps.get? name ≠ some ∅) →
        ∀ k, k ∈ tree.entries.map Entry.key ↔ s.graph.isUsed k) := by
  obtain ⟨tree, hok, hlisted⟩ := exists_tree_of_leads hs .complete limits .root hdepth
  have hcovers : (∀ k, s.graph.isUsed k → k ≠ .root →
      ∃ j, s.graph.isUsed j ∧ s.graph.Grounded j k) →
        ∀ k, k ∈ tree.entries.map Entry.key ↔ s.graph.isUsed k := by
    intro hall k
    rw [hlisted]
    exact ⟨isUsed_of_leads hs, leads_of_grounded hs hall⟩
  refine ⟨tree, hok, fun k hk => isUsed_of_leads hs ((hlisted k).1 hk), ⟨?_, hcovers⟩, ?_⟩
  · intro hall k hk hroot
    have hlead := (hlisted k).1 ((hall k).2 hk)
    rw [EdgeTable.leads_iff] at hlead
    obtain ⟨j, hj, hstep⟩ := hlead.cases_tail.resolve_left hroot
    have hused := isUsed_of_leads hs (EdgeTable.leads_iff.2 hj)
    exact ⟨j, hused, EdgeTable.step_complete_iff.1 hstep⟩
  · intro hcaused
    refine hcovers fun k hk hroot => ?_
    obtain ⟨j, hj, node, hnode, hl⟩ := (hs.isUsed_iff.1 hk).cases_tail.resolve_left hroot
    obtain ⟨⟨name, l⟩, hentry, rfl⟩ := List.mem_map.1 hl
    exact ⟨j, hs.isUsed_iff.2 hj, node, hnode, name, hentry, hcaused j node name hnode⟩

def aliased : Snapshot := .ofDeclared ((Snapshot.plain [(.root, []), (⟨"a", "1"⟩, [])]).adjust .root
  fun d => { d with
    deps := .ofList [("a", ⟨"a", "1"⟩), ("b", ⟨"a", "1"⟩)]
    extensionDeps := .ofList [("b", ∅)] }) []

theorem tree_covers_aliased : aliased.Accepted ∧ aliased.graph.size < QueryKind.unbounded ∧
    ∃ tree, (Survey.tree ⟨aliased, .complete, .default, false⟩ [.root]
        QueryKind.unbounded).result = .ok tree ∧
      ∀ k, k ∈ tree.entries.map Entry.key ↔ aliased.graph.isUsed k := by
  have haccepted : aliased.Accepted := Snapshot.accepted_ofDeclared (by cbv) (by cbv)
  have hsize : aliased.graph.size < QueryKind.unbounded := by decide
  obtain ⟨tree, hok, -, hcovers, -⟩ := tree_covers_used aliased haccepted .default _ hsize
  refine ⟨haccepted, hsize, tree, hok, hcovers.2 fun k hk hroot => ?_⟩
  have hkeys : aliased.graph.keys = [.root, ⟨"a", "1"⟩] := by cbv
  obtain ⟨_, hnode, -⟩ := Graph.isUsed_iff_exists.1 hk
  have hmem : k ∈ aliased.graph.keys := SortedMap.mem_of_get? hnode
  rw [hkeys] at hmem
  obtain rfl : k = ⟨"a", "1"⟩ := by simpa [hroot] using hmem
  obtain ⟨node, hnode, hdeps, hcauses⟩ : ∃ node, aliased.graph.get? .root = some node ∧
      node.declaration.deps.entries = [("a", ⟨"a", "1"⟩), ("b", ⟨"a", "1"⟩)] ∧
      node.declaration.extensionDeps.get? "a" = none := ⟨_, rfl, by cbv, by cbv⟩
  refine ⟨.root, by cbv, node, hnode, "a", ?_, ?_⟩
  · rw [hdeps]
    exact List.mem_cons_self
  · simp [hcauses]

/-- A document in which the root gives an empty set of causes for its only dependency. -/
def groundless : String :=
  "\x7b\"modules\": [\x7b\"key\": \"<root>\", \"deps\": \x7b\"a\": \"a@1\"\x7d, " ++
    "\"extension_deps\": \x7b\"a\": []\x7d\x7d, \x7b\"key\": \"a@1\"\x7d]\x7d"

/-- The document is accepted and its module is used, but the tree of the root does not list it. -/
theorem tree_misses_groundless : ∃ d s tree, Document.ofText groundless = .ok d ∧
    d.snapshot = .ok s ∧ s.graph.isUsed ⟨"a", "1"⟩ ∧
    (Survey.tree ⟨s, .complete, .default, false⟩ [.root] QueryKind.unbounded).result = .ok tree ∧
    ⟨"a", "1"⟩ ∉ tree.entries.map Entry.key := by
  let declared := (Snapshot.plain [(.root, [⟨"a", "1"⟩]), (⟨"a", "1"⟩, [])]).adjust .root
    fun d => { d with extensionDeps := .ofList [("a", ∅)] }
  have hread : Document.ofText groundless = .ok ⟨declared.values, [], ∅⟩ := by cbv
  have hbuilt : Document.snapshot ⟨declared.values, [], ∅⟩ = .ok (.ofDeclared declared []) :=
    Snapshot.build_eq_ok_iff.2 ⟨declared, by cbv, by cbv, rfl⟩
  have hused : (Snapshot.ofDeclared declared []).graph.isUsed ⟨"a", "1"⟩ := by cbv
  have hsize : (Snapshot.ofDeclared declared []).graph.size < QueryKind.unbounded := by decide
  have hedges : (EdgeTable.ofGraph (Snapshot.ofDeclared declared []).graph .complete).edges .root =
      [] := by cbv
  obtain ⟨tree, hok, hlisted⟩ :=
    exists_tree_of_leads ⟨_, _, hbuilt⟩ .complete .default .root hsize
  refine ⟨_, _, tree, hread, hbuilt, hused, hok, fun hlist => ?_⟩
  rcases (EdgeTable.leads_iff.1 ((hlisted _).1 hlist)).cases_head with heq | ⟨l, ⟨e, he, -⟩, -⟩
  · simp [Key.root] at heq
  · simp [hedges] at he

end Survey

end ModuleGraph
