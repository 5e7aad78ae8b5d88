import ModuleGraph.Proofs.AllPaths
import ModuleGraph.Proofs.Coverage
import ModuleGraph.Proofs.ShortestPath

namespace ModuleGraph

def Graph.causes (g : Graph) : List (SortedSet ExtensionId) :=
  g.nodes.values.flatMap (·.declaration.extensionDeps.values)

theorem Graph.mem_causes {g : Graph} {k : Key} {node : Node} {name : String}
    {causes : SortedSet ExtensionId} (hk : g.get? k = some node)
    (hname : node.declaration.extensionDeps.get? name = some causes) : causes ∈ g.causes := by
  have hnode : node ∈ g.nodes.values := SortedMap.mem_values_iff.2 ⟨k, hk⟩
  exact List.mem_flatMap.2 ⟨node, hnode, SortedMap.mem_values_iff.2 ⟨name, hname⟩⟩

namespace Filter

variable {f f' : Filter}

theorem isSome_cause?_mono (h : ∀ id, f.contains id → f'.contains id) {origin : Origin}
    (hcause : (f.cause? origin).isSome) : (f'.cause? origin).isSome := by
  cases origin with
  | declared => rfl
  | extensions causes =>
    simp only [cause?, Option.isSome_map, List.find?_isSome] at hcause ⊢
    obtain ⟨id, hid, hf⟩ := hcause
    exact ⟨id, hid, h id hf⟩

/-- The filter contains every extension that some module gives as a cause. -/
def Covers (f : Filter) (g : Graph) : Prop :=
  ∀ causes ∈ g.causes, ∀ id ∈ causes, f.contains id

theorem Covers.cause?_eq {g : Graph} (h : f.Covers g) {k : Key} {node : Node}
    (hk : g.get? k = some node) (name : String) :
    f.cause? (node.declaration.origin name) = complete.cause? (node.declaration.origin name) := by
  rw [Declaration.origin]
  cases hcauses : node.declaration.extensionDeps.get? name with
  | none => rfl
  | some causes =>
    have hpass : ∀ id ∈ causes.toList, f.contains id = complete.contains id :=
      h causes (Graph.mem_causes hk hcauses)
    rw [cause?, cause?, List.find?_congr hpass]

end Filter

namespace EdgeTable

variable {g : Graph} {f f' : Filter} {t t' : EdgeTable} {a b k l : Key} {p : Path}

theorem step_mono (h : ∀ id, f.contains id → f'.contains id) (hstep : (ofGraph g f).Step k l) :
    (ofGraph g f').Step k l := by
  obtain ⟨node, hk, name, hentry, hcause⟩ := step_ofGraph_iff.1 hstep
  exact step_ofGraph_iff.2 ⟨node, hk, name, hentry, Filter.isSome_cause?_mono h hcause⟩

/-- A walk along steps that another table has too can be taken there, for its own causes. -/
theorem Walk.exists_of_step (h : ∀ k l, t.Step k l → t'.Step k l) (hw : t.Walk a b p) :
    ∃ q, t'.Walk a b q ∧ q.nodes = p.nodes := by
  induction hw with
  | single k => exact ⟨_, .single k, rfl⟩
  | @cons k b e p he _ ih =>
    obtain ⟨q, hq, hnodes⟩ := ih
    obtain ⟨e', he', htarget⟩ := h k e.target ⟨e, he, rfl⟩
    rw [← htarget] at hq
    refine ⟨q.cons k e'.cause, .cons he' hq, ?_⟩
    rw [Path.nodes_cons, Path.nodes_cons, hnodes]

theorem Route.exists_of_step {targets : SortedSet Key} (h : ∀ k l, t.Step k l → t'.Step k l)
    (hr : t.Route targets a p) : ∃ q, t'.Route targets a q ∧ q.nodes = p.nodes := by
  obtain ⟨b, hb, hw, hfirst⟩ := hr
  obtain ⟨q, hq, hnodes⟩ := hw.exists_of_step h
  exact ⟨q, ⟨b, hb, hq, hnodes ▸ hfirst⟩, hnodes⟩

theorem shortestPath_of_step (ht : t.Ordered) (ht' : t'.Ordered)
    (h : ∀ k l, t.Step k l → t'.Step k l) {starts targets : List Key} {depth : ℕ}
    (hp : t.shortestPath starts targets depth = some p) :
    ∃ q, t'.shortestPath starts targets depth = some q ∧ q.length ≤ p.length := by
  have hnarrow := shortestPath_spec ht starts targets depth
  rw [hp] at hnarrow
  obtain ⟨⟨a, ha, b, hb, hw⟩, hdepth, -⟩ := hnarrow
  obtain ⟨r, hr, hnodes⟩ := hw.exists_of_step h
  have hlength : r.length = p.length := congrArg List.length hnodes
  have hwide := shortestPath_spec ht' starts targets depth
  cases hq : t'.shortestPath starts targets depth with
  | none =>
    rw [hq] at hwide
    have := hwide a ha b hb r hr
    omega
  | some q =>
    rw [hq] at hwide
    have hle := (hwide.2.2 a ha b hb r hr).length_le
    exact ⟨q, rfl, hlength ▸ hle⟩

theorem enumerate_of_step (ht : t.Acyclic) (ht' : t'.Acyclic)
    (h : ∀ k l, t.Step k l → t'.Step k l) {limits limits' : Limits} {starts targets : List Key}
    (htruncated : (t'.enumerate limits' starts targets).truncated = false)
    (hp : p ∈ (t.enumerate limits starts targets).paths) :
    ∃ q ∈ (t'.enumerate limits' starts targets).paths, q.nodes = p.nodes := by
  obtain ⟨a, ha, hroute⟩ := exists_route_of_mem_paths ht hp
  obtain ⟨q, hq, hnodes⟩ := hroute.exists_of_step h
  exact ⟨q, (mem_paths_iff ht' htruncated).2 ⟨a, ha, hq⟩, hnodes⟩

theorem ofGraph_of_covers (h : f.Covers g) : ofGraph g f = ofGraph g .complete := by
  apply SortedMap.ext
  intro k
  rw [ofGraph, ofGraph, SortedMap.get?_mapValues, SortedMap.get?_mapValues]
  apply Option.map_congr
  intro node hk
  have hfollowed : followed f node.declaration = followed .complete node.declaration := by
    apply List.filterMap_congr
    rintro ⟨name, target⟩ -
    dsimp only
    rw [h.cause?_eq hk]
  rw [hfollowed]

end EdgeTable

namespace Survey

/-- Under a filter that lets more extensions pass, a tree that the depth does not cut loses nothing
that it lists, a shortest walk gets no longer, and an enumeration that is not cut short loses no
sequence of modules. If all that some module gives as a cause passes a filter, it changes
nothing. -/
theorem traversals_widen (s : Snapshot) (hs : s.Accepted) (f f' : Filter)
    (hwider : ∀ id, f.contains id → f'.contains id) (limits limits' : Limits) :
    let narrow : Survey := ⟨s, f, limits, false⟩
    let wide : Survey := ⟨s, f', limits', false⟩
    let unfiltered : Survey := ⟨s, .complete, limits, false⟩
    (∀ root depth, s.graph.size < depth → ∃ tree tree',
      (narrow.tree [root] depth).result = .ok tree ∧ (wide.tree [root] depth).result = .ok tree' ∧
        ∀ k ∈ tree.entries.map Entry.key, k ∈ tree'.entries.map Entry.key) ∧
    (∀ starts targets depth p, (narrow.path starts targets depth).result = .ok (some p) →
      ∃ q, (wide.path starts targets depth).result = .ok (some q) ∧ q.length ≤ p.length) ∧
    (∀ starts targets depth, ∃ found found',
      (narrow.allPaths starts targets depth).result = .ok found ∧
      (wide.allPaths starts targets depth).result = .ok found' ∧
        (found'.truncated = false → ∀ p ∈ found.paths, ∃ q ∈ found'.paths, q.nodes = p.nodes)) ∧
    (f.Covers s.graph → narrow.tree = unfiltered.tree ∧ narrow.path = unfiltered.path ∧
      narrow.allPaths = unfiltered.allPaths) := by
  intro narrow wide unfiltered
  have hstep : ∀ k l, narrow.table.Step k l → wide.table.Step k l := fun _ _ =>
    EdgeTable.step_mono hwider
  have hord : ∀ v : Survey, v.table.Ordered := fun v => EdgeTable.ordered_ofGraph _ _
  refine ⟨fun root depth hdepth => ?_, fun starts targets depth p hp => ?_,
    fun starts targets depth => ?_, fun hcovers => ?_⟩
  · obtain ⟨tree, htree, hlisted⟩ := exists_tree_of_leads hs f limits root hdepth
    obtain ⟨tree', htree', hlisted'⟩ := exists_tree_of_leads hs f' limits' root hdepth
    refine ⟨tree, tree', htree, htree', fun k hk => (hlisted' k).2 ?_⟩
    obtain ⟨p, hp⟩ := (hlisted k).1 hk
    obtain ⟨q, hq, -⟩ := hp.exists_of_step hstep
    exact ⟨q, hq⟩
  · have hfound : narrow.table.shortestPath starts targets depth = some p := Except.ok.inj hp
    obtain ⟨q, hq, hle⟩ := EdgeTable.shortestPath_of_step (hord narrow) (hord wide) hstep hfound
    exact ⟨q, congrArg Except.ok hq, hle⟩
  · refine ⟨_, _, rfl, rfl, fun htruncated p hp => ?_⟩
    obtain ⟨q, hq, hnodes⟩ := EdgeTable.enumerate_of_step (hs.acyclic f) (hs.acyclic f') hstep
      htruncated (List.mem_reverse.1 hp)
    exact ⟨q, List.mem_reverse.2 hq, hnodes⟩
  · have htable : narrow.table = unfiltered.table := EdgeTable.ofGraph_of_covers hcovers
    exact ⟨tree_of_table htable rfl, path_of_table htable rfl, allPaths_of_table htable rfl rfl⟩

/-- The root depends on one module because of an extension, and on another that leads to it. -/
def shortcut : Snapshot := .ofDeclared ((Snapshot.plain [
    (.root, [⟨"a", "1"⟩, ⟨"b", "1"⟩]), (⟨"a", "1"⟩, [⟨"b", "1"⟩]),
    (⟨"b", "1"⟩, [])]).adjust .root fun d => { d with
      extensionDeps := .ofList [("b", .ofList [⟨⟨"a", "1"⟩, "e", none⟩])] }) []

def shortcutFilter : Filter := .finite (.ofList [⟨⟨"a", "1"⟩, "e", none⟩])

/-- The extension opens a shorter way, and there is no other extension to let pass. -/
theorem traversals_widen_shortcut : shortcut.Accepted ∧
    (∀ id, (Filter.finite ∅).contains id → shortcutFilter.contains id) ∧
    shortcutFilter.Covers shortcut.graph ∧
    (∃ p q, (Survey.path ⟨shortcut, .finite ∅, .default, false⟩ [.root] [⟨"b", "1"⟩] 3).result =
        .ok (some p) ∧ p.length = 3 ∧
      (Survey.path ⟨shortcut, shortcutFilter, .default, false⟩ [.root] [⟨"b", "1"⟩] 3).result =
        .ok (some q) ∧ q.length ≤ p.length) ∧
    Survey.allPaths ⟨shortcut, shortcutFilter, .default, false⟩ =
      Survey.allPaths ⟨shortcut, .complete, .default, false⟩ := by
  have haccepted : shortcut.Accepted := Snapshot.accepted_ofDeclared (by cbv) (by cbv)
  have hwider : ∀ id, (Filter.finite ∅).contains id → shortcutFilter.contains id := by
    intro id hid
    simp [Filter.contains] at hid
  have hcovers : shortcutFilter.Covers shortcut.graph := by
    have hcauses : shortcut.graph.causes = [.ofList [⟨⟨"a", "1"⟩, "e", none⟩]] := by cbv
    rw [Filter.Covers, hcauses]
    intro causes hmem id hid
    obtain rfl := List.mem_singleton.1 hmem
    exact decide_eq_true hid
  have hlong : (Survey.path ⟨shortcut, .finite ∅, .default, false⟩ [.root] [⟨"b", "1"⟩] 3).result =
      .ok (some ⟨[.root, ⟨"a", "1"⟩, ⟨"b", "1"⟩], [.direct, .direct]⟩) := by cbv
  obtain ⟨-, hpath, -⟩ :=
    traversals_widen shortcut haccepted (.finite ∅) shortcutFilter hwider .default .default
  obtain ⟨q, hq, hle⟩ := hpath _ _ _ _ hlong
  obtain ⟨-, -, -, hcovered⟩ := traversals_widen shortcut haccepted shortcutFilter shortcutFilter
    (fun _ hid => hid) .default .default
  exact ⟨haccepted, hwider, hcovers, ⟨_, q, hlong, rfl, hq, hle⟩, (hcovered hcovers).2.2⟩

end Survey

end ModuleGraph
