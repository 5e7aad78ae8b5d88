import ModuleGraph.Proofs.Routes

/-!
# The beginnings of routes

A beginning is what a route has gone through up to one of its modules. `beginnings` lists those of
the routes from a module by the recursion of `routes`, each once and before what goes on from it.
The list stands in the order of the walks, and the beginnings that end at a target are the routes.
-/
namespace ModuleGraph

variable {t : EdgeTable} {targets : SortedSet Key} {k : Key} {p q : Path}

namespace Path

def arrives (targets : SortedSet Key) (p : Path) : Bool := p.last?.any (· ∈ targets)

theorem arrives_iff : p.arrives targets = true ↔ ∃ b ∈ targets, p.last? = some b := by
  cases hp : p.last? <;> simp [arrives, hp]

@[simp] theorem arrives_single : (single k).arrives targets = decide (k ∈ targets) := rfl

theorem arrives_cons (h : ∃ l ks, p.nodes = l :: ks) (c : Cause) :
    (p.cons k c).arrives targets = p.arrives targets := by
  obtain ⟨l, ks, h⟩ := h
  simp [arrives, last?, h]

end Path

namespace EdgeTable

theorem Route.arrives (h : t.Route targets k p) : p.arrives targets = true := by
  obtain ⟨b, hb, hw, -⟩ := h
  exact Path.arrives_iff.2 ⟨b, hb, hw.last?⟩

/-- All beginnings of routes from a module, those along earlier edges first. -/
def beginnings (t : EdgeTable) (ht : t.Acyclic) (targets : SortedSet Key) (k : Key) : List Path :=
  if k ∈ targets then [.single k]
  else if t.routes ht targets k = [] then []
  else .single k :: (t.edges k).attach.flatMap fun e =>
    (beginnings t ht targets e.1.target).map (·.cons k e.1.cause)
termination_by ht.wellFounded_children.wrap k
decreasing_by exact ⟨e.1, e.2, rfl⟩

variable (ht : t.Acyclic)

theorem beginnings_of_mem (hk : k ∈ targets) : t.beginnings ht targets k = [.single k] := by
  rw [beginnings, if_pos hk]

theorem beginnings_of_routes_eq_nil (h : t.routes ht targets k = []) :
    t.beginnings ht targets k = [] := by
  have hk : k ∉ targets := fun hk => by simp [routes_of_mem ht hk] at h
  rw [beginnings, if_neg hk, if_pos h]

theorem beginnings_of_not_mem (hk : k ∉ targets) (h : t.routes ht targets k ≠ []) :
    t.beginnings ht targets k = .single k ::
      (t.edges k).flatMap fun e => (t.beginnings ht targets e.target).map (·.cons k e.cause) := by
  rw [beginnings, if_neg hk, if_neg h, List.flatMap_subtype, List.unattach_attach]
  exact fun _ _ => rfl

theorem exists_nodes_of_mem_beginnings (hp : p ∈ t.beginnings ht targets k) :
    ∃ ks, p.nodes = k :: ks := by
  by_cases hk : k ∈ targets
  · rw [beginnings_of_mem ht hk, List.mem_singleton] at hp
    exact ⟨[], by rw [hp, Path.nodes_single]⟩
  · by_cases hnil : t.routes ht targets k = []
    · simp [beginnings_of_routes_eq_nil ht hnil] at hp
    · rw [beginnings_of_not_mem ht hk hnil, List.mem_cons, List.mem_flatMap] at hp
      rcases hp with rfl | ⟨e, -, hp⟩
      · exact ⟨[], rfl⟩
      · obtain ⟨q, -, rfl⟩ := List.mem_map.1 hp
        exact ⟨q.nodes, rfl⟩

/-- The beginnings that end at a target are the routes. -/
theorem filter_beginnings (targets : SortedSet Key) (k : Key) :
    (t.beginnings ht targets k).filter (·.arrives targets) = t.routes ht targets k := by
  induction k using ht.wellFounded_children.induction with
  | _ k ih =>
  by_cases hk : k ∈ targets
  · simp [beginnings_of_mem ht hk, routes_of_mem ht hk, hk]
  · by_cases hnil : t.routes ht targets k = []
    · rw [beginnings_of_routes_eq_nil ht hnil, hnil, List.filter_nil]
    · rw [beginnings_of_not_mem ht hk hnil, routes_of_not_mem ht hk,
        List.filter_cons_of_neg (by simpa using hk), List.filter_flatMap]
      refine List.flatMap_congr fun e he => ?_
      rw [List.filter_map, ← ih e.target ⟨e, he, rfl⟩]
      refine congrArg _ (List.filter_congr fun q hq => ?_)
      exact Path.arrives_cons ⟨_, exists_nodes_of_mem_beginnings ht hq⟩ _

theorem routes_subset_beginnings : t.routes ht targets k ⊆ t.beginnings ht targets k := by
  rw [← filter_beginnings]
  exact List.filter_subset_self _

theorem mem_nodes_beginnings {v : List Key} :
    v ∈ (t.beginnings ht targets k).map Path.nodes ↔
      v ≠ [] ∧ ∃ p ∈ t.routes ht targets k, v <+: p.nodes := by
  induction k using ht.wellFounded_children.induction generalizing v with
  | _ k ih =>
  by_cases hk : k ∈ targets
  · rw [beginnings_of_mem ht hk, routes_of_mem ht hk]
    cases v <;> simp [List.cons_prefix_cons, List.prefix_nil]
  by_cases hnil : t.routes ht targets k = []
  · simp [beginnings_of_routes_eq_nil ht hnil, hnil]
  constructor
  · intro hv
    obtain ⟨p, hp, rfl⟩ := List.mem_map.1 hv
    rw [beginnings_of_not_mem ht hk hnil, List.mem_cons, List.mem_flatMap] at hp
    rcases hp with rfl | ⟨e, he, hp⟩
    · obtain ⟨r, hr⟩ := List.exists_mem_of_ne_nil _ hnil
      obtain ⟨ks, hks⟩ := ((mem_routes ht).1 hr).exists_nodes
      exact ⟨List.cons_ne_nil k [], r, hr, by simp [hks]⟩
    · obtain ⟨q, hq, rfl⟩ := List.mem_map.1 hp
      obtain ⟨-, r, hr, hqr⟩ := (ih e.target ⟨e, he, rfl⟩).1 (List.mem_map_of_mem hq)
      refine ⟨List.cons_ne_nil k _, r.cons k e.cause, ?_, List.cons_prefix_cons.2 ⟨rfl, hqr⟩⟩
      rw [mem_routes] at hr ⊢
      exact hr.cons hk he
  · rintro ⟨hne, p, hp, hv⟩
    rw [routes_of_not_mem ht hk, List.mem_flatMap] at hp
    obtain ⟨e, he, hp⟩ := hp
    obtain ⟨r, hr, rfl⟩ := List.mem_map.1 hp
    obtain ⟨w, rfl, hw⟩ := (List.prefix_cons_iff.1 hv).resolve_left hne
    rw [beginnings_of_not_mem ht hk hnil]
    by_cases hw0 : w = []
    · simp [hw0]
    · obtain ⟨q, hq, rfl⟩ := List.mem_map.1 ((ih e.target ⟨e, he, rfl⟩).2 ⟨hw0, r, hr, hw⟩)
      refine List.mem_map.2 ⟨q.cons k e.cause, List.mem_cons_of_mem _ ?_, rfl⟩
      exact List.mem_flatMap.2 ⟨e, he, List.mem_map_of_mem hq⟩

theorem beginnings_ordered (hord : t.Ordered) (targets : SortedSet Key) (k : Key) :
    (t.beginnings ht targets k).Pairwise fun p q => Before p.nodes q.nodes := by
  induction k using ht.wellFounded_children.induction with
  | _ k ih =>
  by_cases hk : k ∈ targets
  · simp [beginnings_of_mem ht hk]
  by_cases hnil : t.routes ht targets k = []
  · rw [beginnings_of_routes_eq_nil ht hnil]
    exact .nil
  rw [beginnings_of_not_mem ht hk hnil, List.pairwise_cons, List.pairwise_flatMap]
  refine ⟨fun p hp => ?_, fun e he => ?_, (hord k).imp fun hlt p hp q hq => ?_⟩
  · obtain ⟨e, -, hp⟩ := List.mem_flatMap.1 hp
    obtain ⟨q, hq, rfl⟩ := List.mem_map.1 hp
    obtain ⟨ks, hks⟩ := exists_nodes_of_mem_beginnings ht hq
    rw [Path.nodes_cons, hks]
    exact .cons .nil
  · refine List.pairwise_map.2 ((ih _ ⟨e, he, rfl⟩).imp fun h => ?_)
    exact .cons h
  · obtain ⟨p', hp', rfl⟩ := List.mem_map.1 hp
    obtain ⟨q', hq', rfl⟩ := List.mem_map.1 hq
    exact .cons (before_of_heads hlt (exists_nodes_of_mem_beginnings ht hp')
      (exists_nodes_of_mem_beginnings ht hq'))

theorem filter_flatMap_beginnings (targets : SortedSet Key) (starts : List Key) :
    (starts.flatMap (t.beginnings ht targets)).filter (·.arrives targets) =
      starts.flatMap (t.routes ht targets) := by
  rw [List.filter_flatMap]
  exact List.flatMap_congr fun a _ => filter_beginnings ht targets a

theorem mem_nodes_flatMap_beginnings {starts : List Key} {v : List Key} :
    v ∈ (starts.flatMap (t.beginnings ht targets)).map Path.nodes ↔
      v ≠ [] ∧ ∃ p ∈ starts.flatMap (t.routes ht targets), v <+: p.nodes := by
  rw [List.map_flatMap, List.mem_flatMap]
  simp only [mem_nodes_beginnings, List.mem_flatMap]
  tauto

theorem flatMap_beginnings_ordered (hord : t.Ordered) (targets starts : SortedSet Key) :
    (starts.toList.flatMap (t.beginnings ht targets)).Pairwise fun p q =>
      Before p.nodes q.nodes := by
  rw [List.pairwise_flatMap]
  refine ⟨fun a _ => beginnings_ordered ht hord targets a, starts.increasing.imp ?_⟩
  intro a b hlt p hp q hq
  exact before_of_heads hlt (exists_nodes_of_mem_beginnings ht hp)
    (exists_nodes_of_mem_beginnings ht hq)

end EdgeTable

end ModuleGraph
