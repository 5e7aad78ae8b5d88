import ModuleGraph.Proofs.Reachability

/-!
# The walks that end at their first target

`Route` says of a path what an enumeration looks for: it starts at one module, ends at a target and
meets no other one. `routes` lists the routes from a module of an acyclic table by recursion along
the edges; the list is complete and stands in the order of the walks.
-/
namespace ModuleGraph

namespace EdgeTable

/-- A walk from a module to a target that contains no other target. -/
def Route (t : EdgeTable) (targets : SortedSet Key) (a : Key) (p : Path) : Prop :=
  ∃ b ∈ targets, t.Walk a b p ∧ ∀ k ∈ p.nodes, k ∈ targets → k = b

variable {t : EdgeTable} {targets : SortedSet Key} {a k : Key} {p q : Path}

theorem Route.exists_nodes (h : t.Route targets a p) : ∃ ks, p.nodes = a :: ks := by
  obtain ⟨b, -, hw, -⟩ := h
  exact hw.exists_nodes

theorem route_single (hk : k ∈ targets) : t.Route targets k (.single k) :=
  ⟨k, hk, .single k, fun l hl _ => by simpa using hl⟩

theorem Route.cons (h : t.Route targets a q) (hk : k ∉ targets) {c : Cause}
    (he : ⟨a, c⟩ ∈ t.edges k) : t.Route targets k (q.cons k c) := by
  obtain ⟨b, hb, hw, hfirst⟩ := h
  refine ⟨b, hb, .cons he hw, fun l hl hlt => ?_⟩
  rcases List.mem_cons.1 hl with rfl | hl
  · exact absurd hlt hk
  · exact hfirst l hl hlt

theorem Route.cases (ht : t.Acyclic) (h : t.Route targets a p) :
    a ∈ targets ∧ p = .single a ∨
      a ∉ targets ∧ ∃ e ∈ t.edges a, ∃ q, t.Route targets e.target q ∧ p = q.cons a e.cause := by
  obtain ⟨b, hb, hw, hfirst⟩ := h
  have hd := hw.nodup ht
  cases hw with
  | single => exact .inl ⟨hb, rfl⟩
  | @cons _ _ e q he hw =>
    have hne : a ≠ b := by
      rintro rfl
      exact (List.nodup_cons.1 hd).1 hw.last_mem
    refine .inr ⟨fun ha => hne (hfirst a List.mem_cons_self ha), e, he, q, ?_, rfl⟩
    exact ⟨b, hb, hw, fun k hk => hfirst k (List.mem_cons_of_mem a hk)⟩

theorem exists_route (hb : ∃ b ∈ targets, t.Leads k b) : ∃ p, t.Route targets k p := by
  obtain ⟨b, hb, p, hp⟩ := hb
  induction hp with
  | single k => exact ⟨_, route_single hb⟩
  | @cons k b e p he _ ih =>
    by_cases hk : k ∈ targets
    · exact ⟨_, route_single hk⟩
    · obtain ⟨q, hq⟩ := ih hb
      exact ⟨_, hq.cons hk he⟩

/-- All routes from a module, those along earlier edges first. -/
def routes (t : EdgeTable) (ht : t.Acyclic) (targets : SortedSet Key) (k : Key) : List Path :=
  if k ∈ targets then [.single k]
  else (t.edges k).attach.flatMap fun e =>
    (routes t ht targets e.1.target).map (·.cons k e.1.cause)
termination_by ht.wellFounded_children.wrap k
decreasing_by exact ⟨e.1, e.2, rfl⟩

variable (ht : t.Acyclic)

theorem routes_of_mem (hk : k ∈ targets) : t.routes ht targets k = [.single k] := by
  rw [routes, if_pos hk]

theorem routes_of_not_mem (hk : k ∉ targets) : t.routes ht targets k =
    (t.edges k).flatMap fun e => (t.routes ht targets e.target).map (·.cons k e.cause) := by
  rw [routes, if_neg hk, List.flatMap_subtype, List.unattach_attach]
  exact fun _ _ => rfl

theorem mem_routes : p ∈ t.routes ht targets k ↔ t.Route targets k p := by
  induction k using ht.wellFounded_children.induction generalizing p with
  | _ k ih =>
  by_cases hk : k ∈ targets
  · rw [routes_of_mem ht hk, List.mem_singleton]
    constructor
    · rintro rfl
      exact route_single hk
    · intro h
      rcases h.cases ht with ⟨-, rfl⟩ | ⟨hn, -⟩
      · rfl
      · exact absurd hk hn
  · simp only [routes_of_not_mem ht hk, List.mem_flatMap, List.mem_map]
    constructor
    · rintro ⟨e, he, q, hq, rfl⟩
      exact ((ih _ ⟨e, he, rfl⟩).1 hq).cons hk he
    · intro h
      rcases h.cases ht with ⟨hkt, -⟩ | ⟨-, e, he, q, hq, rfl⟩
      · exact absurd hkt hk
      · exact ⟨e, he, q, (ih _ ⟨e, he, rfl⟩).2 hq, rfl⟩

theorem routes_eq_nil_iff :
    t.routes ht targets k = [] ↔ ¬ ∃ b ∈ targets, t.Leads k b := by
  rw [List.eq_nil_iff_forall_not_mem]
  constructor
  · intro h hb
    obtain ⟨p, hp⟩ := exists_route hb
    exact h p ((mem_routes ht).2 hp)
  · intro h p hp
    obtain ⟨b, hb, hw, -⟩ := (mem_routes ht).1 hp
    exact h ⟨b, hb, p, hw⟩

theorem before_of_heads {b : Key} (h : compare a b = .lt) (hp : ∃ ks, p.nodes = a :: ks)
    (hq : ∃ ks, q.nodes = b :: ks) : Before p.nodes q.nodes := by
  obtain ⟨ks, hks⟩ := hp
  obtain ⟨ls, hls⟩ := hq
  rw [hks, hls]
  exact .rel h

theorem before_of_route {b : Key} (h : compare a b = .lt) (hp : t.Route targets a p)
    (hq : t.Route targets b q) : Before p.nodes q.nodes :=
  before_of_heads h hp.exists_nodes hq.exists_nodes

theorem routes_ordered (hord : t.Ordered) (targets : SortedSet Key) (k : Key) :
    (t.routes ht targets k).Pairwise fun p q => Before p.nodes q.nodes := by
  induction k using ht.wellFounded_children.induction with
  | _ k ih =>
  by_cases hk : k ∈ targets
  · simp [routes_of_mem ht hk]
  · rw [routes_of_not_mem ht hk, List.pairwise_flatMap]
    constructor
    · intro e he
      refine List.pairwise_map.2 ((ih _ ⟨e, he, rfl⟩).imp fun h => ?_)
      exact .cons h
    · refine (hord k).imp fun hlt p hp q hq => ?_
      obtain ⟨p', hp', rfl⟩ := List.mem_map.1 hp
      obtain ⟨q', hq', rfl⟩ := List.mem_map.1 hq
      exact .cons (before_of_route hlt ((mem_routes ht).1 hp') ((mem_routes ht).1 hq'))

theorem flatMap_routes_ordered (hord : t.Ordered) (targets starts : SortedSet Key) :
    (starts.toList.flatMap (t.routes ht targets)).Pairwise fun p q => Before p.nodes q.nodes := by
  rw [List.pairwise_flatMap]
  refine ⟨fun a _ => routes_ordered ht hord targets a, starts.increasing.imp ?_⟩
  intro a b hlt p hp q hq
  exact before_of_route hlt ((mem_routes ht).1 hp) ((mem_routes ht).1 hq)

end EdgeTable

end ModuleGraph
