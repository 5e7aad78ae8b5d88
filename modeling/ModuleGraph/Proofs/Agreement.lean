import ModuleGraph.Proofs.AllPaths
import ModuleGraph.Proofs.ShortestPath
import ModuleGraph.Proofs.Tree

/-!
# The traversals agree

An enumeration that is not cut short holds every route, so it can be compared with the other two
traversals. A shortest walk to a target is a route, since a target on the way would be nearer; so
the search finds the route that comes first by length and then by its modules. A tree that the
depth does not cut comes to each module first by the route that comes first by its modules alone.
-/
namespace ModuleGraph

namespace EdgeTable

variable {t : EdgeTable} {limits : Limits} {starts targets : List Key} {depth : ℕ}
  {a b k root : Key} {p : Path}

theorem Walk.exists_shorter (h : t.Walk a b p) (hk : k ∈ p.nodes) :
    k = b ∨ ∃ q, t.Walk a k q ∧ q.length < p.length := by
  induction h with
  | single a => exact .inl (List.mem_singleton.1 hk)
  | @cons a b e p he hw ih =>
    rcases List.mem_cons.1 hk with rfl | hk
    · have hpos : 0 < p.nodes.length := List.length_pos_of_mem hw.head_mem
      exact .inr ⟨.single k, .single k, by simpa [Path.length] using hpos⟩
    · rcases ih hk with hkb | ⟨q, hq, hlt⟩
      · exact .inl hkb
      · exact .inr ⟨q.cons a e.cause, .cons he hq, by simpa [Path.length] using hlt⟩

theorem Walk.route_of_shortest (hw : t.Walk a b p) (hb : b ∈ targets)
    (hmin : ∀ c ∈ targets, ∀ q, t.Walk a c q → p.length ≤ q.length) :
    t.Route (.ofList targets) a p := by
  refine ⟨b, SortedSet.mem_ofList.2 hb, hw, fun k hk htarget => ?_⟩
  rcases hw.exists_shorter hk with hkb | ⟨q, hq, hlt⟩
  · exact hkb
  · have hle := hmin k (SortedSet.mem_ofList.1 htarget) q hq
    omega

theorem shortestPath_of_not_truncated (ht : t.Acyclic) (hord : t.Ordered)
    (hroom : ∀ a b p, t.Walk a b p → p.length ≤ depth)
    (htruncated : (t.enumerate limits starts targets).truncated = false) :
    match t.shortestPath starts targets depth with
    | none => (t.enumerate limits starts targets).paths = []
    | some p => p ∈ (t.enumerate limits starts targets).paths ∧
        ∀ q ∈ (t.enumerate limits starts targets).paths, NoLater p q := by
  have hspec := shortestPath_spec hord starts targets depth
  cases hfound : t.shortestPath starts targets depth with
  | none =>
    rw [hfound] at hspec
    refine List.eq_nil_iff_forall_not_mem.2 fun q hq => ?_
    obtain ⟨a, ha, b, hb, hw⟩ := exists_walk_of_mem_paths ht hq
    have hlt := hspec a ha b hb q hw
    have hle := hroom a b q hw
    omega
  | some p =>
    rw [hfound] at hspec
    obtain ⟨⟨a, ha, b, hb, hw⟩, -, hleast⟩ := hspec
    have hroute : t.Route (.ofList targets) a p :=
      hw.route_of_shortest hb fun c hc q hq => (hleast a ha c hc q hq).length_le
    refine ⟨(mem_paths_iff ht htruncated).2 ⟨a, ha, hroute⟩, fun q hq => ?_⟩
    obtain ⟨c, hc, d, hd, hq⟩ := exists_walk_of_mem_paths ht hq
    exact hleast c hc d hd q hq

theorem isSome_shortestPath_iff (hord : t.Ordered)
    (hroom : ∀ a b p, t.Walk a b p → p.length ≤ depth) :
    (t.shortestPath [a] [b] depth).isSome ↔ t.Leads a b := by
  have hspec := shortestPath_spec hord [a] [b] depth
  cases hfound : t.shortestPath [a] [b] depth with
  | none =>
    rw [hfound] at hspec
    refine iff_of_false (by simp) fun ⟨q, hq⟩ => ?_
    have hlt := hspec a List.mem_cons_self b List.mem_cons_self q hq
    have hle := hroom a b q hq
    omega
  | some p =>
    rw [hfound] at hspec
    obtain ⟨⟨c, hc, d, hd, hw⟩, -⟩ := hspec
    obtain rfl := List.mem_singleton.1 hc
    obtain rfl := List.mem_singleton.1 hd
    exact iff_of_true rfl ⟨p, hw⟩

/-- A tree that the depth does not cut comes to a module first by the first route to it. -/
theorem Listing.head?_routes {items before after : List Item} {x : Item}
    (h : t.TreeListing depth root items) (hroom : ∀ k p, t.Walk root k p → p.length < depth)
    (ht : t.Acyclic) (hord : t.Ordered) (hsplit : items = before ++ x :: after)
    (hfirst : ∀ y ∈ before, y.key ≠ x.key) :
    (t.routes ht (.ofList [x.key]) root).head? = some x.path := by
  have hx : x ∈ items := by
    rw [hsplit]
    exact List.mem_append_right _ List.mem_cons_self
  have hopen : x.Opens depth :=
    (h.opens_iff hroom hx).2 ((h.referenceOnly_iff hroom hsplit).2 hfirst)
  have hroute : x.path ∈ t.routes ht (.ofList [x.key]) root :=
    (mem_routes ht).2 ⟨x.key, by simp, (h.walk x hx).1, fun k _ hk => by simpa using hk⟩
  cases hroutes : t.routes ht (.ofList [x.key]) root with
  | nil => simp [hroutes] at hroute
  | cons p rest =>
    have hall := routes_ordered ht hord (.ofList [x.key]) root
    rw [hroutes] at hall hroute
    rcases List.mem_cons.1 hroute with heq | hrest
    · rw [heq, List.head?_cons]
    · have hlt : Before p.nodes x.path.nodes := (List.pairwise_cons.1 hall).1 x.path hrest
      have hp : p ∈ t.routes ht (.ofList [x.key]) root := hroutes ▸ List.mem_cons_self
      obtain ⟨c, hc, hw, -⟩ := (mem_routes ht).1 hp
      obtain rfl : c = x.key := by simpa using hc
      rcases h.nodes_least hroom ht hx hopen hw with heq | hgt
      · exact absurd (heq ▸ hlt) (Before.irrefl _)
      · exact absurd hgt hlt.asymm

end EdgeTable

namespace Survey

/-- Under limits that do not cut the enumeration short, the walk that the search finds is the first
of the enumerated ones by length and then by modules; there is none just if there are none. The
tree of a root lists just the modules that the search finds a walk to, and the walk to the first
entry of a module is the first of the enumerated ones. -/
theorem traversals_agree (s : Snapshot) (hs : s.Accepted) (f : Filter) (limits : Limits)
    (depth : ℕ) (hdepth : s.graph.size < depth) :
    let survey : Survey := ⟨s, f, limits, false⟩
    (∀ starts targets below, ∃ best found,
      (survey.path starts targets depth).result = .ok best ∧
      (survey.allPaths starts targets below).result = .ok found ∧
      (found.truncated = false → (best = none ↔ found.paths = []) ∧
        ∀ p, best = some p → p ∈ found.paths ∧ ∀ q ∈ found.paths, NoLater p q)) ∧
    ∀ root k below, ∃ tree best found, (survey.tree [root] depth).result = .ok tree ∧
      (survey.path [root] [k] depth).result = .ok best ∧
      (survey.allPaths [root] [k] below).result = .ok found ∧
      (k ∈ tree.entries.map Entry.key ↔ best.isSome) ∧
      (found.truncated = false → ∀ before x after, tree.entries = before ++ x :: after →
        x.key = k → (∀ y ∈ before, y.key ≠ k) →
          ∃ p, found.paths.head? = some p ∧ Tree.chain before x = p.nodes) := by
  intro survey
  have hac : survey.table.Acyclic := hs.acyclic f
  have hord : survey.table.Ordered := EdgeTable.ordered_ofGraph _ _
  have hroom : ∀ a b p, survey.table.Walk a b p → p.length < depth := fun a b p hp =>
    (hs.length_le_size f hp).trans_lt hdepth
  refine ⟨fun starts targets below => ⟨_, _, rfl, rfl, fun htruncated => ?_⟩,
    fun root k below => ?_⟩
  · have htruncated : (survey.table.enumerate limits starts targets).truncated = false := htruncated
    have hagree := EdgeTable.shortestPath_of_not_truncated hac hord
      (fun a b p hp => (hroom a b p hp).le) htruncated
    cases hbest : survey.table.shortestPath starts targets depth with
    | none =>
      rw [hbest] at hagree
      exact ⟨iff_of_true rfl (List.reverse_eq_nil_iff.2 hagree), by simp⟩
    | some p =>
      rw [hbest] at hagree
      obtain ⟨hp, hleast⟩ := hagree
      have hp : p ∈ (survey.table.enumerate limits starts targets).paths.reverse :=
        List.mem_reverse.2 hp
      refine ⟨iff_of_false (by simp) (List.ne_nil_of_mem hp), ?_⟩
      rintro _ ⟨⟩
      exact ⟨hp, fun q hq => hleast q (List.mem_reverse.1 hq)⟩
  · obtain ⟨items, hitems, h⟩ := EdgeTable.exists_treeListing hord depth root
    refine ⟨⟨items.map Item.entry⟩, _, _, ?_, rfl, rfl, ?_, fun htruncated => ?_⟩
    · change Except.ok (survey.table.tree [root] depth) = _
      rw [EdgeTable.tree_singleton, hitems]
    · rw [h.mem_keys_iff (hroom root)]
      exact (EdgeTable.isSome_shortestPath_iff hord fun a b p hp => (hroom a b p hp).le).symm
    · intro before x after hsplit hx hfirst
      obtain ⟨front, rest, hsplit', rfl, hrest⟩ := List.map_eq_append_iff.1 hsplit
      obtain ⟨y, back, rfl, rfl, rfl⟩ := List.map_eq_cons_iff.1 hrest
      obtain rfl : y.key = k := hx
      have hfront : ∀ z ∈ front, z.key ≠ y.key := fun z hz =>
        hfirst z.entry (List.mem_map_of_mem hz)
      refine ⟨y.path, ?_, h.chain_eq_nodes hsplit'⟩
      rw [← h.head?_routes (hroom root) hac hord hsplit' hfront]
      have hpaths := EdgeTable.paths_of_not_truncated hac htruncated
      exact congrArg List.head? (hpaths.trans (List.flatMap_singleton _ root))

set_option maxRecDepth 4000 in
/-- Of the two walks through a triangle the search finds the shorter one; the tree takes the other
one first, as the enumeration does. -/
theorem traversals_agree_triangle :
    let survey : Survey := ⟨Snapshot.triangle, .complete, .default, false⟩
    Snapshot.triangle.Accepted ∧ Snapshot.triangle.graph.size < 4 ∧ ∃ best found,
      (survey.path [.root] [⟨"b", "1"⟩] 4).result = .ok (some best) ∧
      (survey.allPaths [.root] [⟨"b", "1"⟩] 4).result = .ok found ∧
      best ∈ found.paths ∧ (∀ q ∈ found.paths, NoLater best q) ∧
      ∃ p, found.paths.head? = some p ∧ p.nodes = [.root, ⟨"a", "1"⟩, ⟨"b", "1"⟩] := by
  intro survey
  have hsize : Snapshot.triangle.graph.size < 4 := by decide
  obtain ⟨hpaths, htrees⟩ :=
    traversals_agree Snapshot.triangle Snapshot.triangle_accepted .complete .default 4 hsize
  obtain ⟨best, found, hbest, hfound, hagree⟩ := hpaths [.root] [⟨"b", "1"⟩] 4
  obtain ⟨tree, best', found', htree, hbest', hfound', hlisted, hfirst⟩ :=
    htrees .root ⟨"b", "1"⟩ 4
  obtain rfl : found = found' := Except.ok.inj (hfound.symm.trans hfound')
  have hwhole : (survey.allPaths [.root] [⟨"b", "1"⟩] 4).result.toOption.map
      AllPaths.truncated = some false := by cbv
  rw [hfound] at hwhole
  have hwhole : found.truncated = false := Option.some.inj hwhole
  have hentries : (survey.tree [.root] 4).result = .ok ⟨[⟨.root, 0, false, none⟩,
      ⟨⟨"a", "1"⟩, 1, false, some .direct⟩] ++ ⟨⟨"b", "1"⟩, 2, false, some .direct⟩ ::
        [⟨⟨"b", "1"⟩, 1, true, some .direct⟩]⟩ := by cbv
  obtain rfl := Except.ok.inj (htree.symm.trans hentries)
  obtain ⟨p, hhead, hchain⟩ := hfirst hwhole _ _ _ rfl rfl (by decide)
  have hsome : best.isSome := by
    obtain rfl : best = best' := Except.ok.inj (hbest.symm.trans hbest')
    exact hlisted.1 (by simp)
  obtain ⟨q, rfl⟩ := Option.isSome_iff_exists.1 hsome
  obtain ⟨hmem, hleast⟩ := (hagree hwhole).2 q rfl
  exact ⟨Snapshot.triangle_accepted, hsize, q, found, hbest, hfound, hmem, hleast, p, hhead,
    hchain.symm⟩

end Survey

end ModuleGraph
