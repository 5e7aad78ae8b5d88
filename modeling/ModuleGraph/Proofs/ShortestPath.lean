import ModuleGraph.Proofs.EdgeTable

/-!
# The layers of the search for a shortest walk

`NoLater` is the order in which a search prefers walks: fewer modules first, then the smaller
sequence of modules. `Layer` says what the search knows before it looks at a layer: the layer
holds, for each module at that distance from the starts, the walk that comes first, and it stands
in the order of these walks. The invariant is handed on from layer to layer, so the first hit is
the best one, whether or not the table is acyclic.
-/
namespace ModuleGraph

/-- A walk is preferred to another, or they visit the same modules. -/
def NoLater (p q : Path) : Prop :=
  p.length < q.length ∨ p.length = q.length ∧ (p.nodes = q.nodes ∨ Before p.nodes q.nodes)

namespace NoLater

variable {p q r : Path}

theorem length_le (h : NoLater p q) : p.length ≤ q.length := by
  rcases h with h | ⟨h, -⟩ <;> omega

theorem trans (h : NoLater p q) (h' : NoLater q r) : NoLater p r := by
  rcases h with h | ⟨hl, h⟩
  · exact .inl (h.trans_le h'.length_le)
  · rcases h' with h' | ⟨hl', h'⟩
    · exact .inl (hl ▸ h')
    · refine .inr ⟨hl.trans hl', ?_⟩
      rcases h with h | h
      · rwa [h]
      · rcases h' with h' | h'
        · exact .inr (h' ▸ h)
        · exact .inr (h.trans h')

theorem extend (h : NoLater p q) {e f : Edge} (ht : e.target = f.target) :
    NoLater (p.extend e) (q.extend f) := by
  rcases h with h | ⟨hl, h⟩
  · exact .inl (by simpa using h)
  · refine .inr ⟨by simpa using hl, ?_⟩
    rcases h with h | h
    · exact .inl (by simp [h, ht])
    · exact .inr (by simpa [ht] using h.append_of_length_eq hl [f.target] [f.target])

end NoLater

namespace EdgeTable

variable {t : EdgeTable}

section FirstArrivals

theorem firstArrivals_seen {k : Key} (seen : SortedSet Key) (xs : List Arrival) :
    k ∈ (firstArrivals seen xs).2 ↔ k ∈ seen ∨ ∃ x ∈ xs, x.key = k := by
  induction xs generalizing seen with
  | nil => simp [firstArrivals]
  | cons x xs ih =>
    by_cases hx : x.key ∈ seen
    · simp only [firstArrivals, hx, if_true, ih, List.exists_mem_cons_iff]
      constructor
      · intro h
        exact h.imp_right .inr
      · rintro (h | rfl | h)
        · exact .inl h
        · exact .inl hx
        · exact .inr h
    · simp only [firstArrivals, hx, if_false, ih, SortedSet.mem_insert, List.exists_mem_cons_iff,
        eq_comm (a := k)]
      exact or_assoc.trans or_left_comm

theorem firstArrivals_sublist (seen : SortedSet Key) (xs : List Arrival) :
    (firstArrivals seen xs).1.Sublist xs := by
  induction xs generalizing seen with
  | nil => simp [firstArrivals]
  | cons x xs ih =>
    by_cases hx : x.key ∈ seen
    · simpa only [firstArrivals, hx, if_true] using (ih seen).cons x
    · simpa only [firstArrivals, hx, if_false] using (ih (seen.insert x.key)).cons_cons x

theorem not_seen_of_mem_firstArrivals {seen : SortedSet Key} {xs : List Arrival} {x : Arrival}
    (h : x ∈ (firstArrivals seen xs).1) : x.key ∉ seen := by
  induction xs generalizing seen with
  | nil => simp [firstArrivals] at h
  | cons y xs ih =>
    by_cases hy : y.key ∈ seen
    · simp only [firstArrivals, hy, if_true] at h
      exact ih h
    · simp only [firstArrivals, hy, if_false, List.mem_cons] at h
      rcases h with rfl | h
      · exact hy
      · exact fun hx => ih h (by simp [hx])

theorem exists_firstArrival {seen : SortedSet Key} {xs : List Arrival} {y : Arrival}
    (hy : y ∈ xs) (hk : y.key ∉ seen) : ∃ x ∈ (firstArrivals seen xs).1, x.key = y.key := by
  induction xs generalizing seen with
  | nil => simp at hy
  | cons x xs ih =>
    by_cases hx : x.key ∈ seen
    · simp only [firstArrivals, hx, if_true]
      rcases List.mem_cons.1 hy with rfl | hy
      · exact absurd hx hk
      · exact ih hy hk
    · simp only [firstArrivals, hx, if_false]
      by_cases he : y.key = x.key
      · exact ⟨x, by simp, he.symm⟩
      · have hy := (List.mem_cons.1 hy).resolve_left fun h => he (h ▸ rfl)
        have hk : y.key ∉ seen.insert x.key := by simp [he, hk]
        obtain ⟨z, hz, hzk⟩ := ih hy hk
        exact ⟨z, by simp [hz], hzk⟩

theorem rel_of_mem_firstArrivals {R : Arrival → Arrival → Prop} {seen : SortedSet Key}
    {xs : List Arrival} (hxs : xs.Pairwise R) {x y : Arrival}
    (hx : x ∈ (firstArrivals seen xs).1) (hy : y ∈ xs) (hk : y.key = x.key) : x = y ∨ R x y := by
  induction xs generalizing seen with
  | nil => simp at hy
  | cons z xs ih =>
    obtain ⟨hz, hxs⟩ := List.pairwise_cons.1 hxs
    by_cases hs : z.key ∈ seen
    · have hx' := hx
      simp only [firstArrivals, hs, if_true] at hx
      rcases List.mem_cons.1 hy with rfl | hy
      · exact absurd (hk ▸ hs) (not_seen_of_mem_firstArrivals hx')
      · exact ih hxs hx hy
    · simp only [firstArrivals, hs, if_false, List.mem_cons] at hx
      rcases hx with rfl | hx
      · rcases List.mem_cons.1 hy with rfl | hy
        · exact .inl rfl
        · exact .inr (hz y hy)
      · rcases List.mem_cons.1 hy with rfl | hy
        · exact absurd (by simp [hk]) (not_seen_of_mem_firstArrivals hx)
        · exact ih hxs hx hy

end FirstArrivals

section Layers

/-- The first `n` layers are searched up to the one that holds the walks of `n` modules. -/
structure Layer (t : EdgeTable) (starts : SortedSet Key) (n : ℕ) (layer : List Arrival)
    (seen : SortedSet Key) : Prop where
  pos : 1 ≤ n
  walk : ∀ x ∈ layer, (∃ a ∈ starts, t.Walk a x.key x.path) ∧ x.path.length = n
  least : ∀ x ∈ layer, ∀ a ∈ starts, ∀ q, t.Walk a x.key q → NoLater x.path q
  ordered : layer.Pairwise (fun x y => Before x.path.nodes y.path.nodes)
  seen_iff : ∀ k, k ∈ seen ↔ ∃ a ∈ starts, ∃ q, t.Walk a k q ∧ q.length ≤ n
  complete : ∀ a ∈ starts, ∀ k q, t.Walk a k q → q.length = n →
    (∃ x ∈ layer, x.key = k) ∨ ∃ b ∈ starts, ∃ r, t.Walk b k r ∧ r.length < n

variable {starts targets seen : SortedSet Key} {n : ℕ} {layer : List Arrival}

theorem length_pos {a b : Key} {p : Path} (h : t.Walk a b p) : 1 ≤ p.length := by
  simp [Path.length, h.length_nodes]

theorem eq_single_of_length_one {a b : Key} {p : Path} (h : t.Walk a b p) (hl : p.length ≤ 1) :
    p = .single a ∧ b = a := by
  rcases h.eq_single_or_snoc with h | ⟨c, q, e, -, hq, -, rfl⟩
  · exact h
  · have := length_pos hq
    simp only [Path.length_extend] at hl
    omega

theorem layer_starts (t : EdgeTable) (starts : SortedSet Key) :
    t.Layer starts 1 (starts.toList.map fun k => ⟨k, .single k⟩) starts where
  pos := le_rfl
  walk := by
    intro x hx
    obtain ⟨k, hk, rfl⟩ := List.mem_map.1 hx
    exact ⟨⟨k, hk, .single k⟩, rfl⟩
  least := by
    intro x hx a _ q hq
    obtain ⟨k, hk, rfl⟩ := List.mem_map.1 hx
    rcases (length_pos hq).lt_or_eq with hl | hl
    · exact .inl hl
    · obtain ⟨rfl, rfl⟩ := eq_single_of_length_one hq hl.ge
      exact .inr ⟨rfl, .inl rfl⟩
  ordered := List.pairwise_map.2 (starts.increasing.imp fun h => .rel h)
  seen_iff := by
    intro k
    refine ⟨fun hk => ⟨k, hk, _, .single k, le_rfl⟩, ?_⟩
    rintro ⟨a, ha, q, hq, hl⟩
    exact (eq_single_of_length_one hq hl).2 ▸ ha
  complete := by
    intro a ha k q hq hl
    obtain ⟨-, rfl⟩ := eq_single_of_length_one hq hl.le
    exact .inl ⟨_, List.mem_map.2 ⟨_, ha, rfl⟩, rfl⟩

theorem ordered_onward (ht : t.Ordered) (hl : ∀ x ∈ layer, x.path.length = n)
    (ho : layer.Pairwise (fun x y => Before x.path.nodes y.path.nodes)) :
    (layer.flatMap t.onward).Pairwise (fun x y => Before x.path.nodes y.path.nodes) := by
  refine List.pairwise_flatMap.2 ⟨fun x hx => ?_, ?_⟩
  · refine List.pairwise_map.2 ((ht x.key).imp fun {e f} h => ?_)
    exact Before.append_left (.rel h) x.path.nodes
  · refine ho.imp_of_mem fun {x y} hx hy h => ?_
    intro v hv w hw
    obtain ⟨e, -, rfl⟩ := mem_onward.1 hv
    obtain ⟨f, -, rfl⟩ := mem_onward.1 hw
    exact h.append_of_length_eq ((hl x hx).trans (hl y hy).symm) _ _

namespace Layer

/-- A walk one module longer than those of the layer arrives behind it, or a shorter one does. -/
theorem exists_onward (h : t.Layer starts n layer seen) {a k : Key} {q : Path} (ha : a ∈ starts)
    (hq : t.Walk a k q) (hl : q.length = n + 1) :
    (∃ y ∈ layer.flatMap t.onward, y.key = k ∧ NoLater y.path q) ∨ k ∈ seen := by
  rcases hq.eq_single_or_snoc with ⟨rfl, -⟩ | ⟨c, q, e, he, hr, rfl, rfl⟩
  · have := h.pos
    simp at hl
    omega
  · have hl : q.length = n := by simpa using hl
    rcases h.complete a ha c q hr hl with ⟨x, hx, rfl⟩ | ⟨b, hb, r, hr, hlt⟩
    · refine .inl ⟨_, List.mem_flatMap.2 ⟨x, hx, mem_onward.2 ⟨e, he, rfl⟩⟩, rfl, ?_⟩
      exact (h.least x hx a ha q hr).extend rfl
    · refine .inr ((h.seen_iff _).2 ⟨b, hb, _, hr.snoc he, ?_⟩)
      simpa using Nat.succ_le_of_lt hlt

theorem next (ht : t.Ordered) (h : t.Layer starts n layer seen) :
    t.Layer starts (n + 1) (firstArrivals seen (layer.flatMap t.onward)).1
      (firstArrivals seen (layer.flatMap t.onward)).2 := by
  have hpair := ordered_onward ht (fun x hx => (h.walk x hx).2) h.ordered
  have hsub := firstArrivals_sublist seen (layer.flatMap t.onward)
  have hwalk : ∀ y ∈ layer.flatMap t.onward,
      (∃ a ∈ starts, t.Walk a y.key y.path) ∧ y.path.length = n + 1 := by
    intro y hy
    obtain ⟨x, hx, hy⟩ := List.mem_flatMap.1 hy
    obtain ⟨e, he, rfl⟩ := mem_onward.1 hy
    obtain ⟨⟨a, ha, hw⟩, hl⟩ := h.walk x hx
    exact ⟨⟨a, ha, hw.snoc he⟩, by simpa using hl⟩
  have hnew : ∀ {k : Key}, k ∉ seen → ∀ a ∈ starts, ∀ q, t.Walk a k q → n + 1 ≤ q.length := by
    intro k hk a ha q hq
    by_contra hl
    exact hk ((h.seen_iff k).2 ⟨a, ha, q, hq, by omega⟩)
  refine ⟨by omega, fun x hx => hwalk x (hsub.subset hx), ?_, hpair.sublist hsub, ?_, ?_⟩
  · intro x hx a ha q hq
    have hk := not_seen_of_mem_firstArrivals hx
    rcases (hnew hk a ha q hq).lt_or_eq with hl | hl
    · exact .inl ((hwalk x (hsub.subset hx)).2 ▸ hl)
    · obtain ⟨y, hy, hyk, hyq⟩ := (h.exists_onward ha hq hl.symm).resolve_right hk
      rcases rel_of_mem_firstArrivals hpair hx hy hyk with rfl | hb
      · exact hyq
      · refine NoLater.trans (.inr ⟨?_, .inr hb⟩) hyq
        rw [(hwalk x (hsub.subset hx)).2, (hwalk y hy).2]
  · intro k
    rw [firstArrivals_seen]
    constructor
    · rintro (hk | ⟨y, hy, rfl⟩)
      · obtain ⟨a, ha, q, hq, hl⟩ := (h.seen_iff k).1 hk
        exact ⟨a, ha, q, hq, by omega⟩
      · obtain ⟨⟨a, ha, hw⟩, hl⟩ := hwalk y hy
        exact ⟨a, ha, _, hw, hl.le⟩
    · rintro ⟨a, ha, q, hq, hl⟩
      rcases hl.lt_or_eq with hl | hl
      · exact .inl ((h.seen_iff k).2 ⟨a, ha, q, hq, by omega⟩)
      · rcases h.exists_onward ha hq hl with ⟨y, hy, hk, -⟩ | hk
        · exact .inr ⟨y, hy, hk⟩
        · exact .inl hk
  · intro a ha k q hq hl
    by_cases hk : k ∈ seen
    · obtain ⟨b, hb, r, hr, hle⟩ := (h.seen_iff k).1 hk
      exact .inr ⟨b, hb, r, hr, by omega⟩
    · obtain ⟨y, hy, rfl, -⟩ := (h.exists_onward ha hq hl).resolve_right hk
      exact .inl (exists_firstArrival hy hk)

theorem exists_shorter_of_empty (h : t.Layer starts n [] seen) {a k : Key} {q : Path}
    (ha : a ∈ starts) (hq : t.Walk a k q) : ∃ b ∈ starts, ∃ r, t.Walk b k r ∧ r.length < n := by
  have hstop : ∀ {b l r}, b ∈ starts → t.Walk b l r → r.length ≤ n →
      ∃ b ∈ starts, ∃ r, t.Walk b l r ∧ r.length < n := by
    intro b l r hb hr hl
    rcases hl.lt_or_eq with hl | hl
    · exact ⟨b, hb, r, hr, hl⟩
    · exact (h.complete b hb l r hr hl).resolve_left (by simp)
  refine hq.snoc_induction (motive := fun k _ => ∃ b ∈ starts, ∃ r, t.Walk b k r ∧ r.length < n)
    (hstop ha (.single a) h.pos) ?_
  rintro l p e he - ⟨b, hb, r, hr, hlt⟩
  exact hstop hb (hr.snoc he) (by simpa using Nat.succ_le_of_lt hlt)

/-- The first target of a layer, when no walk to a target is shorter. -/
theorem hit_least (h : t.Layer starts n layer seen)
    (hnear : ∀ a ∈ starts, ∀ b ∈ targets, ∀ q, t.Walk a b q → n ≤ q.length) {x : Arrival}
    (hfind : layer.find? (·.key ∈ targets) = some x) :
    (∃ a ∈ starts, ∃ b ∈ targets, t.Walk a b x.path) ∧ x.path.length = n ∧
      ∀ a ∈ starts, ∀ b ∈ targets, ∀ q, t.Walk a b q → NoLater x.path q := by
  obtain ⟨hx, before, after, hsplit, hbefore⟩ := List.find?_eq_some_iff_append.1 hfind
  have hmem : x ∈ layer := by simp [hsplit]
  obtain ⟨⟨a, ha, hw⟩, hl⟩ := h.walk x hmem
  refine ⟨⟨a, ha, x.key, by simpa using hx, hw⟩, hl, ?_⟩
  intro a ha b hb q hq
  rcases (hnear a ha b hb q hq).lt_or_eq with hlt | heq
  · exact .inl (hl ▸ hlt)
  · obtain ⟨y, hy, rfl⟩ | ⟨c, hc, r, hr, hlt⟩ := h.complete a ha b q hq heq.symm
    · have hyq := h.least y hy a ha q hq
      have hord := h.ordered
      rw [hsplit] at hy hord
      rcases List.mem_append.1 hy with hy | hy
      · exact absurd hb (by simpa using hbefore y hy)
      · rcases List.mem_cons.1 hy with rfl | hy
        · exact hyq
        · have hxy := (List.pairwise_cons.1 (List.pairwise_append.1 hord).2.1).1 y hy
          refine NoLater.trans (.inr ⟨?_, .inr hxy⟩) hyq
          rw [hl, (h.walk y (by simp [hsplit, hy])).2]
    · have := hnear c hc b hb r hr
      omega

theorem near_of_no_hit (h : t.Layer starts n layer seen)
    (hnear : ∀ a ∈ starts, ∀ b ∈ targets, ∀ q, t.Walk a b q → n ≤ q.length)
    (hfind : layer.find? (·.key ∈ targets) = none) :
    ∀ a ∈ starts, ∀ b ∈ targets, ∀ q, t.Walk a b q → n + 1 ≤ q.length := by
  intro a ha b hb q hq
  refine (hnear a ha b hb q hq).lt_of_ne fun heq => ?_
  rcases h.complete a ha b q hq heq.symm with ⟨y, hy, rfl⟩ | ⟨c, hc, r, hr, hlt⟩
  · exact absurd hb (by simpa using List.find?_eq_none.1 hfind y hy)
  · have := hnear c hc b hb r hr
    omega

end Layer

theorem search_of_ne_nil {depth : ℕ} (h : layer ≠ []) :
    t.search targets (depth + 1) layer seen =
      match layer.find? (·.key ∈ targets) with
      | some hit => some hit.path
      | none => t.search targets depth (firstArrivals seen (layer.flatMap t.onward)).1
          (firstArrivals seen (layer.flatMap t.onward)).2 := by
  cases layer with
  | nil => exact absurd rfl h
  | cons x xs => rfl

/-- What a search from a layer on comes to: the walk that comes first, or that every walk to a
target is longer than the depth allows. -/
theorem search_spec (ht : t.Ordered) (depth : ℕ) (h : t.Layer starts n layer seen)
    (hnear : ∀ a ∈ starts, ∀ b ∈ targets, ∀ q, t.Walk a b q → n ≤ q.length) :
    match t.search targets depth layer seen with
    | none => ∀ a ∈ starts, ∀ b ∈ targets, ∀ q, t.Walk a b q → n + depth ≤ q.length
    | some p => (∃ a ∈ starts, ∃ b ∈ targets, t.Walk a b p) ∧ p.length < n + depth ∧
        ∀ a ∈ starts, ∀ b ∈ targets, ∀ q, t.Walk a b q → NoLater p q := by
  induction depth generalizing n layer seen with
  | zero => simpa [search] using hnear
  | succ depth ih =>
    by_cases hempty : layer = []
    · subst hempty
      simp only [search]
      intro a ha b hb q hq
      obtain ⟨c, hc, r, hr, hl⟩ := h.exists_shorter_of_empty ha hq
      have := hnear c hc b hb r hr
      omega
    · rw [search_of_ne_nil hempty]
      cases hfind : layer.find? (·.key ∈ targets) with
      | some x =>
        dsimp only
        obtain ⟨hwalk, hl, hleast⟩ := h.hit_least hnear hfind
        exact ⟨hwalk, by omega, hleast⟩
      | none =>
        dsimp only
        have hrest := ih (h.next ht) (h.near_of_no_hit hnear hfind)
        rwa [Nat.add_right_comm, Nat.add_assoc] at hrest

theorem shortestPath_spec (ht : t.Ordered) (starts targets : List Key) (depth : ℕ) :
    match t.shortestPath starts targets depth with
    | none => ∀ a ∈ starts, ∀ b ∈ targets, ∀ q, t.Walk a b q → depth < q.length
    | some p => (∃ a ∈ starts, ∃ b ∈ targets, t.Walk a b p) ∧ p.length ≤ depth ∧
        ∀ a ∈ starts, ∀ b ∈ targets, ∀ q, t.Walk a b q → NoLater p q := by
  have hnear : ∀ a ∈ SortedSet.ofList starts, ∀ b ∈ SortedSet.ofList targets, ∀ q,
      t.Walk a b q → 1 ≤ q.length := fun a _ b _ q hq => length_pos hq
  have hspec := search_spec ht depth (layer_starts t (.ofList starts)) hnear
  simp only [SortedSet.mem_ofList, Nat.add_comm 1 depth, Nat.lt_succ_iff, Nat.succ_le_iff]
    at hspec
  exact hspec

end Layers

end EdgeTable

namespace Survey

/-- The search finds a walk of at most `depth` modules if there is one. It has as few modules as
any walk from a start to a target, and of those with as few it comes first. -/
theorem path_least (s : Snapshot) (f : Filter) (limits : Limits) (starts targets : List Key)
    (depth : ℕ) :
    let survey : Survey := ⟨s, f, limits, false⟩
    ∃ found, (survey.path starts targets depth).result = .ok found ∧
      (found = none ↔ ∀ a ∈ starts, ∀ b ∈ targets, ∀ q, survey.table.Walk a b q →
        depth < q.length) ∧
      ∀ p, found = some p →
        (∃ a ∈ starts, ∃ b ∈ targets, survey.table.Walk a b p) ∧ p.length ≤ depth ∧
        ∀ a ∈ starts, ∀ b ∈ targets, ∀ q, survey.table.Walk a b q → NoLater p q := by
  intro survey
  have ht : survey.table.Ordered := EdgeTable.ordered_ofGraph _ _
  have hspec := EdgeTable.shortestPath_spec ht starts targets depth
  refine ⟨survey.table.shortestPath starts targets depth, rfl, ?_⟩
  cases hfound : survey.table.shortestPath starts targets depth with
  | none =>
    rw [hfound] at hspec
    exact ⟨⟨fun _ => hspec, fun _ => rfl⟩, by simp⟩
  | some p =>
    rw [hfound] at hspec
    obtain ⟨⟨a, ha, b, hb, hw⟩, hl, hleast⟩ := hspec
    refine ⟨⟨by simp, fun hnone => ?_⟩, ?_⟩
    · have := hnone a ha b hb p hw
      omega
    · rintro _ ⟨⟩
      exact ⟨⟨a, ha, b, hb, hw⟩, hl, hleast⟩

end Survey

end ModuleGraph
