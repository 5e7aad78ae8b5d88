import ModuleGraph.Proofs.Loop
import ModuleGraph.Proofs.Reachability
import ModuleGraph.Proofs.TreeSize

namespace ModuleGraph

namespace Arcs

structure Search where
  queue : List Key
  seen : SortedSet Key

variable {arcs : Arcs} {seen : SortedSet Key} {k : Key} {s s' : Search}

/-- One turn: the first key that waits is visited, unless it was seen before. -/
def turn (arcs : Arcs) (s : Search) : Option Search :=
  match s.queue with
  | [] => none
  | k :: queue =>
    if k ∈ s.seen then some { s with queue }
    else some ⟨queue ++ arcs.next k, s.seen.insert k⟩

theorem turn_cases (h : arcs.turn s = some s') : ∃ k queue, s.queue = k :: queue ∧
    (k ∈ s.seen ∧ s' = { s with queue } ∨
      k ∉ s.seen ∧ s' = ⟨queue ++ arcs.next k, s.seen.insert k⟩) := by
  unfold turn at h
  split at h
  · simp at h
  · next k queue hqueue =>
    refine ⟨k, queue, hqueue, ?_⟩
    split at h
    · next hk => exact .inl ⟨hk, (Option.some.inj h).symm⟩
    · next hk => exact .inr ⟨hk, (Option.some.inj h).symm⟩

theorem queue_of_turn_eq_none (h : arcs.turn s = none) : s.queue = [] := by
  unfold turn at h
  split at h
  · assumption
  · split at h <;> simp at h

theorem explore_turn (h : arcs.turn s = some s') :
    arcs.explore s'.queue s'.seen = arcs.explore s.queue s.seen := by
  obtain ⟨k, queue, hqueue, ⟨hk, rfl⟩ | ⟨hk, rfl⟩⟩ := turn_cases h
  · rw [hqueue, explore, if_pos hk]
  · rw [hqueue, explore, if_neg hk]

def links (arcs : Arcs) : List (Key × Key) :=
  arcs.entries.flatMap fun row => row.2.map fun l => (row.1, l)

theorem next_of_mem_entries {row : Key × List Key} (h : row ∈ arcs.entries) :
    arcs.next row.1 = row.2 := by
  rw [next, SortedMap.get?_eq_some_iff.2 h]
  rfl

theorem sublist_links (arcs : Arcs) (k : Key) :
    ((arcs.next k).map fun l => (k, l)).Sublist arcs.links := by
  rw [next]
  cases hrow : arcs.get? k with
  | none => exact List.nil_sublist _
  | some ls =>
    have hmem : (k, ls) ∈ arcs.entries := SortedMap.get?_eq_some_iff.1 hrow
    exact List.sublist_flatten_of_mem (List.mem_map_of_mem hmem)

theorem mem_links {link : Key × Key} : link ∈ arcs.links ↔ link.2 ∈ arcs.next link.1 := by
  constructor
  · intro h
    obtain ⟨row, hrow, h⟩ := List.mem_flatMap.1 h
    obtain ⟨l, hl, rfl⟩ := List.mem_map.1 h
    rwa [next_of_mem_entries hrow]
  · exact fun h => (arcs.sublist_links link.1).subset (List.mem_map_of_mem h)

theorem nodup_links (h : ∀ k, (arcs.next k).Nodup) : arcs.links.Nodup := by
  refine List.nodup_flatMap.2 ⟨fun row hrow => ?_, ?_⟩
  · exact (next_of_mem_entries hrow ▸ h row.1).map (Prod.mk_right_injective row.1)
  · refine (List.pairwise_map.1 arcs.nodup_keys).imp fun {row row'} hne => ?_
    intro link hlink hlink'
    obtain ⟨l, -, rfl⟩ := List.mem_map.1 hlink
    obtain ⟨l', -, heq⟩ := List.mem_map.1 hlink'
    exact hne (congrArg Prod.fst heq).symm

def unfollowed (arcs : Arcs) (seen : SortedSet Key) : ℕ := arcs.links.countP (·.1 ∉ seen)

theorem unfollowed_insert (arcs : Arcs) (hk : k ∉ seen) :
    arcs.unfollowed (seen.insert k) + (arcs.next k).length ≤ arcs.unfollowed seen := by
  have hsplit := List.countP_eq_countP_filter_add arcs.links (·.1 ∉ seen) (·.1 ≠ k)
  have hothers : (arcs.links.filter (·.1 ≠ k)).countP (·.1 ∉ seen) =
      arcs.unfollowed (seen.insert k) := by
    rw [List.countP_filter]
    refine List.countP_congr fun link _ => ?_
    simp [and_comm]
  have hown : (arcs.next k).length ≤
      (arcs.links.filter fun link => !decide (link.1 ≠ k)).countP (·.1 ∉ seen) := by
    rw [List.countP_filter]
    have hle := (arcs.sublist_links k).countP_le
      (p := fun link => decide (link.1 ∉ seen) && !decide (link.1 ≠ k))
    rwa [List.countP_eq_length.2 (by simp [hk]), List.length_map] at hle
  change arcs.unfollowed seen = _ at hsplit
  omega

def Search.left (arcs : Arcs) (s : Search) : ℕ := s.queue.length + arcs.unfollowed s.seen

theorem left_turn_lt (h : arcs.turn s = some s') : s'.left arcs < s.left arcs := by
  obtain ⟨k, queue, hqueue, ⟨hk, rfl⟩ | ⟨hk, rfl⟩⟩ := turn_cases h
  · simp [Search.left, hqueue]
  · have hle := arcs.unfollowed_insert hk
    simp only [Search.left, hqueue, List.length_append, List.length_cons]
    omega

theorem exists_after_explore (arcs : Arcs) (queue : List Key) (seen : SortedSet Key) :
    ∃ n, After arcs.turn ⟨queue, seen⟩ n ⟨[], arcs.explore queue seen⟩ ∧
      n ≤ queue.length + arcs.unfollowed seen := by
  have hspends : After.Spends arcs.turn (fun _ => True) (·.left arcs) :=
    fun _ _ _ hturn => ⟨trivial, left_turn_lt hturn⟩
  obtain ⟨n, last, hlast, hend, hle⟩ := hspends.exists_last (s := ⟨queue, seen⟩) trivial
  have hsame := hlast.unchanged (f := fun s : Search => arcs.explore s.queue s.seen)
    fun _ _ hturn => explore_turn hturn
  have hqueue := queue_of_turn_eq_none hend
  obtain ⟨queue', seen'⟩ := last
  obtain rfl : queue' = [] := hqueue
  rw [explore] at hsame
  exact ⟨n, hsame ▸ hlast, hle⟩

theorem exists_after_reachable (arcs : Arcs) (starts : List Key) :
    ∃ n, After arcs.turn ⟨starts, ∅⟩ n ⟨[], arcs.reachable starts⟩ ∧
      n ≤ starts.length + arcs.links.length := by
  obtain ⟨n, hn, hle⟩ := arcs.exists_after_explore starts ∅
  exact ⟨n, hn, hle.trans (Nat.add_le_add_left List.countP_le_length _)⟩

end Arcs

namespace EdgeTable

theorem length_links_arcs (t : EdgeTable) : t.arcs.links.length = t.arrows.length := by
  simp [Arcs.links, arrows, arcs, SortedMap.mapValues, List.length_flatMap, Function.comp_def]

theorem nodup_next_back (t : EdgeTable) (reached : SortedSet Key) (k : Key) :
    ((t.back reached).next k).Nodup := by
  rw [Arcs.next, back, SortedMap.get?_ofSet]
  split
  · have hfst : (reached.toList.map fun l => (l, t.arcs.next l)).map Prod.fst = reached.toList := by
      simp [Function.comp_def]
    exact (hfst ▸ reached.nodup_toList).sublist (List.filter_sublist.map Prod.fst)
  · exact .nil

theorem length_links_back_le (t : EdgeTable) (reached : SortedSet Key) :
    (t.back reached).links.length ≤ t.arrows.length := by
  have hsub : (t.back reached).links ⊆
      t.arrows.map fun arrow => (arrow.2.target, arrow.1) := by
    intro link hlink
    obtain ⟨-, -, e, he, htarget⟩ := mem_next_back.1 (Arcs.mem_links.1 hlink)
    exact List.mem_map.2 ⟨_, mem_arrows_of_mem_edges he, by rw [htarget]⟩
  have hnodup := Arcs.nodup_links (t.nodup_next_back reached)
  have hle := (hnodup.subperm hsub).length_le
  rwa [List.length_map] at hle

end EdgeTable

namespace Snapshot

/-- Both searches end, the second with the modules that some start leads to and that lead to some
target along the edges of the snapshot. Neither takes more turns than there are keys in its queue
at first and edges. -/
theorem useful_exact (s : Snapshot) (f : Filter) (starts targets : SortedSet Key) :
    let table := EdgeTable.ofGraph s.graph f
    ∃ reached m n,
      After table.arcs.turn ⟨starts.toList, ∅⟩ m ⟨[], reached⟩ ∧
      After (table.back reached).turn ⟨(targets.filter (· ∈ reached)).toList, ∅⟩ n
        ⟨[], table.useful starts targets⟩ ∧
      m ≤ starts.toList.length + table.arrows.length ∧
      n ≤ targets.toList.length + table.arrows.length ∧
      ∀ k, k ∈ table.useful starts targets ↔
        (∃ a ∈ starts, table.Leads a k) ∧ ∃ b ∈ targets, table.Leads k b := by
  intro table
  let reached := table.arcs.reachable starts.toList
  obtain ⟨m, hm, hmle⟩ := table.arcs.exists_after_reachable starts.toList
  obtain ⟨n, hn, hnle⟩ :=
    (table.back reached).exists_after_reachable (targets.filter (· ∈ reached)).toList
  rw [table.length_links_arcs] at hmle
  have hlinks := table.length_links_back_le reached
  have htargets : (targets.filter (· ∈ reached)).toList.length ≤ targets.toList.length :=
    List.length_filter_le _ _
  exact ⟨reached, m, n, hm, table.useful_eq starts targets ▸ hn, hmle, by omega,
    fun k => EdgeTable.mem_useful⟩

end Snapshot

end ModuleGraph
