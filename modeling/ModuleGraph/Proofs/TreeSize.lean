import ModuleGraph.Proofs.Tree

namespace ModuleGraph

structure Work where
  stack : List Occurrence
  expanded : SortedSet Key
  listed : List Entry

namespace EdgeTable

variable {t : EdgeTable} {depth : ℕ} {root k : Key} {e : Edge} {items : List Item}
  {links : List (Item × Item)}

def arrows (t : EdgeTable) : List (Key × Edge) :=
  t.entries.flatMap fun row => row.2.map fun e => (row.1, e)

theorem edges_of_mem_entries {row : Key × List Edge} (h : row ∈ t.entries) :
    t.edges row.1 = row.2 := by
  rw [edges, SortedMap.get?_eq_some_iff.2 h]
  rfl

theorem mem_arrows_of_mem_edges (he : e ∈ t.edges k) : (k, e) ∈ t.arrows := by
  rw [edges] at he
  cases hrow : t.get? k with
  | none => simp [hrow] at he
  | some es =>
    rw [hrow] at he
    rw [arrows, List.mem_flatMap]
    exact ⟨(k, es), SortedMap.get?_eq_some_iff.1 hrow, List.mem_map_of_mem he⟩

theorem length_arrows_le {c : ℕ} (h : ∀ k, (t.edges k).length ≤ c) :
    t.arrows.length ≤ t.size * c := by
  have hrows : ∀ n ∈ t.entries.map fun row => (row.2.map fun e => (row.1, e)).length, n ≤ c := by
    rw [List.forall_mem_map]
    intro row hrow
    rw [List.length_map, ← edges_of_mem_entries hrow]
    exact h row.1
  have hsum := List.sum_le_card_nsmul _ c hrows
  rwa [List.length_map, smul_eq_mul, ← List.length_flatMap] at hsum

namespace Linked

theorem nodup_ends (hlinked : t.Linked depth root items links)
    (h : t.TreeListing depth root items) (ht : t.Ordered) :
    (links.map fun l => (l.1.key, l.2.key)).Nodup := by
  refine hlinked.nodup.map_on fun l hl m hm heq => hlinked.eq_of_linkEdge h ht hl hm ?_
  obtain ⟨hk, htarget⟩ := Prod.mk.injEq .. ▸ heq
  obtain ⟨e, he, hlk, hlp⟩ := hlinked.onward l hl
  obtain ⟨f, hf, hmk, hmp⟩ := hlinked.onward m hm
  obtain rfl : e = f := ht.eq_of_target he (hk ▸ hf) (hlk.symm.trans (htarget.trans hmk))
  rw [linkEdge_eq hlk hlp, linkEdge_eq hmk hmp, hk]

theorem length_le (hlinked : t.Linked depth root items links)
    (h : t.TreeListing depth root items) (ht : t.Ordered) : links.length ≤ t.arrows.length := by
  have hsub : (links.map fun l => (l.1.key, l.2.key)) ⊆
      t.arrows.map fun arrow => (arrow.1, arrow.2.target) := by
    intro ends hends
    obtain ⟨l, hl, rfl⟩ := List.mem_map.1 hends
    obtain ⟨e, he, hkey, -⟩ := hlinked.onward l hl
    exact List.mem_map.2 ⟨_, mem_arrows_of_mem_edges he, by rw [hkey]⟩
  have hle := ((hlinked.nodup_ends h ht).subperm hsub).length_le
  rwa [List.length_map, List.length_map] at hle

end Linked

theorem treeOf_zero (t : EdgeTable) (root : Key) : t.treeOf 0 root = [] := by
  rw [treeOf, list, if_pos (Nat.zero_le _), list]

theorem links_treeOf (ht : t.Ordered) (depth : ℕ) (root : Key) :
    (∀ l ∈ (Tree.mk (t.treeOf depth root)).links,
      ∃ e ∈ t.edges l.1.key, l.2.key = e.target ∧ l.2.cause = some e.cause) ∧
    ((Tree.mk (t.treeOf depth root)).links.map fun l => (l.1.key, l.2.key)).Nodup := by
  rcases Nat.eq_zero_or_pos depth with rfl | hdepth
  · rw [treeOf_zero]
    exact ⟨nofun, .nil⟩
  obtain ⟨items, hitems, h⟩ := exists_treeListing ht depth root
  obtain ⟨links, hlinked⟩ := h.exists_linked hdepth
  rw [← hitems, hlinked.links_eq, List.map_map]
  refine ⟨fun l hl => ?_, hlinked.nodup_ends h ht⟩
  obtain ⟨m, hm, rfl⟩ := List.mem_map.1 hl
  obtain ⟨e, he, hkey, hpath⟩ := hlinked.onward m hm
  exact ⟨e, he, hkey, by simp [Item.entry, hpath]⟩

theorem length_treeOf_le (ht : t.Ordered) (depth : ℕ) (root : Key) :
    (t.treeOf depth root).length ≤ 1 + t.arrows.length := by
  rcases Nat.eq_zero_or_pos depth with rfl | hdepth
  · simp [treeOf_zero]
  obtain ⟨items, hitems, h⟩ := exists_treeListing ht depth root
  obtain ⟨links, hlinked⟩ := h.exists_linked hdepth
  have hle := hlinked.length_le h ht
  rw [← hitems, List.length_map, hlinked.length_eq]
  omega

/-- One turn: the first occurrence that waits is listed, unless it is too deep, and if it opens what
is below it is to come next. -/
def turn (t : EdgeTable) (depth : ℕ) (w : Work) : Option Work :=
  match w.stack with
  | [] => none
  | o :: stack =>
    if depth ≤ o.level then some { w with stack }
    else
      let listed := w.listed ++ [⟨o.key, o.level, decide (o.key ∈ w.expanded), o.cause⟩]
      if o.key ∉ w.expanded ∧ o.level + 1 < depth then
        some ⟨t.below o ++ stack, w.expanded.insert o.key, listed⟩
      else some { w with stack, listed }

/-- So many turns lead from the first state to the last, which has no further turn. -/
inductive Turns (t : EdgeTable) (depth : ℕ) : Work → Work → ℕ → Prop
  | done {w : Work} : t.turn depth w = none → Turns t depth w w 0
  | next {w w' last : Work} {n : ℕ} : t.turn depth w = some w' → Turns t depth w' last n →
      Turns t depth w last (n + 1)

theorem turns_list (stack : List Occurrence) (expanded : SortedSet Key) (listed : List Entry)
    (hlevel : ∀ o ∈ stack, o.level < depth) :
    ∃ expanded', t.Turns depth ⟨stack, expanded, listed⟩
      ⟨[], expanded', listed ++ t.list depth stack expanded⟩
      (t.list depth stack expanded).length := by
  fun_induction list t depth stack expanded generalizing listed with
  | case1 expanded => exact ⟨expanded, by simpa using Turns.done rfl⟩
  | case2 o rest expanded hdeep ih => exact absurd hdeep (hlevel o List.mem_cons_self).not_ge
  | case3 o rest expanded hroom hold ih =>
    obtain ⟨last, hturns⟩ := ih (listed ++ [⟨o.key, o.level, true, o.cause⟩])
      fun o ho => hlevel o (List.mem_cons_of_mem _ ho)
    rw [List.append_assoc] at hturns
    exact ⟨last, hturns.next (by simp [turn, hroom, hold])⟩
  | case4 o rest expanded hroom hnew hdeeper ih =>
    obtain ⟨last, hturns⟩ := ih (listed ++ [⟨o.key, o.level, false, o.cause⟩]) (by
      intro o' ho
      rcases List.mem_append.1 ho with ho | ho
      · obtain ⟨e, -, rfl⟩ := List.mem_map.1 ho
        exact hdeeper
      · exact hlevel o' (List.mem_cons_of_mem _ ho))
    rw [List.append_assoc] at hturns
    exact ⟨last, hturns.next (by simp [turn, hroom, hnew, hdeeper])⟩
  | case5 o rest expanded hroom hnew hdeeper ih =>
    obtain ⟨last, hturns⟩ := ih (listed ++ [⟨o.key, o.level, false, o.cause⟩])
      fun o ho => hlevel o (List.mem_cons_of_mem _ ho)
    rw [List.append_assoc] at hturns
    exact ⟨last, hturns.next (by simp [turn, hroom, hnew, hdeeper])⟩

theorem exists_turns_treeOf (ht : t.Ordered) (depth : ℕ) (root : Key) :
    ∃ n expanded, t.Turns depth ⟨[⟨root, 0, none⟩], ∅, []⟩ ⟨[], expanded, t.treeOf depth root⟩ n ∧
      n ≤ 1 + t.arrows.length := by
  rcases Nat.eq_zero_or_pos depth with rfl | hdepth
  · rw [treeOf_zero]
    exact ⟨1, ∅, .next rfl (.done rfl), Nat.le_add_right 1 _⟩
  obtain ⟨expanded, hturns⟩ := turns_list (t := t) [⟨root, 0, none⟩] ∅ [] (by simpa using hdepth)
  exact ⟨_, expanded, hturns, length_treeOf_le ht depth root⟩

end EdgeTable

end ModuleGraph
