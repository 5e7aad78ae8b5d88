import ModuleGraph.Proofs.Walk

/-!
# What is reachable

Breadth-first search sees exactly what some start leads to: what was seen or waits is reachable,
and the arcs of what was seen lead to what was seen or waits. Two such searches, one along the
edges and one against them, find the modules on the way from a start to a target.
-/
namespace ModuleGraph

namespace Arcs

variable {arcs : Arcs} {j k l : Key}

theorem Reaches.snoc (h : arcs.Reaches j k) (hl : l ∈ arcs.next k) : arcs.Reaches j l := by
  induction h with
  | refl => exact .step hl (.refl _)
  | step hm _ ih => exact .step hm (ih hl)

theorem reaches_iff :
    arcs.Reaches j k ↔ Relation.ReflTransGen (fun k l => l ∈ arcs.next k) j k := by
  constructor
  · intro h
    induction h with
    | refl => exact .refl
    | step hl _ ih => exact .head hl ih
  · intro h
    induction h with
    | refl => exact .refl _
    | tail _ hl ih => exact ih.snoc hl

theorem explore_sound (queue : List Key) (seen : SortedSet Key) (h : k ∈ arcs.explore queue seen) :
    k ∈ seen ∨ ∃ a ∈ queue, arcs.Reaches a k := by
  fun_induction explore arcs queue seen with
  | case1 seen => exact .inl h
  | case2 j queue seen hj ih =>
    rcases ih h with h | ⟨a, ha, h⟩
    · exact .inl h
    · exact .inr ⟨a, List.mem_cons_of_mem j ha, h⟩
  | case3 j queue seen hj ih =>
    rcases ih h with h | ⟨a, ha, h⟩
    · rcases SortedSet.mem_insert.1 h with rfl | h
      · exact .inr ⟨k, List.mem_cons_self, .refl k⟩
      · exact .inl h
    · rcases List.mem_append.1 ha with ha | ha
      · exact .inr ⟨a, List.mem_cons_of_mem j ha, h⟩
      · exact .inr ⟨j, List.mem_cons_self, .step ha h⟩

theorem known_of_seen {queue : List Key} {seen : SortedSet Key} (hj : j ∈ seen)
    (h : k ∈ seen ∨ k ∈ j :: queue) : k ∈ seen ∨ k ∈ queue := by
  rcases h with h | h
  · exact .inl h
  · rcases List.mem_cons.1 h with rfl | h
    · exact .inl hj
    · exact .inr h

theorem known_insert {queue : List Key} {seen : SortedSet Key} (more : List Key)
    (h : k ∈ seen ∨ k ∈ j :: queue) : k ∈ seen.insert j ∨ k ∈ queue ++ more := by
  rw [SortedSet.mem_insert, List.mem_append]
  rcases h with h | h
  · exact .inl (.inr h)
  · rcases List.mem_cons.1 h with rfl | h
    · exact .inl (.inl rfl)
    · exact .inr (.inl h)

theorem mem_explore_of_mem (queue : List Key) (seen : SortedSet Key) (h : k ∈ seen ∨ k ∈ queue) :
    k ∈ arcs.explore queue seen := by
  fun_induction explore arcs queue seen with
  | case1 seen => simpa using h
  | case2 j queue seen hj ih => exact ih (known_of_seen hj h)
  | case3 j queue seen hj ih => exact ih (known_insert _ h)

/-- The arcs of what was seen lead to what was seen or waits; in the end nothing waits. -/
theorem explore_closed (queue : List Key) (seen : SortedSet Key)
    (hinv : ∀ k ∈ seen, ∀ l ∈ arcs.next k, l ∈ seen ∨ l ∈ queue)
    (hk : k ∈ arcs.explore queue seen) (hl : l ∈ arcs.next k) : l ∈ arcs.explore queue seen := by
  fun_induction explore arcs queue seen with
  | case1 seen => simpa using hinv k hk l hl
  | case2 j queue seen hj ih =>
    exact ih (fun k hk l hl => known_of_seen hj (hinv k hk l hl)) hk
  | case3 j queue seen hj ih =>
    refine ih (fun k hk l hl => ?_) hk
    rcases SortedSet.mem_insert.1 hk with rfl | hk
    · exact .inr (List.mem_append_right _ hl)
    · exact known_insert _ (hinv k hk l hl)

theorem mem_reachable {starts : List Key} :
    k ∈ arcs.reachable starts ↔ ∃ a ∈ starts, arcs.Reaches a k := by
  constructor
  · intro h
    exact (explore_sound starts ∅ h).resolve_left (SortedSet.not_mem_empty k)
  · rintro ⟨a, hstart, h⟩
    have ha : a ∈ arcs.reachable starts := mem_explore_of_mem starts ∅ (.inr hstart)
    clear hstart
    induction h with
    | refl => exact ha
    | step hl _ ih => exact ih (explore_closed starts ∅ (by simp) ha hl)

end Arcs

namespace EdgeTable

variable {t : EdgeTable} {a b k l : Key} {p : Path}

theorem Leads.refl (t : EdgeTable) (k : Key) : t.Leads k k := ⟨_, .single k⟩

theorem Leads.trans (h : t.Leads a k) (h' : t.Leads k b) : t.Leads a b := by
  obtain ⟨p, hp⟩ := h
  obtain ⟨q, hq⟩ := h'
  exact ⟨_, hp.append hq⟩

theorem Step.leads (h : t.Step k l) : t.Leads k l := by
  obtain ⟨e, he, rfl⟩ := h
  exact ⟨_, .cons he (.single e.target)⟩

theorem next_arcs (t : EdgeTable) (k : Key) : t.arcs.next k = (t.edges k).map Edge.target := by
  rw [Arcs.next, arcs, SortedMap.get?_mapValues, edges]
  cases t.get? k <;> rfl

theorem mem_next_arcs : l ∈ t.arcs.next k ↔ t.Step k l := by
  rw [next_arcs, List.mem_map]
  rfl

theorem reaches_arcs : t.arcs.Reaches a b ↔ t.Leads a b := by
  constructor
  · intro h
    induction h with
    | refl k => exact .refl t k
    | step hl _ ih => exact (mem_next_arcs.1 hl).leads.trans ih
  · rintro ⟨p, hp⟩
    induction hp with
    | single k => exact .refl k
    | cons he _ ih => exact .step (mem_next_arcs.2 ⟨_, he, rfl⟩) ih

theorem leads_iff : t.Leads a b ↔ Relation.ReflTransGen t.Step a b := by
  rw [← reaches_arcs, Arcs.reaches_iff]
  simp only [mem_next_arcs]

theorem mem_reachable_arcs {starts : List Key} :
    k ∈ t.arcs.reachable starts ↔ ∃ a ∈ starts, t.Leads a k := by
  simp only [Arcs.mem_reachable, reaches_arcs]

theorem mem_reachable_of_leads {starts : List Key} (hk : k ∈ t.arcs.reachable starts)
    (hl : t.Leads k l) : l ∈ t.arcs.reachable starts := by
  obtain ⟨a, ha, hak⟩ := mem_reachable_arcs.1 hk
  exact mem_reachable_arcs.2 ⟨a, ha, hak.trans hl⟩

/-- The arcs against the edges between the members of a set. -/
def back (t : EdgeTable) (reachable : SortedSet Key) : Arcs :=
  .ofSet reachable fun k =>
    ((reachable.toList.map fun l => (l, t.arcs.next l)).filter (k ∈ ·.2)).map Prod.fst

theorem mem_next_back {reachable : SortedSet Key} :
    l ∈ (t.back reachable).next k ↔ k ∈ reachable ∧ l ∈ reachable ∧ t.Step l k := by
  rw [Arcs.next, back, SortedMap.get?_ofSet]
  split
  · next hk => simp [hk, ← mem_next_arcs, SortedSet.mem_def]
  · next hk => simp [hk]

theorem useful_eq (t : EdgeTable) (starts targets : SortedSet Key) :
    t.useful starts targets =
      (t.back (t.arcs.reachable starts.toList)).reachable
        (targets.filter (· ∈ t.arcs.reachable starts.toList)).toList := rfl

theorem reaches_back {reachable : SortedSet Key}
    (hclosed : ∀ k ∈ reachable, ∀ l, t.Leads k l → l ∈ reachable) (hb : b ∈ reachable) :
    (t.back reachable).Reaches b k ↔ k ∈ reachable ∧ t.Leads k b := by
  constructor
  · intro h
    induction h with
    | refl k => exact ⟨hb, .refl t k⟩
    | step hl _ ih =>
      obtain ⟨-, hl, hstep⟩ := mem_next_back.1 hl
      obtain ⟨hk, hlead⟩ := ih hl
      exact ⟨hk, hlead.trans hstep.leads⟩
  · rintro ⟨hk, p, hp⟩
    refine hp.snoc_induction (motive := fun b _ => (t.back reachable).Reaches b k) (.refl k) ?_
    intro c q e he hq ih
    have hstep : t.Step c e.target := ⟨e, he, rfl⟩
    have hc := hclosed k hk c ⟨q, hq⟩
    exact .step (mem_next_back.2 ⟨hclosed c hc _ hstep.leads, hc, hstep⟩) ih

/-- The useful modules are those that some start leads to and that lead to some target. -/
theorem mem_useful {starts targets : SortedSet Key} :
    k ∈ t.useful starts targets ↔
      (∃ a ∈ starts, t.Leads a k) ∧ ∃ b ∈ targets, t.Leads k b := by
  have hclosed : ∀ k ∈ t.arcs.reachable starts.toList, ∀ l, t.Leads k l →
      l ∈ t.arcs.reachable starts.toList := fun _ hk _ hl => mem_reachable_of_leads hk hl
  rw [useful_eq, Arcs.mem_reachable]
  constructor
  · rintro ⟨b, hb, h⟩
    obtain ⟨hb, hr⟩ := SortedSet.mem_filter.1 hb
    obtain ⟨hk, hlead⟩ := (reaches_back hclosed (by simpa using hr)).1 h
    exact ⟨mem_reachable_arcs.1 hk, b, hb, hlead⟩
  · rintro ⟨hstart, b, hb, hlead⟩
    have hk := mem_reachable_arcs.2 hstart
    have hr := hclosed k hk b hlead
    have hb : b ∈ targets.filter (· ∈ t.arcs.reachable starts.toList) :=
      SortedSet.mem_filter.2 ⟨hb, by simpa using hr⟩
    exact ⟨b, hb, (reaches_back hclosed hr).2 ⟨hk, hlead⟩⟩

end EdgeTable

end ModuleGraph
