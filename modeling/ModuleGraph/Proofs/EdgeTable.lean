import ModuleGraph.Proofs.Walk
import ModuleGraph.Query.Survey
import Mathlib.Data.List.Induction

namespace ModuleGraph

theorem Declaration.origin_congr {d d' : Declaration} (h : d.extensionDeps = d'.extensionDeps) :
    d.origin = d'.origin := by
  funext name
  rw [origin, origin, h]

namespace EdgeTable

variable {g : Graph} {f : Filter} {e : Edge}

theorem edges_ofGraph (g : Graph) (f : Filter) (k : Key) :
    (ofGraph g f).edges k =
      ((g.get? k).map fun node => leastCauses (followed f node.declaration)).getD [] := by
  simp only [edges, ofGraph, SortedMap.get?_mapValues, Graph.get?]

theorem ordered_leastCauses (es : List Edge) :
    (leastCauses es).Pairwise (fun e f => compare e.target f.target = .lt) :=
  List.pairwise_map.2 (es.foldl note ∅).increasing

theorem ordered_ofGraph (g : Graph) (f : Filter) : (ofGraph g f).Ordered := by
  intro k
  rw [edges_ofGraph]
  cases g.get? k with
  | none => simp
  | some node => exact ordered_leastCauses _

theorem mem_note_iff {least : SortedMap Key Cause} {k : Key} :
    k ∈ note least e ↔ k = e.target ∨ k ∈ least := by
  unfold note
  split
  · next hget =>
    split
    · refine ⟨.inr, fun h => h.elim (fun hk => ?_) id⟩
      exact hk ▸ SortedMap.mem_of_get? hget
    · exact SortedMap.mem_insert
  · exact SortedMap.mem_insert

theorem mem_foldl_note_iff {es : List Edge} {least : SortedMap Key Cause} {k : Key} :
    k ∈ es.foldl note least ↔ k ∈ least ∨ k ∈ es.map Edge.target := by
  induction es generalizing least with
  | nil => simp
  | cons e es ih =>
    rw [List.foldl_cons, ih, mem_note_iff, List.map_cons, List.mem_cons]
    tauto

theorem mem_map_leastCauses_iff {es : List Edge} {k : Key} :
    k ∈ (leastCauses es).map Edge.target ↔ k ∈ es.map Edge.target := by
  have hkeys : (leastCauses es).map Edge.target = (es.foldl note ∅).keys := by
    simp [leastCauses, SortedMap.keys]
  rw [hkeys, ← SortedMap.mem_def, mem_foldl_note_iff]
  simp [SortedMap.mem_def, SortedMap.keys]

/-- A cause is one of those given for a target, and none of the others comes before it. -/
def LeastCause (es : List Edge) (k : Key) (c : Cause) : Prop :=
  ⟨k, c⟩ ∈ es ∧ ∀ f ∈ es, f.target = k → (compare c f.cause).isLE

theorem not_mem_foldl_note {es : List Edge} {k : Key}
    (h : (es.foldl note ∅).get? k = none) : ∀ f ∈ es, f.target ≠ k := by
  rintro f hf rfl
  rw [SortedMap.get?_eq_none_iff, mem_foldl_note_iff] at h
  exact h (.inr (List.mem_map.2 ⟨f, hf, rfl⟩))

theorem get?_note (least : SortedMap Key Cause) (e : Edge) (k : Key) :
    (note least e).get? k =
      if k = e.target then
        match least.get? k with
        | some c => some (if (compare c e.cause).isLE then c else e.cause)
        | none => some e.cause
      else least.get? k := by
  by_cases hk : k = e.target
  · subst hk
    rw [if_pos rfl, note]
    cases hget : least.get? e.target with
    | none => simp [SortedMap.get?_insert]
    | some c =>
      dsimp only
      split
      · exact hget
      · rw [SortedMap.get?_insert, if_pos rfl]
  · rw [if_neg hk, note]
    split
    · split
      · rfl
      · rw [SortedMap.get?_insert, if_neg hk]
    · rw [SortedMap.get?_insert, if_neg hk]

theorem LeastCause.unique {es : List Edge} {k : Key} {c c' : Cause} (h : LeastCause es k c)
    (h' : LeastCause es k c') : c = c' := by
  have hle : (compare c c').isLE := h.2 _ h'.1 rfl
  have hge : (compare c' c).isLE := h'.2 _ h.1 rfl
  exact Std.LawfulEqCmp.compare_eq_iff_eq.1 (Std.OrientedCmp.isLE_antisymm hle hge)

theorem LeastCause.snoc {es : List Edge} {e : Edge} {k : Key} {c : Cause} (h : LeastCause es k c)
    (he : e.target = k → (compare c e.cause).isLE) : LeastCause (es ++ [e]) k c := by
  refine ⟨List.mem_append_left _ h.1, fun f hf hfk => ?_⟩
  rcases List.mem_append.1 hf with hf | hf
  · exact h.2 f hf hfk
  · obtain rfl := List.mem_singleton.1 hf
    exact he hfk

theorem leastCause_last {es : List Edge} {e : Edge}
    (h : ∀ f ∈ es, f.target = e.target → (compare e.cause f.cause).isLE) :
    LeastCause (es ++ [e]) e.target e.cause := by
  refine ⟨List.mem_append_right es List.mem_cons_self, fun f hf hfk => ?_⟩
  rcases List.mem_append.1 hf with hf | hf
  · exact h f hf hfk
  · obtain rfl := List.mem_singleton.1 hf
    simp

theorem leastCause_of_get? {es : List Edge} {k : Key} {c : Cause}
    (h : (es.foldl note ∅).get? k = some c) : LeastCause es k c := by
  induction es using List.reverseRecOn generalizing c with
  | nil =>
    have hnone : (∅ : SortedMap Key Cause).get? k = none := rfl
    simp [hnone] at h
  | append_singleton es e ih =>
    rw [List.foldl_append, List.foldl_cons, List.foldl_nil, get?_note] at h
    by_cases hk : k = e.target
    · subst hk
      rw [if_pos rfl] at h
      cases hget : (es.foldl note ∅).get? e.target with
      | none =>
        rw [hget] at h
        obtain rfl : e.cause = c := Option.some.inj h
        exact leastCause_last fun f hf hfk => absurd hfk (not_mem_foldl_note hget f hf)
      | some b =>
        rw [hget] at h
        obtain rfl := Option.some.inj h
        split
        · next hle => exact (ih hget).snoc fun _ => hle
        · next hgt =>
          have hlt : compare e.cause b = .lt :=
            Std.OrientedCmp.gt_iff_lt.1 (by simpa using hgt)
          have hle : (compare e.cause b).isLE := by simp [hlt]
          exact leastCause_last fun f hf hfk =>
            Std.TransCmp.isLE_trans hle ((ih hget).2 f hf hfk)
    · rw [if_neg hk] at h
      exact (ih h).snoc fun hek => absurd hek.symm hk

/-- Of the causes given for a target the least one stays. -/
theorem mem_leastCauses_iff {es : List Edge} {k : Key} {c : Cause} :
    ⟨k, c⟩ ∈ leastCauses es ↔ LeastCause es k c := by
  have hget : ⟨k, c⟩ ∈ leastCauses es ↔ (es.foldl note ∅).get? k = some c := by
    rw [SortedMap.get?_eq_some_iff]
    simp [leastCauses]
  rw [hget]
  constructor
  · exact leastCause_of_get?
  · intro h
    have hmem : k ∈ es.foldl note ∅ :=
      mem_foldl_note_iff.2 (.inr (List.mem_map.2 ⟨_, h.1, rfl⟩))
    cases hget : (es.foldl note ∅).get? k with
    | none => exact absurd hmem (SortedMap.get?_eq_none_iff.1 hget)
    | some b => rw [h.unique (leastCause_of_get? hget)]

theorem leastCauses_congr {es es' : List Edge} (h : ∀ e, e ∈ es ↔ e ∈ es') :
    leastCauses es = leastCauses es' := by
  have hleast : ∀ e, e ∈ leastCauses es ↔ e ∈ leastCauses es' := by
    rintro ⟨k, c⟩
    simp only [mem_leastCauses_iff, LeastCause, h]
  exact SortedSet.eq_of_increasing (ordered_leastCauses es) (ordered_leastCauses es') hleast

theorem mem_map_followed_iff {d : Declaration} {l : Key} :
    l ∈ (followed f d).map Edge.target ↔
      ∃ name, (name, l) ∈ d.deps.entries ∧ (f.cause? (d.origin name)).isSome := by
  simp only [followed, List.mem_map, List.mem_filterMap, Option.map_eq_some_iff, Prod.exists,
    Option.isSome_iff_exists]
  constructor
  · rintro ⟨_, ⟨name, target, hentry, cause, hcause, rfl⟩, rfl⟩
    exact ⟨name, hentry, cause, hcause⟩
  · rintro ⟨name, hentry, cause, hcause⟩
    exact ⟨⟨l, cause⟩, ⟨name, l, hentry, cause, hcause, rfl⟩, rfl⟩

theorem step_ofGraph_iff {k l : Key} : (ofGraph g f).Step k l ↔
    ∃ node, g.get? k = some node ∧ ∃ name, (name, l) ∈ node.declaration.deps.entries ∧
      (f.cause? (node.declaration.origin name)).isSome := by
  rw [Step, ← List.mem_map, edges_ofGraph]
  cases g.get? k with
  | none => simp
  | some node => simp [mem_map_leastCauses_iff, mem_map_followed_iff]

theorem exists_declaration_of_step {k l : Key} (h : (ofGraph g f).Step k l) :
    ∃ node, g.get? k = some node ∧ l ∈ node.declaration.deps.values := by
  obtain ⟨node, hk, name, hentry, -⟩ := step_ofGraph_iff.1 h
  exact ⟨node, hk, List.mem_map.2 ⟨_, hentry, rfl⟩⟩

end EdgeTable

namespace Survey

variable {v v' : Survey} (htable : v.table = v'.table)
  (hinterrupted : v.interrupted = v'.interrupted)

include htable hinterrupted

theorem tree_of_table : v.tree = v'.tree := by
  funext roots depth
  rw [tree, tree, check, check, htable, hinterrupted]

theorem path_of_table : v.path = v'.path := by
  funext starts targets depth
  rw [path, path, check, check, htable, hinterrupted]

theorem allPaths_of_table (hlimits : v.limits = v'.limits) : v.allPaths = v'.allPaths := by
  funext starts targets depth
  rw [allPaths, allPaths, check, check, htable, hinterrupted, hlimits]

end Survey

end ModuleGraph
