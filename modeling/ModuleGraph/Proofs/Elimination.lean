import ModuleGraph.Graph.Elimination
import Mathlib.Data.List.Perm.Subperm
import Mathlib.Order.WellFoundedSet
import Mathlib.Tactic.Common

/-!
# What the elimination of modules keeps

At every state of the elimination the degree of a module counts the modules that are left and
depend on it. The modules in the queue and those taken away are the ones that nothing left depends
on, and a module is taken away only after all that depend on it. So when everything can be taken
away, the order of taking away ranks the modules against their dependencies. What is left over in
the end are the modules on cycles and all that these depend on.
-/
namespace ModuleGraph

def Dependencies.targets (d : Dependencies) (k : Key) : SortedSet Key := (d.get? k).getD ∅

namespace Elimination

variable {d : Dependencies} {e f : Elimination} {k l : Key}

theorem mem_of_mem_targets (h : l ∈ d.targets k) : k ∈ d := by
  by_contra hk
  simp [Dependencies.targets, SortedMap.get?_eq_none_iff.2 hk] at h

theorem mem_entries_of_mem_targets (h : l ∈ d.targets k) : (k, d.targets k) ∈ d.entries := by
  cases hk : d.get? k with
  | none => simp [Dependencies.targets, hk] at h
  | some targets =>
    simp only [Dependencies.targets, hk, Option.getD_some]
    exact SortedMap.get?_eq_some_iff.1 hk

theorem targets_of_mem_entries {targets : SortedSet Key} (h : (k, targets) ∈ d.entries) :
    d.targets k = targets := by
  simp [Dependencies.targets, SortedMap.get?_eq_some_iff.2 h]

theorem get?_release (e : Elimination) (x k : Key) :
    (e.release x).degrees.get? k =
      if k = x then (e.degrees.get? k).map (· - 1) else e.degrees.get? k := by
  unfold release
  split
  · rw [SortedMap.adjust, SortedMap.get?_mapValues]
    split <;> simp
  · next h =>
    split
    · next hk =>
      subst hk
      rcases hd : e.degrees.get? k with _ | _ | n
      · rfl
      · rfl
      · exact absurd hd (h n)
    · rfl

theorem queue_release (e : Elimination) (x : Key) :
    (e.release x).queue = if e.degrees.get? x = some 1 then e.queue ++ [x] else e.queue := by
  unfold release
  split
  · next n hn => simp [hn]
  · next h => rw [if_neg (h 0)]

@[simp] theorem taken_release (e : Elimination) (x : Key) : (e.release x).taken = e.taken := by
  unfold release
  split <;> rfl

@[simp] theorem taken_foldl_release (xs : List Key) (e : Elimination) :
    (xs.foldl release e).taken = e.taken := by
  induction xs generalizing e with
  | nil => rfl
  | cons x xs ih => rw [List.foldl_cons, ih, taken_release]

theorem get?_foldl_release {xs : List Key} (hxs : xs.Nodup) (e : Elimination) (k : Key) :
    (xs.foldl release e).degrees.get? k =
      if k ∈ xs then (e.degrees.get? k).map (· - 1) else e.degrees.get? k := by
  induction xs generalizing e with
  | nil => simp
  | cons x xs ih =>
    obtain ⟨hx, hxs⟩ := List.nodup_cons.1 hxs
    rw [List.foldl_cons, ih hxs, get?_release]
    by_cases hk : k = x
    · subst hk; simp [hx]
    · simp [hk]

theorem queue_foldl_release {xs : List Key} (hxs : xs.Nodup) (e : Elimination) :
    (xs.foldl release e).queue = e.queue ++ xs.filter (e.degrees.get? · = some 1) := by
  induction xs generalizing e with
  | nil => simp
  | cons x xs ih =>
    obtain ⟨hx, hxs⟩ := List.nodup_cons.1 hxs
    have hrest : xs.filter ((e.release x).degrees.get? · = some 1) =
        xs.filter (e.degrees.get? · = some 1) := by
      refine List.filter_congr fun y hy => ?_
      rw [get?_release, if_neg (by rintro rfl; exact hx hy)]
    rw [List.foldl_cons, ih hxs, hrest, queue_release, List.filter_cons]
    split <;> simp_all

def leftDependents (d : Dependencies) (taken : List Key) (k : Key) : ℕ :=
  d.entries.countP fun row => row.1 ∉ taken ∧ k ∈ row.2

/-- What holds of every state of the elimination. -/
structure Consistent (d : Dependencies) (e : Elimination) : Prop where
  degree : ∀ k, e.degrees.get? k = if k ∈ d then some (leftDependents d e.taken k) else none
  nodup : (e.queue ++ e.taken).Nodup
  free : ∀ k, k ∈ e.queue ++ e.taken ↔ k ∈ d ∧ leftDependents d e.taken k = 0
  later : e.taken.Pairwise fun l k => k ∉ d.targets l
  irrefl : ∀ k ∈ e.taken, k ∉ d.targets k

theorem leftDependents_eq_zero {taken : List Key} :
    leftDependents d taken k = 0 ↔ ∀ l, k ∈ d.targets l → l ∈ taken := by
  simp only [leftDependents, List.countP_eq_zero, decide_eq_true_eq, not_and]
  constructor
  · intro h l hl
    by_contra hn
    exact h _ (mem_entries_of_mem_targets hl) hn hl
  · rintro h ⟨l, targets⟩ hrow hn hk
    exact hn (h l (targets_of_mem_entries hrow ▸ hk))

theorem countP_left_cons {rows : List (Key × SortedSet Key)} (hrows : (rows.map Prod.fst).Nodup)
    {taken : List Key} (hk : k ∉ taken) :
    (rows.countP fun row => row.1 ∉ taken ∧ l ∈ row.2) =
      (rows.countP fun row => row.1 ∉ k :: taken ∧ l ∈ row.2) +
        if l ∈ (rows.lookup k).getD ∅ then 1 else 0 := by
  induction rows with
  | nil => simp
  | cons row rows ih =>
    obtain ⟨j, targets⟩ := row
    obtain ⟨hj, hrows⟩ := List.nodup_cons.1 hrows
    have ih := ih hrows
    rw [List.countP_cons, List.countP_cons]
    by_cases hjk : j = k
    · subst hjk
      have hnone : rows.lookup j = none := by
        refine List.lookup_eq_none_iff.2 fun row hrow => ?_
        simpa using fun h => hj (List.mem_map.2 ⟨row, hrow, h.symm⟩)
      rw [hnone] at ih
      by_cases hl : l ∈ targets <;> simp_all
    · have hb : (k == j) = false := by simpa using Ne.symm hjk
      rw [List.lookup_cons, hb]
      simp only [List.mem_cons, hjk, false_or] at ih ⊢
      omega

theorem leftDependents_cons {taken : List Key} (hk : k ∉ taken) :
    leftDependents d taken l =
      leftDependents d (k :: taken) l + if l ∈ d.targets k then 1 else 0 :=
  countP_left_cons d.nodup_keys hk

theorem step_eq_some (h : e.step d = some f) :
    ∃ k queue, e.queue = k :: queue ∧
      f = (d.targets k).toList.foldl release { e with queue, taken := k :: e.taken } := by
  unfold step at h
  split at h
  · simp at h
  · next k queue hqueue => exact ⟨k, queue, hqueue, (Option.some.inj h).symm⟩

namespace Consistent

theorem start (d : Dependencies) : Consistent d (start d) := by
  have hdegree : ∀ k, (Elimination.start d).degrees.get? k =
      if k ∈ d then some (leftDependents d [] k) else none := by
    intro k
    rw [Elimination.start, SortedMap.get?_mapValues]
    by_cases hk : k ∈ d
    · obtain ⟨targets, ht⟩ := Option.ne_none_iff_exists'.1
        fun h => SortedMap.get?_eq_none_iff.1 h hk
      simp [ht, hk, leftDependents, SortedMap.values, List.countP_map, Function.comp_def]
    · simp [SortedMap.get?_eq_none_iff.2 hk, hk]
  refine ⟨hdegree, ?_, fun k => ?_, .nil, by simp [Elimination.start]⟩
  · simp only [Elimination.start, List.append_nil]
    refine List.Nodup.sublist (List.filter_sublist.map _) ?_
    exact (SortedMap.nodup_keys _)
  · have hget := hdegree k
    simp only [Elimination.start, List.append_nil, List.mem_map, List.mem_filter,
      decide_eq_true_eq, Prod.exists, exists_and_right, exists_eq_right] at hget ⊢
    simp only [← SortedMap.get?_eq_some_iff]
    rw [hget]
    by_cases hk : k ∈ d <;> simp [hk]

theorem get?_eq_one_iff (h : Consistent d e) :
    e.degrees.get? l = some 1 ↔ l ∈ d ∧ leftDependents d e.taken l = 1 := by
  rw [h.degree l]
  by_cases hl : l ∈ d <;> simp [hl]

theorem taken_subperm (h : Consistent d e) : e.taken.Subperm d.keys := by
  have hnodup : e.taken.Nodup := (List.nodup_append.1 h.nodup).2.1
  exact hnodup.subperm fun k hk => ((h.free k).1 (List.mem_append_right _ hk)).1

theorem mem_taken (h : Consistent d e) (hk : k ∈ e.queue ++ e.taken) (hl : k ∈ d.targets l) :
    l ∈ e.taken :=
  leftDependents_eq_zero.1 ((h.free k).1 hk).2 l hl

theorem not_mem_taken {queue : List Key} (h : Consistent d e) (hqueue : e.queue = k :: queue) :
    k ∉ e.taken := by
  have hnodup := h.nodup
  rw [hqueue, List.cons_append] at hnodup
  exact fun hk => (List.nodup_cons.1 hnodup).1 (List.mem_append_right _ hk)

theorem nodup_release {queue : List Key} (h : Consistent d e) (hqueue : e.queue = k :: queue) :
    (queue ++ (d.targets k).toList.filter (e.degrees.get? · = some 1) ++ k :: e.taken).Nodup := by
  have hnodup := h.nodup
  rw [hqueue, List.cons_append] at hnodup
  rw [List.append_assoc]
  refine (List.perm_append_comm_assoc _ _ _).nodup_iff.2 (List.nodup_append.2 ⟨?_, ?_, ?_⟩)
  · exact (d.targets k).nodup_toList.filter _
  · exact List.perm_middle.nodup_iff.2 hnodup
  · intro l hl m hm hlm
    subst hlm
    obtain ⟨-, hl⟩ := List.mem_filter.1 hl
    have hone := (h.get?_eq_one_iff.1 (by simpa using hl)).2
    have hzero := ((h.free l).1 (by rw [hqueue]; exact List.perm_middle.mem_iff.1 hm)).2
    omega

theorem mem_release_iff {queue : List Key} (h : Consistent d e) (hqueue : e.queue = k :: queue) :
    l ∈ queue ++ (d.targets k).toList.filter (e.degrees.get? · = some 1) ++ k :: e.taken ↔
      l ∈ d ∧ leftDependents d (k :: e.taken) l = 0 := by
  have hcount := leftDependents_cons (d := d) (l := l) (h.not_mem_taken hqueue)
  have hfree := h.free l
  rw [hqueue] at hfree
  have hnew : l ∈ (d.targets k).toList.filter (e.degrees.get? · = some 1) ↔
      l ∈ d.targets k ∧ l ∈ d ∧ leftDependents d e.taken l = 1 := by
    simp only [List.mem_filter, decide_eq_true_eq, h.get?_eq_one_iff, SortedSet.mem_def]
  rw [List.append_assoc, (List.perm_append_comm_assoc _ _ _).mem_iff, List.mem_append,
    List.perm_middle.mem_iff, hnew, ← List.cons_append, hfree]
  by_cases hm : l ∈ d.targets k
  · rw [if_pos hm] at hcount
    constructor
    · rintro (⟨-, hd, hone⟩ | ⟨-, hzero⟩)
      · exact ⟨hd, by omega⟩
      · omega
    · intro hl
      exact .inl ⟨hm, hl.1, by omega⟩
  · rw [if_neg hm, Nat.add_zero] at hcount
    rw [hcount]
    simp [hm]

theorem step (h : Consistent d e) (hstep : e.step d = some f) : Consistent d f := by
  obtain ⟨k, queue, hqueue, rfl⟩ := step_eq_some hstep
  have hk := h.not_mem_taken hqueue
  have htargets := (d.targets k).nodup_toList
  refine ⟨fun l => ?_, ?_, fun l => ?_, ?_, ?_⟩
  · rw [get?_foldl_release htargets, taken_foldl_release, h.degree, leftDependents_cons hk]
    simp only [← SortedSet.mem_def]
    by_cases hd : l ∈ d <;> by_cases hm : l ∈ d.targets k <;> simp [hd, hm]
  · rw [queue_foldl_release htargets, taken_foldl_release]
    exact h.nodup_release hqueue
  · rw [queue_foldl_release htargets, taken_foldl_release]
    exact h.mem_release_iff hqueue
  · rw [taken_foldl_release]
    refine List.pairwise_cons.2 ⟨fun l hl hkl => ?_, h.later⟩
    exact hk (h.mem_taken (List.mem_append_right _ hl) hkl)
  · rw [taken_foldl_release]
    intro l hl
    rcases List.mem_cons.1 hl with rfl | hl
    · exact fun hself => hk (h.mem_taken (by simp [hqueue]) hself)
    · exact h.irrefl l hl

/-- A module is taken away after all that depend on it, so it stands before them. -/
theorem idxOf_lt (h : Consistent d e) (hl : l ∈ e.taken) (hkl : l ∈ d.targets k) :
    e.taken.idxOf l < e.taken.idxOf k := by
  have hk : k ∈ e.taken := h.mem_taken (List.mem_append_right _ hl) hkl
  have hi := List.idxOf_lt_length_of_mem hk
  have hj := List.idxOf_lt_length_of_mem hl
  rcases Nat.lt_trichotomy (e.taken.idxOf l) (e.taken.idxOf k) with hlt | heq | hgt
  · exact hlt
  · obtain rfl : l = k := by
      rw [← List.getElem_idxOf hj, ← List.getElem_idxOf hi]
      simp only [heq]
    exact absurd hkl (h.irrefl l hk)
  · have hlater := List.pairwise_iff_getElem.1 h.later _ _ hi hj hgt
    simp only [List.getElem_idxOf] at hlater
    exact absurd hkl hlater

theorem run (h : Consistent d e) : Consistent d (e.run d) := by
  fun_induction Elimination.run d e with
  | case1 e _ => exact h
  | case2 e f hstep ih => exact ih (h.step hstep)

end Consistent

theorem queue_run (d : Dependencies) (e : Elimination) : (e.run d).queue = [] := by
  fun_induction Elimination.run d e with
  | case1 e hstep =>
    unfold Elimination.step at hstep
    split at hstep
    · assumption
    · simp at hstep
  | case2 e f _ ih => exact ih

end Elimination

namespace Dependencies

variable {d : Dependencies}

def final (d : Dependencies) : Elimination := (Elimination.start d).run d

theorem consistent_final (d : Dependencies) : d.final.Consistent d :=
  (Elimination.Consistent.start d).run

theorem mem_taken_final_iff {k : Key} :
    k ∈ d.final.taken ↔ k ∈ d ∧ Elimination.leftDependents d d.final.taken k = 0 := by
  have hqueue : d.final.queue = [] := Elimination.queue_run ..
  simpa [hqueue] using d.consistent_final.free k

theorem mem_leftOver_iff_not_taken {k : Key} : k ∈ d.leftOver ↔ k ∈ d ∧ k ∉ d.final.taken := by
  have hfinal : (Elimination.start d).run d = d.final := rfl
  simp only [leftOver, hfinal]
  split
  · next hlength =>
    have hle : d.keys.length ≤ d.final.taken.length := by
      rw [SortedMap.keys, List.length_map]
      exact Nat.le_of_eq hlength.symm
    have hall := (d.consistent_final.taken_subperm.perm_of_length_le hle).mem_iff (a := k)
    simp [SortedMap.mem_def, hall]
  · have hdegree := d.consistent_final.degree k
    simp only [List.mem_map, List.mem_filter, decide_eq_true_eq, Prod.exists,
      exists_and_right, exists_eq_right, ← SortedMap.get?_eq_some_iff, hdegree,
      mem_taken_final_iff]
    by_cases hk : k ∈ d <;> simp [hk, Nat.pos_iff_ne_zero]

theorem mem_taken_of_leftOver (h : d.leftOver = []) {k : Key} (hk : k ∈ d) :
    k ∈ d.final.taken := by
  by_contra hn
  have hleft := mem_leftOver_iff_not_taken.2 ⟨hk, hn⟩
  simp [h] at hleft

/-- When nothing is left over, ranks exist that decrease along every dependency. -/
theorem exists_rank_of_leftOver (h : d.leftOver = []) :
    ∃ rank : Key → ℕ, ∀ k l, l ∈ d.targets k → rank l < rank k := by
  refine ⟨fun k => if k ∈ d.final.taken then d.final.taken.idxOf k + 1 else 0, fun k l hl => ?_⟩
  have hk : k ∈ d.final.taken := mem_taken_of_leftOver h (Elimination.mem_of_mem_targets hl)
  simp only [hk, if_true]
  split
  · next hlt =>
    have hbefore := d.consistent_final.idxOf_lt hlt hl
    omega
  · omega

def Arc (d : Dependencies) (k l : Key) : Prop := l ∈ d.targets k

theorem idxOf_lt_of_transGen {k l : Key} (h : Relation.TransGen d.Arc k l)
    (hl : l ∈ d.final.taken) :
    k ∈ d.final.taken ∧ d.final.taken.idxOf l < d.final.taken.idxOf k := by
  have hf := d.consistent_final
  induction h with
  | single hstep =>
    exact ⟨hf.mem_taken (List.mem_append_right _ hl) hstep, hf.idxOf_lt hl hstep⟩
  | tail _ hstep ih =>
    obtain ⟨hk, hlt⟩ := ih (hf.mem_taken (List.mem_append_right _ hl) hstep)
    exact ⟨hk, (hf.idxOf_lt hl hstep).trans hlt⟩

/-- No cycle leads to the module. -/
def Clear (d : Dependencies) (k : Key) : Prop :=
  ∀ c, Relation.TransGen d.Arc c c → ¬ Relation.ReflTransGen d.Arc c k

theorem isStrictOrder_clear (d : Dependencies) :
    IsStrictOrder Key fun j l => d.Clear l ∧ Relation.TransGen d.Arc j l where
  irrefl l h := h.1 l h.2 .refl
  trans _ _ _ hjk hkl := ⟨hkl.1, hjk.2.trans hkl.2⟩

/-- A module that no cycle leads to is taken away: every chain of its dependents comes to an
end. -/
theorem mem_taken_of_clear {k : Key} (hk : k ∈ d) (h : d.Clear k) : k ∈ d.final.taken := by
  have := isStrictOrder_clear d
  have hwf : {k | k ∈ d}.WellFoundedOn fun j l => d.Clear l ∧ Relation.TransGen d.Arc j l :=
    (List.finite_toSet d.keys).wellFoundedOn
  refine hwf.induction (P := fun l => d.Clear l → l ∈ d.final.taken) hk (fun l hl ih hclear => ?_) h
  refine mem_taken_final_iff.2 ⟨hl, Elimination.leftDependents_eq_zero.2 fun j hj => ?_⟩
  exact ih j (Elimination.mem_of_mem_targets hj) ⟨hclear, .single hj⟩
    fun c hc hcj => hclear c hc (hcj.tail hj)

/-- The modules left over are those on cycles and those that a module on a cycle depends on,
directly or through others. -/
theorem mem_leftOver_iff {k : Key} : k ∈ d.leftOver ↔
    k ∈ d ∧ ∃ c, Relation.TransGen d.Arc c c ∧ Relation.ReflTransGen d.Arc c k := by
  rw [mem_leftOver_iff_not_taken]
  refine and_congr_right fun hk => ⟨fun hn => ?_, ?_⟩
  · by_contra hnone
    exact hn (mem_taken_of_clear hk fun c hc hck => hnone ⟨c, hc, hck⟩)
  · rintro ⟨c, hc, hck⟩ htaken
    have hctaken : c ∈ d.final.taken := by
      rcases Relation.reflTransGen_iff_eq_or_transGen.1 hck with rfl | hck
      · exact htaken
      · exact (idxOf_lt_of_transGen hck htaken).1
    exact lt_irrefl _ (idxOf_lt_of_transGen hc hctaken).2

theorem leftOver_eq_nil_iff : d.leftOver = [] ↔ ∀ k, ¬ Relation.TransGen d.Arc k k := by
  simp only [List.eq_nil_iff_forall_not_mem, mem_leftOver_iff]
  constructor
  · intro h k hk
    obtain ⟨l, hl, -⟩ := Relation.TransGen.head'_iff.1 hk
    exact h k ⟨Elimination.mem_of_mem_targets hl, k, hk, .refl⟩
  · rintro h k ⟨-, c, hc, -⟩
    exact h c hc

theorem leftOver_increasing (d : Dependencies) : d.leftOver.Pairwise (compare · · = .lt) := by
  simp only [leftOver]
  split
  · exact .nil
  · exact List.pairwise_map.2 (((Elimination.start d).run d).degrees.increasing.filter _)

end Dependencies

end ModuleGraph
