import ModuleGraph.Proofs.Loop
import ModuleGraph.Proofs.Snapshot

/-!
# The loop of the elimination

The degrees that the elimination starts with are those that come out when the targets of all modules
are gone through and each is counted once for every module. Each turn of the loop takes one module
from the queue and one from the degree of each of its targets. Since the degrees count the modules
that are left, there is always something to take from; and since no module is taken twice, there are
no more turns than modules.
-/
namespace ModuleGraph

namespace Elimination

variable {d : Dependencies} {degrees : SortedMap Key ℕ} {e f last : Elimination} {k l : Key}
  {queue : List Key} {n : ℕ}

def raise (degrees : SortedMap Key ℕ) (target : Key) : SortedMap Key ℕ :=
  degrees.insert target ((degrees.get? target).getD 0 + 1)

/-- For each module how many depend on it, counted up from nothing along the targets of all. -/
def tally (d : Dependencies) : SortedMap Key ℕ :=
  (d.values.flatMap SortedSet.toList).foldl raise (d.mapValues fun _ _ => 0)

theorem raise_eq_adjust (h : l ∈ degrees) : raise degrees l = degrees.adjust l (· + 1) := by
  refine SortedMap.ext fun k => ?_
  rw [raise, SortedMap.get?_insert, SortedMap.adjust, SortedMap.get?_mapValues]
  by_cases hk : k = l
  · subst hk
    cases hget : degrees.get? k with
    | none => exact absurd h (SortedMap.get?_eq_none_iff.1 hget)
    | some c => simp
  · simp [hk]

theorem get?_foldl_raise {targets : List Key} (h : ∀ l ∈ targets, l ∈ degrees) (k : Key) :
    (targets.foldl raise degrees).get? k = (degrees.get? k).map (· + targets.count k) := by
  induction targets generalizing degrees with
  | nil => simp
  | cons x targets ih =>
    obtain ⟨hx, htargets⟩ := List.forall_mem_cons.1 h
    have hkeys : ∀ l ∈ targets, l ∈ degrees.adjust x (· + 1) := fun l hl => by
      rw [SortedMap.mem_def, SortedMap.keys_adjust]
      exact htargets l hl
    rw [List.foldl_cons, raise_eq_adjust hx, ih hkeys, SortedMap.adjust, SortedMap.get?_mapValues,
      Option.map_map, List.count_cons]
    refine congrArg (Option.map · _) (funext fun c => ?_)
    by_cases hk : k = x
    · simp only [Function.comp_apply, hk, if_true, beq_self_eq_true]
      omega
    · simp [hk, Ne.symm hk]

theorem count_targets (rows : List (SortedSet Key)) (k : Key) :
    (rows.flatMap SortedSet.toList).count k = rows.countP (k ∈ ·) := by
  induction rows with
  | nil => rfl
  | cons targets rows ih =>
    rw [List.flatMap_cons, List.count_append, ih, targets.nodup_toList.count, List.countP_cons,
      Nat.add_comm]
    simp [SortedSet.mem_def]

theorem exists_targets_of_mem_values {targets : SortedSet Key} (h : targets ∈ d.values) :
    ∃ k, d.targets k = targets := by
  obtain ⟨k, hk⟩ := SortedMap.mem_values_iff.1 h
  exact ⟨k, targets_of_mem_entries (SortedMap.get?_eq_some_iff.1 hk)⟩

/-- Where all targets are known, counting up gives the degrees of the start. -/
theorem tally_eq_degrees (h : ∀ k l, l ∈ d.targets k → l ∈ d) :
    tally d = (start d).degrees := by
  have htargets : ∀ l ∈ d.values.flatMap SortedSet.toList, l ∈ d.mapValues fun _ _ => 0 := by
    intro l hl
    obtain ⟨targets, hrow, hl⟩ := List.mem_flatMap.1 hl
    obtain ⟨k, rfl⟩ := exists_targets_of_mem_values hrow
    rw [SortedMap.mem_def, SortedMap.keys_mapValues]
    exact h k l hl
  refine SortedMap.ext fun k => ?_
  rw [tally, get?_foldl_raise htargets, start, SortedMap.get?_mapValues, SortedMap.get?_mapValues,
    Option.map_map, count_targets]
  simp [Function.comp_def]

theorem run_of_step (h : e.step d = some f) : f.run d = e.run d := by
  rw [run.eq_1 _ e]
  split
  · next hnone => simp [hnone] at h
  · next hsome => rw [Option.some.inj (h.symm.trans hsome)]

theorem run_of_step_eq_none (h : e.step d = none) : e.run d = e := by
  rw [run]
  split
  · rfl
  · next hsome => simp [hsome] at h

theorem consistent_of_after (h : After (step d) (start d) n e) : Consistent d e :=
  h.keeps (fun _ _ h hstep => h.step hstep) (Consistent.start d)

theorem length_taken_of_after (h : After (step d) (start d) n e) : e.taken.length = n := by
  induction h with
  | start => rfl
  | next _ hlast ih =>
    obtain ⟨k, queue, -, rfl⟩ := step_eq_some hlast
    rw [taken_foldl_release, List.length_cons, ih]

theorem exists_after_run (d : Dependencies) : ∃ n last, n ≤ d.size ∧
    After (step d) (start d) n last ∧ last.step d = none ∧ (start d).run d = last := by
  have hspends : After.Spends (step d) (fun _ => True) weight :=
    fun _ _ _ hstep => ⟨trivial, weight_step_lt hstep⟩
  obtain ⟨n, last, hlast, hend, -⟩ := hspends.exists_last (s := start d) trivial
  have hle := (consistent_of_after hlast).taken_subperm.length_le
  rw [length_taken_of_after hlast, SortedMap.keys, List.length_map] at hle
  refine ⟨n, last, hle, hlast, hend, ?_⟩
  rw [← hlast.unchanged fun _ _ hstep => run_of_step hstep, run_of_step_eq_none hend]

theorem step_of_queue (hqueue : e.queue = k :: queue) : e.step d =
    some ((d.targets k).toList.foldl release { e with queue, taken := k :: e.taken }) := by
  unfold step
  rw [hqueue]
  rfl

/-- When a target of the module taken is released, it still counts that module. -/
theorem get?_foldl_release_target (h : Consistent d e) (hqueue : e.queue = k :: queue) (hl : l ∈ d)
    {before after : List Key} (htargets : (d.targets k).toList = before ++ l :: after) :
    ∃ left, (before.foldl release { e with queue, taken := k :: e.taken }).degrees.get? l =
      some (left + 1) := by
  have hnodup : (before ++ l :: after).Nodup := htargets ▸ (d.targets k).nodup_toList
  obtain ⟨hbefore, -, hapart⟩ := List.nodup_append.1 hnodup
  have hl_before : l ∉ before := fun hmem => hapart l hmem l List.mem_cons_self rfl
  have hl_target : l ∈ d.targets k := by
    rw [SortedSet.mem_def, htargets]
    exact List.mem_append_right _ List.mem_cons_self
  have hdegree := h.degree l
  rw [if_pos hl, leftDependents_cons (h.not_mem_taken hqueue), if_pos hl_target] at hdegree
  refine ⟨leftDependents d (k :: e.taken) l, ?_⟩
  rw [get?_foldl_release hbefore, if_neg hl_before]
  exact hdegree

variable {declared : SortedMap Key Declaration}

/-- What is so whenever a turn of the elimination begins, after so many turns. -/
structure Exact (declared : SortedMap Key Declaration) (n : ℕ) (now : Elimination) : Prop where
  turns : now.taken.length = n
  /-- None was taken twice, and none that was taken waits again. -/
  once : (now.queue ++ now.taken).Nodup
  /-- The degree of a module is the number of modules not taken yet that depend on it. -/
  degree : ∀ k ∈ declared, now.degrees.get? k =
    some (declared.keysWhere fun j m => j ∉ now.taken ∧ k ∈ m.deps.values).toList.length
  /-- The module that is taken next is declared. Its targets are released one after another, and
  when the turn of each comes its degree is not used up. -/
  turn : ∀ k queue, now.queue = k :: queue → ∃ m, declared.get? k = some m ∧
    let taking := { now with queue, taken := k :: now.taken }
    now.step (.ofDeclared declared) = some (m.targets.toList.foldl release taking) ∧
      ∀ before target after, m.targets.toList = before ++ target :: after →
        ∃ left, (before.foldl release taking).degrees.get? target = some (left + 1)

theorem mem_of_mem_targets_ofDeclared (hedges : Snapshot.badEdge? declared = none)
    (hl : l ∈ (Dependencies.ofDeclared declared).targets k) : l ∈ declared := by
  rw [Dependencies.targets_ofDeclared] at hl
  cases hget : declared.get? k with
  | none => simp [hget] at hl
  | some m =>
    have hm : m ∈ declared.values := SortedMap.mem_values_iff.2 ⟨k, hget⟩
    have hdeps : l ∈ m.deps.values := by simpa [hget, Declaration.targets] using hl
    exact (Snapshot.badEdge?_eq_none_iff.1 hedges m hm).1 l (List.mem_append_left _ hdeps)

theorem leftDependents_eq_length (declared : SortedMap Key Declaration) (taken : List Key)
    (k : Key) : leftDependents (.ofDeclared declared) taken k =
      (declared.keysWhere fun j m => j ∉ taken ∧ k ∈ m.deps.values).toList.length := by
  have hrow : ∀ m : Declaration, k ∈ m.targets ↔ k ∈ m.deps.values := fun m =>
    SortedSet.mem_ofList
  rw [leftDependents, Dependencies.ofDeclared, SortedMap.mapValues, List.countP_map,
    List.countP_eq_length_filter, SortedMap.keysWhere, List.length_map]
  simp only [Function.comp_def, hrow]

theorem exact_of_after (hedges : Snapshot.badEdge? declared = none)
    (h : After (step (.ofDeclared declared)) (start (.ofDeclared declared)) n e) :
    e.Exact declared n := by
  have hinv := consistent_of_after h
  refine ⟨length_taken_of_after h, hinv.nodup, fun k hk => ?_, fun k queue hqueue => ?_⟩
  · rw [hinv.degree, if_pos (Dependencies.mem_ofDeclared.2 hk), leftDependents_eq_length]
  · have hk : k ∈ declared := Dependencies.mem_ofDeclared.1 ((hinv.free k).1 (by simp [hqueue])).1
    obtain ⟨m, hm⟩ : ∃ m, declared.get? k = some m :=
      Option.ne_none_iff_exists'.1 fun hnone => SortedMap.get?_eq_none_iff.1 hnone hk
    have hrow : (Dependencies.ofDeclared declared).targets k = m.targets := by
      rw [Dependencies.targets_ofDeclared, hm, Option.map_some, Option.getD_some]
    refine ⟨m, hm, hrow ▸ step_of_queue hqueue, fun before target after hsplit => ?_⟩
    rw [← hrow] at hsplit
    have htarget : target ∈ (Dependencies.ofDeclared declared).targets k := by
      rw [SortedSet.mem_def, hsplit]
      exact List.mem_append_right _ List.mem_cons_self
    have hdeclared := Dependencies.mem_ofDeclared.2 (mem_of_mem_targets_ofDeclared hedges htarget)
    exact get?_foldl_release_target hinv hqueue hdeclared hsplit

end Elimination

namespace Snapshot

open Elimination

/-- Where the edges of declared modules are without fault, whether or not they go in a circle,
counting up from nothing gives the degrees that the elimination starts with. Its loop ends after no
more turns than there are modules. Whenever a turn begins, each degree is the number of modules left
that depend on the module, and what is taken next is declared and was not taken before; no turn
takes from a degree that is used up. -/
theorem elimination_exact (declared : SortedMap Key Declaration) (h : badEdge? declared = none) :
    let d := Dependencies.ofDeclared declared
    tally d = (Elimination.start d).degrees ∧
      (∃ n last, n ≤ declared.size ∧ After (step d) (.start d) n last ∧ last.step d = none ∧
        (Elimination.start d).run d = last) ∧
      ∀ n now, After (step d) (.start d) n now → now.Exact declared n := by
  intro d
  have htargets : ∀ k l, l ∈ d.targets k → l ∈ d := fun k l hl =>
    Dependencies.mem_ofDeclared.2 (mem_of_mem_targets_ofDeclared h hl)
  have hsize : d.size = declared.size := List.length_map _
  exact ⟨tally_eq_degrees htargets, hsize ▸ exists_after_run d, fun n now => exact_of_after h⟩

/-- A root with two names for one dependency, and behind that two modules that depend on each other,
the first on itself as well. -/
def knotted : SortedMap Key Declaration :=
  (plain [
    (.root, []), (⟨"a", "1"⟩, [⟨"b", "1"⟩]), (⟨"b", "1"⟩, [⟨"b", "1"⟩, ⟨"c", "1"⟩]),
    (⟨"c", "1"⟩, [⟨"b", "1"⟩])]).adjust .root fun m =>
      { m with deps := .ofList [("x", ⟨"a", "1"⟩), ("y", ⟨"a", "1"⟩)] }

/-- Both names count once. Two modules are taken away, and both that are left depend on the first
of them. -/
theorem elimination_exact_knotted : badEdge? knotted = none ∧
    let d := Dependencies.ofDeclared knotted
    (tally d).get? ⟨"a", "1"⟩ = some 1 ∧
    (∃ now, After (step d) (.start d) 2 now ∧ now.taken = [⟨"a", "1"⟩, .root] ∧
      now.queue = [] ∧ now.degrees.get? ⟨"b", "1"⟩ = some 2 ∧ now.Exact knotted 2) ∧
    ∃ n last, n ≤ 4 ∧ After (step d) (.start d) n last ∧ last.step d = none := by
  have hedges : badEdge? knotted = none := by cbv
  have hsize : knotted.size = 4 := by cbv
  obtain ⟨htally, ⟨n, last, hle, hlast, hend, -⟩, hexact⟩ := elimination_exact knotted hedges
  have hdegree : (Elimination.start (.ofDeclared knotted)).degrees.get? ⟨"a", "1"⟩ = some 1 := by
    cbv
  have htwo : ((step (.ofDeclared knotted) (.start (.ofDeclared knotted))).bind
      (step (.ofDeclared knotted))).map (fun e => (e.taken, e.queue, e.degrees.get? ⟨"b", "1"⟩)) =
      some ([⟨"a", "1"⟩, .root], [], some 2) := by cbv
  obtain ⟨now, hboth, hnow⟩ := Option.map_eq_some_iff.1 htwo
  obtain ⟨one, hfirst, hsecond⟩ := Option.bind_eq_some_iff.1 hboth
  have hafter := (After.start.next hfirst).next hsecond
  simp only [Prod.mk.injEq] at hnow
  obtain ⟨htaken, hqueue, hleft⟩ := hnow
  exact ⟨hedges, htally ▸ hdegree, ⟨now, hafter, htaken, hqueue, hleft, hexact 2 now hafter⟩,
    n, last, hsize ▸ hle, hlast, hend⟩

end Snapshot

end ModuleGraph
