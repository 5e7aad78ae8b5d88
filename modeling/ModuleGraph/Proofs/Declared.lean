import ModuleGraph.Proofs.Elimination
import ModuleGraph.Proofs.Reachability
import ModuleGraph.Snapshot

namespace ModuleGraph

/-- For each declared module those that it depends on; the check for cycles takes modules away from
these. -/
def Dependencies.ofDeclared (declared : SortedMap Key Declaration) : Dependencies :=
  declared.mapValues fun _ d => d.targets

theorem Dependencies.mem_ofDeclared {declared : SortedMap Key Declaration} {k : Key} :
    k ∈ ofDeclared declared ↔ k ∈ declared := by
  rw [SortedMap.mem_def, ofDeclared, SortedMap.keys_mapValues, SortedMap.mem_def]

theorem Dependencies.targets_ofDeclared (declared : SortedMap Key Declaration) (k : Key) :
    (ofDeclared declared).targets k = ((declared.get? k).map Declaration.targets).getD ∅ := by
  rw [targets, ofDeclared, SortedMap.get?_mapValues]

namespace Snapshot

/-- One module declares a dependency on another, whose version was selected. -/
def DependsOn (declarations : List Declaration) (k l : Key) : Prop :=
  ∃ d ∈ declarations, d.key = k ∧ l ∈ d.deps.values

/-- One module declares a dependency on another, whether or not its version was selected. -/
def LeadsTo (declarations : List Declaration) (k l : Key) : Prop :=
  ∃ d ∈ declarations, d.key = k ∧ l ∈ d.deps.values ++ d.unusedDeps.values

variable {declarations : List Declaration} {declared : SortedMap Key Declaration}
  {d : Declaration} {e : GraphError} {k l : Key}

def enter (declared : SortedMap Key Declaration) (d : Declaration) :
    Except GraphError (SortedMap Key Declaration) :=
  if d.key ∈ declared then .error (.duplicateModule d.key) else .ok (declared.insert d.key d)

theorem declare_eq (declarations : List Declaration) :
    declare declarations = declarations.foldlM enter ∅ := rfl

theorem foldlM_enter_eq_ok_iff {start : SortedMap Key Declaration} :
    declarations.foldlM enter start = .ok declared ↔
      (∀ d ∈ declarations, d.key ∉ start) ∧ (declarations.map Declaration.key).Nodup ∧
        declared = declarations.foldl (fun m d => m.insert d.key d) start := by
  induction declarations generalizing start with
  | nil => simp [pure, Except.pure, eq_comm]
  | cons d ds ih =>
    rw [List.foldlM_cons, enter]
    by_cases hd : d.key ∈ start
    · simp [hd, bind, Except.bind]
    · simp only [hd, if_false, bind, Except.bind, ih, SortedMap.mem_insert, not_or, List.map_cons,
        List.nodup_cons, List.mem_cons, forall_eq_or_imp, not_false_iff, true_and, List.mem_map,
        not_exists, not_and, List.foldl_cons, forall_and]
      tauto

theorem foldlM_enter_eq_error {start : SortedMap Key Declaration}
    (h : declarations.foldlM enter start = .error e) : ∃ k, e = .duplicateModule k := by
  induction declarations generalizing start with
  | nil => simp [pure, Except.pure] at h
  | cons d ds ih =>
    rw [List.foldlM_cons, enter] at h
    by_cases hd : d.key ∈ start
    · simp only [hd, if_true, bind, Except.bind, Except.error.injEq] at h
      exact ⟨d.key, h.symm⟩
    · simp only [hd, if_false, bind, Except.bind] at h
      exact ih h

theorem declare_eq_ok_iff : declare declarations = .ok declared ↔
    (declarations.map Declaration.key).Nodup ∧
      declared = .ofList (declarations.map fun d => (d.key, d)) := by
  rw [declare_eq, foldlM_enter_eq_ok_iff, SortedMap.ofList, List.foldl_map]
  simp [SortedMap.mem_def, SortedMap.keys]

theorem declare_eq_error (h : declare declarations = .error e) :
    (∃ k, e = .duplicateModule k) ∧ ¬ (declarations.map Declaration.key).Nodup := by
  refine ⟨foldlM_enter_eq_error h, fun hd => ?_⟩
  have hok := declare_eq_ok_iff.2 ⟨hd, rfl⟩
  rw [h] at hok
  simp at hok

theorem find?_key_eq_some_iff (hnodup : (declarations.map Declaration.key).Nodup) :
    declarations.find? (·.key = k) = some d ↔ d ∈ declarations ∧ d.key = k := by
  constructor
  · intro hfind
    exact ⟨List.mem_of_find?_eq_some hfind, by simpa using List.find?_some hfind⟩
  · rintro ⟨hd, rfl⟩
    have hfound : (declarations.find? (·.key = d.key)).isSome :=
      List.find?_isSome.2 ⟨d, hd, by simp⟩
    obtain ⟨c, hc⟩ := Option.isSome_iff_exists.1 hfound
    have hkey : c.key = d.key := by simpa using List.find?_some hc
    rw [hc, List.inj_on_of_nodup_map hnodup (List.mem_of_find?_eq_some hc) hd hkey]

section Table

variable (h : declare declarations = .ok declared)

include h

theorem get?_declare : declared.get? k = some d ↔ d ∈ declarations ∧ d.key = k := by
  obtain ⟨hnodup, rfl⟩ := declare_eq_ok_iff.1 h
  rw [SortedMap.get?_ofList, List.filter_map, List.getLast?_map, Option.map_map,
    Function.comp_def, Option.map_id']
  have hmem : ∀ d, d ∈ declarations.filter ((fun e => decide (e.1 = k)) ∘ fun d => (d.key, d)) ↔
      d ∈ declarations ∧ d.key = k := by simp
  constructor
  · intro hlast
    exact (hmem d).1 (List.mem_of_getLast? hlast)
  · rintro ⟨hd, hk⟩
    have hne := List.ne_nil_of_mem ((hmem d).2 ⟨hd, hk⟩)
    obtain ⟨c, hc⟩ := Option.ne_none_iff_exists'.1 (mt List.getLast?_eq_none_iff.1 hne)
    obtain ⟨hcd, hck⟩ := (hmem c).1 (List.mem_of_getLast? hc)
    rw [List.inj_on_of_nodup_map hnodup hd hcd (hk.trans hck.symm)]
    exact hc

theorem mem_entries_declare : (k, d) ∈ declared.entries ↔ d ∈ declarations ∧ d.key = k := by
  rw [← SortedMap.get?_eq_some_iff]
  exact get?_declare h

theorem mem_declare : k ∈ declared ↔ k ∈ declarations.map Declaration.key := by
  simp only [SortedMap.mem_def, SortedMap.keys, List.mem_map, Prod.exists,
    mem_entries_declare h, exists_and_right, exists_eq_right]

theorem mem_values_declare : d ∈ declared.values ↔ d ∈ declarations := by
  simp [SortedMap.values, mem_entries_declare h]

theorem mem_getD_declare (f : Declaration → List Key) :
    l ∈ ((declared.get? k).map f).getD [] ↔ ∃ d ∈ declarations, d.key = k ∧ l ∈ f d := by
  cases hget : declared.get? k with
  | none =>
    rw [SortedMap.get?_eq_none_iff, mem_declare h] at hget
    simp only [Option.map_none, Option.getD_none, List.not_mem_nil, false_iff]
    rintro ⟨d, hd, hk, -⟩
    exact hget (List.mem_map.2 ⟨d, hd, hk⟩)
  | some d =>
    obtain ⟨hd, hk⟩ := (get?_declare h).1 hget
    constructor
    · intro hl
      exact ⟨d, hd, hk, hl⟩
    · rintro ⟨c, hc, hck, hl⟩
      obtain rfl : d = c := Option.some.inj (hget.symm.trans ((get?_declare h).2 ⟨hc, hck⟩))
      exact hl

theorem mem_next_usedArcs : l ∈ (Graph.usedArcs declared).next k ↔ DependsOn declarations k l := by
  rw [Arcs.next, Graph.usedArcs, SortedMap.get?_mapValues]
  exact mem_getD_declare h fun d => d.deps.values

theorem mem_next_allArcs : l ∈ (Graph.allArcs declared).next k ↔ LeadsTo declarations k l := by
  rw [Arcs.next, Graph.allArcs, SortedMap.get?_mapValues]
  exact mem_getD_declare h fun d => d.deps.values ++ d.unusedDeps.values

theorem mem_reachable_usedArcs : l ∈ (Graph.usedArcs declared).reachable [k] ↔
    Relation.ReflTransGen (DependsOn declarations) k l := by
  simp [Arcs.mem_reachable, Arcs.reaches_iff, mem_next_usedArcs h]

theorem mem_reachable_allArcs : l ∈ (Graph.allArcs declared).reachable [k] ↔
    Relation.ReflTransGen (LeadsTo declarations) k l := by
  simp [Arcs.mem_reachable, Arcs.reaches_iff, mem_next_allArcs h]

theorem arc_declare :
    (Dependencies.ofDeclared declared).Arc k l ↔ DependsOn declarations k l := by
  rw [Dependencies.Arc, Dependencies.targets_ofDeclared]
  have hread := mem_getD_declare (k := k) (l := l) h fun d => d.deps.values
  cases hget : declared.get? k <;> simp_all [Declaration.targets, DependsOn]

theorem arc_eq_dependsOn : (Dependencies.ofDeclared declared).Arc = DependsOn declarations := by
  funext k l
  exact propext (arc_declare h)

end Table

end Snapshot

end ModuleGraph
