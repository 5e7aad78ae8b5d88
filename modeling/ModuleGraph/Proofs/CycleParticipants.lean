import ModuleGraph.Proofs.Validation

/-!
# Which modules the report of a cycle names

When the dependencies go in a circle, the error names what the elimination of modules leaves over.
These are the modules on cycles and also every module that one on a cycle depends on, directly or
through others. So the report names the cycles alone just if no dependency leads out of them.
-/
namespace ModuleGraph

theorem Check.FirstBroken.holdBelow {declarations : List Declaration} {rows : List UsageRow}
    {c : Check} (h : c.FirstBroken declarations rows) : HoldBelow declarations rows c.stage := by
  intro c' hlt
  refine h.before c' ?_
  cases c <;> cases c' <;> simp_all [Before, stage]

namespace Snapshot

/-- The module leads back to itself along one or more dependencies. -/
def OnCycle (declarations : List Declaration) (k : Key) : Prop :=
  Relation.TransGen (DependsOn declarations) k k

variable {declarations : List Declaration} {rows : List UsageRow}
  {declared : SortedMap Key Declaration} {c k : Key}

theorem exists_dependsOn_of_onCycle (hc : OnCycle declarations c)
    (hck : Relation.ReflTransGen (DependsOn declarations) c k) :
    ∃ j, DependsOn declarations j k := by
  obtain ⟨j, -, hjk⟩ := Relation.TransGen.tail'_iff.1 (hc.trans_left hck)
  exact ⟨j, hjk⟩

theorem mem_leftOver_declare (h : declare declarations = .ok declared)
    (htargets : ∀ k, (Check.targetsDeclared k).Holds declarations rows) :
    k ∈ (Dependencies.ofDeclared declared).leftOver ↔
      ∃ c, OnCycle declarations c ∧ Relation.ReflTransGen (DependsOn declarations) c k := by
  rw [Dependencies.mem_leftOver_iff, arc_eq_dependsOn h]
  refine and_iff_right_of_imp ?_
  rintro ⟨c, hc, hck⟩
  obtain ⟨j, d, hd, hj, hk⟩ := exists_dependsOn_of_onCycle hc hck
  rw [Dependencies.mem_ofDeclared, mem_declare h]
  exact htargets j d hd hj k (List.mem_append_left _ hk)

theorem onCycle_of_reached
    (hclosed : ∀ c k, OnCycle declarations c → DependsOn declarations c k → OnCycle declarations k)
    (hc : OnCycle declarations c) (hck : Relation.ReflTransGen (DependsOn declarations) c k) :
    OnCycle declarations k := by
  induction hck with
  | refl => exact hc
  | tail _ hstep ih => exact hclosed _ _ ih hstep

theorem build_of_cycle (h : Check.noCycle.FirstBroken declarations rows) :
    ∃ declared, declare declarations = .ok declared ∧
      build declarations rows =
        .error (.dependencyCycle (Dependencies.ofDeclared declared).leftOver) := by
  have hbelow := h.holdBelow
  have hd := declare_eq_ok_iff.2 ⟨hbelow .distinctKeys (by decide), rfl⟩
  have hroot := (missingRoot?_iff_holds hd).2 (hbelow .rootDeclared (by decide))
  have hedges := (badEdge?_iff_holds hd).2 fun k =>
    ⟨hbelow (.targetsDeclared k) (by simp [Check.stage]),
      hbelow (.causesPlaced k) (by simp [Check.stage])⟩
  have hcycle := mt (cycle?_iff_holds hd).1 h.broken
  refine ⟨_, hd, build_eq_error_iff.2 (.inr ⟨_, hd, ?_⟩)⟩
  rw [fault?, hroot, hedges]
  unfold cycle? at hcycle ⊢
  split at hcycle
  · exact absurd rfl hcycle
  · rfl

/-- Where cycles are the first fault, the error names in the order of the keys every module on a
cycle and every module that one on a cycle leads to. -/
theorem build_names_cycles (declarations : List Declaration) (rows : List UsageRow)
    (h : Check.noCycle.FirstBroken declarations rows) :
    ∃ participants, build declarations rows = .error (.dependencyCycle participants) ∧
      participants.Pairwise (compare · · = .lt) ∧
      (∀ k, k ∈ participants ↔
        ∃ c, OnCycle declarations c ∧ Relation.ReflTransGen (DependsOn declarations) c k) ∧
      ((∀ k, k ∈ participants ↔ OnCycle declarations k) ↔
        ∀ c k, OnCycle declarations c → DependsOn declarations c k → OnCycle declarations k) := by
  obtain ⟨declared, hd, hbuild⟩ := build_of_cycle h
  have htargets : ∀ k, (Check.targetsDeclared k).Holds declarations rows := fun k =>
    h.holdBelow (.targetsDeclared k) (by simp [Check.stage])
  have hnamed := fun k => mem_leftOver_declare (k := k) hd htargets
  refine ⟨_, hbuild, Dependencies.leftOver_increasing _, hnamed, fun hall c k hc hck => ?_,
    fun hclosed k => ?_⟩
  · exact (hall k).1 ((hnamed k).2 ⟨c, hc, .single hck⟩)
  · rw [hnamed]
    constructor
    · rintro ⟨c, hc, hck⟩
      exact onCycle_of_reached hclosed hc hck
    · exact fun hk => ⟨k, hk, .refl⟩

def trailing : SortedMap Key Declaration :=
  plain [(.root, [⟨"a", "1"⟩]), (⟨"a", "1"⟩, [⟨"b", "1"⟩]), (⟨"b", "1"⟩, [⟨"a", "1"⟩, ⟨"c", "1"⟩]),
    (⟨"c", "1"⟩, [])]

theorem build_trailing : build trailing.values [] =
    .error (.dependencyCycle [⟨"a", "1"⟩, ⟨"b", "1"⟩, ⟨"c", "1"⟩]) := by cbv

theorem firstBroken_trailing : Check.noCycle.FirstBroken trailing.values [] := by
  have hd : declare trailing.values = .ok trailing := by cbv
  have hfault : fault? trailing [] =
      some (.dependencyCycle [⟨"a", "1"⟩, ⟨"b", "1"⟩, ⟨"c", "1"⟩]) := by cbv
  obtain ⟨c, hc, hfirst⟩ := (tells_fault? hd).firstBroken _ hfault (holdBelow_one hd)
  obtain rfl : Check.noCycle = c := Option.some.inj hc
  exact hfirst

theorem not_onCycle_trailing : ¬ OnCycle trailing.values ⟨"c", "1"⟩ := by
  intro h
  obtain ⟨k, ⟨d, hd, hkey, hk⟩, -⟩ := Relation.TransGen.head'_iff.1 h
  have hnone : trailing.values.all (fun d => d.key ≠ ⟨"c", "1"⟩ ∨ d.deps.values = []) := by cbv
  have hdeps := (of_decide_eq_true (List.all_eq_true.1 hnone d hd)).resolve_left (· hkey)
  simp [hdeps] at hk

/-- The third module is named, for one on the cycle depends on it. -/
theorem build_names_cycles_trailing : Check.noCycle.FirstBroken trailing.values [] ∧
    ∃ participants, build trailing.values [] = .error (.dependencyCycle participants) ∧
      ⟨"c", "1"⟩ ∈ participants ∧ ∃ c, OnCycle trailing.values c ∧
        Relation.ReflTransGen (DependsOn trailing.values) c ⟨"c", "1"⟩ := by
  obtain ⟨participants, hbuild, -, hnamed, -⟩ :=
    build_names_cycles trailing.values [] firstBroken_trailing
  obtain rfl : [⟨"a", "1"⟩, ⟨"b", "1"⟩, ⟨"c", "1"⟩] = participants :=
    GraphError.dependencyCycle.inj (Except.error.inj (build_trailing.symm.trans hbuild))
  have hc : (⟨"c", "1"⟩ : Key) ∈ [⟨"a", "1"⟩, ⟨"b", "1"⟩, ⟨"c", "1"⟩] := by simp
  exact ⟨firstBroken_trailing, _, hbuild, hc, (hnamed _).1 hc⟩

/-- The report names a module that is on no cycle. -/
theorem build_names_bystander : Check.noCycle.FirstBroken trailing.values [] ∧
    ∃ participants, build trailing.values [] = .error (.dependencyCycle participants) ∧
      ⟨"c", "1"⟩ ∈ participants ∧ ¬ OnCycle trailing.values ⟨"c", "1"⟩ :=
  ⟨firstBroken_trailing, _, build_trailing, by simp, not_onCycle_trailing⟩

end Snapshot

end ModuleGraph
