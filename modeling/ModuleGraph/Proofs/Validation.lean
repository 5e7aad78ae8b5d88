import ModuleGraph.Proofs.Declared
import ModuleGraph.Proofs.Snapshot

/-!
# Which declarations are accepted, and what is told of the others

`Check` lists what declarations and usage rows have to satisfy, and `Check.Holds` says it of them as
they are given, without the tables that are built from them. A snapshot is built just if every check
holds. Otherwise the error is that of the first broken check, where the checks of single modules
come in the order of their keys.
-/
namespace ModuleGraph

inductive Check
  | distinctKeys
  | rootDeclared
  | targetsDeclared (module : Key)
  | causesPlaced (module : Key)
  | noCycle
  | allReachable
  | usersDeclared

/-- The check that an error is about. A key that is looked up in vain is about none. -/
def GraphError.check? : GraphError → Option Check
  | .duplicateModule _ => some .distinctKeys
  | .missingRoot => some .rootDeclared
  | .danglingEdge module _ _ => some (.targetsDeclared module)
  | .unknownExtensionEdge module _ => some (.causesPlaced module)
  | .dependencyCycle _ => some .noCycle
  | .unreachable _ => some .allReachable
  | .unknownUsageModule _ _ => some .usersDeclared
  | .unknownModule _ => none

namespace Check

def Holds (declarations : List Declaration) (rows : List UsageRow) : Check → Prop
  | distinctKeys => (declarations.map Declaration.key).Nodup
  | rootDeclared => Key.root ∈ declarations.map Declaration.key
  | targetsDeclared k => ∀ d ∈ declarations, d.key = k →
      ∀ l ∈ d.deps.values ++ d.unusedDeps.values, l ∈ declarations.map Declaration.key
  | causesPlaced k => ∀ d ∈ declarations, d.key = k →
      ∀ name ∈ d.extensionDeps.keys, name ∈ d.deps.names
  | noCycle => ∀ k, ¬ Relation.TransGen (Snapshot.DependsOn declarations) k k
  | allReachable => ∀ k ∈ declarations.map Declaration.key,
      Relation.ReflTransGen (Snapshot.LeadsTo declarations) Key.root k
  | usersDeclared => ∀ row ∈ rows, row.user ∈ declarations.map Declaration.key

def stage : Check → ℕ
  | distinctKeys => 0
  | rootDeclared => 1
  | targetsDeclared _ | causesPlaced _ => 2
  | noCycle => 3
  | allReachable => 4
  | usersDeclared => 5

/-- The order of the checks: by stage, then by module, and the targets of a module before its
causes. -/
def Before : Check → Check → Prop
  | targetsDeclared k, targetsDeclared l => compare k l = .lt
  | targetsDeclared k, causesPlaced l => (compare k l).isLE
  | causesPlaced k, targetsDeclared l => compare k l = .lt
  | causesPlaced k, causesPlaced l => compare k l = .lt
  | c, c' => c.stage < c'.stage

/-- A check is broken and all checks before it hold. -/
structure FirstBroken (declarations : List Declaration) (rows : List UsageRow) (c : Check) :
    Prop where
  broken : ¬ c.Holds declarations rows
  before : ∀ c' : Check, c'.Before c → c'.Holds declarations rows

variable {declarations : List Declaration} {rows : List UsageRow} {c c' : Check}

def HoldBelow (declarations : List Declaration) (rows : List UsageRow) (n : ℕ) : Prop :=
  ∀ c : Check, c.stage < n → c.Holds declarations rows

theorem stage_le_of_before (h : c.Before c') : c.stage ≤ c'.stage := by
  cases c <;> cases c' <;> simp_all [Before, stage]

theorem stage_lt_of_before (h : c.Before c') (hc : c'.stage ≠ 2) : c.stage < c'.stage := by
  cases c <;> cases c' <;> simp_all [Before, stage]

theorem stage_lt (c : Check) : c.stage < 6 := by
  cases c <;> simp [stage]

theorem eq_of_stage (h : c.stage = c'.stage) (hc : c'.stage ≠ 2) : c = c' := by
  cases c <;> cases c' <;> simp_all [stage]

/-- What a search for faults says of the stages that it goes through: when it finds none, their
checks hold; what it finds is about the first broken check. -/
structure Tells (declarations : List Declaration) (rows : List UsageRow) (first next : ℕ)
    (found : Option GraphError) : Prop where
  holds : found = none →
    ∀ c : Check, first ≤ c.stage → c.stage < next → c.Holds declarations rows
  firstBroken : ∀ e, found = some e → HoldBelow declarations rows first →
    ∃ c, e.check? = some c ∧ c.FirstBroken declarations rows

namespace Tells

variable {found found' : Option GraphError} {first next last : ℕ}

theorem of_check (hc : c.stage ≠ 2) (hnone : found = none ↔ c.Holds declarations rows)
    (hsome : ∀ e, found = some e → e.check? = some c) :
    Tells declarations rows c.stage (c.stage + 1) found := by
  refine ⟨fun h c' hle hlt => ?_, fun e he hbelow => ⟨c, hsome e he, ?_, fun c' hbefore => ?_⟩⟩
  · rw [eq_of_stage (Nat.le_antisymm (Nat.le_of_lt_succ hlt) hle) hc]
    exact hnone.1 h
  · rw [← hnone, he]
    simp
  · exact hbelow c' (stage_lt_of_before hbefore hc)

theorem orElse (h : Tells declarations rows first next found)
    (h' : Tells declarations rows next last found') :
    Tells declarations rows first last (found <|> found') := by
  cases found with
  | some e =>
    refine ⟨fun hnone => by simp at hnone, fun e' he => ?_⟩
    exact h.firstBroken e' (by simpa using he)
  | none =>
    refine ⟨fun hnone c hle hlt => ?_, fun e he hbelow => ?_⟩
    · rcases Nat.lt_or_ge c.stage next with hc | hc
      · exact h.holds rfl c hle hc
      · exact h'.holds (by simpa using hnone) c hc hlt
    · refine h'.firstBroken e (by simpa using he) fun c hc => ?_
      rcases Nat.lt_or_ge c.stage first with hfirst | hfirst
      · exact hbelow c hfirst
      · exact h.holds rfl c hfirst hc

end Tells

end Check

namespace Snapshot

variable {declarations : List Declaration} {rows : List UsageRow}
  {declared : SortedMap Key Declaration} {d : Declaration} {s : Snapshot} {e : GraphError}
  {k l : Key}

theorem build_eq_error_iff : build declarations rows = .error e ↔
    declare declarations = .error e ∨
      ∃ declared, declare declarations = .ok declared ∧ fault? declared rows = some e := by
  unfold build
  cases hd : declare declarations with
  | error e' => simp
  | ok declared => cases hf : fault? declared rows <;> simp [hf]

theorem missingRoot?_eq_some (h : missingRoot? declared = some e) :
    e.check? = some .rootDeclared := by
  unfold missingRoot? at h
  split at h
  · simp at h
  · obtain rfl := Option.some.inj h
    rfl

theorem edgeFault?_eq_some (h : edgeFault? declared d = some e) :
    (e.check? = some (.targetsDeclared d.key) ∧
      ¬ ∀ l ∈ d.deps.values ++ d.unusedDeps.values, l ∈ declared) ∨
    (e.check? = some (.causesPlaced d.key) ∧
      (∀ l ∈ d.deps.values ++ d.unusedDeps.values, l ∈ declared) ∧
      ¬ ∀ name ∈ d.extensionDeps.keys, name ∈ d.deps.names) := by
  have hfault : edgeFault? declared d ≠ none := by simp [h]
  rw [Ne, edgeFault?_eq_none_iff] at hfault
  unfold edgeFault? at h
  split at h
  · next name target hfind =>
    obtain rfl := Option.some.inj h
    refine .inl ⟨rfl, fun htargets => ?_⟩
    rw [find?_undeclared_eq_none_iff.2 htargets] at hfind
    simp at hfind
  · next hfind =>
    obtain ⟨name, -, rfl⟩ := Option.map_eq_some_iff.1 h
    have htargets := find?_undeclared_eq_none_iff.1 hfind
    exact .inr ⟨rfl, htargets, fun hcauses => hfault ⟨htargets, hcauses⟩⟩

theorem cycle?_eq_some (h : cycle? declared = some e) : e.check? = some .noCycle := by
  unfold cycle? at h
  split at h
  · simp at h
  · obtain rfl := Option.some.inj h
    rfl

theorem unreachable?_eq_some (h : unreachable? declared = some e) :
    e.check? = some .allReachable := by
  obtain ⟨k, -, rfl⟩ := Option.map_eq_some_iff.1 h
  rfl

theorem strayUsage?_eq_some (h : strayUsage? declared rows = some e) :
    e.check? = some .usersDeclared := by
  obtain ⟨row, -, rfl⟩ := Option.map_eq_some_iff.1 h
  rfl

section Declared

variable (h : declare declarations = .ok declared)

include h

theorem missingRoot?_iff_holds : missingRoot? declared = none ↔
    Check.rootDeclared.Holds declarations rows := by
  rw [missingRoot?_eq_none_iff, mem_declare h]
  rfl

theorem badEdge?_iff_holds : badEdge? declared = none ↔
    ∀ k, (Check.targetsDeclared k).Holds declarations rows ∧
      (Check.causesPlaced k).Holds declarations rows := by
  simp only [badEdge?_eq_none_iff, mem_values_declare h, Check.Holds, ← mem_declare h]
  constructor
  · intro hall k
    exact ⟨fun d hd _ => (hall d hd).1, fun d hd _ => (hall d hd).2⟩
  · intro hall d hd
    exact ⟨(hall d.key).1 d hd rfl, (hall d.key).2 d hd rfl⟩

theorem cycle?_iff_holds : cycle? declared = none ↔ Check.noCycle.Holds declarations rows := by
  have hleft := Dependencies.leftOver_eq_nil_iff (d := .ofDeclared declared)
  rw [arc_eq_dependsOn h, Dependencies.ofDeclared] at hleft
  rw [Check.Holds, ← hleft, cycle?]
  split <;> simp_all

theorem unreachable?_iff_holds : unreachable? declared = none ↔
    Check.allReachable.Holds declarations rows := by
  simp only [unreachable?, Option.map_eq_none_iff, List.find?_eq_none, decide_eq_true_eq,
    mem_reachable_allArcs h, not_not, Check.Holds, ← mem_declare h]
  rfl

theorem strayUsage?_iff_holds : strayUsage? declared rows = none ↔
    Check.usersDeclared.Holds declarations rows := by
  simp only [strayUsage?, Option.map_eq_none_iff, List.find?_eq_none, decide_eq_true_eq,
    Decidable.not_not, Check.Holds, ← mem_declare h]

theorem values_increasing :
    declared.values.Pairwise fun c d => compare c.key d.key = .lt := by
  refine List.pairwise_map.2 (declared.increasing.imp_of_mem fun {x y} hx hy hlt => ?_)
  rwa [((mem_entries_declare h).1 hx).2, ((mem_entries_declare h).1 hy).2]

theorem badEdge?_eq_some (hbad : badEdge? declared = some e) :
    ∃ d ∈ declarations, edgeFault? declared d = some e ∧
      ∀ c ∈ declarations, compare c.key d.key = .lt → edgeFault? declared c = none := by
  obtain ⟨front, d, back, hvalues, hd, hfront⟩ := List.findSome?_eq_some_iff.1 hbad
  have hincreasing := values_increasing h
  simp only [← mem_values_declare h, hvalues] at hincreasing ⊢
  refine ⟨d, by simp, hd, fun c hc hlt => ?_⟩
  rcases List.mem_append.1 hc with hc | hc
  · exact hfront c hc
  · rcases List.mem_cons.1 hc with rfl | hc
    · simp at hlt
    · have hgt := (List.pairwise_cons.1 (List.pairwise_append.1 hincreasing).2.1).1 c hc
      rw [Std.OrientedCmp.gt_iff_lt.2 hgt] at hlt
      simp at hlt

theorem tells_badEdge? : Check.Tells declarations rows 2 3 (badEdge? declared) := by
  refine ⟨fun hnone c hle hlt => ?_, fun e hbad hbelow => ?_⟩
  · cases c with
    | targetsDeclared k => exact ((badEdge?_iff_holds h).1 hnone k).1
    | causesPlaced k => exact ((badEdge?_iff_holds h).1 hnone k).2
    | _ => simp [Check.stage] at hle hlt
  obtain ⟨d, hd, hfault, hfirst⟩ := badEdge?_eq_some h hbad
  have hearlier : ∀ k, compare k d.key = .lt →
      (Check.targetsDeclared k).Holds declarations rows ∧
        (Check.causesPlaced k).Holds declarations rows := by
    intro k hlt
    simp only [Check.Holds, ← mem_declare h]
    constructor
    · rintro c hc rfl
      exact (edgeFault?_eq_none_iff.1 (hfirst c hc hlt)).1
    · rintro c hc rfl
      exact (edgeFault?_eq_none_iff.1 (hfirst c hc hlt)).2
  rcases edgeFault?_eq_some hfault with ⟨hc, hbroken⟩ | ⟨hc, htargets, hbroken⟩
  · refine ⟨_, hc, fun hholds => hbroken ?_, fun c' hbefore => ?_⟩
    · simpa only [mem_declare h] using hholds d hd rfl
    · cases c' with
      | targetsDeclared k => exact (hearlier k hbefore).1
      | causesPlaced k => exact (hearlier k hbefore).2
      | _ => exact hbelow _ ((Check.stage_le_of_before hbefore).lt_of_ne (by simp [Check.stage]))
  · refine ⟨_, hc, fun hholds => hbroken (hholds d hd rfl), fun c' hbefore => ?_⟩
    cases c' with
    | targetsDeclared k =>
      rcases Ordering.isLE_iff_eq_lt_or_eq_eq.1 hbefore with hlt | heq
      · exact (hearlier k hlt).1
      · obtain rfl := Std.LawfulEqCmp.compare_eq_iff_eq.1 heq
        intro c hcd hk
        obtain rfl := List.inj_on_of_nodup_map (declare_eq_ok_iff.1 h).1 hcd hd hk
        simpa only [mem_declare h] using htargets
    | causesPlaced k => exact (hearlier k hbefore).2
    | _ => exact hbelow _ ((Check.stage_le_of_before hbefore).lt_of_ne (by simp [Check.stage]))

theorem tells_fault? : Check.Tells declarations rows 1 6 (fault? declared rows) :=
  .orElse (.of_check (by decide) (missingRoot?_iff_holds h) fun _ => missingRoot?_eq_some) <|
  .orElse (tells_badEdge? h) <|
  .orElse (.of_check (by decide) (cycle?_iff_holds h) fun _ => cycle?_eq_some) <|
  .orElse (.of_check (by decide) (unreachable?_iff_holds h) fun _ => unreachable?_eq_some) <|
  .of_check (by decide) (strayUsage?_iff_holds h) fun _ => strayUsage?_eq_some

theorem holdBelow_one : Check.HoldBelow declarations rows 1 := by
  intro c hc
  cases c with
  | distinctKeys => exact (declare_eq_ok_iff.1 h).1
  | _ => simp [Check.stage] at hc

end Declared

theorem holds_of_build (h : build declarations rows = .ok s) (c : Check) :
    c.Holds declarations rows := by
  obtain ⟨declared, hd, hf, -⟩ := build_eq_ok_iff.1 h
  rcases Nat.lt_or_ge c.stage 1 with hc | hc
  · exact holdBelow_one hd c hc
  · exact (tells_fault? hd).holds hf c hc c.stage_lt

theorem exists_build_of_holds (h : ∀ c : Check, c.Holds declarations rows) :
    ∃ s, build declarations rows = .ok s := by
  have hd : declare declarations = .ok (.ofList (declarations.map fun d => (d.key, d))) :=
    declare_eq_ok_iff.2 ⟨h .distinctKeys, rfl⟩
  have hroot := (missingRoot?_iff_holds hd).2 (h .rootDeclared)
  have hedges := (badEdge?_iff_holds hd).2 fun k => ⟨h (.targetsDeclared k), h (.causesPlaced k)⟩
  have hcycle := (cycle?_iff_holds hd).2 (h .noCycle)
  have hreachable := (unreachable?_iff_holds hd).2 (h .allReachable)
  have husers := (strayUsage?_iff_holds hd).2 (h .usersDeclared)
  have hfault := fault?_eq_none_iff.2 ⟨hroot, hedges, hcycle, hreachable, husers⟩
  exact ⟨_, build_eq_ok_iff.2 ⟨_, hd, hfault, rfl⟩⟩

/-- A snapshot is built just if all checks hold; else the error is that of the first broken one. -/
theorem build_checks (declarations : List Declaration) (rows : List UsageRow) :
    ((∃ s, build declarations rows = .ok s) ↔ ∀ c : Check, c.Holds declarations rows) ∧
      ∀ e, build declarations rows = .error e →
        ∃ c, e.check? = some c ∧ c.FirstBroken declarations rows := by
  have herror : ∀ e, build declarations rows = .error e →
      ∃ c, e.check? = some c ∧ c.FirstBroken declarations rows := by
    intro e he
    rcases build_eq_error_iff.1 he with h | ⟨declared, h, hf⟩
    · obtain ⟨⟨k, rfl⟩, hnodup⟩ := declare_eq_error h
      refine ⟨.distinctKeys, rfl, hnodup, fun c hbefore => ?_⟩
      exact absurd (Check.stage_lt_of_before hbefore (by decide)) (Nat.not_lt_zero _)
    · exact (tells_fault? h).firstBroken e hf (holdBelow_one h)
  refine ⟨⟨fun ⟨s, hs⟩ => holds_of_build hs, fun hall => ?_⟩, herror⟩
  · cases hb : build declarations rows with
    | ok s => exact ⟨s, rfl⟩
    | error e =>
      obtain ⟨c, -, hc⟩ := herror e hb
      exact absurd (hall c) hc.broken

def loop : SortedMap Key Declaration := plain [(.root, []), (⟨"a", "1"⟩, [⟨"a", "1"⟩])]

/-- A loop that nothing leads to breaks two checks, and the cycle is told. -/
theorem build_checks_loop :
    build loop.values [] = .error (.dependencyCycle [⟨"a", "1"⟩]) ∧
      Check.noCycle.FirstBroken loop.values [] ∧ ¬ Check.allReachable.Holds loop.values [] := by
  have herror : build loop.values [] = .error (.dependencyCycle [⟨"a", "1"⟩]) := by cbv
  have hdeclared : declare loop.values = .ok loop := by cbv
  have hunreachable : unreachable? loop = some (.unreachable ⟨"a", "1"⟩) := by cbv
  obtain ⟨c, hc, hfirst⟩ := (build_checks loop.values []).2 _ herror
  obtain rfl : Check.noCycle = c := Option.some.inj hc
  refine ⟨herror, hfirst, fun hall => ?_⟩
  rw [(unreachable?_iff_holds hdeclared).2 hall] at hunreachable
  simp at hunreachable

end Snapshot

end ModuleGraph
