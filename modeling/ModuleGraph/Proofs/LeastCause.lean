import ModuleGraph.Proofs.Snapshot

/-!
# The cause for which an edge is followed

A module may know one target under several local names. Under some the dependency is its own, under
others it is there only because of extensions, and the sets of these may overlap. The filter finds
at most one cause for each name, the first of its set that passes. Of all these the least one stays,
and that is the least of everything that passes for any name of the target: an own dependency comes
before all extensions.
-/
namespace ModuleGraph

namespace SortedSet

theorem least_of_find? {α : Type} [Ord α] [Std.LawfulEqOrd α] {s : SortedSet α} {a : α}
    {p : α → Bool} (h : s.toList.find? p = some a) :
    a ∈ s ∧ p a ∧ ∀ b ∈ s, p b → (compare a b).isLE := by
  obtain ⟨hp, front, back, hsplit, hfront⟩ := List.find?_eq_some_iff_append.1 h
  refine ⟨List.mem_of_find?_eq_some h, hp, fun b hb hpb => ?_⟩
  have hincreasing := s.increasing
  rw [mem_def, hsplit] at hb
  rw [hsplit] at hincreasing
  rcases List.mem_append.1 hb with hb | hb
  · exact absurd (hfront b hb) (by simp [hpb])
  · rcases List.mem_cons.1 hb with rfl | hb
    · simp
    · have hlt := (List.pairwise_cons.1 (List.pairwise_append.1 hincreasing).2.1).1 b hb
      simp [hlt]

end SortedSet

namespace Declaration

/-- Under some local name the dependency on the target is the module's own. -/
def Declares (d : Declaration) (target : Key) : Prop :=
  ∃ name, (name, target) ∈ d.deps.entries ∧ name ∉ d.extensionDeps

/-- The extension is a cause for some local name of the target. -/
def CausedBy (d : Declaration) (target : Key) (id : ExtensionId) : Prop :=
  ∃ name causes, (name, target) ∈ d.deps.entries ∧ d.extensionDeps.get? name = some causes ∧
    id ∈ causes

variable {d : Declaration} {f : Filter} {name : String} {target : Key} {id : ExtensionId}

theorem cause?_origin_eq_direct_iff :
    f.cause? (d.origin name) = some .direct ↔ name ∉ d.extensionDeps := by
  rw [← SortedMap.get?_eq_none_iff, origin]
  cases d.extensionDeps.get? name <;> simp [Filter.cause?]

theorem cause?_origin_eq_extension_iff : f.cause? (d.origin name) = some (.extension id) ↔
    ∃ causes, d.extensionDeps.get? name = some causes ∧
      causes.toList.find? f.contains = some id := by
  rw [origin]
  cases d.extensionDeps.get? name <;> simp [Filter.cause?]

end Declaration

namespace EdgeTable

variable {d : Declaration} {f : Filter} {target : Key} {id : ExtensionId} {cause : Cause}

theorem mem_followed_iff : ⟨target, cause⟩ ∈ followed f d ↔
    ∃ name, (name, target) ∈ d.deps.entries ∧ f.cause? (d.origin name) = some cause := by
  simp only [followed, List.mem_filterMap, Option.map_eq_some_iff, Prod.exists]
  constructor
  · rintro ⟨name, l, hentry, c, hcause, heq⟩
    obtain ⟨rfl, rfl⟩ := Edge.mk.injEq .. ▸ heq
    exact ⟨name, hentry, hcause⟩
  · rintro ⟨name, hentry, hcause⟩
    exact ⟨name, target, hentry, cause, hcause, rfl⟩

theorem direct_mem_followed_iff : ⟨target, .direct⟩ ∈ followed f d ↔ d.Declares target := by
  simp only [mem_followed_iff, Declaration.cause?_origin_eq_direct_iff]
  rfl

theorem causedBy_of_mem_followed (h : ⟨target, .extension id⟩ ∈ followed f d) :
    d.CausedBy target id ∧ f.contains id := by
  obtain ⟨name, hentry, hcause⟩ := mem_followed_iff.1 h
  obtain ⟨causes, hcauses, hfind⟩ := Declaration.cause?_origin_eq_extension_iff.1 hcause
  obtain ⟨hid, hpass, -⟩ := SortedSet.least_of_find? hfind
  exact ⟨⟨name, causes, hentry, hcauses, hid⟩, hpass⟩

theorem exists_followed_of_causedBy (h : d.CausedBy target id) (hpass : f.contains id) :
    ∃ id', ⟨target, .extension id'⟩ ∈ followed f d ∧ (compare id' id).isLE := by
  obtain ⟨name, causes, hentry, hcauses, hid⟩ := h
  have hfound : (causes.toList.find? f.contains).isSome :=
    List.find?_isSome.2 ⟨id, hid, hpass⟩
  obtain ⟨id', hfind⟩ := Option.isSome_iff_exists.1 hfound
  refine ⟨id', mem_followed_iff.2 ⟨name, hentry, ?_⟩, ?_⟩
  · exact Declaration.cause?_origin_eq_extension_iff.2 ⟨causes, hcauses, hfind⟩
  · exact (SortedSet.least_of_find? hfind).2.2 id hid hpass

theorem mem_targets_followed_iff : target ∈ (followed f d).map Edge.target ↔
    d.Declares target ∨ ∃ id, d.CausedBy target id ∧ f.contains id := by
  rw [List.mem_map]
  constructor
  · rintro ⟨⟨l, cause⟩, he, rfl⟩
    cases cause with
    | direct => exact .inl (direct_mem_followed_iff.1 he)
    | extension id => exact .inr ⟨id, causedBy_of_mem_followed he⟩
  · rintro (hdirect | ⟨id, hid, hpass⟩)
    · exact ⟨_, direct_mem_followed_iff.2 hdirect, rfl⟩
    · obtain ⟨id', he, -⟩ := exists_followed_of_causedBy hid hpass
      exact ⟨_, he, rfl⟩

namespace LeastCause

theorem eq_direct (h : LeastCause (followed f d) target cause) (hdirect : d.Declares target) :
    cause = .direct := by
  have hle : (compare cause Cause.direct).isLE := h.2 _ (direct_mem_followed_iff.2 hdirect) rfl
  cases cause with
  | direct => rfl
  | extension id => exact absurd hle (by simp [compare, compareOn, Cause.extension?])

theorem exists_extension (h : LeastCause (followed f d) target cause)
    (hdirect : ¬ d.Declares target) : ∃ id, cause = .extension id ∧ d.CausedBy target id ∧
      f.contains id ∧ ∀ id', d.CausedBy target id' → f.contains id' → (compare id id').isLE := by
  cases cause with
  | direct => exact absurd (direct_mem_followed_iff.1 h.1) hdirect
  | extension id =>
    obtain ⟨hid, hpass⟩ := causedBy_of_mem_followed h.1
    refine ⟨id, rfl, hid, hpass, fun id' hid' hpass' => ?_⟩
    obtain ⟨first, he, hle⟩ := exists_followed_of_causedBy hid' hpass'
    have hfirst : (compare id first).isLE := h.2 _ he rfl
    exact Std.TransCmp.isLE_trans hfirst hle

end LeastCause

end EdgeTable

namespace Survey

/-- The edges of a module stand in strictly increasing order of their targets. There is one to each
target that the module depends on under some local name for which no extensions are the causes or
one of them passes. Its cause is the own dependency if there is one, and else the least extension
that passes for any local name of the target. -/
theorem edges_least_cause (survey : Survey) (k : Key) :
    let edges := survey.table.edges k
    edges.Pairwise (fun e e' => compare e.target e'.target = .lt) ∧
      (survey.snapshot.graph.get? k = none → edges = []) ∧
      ∀ node, survey.snapshot.graph.get? k = some node → ∀ target,
        (target ∈ edges.map Edge.target ↔
          ∃ name, (name, target) ∈ node.declaration.deps.entries ∧
            (name ∉ node.declaration.extensionDeps ∨
              ∃ causes, node.declaration.extensionDeps.get? name = some causes ∧
                ∃ id ∈ causes, survey.filter.contains id)) ∧
        ∀ cause, ⟨target, cause⟩ ∈ edges →
          (node.declaration.Declares target → cause = .direct) ∧
          (¬ node.declaration.Declares target → ∃ id, cause = .extension id ∧
            node.declaration.CausedBy target id ∧ survey.filter.contains id ∧
            ∀ id', node.declaration.CausedBy target id' → survey.filter.contains id' →
              (compare id id').isLE) := by
  intro edges
  have hedges : edges = ((survey.snapshot.graph.get? k).map fun node =>
      EdgeTable.leastCauses (EdgeTable.followed survey.filter node.declaration)).getD [] :=
    EdgeTable.edges_ofGraph _ _ k
  refine ⟨EdgeTable.ordered_ofGraph _ _ k, fun hnone => ?_, fun node hk target => ?_⟩
  · rw [hedges, hnone]
    rfl
  have hedges : edges =
      EdgeTable.leastCauses (EdgeTable.followed survey.filter node.declaration) := by
    rw [hedges, hk]
    rfl
  rw [hedges]
  refine ⟨?_, fun cause hcause => ?_⟩
  · rw [EdgeTable.mem_map_leastCauses_iff, EdgeTable.mem_targets_followed_iff]
    constructor
    · rintro (⟨name, hentry, hown⟩ | ⟨id, ⟨name, causes, hentry, hcauses, hid⟩, hpass⟩)
      · exact ⟨name, hentry, .inl hown⟩
      · exact ⟨name, hentry, .inr ⟨causes, hcauses, id, hid, hpass⟩⟩
    · rintro ⟨name, hentry, hown | ⟨causes, hcauses, id, hid, hpass⟩⟩
      · exact .inl ⟨name, hentry, hown⟩
      · exact .inr ⟨id, ⟨name, causes, hentry, hcauses, hid⟩, hpass⟩
  · have hleast := EdgeTable.mem_leastCauses_iff.1 hcause
    exact ⟨hleast.eq_direct, hleast.exists_extension⟩

def extensionOfA (name : String) : ExtensionId := ⟨⟨"a", "1"⟩, name, none⟩

/-- The root depends on `a` under a name of its own and on `b` under two names, each because of two
extensions. It also depends on `a` because of an extension. -/
def sharedCauses : Snapshot := .ofDeclared ((Snapshot.plain [
    (.root, []), (⟨"a", "1"⟩, []), (⟨"b", "1"⟩, [])]).adjust .root fun d => { d with
  deps := .ofList [("x", ⟨"b", "1"⟩), ("y", ⟨"b", "1"⟩), ("z", ⟨"a", "1"⟩), ("a", ⟨"a", "1"⟩)]
  extensionDeps := .ofList [("x", .ofList [extensionOfA "e", extensionOfA "h"]),
    ("y", .ofList [extensionOfA "e", extensionOfA "g"]), ("z", .ofList [extensionOfA "e"])] }) []

def withoutE : Survey where
  snapshot := sharedCauses
  filter := .finite (.ofList [extensionOfA "g", extensionOfA "h"])

/-- When `e` does not pass, the least cause for `b` is one of its second name. -/
theorem edges_least_cause_shared : ∃ node, withoutE.snapshot.graph.get? .root = some node ∧
    ¬ node.declaration.Declares ⟨"b", "1"⟩ ∧
    node.declaration.CausedBy ⟨"b", "1"⟩ (extensionOfA "g") ∧
    withoutE.table.edges .root =
      [⟨⟨"a", "1"⟩, .direct⟩, ⟨⟨"b", "1"⟩, .extension (extensionOfA "g")⟩] := by
  have hedges : withoutE.table.edges .root =
      [⟨⟨"a", "1"⟩, .direct⟩, ⟨⟨"b", "1"⟩, .extension (extensionOfA "g")⟩] := by cbv
  obtain ⟨node, hnode⟩ : ∃ node, withoutE.snapshot.graph.get? .root = some node := ⟨_, rfl⟩
  obtain ⟨-, -, hall⟩ := edges_least_cause withoutE .root
  have hcauses := (hall node hnode ⟨"b", "1"⟩).2
  rw [hedges] at hcauses
  obtain ⟨hdirect, hextension⟩ := hcauses (.extension (extensionOfA "g")) (by simp)
  have hnone : ¬ node.declaration.Declares ⟨"b", "1"⟩ := fun h => by simpa using hdirect h
  obtain ⟨id, hid, hcaused, -⟩ := hextension hnone
  obtain rfl := Cause.extension.inj hid
  exact ⟨node, hnode, hnone, hcaused, hedges⟩

end Survey

end ModuleGraph
