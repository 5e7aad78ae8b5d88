import ModuleGraph.Proofs.EdgeTable
import ModuleGraph.Proofs.Reordered
import ModuleGraph.Query.Request

namespace ModuleGraph

namespace Snapshot.Reordered

variable {s s' : Snapshot} (h : s.Reordered s')

include h

theorem map_get? {β : Type} {f : Node → β} (hf : ∀ n n', n.Reordered n' → f n = f n') (k : Key) :
    (s.graph.get? k).map f = (s'.graph.get? k).map f := by
  have hk := h.nodes k
  generalize s.graph.get? k = x at hk ⊢
  generalize s'.graph.get? k = y at hk ⊢
  cases hk with
  | none => rfl
  | some hnode => exact congrArg some (hf _ _ hnode)

theorem isUsed (k : Key) : s.graph.isUsed k = s'.graph.isUsed k := by
  have hany : ∀ x : Option Node, x.any (·.used) = (x.map Node.used).getD false := by
    intro x
    cases x <;> rfl
  rw [Graph.isUsed, Graph.isUsed, hany, hany, h.map_get? fun _ _ hnode => hnode.used]

theorem generatedFor (extension : ExtensionId) (module : Key) :
    s.generatedFor extension module = s'.generatedFor extension module := by
  have hextensions := h.map_get? (fun _ _ hnode => hnode.declaration.extensions) module
  have hbind : ∀ x : Option Node, x.bind (·.declaration.extensions.get? extension) =
      (x.map (·.declaration.extensions)).bind (·.get? extension) := by
    intro x
    cases x <;> rfl
  rw [Snapshot.generatedFor, Snapshot.generatedFor, hbind, hbind, hextensions]

theorem extensionReports (extensions : List ExtensionId) (users : List Key) :
    s.extensionReports extensions users = s'.extensionReports extensions users := by
  have husage : s.usageReport = s'.usageReport := by
    funext extension row
    rw [usageReport, usageReport, h.generatedFor]
  have hreport : s.extensionReport users = s'.extensionReport users := by
    funext extension
    rw [extensionReport, extensionReport, husage, h.usages]
  rw [Snapshot.extensionReports, Snapshot.extensionReports, hreport]

theorem mem_mentionedExtensions (id : ExtensionId) :
    id ∈ s.mentionedExtensions ↔ id ∈ s'.mentionedExtensions := by
  have hread : ∀ s : Snapshot, id ∈ s.mentionedExtensions ↔
      (∃ k extensions, (s.graph.get? k).map (·.declaration.extensions) = some extensions ∧
        id ∈ extensions.keys) ∨ id ∈ s.usages.extensions := by
    intro s
    simp only [mentionedExtensions, List.mem_append, List.mem_flatMap, SortedMap.mem_values_iff,
      Option.map_eq_some_iff, Graph.get?]
    refine or_congr_left ⟨?_, ?_⟩
    · rintro ⟨node, ⟨k, hk⟩, hid⟩
      exact ⟨k, _, ⟨node, hk, rfl⟩, hid⟩
    · rintro ⟨k, _, ⟨node, hk, rfl⟩, hid⟩
      exact ⟨node, ⟨k, hk⟩, hid⟩
  rw [hread, hread, h.usages]
  simp only [h.map_get? fun _ _ hnode => hnode.declaration.extensions]

theorem table (f : Filter) : EdgeTable.ofGraph s.graph f = EdgeTable.ofGraph s'.graph f := by
  apply SortedMap.ext
  intro k
  have hedges : ∀ n n' : Node, n.Reordered n' →
      EdgeTable.leastCauses (EdgeTable.followed f n.declaration) =
        EdgeTable.leastCauses (EdgeTable.followed f n'.declaration) := by
    intro n n' hnode
    apply EdgeTable.leastCauses_congr
    intro e
    rw [EdgeTable.followed, EdgeTable.followed,
      Declaration.origin_congr hnode.declaration.extensionDeps]
    exact (hnode.declaration.deps.filterMap _).mem_iff
  simp only [EdgeTable.ofGraph, SortedMap.get?_mapValues]
  exact h.map_get? hedges k

end Snapshot.Reordered

structure Resolver.Reordered (r r' : Resolver) : Prop where
  snapshot : r.snapshot.Reordered r'.snapshot
  base : r.base.Reordered r'.base

namespace Resolver.Reordered

variable {r r' : Resolver} (h : r.Reordered r')

include h

theorem accept : r.accept = r'.accept := by
  funext p key
  rw [Resolver.accept, Resolver.accept, h.snapshot.isUsed]

theorem named (p : Policy) (name : String) : r.named p name = r'.named p name := by
  rw [Resolver.named, Resolver.named, NameTable.get?_perm h.base.deps,
    NameTable.get?_perm h.base.unusedDeps]

theorem denoted (p : Policy) : r.denoted p = r'.denoted p := by
  funext ref
  cases ref with
  | root => rfl
  | exact key => rw [Resolver.denoted, Resolver.denoted, h.snapshot.index, h.accept]
  | named name =>
    rw [Resolver.denoted, Resolver.denoted, h.named, h.base.key, h.accept]

theorem modules (p : Policy) (text : String) : r.modules p text = r'.modules p text := by
  rw [Resolver.modules, Resolver.modules, h.denoted]

theorem candidates (module : Key) (ref : ExtensionRef) :
    r.candidates module ref = r'.candidates module ref := by
  apply SortedSet.ext
  intro id
  simp only [Resolver.candidates, SortedSet.mem_ofList, List.mem_filter,
    h.snapshot.mem_mentionedExtensions]

theorem extension : r.extension = r'.extension := by
  funext ref
  simp only [Resolver.extension, h.denoted, h.candidates]

theorem extensions (text : String) : r.extensions text = r'.extensions text := by
  rw [Resolver.extensions, Resolver.extensions, h.extension]

end Resolver.Reordered

theorem Survey.extensions_reordered {s s' : Snapshot} (h : s.Reordered s') {f : Filter}
    {limits : Limits} {interrupted : Bool} :
    Survey.extensions ⟨s, f, limits, interrupted⟩ =
      Survey.extensions ⟨s', f, limits, interrupted⟩ := by
  funext ids users
  rw [Survey.extensions, Survey.extensions, h.extensionReports]

namespace Request

variable {s s' : Snapshot} (h : s.Reordered s') (q : Request)

section Subject

variable {r r' : Resolver} (hr : r.Reordered r')

include hr

theorem argModules_reordered (p : Policy) (context : String → Argument) :
    q.argModules r p context = q.argModules r' p context := by
  simp only [argModules, hr.modules]

theorem argExtensions_reordered : q.argExtensions r = q.argExtensions r' := by
  simp only [argExtensions, hr.extensions]

theorem targets_reordered : q.targets r = q.targets r' := by
  simp only [targets, argModules_reordered q hr, argExtensions_reordered q hr]

theorem followed_reordered : q.followed r = q.followed r' := by
  simp only [followed, hr.extensions]

end Subject

include h

theorem resolver_bind {β : Type} {f f' : Resolver → Answer β}
    (hf : ∀ r r', r.Reordered r' → f r = f' r') (k : Key) :
    resolver s k >>= f = resolver s' k >>= f' := by
  have hk := h.nodes k
  rw [resolver, resolver, Resolver.anchored, Resolver.anchored, Graph.get, Graph.get]
  generalize s.graph.get? k = x at hk ⊢
  generalize s'.graph.get? k = y at hk ⊢
  cases hk with
  | none => rfl
  | some hnode => exact hf _ _ ⟨h, hnode.declaration⟩

theorem base_reordered : q.base s = q.base s' := by
  apply resolver_bind h
  intro r r' hr
  rw [hr.modules]

theorem subject_reordered : q.subject s = q.subject s' := by
  rw [subject, subject, base_reordered h]
  congr 1
  funext k
  apply resolver_bind h
  intro r r' hr
  simp only [targets_reordered q hr, hr.modules, followed_reordered q hr]

theorem outcome_reordered (rules : RuleSource) (subject : Subject) :
    q.outcome s rules subject = q.outcome s' rules subject := by
  let survey (s : Snapshot) : Survey := ⟨s, subject.filter, q.options.limits, false⟩
  have htable : (survey s).table = (survey s').table := h.table subject.filter
  have htree : (survey s).tree = (survey s').tree := Survey.tree_of_table htable rfl
  have hpath : (survey s).path = (survey s').path := Survey.path_of_table htable rfl
  have hall : (survey s).allPaths = (survey s').allPaths := Survey.allPaths_of_table htable rfl rfl
  have hextensions : (survey s).extensions = (survey s').extensions :=
    Survey.extensions_reordered h
  dsimp only [outcome]
  rw [htree, hpath, hall, hextensions]

theorem run_congr (rules : RuleSource) (interrupted : Bool) :
    q.run s rules interrupted = q.run s' rules interrupted := by
  simp only [run, subject_reordered h, outcome_reordered h]

end Request

namespace Document

/-- Of two documents that differ in the order of declarations both are accepted or neither is, and
then every request has the same outcome or fails with the same error, with the same warnings. -/
theorem run_reordered (d d' : Document) (h : d.Reordered d') :
    ((∃ s, d.snapshot = .ok s) ↔ ∃ s', d'.snapshot = .ok s') ∧
      ∀ s s', d.snapshot = .ok s → d'.snapshot = .ok s' →
        ∀ (q : Request) (rules : RuleSource) (interrupted : Bool),
          q.run s rules interrupted = q.run s' rules interrupted := by
  have hrows : UsageRow.Permuted d'.usages d.usages := fun user extension =>
    (h.usages user extension).symm
  refine ⟨⟨?_, ?_⟩, ?_⟩
  · rintro ⟨s, hs⟩
    exact Snapshot.exists_build_reordered h.modules h.usages hs
  · rintro ⟨s', hs'⟩
    exact Snapshot.exists_build_reordered h.modules.symm hrows hs'
  · intro s s' hs hs' q rules interrupted
    exact q.run_congr (Snapshot.reordered_of_build h.modules hs hs' h.usages) rules interrupted

def forwards : Document where
  modules := [
    ⟨.root, ⟨[("a", ⟨"a", "1"⟩), ("b", ⟨"b", "1"⟩)], by decide⟩, ∅, ∅, ∅⟩,
    ⟨⟨"a", "1"⟩, ∅, ∅, ∅, ∅⟩, ⟨⟨"b", "1"⟩, ∅, ∅, ∅, ∅⟩]
  usages := [⟨⟨"a", "1"⟩, ⟨⟨"b", "1"⟩, "e", none⟩, ⟨[], ∅⟩⟩,
    ⟨⟨"b", "1"⟩, ⟨⟨"b", "1"⟩, "e", none⟩, ⟨[], ∅⟩⟩]
  repoRules := ∅

def backwards : Document where
  modules := [
    ⟨⟨"b", "1"⟩, ∅, ∅, ∅, ∅⟩, ⟨⟨"a", "1"⟩, ∅, ∅, ∅, ∅⟩,
    ⟨.root, ⟨[("b", ⟨"b", "1"⟩), ("a", ⟨"a", "1"⟩)], by decide⟩, ∅, ∅, ∅⟩]
  usages := forwards.usages.reverse
  repoRules := ∅

theorem run_reordered_backwards : forwards.Reordered backwards ∧
    forwards.modules ≠ backwards.modules ∧ forwards.usages ≠ backwards.usages ∧
    ∃ s s', forwards.snapshot = .ok s ∧ backwards.snapshot = .ok s' ∧
      ∀ (q : Request) (rules : RuleSource) (interrupted : Bool),
        q.run s rules interrupted = q.run s' rules interrupted := by
  have hsame : ∀ d : Declaration, d.Reordered d := fun d => ⟨rfl, .rfl, .rfl, rfl, rfl⟩
  have hmodules : Declaration.Permuted forwards.modules backwards.modules := by
    refine ⟨backwards.modules.reverse, ?_, List.reverse_perm _⟩
    refine .cons ⟨rfl, .swap .., .rfl, rfl, rfl⟩ (.cons (hsame _) (.cons (hsame _) .nil))
  have hrows : UsageRow.Permuted forwards.usages backwards.usages :=
    UsageRow.permuted_of_nodup (List.reverse_perm _).symm (by decide)
  have h : forwards.Reordered backwards := ⟨hmodules, hrows, rfl⟩
  obtain ⟨haccepted, hrun⟩ := run_reordered forwards backwards h
  have hforwards : ∃ s, forwards.snapshot = .ok s :=
    ⟨_, Snapshot.build_eq_ok_iff.2 ⟨.ofList (forwards.modules.map fun d => (d.key, d)),
      by cbv, by cbv, rfl⟩⟩
  obtain ⟨s, hs⟩ := hforwards
  obtain ⟨s', hs'⟩ := haccepted.1 ⟨s, hs⟩
  exact ⟨h, by decide, by decide, s, s', hs, hs', hrun s s' hs hs'⟩

end Document

end ModuleGraph
