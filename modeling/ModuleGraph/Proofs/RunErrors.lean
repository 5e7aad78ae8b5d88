import ModuleGraph.Proofs.Resolution

namespace ModuleGraph

namespace Survey

variable {survey : Survey} {error : QueryError → Prop}

section Uninterrupted

variable (h : survey.interrupted = false)

include h

theorem check_ends (stage : Stage) (comes : Bool) :
    (survey.check stage comes).Ends (fun _ => True) error := by
  simp only [check, h, Bool.false_and, Bool.false_eq_true, if_false]
  exact .ok True.intro

theorem tree_ends (roots : List Key) (depth : ℕ) :
    (survey.tree roots depth).Ends (fun _ => True) error :=
  (check_ends h _ _).bind fun _ _ => .ok True.intro

theorem path_ends (starts targets : List Key) (depth : ℕ) :
    (survey.path starts targets depth).Ends (fun _ => True) error :=
  (check_ends h _ _).bind fun _ _ => .ok True.intro

theorem allPaths_ends (starts targets : List Key) (depth : ℕ) :
    (survey.allPaths starts targets depth).Ends (fun _ => True) error :=
  (check_ends h _ _).bind fun _ _ => .warning True.intro

end Uninterrupted

theorem extensions_ends (ids : List ExtensionId) (users : List Key) :
    (survey.extensions ids users).Ends (fun _ => True) error :=
  .warning True.intro

theorem repos_ends (rules : RuleSource) (modules : List Key) :
    (repos rules modules).Ends (fun _ => True) fun e => ∃ module ∈ modules, ∃ fault,
      rules.lookup module.repoName = .error fault ∧ e = .evaluationFailed (.lookup fault) := by
  have hall : (repos rules modules).Ends (fun repos => ∀ repo ∈ repos, True) fun e =>
      ∃ module ∈ modules, ∃ fault, rules.lookup module.repoName = .error fault ∧
        e = .evaluationFailed (.lookup fault) := by
    refine .mapM fun module hmodule => ?_
    split
    · exact .ok True.intro
    · next fault hlookup => exact .fail ⟨module, hmodule, fault, hlookup, rfl⟩
  exact hall.trivial

end Survey

namespace Request

open Resolver (Within)

variable {s : Snapshot} {q : Request} {r : Resolver} {rules : RuleSource} {k : Key}

/-- A tree takes no arguments, and was given some. -/
def RejectsArguments (q : Request) (e : QueryError) : Prop :=
  e = .tooManyArguments q.kind ∧ q.kind = .tree ∧ q.args ≠ []

/-- The rule of a repository behind one of the modules could not be had. -/
def LacksRule (q : Request) (rules : RuleSource) (modules : List Key) (e : QueryError) : Prop :=
  q.kind = .repos ∧ ∃ module ∈ modules, ∃ fault,
    rules.lookup module.repoName = .error fault ∧ e = .evaluationFailed (.lookup fault)

theorem resolver_eq_ok (hs : s.Accepted) (hk : s.graph.contains k) :
    ∃ r, resolver s k = .ok r ∧ r.Sound ∧ r.snapshot = s := by
  obtain ⟨node, hnode⟩ := Graph.contains_iff.1 hk
  refine ⟨⟨s, node.declaration⟩, ?_, ⟨hs, k, node, hnode, rfl⟩, rfl⟩
  simp only [resolver, Resolver.anchored, Graph.get, hnode]
  rfl

theorem resolver_ends (hs : s.Accepted) (hk : s.graph.contains k) (error : QueryError → Prop) :
    (resolver s k).Ends (fun r => r.Sound ∧ r.snapshot = s) error := by
  obtain ⟨r, hr, hsound⟩ := resolver_eq_ok hs hk
  rw [hr]
  exact .ok hsound

theorem base_ends (hs : s.Accepted) :
    (q.base s).Ends (s.graph.contains ·) QueryError.Placed := by
  refine (resolver_ends hs (Graph.contains_iff.2 hs.exists_root) _).bind ?_
  rintro r ⟨hr, rfl⟩
  refine Answer.Ends.placed ((hr.modules_ends _).bind fun keys hkeys => ?_) _
  split
  · exact .ok (hkeys _ (List.mem_singleton_self _))
  · exact .fail ⟨rfl, by simp⟩
  · exact .fail ⟨rfl, by simp⟩

theorem argModules_ends (hr : r.Sound) (p : Policy) (context : String → Argument) :
    (q.argModules r p context).Ends (Within r.snapshot) QueryError.Placed := by
  refine (Answer.Ends.mapM fun arg _ => (hr.modules_ends arg).placed _).bind fun keys hkeys => ?_
  exact .ok (Resolver.within_flatten hkeys)

theorem argExtensions_ends (hr : r.Sound) :
    (q.argExtensions r).Ends (fun _ => True) QueryError.Placed := by
  refine (Answer.Ends.mapM fun arg _ => (hr.extensions_ends arg).placed _).bind fun ids _ => ?_
  exact .ok trivial

theorem targets_ends (hr : r.Sound) : (q.targets r).Ends (fun t => Within r.snapshot t.modules)
    (fun e => e.Placed ∨ q.RejectsArguments e) := by
  have hmodules : ∀ p context, (q.argModules r p context >>= fun modules =>
      pure { modules }).Ends (fun t : Subject => Within r.snapshot t.modules)
        (fun e => e.Placed ∨ q.RejectsArguments e) := fun p context =>
    ((argModules_ends hr p context).imp fun _ => .inl).bind fun modules hmodules => .ok hmodules
  unfold targets
  split
  · next hkind =>
    split
    · exact .ok (by simp [Within])
    · next hargs => exact .fail (.inr ⟨by rw [hkind], hkind, by simpa using hargs⟩)
  · exact hmodules _ _
  · exact ((argExtensions_ends hr).imp fun _ => .inl).bind fun ids _ => .ok (by simp [Within])
  · exact hmodules _ _
  · exact hmodules _ _
  · exact hmodules _ _
  · exact hmodules _ _

theorem followed_ends (hr : r.Sound) : (q.followed r).Ends (fun _ => True) QueryError.Placed := by
  rw [followed]
  split
  · exact .ok trivial
  · split
    · exact .ok trivial
    · exact Answer.Ends.placed ((hr.extensions_ends _).bind fun _ _ => .ok trivial) _

theorem subject_ends (hs : s.Accepted) : (q.subject s).Ends
    (fun t => Within s t.modules ∧ Within s t.starts ∧ Within s t.users)
    (fun e => e.Placed ∨ q.RejectsArguments e) := by
  refine ((base_ends hs).imp fun _ => .inl).bind fun base hbase => ?_
  refine (resolver_ends hs hbase _).bind ?_
  rintro r ⟨hr, rfl⟩
  refine (targets_ends hr).bind fun targets htargets => ?_
  refine (((hr.modules_ends _).placed _).imp fun _ => .inl).bind fun starts hstarts => ?_
  refine (((hr.modules_ends _).placed _).imp fun _ => .inl).bind fun users husers => ?_
  refine ((followed_ends hr).imp fun _ => .inl).bind fun filter _ => ?_
  exact .ok ⟨htargets, hstarts, husers⟩

theorem outcome_ends (subject : Subject) :
    (q.outcome s rules subject).Ends (fun _ => True) (q.LacksRule rules subject.modules) := by
  unfold outcome
  split
  · exact .bind (Survey.tree_ends rfl _ _) fun _ _ => .ok True.intro
  · exact .bind (Survey.tree_ends rfl _ _) fun _ _ => .ok True.intro
  · exact .bind (Survey.path_ends rfl _ _ _) fun _ _ => .ok True.intro
  · exact .bind (Survey.allPaths_ends rfl _ _ _) fun _ _ => .ok True.intro
  · exact .bind (Survey.allPaths_ends rfl _ _ _) fun _ _ => .ok True.intro
  · next hkind =>
    refine .bind ((Survey.repos_ends rules subject.modules).imp fun e he => ?_) fun _ _ =>
      .ok True.intro
    exact ⟨hkind, he⟩
  · exact .bind (Survey.extensions_ends _ _) fun _ _ => .ok True.intro

theorem run_eq_error (hs : s.Accepted) {e : QueryError}
    (he : (q.run s rules false).result = .error e) :
    e.Placed ∨ q.RejectsArguments e ∨
      ∃ subject, (q.subject s).result = .ok subject ∧ q.LacksRule rules subject.modules e := by
  rcases Answer.bind_eq_error_iff.1 he with he | ⟨subject, hsubject, he⟩
  · exact ((subject_ends hs).of_error he).imp_right .inl
  · exact .inr (.inr ⟨subject, hsubject, (outcome_ends subject).of_error he⟩)

/-- A query that is not called off fails in one of three ways: it is a tree with arguments, or the
error says once where it comes from and ends the query only, or the repository rule of some module
could not be had. Every resolver has its base, and all keys that it hands on are in the graph. -/
theorem run_errors (s : Snapshot) (hs : s.Accepted) (q : Request) (rules : RuleSource) :
    (∀ e, (q.run s rules false).result = .error e →
      (e = .tooManyArguments q.kind ∧ q.kind = .tree ∧ q.args ≠ []) ∨
      (∃ argument error, e = .inArgument argument error ∧ error.isFatal = false ∧
        ∀ argument' error', error ≠ .inArgument argument' error') ∨
      (∃ fault, e = .evaluationFailed (.lookup fault) ∧ q.kind = .repos ∧
        ∃ subject, (q.subject s).result = .ok subject ∧
          ∃ module ∈ subject.modules, rules.lookup module.repoName = .error fault)) ∧
    (∀ e, (q.run s rules false).result = .error e → q.kind ≠ .repos → e.isFatal = false) ∧
    (∀ base, base = Key.root ∨ (q.base s).result = .ok base →
      s.graph.contains base ∧ ∃ r, (resolver s base).result = .ok r ∧
        ∀ p text keys, (r.modules p text).result = .ok keys → ∀ k ∈ keys, s.graph.contains k) ∧
    ∀ subject, (q.subject s).result = .ok subject →
      ∀ k ∈ subject.starts ++ subject.users ++ subject.modules, s.graph.contains k := by
  refine ⟨fun e he => ?_, fun e he hkind => ?_, fun base hbase => ?_, fun subject hsubject => ?_⟩
  · rcases run_eq_error hs he with ⟨argument, error, rfl, hfatal, hplain⟩ | hrejects | hlacks
    · exact .inr (.inl ⟨argument, error, rfl, hfatal, hplain⟩)
    · exact .inl hrejects
    · obtain ⟨subject, hsubject, hkind, m, hm, fault, hlookup, rfl⟩ := hlacks
      exact .inr (.inr ⟨fault, rfl, hkind, subject, hsubject, m, hm, hlookup⟩)
  · rcases run_eq_error hs he with hplaced | ⟨rfl, -, -⟩ | ⟨subject, -, hrepos, -⟩
    · exact hplaced.not_fatal
    · rfl
    · exact absurd hrepos hkind
  · have hcontains : s.graph.contains base := by
      rcases hbase with rfl | hbase
      · exact Graph.contains_iff.2 hs.exists_root
      · exact (base_ends hs).of_ok hbase
    obtain ⟨r, hr, hsound, rfl⟩ := resolver_eq_ok hs hcontains
    refine ⟨hcontains, r, by rw [hr]; rfl, fun p text keys hkeys => ?_⟩
    exact (hsound.modules_ends text).of_ok hkeys
  · obtain ⟨hmodules, hstarts, husers⟩ := (subject_ends hs).of_ok hsubject
    intro k hk
    rcases List.mem_append.1 hk with hk | hk
    · rcases List.mem_append.1 hk with hk | hk
      · exact hstarts k hk
      · exact husers k hk
    · exact hmodules k hk

def ruleOfA : Request := ⟨.repos, ["a"], {}⟩

/-- No repository is known, so the error is that of the lookup. -/
theorem run_errors_ruleOfA : Snapshot.triangle.Accepted ∧
    (ruleOfA.run Snapshot.triangle (.ofKnown fun _ => none) false).result =
      .error (.evaluationFailed (.lookup ⟨"a~1", "no such repository"⟩)) ∧
    ∃ subject, (ruleOfA.subject Snapshot.triangle).result = .ok subject ∧
      ∃ module ∈ subject.modules, Snapshot.triangle.graph.contains module := by
  have herror : (ruleOfA.run Snapshot.triangle (.ofKnown fun _ => none) false).result =
      .error (.evaluationFailed (.lookup ⟨"a~1", "no such repository"⟩)) := by cbv
  obtain ⟨hends, -, -, hwithin⟩ :=
    run_errors Snapshot.triangle Snapshot.triangle_accepted ruleOfA (.ofKnown fun _ => none)
  refine ⟨Snapshot.triangle_accepted, herror, ?_⟩
  rcases hends _ herror with ⟨hargs, -⟩ | ⟨argument, error, hplaced, -⟩ | ⟨fault, -, -, hlookup⟩
  · simp at hargs
  · simp at hplaced
  · obtain ⟨subject, hsubject, m, hm, -⟩ := hlookup
    exact ⟨subject, hsubject, m, hm, hwithin subject hsubject m (by simp [hm])⟩

end Request

end ModuleGraph
