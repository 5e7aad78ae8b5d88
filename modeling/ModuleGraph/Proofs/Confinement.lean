import ModuleGraph.Proofs.AllPaths
import ModuleGraph.Proofs.BuiltGraph
import ModuleGraph.Proofs.ShortestPath

/-!
# Traversals see what their starts lead to and nothing else

When the edges of two tables agree on a set of modules that they do not lead out of, a traversal
that starts in the set goes the same way in both: it reads no other edges, prunes alike and counts
the same steps. The used modules are such a set.
-/
namespace ModuleGraph

namespace EdgeTable

/-- No edge leads out of a set of modules. -/
def Closed (t : EdgeTable) (R : Set Key) : Prop := ∀ k ∈ R, ∀ e ∈ t.edges k, e.target ∈ R

/-- From the modules of a set the same edges go out in both tables, and none leads out of it. -/
structure AgreeOn (R : Set Key) (t t' : EdgeTable) : Prop where
  edges : ∀ k ∈ R, t.edges k = t'.edges k
  closed : t.Closed R

variable {R : Set Key} {t t' : EdgeTable} {a b k : Key} {p : Path}

theorem Walk.mem_of_closed (hclosed : t.Closed R) (hw : t.Walk a b p) (ha : a ∈ R) :
    ∀ k ∈ p.nodes, k ∈ R := by
  induction hw with
  | single k => simpa using ha
  | @cons k b e p he _ ih =>
    intro l hl
    rcases List.mem_cons.1 hl with rfl | hl
    · exact ha
    · exact ih (hclosed k ha e he) l hl

theorem Closed.below (hclosed : t.Closed R) {o : Occurrence} (ho : o.key ∈ R) :
    ∀ o' ∈ t.below o, o'.key ∈ R := by
  intro o' ho'
  obtain ⟨e, he, rfl⟩ := List.mem_map.1 ho'
  exact hclosed o.key ho e he

theorem list_mem_of_closed (hclosed : t.Closed R) (depth : ℕ) (stack : List Occurrence)
    (expanded : SortedSet Key) (hstack : ∀ o ∈ stack, o.key ∈ R) :
    ∀ e ∈ t.list depth stack expanded, e.key ∈ R := by
  fun_induction list t depth stack expanded with
  | case1 => simp
  | case2 o stack expanded _ ih => exact ih (List.forall_mem_cons.1 hstack).2
  | case3 o stack expanded _ _ ih =>
    obtain ⟨ho, hrest⟩ := List.forall_mem_cons.1 hstack
    exact List.forall_mem_cons.2 ⟨ho, ih hrest⟩
  | case4 o stack expanded _ _ _ ih =>
    obtain ⟨ho, hrest⟩ := List.forall_mem_cons.1 hstack
    have hnext := ih (List.forall_mem_append.2 ⟨hclosed.below ho, hrest⟩)
    exact List.forall_mem_cons.2 ⟨ho, hnext⟩
  | case5 o stack expanded _ _ _ ih =>
    obtain ⟨ho, hrest⟩ := List.forall_mem_cons.1 hstack
    exact List.forall_mem_cons.2 ⟨ho, ih hrest⟩

theorem tree_mem_of_closed (hclosed : t.Closed R) {roots : List Key} (hroots : ∀ k ∈ roots, k ∈ R)
    (depth : ℕ) : ∀ e ∈ (t.tree roots depth).entries, e.key ∈ R := by
  intro e he
  obtain ⟨root, hroot, he⟩ := List.mem_flatMap.1 he
  have hstart : ∀ o ∈ [(⟨root, 0, none⟩ : Occurrence)], o.key ∈ R := by
    simpa using hroots root (List.mem_eraseDups.1 hroot)
  exact list_mem_of_closed hclosed depth _ _ hstart e he

theorem enumerate_mem_of_closed (ht : t.Acyclic) (hclosed : t.Closed R) {limits : Limits}
    {starts targets : List Key} (hstarts : ∀ k ∈ starts, k ∈ R) :
    ∀ p ∈ (t.enumerate limits starts targets).paths.reverse, ∀ k ∈ p.nodes, k ∈ R := by
  intro p hp
  obtain ⟨a, ha, b, -, hw⟩ := exists_walk_of_mem_paths ht (List.mem_reverse.1 hp)
  exact hw.mem_of_closed hclosed (hstarts a ha)

theorem reached_mem_of_closed (ht : t.Acyclic) (hclosed : t.Closed R) {limits : Limits}
    {starts targets : List Key} (hstarts : ∀ k ∈ starts, k ∈ R) :
    ∀ k ∈ (t.enumerate limits starts targets).paths.reverse.filterMap Path.last?, k ∈ R := by
  intro k hk
  obtain ⟨p, hp, hlast⟩ := List.mem_filterMap.1 hk
  exact enumerate_mem_of_closed ht hclosed hstarts p hp k (List.mem_of_getLast? hlast)

namespace AgreeOn

variable (h : AgreeOn R t t')

include h

theorem symm : AgreeOn R t' t := by
  refine ⟨fun k hk => (h.edges k hk).symm, fun k hk e he => h.closed k hk e ?_⟩
  rw [h.edges k hk]
  exact he

theorem list_eq (depth : ℕ) (stack : List Occurrence) (expanded : SortedSet Key)
    (hstack : ∀ o ∈ stack, o.key ∈ R) :
    t.list depth stack expanded = t'.list depth stack expanded := by
  fun_induction list t depth stack expanded with
  | case1 => rw [list]
  | case2 o stack expanded hdepth ih =>
    rw [list, if_pos hdepth, ih (List.forall_mem_cons.1 hstack).2]
  | case3 o stack expanded hdepth hexpanded ih =>
    rw [list, if_neg hdepth, if_pos hexpanded, ih (List.forall_mem_cons.1 hstack).2]
  | case4 o stack expanded hdepth hexpanded hroom ih =>
    obtain ⟨ho, hrest⟩ := List.forall_mem_cons.1 hstack
    have hbelow : t.below o = t'.below o := by rw [below, below, h.edges _ ho]
    have hnext := ih (List.forall_mem_append.2 ⟨h.closed.below ho, hrest⟩)
    rw [list, if_neg hdepth, if_neg hexpanded, if_pos hroom, ← hbelow, hnext]
  | case5 o stack expanded hdepth hexpanded hroom ih =>
    rw [list, if_neg hdepth, if_neg hexpanded, if_neg hroom, ih (List.forall_mem_cons.1 hstack).2]

theorem tree_eq {roots : List Key} (hroots : ∀ k ∈ roots, k ∈ R) (depth : ℕ) :
    t.tree roots depth = t'.tree roots depth := by
  have htrees : ∀ root ∈ roots.eraseDups, t.treeOf depth root = t'.treeOf depth root := by
    intro root hroot
    apply h.list_eq
    simpa using hroots root (List.mem_eraseDups.1 hroot)
  rw [tree, tree, List.flatMap_congr htrees]

theorem search_eq (targets : SortedSet Key) (depth : ℕ) (layer : List Arrival)
    (seen : SortedSet Key) (hlayer : ∀ x ∈ layer, x.key ∈ R) :
    t.search targets depth layer seen = t'.search targets depth layer seen := by
  induction depth generalizing layer seen with
  | zero => rfl
  | succ depth ih =>
    cases layer with
    | nil => rfl
    | cons x layer =>
      have honward : (x :: layer).flatMap t.onward = (x :: layer).flatMap t'.onward := by
        apply List.flatMap_congr
        intro y hy
        rw [onward, onward, h.edges _ (hlayer y hy)]
      have hnext : ∀ y ∈ (firstArrivals seen ((x :: layer).flatMap t.onward)).1, y.key ∈ R := by
        intro y hy
        obtain ⟨z, hz, hy⟩ := List.mem_flatMap.1 ((firstArrivals_sublist seen _).subset hy)
        obtain ⟨e, he, rfl⟩ := mem_onward.1 hy
        exact h.closed _ (hlayer z hz) e he
      rw [search_of_ne_nil (List.cons_ne_nil x layer), search_of_ne_nil (List.cons_ne_nil x layer),
        ← honward, ih _ _ hnext]

theorem shortestPath_eq {starts : List Key} (hstarts : ∀ k ∈ starts, k ∈ R) (targets : List Key)
    (depth : ℕ) : t.shortestPath starts targets depth = t'.shortestPath starts targets depth := by
  apply h.search_eq
  intro x hx
  obtain ⟨k, hk, rfl⟩ := List.mem_map.1 hx
  exact hstarts k (SortedSet.mem_ofList.1 hk)

theorem walk (ha : a ∈ R) (hw : t.Walk a b p) : t'.Walk a b p := by
  induction hw with
  | single k => exact .single k
  | @cons k b e p he _ ih => exact .cons (h.edges k ha ▸ he) (ih (h.closed k ha e he))

theorem leads_iff (ha : a ∈ R) : t.Leads a b ↔ t'.Leads a b := by
  constructor
  · rintro ⟨p, hp⟩
    exact ⟨p, h.walk ha hp⟩
  · rintro ⟨p, hp⟩
    exact ⟨p, h.symm.walk ha hp⟩

theorem useful_eq {starts : SortedSet Key} (hstarts : ∀ k ∈ starts, k ∈ R)
    (targets : SortedSet Key) : t.useful starts targets = t'.useful starts targets := by
  apply SortedSet.ext
  intro k
  rw [mem_useful, mem_useful]
  have hfrom : (∃ a ∈ starts, t.Leads a k) ↔ ∃ a ∈ starts, t'.Leads a k :=
    exists_congr fun a => and_congr_right fun ha => h.leads_iff (hstarts a ha)
  have hto : (∃ a ∈ starts, t.Leads a k) →
      ((∃ b ∈ targets, t.Leads k b) ↔ ∃ b ∈ targets, t'.Leads k b) := by
    rintro ⟨a, ha, p, hp⟩
    have hk : k ∈ R := hp.mem_of_closed h.closed (hstarts a ha) k hp.last_mem
    simp only [h.leads_iff hk]
  rw [← hfrom]
  exact and_congr_right hto

end AgreeOn

end EdgeTable

namespace Enumeration

variable {goal : Goal} {t' : EdgeTable} {R : Set Key} {key : Key} {cause : Option Cause}
  {e f : Enumeration}

def Confined (R : Set Key) (e : Enumeration) : Prop :=
  ∀ edges ∈ e.frames, ∀ edge ∈ edges, edge.target ∈ R

theorem frames_leave (e : Enumeration) : e.leave.frames = e.frames := by
  unfold leave
  split <;> rfl

section Agree

variable (h : EdgeTable.AgreeOn R goal.table t')

include h

theorem Confined.enter (he : e.Confined R) (hkey : key ∈ R) :
    (e.enter goal key cause).Confined R := by
  rw [enter_eq]
  split
  · exact he
  · split
    · rw [Confined, frames_leave, frames_record]
      exact he
    · exact List.forall_mem_cons.2 ⟨h.closed key hkey, he⟩

theorem Confined.step (he : e.Confined R) (hstep : e.step goal = some f) : f.Confined R := by
  obtain ⟨-, ⟨frames, hf, rfl⟩ | ⟨edge, edges, frames, hf, hcase⟩⟩ := step_cases hstep
  · rw [Confined, hf] at he
    rw [Confined, frames_leave]
    exact (List.forall_mem_cons.1 he).2
  · rw [Confined, hf] at he
    obtain ⟨hedges, hframes⟩ := List.forall_mem_cons.1 he
    obtain ⟨hedge, hedges⟩ := List.forall_mem_cons.1 hedges
    have hrest : Confined R { e with frames := edges :: frames } :=
      List.forall_mem_cons.2 ⟨hedges, hframes⟩
    rcases hcase with ⟨-, rfl⟩ | ⟨-, rfl⟩
    · exact hrest.enter h hedge
    · exact hrest

theorem enter_congr (e : Enumeration) (cause : Option Cause) (hkey : key ∈ R) :
    e.enter goal key cause = e.enter { goal with table := t' } key cause := by
  rw [enter_eq, enter_eq, h.edges key hkey]

theorem step_congr (he : e.Confined R) : e.step goal = e.step { goal with table := t' } := by
  unfold step
  split
  · rfl
  · split
    · rfl
    · rfl
    · next edge edges frames hf =>
      rw [Confined, hf] at he
      have hedge : edge.target ∈ R := he _ List.mem_cons_self edge List.mem_cons_self
      dsimp only
      rw [enter_congr h _ _ hedge]

theorem run_congr (he : e.Confined R) : e.run goal = e.run { goal with table := t' } := by
  fun_induction run goal e with
  | case1 e hstep =>
    rw [step_congr h he] at hstep
    rw [run, hstep]
  | case2 e f hstep ih =>
    have hnext := he.step h hstep
    rw [step_congr h he] at hstep
    rw [ih hnext]
    conv_rhs => rw [run, hstep]

theorem walkFromAll_congr {starts : List Key} (hstarts : ∀ k ∈ starts, k ∈ R)
    (hempty : e.frames = []) :
    e.walkFromAll goal starts = e.walkFromAll { goal with table := t' } starts := by
  induction starts generalizing e with
  | nil => rfl
  | cons start starts ih =>
    have hstart : start ∈ R := hstarts start List.mem_cons_self
    have hconfined : e.Confined R := by simp [Confined, hempty]
    have hone : e.walkFrom goal start = e.walkFrom { goal with table := t' } start := by
      rw [walkFrom, walkFrom, run_congr h (hconfined.enter h hstart), enter_congr h e none hstart]
    rw [walkFromAll, walkFromAll, ← hone,
      ih (fun k hk => hstarts k (List.mem_cons_of_mem start hk)) rfl]

end Agree

end Enumeration

namespace EdgeTable.AgreeOn

variable {R : Set Key} {t t' : EdgeTable}

theorem enumerate_eq (h : t.AgreeOn R t') {starts : List Key} (hstarts : ∀ k ∈ starts, k ∈ R)
    (limits : Limits) (targets : List Key) :
    t.enumerate limits starts targets = t'.enumerate limits starts targets := by
  have hset : ∀ k ∈ SortedSet.ofList starts, k ∈ R := fun k hk =>
    hstarts k (SortedSet.mem_ofList.1 hk)
  dsimp only [enumerate]
  rw [← h.useful_eq hset]
  let goal : Goal := ⟨t, .ofList targets, t.useful (.ofList starts) (.ofList targets), limits⟩
  have hgoal : AgreeOn R goal.table t' := h
  apply Enumeration.walkFromAll_congr hgoal _ rfl
  intro k hk
  exact hset k (SortedSet.mem_filter.1 hk).1

end EdgeTable.AgreeOn

def Node.selection (node : Node) : NameTable Key × SortedMap String (SortedSet ExtensionId) :=
  (node.declaration.deps, node.declaration.extensionDeps)

/-- The modules that are used in one graph have the same selected dependencies in another, there for
the same extensions. Nothing is asked of versions that lost selection. -/
def Graph.SameUsed (g g' : Graph) : Prop :=
  ∀ k, g.isUsed k → (g.get? k).map Node.selection = (g'.get? k).map Node.selection

theorem EdgeTable.followed_of_selection {f : Filter} {n n' : Node}
    (h : n.selection = n'.selection) : followed f n.declaration = followed f n'.declaration := by
  obtain ⟨hdeps, hcauses⟩ := Prod.mk.inj h
  rw [followed, followed, hdeps, Declaration.origin_congr hcauses]

namespace Snapshot.Accepted

variable {s s' : Snapshot}

theorem closed_used (hs : s.Accepted) (f : Filter) :
    (EdgeTable.ofGraph s.graph f).Closed {k | s.graph.isUsed k} := by
  intro k hk e he
  have hdepends : s.graph.DependsOn k e.target :=
    EdgeTable.exists_declaration_of_step ⟨e, he, rfl⟩
  exact hs.isUsed_iff.2 ((hs.isUsed_iff.1 hk).tail hdepends)

theorem agreeOn_used (hs : s.Accepted) (h : s.graph.SameUsed s'.graph) (f : Filter) :
    EdgeTable.AgreeOn {k | s.graph.isUsed k} (.ofGraph s.graph f) (.ofGraph s'.graph f) where
  edges k hk := by
    obtain ⟨node, hnode, -⟩ := Graph.isUsed_iff_exists.1 hk
    have hsame := h k hk
    rw [hnode, Option.map_some] at hsame
    obtain ⟨node', hnode', hselection⟩ := Option.map_eq_some_iff.1 hsame.symm
    simp only [EdgeTable.edges_ofGraph, hnode, hnode', Option.map_some, Option.getD_some]
    rw [EdgeTable.followed_of_selection hselection]
  closed := hs.closed_used f

end Snapshot.Accepted

namespace Survey

/-- Two surveys go the same way from their starts: trees, shortest walks and enumerations are the
same, or both are called off. -/
structure SameTraversals (v v' : Survey) (starts : List Key) : Prop where
  tree : ∀ depth, v.tree starts depth = v'.tree starts depth
  path : ∀ targets depth, v.path starts targets depth = v'.path starts targets depth
  allPaths : ∀ targets depth, v.allPaths starts targets depth = v'.allPaths starts targets depth

/-- The modules that a survey lists when it starts at some modules all have a property. -/
structure ListsOnly (P : Key → Prop) (v : Survey) (starts : List Key) : Prop where
  tree : ∀ depth tree, (v.tree starts depth).result = .ok tree → ∀ e ∈ tree.entries, P e.key
  path : ∀ targets depth p, (v.path starts targets depth).result = .ok (some p) →
    ∀ k ∈ p.nodes, P k
  allPaths : ∀ targets depth found, (v.allPaths starts targets depth).result = .ok found →
    (∀ p ∈ found.paths, ∀ k ∈ p.nodes, P k) ∧ ∀ e ∈ found.targetTrees.entries, P e.key

section AgreeOn

variable {v v' : Survey} {starts : List Key} {R : Set Key}
  (h : EdgeTable.AgreeOn R v.table v'.table) (hstarts : ∀ k ∈ starts, k ∈ R)

include h hstarts

theorem allPathsOf_of_agreeOn (hv : v.snapshot.Accepted) (targets : List Key) (depth : ℕ) :
    v.table.allPathsOf depth (v.table.enumerate v.limits starts targets) =
      v'.table.allPathsOf depth (v.table.enumerate v.limits starts targets) := by
  have hacyclic : v.table.Acyclic := hv.acyclic v.filter
  rw [EdgeTable.allPathsOf, EdgeTable.allPathsOf,
    h.tree_eq (EdgeTable.reached_mem_of_closed hacyclic h.closed hstarts)]

theorem sameTraversals_of_agreeOn (hv : v.snapshot.Accepted) (hlimits : v.limits = v'.limits)
    (hinterrupted : v.interrupted = v'.interrupted) : SameTraversals v v' starts where
  tree depth := by
    rw [Survey.tree, Survey.tree, check, check, hinterrupted, h.tree_eq hstarts]
  path targets depth := by
    rw [Survey.path, Survey.path, check, check, hinterrupted, h.shortestPath_eq hstarts]
  allPaths targets depth := by
    have hfound : v.table.enumerate v.limits starts targets =
        v'.table.enumerate v'.limits starts targets := by
      rw [h.enumerate_eq hstarts, hlimits]
    rw [Survey.allPaths, Survey.allPaths, check, check, hinterrupted]
    dsimp only
    rw [allPathsOf_of_agreeOn h hstarts hv, hfound]

end AgreeOn

theorem result_of_check {α : Type} {v : Survey} {stage : Stage} {comes : Bool} {x : Answer α}
    {a : α} (h : (do v.check stage comes; x).result = .ok a) : x.result = .ok a := by
  unfold check at h
  split at h
  · exact absurd h (by simp [Answer.fail])
  · exact h

theorem listsOnly_of_closed {v : Survey} {starts : List Key} {R : Set Key}
    (hv : v.snapshot.Accepted) (hclosed : v.table.Closed R)
    (hstarts : ∀ k ∈ starts, k ∈ R) : ListsOnly (· ∈ R) v starts where
  tree depth tree htree := by
    obtain rfl := Except.ok.inj (result_of_check htree)
    exact EdgeTable.tree_mem_of_closed hclosed hstarts depth
  path targets depth p hp := by
    have hfound : v.table.shortestPath starts targets depth = some p :=
      Except.ok.inj (result_of_check hp)
    have hord : v.table.Ordered := EdgeTable.ordered_ofGraph _ _
    have hspec := EdgeTable.shortestPath_spec hord starts targets depth
    rw [hfound] at hspec
    obtain ⟨⟨a, ha, b, -, hw⟩, -⟩ := hspec
    exact hw.mem_of_closed hclosed (hstarts a ha)
  allPaths targets depth found hfound := by
    obtain rfl := Except.ok.inj (result_of_check hfound)
    have hacyclic : v.table.Acyclic := hv.acyclic v.filter
    refine ⟨EdgeTable.enumerate_mem_of_closed hacyclic hclosed hstarts, ?_⟩
    apply EdgeTable.tree_mem_of_closed hclosed
    exact EdgeTable.reached_mem_of_closed hacyclic hclosed hstarts

/-- Traversals give the same in two snapshots, under whatever filters, when the edges agree on a set
of modules that the starts lie in and that no edge leads out of. From used modules they list used
modules only, and what is declared about other versions makes no difference. -/
theorem traversals_confined (s s' : Snapshot) (hs : s.Accepted) (f f' : Filter) (limits : Limits)
    (interrupted : Bool) (starts : List Key) :
    (∀ R : Set Key, (∀ k ∈ starts, k ∈ R) →
      EdgeTable.AgreeOn R (.ofGraph s.graph f) (.ofGraph s'.graph f') →
        SameTraversals ⟨s, f, limits, interrupted⟩ ⟨s', f', limits, interrupted⟩ starts) ∧
    ((∀ k ∈ starts, s.graph.isUsed k) →
      ListsOnly (fun k => s.graph.isUsed k) ⟨s, f, limits, interrupted⟩ starts ∧
      (s.graph.SameUsed s'.graph →
        SameTraversals ⟨s, f, limits, interrupted⟩ ⟨s', f, limits, interrupted⟩ starts)) := by
  refine ⟨fun R hstarts h => ?_, fun hused => ⟨?_, fun h => ?_⟩⟩
  · exact sameTraversals_of_agreeOn h hstarts hs rfl rfl
  · exact listsOnly_of_closed hs (hs.closed_used f) hused
  · exact sameTraversals_of_agreeOn (hs.agreeOn_used h f) hused hs rfl rfl

/-- One version of a module lost the selection to another, and both have dependencies. -/
def selected : Snapshot := .ofDeclared ((Snapshot.plain [
    (.root, [⟨"a", "2"⟩]), (⟨"a", "1"⟩, [⟨"b", "1"⟩]), (⟨"a", "2"⟩, [⟨"b", "1"⟩]),
    (⟨"b", "1"⟩, [])]).adjust .root fun d => { d with
      unusedDeps := .ofList [("a", ⟨"a", "1"⟩)] }) []

def unrivalled : Snapshot := .ofDeclared (Snapshot.plain [
    (.root, [⟨"a", "2"⟩]), (⟨"a", "2"⟩, [⟨"b", "1"⟩]), (⟨"b", "1"⟩, [])]) []

theorem traversals_confined_selected : selected.Accepted ∧ selected.graph.isUsed .root ∧
    selected.graph.contains ⟨"a", "1"⟩ ∧ unrivalled.graph.contains ⟨"a", "1"⟩ = false ∧
    selected.graph.SameUsed unrivalled.graph ∧
    SameTraversals ⟨selected, .complete, .default, false⟩
      ⟨unrivalled, .complete, .default, false⟩ [.root] ∧
    ListsOnly (fun k => selected.graph.isUsed k) ⟨selected, .complete, .default, false⟩
      [.root] := by
  have haccepted : selected.Accepted := Snapshot.accepted_ofDeclared (by cbv) (by cbv)
  have hroot : selected.graph.isUsed .root := by cbv
  have hsame : selected.graph.SameUsed unrivalled.graph := by
    intro k hk
    obtain ⟨_, hnode, -⟩ := Graph.isUsed_iff_exists.1 hk
    have hmem : k ∈ selected.graph.keys := SortedMap.mem_of_get? hnode
    have hkeys : selected.graph.keys =
        [.root, ⟨"a", "1"⟩, ⟨"a", "2"⟩, ⟨"b", "1"⟩] := by cbv
    rw [hkeys] at hmem
    rcases List.mem_cons.1 hmem with rfl | hmem
    · cbv
    rcases List.mem_cons.1 hmem with rfl | hmem
    · have hlost : selected.graph.isUsed ⟨"a", "1"⟩ = false := by cbv
      simp [hlost] at hk
    rcases List.mem_cons.1 hmem with rfl | hmem
    · cbv
    obtain rfl := List.mem_singleton.1 hmem
    cbv
  obtain ⟨-, hused⟩ := traversals_confined selected unrivalled haccepted .complete .complete
    .default false [.root]
  obtain ⟨hlists, htraversals⟩ := hused (by simpa using hroot)
  exact ⟨haccepted, hroot, by cbv, by cbv, hsame, htraversals hsame, hlists⟩

end Survey

end ModuleGraph
