import ModuleGraph.Proofs.Validation

namespace ModuleGraph

/-- One module of the graph depends on another, whose version was selected. -/
def Graph.DependsOn (g : Graph) (k l : Key) : Prop :=
  ∃ node, g.get? k = some node ∧ l ∈ node.declaration.deps.values

theorem Graph.contains_iff {g : Graph} {k : Key} :
    g.contains k ↔ ∃ node, g.get? k = some node := by
  rw [← Option.isSome_iff_exists, ← Option.ne_none_iff_isSome, Graph.get?, Ne,
    SortedMap.get?_eq_none_iff]
  simp [Graph.contains]

theorem Graph.isUsed_iff_exists {g : Graph} {m : Key} :
    g.isUsed m ↔ ∃ node, g.get? m = some node ∧ node.used := by
  rw [Graph.isUsed]
  cases g.get? m <;> simp

namespace Graph

def dependencies (declared : SortedMap Key Declaration) : List (Key × Key) :=
  declared.entries.flatMap fun e => e.2.deps.values.map fun target => (e.1, target)

def link (nodes : SortedMap Key Node) (pair : Key × Key) : SortedMap Key Node :=
  nodes.adjust pair.2 fun node => { node with dependents := node.dependents.insert pair.1 }

def markUsed (nodes : SortedMap Key Node) (k : Key) : SortedMap Key Node :=
  nodes.adjust k fun node => { node with used := true }

theorem get?_foldl_link (pairs : List (Key × Key)) (nodes : SortedMap Key Node) (l : Key) :
    (pairs.foldl link nodes).get? l = (nodes.get? l).map fun node =>
      { node with dependents :=
          node.dependents.insertAll ((pairs.filter (·.2 = l)).map Prod.fst) } := by
  induction pairs generalizing nodes with
  | nil => simp [SortedSet.insertAll]
  | cons pair pairs ih =>
    rw [List.foldl_cons, ih, link, SortedMap.adjust, SortedMap.get?_mapValues, Option.map_map]
    refine congrArg (Option.map · _) (funext fun node => ?_)
    by_cases hl : l = pair.2
    · simp [hl, SortedSet.insertAll]
    · simp [hl, Ne.symm hl]

theorem get?_foldl_markUsed (keys : List Key) (nodes : SortedMap Key Node) (l : Key) :
    (keys.foldl markUsed nodes).get? l = (nodes.get? l).map fun node =>
      { node with used := node.used || decide (l ∈ keys) } := by
  induction keys generalizing nodes with
  | nil => simp
  | cons k keys ih =>
    rw [List.foldl_cons, ih, markUsed, SortedMap.adjust, SortedMap.get?_mapValues, Option.map_map]
    refine congrArg (Option.map · _) (funext fun node => ?_)
    by_cases hl : l = k <;> simp [hl]

theorem insertAll_dependencies (declared : SortedMap Key Declaration) (l : Key) :
    (∅ : SortedSet Key).insertAll (((dependencies declared).filter (·.2 = l)).map Prod.fst) =
      declared.keysWhere fun _ user => l ∈ user.deps.values := by
  refine SortedSet.ext fun k => ?_
  rw [SortedSet.mem_insertAll, SortedMap.mem_keysWhere]
  simp [dependencies]

/-- One pass over all pairs fills in the dependents, and one over what the root leads to says what
is used. -/
theorem nodes_ofDeclared (declared : SortedMap Key Declaration) :
    (ofDeclared declared).nodes =
      ((usedArcs declared).reachable [Key.root]).toList.foldl markUsed
        ((dependencies declared).foldl link (declared.mapValues fun _ d => ⟨d, ∅, false⟩)) := by
  refine SortedMap.ext fun k => ?_
  rw [get?_foldl_markUsed, get?_foldl_link, ofDeclared, SortedMap.get?_mapValues,
    SortedMap.get?_mapValues, Option.map_map, Option.map_map]
  simp only [Function.comp_def, insertAll_dependencies, Bool.false_or, SortedSet.mem_def]

end Graph

namespace Snapshot

variable {declarations : List Declaration} {rows : List UsageRow} {s : Snapshot}
  {declared : SortedMap Key Declaration} {d : Declaration} {node : Node} {k l m : Key}

section Built

variable (h : build declarations rows = .ok s)

include h

theorem declaration_eq_some_iff :
    (s.graph.get? k).map Node.declaration = some d ↔ d ∈ declarations ∧ d.key = k := by
  obtain ⟨declared, hd, -, rfl⟩ := build_eq_ok_iff.1 h
  rw [← get?_declare hd]
  simp [ofDeclared, Graph.ofDeclared, Graph.get?, SortedMap.get?_mapValues, Function.comp_def]

theorem exists_node (hd : d ∈ declarations) :
    ∃ node, s.graph.get? d.key = some node ∧ node.declaration = d :=
  Option.map_eq_some_iff.1 ((declaration_eq_some_iff h).2 ⟨hd, rfl⟩)

theorem declaration_mem (hm : s.graph.get? m = some node) :
    node.declaration ∈ declarations ∧ node.declaration.key = m :=
  (declaration_eq_some_iff h).1 (by rw [hm]; rfl)

theorem exists_node_iff :
    (∃ node, s.graph.get? m = some node) ↔ m ∈ declarations.map Declaration.key := by
  rw [List.mem_map]
  constructor
  · rintro ⟨node, hm⟩
    exact ⟨node.declaration, declaration_mem h hm⟩
  · rintro ⟨d, hd, rfl⟩
    obtain ⟨node, hnode, -⟩ := exists_node h hd
    exact ⟨node, hnode⟩

theorem dependsOn_graph_iff : s.graph.DependsOn k l ↔ DependsOn declarations k l := by
  constructor
  · rintro ⟨node, hk, hl⟩
    obtain ⟨hd, hkey⟩ := declaration_mem h hk
    exact ⟨node.declaration, hd, hkey, hl⟩
  · rintro ⟨d, hd, rfl, hl⟩
    obtain ⟨node, hk, rfl⟩ := exists_node h hd
    exact ⟨node, hk, hl⟩

theorem mem_dependents_iff (hm : s.graph.get? m = some node) :
    k ∈ node.dependents ↔ DependsOn declarations k m := by
  obtain ⟨declared, hd, -, rfl⟩ := build_eq_ok_iff.1 h
  obtain ⟨-, hdependents, -⟩ := get?_graph_eq_some_iff.1 hm
  rw [hdependents, SortedMap.mem_keysWhere]
  simp only [mem_entries_declare hd, decide_eq_true_eq, and_assoc]
  rfl

theorem exists_node_of_reached (hm : Relation.ReflTransGen (DependsOn declarations) Key.root m) :
    ∃ node, s.graph.get? m = some node := by
  rw [exists_node_iff h]
  rcases hm.cases_tail with rfl | ⟨k, -, d, hd, hkey, hl⟩
  · exact holds_of_build h .rootDeclared
  · exact holds_of_build h (.targetsDeclared k) d hd hkey m (List.mem_append_left _ hl)

theorem isUsed_iff :
    s.graph.isUsed m ↔ Relation.ReflTransGen (DependsOn declarations) Key.root m := by
  have hused : ∀ node, s.graph.get? m = some node →
      (node.used ↔ Relation.ReflTransGen (DependsOn declarations) Key.root m) := by
    intro node hm
    obtain ⟨declared, hd, -, rfl⟩ := build_eq_ok_iff.1 h
    rw [(get?_graph_eq_some_iff.1 hm).2.2, decide_eq_true_eq, mem_reachable_usedArcs hd]
  rw [Graph.isUsed_iff_exists]
  constructor
  · rintro ⟨node, hm, hnode⟩
    exact (hused node hm).1 hnode
  · intro hm
    obtain ⟨node, hnode⟩ := exists_node_of_reached h hm
    exact ⟨node, hnode, (hused node hnode).2 hm⟩

theorem isUsed_iff_dependent : s.graph.isUsed m ↔
    m = Key.root ∨ ∃ k, DependsOn declarations k m ∧ s.graph.isUsed k := by
  simp only [isUsed_iff h]
  rw [Relation.ReflTransGen.cases_tail_iff]
  simp only [and_comm]

theorem declarations_perm : (s.graph.nodes.values.map Node.declaration).Perm declarations := by
  obtain ⟨declared, hd, -, rfl⟩ := build_eq_ok_iff.1 h
  have hvalues : (ofDeclared declared rows).graph.nodes.values.map Node.declaration =
      declared.values := by
    simp [ofDeclared, Graph.ofDeclared, SortedMap.values, SortedMap.mapValues, Function.comp_def]
  have hkeys : (declarations.map Declaration.key).Nodup := (declare_eq_ok_iff.1 hd).1
  have hnodup : declared.values.Nodup :=
    (values_increasing hd).imp fun hlt heq => by simp [heq] at hlt
  rw [hvalues, List.perm_ext_iff_of_nodup hnodup hkeys.of_map]
  exact fun d => mem_values_declare hd

theorem get?_graph_eq_find? (m : Key) :
    (s.graph.get? m).map Node.declaration = declarations.find? (·.key = m) := by
  refine Option.ext fun d => ?_
  rw [declaration_eq_some_iff h, find?_key_eq_some_iff (holds_of_build h .distinctKeys)]

theorem get?_usages (user : Key) (extension : ExtensionId) :
    s.usages.get? ⟨user, extension⟩ =
      (rows.filter fun row => row.user = user ∧ row.extension = extension).getLast?.map
        UsageRow.usage := by
  obtain ⟨declared, -, -, rfl⟩ := build_eq_ok_iff.1 h
  rw [ofDeclared, UsageTable.ofRows, SortedMap.get?_ofList, List.filter_map, List.getLast?_map,
    Option.map_map]
  simp only [Function.comp_def, UsageKey.mk.injEq]

end Built

namespace Accepted

theorem exists_root (hs : s.Accepted) : ∃ node, s.graph.get? Key.root = some node := by
  obtain ⟨declarations, rows, h⟩ := hs
  exact (exists_node_iff h).2 (holds_of_build h .rootDeclared)

theorem exists_target (hs : s.Accepted) (hk : s.graph.get? k = some node)
    (hl : l ∈ node.declaration.deps.values ++ node.declaration.unusedDeps.values) :
    ∃ target, s.graph.get? l = some target := by
  obtain ⟨declarations, rows, h⟩ := hs
  obtain ⟨hd, hkey⟩ := declaration_mem h hk
  exact (exists_node_iff h).2 (holds_of_build h (.targetsDeclared k) _ hd hkey l hl)

theorem index_eq (hs : s.Accepted) : s.index = .ofKeys s.graph.keys := by
  obtain ⟨declared, rows, -, rfl⟩ := hs.exists_declared
  rw [ofDeclared, Graph.keys, Graph.ofDeclared, SortedMap.keys_mapValues]

theorem contains_index_iff (hs : s.Accepted) :
    s.index.contains k ↔ s.graph.contains k ∧ k ≠ .root := by
  rw [hs.index_eq, Index.contains_ofKeys_iff, Graph.contains, decide_eq_true_iff,
    SortedMap.mem_def, Graph.keys]

theorem exists_indexed (hs : s.Accepted) (hk : s.index.contains k) :
    ∃ node, s.graph.get? k = some node :=
  Graph.contains_iff.1 (hs.contains_index_iff.1 hk).1

theorem isUsed_iff (hs : s.Accepted) :
    s.graph.isUsed m ↔ Relation.ReflTransGen s.graph.DependsOn Key.root m := by
  obtain ⟨declarations, rows, h⟩ := hs
  have hdepends : s.graph.DependsOn = DependsOn declarations := by
    funext k l
    exact propext (dependsOn_graph_iff h)
  rw [Snapshot.isUsed_iff h, hdepends]

theorem contains_index (hs : s.Accepted) (hk : s.graph.get? k = some node) (hroot : k ≠ .root) :
    s.index.contains k :=
  hs.contains_index_iff.2 ⟨Graph.contains_iff.2 ⟨node, hk⟩, hroot⟩

theorem isUsed_target (hs : s.Accepted) {l : Key} (hk : s.graph.isUsed k)
    (hl : s.graph.DependsOn k l) : s.graph.isUsed l :=
  hs.isUsed_iff.2 ((hs.isUsed_iff.1 hk).tail hl)

end Accepted

/-- What a snapshot says of the declarations and usage rows that it was built from. -/
structure Reflects (s : Snapshot) (declarations : List Declaration) (rows : List UsageRow) :
    Prop where
  perm : (s.graph.nodes.values.map Node.declaration).Perm declarations
  get?_graph : ∀ m, (s.graph.get? m).map Node.declaration = declarations.find? (·.key = m)
  dependents : ∀ m node, s.graph.get? m = some node →
    ∀ k, k ∈ node.dependents ↔ DependsOn declarations k m
  used_iff_reached : ∀ m, s.graph.isUsed m ↔
    Relation.ReflTransGen (DependsOn declarations) Key.root m
  used_iff_dependent : ∀ m node, s.graph.get? m = some node →
    (node.used ↔ m = Key.root ∨ ∃ k ∈ node.dependents, s.graph.isUsed k)
  targets_used : ∀ m node, s.graph.get? m = some node → node.used →
    ∀ l ∈ node.declaration.deps.values, s.graph.isUsed l
  /-- Of several usages of one extension by one user the last is kept. -/
  get?_usages : ∀ user extension, s.usages.get? ⟨user, extension⟩ =
    (rows.filter fun row => row.user = user ∧ row.extension = extension).getLast?.map
      UsageRow.usage

theorem build_reflects (declarations : List Declaration) (rows : List UsageRow) (s : Snapshot)
    (h : build declarations rows = .ok s) : s.Reflects declarations rows where
  perm := declarations_perm h
  get?_graph := get?_graph_eq_find? h
  dependents m node hm k := mem_dependents_iff h hm
  used_iff_reached m := isUsed_iff h
  used_iff_dependent m node hm := by
    have hnode : s.graph.isUsed m ↔ node.used := by simp [Graph.isUsed, hm]
    rw [← hnode, isUsed_iff_dependent h]
    simp only [mem_dependents_iff h hm]
  targets_used m node hm hused l hl := by
    refine (isUsed_iff_dependent h).2 (.inr ⟨m, ?_, ?_⟩)
    · exact (dependsOn_graph_iff h).1 ⟨node, hm, hl⟩
    · exact Graph.isUsed_iff_exists.2 ⟨node, hm, hused⟩
  get?_usages := get?_usages h

def versions : SortedMap Key Declaration :=
  (plain [
    (.root, [⟨"a", "2"⟩]), (⟨"a", "1"⟩, [⟨"b", "1"⟩]), (⟨"a", "2"⟩, [⟨"b", "1"⟩]),
    (⟨"b", "1"⟩, [])]).adjust .root fun d => { d with unusedDeps := .ofList [("a", ⟨"a", "1"⟩)] }

def usedTwice : List UsageRow :=
  [⟨.root, ⟨⟨"a", "2"⟩, "e", none⟩, ⟨[], ∅⟩⟩, ⟨.root, ⟨⟨"a", "2"⟩, "e", none⟩, ⟨[⟨"t", ∅⟩], ∅⟩⟩]

/-- Both versions are dependents, and only the selected one is used. -/
theorem build_reflects_versions : ∃ s, build versions.values usedTwice = .ok s ∧
    s.Reflects versions.values usedTwice ∧ s.graph.isUsed ⟨"b", "1"⟩ ∧
    s.graph.isUsed ⟨"a", "1"⟩ = false ∧ s.usages.size = 1 := by
  have hdeclare : declare versions.values = .ok versions := by cbv
  have hfault : fault? versions usedTwice = none := by cbv
  have hbuild := build_eq_ok_iff.2 ⟨versions, hdeclare, hfault, rfl⟩
  exact ⟨_, hbuild, build_reflects _ _ _ hbuild, by cbv, by cbv, by cbv⟩

end Snapshot

end ModuleGraph
