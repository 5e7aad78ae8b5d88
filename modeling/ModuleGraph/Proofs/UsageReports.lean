import ModuleGraph.Proofs.BuiltGraph
import ModuleGraph.Query.Survey

/-!
# Usages of extensions beside what modules declare

The reports of extensions join two tables: the rows of the usage table, and the repositories that
the module of a row declares for the extension. Each row comes into one report, the one of its
extension, and a choice of users leaves out the rows of the others and changes nothing else.
-/
namespace ModuleGraph

namespace UsageTable

variable {table : UsageTable} {id : ExtensionId} {k : Key} {usage : Usage}

theorem mem_usagesOf_iff : (k, usage) ∈ table.usagesOf id ↔ table.get? ⟨k, id⟩ = some usage := by
  simp only [usagesOf, List.mem_map, List.mem_filter, decide_eq_true_eq,
    SortedMap.get?_eq_some_iff]
  constructor
  · rintro ⟨⟨⟨user, _⟩, usage⟩, ⟨hrow, rfl⟩, heq⟩
    obtain ⟨rfl, rfl⟩ := Prod.mk.inj heq
    exact hrow
  · intro hrow
    exact ⟨_, ⟨hrow, rfl⟩, rfl⟩

theorem compare_user {i j : UsageKey} (hlt : compare i j = .lt) (h : i.extension = j.extension) :
    compare i.user j.user = .lt := by
  have hthen : (compare i.user j.user).then (compare i.extension j.extension) = .lt := hlt
  simpa [h] using hthen

theorem usagesOf_increasing (table : UsageTable) (id : ExtensionId) :
    (table.usagesOf id).Pairwise fun row row' => compare row.1 row'.1 = .lt := by
  refine List.pairwise_map.2 ((table.increasing.filter _).imp_of_mem fun {x y} hx hy hlt => ?_)
  have hxid : x.1.extension = id := by simpa using (List.mem_filter.1 hx).2
  have hyid : y.1.extension = id := by simpa using (List.mem_filter.1 hy).2
  exact compare_user hlt (hxid.trans hyid.symm)

end UsageTable

namespace ExtensionReport

def rows (r : ExtensionReport) : List UsageKey := r.usages.map fun u => ⟨u.module, r.extension⟩

def listed (r : ExtensionReport) : List (ExtensionId × Key × RepoImport) :=
  r.usages.flatMap fun u => u.repos.map fun repo => (r.extension, u.module, repo)

theorem mem_generated_iff {r : ExtensionReport} {name : String} :
    name ∈ r.generated ↔ ∃ u ∈ r.usages, ∃ repo ∈ u.repos, repo.name = name := by
  simp [generated]

end ExtensionReport

/-- A usage report joins one row of the usage table with the declaration of its module. -/
structure UsageReport.Joins (s : Snapshot) (id : ExtensionId) (u : UsageReport) (usage : Usage)
    (node : Node) : Prop where
  get?_usages : s.usages.get? ⟨u.module, id⟩ = some usage
  get?_graph : s.graph.get? u.module = some node
  tags : u.tags = usage.tags
  names : u.repos.map RepoImport.name = ((node.declaration.extensions.get? id).getD ∅).toList
  imported : ∀ repo ∈ u.repos, repo.imported = true ↔ repo.name ∈ usage.imports

namespace Snapshot

variable {s : Snapshot} {id : ExtensionId} {users : List Key} {k : Key} {node : Node}
  {u : UsageReport}

theorem mem_usages_extensionReport : u ∈ (s.extensionReport users id).usages ↔
    (users = [] ∨ u.module ∈ users) ∧
      ∃ usage, s.usages.get? ⟨u.module, id⟩ = some usage ∧
        u = s.usageReport id (u.module, usage) := by
  simp only [extensionReport, List.mem_map, List.mem_filter, Bool.or_eq_true, List.isEmpty_iff,
    decide_eq_true_eq, Prod.exists, UsageTable.mem_usagesOf_iff]
  constructor
  · rintro ⟨user, usage, ⟨hrow, huser⟩, rfl⟩
    exact ⟨huser, usage, hrow, rfl⟩
  · rintro ⟨huser, usage, hrow, hu⟩
    exact ⟨u.module, usage, ⟨hrow, huser⟩, hu.symm⟩

theorem modules_increasing (s : Snapshot) (users : List Key) (id : ExtensionId) :
    ((s.extensionReport users id).usages.map UsageReport.module).Pairwise
      (compare · · = .lt) := by
  rw [extensionReport, List.map_map]
  exact List.pairwise_map.2 ((s.usages.usagesOf_increasing id).filter _)

theorem generatedFor_eq (hnode : s.graph.get? k = some node) :
    s.generatedFor id k = ((node.declaration.extensions.get? id).getD ∅).toList := by
  rw [generatedFor, hnode]
  rfl

theorem Accepted.exists_user (hs : s.Accepted) {usage : Usage}
    (hrow : s.usages.get? ⟨k, id⟩ = some usage) : ∃ node, s.graph.get? k = some node := by
  obtain ⟨declarations, rows, h⟩ := hs
  rw [get?_usages h] at hrow
  obtain ⟨row, hlast, -⟩ := Option.map_eq_some_iff.1 hrow
  obtain ⟨hmem, huser⟩ := List.mem_filter.1 (List.mem_of_getLast? hlast)
  obtain ⟨rfl, -⟩ := of_decide_eq_true huser
  exact (exists_node_iff h).2 (holds_of_build h .usersDeclared row hmem)

theorem Accepted.exists_joins (hs : s.Accepted) (hu : u ∈ (s.extensionReport users id).usages) :
    ∃ usage node, u.Joins s id usage node := by
  obtain ⟨-, usage, hrow, hu⟩ := mem_usages_extensionReport.1 hu
  obtain ⟨node, hnode⟩ := hs.exists_user hrow
  have hrepos : u.repos =
      ((node.declaration.extensions.get? id).getD ∅).toList.map fun name =>
        ⟨name, name ∈ usage.imports⟩ := by
    rw [hu, usageReport, generatedFor_eq hnode]
  refine ⟨usage, node, hrow, hnode, by rw [hu, usageReport], ?_, fun repo hrepo => ?_⟩
  · simp [hrepos, Function.comp_def]
  · rw [hrepos] at hrepo
    obtain ⟨name, -, rfl⟩ := List.mem_map.1 hrepo
    simp

theorem extensionReport_of_ne_nil (husers : users ≠ []) :
    s.extensionReport users id =
      { s.extensionReport [] id with
        usages := (s.extensionReport [] id).usages.filter (·.module ∈ users) } := by
  have hsome : users.isEmpty = false := by simpa using husers
  simp only [extensionReport, hsome, Bool.false_or, List.isEmpty_nil, Bool.true_or,
    List.filter_true, List.filter_map]
  rfl

theorem mem_rows_extensionReport {key : UsageKey} : key ∈ (s.extensionReport users id).rows ↔
    key ∈ s.usages ∧ key.extension = id ∧ (users = [] ∨ key.user ∈ users) := by
  simp only [ExtensionReport.rows, List.mem_map, mem_usages_extensionReport]
  constructor
  · rintro ⟨u, ⟨huser, usage, hrow, -⟩, rfl⟩
    exact ⟨SortedMap.mem_of_get? hrow, rfl, huser⟩
  · rintro ⟨hkey, rfl, huser⟩
    obtain ⟨usage, hrow⟩ := Option.ne_none_iff_exists'.1
      (mt SortedMap.get?_eq_none_iff.1 (not_not.2 hkey))
    exact ⟨s.usageReport key.extension (key.user, usage), ⟨huser, usage, hrow, rfl⟩, rfl⟩

/-- The reports of different extensions share no row, so together they have each row once. -/
theorem rows_perm {ids : List ExtensionId} (hids : ids.Nodup)
    (hall : ∀ key ∈ s.usages.keys, key.extension ∈ ids) :
    ((s.extensionReports ids []).flatMap ExtensionReport.rows).Perm s.usages.keys := by
  have hnodup : ((s.extensionReports ids []).flatMap ExtensionReport.rows).Nodup := by
    rw [extensionReports, List.flatMap_map, List.nodup_flatMap]
    refine ⟨fun id _ => ?_, hids.imp fun {id id'} hne key hkey hkey' => hne ?_⟩
    · refine .of_map UsageKey.user ?_
      rw [ExtensionReport.rows, List.map_map]
      exact (modules_increasing s [] id).imp fun hlt heq => by simp [heq] at hlt
    · exact (mem_rows_extensionReport.1 hkey).2.1.symm.trans (mem_rows_extensionReport.1 hkey').2.1
  refine (List.perm_ext_iff_of_nodup hnodup s.usages.nodup_keys).2 fun key => ?_
  simp only [extensionReports, List.mem_flatMap, List.mem_map, exists_exists_and_eq_and,
    mem_rows_extensionReport, true_or, and_true]
  constructor
  · rintro ⟨id, -, hkey, -⟩
    exact hkey
  · intro hkey
    exact ⟨key.extension, hall key hkey, hkey, rfl⟩

end Snapshot

namespace Survey

def missingImport (entry : ExtensionId × Key × RepoImport) : Warning :=
  .neverImported entry.2.2.name entry.1 entry.2.1

theorem notImported_eq (report : ExtensionReport) :
    notImported report = (report.listed.filter (!·.2.2.imported)).map missingImport := by
  rw [notImported, ExtensionReport.listed, List.filter_flatMap, List.map_flatMap]
  simp only [List.filter_map, List.map_map]
  rfl

theorem flatMap_notImported (reports : List ExtensionReport) : reports.flatMap notImported =
    ((reports.flatMap ExtensionReport.listed).filter (!·.2.2.imported)).map missingImport := by
  rw [List.filter_flatMap, List.map_flatMap, ← funext notImported_eq]

/-- The reports of extensions without repetitions: one for each in order, each with the usages of
the chosen users in order, a usage being a row of the usage table joined with what its module
declares. All users and all extensions together give every row once. The warnings are those of the
listed repositories that are not imported, in the same order. -/
theorem extensions_joined (survey : Survey) (hs : survey.snapshot.Accepted)
    (ids : List ExtensionId) (hids : ids.Nodup) (users : List Key) :
    ∃ reports all, (survey.extensions ids users).result = .ok reports ∧
      (survey.extensions ids []).result = .ok all ∧
      reports.map ExtensionReport.extension = ids ∧
      (∀ r ∈ reports, (r.usages.map UsageReport.module).Pairwise (compare · · = .lt)) ∧
      ((∀ id ∈ survey.snapshot.extensionIds, id ∈ ids) →
        (all.flatMap ExtensionReport.rows).Perm survey.snapshot.usages.keys) ∧
      (users ≠ [] →
        reports = all.map fun r => { r with usages := r.usages.filter (·.module ∈ users) }) ∧
      (∀ r ∈ reports, ∀ name,
        name ∈ r.generated ↔ ∃ u ∈ r.usages, ∃ repo ∈ u.repos, repo.name = name) ∧
      (∀ r ∈ reports, ∀ u ∈ r.usages, ∃ usage node,
        u.Joins survey.snapshot r.extension usage node) ∧
      (survey.extensions ids users).warnings =
        ((reports.flatMap ExtensionReport.listed).filter (!·.2.2.imported)).map missingImport := by
  refine ⟨_, _, rfl, rfl, ?_, ?_, fun hall => ?_, fun husers => ?_,
    fun r _ name => ExtensionReport.mem_generated_iff, ?_, flatMap_notImported _⟩
  · rw [Snapshot.extensionReports, List.map_map]
    exact List.map_id ids
  · rw [Snapshot.extensionReports, List.forall_mem_map]
    exact fun id _ => Snapshot.modules_increasing survey.snapshot users id
  · refine Snapshot.rows_perm hids fun key hkey => hall _ (SortedSet.mem_ofList.2 ?_)
    exact List.mem_append_right _ (List.mem_map_of_mem hkey)
  · rw [Snapshot.extensionReports, Snapshot.extensionReports, List.map_map]
    exact List.map_congr_left fun id _ => Snapshot.extensionReport_of_ne_nil husers
  · rw [Snapshot.extensionReports, List.forall_mem_map]
    exact fun id _ u hu => hs.exists_joins hu

def toolExtension : ExtensionId := ⟨⟨"tools", "1"⟩, "ext", none⟩

def declaredRepos : SortedMap Key Declaration :=
  (Snapshot.plain [(.root, [⟨"tools", "1"⟩]), (⟨"tools", "1"⟩, [])]).adjust .root fun d =>
    { d with extensions := .ofList [(toolExtension, .ofList ["kept", "lost"])] }

def importedRepos : List UsageRow :=
  [⟨⟨"tools", "1"⟩, toolExtension, ⟨[], ∅⟩⟩, ⟨.root, toolExtension, ⟨[], .ofList ["kept"]⟩⟩]

theorem build_importedRepos : Snapshot.build declaredRepos.values importedRepos =
    .ok (.ofDeclared declaredRepos importedRepos) :=
  Snapshot.build_eq_ok_iff.2 ⟨declaredRepos, by cbv, by cbv, rfl⟩

/-- Both rows are reported, and the repository that is not imported gives the one warning. -/
theorem extensions_joined_importedRepos :
    let survey : Survey :=
      { snapshot := .ofDeclared declaredRepos importedRepos, filter := .complete }
    survey.snapshot.Accepted ∧ [toolExtension].Nodup ∧
      (∃ all, (survey.extensions [toolExtension] []).result = .ok all ∧
        (all.flatMap ExtensionReport.rows).Perm
          [⟨.root, toolExtension⟩, ⟨⟨"tools", "1"⟩, toolExtension⟩]) ∧
      (survey.extensions [toolExtension] []).warnings =
        [.neverImported "lost" toolExtension .root] := by
  intro survey
  have hs : survey.snapshot.Accepted := ⟨_, _, build_importedRepos⟩
  have hids : survey.snapshot.extensionIds.toList = [toolExtension] := by cbv
  have hkeys : survey.snapshot.usages.keys =
      [⟨.root, toolExtension⟩, ⟨⟨"tools", "1"⟩, toolExtension⟩] := by cbv
  obtain ⟨-, all, -, hall, -, -, hrows, -⟩ :=
    extensions_joined survey hs [toolExtension] (List.nodup_singleton _) []
  refine ⟨hs, List.nodup_singleton _, ⟨all, hall, ?_⟩, by cbv⟩
  rw [← hkeys]
  refine hrows fun id hid => ?_
  rwa [SortedSet.mem_def, hids] at hid

end Survey

end ModuleGraph
