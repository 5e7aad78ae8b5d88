import ModuleGraph.Document
import ModuleGraph.Proofs.BuiltGraph

namespace ModuleGraph

namespace NameTable

variable {β : Type} {t u : NameTable β}

theorem get?_perm (h : t.entries.Perm u.entries) (name : String) : t.get? name = u.get? name := by
  apply Option.ext
  intro b
  rw [get?, get?, SortedMap.lookup_eq_some_iff t.names_nodup,
    SortedMap.lookup_eq_some_iff u.names_nodup, h.mem_iff]

end NameTable

/-- The same module, with the entries of its dependencies in some other order. -/
structure Declaration.Reordered (d d' : Declaration) : Prop where
  key : d.key = d'.key
  deps : d.deps.entries.Perm d'.deps.entries
  unusedDeps : d.unusedDeps.entries.Perm d'.unusedDeps.entries
  extensionDeps : d.extensionDeps = d'.extensionDeps
  extensions : d.extensions = d'.extensions

namespace Declaration.Reordered

variable {d d' : Declaration}

theorem symm (h : d.Reordered d') : d'.Reordered d :=
  ⟨h.key.symm, h.deps.symm, h.unusedDeps.symm, h.extensionDeps.symm, h.extensions.symm⟩

theorem values_perm (h : d.Reordered d') : d.deps.values.Perm d'.deps.values := h.deps.map _

theorem allValues_perm (h : d.Reordered d') : (d.deps.values ++ d.unusedDeps.values).Perm
    (d'.deps.values ++ d'.unusedDeps.values) := h.values_perm.append (h.unusedDeps.map _)

theorem names_perm (h : d.Reordered d') : d.deps.names.Perm d'.deps.names := h.deps.map _

end Declaration.Reordered

def Declaration.Permuted (ds ds' : List Declaration) : Prop :=
  ∃ es, List.Forall₂ Declaration.Reordered ds es ∧ es.Perm ds'

def UsageRow.about (rows : List UsageRow) (user : Key) (extension : ExtensionId) : List UsageRow :=
  rows.filter fun row => row.user = user ∧ row.extension = extension

/-- The same rows in some other order. Of several rows of one user about one extension the last
counts, so these keep their order. -/
def UsageRow.Permuted (rows rows' : List UsageRow) : Prop :=
  ∀ user extension, about rows user extension = about rows' user extension

/-- Documents that differ in nothing but the order of modules, of dependencies and of usage rows. -/
structure Document.Reordered (d d' : Document) : Prop where
  modules : Declaration.Permuted d.modules d'.modules
  usages : UsageRow.Permuted d.usages d'.usages
  repoRules : d.repoRules = d'.repoRules

theorem UsageRow.mem_about {rows : List UsageRow} {row : UsageRow} :
    row ∈ about rows row.user row.extension ↔ row ∈ rows := by
  simp [about]

/-- Rows of which no two are of one user about one extension may stand in any order. -/
theorem UsageRow.permuted_of_nodup {rows rows' : List UsageRow} (h : rows.Perm rows')
    (hdistinct : (rows.map fun row => (row.user, row.extension)).Nodup) : Permuted rows rows' := by
  intro user extension
  have hperm : (about rows user extension).Perm (about rows' user extension) := h.filter _
  have hpairs : (about rows user extension).map (fun row => (row.user, row.extension)) =
      .replicate (about rows user extension).length (user, extension) := by
    rw [List.map_eq_replicate_iff]
    intro row hrow
    simpa [about] using (List.mem_filter.1 hrow).2
  have hone : (about rows user extension).length ≤ 1 := by
    rw [← List.nodup_replicate (a := (user, extension)), ← hpairs]
    exact hdistinct.sublist (List.filter_sublist.map _)
  cases hrows : about rows user extension with
  | nil =>
    rw [hrows] at hperm
    exact hperm.nil_eq
  | cons row rest =>
    obtain rfl : rest = [] := by simpa [hrows] using hone
    rw [hrows] at hperm
    exact hperm.singleton_eq

namespace Declaration.Permuted

variable {ds ds' : List Declaration} {d : Declaration} {k l : Key}

theorem symm (h : Permuted ds ds') : Permuted ds' ds := by
  obtain ⟨es, hes, hperm⟩ := h
  have hflip : List.Forall₂ Declaration.Reordered es ds :=
    hes.flip.imp fun _ _ h => h.symm
  obtain ⟨cs, hcs, hperm⟩ := List.perm_comp_forall₂ hperm.symm hflip
  exact ⟨cs, hcs, hperm⟩

theorem keys_perm (h : Permuted ds ds') :
    (ds.map Declaration.key).Perm (ds'.map Declaration.key) := by
  obtain ⟨es, hes, hperm⟩ := h
  have hkeys : ds.map Declaration.key = es.map Declaration.key := by
    clear hperm
    induction hes with
    | nil => rfl
    | cons hd _ ih => rw [List.map_cons, List.map_cons, hd.key, ih]
  rw [hkeys]
  exact hperm.map _

theorem exists_reordered (h : Permuted ds ds') (hd : d ∈ ds) : ∃ d' ∈ ds', d.Reordered d' := by
  obtain ⟨es, hes, hperm⟩ := h
  have hmem : ∃ e ∈ es, d.Reordered e := by
    clear hperm
    induction hes with
    | nil => simp at hd
    | cons hhead _ ih =>
      rcases List.mem_cons.1 hd with rfl | hd
      · exact ⟨_, List.mem_cons_self, hhead⟩
      · obtain ⟨e, he, hde⟩ := ih hd
        exact ⟨e, List.mem_cons_of_mem _ he, hde⟩
  obtain ⟨e, he, hde⟩ := hmem
  exact ⟨e, hperm.mem_iff.1 he, hde⟩

theorem mem_keys_iff (h : Permuted ds ds') :
    k ∈ ds.map Declaration.key ↔ k ∈ ds'.map Declaration.key := h.keys_perm.mem_iff

theorem dependsOn (h : Permuted ds ds') (hkl : Snapshot.DependsOn ds k l) :
    Snapshot.DependsOn ds' k l := by
  obtain ⟨d, hd, rfl, hl⟩ := hkl
  obtain ⟨d', hd', hdd'⟩ := h.exists_reordered hd
  exact ⟨d', hd', hdd'.key.symm, hdd'.values_perm.mem_iff.1 hl⟩

theorem leadsTo (h : Permuted ds ds') (hkl : Snapshot.LeadsTo ds k l) :
    Snapshot.LeadsTo ds' k l := by
  obtain ⟨d, hd, rfl, hl⟩ := hkl
  obtain ⟨d', hd', hdd'⟩ := h.exists_reordered hd
  exact ⟨d', hd', hdd'.key.symm, hdd'.allValues_perm.mem_iff.1 hl⟩

end Declaration.Permuted

section Checks

variable {ds ds' : List Declaration} {rows rows' : List UsageRow} {k l : Key}

theorem Check.Holds.reordered {c : Check} (hds : Declaration.Permuted ds ds')
    (hrows : UsageRow.Permuted rows rows')
    (h : c.Holds ds rows) : c.Holds ds' rows' := by
  cases c with
  | distinctKeys => exact hds.keys_perm.nodup_iff.1 h
  | rootDeclared => exact hds.mem_keys_iff.1 h
  | targetsDeclared k =>
    intro d' hd' hk l hl
    obtain ⟨d, hd, hdd'⟩ := hds.symm.exists_reordered hd'
    have hdeclared := h d hd (hdd'.key.symm.trans hk) l (hdd'.allValues_perm.mem_iff.1 hl)
    exact hds.mem_keys_iff.1 hdeclared
  | causesPlaced k =>
    intro d' hd' hk name hname
    obtain ⟨d, hd, hdd'⟩ := hds.symm.exists_reordered hd'
    have hplaced := h d hd (hdd'.key.symm.trans hk) name (hdd'.extensionDeps ▸ hname)
    exact hdd'.names_perm.mem_iff.2 hplaced
  | noCycle =>
    intro k hk
    exact h k (Relation.TransGen.mono (fun _ _ => hds.symm.dependsOn) _ _ hk)
  | allReachable =>
    intro k hk
    exact Relation.ReflTransGen.mono (fun _ _ => hds.leadsTo) _ _ (h k (hds.mem_keys_iff.2 hk))
  | usersDeclared =>
    intro row hrow
    rw [← UsageRow.mem_about, ← hrows, UsageRow.mem_about] at hrow
    exact hds.mem_keys_iff.1 (h row hrow)

theorem Snapshot.exists_build_reordered {s : Snapshot} (hds : Declaration.Permuted ds ds')
    (hrows : UsageRow.Permuted rows rows')
    (h : build ds rows = .ok s) : ∃ s', build ds' rows' = .ok s' :=
  exists_build_of_holds fun c => (holds_of_build h c).reordered hds hrows

end Checks

structure Node.Reordered (n n' : Node) : Prop where
  declaration : n.declaration.Reordered n'.declaration
  dependents : n.dependents = n'.dependents
  used : n.used = n'.used

/-- Two snapshots that differ in nothing but the order in which modules declare dependencies. -/
structure Snapshot.Reordered (s s' : Snapshot) : Prop where
  nodes : ∀ k, Option.Rel Node.Reordered (s.graph.get? k) (s'.graph.get? k)
  usages : s.usages = s'.usages
  index : s.index = s'.index

namespace Snapshot

variable {ds ds' : List Declaration} {rows rows' : List UsageRow} {s s' : Snapshot}
  {node node' : Node} {k : Key}

section Built

variable (hds : Declaration.Permuted ds ds') (h : build ds rows = .ok s)
  (h' : build ds' rows' = .ok s')

include hds h h'

theorem dependents_reordered (hk : s.graph.get? k = some node)
    (hk' : s'.graph.get? k = some node') : node.dependents = node'.dependents := by
  apply SortedSet.ext
  intro j
  rw [mem_dependents_iff h hk, mem_dependents_iff h' hk']
  exact ⟨hds.dependsOn, hds.symm.dependsOn⟩

theorem isUsed_reordered (k : Key) : s.graph.isUsed k = s'.graph.isUsed k := by
  rw [Bool.eq_iff_iff, isUsed_iff h, isUsed_iff h']
  constructor
  · exact fun hk => Relation.ReflTransGen.mono (fun _ _ => hds.dependsOn) _ _ hk
  · exact fun hk => Relation.ReflTransGen.mono (fun _ _ => hds.symm.dependsOn) _ _ hk

theorem nodes_reordered (k : Key) :
    Option.Rel Node.Reordered (s.graph.get? k) (s'.graph.get? k) := by
  cases hk : s.graph.get? k with
  | none =>
    cases hk' : s'.graph.get? k with
    | none => exact .none
    | some node' =>
      have hdeclared := hds.mem_keys_iff.2 ((exists_node_iff h').1 ⟨node', hk'⟩)
      obtain ⟨node, hnode⟩ := (exists_node_iff h).2 hdeclared
      simp [hk] at hnode
  | some node =>
    obtain ⟨hd, hkey⟩ := declaration_mem h hk
    obtain ⟨d', hd', hdd'⟩ := hds.exists_reordered hd
    obtain ⟨node', hk', rfl⟩ := exists_node h' hd'
    rw [← hdd'.key, hkey] at hk'
    rw [hk']
    have hused := isUsed_reordered hds h h' k
    simp only [Graph.isUsed, hk, hk', Option.any_some] at hused
    exact .some ⟨hdd', dependents_reordered hds h h' hk hk', hused⟩

theorem index_reordered : s.index = s'.index := by
  obtain ⟨declared, hd, -, rfl⟩ := build_eq_ok_iff.1 h
  obtain ⟨declared', hd', -, rfl⟩ := build_eq_ok_iff.1 h'
  have hkeys : declared.keys = declared'.keys := SortedMap.keys_congr fun k => by
    rw [mem_declare hd, mem_declare hd', hds.mem_keys_iff]
  rw [ofDeclared, ofDeclared, hkeys]

theorem reordered_of_build (hrows : UsageRow.Permuted rows rows') : s.Reordered s' where
  nodes := nodes_reordered hds h h'
  usages := by
    apply SortedMap.ext
    rintro ⟨user, extension⟩
    have habout := hrows user extension
    simp only [UsageRow.about] at habout
    rw [get?_usages h, get?_usages h', habout]
  index := index_reordered hds h h'

end Built

end Snapshot

end ModuleGraph
