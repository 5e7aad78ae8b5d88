import ModuleGraph.Query.Answer
import ModuleGraph.Traversal.AllPaths
import ModuleGraph.Traversal.ExtensionReport

namespace ModuleGraph

/-- Where the attributes of repository rules come from, by the name of the repository. -/
structure RuleSource where
  lookup : String → Except LookupFault (SortedMap String Value)

def RuleSource.ofKnown (rules : String → Option (SortedMap String Value)) : RuleSource where
  lookup repo :=
    match rules repo with
    | some attributes => .ok attributes
    | none => .error ⟨repo, "no such repository"⟩

instance : Coe (String → Option (SortedMap String Value)) RuleSource := ⟨.ofKnown⟩

structure ShownRepo where
  module : Key
  repoName : String
  attributes : SortedMap String Value

structure Survey where
  snapshot : Snapshot
  filter : Filter := .complete
  limits : Limits := .default
  interrupted : Bool := false

namespace Survey

def table (s : Survey) : EdgeTable := .ofGraph s.snapshot.graph s.filter

def check (s : Survey) (stage : Stage) (comes : Bool) : Answer Unit :=
  if s.interrupted && comes then .fail (.interrupted stage) else .ok ()

def tree (s : Survey) (roots : List Key) (depth : Nat) : Answer Tree := do
  s.check .treeTraversal !roots.isEmpty
  return s.table.tree roots depth

def path (s : Survey) (starts targets : List Key) (depth : Nat) : Answer (Option Path) := do
  s.check .pathSearch (0 < depth && !starts.isEmpty)
  return s.table.shortestPath starts targets depth

def allPaths (s : Survey) (starts targets : List Key) (depth : Nat) : Answer AllPaths := do
  s.check .pathPruning !starts.isEmpty
  let found := s.table.enumerate s.limits starts targets
  let warnings :=
    if found.truncated then [.truncated found.paths.length found.steps] else []
  .warning warnings (s.table.allPathsOf depth found)

def repos (rules : RuleSource) (modules : List Key) : Answer (List ShownRepo) :=
  modules.mapM fun module =>
    match rules.lookup module.repoName with
    | .ok attributes => .ok { module, repoName := module.repoName, attributes }
    | .error fault => .fail (.evaluationFailed (.lookup fault))

def notImported (report : ExtensionReport) : List Warning :=
  report.usages.flatMap fun usage =>
    (usage.repos.filter (!·.imported)).map fun repo =>
      .neverImported repo.name report.extension usage.module

def extensions (s : Survey) (ids : List ExtensionId) (users : List Key) :
    Answer (List ExtensionReport) :=
  let reports := s.snapshot.extensionReports ids users
  .warning (reports.flatMap notImported) reports

end Survey

end ModuleGraph
