import ModuleGraph.Snapshot

namespace ModuleGraph

structure RepoImport where
  name : String
  /-- The module brought the repository into scope. -/
  imported : Bool
deriving DecidableEq

structure UsageReport where
  module : Key
  tags : List Tag
  repos : List RepoImport
deriving DecidableEq

structure ExtensionReport where
  extension : ExtensionId
  usages : List UsageReport
deriving DecidableEq

namespace ExtensionReport

def isEmpty (r : ExtensionReport) : Bool := r.usages.isEmpty

def generated (r : ExtensionReport) : SortedSet String :=
  .ofList (r.usages.flatMap fun u => u.repos.map RepoImport.name)

end ExtensionReport

namespace Snapshot

def generatedFor (s : Snapshot) (extension : ExtensionId) (module : Key) : List String :=
  (((s.graph.get? module).bind (·.declaration.extensions.get? extension)).getD ∅).toList

def usageReport (s : Snapshot) (extension : ExtensionId) (row : Key × Usage) : UsageReport where
  module := row.1
  tags := row.2.tags
  repos := (s.generatedFor extension row.1).map fun name => ⟨name, name ∈ row.2.imports⟩

/-- The usages of an extension by some modules, or by all if none are given. -/
def extensionReport (s : Snapshot) (users : List Key) (extension : ExtensionId) :
    ExtensionReport where
  extension
  usages :=
    ((s.usages.usagesOf extension).filter fun row => users.isEmpty || row.1 ∈ users).map
      (s.usageReport extension)

def extensionReports (s : Snapshot) (extensions : List ExtensionId) (users : List Key) :
    List ExtensionReport := extensions.map (s.extensionReport users)

end Snapshot

end ModuleGraph
