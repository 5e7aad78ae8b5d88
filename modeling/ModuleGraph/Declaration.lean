import ModuleGraph.ExtensionId
import ModuleGraph.NameTable
import ModuleGraph.SortedMap

namespace ModuleGraph

/-- One tag of an extension usage, such as `maven.install(...)`. -/
structure Tag where
  tagClass : String
  attributes : SortedMap String String
deriving DecidableEq

structure Usage where
  tags : List Tag
  imports : SortedSet String
deriving DecidableEq

structure UsageRow where
  user : Key
  extension : ExtensionId
  usage : Usage
deriving DecidableEq

structure Declaration where
  key : Key
  deps : NameTable Key
  /-- The declared versions that lost the selection. -/
  unusedDeps : NameTable Key
  /-- The dependencies that exist only because of usages of these extensions. -/
  extensionDeps : SortedMap String (SortedSet ExtensionId)
  /-- The extensions used, with the repositories that each generates for the module. -/
  extensions : SortedMap ExtensionId (SortedSet String)
deriving DecidableEq

inductive Origin
  | declared
  | extensions (causes : SortedSet ExtensionId)
deriving DecidableEq

namespace Declaration

def origin (d : Declaration) (name : String) : Origin :=
  match d.extensionDeps.get? name with
  | none => .declared
  | some causes => .extensions causes

def targets (d : Declaration) : SortedSet Key := .ofList d.deps.values

end Declaration

end ModuleGraph
