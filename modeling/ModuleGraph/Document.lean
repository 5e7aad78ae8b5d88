import ModuleGraph.Snapshot
import ModuleGraph.Value

namespace ModuleGraph

abbrev RepoRules := SortedMap String (SortedMap String Value)

structure Document where
  modules : List Declaration
  usages : List UsageRow
  repoRules : RepoRules

namespace Document

inductive Error
  | text (fault : Json.Fault)
  | missingField (name : String)
  | duplicateField (name : String)
  | identity (error : IdentityError)
  | wrongShape
deriving DecidableEq

def Error.message : Error → String
  | .text .endOfText => "the JSON text ends early"
  | .text .malformed => "malformed JSON text"
  | .missingField name => "missing field `" ++ name ++ "`"
  | .duplicateField name => "duplicate field `" ++ name ++ "`"
  | .identity error => error.message
  | .wrongShape => "unexpected shape of JSON value"

def snapshot (d : Document) : Except GraphError Snapshot := Snapshot.build d.modules d.usages

end Document

end ModuleGraph
