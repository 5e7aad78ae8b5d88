import ModuleGraph.Document
import ModuleGraph.Query.Kind
import ModuleGraph.FileTree
import ModuleGraph.Reference

namespace ModuleGraph

inductive Scope
  | graph
  | dependenciesOf (key : Key)
deriving DecidableEq

def Scope.text : Scope → String
  | .graph => "in the dependency graph"
  | .dependenciesOf key => "among the dependencies of " ++ key.text

structure LookupFault where
  repo : String
  reason : String
deriving DecidableEq

def LookupFault.message (fault : LookupFault) : String :=
  "cannot fetch repository rule for '" ++ fault.repo ++ "': " ++ fault.reason

inductive EvaluationFault
  | unreadable (fault : ReadFault)
  | document (error : Document.Error)
  | graph (error : GraphError)
  | lookup (fault : LookupFault)
deriving DecidableEq

def EvaluationFault.message : EvaluationFault → String
  | .unreadable fault => fault.message
  | .document error => error.message
  | .graph error => error.message
  | .lookup fault => fault.message

inductive Stage
  | argumentResolution
  | treeTraversal
  | pathSearch
  | pathPruning
deriving DecidableEq

def Stage.text : Stage → String
  | .argumentResolution => "argument resolution"
  | .treeTraversal => "tree traversal"
  | .pathSearch => "path search"
  | .pathPruning => "path pruning"

inductive Argument
  | baseModule (text : String)
  | start (text : String)
  | extensionUsages (text : String)
  | extensionFilter (text : String)
  | module (text : String)
  | repo (text : String)
  | extension (text : String)
deriving DecidableEq

def Argument.context : Argument → String
  | .baseModule text => "in --base-module '" ++ text ++ "'"
  | .start text => "in --from '" ++ text ++ "'"
  | .extensionUsages text => "in --extension-usages '" ++ text ++ "'"
  | .extensionFilter text => "in --extension-filter '" ++ text ++ "'"
  | .module text => "in module argument '" ++ text ++ "'"
  | .repo text => "in repo argument '" ++ text ++ "'"
  | .extension text => "in extension argument '" ++ text ++ "'"

inductive QueryError
  | invalidReference (reference : InvalidReference)
  | moduleNotFound (reference : String) (scope : Scope)
  | extensionNotFound (name : String) (module : Key)
  | ambiguousModule (reference : String) (candidates : List Key)
  | ambiguousExtension (reference : String) (candidates : List ExtensionId)
  /-- A version that lost selection, where only used ones were asked for. -/
  | unusedExcluded (key : Key)
  | tooManyArguments (kind : QueryKind)
  | severalBaseModules (candidates : List Key)
  | noQueryKind
  | unknownQueryKind (input : String)
  | evaluationFailed (fault : EvaluationFault)
  | interrupted (stage : Stage)
  | inArgument (argument : Argument) (error : QueryError)
deriving DecidableEq

namespace QueryError

def innermost : QueryError → QueryError
  | .inArgument _ error => error.innermost
  | error => error

/-- Whether an error ends the whole invocation and not only one query. -/
def isFatal (error : QueryError) : Bool :=
  match error.innermost with
  | .evaluationFailed _ | .interrupted _ => true
  | _ => false

/-- The exit status: 3 when the graph could not be had, 130 when called off, else 2. -/
def exitCode (error : QueryError) : Nat :=
  match error.innermost with
  | .evaluationFailed _ => 3
  | .interrupted _ => 130
  | _ => 2

def ambiguous (reference : String) (candidates : List String) : String :=
  "'" ++ reference ++ "' is ambiguous, choose one of: " ++ ", ".intercalate candidates

def message : QueryError → String
  | .invalidReference reference =>
    "invalid reference '" ++ reference.token ++ "': " ++ reference.fault.message
  | .moduleNotFound reference scope => "no module '" ++ reference ++ "' " ++ scope.text
  | .extensionNotFound name module =>
    "no extension '" ++ name ++ "' is defined by module " ++ module.text
  | .ambiguousModule reference candidates => ambiguous reference (candidates.map Key.text)
  | .ambiguousExtension reference candidates =>
    ambiguous reference (candidates.map ExtensionId.text)
  | .unusedExcluded key =>
    "module version " ++ key.text ++
      " is unused as a result of version selection; enable include-unused to query it"
  | .tooManyArguments kind =>
    "the '" ++ kind.name ++ "' query doesn't take extra arguments"
  | .severalBaseModules candidates =>
    "the base module can only specify exactly one module version, choose one of: " ++
      Key.listText candidates
  | .noQueryKind => "no query type specified, choose one of: " ++ QueryKind.names
  | .unknownQueryKind input =>
    "invalid query type '" ++ input ++ "', choose one of: " ++ QueryKind.names
  | .evaluationFailed fault => "graph evaluation failed: " ++ fault.message
  | .interrupted stage => "query interrupted: cancelled during " ++ stage.text
  | .inArgument argument error => argument.context ++ ": " ++ error.message

end QueryError

end ModuleGraph
