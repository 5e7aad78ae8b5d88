import ModuleGraph.Query.Resolver
import ModuleGraph.Query.Survey

namespace ModuleGraph

/-- Options of a query. The references are comma lists that are not read yet. -/
structure Options where
  /-- The module whose local names bare references mean. -/
  baseModule : String := Key.rootText
  start : String := Key.rootText
  /-- The modules whose usages of extensions are reported; all if there are none. -/
  extensionUsages : String := ""
  /-- The extensions whose edges are followed; all if it is absent or blank. -/
  extensionFilter : Option String := none
  includeUnused : Bool := false
  depth : Option Nat := none
  limits : Limits := .default
deriving DecidableEq

structure Request where
  kind : QueryKind
  /-- References, of which each may be a comma list. -/
  args : List String
  options : Options
deriving DecidableEq

inductive Outcome
  | tree (tree : Tree)
  | path (path : Option Path)
  | allPaths (found : AllPaths)
  | repos (repos : List ShownRepo)
  | extensions (reports : List ExtensionReport)

structure Subject where
  modules : List Key := []
  extensions : List ExtensionId := []
  starts : List Key := []
  users : List Key := []
  filter : Filter := .complete

namespace Request

def ofWords (words : List String) (options : Options) : Except QueryError Request :=
  match words with
  | [] => .error .noQueryKind
  | name :: args =>
    match QueryKind.ofName? name with
    | none => .error (.unknownQueryKind name)
    | some kind => .ok { kind, args, options }

/-- The resolver with a module as base. A module outside the graph cannot be one. -/
def resolver (s : Snapshot) (base : Key) : Answer Resolver :=
  .lift ((Resolver.anchored s base).mapError fun e => .evaluationFailed (.graph e))

def base (q : Request) (s : Snapshot) : Answer Key := do
  let text := q.options.baseModule
  let root ← resolver s Key.root
  Answer.inArgument (.baseModule text) do
    match ← root.modules .usedOnly text with
    | [key] => .ok key
    | [] => .fail (.moduleNotFound text .graph)
    | keys => .fail (.severalBaseModules keys)

def policy (q : Request) : Policy := ⟨q.options.includeUnused, true⟩

def argModules (q : Request) (r : Resolver) (p : Policy) (context : String → Argument) :
    Answer (List Key) := do
  let keys ← q.args.mapM fun arg => (r.modules p arg).inArgument (context arg)
  return keys.flatten.eraseDups

def argExtensions (q : Request) (r : Resolver) : Answer (List ExtensionId) := do
  let ids ← q.args.mapM fun arg => (r.extensions arg).inArgument (.extension arg)
  return ids.flatten.eraseDups

def targets (q : Request) (r : Resolver) : Answer Subject :=
  match q.kind with
  | .tree => if q.args.isEmpty then .ok {} else .fail (.tooManyArguments q.kind)
  | .repos => return { modules := ← q.argModules r .usedOnly .repo }
  | .extensions => return { extensions := ← q.argExtensions r }
  | .deps | .path | .allPaths | .explain =>
    return { modules := ← q.argModules r q.policy .module }

def followed (q : Request) (r : Resolver) : Answer Filter :=
  match q.options.extensionFilter with
  | none => .ok .complete
  | some text =>
    if !q.kind.followsEdges || (Text.trim text.toList).isEmpty then .ok .complete
    else Answer.inArgument (.extensionFilter text) do
      return .finite (.ofList (← r.extensions text))

def subject (q : Request) (s : Snapshot) : Answer Subject := do
  let r ← resolver s (← q.base s)
  let targets ← q.targets r
  let starts ← (r.modules q.policy q.options.start).inArgument (.start q.options.start)
  let users ← (r.modules { q.policy with warns := false } q.options.extensionUsages).inArgument
    (.extensionUsages q.options.extensionUsages)
  return { targets with starts, users, filter := ← q.followed r }

def outcome (q : Request) (s : Snapshot) (rules : RuleSource) (subject : Subject) :
    Answer Outcome := do
  let survey : Survey := { snapshot := s, filter := subject.filter, limits := q.options.limits }
  let depth := q.kind.effectiveDepth q.options.depth
  match q.kind with
  | .tree => return .tree (← survey.tree subject.starts depth)
  | .deps => return .tree (← survey.tree subject.modules depth)
  | .path => return .path (← survey.path subject.starts subject.modules depth)
  | .allPaths | .explain =>
    return .allPaths (← survey.allPaths subject.starts subject.modules depth)
  | .repos => return .repos (← Survey.repos rules subject.modules)
  | .extensions => return .extensions (← survey.extensions subject.extensions subject.users)

/-- Answers the query. One that is called off beforehand does not begin. -/
def run (q : Request) (s : Snapshot) (rules : RuleSource) (interrupted : Bool) :
    Answer Outcome :=
  if interrupted then .fail (.interrupted .argumentResolution)
  else do q.outcome s rules (← q.subject s)

end Request

end ModuleGraph
