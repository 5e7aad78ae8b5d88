import ModuleGraph.Query.Answer

/-! What references denote in a snapshot. Bare names are looked up among the dependencies of one
module, the base; names with a version are looked up in the whole graph. -/
namespace ModuleGraph

structure Policy where
  includeUnused : Bool
  /-- Whether one that is taken gives a warning. -/
  warns : Bool
deriving DecidableEq

def Policy.usedOnly : Policy := ⟨false, false⟩

structure Resolver where
  snapshot : Snapshot
  base : Declaration

namespace Resolver

def anchored (s : Snapshot) (base : Key) : Except GraphError Resolver :=
  (s.graph.get base).map fun node => ⟨s, node.declaration⟩

def accept (r : Resolver) (p : Policy) (key : Key) : Answer Key :=
  if r.snapshot.graph.isUsed key then .ok key
  else if !p.includeUnused then .fail (.unusedExcluded key)
  else .warning (if p.warns then [.unusedVersion key] else []) key

/-- The keys that the base knows under a local name, the selected version first. -/
def named (r : Resolver) (p : Policy) (name : String) : List Key :=
  let unused := if p.includeUnused then r.base.unusedDeps.get? name else none
  ((r.base.deps.get? name).toList ++ unused.toList).eraseDups

def denoted (r : Resolver) (p : Policy) : ModuleRef → Answer (List Key)
  | .root => .ok [Key.root]
  | .exact key =>
    if r.snapshot.index.contains key then [key].mapM (r.accept p)
    else .fail (.moduleNotFound key.text .graph)
  | .named name =>
    match r.named p name with
    | [] => .fail (.moduleNotFound name (.dependenciesOf r.base.key))
    | keys => keys.mapM (r.accept p)

def modules (r : Resolver) (p : Policy) (text : String) : Answer (List Key) := do
  let refs ← Answer.lift ((Reference.modules text).mapError .invalidReference)
  let keys ← refs.mapM (r.denoted p)
  return keys.flatten.eraseDups

/-- The known extensions of a module that a reference may mean. Without an isolation key it may
mean any of its name. -/
def candidates (r : Resolver) (module : Key) (ref : ExtensionRef) : SortedSet ExtensionId :=
  .ofList <| r.snapshot.mentionedExtensions.filter fun id =>
    id.module = module ∧ id.name = ref.name ∧ (ref.isolation = none ∨ id.isolation = ref.isolation)

/-- The one extension that a reference denotes; of several the one that is not isolated. -/
def extension (r : Resolver) (ref : ExtensionRef) : Answer ExtensionId := do
  match ← r.denoted .usedOnly ref.module with
  | [module] =>
    match (r.candidates module ref).toList with
    | [] => .fail (.extensionNotFound ref.name module)
    | [id] => .ok id
    | ids =>
      match ids.find? (·.isolation = none) with
      | some id => .ok id
      | none => .fail (.ambiguousExtension ref.text ids)
  | keys => .fail (.ambiguousModule ref.module.text keys)

def extensions (r : Resolver) (text : String) : Answer (List ExtensionId) := do
  let refs ← Answer.lift ((Reference.extensions text).mapError .invalidReference)
  return (← refs.mapM r.extension).eraseDups

end Resolver

end ModuleGraph
