import ModuleGraph.Graph
import ModuleGraph.Graph.Elimination
import ModuleGraph.Graph.Index
import ModuleGraph.Graph.UsageTable

/-! Declarations become a snapshot when they form a graph without cycles in which the root leads
everywhere. Of several faults the first in the order of `fault?` is told. -/
namespace ModuleGraph

structure Snapshot where
  graph : Graph
  usages : UsageTable
  index : Index

namespace Snapshot

def mentionedExtensions (s : Snapshot) : List ExtensionId :=
  s.graph.nodes.values.flatMap (·.declaration.extensions.keys) ++ s.usages.extensions

def extensionIds (s : Snapshot) : SortedSet ExtensionId := .ofList s.mentionedExtensions

/-- Enters the declarations under their keys, of which none may come twice. -/
def declare : List Declaration → Except GraphError (SortedMap Key Declaration) :=
  List.foldlM (fun declared d =>
    if d.key ∈ declared then .error (.duplicateModule d.key) else .ok (declared.insert d.key d)) ∅

def missingRoot? (declared : SortedMap Key Declaration) : Option GraphError :=
  if Key.root ∈ declared then none else some .missingRoot

/-- A dependency of one module on an undeclared one, else a cause given for a dependency that it
does not have. -/
def edgeFault? (declared : SortedMap Key Declaration) (d : Declaration) : Option GraphError :=
  match (d.deps.entries ++ d.unusedDeps.entries).find? (·.2 ∉ declared) with
  | some (name, target) => some (.danglingEdge d.key name target)
  | none =>
    (d.extensionDeps.keys.find? (· ∉ d.deps.names)).map (.unknownExtensionEdge d.key)

def badEdge? (declared : SortedMap Key Declaration) : Option GraphError :=
  declared.values.findSome? (edgeFault? declared)

def cycle? (declared : SortedMap Key Declaration) : Option GraphError :=
  match Dependencies.leftOver (declared.mapValues fun _ d => d.targets) with
  | [] => none
  | participants => some (.dependencyCycle participants)

def unreachable? (declared : SortedMap Key Declaration) : Option GraphError :=
  let reachable := (Graph.allArcs declared).reachable [Key.root]
  (declared.keys.find? (· ∉ reachable)).map .unreachable

def strayUsage? (declared : SortedMap Key Declaration) (rows : List UsageRow) :
    Option GraphError :=
  (rows.find? (·.user ∉ declared)).map fun row => .unknownUsageModule row.user row.extension

def fault? (declared : SortedMap Key Declaration) (rows : List UsageRow) : Option GraphError :=
  missingRoot? declared <|> badEdge? declared <|> cycle? declared <|> unreachable? declared <|>
    strayUsage? declared rows

def ofDeclared (declared : SortedMap Key Declaration) (rows : List UsageRow) : Snapshot where
  graph := Graph.ofDeclared declared
  usages := UsageTable.ofRows rows
  index := Index.ofKeys declared.keys

def build (declarations : List Declaration) (rows : List UsageRow) :
    Except GraphError Snapshot :=
  match declare declarations with
  | .error e => .error e
  | .ok declared =>
    match fault? declared rows with
    | some e => .error e
    | none => .ok (ofDeclared declared rows)

end Snapshot

end ModuleGraph
