import ModuleGraph.Declaration
import ModuleGraph.GraphError
import ModuleGraph.Graph.Reachable

namespace ModuleGraph

structure Node where
  declaration : Declaration
  /-- The modules that depend on this one. -/
  dependents : SortedSet Key
  /-- Whether the version survived selection: the root leads to it through dependencies. -/
  used : Bool
deriving DecidableEq

structure Graph where
  nodes : SortedMap Key Node

namespace Graph

def get? (g : Graph) (key : Key) : Option Node := g.nodes.get? key

def get (g : Graph) (key : Key) : Except GraphError Node :=
  match g.get? key with
  | none => .error (.unknownModule key)
  | some node => .ok node

def keys (g : Graph) : List Key := g.nodes.keys

def contains (g : Graph) (key : Key) : Bool := key ∈ g.nodes

def isUsed (g : Graph) (key : Key) : Bool := (g.get? key).any (·.used)

def size (g : Graph) : Nat := g.nodes.size

def usedArcs (declared : SortedMap Key Declaration) : Arcs :=
  declared.mapValues fun _ d => d.deps.values

/-- The dependencies of declared modules, those included that lost selection. -/
def allArcs (declared : SortedMap Key Declaration) : Arcs :=
  declared.mapValues fun _ d => d.deps.values ++ d.unusedDeps.values

/-- Adds to each declaration what follows from all of them together. -/
def ofDeclared (declared : SortedMap Key Declaration) : Graph :=
  let used := (usedArcs declared).reachable [Key.root]
  ⟨declared.mapValues fun k d =>
    { declaration := d
      dependents := declared.keysWhere fun _ user => k ∈ user.deps.values
      used := k ∈ used }⟩

end Graph

end ModuleGraph
