import ModuleGraph.Filter
import ModuleGraph.Graph

/-! The edges that a filter leaves of a graph. Every traversal reads them from here: one edge for
each target, in the order of the targets, with its least cause. -/
namespace ModuleGraph

structure Edge where
  target : Key
  cause : Cause
deriving DecidableEq

abbrev EdgeTable := SortedMap Key (List Edge)

namespace EdgeTable

def edges (t : EdgeTable) (k : Key) : List Edge := (t.get? k).getD []

theorem edges_eq_nil {t : EdgeTable} {k : Key} (h : k ∉ t) : t.edges k = [] := by
  simp [edges, SortedMap.get?_eq_none_iff.2 h]

/-- Notes one more cause to follow an edge to a target, where the least one stays. -/
def note (least : SortedMap Key Cause) (e : Edge) : SortedMap Key Cause :=
  match least.get? e.target with
  | some cause => if (compare cause e.cause).isLE then least else least.insert e.target e.cause
  | none => least.insert e.target e.cause

def followed (f : Filter) (d : Declaration) : List Edge :=
  d.deps.entries.filterMap fun (name, target) => (f.cause? (d.origin name)).map (⟨target, ·⟩)

/-- One edge for each target of a list, with the least cause. -/
def leastCauses (es : List Edge) : List Edge :=
  (es.foldl note ∅).entries.map fun e => ⟨e.1, e.2⟩

def ofGraph (g : Graph) (f : Filter) : EdgeTable :=
  g.nodes.mapValues fun _ node => leastCauses (followed f node.declaration)

def arcs (t : EdgeTable) : Arcs := t.mapValues fun _ es => es.map Edge.target

end EdgeTable

end ModuleGraph
