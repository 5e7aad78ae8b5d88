import ModuleGraph.EdgeTable

/-! Walks with the causes of their steps, and the search for a shortest one. The search goes layer
by layer, and every layer stands in the order of its walks, so the first hit is the least. -/
namespace ModuleGraph

/-- A walk: its modules and the cause of each step from one to the next. -/
structure Path where
  nodes : List Key
  causes : List Cause
deriving DecidableEq

namespace Path

def single (k : Key) : Path := ⟨[k], []⟩

def extend (p : Path) (e : Edge) : Path := ⟨p.nodes ++ [e.target], p.causes ++ [e.cause]⟩

def first? (p : Path) : Option Key := p.nodes.head?

def last? (p : Path) : Option Key := p.nodes.getLast?

def length (p : Path) : Nat := p.nodes.length

end Path

structure Arrival where
  key : Key
  path : Path
deriving DecidableEq

namespace EdgeTable

def onward (t : EdgeTable) (a : Arrival) : List Arrival :=
  (t.edges a.key).map fun e => ⟨e.target, a.path.extend e⟩

/-- The first arrival at each module that was not seen before, and what is seen then. -/
def firstArrivals (seen : SortedSet Key) : List Arrival → List Arrival × SortedSet Key
  | [] => ([], seen)
  | a :: arrivals =>
    if a.key ∈ seen then firstArrivals seen arrivals
    else
      let (new, seen) := firstArrivals (seen.insert a.key) arrivals
      (a :: new, seen)

/-- Looks for a target in a layer and, for as long as the depth allows, in the layers behind. -/
def search (t : EdgeTable) (targets : SortedSet Key) :
    Nat → List Arrival → SortedSet Key → Option Path
  | 0, _, _ => none
  | _ + 1, [], _ => none
  | depth + 1, layer, seen =>
    match layer.find? (·.key ∈ targets) with
    | some hit => some hit.path
    | none =>
      let (next, seen) := firstArrivals seen (layer.flatMap t.onward)
      search t targets depth next seen

/-- The shortest walk of at most `depth` modules from a start to a target; of several the one
whose modules come first. -/
def shortestPath (t : EdgeTable) (starts targets : List Key) (depth : Nat) : Option Path :=
  let starts := SortedSet.ofList starts
  t.search (.ofList targets) depth (starts.toList.map fun k => ⟨k, .single k⟩) starts

end EdgeTable

end ModuleGraph
