import ModuleGraph.EdgeTable

/-! Dependency trees as listings in pre-order. Under one root a module's dependencies are listed
once, at its first occurrence with room below the depth limit. -/
namespace ModuleGraph

structure Entry where
  key : Key
  /-- The distance from the root of the tree. -/
  depth : Nat
  /-- The dependencies are listed at an earlier occurrence. -/
  referenceOnly : Bool
  /-- Why the parent leads here; roots have no cause. -/
  cause : Option Cause
deriving DecidableEq

/-- A forest: each root followed by what is below it. -/
structure Tree where
  entries : List Entry
deriving DecidableEq

namespace Tree

def roots (t : Tree) : List Key := (t.entries.filter (·.depth = 0)).map Entry.key

def expanded (t : Tree) : List Key := (t.entries.filter (!·.referenceOnly)).map Entry.key

end Tree

structure Occurrence where
  key : Key
  level : Nat
  cause : Option Cause
deriving DecidableEq

namespace EdgeTable

def unexpanded (t : EdgeTable) (expanded : SortedSet Key) : Nat :=
  t.keys.countP (· ∉ expanded)

def below (t : EdgeTable) (o : Occurrence) : List Occurrence :=
  (t.edges o.key).map fun e => ⟨e.target, o.level + 1, some e.cause⟩

theorem below_eq_nil {t : EdgeTable} {o : Occurrence} (h : o.key ∉ t) : t.below o = [] := by
  simp [below, edges_eq_nil h]

theorem unexpanded_insert_le (t : EdgeTable) (expanded : SortedSet Key) (k : Key) :
    t.unexpanded (expanded.insert k) ≤ t.unexpanded expanded :=
  List.countP_mono_left (by simp)

/-- Lists the occurrences of a stack with all that is below them, down to a depth. An occurrence
of an expanded module is listed without what is below it. -/
def list (t : EdgeTable) (depth : Nat) : List Occurrence → SortedSet Key → List Entry
  | [], _ => []
  | o :: stack, expanded =>
    if depth ≤ o.level then list t depth stack expanded
    else if o.key ∈ expanded then
      ⟨o.key, o.level, true, o.cause⟩ :: list t depth stack expanded
    else if o.level + 1 < depth then
      ⟨o.key, o.level, false, o.cause⟩ ::
        list t depth (t.below o ++ stack) (expanded.insert o.key)
    else ⟨o.key, o.level, false, o.cause⟩ :: list t depth stack expanded
termination_by stack expanded => (t.unexpanded expanded, stack.length)
decreasing_by
  · exact Prod.Lex.right _ (by simp)
  · exact Prod.Lex.right _ (by simp)
  · next hs _ =>
    by_cases hk : o.key ∈ t
    · exact Prod.Lex.left _ _ (Arcs.countP_insert_lt hs hk)
    · rcases Nat.lt_or_eq_of_le (t.unexpanded_insert_le expanded o.key) with h | h
      · exact Prod.Lex.left _ _ h
      · rw [below_eq_nil hk, h]
        exact Prod.Lex.right _ (by simp)
  · exact Prod.Lex.right _ (by simp)

def treeOf (t : EdgeTable) (depth : Nat) (root : Key) : List Entry :=
  t.list depth [⟨root, 0, none⟩] ∅

def tree (t : EdgeTable) (roots : List Key) (depth : Nat) : Tree :=
  ⟨roots.eraseDups.flatMap (t.treeOf depth)⟩

end EdgeTable

end ModuleGraph
