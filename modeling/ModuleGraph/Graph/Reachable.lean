import ModuleGraph.Key
import ModuleGraph.SortedMap

/-! Breadth-first search over arcs given as a table. A key without a row has no arcs, so every
search comes to an end: a step either visits a row for the first time or shortens the queue. -/
namespace ModuleGraph

abbrev Arcs := SortedMap Key (List Key)

namespace Arcs

def next (arcs : Arcs) (k : Key) : List Key := (arcs.get? k).getD []

inductive Reaches (arcs : Arcs) : Key → Key → Prop
  | refl (k : Key) : Reaches arcs k k
  | step {k l m : Key} : l ∈ arcs.next k → Reaches arcs l m → Reaches arcs k m

def unvisited (arcs : Arcs) (seen : SortedSet Key) : Nat := arcs.keys.countP (· ∉ seen)

theorem unvisited_insert_le (arcs : Arcs) (seen : SortedSet Key) (k : Key) :
    arcs.unvisited (seen.insert k) ≤ arcs.unvisited seen := by
  apply List.countP_mono_left
  simp

theorem countP_insert_lt {seen : SortedSet Key} {k : Key} (hs : k ∉ seen) {l : List Key}
    (hk : k ∈ l) : l.countP (· ∉ seen.insert k) < l.countP (· ∉ seen) := by
  induction l with
  | nil => simp at hk
  | cons a l ih =>
    have hle : l.countP (· ∉ seen.insert k) ≤ l.countP (· ∉ seen) :=
      List.countP_mono_left (by simp)
    rw [List.countP_cons, List.countP_cons]
    by_cases ha : a = k
    · simp only [ha, SortedSet.mem_insert, true_or, not_true, hs, not_false_iff, decide_true,
        decide_false, if_true]
      simp only [SortedSet.mem_insert] at hle
      grind
    · have := ih ((List.mem_cons.1 hk).resolve_left (Ne.symm ha))
      simp only [SortedSet.mem_insert, ha, false_or] at this ⊢
      omega

theorem unvisited_insert_lt {arcs : Arcs} {seen : SortedSet Key} {k : Key} (hk : k ∈ arcs)
    (hs : k ∉ seen) : arcs.unvisited (seen.insert k) < arcs.unvisited seen :=
  countP_insert_lt hs hk

def explore (arcs : Arcs) : List Key → SortedSet Key → SortedSet Key
  | [], seen => seen
  | k :: queue, seen =>
    if k ∈ seen then explore arcs queue seen
    else explore arcs (queue ++ arcs.next k) (seen.insert k)
termination_by queue seen => (arcs.unvisited seen, queue.length)
decreasing_by
  · exact Prod.Lex.right _ (by simp)
  · next hs =>
    by_cases hk : k ∈ arcs
    · exact Prod.Lex.left _ _ (unvisited_insert_lt hk hs)
    · have hn : arcs.next k = [] := by simp [next, SortedMap.get?_eq_none_iff.2 hk]
      rcases Nat.lt_or_eq_of_le (arcs.unvisited_insert_le seen k) with h | h
      · exact Prod.Lex.left _ _ h
      · rw [hn, h]
        exact Prod.Lex.right _ (by simp)

/-- The keys that some start leads to, the starts among them. -/
def reachable (arcs : Arcs) (starts : List Key) : SortedSet Key := arcs.explore starts ∅

end Arcs

end ModuleGraph
