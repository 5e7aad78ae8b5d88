import ModuleGraph.Key
import ModuleGraph.SortedMap

/-! Taking modules away one by one, each when no module that is left depends on it. A graph
without cycles is taken away whole; from one with cycles something is left. -/
namespace ModuleGraph

abbrev Dependencies := SortedMap Key (SortedSet Key)

structure Elimination where
  /-- For each module how many modules that are left depend on it. -/
  degrees : SortedMap Key Nat
  /-- Modules on which none that is left depends, in the order in which that came about. -/
  queue : List Key
  /-- The modules taken away, the last one first. -/
  taken : List Key

namespace Elimination

def start (dependencies : Dependencies) : Elimination :=
  let degrees := dependencies.mapValues fun k _ => dependencies.values.countP (k ∈ ·)
  ⟨degrees, (degrees.entries.filter (·.2 = 0)).map Prod.fst, []⟩

/-- One module fewer depends on the target; when it was the last, the target joins the queue. -/
def release (e : Elimination) (target : Key) : Elimination :=
  match e.degrees.get? target with
  | some (n + 1) =>
    { e with
      degrees := e.degrees.adjust target (· - 1)
      queue := if n = 0 then e.queue ++ [target] else e.queue }
  | _ => e

def step (dependencies : Dependencies) (e : Elimination) : Option Elimination :=
  match e.queue with
  | [] => none
  | k :: queue =>
    let targets := (dependencies.get? k).getD ∅
    some (targets.toList.foldl release { e with queue, taken := k :: e.taken })

def total (degrees : SortedMap Key Nat) : Nat := degrees.entries.foldr (fun e n => e.2 + n) 0

def weight (e : Elimination) : Nat := total e.degrees + e.queue.length

theorem total_adjust_pred {m : SortedMap Key Nat} {k : Key} {n : Nat}
    (h : m.get? k = some (n + 1)) : total (m.adjust k (· - 1)) + 1 ≤ total m := by
  obtain ⟨l, hl⟩ := m
  simp only [SortedMap.get?] at h
  simp only [total, SortedMap.adjust, SortedMap.mapValues, List.foldr_map]
  clear hl
  have hle : ∀ l : List (Key × Nat),
      l.foldr (fun e n => (if e.1 = k then e.2 - 1 else e.2) + n) 0 ≤
        l.foldr (fun e n => e.2 + n) 0 := by
    intro l
    induction l with
    | nil => simp
    | cons e l ih => simp only [List.foldr_cons]; split <;> omega
  induction l with
  | nil => simp at h
  | cons e l ih =>
    obtain ⟨a, b⟩ := e
    have hl := hle l
    by_cases ha : a = k
    · subst ha
      have : b = n + 1 := by simpa [List.lookup_cons] using h
      simp only [List.foldr_cons, if_true]
      omega
    · have hb : (k == a) = false := by simp [Ne.symm ha]
      have := ih (by simpa [List.lookup_cons, hb] using h)
      simp only [List.foldr_cons, ha, if_false]
      omega

theorem weight_release_le (e : Elimination) (target : Key) :
    (e.release target).weight ≤ e.weight := by
  unfold release
  split
  · next h =>
    have := total_adjust_pred h
    simp only [weight]
    split <;> simp <;> omega
  · exact Nat.le_refl _

theorem weight_foldl_release_le (targets : List Key) (e : Elimination) :
    (targets.foldl release e).weight ≤ e.weight := by
  induction targets generalizing e with
  | nil => exact Nat.le_refl _
  | cons t l ih => exact Nat.le_trans (ih _) (weight_release_le e t)

theorem weight_step_lt {dependencies : Dependencies} {e f : Elimination}
    (h : e.step dependencies = some f) : f.weight < e.weight := by
  unfold step at h
  split at h
  · simp at h
  · next hq =>
    obtain rfl := Option.some.inj h
    refine Nat.lt_of_le_of_lt (weight_foldl_release_le _ _) ?_
    simp [weight, hq]

def run (dependencies : Dependencies) (e : Elimination) : Elimination :=
  match _h : e.step dependencies with
  | none => e
  | some f => run dependencies f
termination_by e.weight
decreasing_by exact weight_step_lt (by assumption)

end Elimination

/-- The modules that cannot be taken away because others that are left depend on them; none when
everything can be taken away. -/
def Dependencies.leftOver (dependencies : Dependencies) : List Key :=
  let final := (Elimination.start dependencies).run dependencies
  if final.taken.length = dependencies.size then []
  else (final.degrees.entries.filter (0 < ·.2)).map Prod.fst

end ModuleGraph
