import ModuleGraph.Traversal.Path
import ModuleGraph.Traversal.Tree

/-! All simple walks from starts to their first target, in the order of their modules, under a
limit on the walks and one on the modules entered. The enumeration keeps the walk it is on and,
for each of its modules, the edges still to be tried. -/
namespace ModuleGraph

structure Limits where
  maxPaths : Nat
  maxSteps : Nat
deriving DecidableEq

def Limits.default : Limits := ⟨1000, 100000⟩

structure AllPaths where
  paths : List Path
  /-- Walks are missing. -/
  truncated : Bool
  /-- The dependency tree of every target reached, in the order of arrival. -/
  targetTrees : Tree
deriving DecidableEq

structure Goal where
  table : EdgeTable
  targets : SortedSet Key
  /-- The modules from which a target can be reached. -/
  useful : SortedSet Key
  limits : Limits

/-- A state of an enumeration. Walk, causes and paths are kept with the last one first. -/
structure Enumeration where
  /-- The edges still to be tried, for each module of the walk. -/
  frames : List (List Edge)
  nodes : List Key
  onWalk : SortedSet Key
  causes : List Cause
  paths : List Path
  room : Nat
  steps : Nat
  truncated : Bool

namespace Enumeration

def start (limits : Limits) : Enumeration := ⟨[], [], ∅, [], [], limits.maxPaths, 0, false⟩

def leave (e : Enumeration) : Enumeration :=
  match e.nodes with
  | [] => e
  | k :: nodes => { e with nodes, onWalk := e.onWalk.filter (· ≠ k), causes := e.causes.tail }

def record (e : Enumeration) : Enumeration :=
  match e.room with
  | 0 => { e with truncated := true }
  | room + 1 =>
    { e with paths := ⟨e.nodes.reverse, e.causes.reverse⟩ :: e.paths, room }

/-- Goes on to a module. At a target the walk ends and is reported. -/
def enter (goal : Goal) (key : Key) (cause : Option Cause) (e : Enumeration) : Enumeration :=
  let e := { e with steps := e.steps + 1 }
  if goal.limits.maxSteps < e.steps then { e with truncated := true }
  else
    let e := { e with
      nodes := key :: e.nodes
      onWalk := e.onWalk.insert key
      causes := cause.toList ++ e.causes }
    if key ∈ goal.targets then e.record.leave
    else { e with frames := goal.table.edges key :: e.frames }

/-- Tries the next edge of the walk's last module, or goes back when it has none left. -/
def step (goal : Goal) (e : Enumeration) : Option Enumeration :=
  if e.truncated then none
  else match e.frames with
    | [] => none
    | [] :: frames => some { e with frames }.leave
    | (edge :: edges) :: frames =>
      let e := { e with frames := edges :: frames }
      if edge.target ∈ goal.useful ∧ edge.target ∉ e.onWalk then
        some (e.enter goal edge.target (some edge.cause))
      else some e

def waiting (e : Enumeration) : Nat :=
  e.frames.foldr (fun edges n => edges.length + 1 + n) 0

@[simp] theorem waiting_leave (e : Enumeration) : e.leave.waiting = e.waiting := by
  unfold leave; split <;> rfl

@[simp] theorem steps_leave (e : Enumeration) : e.leave.steps = e.steps := by
  unfold leave; split <;> rfl

@[simp] theorem truncated_leave (e : Enumeration) : e.leave.truncated = e.truncated := by
  unfold leave; split <;> rfl

@[simp] theorem steps_record (e : Enumeration) : e.record.steps = e.steps := by
  unfold record; split <;> rfl

theorem enter_truncated_or_steps (goal : Goal) (key : Key) (cause : Option Cause)
    (e : Enumeration) : (e.enter goal key cause).truncated = true ∨
      (e.enter goal key cause).steps = e.steps + 1 ∧ e.steps < goal.limits.maxSteps := by
  unfold enter
  dsimp only
  split
  · exact .inl rfl
  · next h =>
    refine .inr ⟨?_, by omega⟩
    split <;> simp

/-- What every step makes smaller: first whether the enumeration goes on at all, then the steps
left, then what waits. -/
def measure (goal : Goal) (e : Enumeration) : Nat × Nat × Nat :=
  (if e.truncated then 0 else 1, goal.limits.maxSteps + 1 - e.steps, e.waiting)

abbrev Smaller : Nat × Nat × Nat → Nat × Nat × Nat → Prop :=
  Prod.Lex (· < ·) (Prod.Lex (· < ·) (· < ·))

theorem measure_enter_lt {goal : Goal} {key : Key} {cause : Option Cause} {e f : Enumeration}
    (ht : f.truncated = false) (hs : e.steps = f.steps) :
    Smaller ((e.enter goal key cause).measure goal) (f.measure goal) := by
  have hm := enter_truncated_or_steps goal key cause e
  simp only [measure, ht]
  cases hx : (e.enter goal key cause).truncated with
  | true => exact .left _ _ (by simp)
  | false =>
    obtain ⟨hsteps, hl⟩ := hm.resolve_left (by simp [hx])
    exact .right _ (.left _ _ (by omega))

theorem measure_step_lt {goal : Goal} {e f : Enumeration} (h : e.step goal = some f) :
    Smaller (f.measure goal) (e.measure goal) := by
  unfold step at h
  split at h
  · simp at h
  · next ht =>
    have ht : e.truncated = false := by simpa using ht
    split at h
    · simp at h
    · next hf =>
      obtain rfl := Option.some.inj h
      simp only [measure, truncated_leave, steps_leave, waiting_leave, ht]
      exact .right _ (.right _ (by simp [waiting, hf]))
    · next hf =>
      dsimp only at h
      split at h
      · obtain rfl := Option.some.inj h
        exact measure_enter_lt ht rfl
      · obtain rfl := Option.some.inj h
        simp only [measure, ht]
        exact .right _ (.right _ (by simp [waiting, hf]))

def run (goal : Goal) (e : Enumeration) : Enumeration :=
  match _h : e.step goal with
  | none => e
  | some f => run goal f
termination_by e.measure goal
decreasing_by exact measure_step_lt (by assumption)

def clear (e : Enumeration) : Enumeration :=
  { e with frames := [], nodes := [], onWalk := ∅, causes := [] }

def walkFrom (goal : Goal) (start : Key) (e : Enumeration) : Enumeration :=
  ((e.enter goal start none).run goal).clear

def walkFromAll (goal : Goal) : List Key → Enumeration → Enumeration
  | [], e => e
  | start :: starts, e =>
    let e := e.walkFrom goal start
    if e.truncated then e else walkFromAll goal starts e

end Enumeration

namespace EdgeTable

def useful (t : EdgeTable) (starts targets : SortedSet Key) : SortedSet Key :=
  let arcs := t.arcs
  let reachable := arcs.reachable starts.toList
  let rows := reachable.toList.map fun k => (k, arcs.next k)
  let back : Arcs := .ofSet reachable fun k => (rows.filter (k ∈ ·.2)).map Prod.fst
  back.reachable (targets.filter (· ∈ reachable)).toList

def enumerate (t : EdgeTable) (limits : Limits) (starts targets : List Key) : Enumeration :=
  let starts := SortedSet.ofList starts
  let targets := SortedSet.ofList targets
  let useful := t.useful starts targets
  Enumeration.walkFromAll ⟨t, targets, useful, limits⟩ (starts.filter (· ∈ useful)).toList
    (.start limits)

def allPathsOf (t : EdgeTable) (depth : Nat) (e : Enumeration) : AllPaths :=
  let paths := e.paths.reverse
  { paths
    truncated := e.truncated
    targetTrees := t.tree (paths.filterMap Path.last?) depth }

end EdgeTable

end ModuleGraph
