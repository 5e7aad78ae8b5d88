import ModuleGraph.Proofs.Enumeration
import ModuleGraph.Proofs.Pruning

/-!
# The loop of an enumeration

Each step of an enumeration uses up one edge of the last frame or takes that frame away, but it may
put a new frame on top. A new frame belongs to a module that the walk did not stand on, so frames
stand no higher than there are rows, and there is a bound on how many steps all the edges below a
module can take. Every frame owes that many for each of its edges, and one for its end. What is
owed gets less with every step, whatever the limits are.
-/
namespace ModuleGraph

namespace EdgeTable

variable {t : EdgeTable} {key : Key} {nodes : List Key}

theorem length_edges_le_arrows (t : EdgeTable) (k : Key) :
    (t.edges k).length ≤ t.arrows.length := by
  have hle := (t.arcs.sublist_links k).length_le
  rwa [List.length_map, next_arcs, List.length_map, length_links_arcs] at hle

/-- The most steps that it takes to be done with a module, where no module has more edges than
`degree` and so many rows are not on the walk yet. -/
def stepsBelow (degree : ℕ) : ℕ → ℕ
  | 0 => 1
  | rows + 1 => 1 + degree * (1 + stepsBelow degree rows)

theorem one_le_stepsBelow (degree rows : ℕ) : 1 ≤ stepsBelow degree rows := by
  cases rows with
  | zero => exact Nat.le_refl 1
  | succ rows => exact Nat.le_add_right 1 _

theorem stepsBelow_mono (degree : ℕ) : Monotone (stepsBelow degree) := by
  refine monotone_nat_of_le_succ fun rows => ?_
  induction rows with
  | zero => exact Nat.le_add_right 1 _
  | succ rows ih => exact Nat.add_le_add_left (Nat.mul_le_mul_left _ (by omega)) 1

def stepsFrom (t : EdgeTable) (nodes : List Key) : ℕ :=
  stepsBelow t.arrows.length (t.arcs.unvisited (.ofList nodes))

/-- The steps that frames owe. Beside each frame stand its module and those before it. -/
def owed (t : EdgeTable) : List (List Edge) → List Key → ℕ
  | [], _ => 0
  | edges :: frames, nodes => 1 + edges.length * (1 + t.stepsFrom nodes) + owed t frames nodes.tail

theorem length_edges_mul_le (hkey : key ∉ nodes) :
    1 + (t.edges key).length * (1 + t.stepsFrom (key :: nodes)) ≤ t.stepsFrom nodes := by
  by_cases hrow : key ∈ t
  · have hlt : t.arcs.unvisited (.ofList (key :: nodes)) < t.arcs.unvisited (.ofList nodes) :=
      Arcs.unvisited_insert_lt (by simpa [SortedMap.mem_def, arcs] using hrow)
        (mt SortedSet.mem_ofList.1 hkey)
    calc 1 + (t.edges key).length * (1 + t.stepsFrom (key :: nodes))
      _ ≤ 1 + t.arrows.length * (1 + t.stepsFrom (key :: nodes)) := by
        gcongr
        exact t.length_edges_le_arrows key
      _ = stepsBelow t.arrows.length (t.arcs.unvisited (.ofList (key :: nodes)) + 1) := rfl
      _ ≤ t.stepsFrom nodes := stepsBelow_mono _ hlt
  · rw [edges_eq_nil hrow, List.length_nil, Nat.zero_mul]
    exact one_le_stepsBelow _ _

end EdgeTable

namespace Enumeration

variable {goal : Goal} {start key : Key} {cause : Option Cause} {e f last : Enumeration} {n : ℕ}

def owed (t : EdgeTable) (e : Enumeration) : ℕ := t.owed e.frames e.nodes

theorem owed_enter_le (hkey : key ∉ e.nodes) :
    (e.enter goal key cause).owed goal.table ≤
      e.owed goal.table + goal.table.stepsFrom e.nodes := by
  rw [enter_eq]
  split
  · exact Nat.le_add_right _ _
  · split
    · rw [leave_record_arrive]
      simp only [owed, frames_record]
      exact Nat.le_add_right _ _
    · have hle := goal.table.length_edges_mul_le hkey
      simp only [owed, EdgeTable.owed, arrive, List.tail_cons]
      omega

/-- An edge that is tried pays for itself and for the frame that it may put on top. -/
theorem owed_step_lt (h : e.Coherent goal.table start) (hstep : e.step goal = some f) :
    f.owed goal.table < e.owed goal.table := by
  obtain ⟨-, ⟨frames, hf, rfl⟩ | ⟨edge, edges, frames, hf, hcase⟩⟩ := step_cases hstep
  · obtain ⟨k, nodes, hn, -⟩ := h.exists_last hf
    rw [leave_of_nodes (e := { e with frames }) hn]
    simp only [owed, hf, hn, EdgeTable.owed, List.tail_cons]
    omega
  · have hdrop : owed goal.table { e with frames := edges :: frames } +
        (1 + goal.table.stepsFrom e.nodes) = e.owed goal.table := by
      simp only [owed, hf, EdgeTable.owed, List.length_cons]
      ring
    rcases hcase with ⟨⟨-, hnew⟩, rfl⟩ | ⟨-, rfl⟩
    · have hle : (enter goal edge.target (some edge.cause)
          { e with frames := edges :: frames }).owed goal.table ≤
          owed goal.table { e with frames := edges :: frames } + goal.table.stepsFrom e.nodes :=
        owed_enter_le (mt (h.onWalk _).2 hnew)
      omega
    · omega

theorem spends (goal : Goal) (start : Key) :
    After.Spends (step goal) (Coherent goal.table start) (owed goal.table) :=
  fun _ _ h hstep => ⟨h.step hstep, owed_step_lt h hstep⟩

theorem run_of_step (h : e.step goal = some f) : f.run goal = e.run goal := by
  rw [run.eq_1 _ e]
  split
  · next hnone => simp [hnone] at h
  · next hsome => rw [Option.some.inj (h.symm.trans hsome)]

theorem run_of_step_eq_none (h : e.step goal = none) : e.run goal = e := by
  rw [run]
  split
  · rfl
  · next hsome => simp [hsome] at h

theorem run_eq_of_after (h : After (step goal) e n last) (hend : last.step goal = none) :
    e.run goal = last := by
  have hrun := h.unchanged fun _ _ hstep => run_of_step hstep
  rw [← hrun, run_of_step_eq_none hend]

theorem exists_after_walkFrom (hfresh : e.Fresh) (goal : Goal) (start : Key) :
    ∃ n last, n ≤ goal.table.stepsFrom [] ∧ After (step goal) (e.enter goal start none) n last ∧
      last.step goal = none ∧ e.walkFrom goal start = last.clear := by
  obtain ⟨n, last, hlast, hend, hle⟩ :=
    (spends goal start).exists_last (Coherent.enter_start hfresh goal start)
  refine ⟨n, last, hle.trans ?_, hlast, hend, congrArg clear (run_eq_of_after hlast hend)⟩
  obtain ⟨hf, hn, -, -⟩ := hfresh
  have hnothing : e.owed goal.table = 0 := by rw [owed, hf, EdgeTable.owed]
  have henter : (e.enter goal start none).owed goal.table ≤
      e.owed goal.table + goal.table.stepsFrom e.nodes := owed_enter_le (by simp [hn])
  rwa [hnothing, hn, Nat.zero_add] at henter

theorem coherent_of_after (hfresh : e.Fresh) (h : After (step goal) (e.enter goal start none) n f) :
    f.Coherent goal.table start :=
  h.keeps (fun _ _ h hstep => h.step hstep) (Coherent.enter_start hfresh goal start)

end Enumeration

namespace Snapshot

open Enumeration

/-- However large the limits are, the loop that enumerates walks from a start ends after a number of
steps that the snapshot and the filter bound. All the time there is a frame for each module, and the
modules and causes are those of a walk from the start that stands on no module twice, or there are
none of them. In the end nothing is entered, as at first. -/
theorem walkFrom_coherent (s : Snapshot) (f : Filter) : ∃ bound : ℕ,
    ∀ (targets useful : SortedSet Key) (limits : Limits) (start : Key) (e : Enumeration), e.Fresh →
      let table := EdgeTable.ofGraph s.graph f
      let goal : Goal := ⟨table, targets, useful, limits⟩
      (∃ n last, n ≤ bound ∧ After (step goal) (e.enter goal start none) n last ∧
        last.step goal = none ∧ e.walkFrom goal start = last.clear) ∧
      (∀ n now, After (step goal) (e.enter goal start none) n now →
        now.frames.length = now.nodes.length ∧
        now.nodes.Nodup ∧
        (∀ k, k ∈ now.onWalk ↔ k ∈ now.nodes) ∧
        (now.nodes = [] ∧ now.causes = [] ∨
          now.nodes.length = now.causes.length + 1 ∧
          ∃ k, table.Walk start k ⟨now.nodes.reverse, now.causes.reverse⟩)) ∧
      (e.walkFrom goal start).Fresh := by
  refine ⟨EdgeTable.stepsFrom (.ofGraph s.graph f) [], fun targets useful limits start e h => ?_⟩
  intro table goal
  refine ⟨exists_after_walkFrom h goal start, fun n now hnow => ?_, fresh_clear _⟩
  have hcoherent := coherent_of_after h hnow
  refine ⟨hcoherent.frames.length_eq, hcoherent.nodup, hcoherent.onWalk, ?_⟩
  rcases hcoherent.trail with hnone | ⟨k, hwalk⟩
  · exact .inl hnone
  · exact .inr ⟨by simpa using hwalk.length_nodes, k, hwalk⟩

set_option maxRecDepth 4000 in
theorem walkFrom_coherent_triangle :
    let table := EdgeTable.ofGraph triangle.graph .complete
    let goal : Goal := ⟨table, .ofList [⟨"b", "1"⟩], .ofList triangle.graph.keys, ⟨5, 100⟩⟩
    let entered := (Enumeration.start ⟨5, 100⟩).enter goal .root none
    (Enumeration.start ⟨5, 100⟩).Fresh ∧
    (∃ now, After (step goal) entered 1 now ∧ now.nodes = [⟨"a", "1"⟩, .root] ∧
      now.frames.length = 2 ∧ ∃ k, table.Walk .root k ⟨now.nodes.reverse, now.causes.reverse⟩) ∧
    (∃ n last, After (step goal) entered n last ∧ last.step goal = none) ∧
    ((Enumeration.start ⟨5, 100⟩).walkFrom goal .root).Fresh := by
  intro table goal entered
  have hfresh : (Enumeration.start ⟨5, 100⟩).Fresh := ⟨rfl, rfl, rfl, rfl⟩
  obtain ⟨bound, hwalks⟩ := walkFrom_coherent triangle .complete
  obtain ⟨⟨n, last, -, hlast, hend, -⟩, hnow, hclear⟩ :=
    hwalks goal.targets goal.useful goal.limits .root (.start ⟨5, 100⟩) hfresh
  have hone : (step goal entered).map Enumeration.nodes = some [⟨"a", "1"⟩, .root] := by cbv
  obtain ⟨now, hstep, hnodes⟩ := Option.map_eq_some_iff.1 hone
  obtain ⟨hframes, -, -, htrail⟩ := hnow 1 now (.next .start hstep)
  have hwalk := (htrail.resolve_left (by simp [hnodes])).2
  exact ⟨hfresh, ⟨now, .next .start hstep, hnodes, by rw [hframes, hnodes]; rfl, hwalk⟩,
    ⟨n, last, hlast, hend⟩, hclear⟩

end Snapshot

end ModuleGraph
