import ModuleGraph.Proofs.Walk

namespace ModuleGraph

namespace Enumeration

variable {goal : Goal} {start key : Key} {cause : Option Cause} {e f : Enumeration}

def arrive (key : Key) (cause : Option Cause) (e : Enumeration) : Enumeration :=
  { e with
    steps := e.steps + 1
    nodes := key :: e.nodes
    onWalk := e.onWalk.insert key
    causes := cause.toList ++ e.causes }

def here (e : Enumeration) : Path := ⟨e.nodes.reverse, e.causes.reverse⟩

theorem enter_eq (goal : Goal) (key : Key) (cause : Option Cause) (e : Enumeration) :
    e.enter goal key cause =
      if goal.limits.maxSteps < e.steps + 1 then
        { e with steps := e.steps + 1, truncated := true }
      else if key ∈ goal.targets then (e.arrive key cause).record.leave
      else { e.arrive key cause with frames := goal.table.edges key :: e.frames } := rfl

theorem step_cases (h : e.step goal = some f) : e.truncated = false ∧
    ((∃ frames, e.frames = [] :: frames ∧ f = { e with frames }.leave) ∨
      ∃ edge edges frames, e.frames = (edge :: edges) :: frames ∧
        ((edge.target ∈ goal.useful ∧ edge.target ∉ e.onWalk) ∧
            f = { e with frames := edges :: frames }.enter goal edge.target (some edge.cause) ∨
          ¬(edge.target ∈ goal.useful ∧ edge.target ∉ e.onWalk) ∧
            f = { e with frames := edges :: frames })) := by
  unfold step at h
  split at h
  · simp at h
  · next htr =>
    refine ⟨by simpa using htr, ?_⟩
    split at h
    · simp at h
    · next frames hf => exact .inl ⟨frames, hf, (Option.some.inj h).symm⟩
    · next edge edges frames hf =>
      refine .inr ⟨edge, edges, frames, hf, ?_⟩
      dsimp only at h
      split at h
      · next hgo => exact .inl ⟨hgo, (Option.some.inj h).symm⟩
      · next hgo => exact .inr ⟨hgo, (Option.some.inj h).symm⟩

theorem run_stops (goal : Goal) (e : Enumeration) :
    (e.run goal).truncated = true ∨ (e.run goal).frames = [] := by
  fun_induction run goal e with
  | case1 e hstep =>
    unfold step at hstep
    split at hstep
    · next htr => exact .inl htr
    · split at hstep
      · next hf => exact .inr hf
      · simp at hstep
      · dsimp only at hstep
        split at hstep <;> simp at hstep
  | case2 e f _ ih => exact ih

/-- Modules and causes, last first, are those of a walk from the start, or there are none. -/
def Trail (t : EdgeTable) (start : Key) (nodes : List Key) (causes : List Cause) : Prop :=
  nodes = [] ∧ causes = [] ∨ ∃ k, t.Walk start k ⟨nodes.reverse, causes.reverse⟩

theorem Trail.walk {t : EdgeTable} {k : Key} {nodes : List Key} {causes : List Cause}
    (h : Trail t start (k :: nodes) causes) :
    t.Walk start k ⟨(k :: nodes).reverse, causes.reverse⟩ := by
  rcases h with ⟨hn, -⟩ | ⟨l, hw⟩
  · simp at hn
  · obtain rfl : k = l := by simpa [Path.last?] using hw.last?
    exact hw

theorem Trail.tail {t : EdgeTable} {k : Key} {nodes : List Key} {causes : List Cause}
    (h : Trail t start (k :: nodes) causes) : Trail t start nodes causes.tail := by
  rcases h.walk.eq_single_or_snoc with ⟨hp, -⟩ | ⟨c, q, e, -, hq, -, hp⟩
  · obtain ⟨hn, hc⟩ := Path.mk.inj hp
    refine .inl ⟨?_, ?_⟩
    · simpa using congrArg List.length hn
    · simp_all
  · obtain ⟨hn, hc⟩ := Path.mk.inj hp
    obtain ⟨hn, -⟩ := List.append_inj' ((List.reverse_cons ..).symm.trans hn) rfl
    have hc : causes.tail.reverse = q.causes := by
      rw [← List.reverse_reverse causes, hc]
      simp
    exact .inr ⟨c, by rw [hn, hc]; exact hq⟩

/-- Frames, modules, the set of them and the causes belong together. -/
structure Coherent (t : EdgeTable) (start : Key) (e : Enumeration) : Prop where
  frames : List.Forall₂ (fun edges k => edges ⊆ t.edges k) e.frames e.nodes
  onWalk : ∀ k, k ∈ e.onWalk ↔ k ∈ e.nodes
  nodup : e.nodes.Nodup
  trail : Trail t start e.nodes e.causes

def Fresh (e : Enumeration) : Prop :=
  e.frames = [] ∧ e.nodes = [] ∧ e.onWalk = ∅ ∧ e.causes = []

theorem Fresh.coherent (h : e.Fresh) (t : EdgeTable) (start : Key) : e.Coherent t start := by
  obtain ⟨hf, hn, ho, hc⟩ := h
  exact ⟨by simp [hf, hn], by simp [hn, ho], by simp [hn], .inl ⟨hn, hc⟩⟩

theorem fresh_clear (e : Enumeration) : e.clear.Fresh := ⟨rfl, rfl, rfl, rfl⟩

@[simp] theorem frames_record (e : Enumeration) : e.record.frames = e.frames := by
  unfold record; split <;> rfl

@[simp] theorem nodes_record (e : Enumeration) : e.record.nodes = e.nodes := by
  unfold record; split <;> rfl

@[simp] theorem onWalk_record (e : Enumeration) : e.record.onWalk = e.onWalk := by
  unfold record; split <;> rfl

@[simp] theorem causes_record (e : Enumeration) : e.record.causes = e.causes := by
  unfold record; split <;> rfl

theorem record_of_full (h : e.room = 0) : e.record = { e with truncated := true } := by
  simp [record, h]

theorem record_of_room {n : ℕ} (h : e.room = n + 1) :
    e.record = { e with paths := e.here :: e.paths, room := n } := by
  simp [record, here, h]

theorem leave_of_nodes {k : Key} {nodes : List Key} (h : e.nodes = k :: nodes) :
    e.leave = { e with nodes, onWalk := e.onWalk.filter (· ≠ k), causes := e.causes.tail } := by
  simp [leave, h]

theorem leave_record_arrive (key : Key) (cause : Option Cause) (e : Enumeration) :
    (e.arrive key cause).record.leave =
      { (e.arrive key cause).record with
        nodes := e.nodes
        onWalk := (e.onWalk.insert key).filter (· ≠ key)
        causes := (cause.toList ++ e.causes).tail } := by
  have hn : (e.arrive key cause).record.nodes = key :: e.nodes := nodes_record _
  rw [leave_of_nodes hn]
  simp [arrive]

namespace Coherent

theorem tail_causes (h : e.Coherent goal.table start)
    (hw : goal.table.Walk start key (e.arrive key cause).here) :
    (cause.toList ++ e.causes).tail = e.causes := by
  have hl := hw.length_nodes
  simp only [here, arrive, List.length_reverse, List.length_cons, List.length_append] at hl
  rcases h.trail with ⟨hn, hc⟩ | ⟨k, hk⟩
  · cases cause <;> simp_all
  · have hk := hk.length_nodes
    simp only [List.length_reverse] at hk
    cases cause with
    | none => simp only [Option.toList_none, List.length_nil] at hl; omega
    | some c => rfl

theorem enter (h : e.Coherent goal.table start) (hkey : key ∉ e.nodes)
    (hw : goal.table.Walk start key (e.arrive key cause).here) :
    (e.enter goal key cause).Coherent goal.table start := by
  have htail := h.tail_causes hw
  rw [enter_eq]
  split
  · exact ⟨h.frames, h.onWalk, h.nodup, h.trail⟩
  · split
    · rw [leave_record_arrive, htail]
      refine ⟨by rw [frames_record]; exact h.frames, fun k => ?_, h.nodup, h.trail⟩
      simp only [SortedSet.mem_filter, SortedSet.mem_insert, h.onWalk, decide_eq_true_eq]
      constructor
      · rintro ⟨rfl | hk, hne⟩
        · exact absurd rfl hne
        · exact hk
      · intro hk
        exact ⟨.inr hk, by rintro rfl; exact hkey hk⟩
    · refine ⟨.cons (List.Subset.refl _) h.frames, fun k => ?_, ?_, .inr ⟨key, hw⟩⟩
      · simp [arrive, h.onWalk]
      · exact List.nodup_cons.2 ⟨hkey, h.nodup⟩

theorem enter_start (h : e.Fresh) (goal : Goal) (start : Key) :
    (e.enter goal start none).Coherent goal.table start := by
  obtain ⟨-, hn, -, hc⟩ := id h
  refine (h.coherent goal.table start).enter (by simp [hn]) ?_
  rw [here, arrive, hn, hc]
  exact .single start

theorem exists_last (h : e.Coherent goal.table start) {edges : List Edge}
    {frames : List (List Edge)} (hf : e.frames = edges :: frames) :
    ∃ k nodes, e.nodes = k :: nodes ∧ edges ⊆ goal.table.edges k ∧
      List.Forall₂ (fun edges k => edges ⊆ goal.table.edges k) frames nodes ∧
      goal.table.Walk start k e.here := by
  have hframes := h.frames
  have htrail := h.trail
  rw [hf] at hframes
  cases hn : e.nodes with
  | nil => simp [hn] at hframes
  | cons k nodes =>
    rw [hn] at hframes htrail
    obtain ⟨hedges, hrest⟩ := List.forall₂_cons.1 hframes
    refine ⟨k, nodes, rfl, hedges, hrest, ?_⟩
    rw [here, hn]
    exact htrail.walk

theorem drop_edge (h : e.Coherent goal.table start) {edge : Edge} {edges : List Edge}
    {frames : List (List Edge)} (hf : e.frames = (edge :: edges) :: frames) :
    Coherent goal.table start { e with frames := edges :: frames } := by
  obtain ⟨k, nodes, hn, hedges, hrest, -⟩ := h.exists_last hf
  refine ⟨?_, h.onWalk, h.nodup, h.trail⟩
  rw [hn]
  exact .cons (fun x hx => hedges (List.mem_cons_of_mem edge hx)) hrest

theorem walk_onward (h : e.Coherent goal.table start) {edge : Edge} {edges : List Edge}
    {frames : List (List Edge)} (hf : e.frames = (edge :: edges) :: frames) :
    goal.table.Walk start edge.target (e.here.extend edge) := by
  obtain ⟨k, nodes, -, hedges, -, hw⟩ := h.exists_last hf
  exact hw.snoc (hedges List.mem_cons_self)

theorem step (h : e.Coherent goal.table start) (hstep : e.step goal = some f) :
    f.Coherent goal.table start := by
  obtain ⟨-, ⟨frames, hf, rfl⟩ | ⟨edge, edges, frames, hf, hcase⟩⟩ := step_cases hstep
  · obtain ⟨k, nodes, hn, -, hrest, -⟩ := h.exists_last hf
    have hd := h.nodup
    have htrail := h.trail
    have honWalk := h.onWalk
    rw [hn] at hd htrail
    simp only [hn, List.mem_cons] at honWalk
    obtain ⟨hk, hd⟩ := List.nodup_cons.1 hd
    rw [leave_of_nodes (e := { e with frames }) hn]
    refine ⟨hrest, fun l => ?_, hd, htrail.tail⟩
    simp only [SortedSet.mem_filter, honWalk, decide_eq_true_eq]
    constructor
    · rintro ⟨rfl | hl, hne⟩
      · exact absurd rfl hne
      · exact hl
    · intro hl
      exact ⟨.inr hl, by rintro rfl; exact hk hl⟩
  · rcases hcase with ⟨⟨-, hnew⟩, rfl⟩ | ⟨-, rfl⟩
    · refine (h.drop_edge hf).enter (fun hm => hnew ((h.onWalk _).2 hm)) ?_
      simpa [here, arrive, Path.extend] using h.walk_onward hf
    · exact h.drop_edge hf

end Coherent

end Enumeration

end ModuleGraph
