import ModuleGraph.Proofs.Beginnings
import ModuleGraph.Proofs.Enumeration

/-!
# What an enumeration goes through

An enumeration enters the beginnings of the routes one after another, each for one step, and
reports those that end at a target. `coming` are the beginnings through the edges that wait. On an
acyclic table a step passes the first of them, or drops none, or cuts the enumeration short at the
first. So those passed and those coming make up the same list throughout, and in the end none is
coming.
-/
namespace ModuleGraph

def Goal.PrunedFrom (goal : Goal) (start : Key) : Prop :=
  ∀ k, goal.table.Leads start k → (k ∈ goal.useful ↔ ∃ b ∈ goal.targets, goal.table.Leads k b)

namespace Enumeration

variable {goal : Goal} {start key : Key} {cause : Option Cause} {e f : Enumeration}
  {targets : SortedSet Key} {limits : Limits} {seen rest all : List Path}

def behind (nodes : List Key) (causes : List Cause) (q : Path) : Path :=
  ⟨nodes.reverse ++ q.nodes, causes.reverse ++ q.causes⟩

theorem behind_cons (nodes : List Key) (causes : List Cause) (k : Key) (c : Cause) (q : Path) :
    behind nodes causes (q.cons k c) = behind (k :: nodes) (c :: causes) q := by
  simp [behind]

@[simp] theorem behind_nil (q : Path) : behind [] [] q = q := by
  simp [behind]

theorem arrives_behind {q : Path} (h : q.arrives targets = true) (nodes : List Key)
    (causes : List Cause) : (behind nodes causes q).arrives targets = true := by
  obtain ⟨b, hb, hlast⟩ := Path.arrives_iff.1 h
  rw [Path.last?] at hlast
  exact Path.arrives_iff.2 ⟨b, hb, by simp [behind, Path.last?, hlast]⟩

theorem arrives_here_arrive (targets : SortedSet Key) (key : Key) (cause : Option Cause)
    (e : Enumeration) : (e.arrive key cause).here.arrives targets = decide (key ∈ targets) := by
  simp [Path.arrives, Path.last?, here, arrive]

theorem behind_single (key : Key) (cause : Option Cause) (e : Enumeration) :
    behind e.nodes (cause.toList ++ e.causes) (.single key) = (e.arrive key cause).here := by
  simp [behind, here, arrive, Path.single]

/-- The list of beginnings up to where an enumeration is. -/
structure Passed (targets : SortedSet Key) (limits : Limits) (e : Enumeration)
    (seen : List Path) : Prop where
  paths : e.paths.reverse = seen.filter (·.arrives targets)
  room : e.paths.length + e.room = limits.maxPaths
  within : seen.length ≤ limits.maxSteps

/-- Where an enumeration is in a list of beginnings: the rest is still to come, or the enumeration
was cut short at a beginning for which a limit leaves no room, with some route missing. -/
inductive Scanned (targets : SortedSet Key) (limits : Limits) (e : Enumeration)
    (rest all : List Path) : Prop
  | going (seen : List Path) : e.truncated = false → e.steps = seen.length →
      Passed targets limits e seen → all = seen ++ rest → Scanned targets limits e rest all
  | cut (seen : List Path) (p : Path) (missing : List Path) : e.truncated = true →
      e.steps = seen.length + 1 → Passed targets limits e seen → all = seen ++ p :: missing →
      (∃ q ∈ p :: missing, q.arrives targets = true) →
      (seen.length = limits.maxSteps ∨ p.arrives targets = true ∧ e.room = 0) →
      Scanned targets limits e rest all

namespace Passed

variable {p : Path}

theorem congr (h : Passed targets limits e seen) (hpaths : f.paths = e.paths)
    (hroom : f.room = e.room) : Passed targets limits f seen :=
  ⟨hpaths ▸ h.paths, hpaths ▸ hroom ▸ h.room, h.within⟩

theorem report (h : Passed targets limits e seen) (hlt : seen.length < limits.maxSteps)
    (hp : p.arrives targets = true) (hpaths : f.paths = p :: e.paths)
    (hroom : f.room + 1 = e.room) : Passed targets limits f (seen ++ [p]) := by
  refine ⟨?_, ?_, ?_⟩
  · rw [hpaths, List.reverse_cons, List.filter_append, ← h.paths, List.filter_singleton, hp]
    rfl
  · have hsum := h.room
    rw [hpaths, List.length_cons]
    omega
  · rw [List.length_append, List.length_singleton]
    omega

theorem go_on (h : Passed targets limits e seen) (hlt : seen.length < limits.maxSteps)
    (hp : p.arrives targets = false) (hpaths : f.paths = e.paths) (hroom : f.room = e.room) :
    Passed targets limits f (seen ++ [p]) := by
  refine ⟨?_, (h.congr hpaths hroom).room, ?_⟩
  · rw [hpaths, List.filter_append, ← h.paths, List.filter_singleton, hp]
    simp
  · rw [List.length_append, List.length_singleton]
    omega

end Passed

theorem Scanned.clear (h : Scanned targets limits e rest all) :
    Scanned targets limits e.clear rest all := by
  cases h with
  | going seen htr hsteps hpassed hall =>
    exact .going seen htr hsteps (hpassed.congr rfl rfl) hall
  | cut seen p missing htr hsteps hpassed hall hmissing hlimit =>
    exact .cut seen p missing htr hsteps (hpassed.congr rfl rfl) hall hmissing hlimit

variable (ht : goal.table.Acyclic)

def awaited : List (List Edge) → List Key → List Cause → List Path
  | [], _, _ => []
  | edges :: frames, nodes, causes =>
    (edges.flatMap fun e => (goal.table.beginnings ht goal.targets e.target).map
      (behind nodes (e.cause :: causes))) ++ awaited frames nodes.tail causes.tail

def coming (e : Enumeration) : List Path := awaited ht e.frames e.nodes e.causes

/-- Entering a module passes the walk to it, unless a limit is reached. -/
theorem scanned_enter (e : Enumeration) (key : Key) (cause : Option Cause)
    (htr : e.truncated = false) (htail : (cause.toList ++ e.causes).tail = e.causes)
    (hne : goal.table.routes ht goal.targets key ≠ []) (hsteps : e.steps = seen.length)
    (h : Passed goal.targets goal.limits e seen) :
    Scanned goal.targets goal.limits (e.enter goal key cause) (coming ht (e.enter goal key cause))
      (seen ++ ((goal.table.beginnings ht goal.targets key).map
        (behind e.nodes (cause.toList ++ e.causes)) ++ coming ht e)) := by
  have hsteps' : e.steps + 1 = seen.length + 1 := congrArg (· + 1) hsteps
  have harrives := arrives_here_arrive goal.targets key cause e
  rw [enter_eq]
  split
  · next hlimit =>
    obtain ⟨r, hr⟩ := List.exists_mem_of_ne_nil _ hne
    have hr' := ((EdgeTable.mem_routes ht).1 hr).arrives
    have hmem := List.mem_append_left (coming ht e) (List.mem_map_of_mem
      (f := behind e.nodes (cause.toList ++ e.causes)) (EdgeTable.routes_subset_beginnings ht hr))
    obtain ⟨p, missing, hcons⟩ := List.exists_cons_of_ne_nil (List.ne_nil_of_mem hmem)
    rw [hcons] at hmem ⊢
    have hwithin := h.within
    exact .cut seen p missing rfl hsteps' (h.congr rfl rfl) rfl
      ⟨_, hmem, arrives_behind hr' _ _⟩ (.inl (by omega))
  · next hlimit =>
    have hlt : seen.length < goal.limits.maxSteps := by omega
    split
    · next hkey =>
      rw [decide_eq_true hkey] at harrives
      rw [EdgeTable.beginnings_of_mem ht hkey, leave_record_arrive, htail, List.map_singleton,
        behind_single]
      cases hroom : (e.arrive key cause).room with
      | zero =>
        rw [record_of_full hroom]
        exact .cut seen _ (coming ht e) rfl hsteps' (h.congr rfl rfl) rfl
          ⟨_, List.mem_cons_self, harrives⟩ (.inr ⟨harrives, hroom⟩)
      | succ n =>
        rw [record_of_room hroom]
        exact .going (seen ++ [(e.arrive key cause).here]) htr (by simp [arrive, hsteps])
          (h.report hlt harrives rfl hroom.symm) (by simp [arrive, coming])
    · next hkey =>
      rw [decide_eq_false hkey] at harrives
      refine .going (seen ++ [(e.arrive key cause).here]) htr (by simp [arrive, hsteps])
        (h.go_on hlt harrives rfl rfl) ?_
      rw [EdgeTable.beginnings_of_not_mem ht hkey hne, List.map_cons, behind_single,
        List.map_flatMap]
      simp only [coming, awaited, arrive, htail, List.tail_cons, List.map_map, Function.comp_def,
        behind_cons, List.append_assoc, List.cons_append, List.nil_append]

theorem scanned_step (h : e.Coherent goal.table start) (huseful : goal.PrunedFrom start)
    (hstep : e.step goal = some f) (hsteps : e.steps = seen.length)
    (hpassed : Passed goal.targets goal.limits e seen) :
    Scanned goal.targets goal.limits f (coming ht f) (seen ++ coming ht e) := by
  obtain ⟨htr, ⟨frames, hf, rfl⟩ | ⟨edge, edges, frames, hf, hcase⟩⟩ := step_cases hstep
  · obtain ⟨k, nodes, hn, -, -, -⟩ := h.exists_last hf
    rw [leave_of_nodes (e := { e with frames }) hn, coming, coming, hf, hn]
    exact .going seen htr hsteps (hpassed.congr rfl rfl) (by simp [awaited])
  · have hw := h.walk_onward hf
    have hcoming : coming ht e = (goal.table.beginnings ht goal.targets edge.target).map
        (behind e.nodes (edge.cause :: e.causes)) ++
          coming ht { e with frames := edges :: frames } := by
      simp [coming, hf, awaited]
    have hpassed' : Passed goal.targets goal.limits { e with frames := edges :: frames } seen :=
      hpassed.congr rfl rfl
    rw [hcoming]
    rcases hcase with ⟨⟨hgo, -⟩, rfl⟩ | ⟨hskip, rfl⟩
    · have hne : goal.table.routes ht goal.targets edge.target ≠ [] := by
        rw [Ne, EdgeTable.routes_eq_nil_iff, not_not]
        exact (huseful _ ⟨_, hw⟩).1 hgo
      exact scanned_enter ht { e with frames := edges :: frames } edge.target (some edge.cause)
        htr rfl hne hsteps hpassed'
    · have hnew : edge.target ∉ e.onWalk := by
        rw [h.onWalk]
        intro hm
        have hd := hw.nodup ht
        rw [Path.nodes_extend, List.nodup_append] at hd
        exact hd.2.2 _ (by simpa [here] using hm) _ (by simp) rfl
      have hnil : goal.table.routes ht goal.targets edge.target = [] := by
        rw [EdgeTable.routes_eq_nil_iff, ← huseful _ ⟨_, hw⟩]
        exact fun hgo => hskip ⟨hgo, hnew⟩
      rw [EdgeTable.beginnings_of_routes_eq_nil ht hnil]
      exact .going seen htr hsteps hpassed' rfl

theorem scanned_run (h : e.Coherent goal.table start) (huseful : goal.PrunedFrom start)
    (hscan : Scanned goal.targets goal.limits e (coming ht e) all) :
    Scanned goal.targets goal.limits (e.run goal) [] all := by
  fun_induction run goal e with
  | case1 e hstep =>
    have hstop := run_stops goal e
    rw [run, hstep] at hstop
    cases hscan with
    | cut seen p missing htr hsteps hpassed hall hmissing hlimit =>
      exact .cut seen p missing htr hsteps hpassed hall hmissing hlimit
    | going seen htr hsteps hpassed hall =>
      have hf : e.frames = [] := hstop.resolve_left (by simp [htr])
      rw [coming, hf] at hall
      exact .going seen htr hsteps hpassed hall
  | case2 e f hstep ih =>
    refine ih (h.step hstep) ?_
    cases hscan with
    | cut _ _ _ htr => simp [(step_cases hstep).1] at htr
    | going seen htr hsteps hpassed hall =>
      rw [hall]
      exact scanned_step ht h huseful hstep hsteps hpassed

theorem scanned_walkFrom (hfresh : e.Fresh) (htr : e.truncated = false)
    (huseful : goal.PrunedFrom start) (hstart : start ∈ goal.useful)
    (hsteps : e.steps = seen.length) (hpassed : Passed goal.targets goal.limits e seen) :
    Scanned goal.targets goal.limits (e.walkFrom goal start) []
      (seen ++ goal.table.beginnings ht goal.targets start) := by
  have hcoh := Coherent.enter_start hfresh goal start
  obtain ⟨hf, hn, ho, hc⟩ := hfresh
  have hne : goal.table.routes ht goal.targets start ≠ [] := by
    rw [Ne, EdgeTable.routes_eq_nil_iff, not_not]
    exact (huseful start (.refl _ _)).1 hstart
  have hrun := scanned_run ht hcoh huseful
    (scanned_enter ht e start none htr (by simp [hc]) hne hsteps hpassed)
  have hid : behind [] [] = id := funext behind_nil
  rw [coming, hf, hn, hc, Option.toList_none, List.nil_append, hid, List.map_id, awaited,
    List.append_nil] at hrun
  exact hrun.clear

theorem scanned_walkFromAll (e : Enumeration) {starts : List Key} (hfresh : e.Fresh)
    (htr : e.truncated = false) (huseful : ∀ a ∈ starts, goal.PrunedFrom a)
    (hstarts : ∀ a ∈ starts, a ∈ goal.useful) (hsteps : e.steps = seen.length)
    (hpassed : Passed goal.targets goal.limits e seen) :
    Scanned goal.targets goal.limits (e.walkFromAll goal starts) []
      (seen ++ starts.flatMap (goal.table.beginnings ht goal.targets)) := by
  induction starts generalizing e seen with
  | nil => exact .going seen htr hsteps hpassed (by simp)
  | cons start starts ih =>
    have hone := scanned_walkFrom ht hfresh htr (huseful start List.mem_cons_self)
      (hstarts start List.mem_cons_self) hsteps hpassed
    rw [List.flatMap_cons, ← List.append_assoc, walkFromAll]
    cases hone with
    | cut seen p missing htr hsteps hpassed hall hmissing hlimit =>
      obtain ⟨q, hq, harrives⟩ := hmissing
      rw [if_pos htr, hall, List.append_assoc, List.cons_append]
      exact .cut seen p _ htr hsteps hpassed rfl ⟨q, List.mem_append_left _ hq, harrives⟩ hlimit
    | going seen htr hsteps hpassed hall =>
      rw [if_neg (by simp [htr]), hall, List.append_nil]
      exact ih _ (fresh_clear _) htr (fun a ha => huseful a (List.mem_cons_of_mem start ha))
        (fun a ha => hstarts a (List.mem_cons_of_mem start ha)) hsteps hpassed

end Enumeration

namespace EdgeTable

variable {t : EdgeTable}

theorem flatMap_beginnings_filter (ht : t.Acyclic) {targets : SortedSet Key} {p : Key → Bool}
    {starts : List Key} (h : ∀ a ∈ starts, p a = false → t.routes ht targets a = []) :
    (starts.filter p).flatMap (t.beginnings ht targets) =
      starts.flatMap (t.beginnings ht targets) := by
  induction starts with
  | nil => rfl
  | cons a starts ih =>
    have ih := ih fun b hb => h b (List.mem_cons_of_mem a hb)
    cases hp : p a with
    | true => rw [List.filter_cons_of_pos hp, List.flatMap_cons, List.flatMap_cons, ih]
    | false =>
      rw [List.filter_cons_of_neg (by simp [hp]), List.flatMap_cons, ih,
        beginnings_of_routes_eq_nil ht (h a List.mem_cons_self hp), List.nil_append]

theorem scanned_enumerate (ht : t.Acyclic) (limits : Limits) (starts targets : List Key) :
    Enumeration.Scanned (.ofList targets) limits (t.enumerate limits starts targets) []
      ((SortedSet.ofList starts).toList.flatMap (t.beginnings ht (.ofList targets))) := by
  let useful := t.useful (.ofList starts) (.ofList targets)
  let goal : Goal := ⟨t, .ofList targets, useful, limits⟩
  have hpruned : ∀ a ∈ SortedSet.ofList starts, goal.PrunedFrom a := by
    intro a ha k hk
    refine mem_useful.trans ?_
    exact ⟨And.right, fun hb => ⟨⟨a, ha, hk⟩, hb⟩⟩
  have huseful : ∀ a ∈ ((SortedSet.ofList starts).filter (· ∈ useful)).toList, a ∈ useful := by
    intro a ha
    simpa using (SortedSet.mem_filter.1 ha).2
  have hstart : Enumeration.Passed goal.targets goal.limits (.start limits) [] :=
    ⟨rfl, Nat.zero_add _, Nat.zero_le _⟩
  have hall : Enumeration.Scanned (.ofList targets) limits (t.enumerate limits starts targets) []
      (((SortedSet.ofList starts).filter (· ∈ useful)).toList.flatMap
        (t.beginnings ht (.ofList targets))) :=
    Enumeration.scanned_walkFromAll ht (.start limits) ⟨rfl, rfl, rfl, rfl⟩ rfl
      (fun a ha => hpruned a (SortedSet.mem_filter.1 ha).1) huseful rfl hstart
  rw [SortedSet.filter, flatMap_beginnings_filter ht] at hall
  · exact hall
  · intro a ha huseless
    rw [routes_eq_nil_iff]
    intro hb
    have hin : a ∈ useful := (hpruned a ha a (.refl t a)).2 hb
    simp [hin] at huseless

end EdgeTable

end ModuleGraph
