import ModuleGraph.Proofs.Loop
import ModuleGraph.Proofs.ShortestPath

/-!
# Links to parents

A search for a shortest walk need not carry the walk to each module that it finds. It can note with
each module the one from which it found it, and follow these links back from the first target that
it comes to. That gives the walk which the search carries.
-/
namespace ModuleGraph

/-- For each module that was found the one it was found from, with the cause of that step. A start
was found from none. -/
abbrev Parents := SortedMap Key (Option (Key × Cause))

namespace Parents

variable {parents parents' : Parents} {k : Key} {p q : Path}

def back (parents : Parents) (now : Key × Path) : Option (Key × Path) :=
  match parents.get? now.1 with
  | some (some (parent, cause)) => some (parent, now.2.cons parent cause)
  | _ => none

/-- The links make up a walk from a start to a module. -/
inductive Linked (parents : Parents) : Key → Path → Prop
  | start {k : Key} : parents.get? k = some none → Linked parents k (.single k)
  | step {j k : Key} {cause : Cause} {p : Path} : parents.get? k = some (some (j, cause)) →
      Linked parents j p → Linked parents k (p.extend ⟨k, cause⟩)

theorem Linked.mono (hlinks : ∀ k link, parents.get? k = some link → parents'.get? k = some link)
    (h : parents.Linked k p) : parents'.Linked k p := by
  induction h with
  | start hk => exact .start (hlinks _ _ hk)
  | step hk _ ih => exact .step (hlinks _ _ hk) ih

theorem Linked.exists_after (h : parents.Linked k p) (hq : ∃ ks, q.nodes = k :: ks) :
    ∃ n a, After parents.back (k, q) n (a, p.append q) ∧ parents.get? a = some none := by
  induction h generalizing q with
  | @start k hk => exact ⟨0, k, Path.single_append q hq ▸ .start, hk⟩
  | @step j k cause p hk _ ih =>
    obtain ⟨n, a, hafter, ha⟩ := ih (q := q.cons j cause) ⟨_, rfl⟩
    rw [Path.append_cons p q j (e := ⟨k, cause⟩) hq] at hafter
    have hback : parents.back (k, q) = some (j, q.cons j cause) := by simp [back, hk]
    exact ⟨n + 1, a, hafter.head hback, ha⟩

theorem Linked.walk_back (h : parents.Linked k p) :
    ∃ n a, After parents.back (k, .single k) n (a, p) ∧ parents.back (a, p) = none := by
  obtain ⟨n, a, hafter, ha⟩ := h.exists_after (q := .single k) ⟨[], rfl⟩
  rw [Path.append_single] at hafter
  exact ⟨n, a, hafter, by simp [back, ha]⟩

end Parents

namespace EdgeTable

variable {t : EdgeTable} {targets seen : SortedSet Key} {parents : Parents} {keys : List Key}
  {layer : List Arrival}

def link (k : Key) (found : List Key × Parents) (e : Edge) : List Key × Parents :=
  if e.target ∈ found.2 then found
  else (found.1 ++ [e.target], found.2.insert e.target (some (k, e.cause)))

def nextLayer (t : EdgeTable) (keys : List Key) (parents : Parents) : List Key × Parents :=
  keys.foldl (fun found k => (t.edges k).foldl (link k) found) ([], parents)

def hit? (t : EdgeTable) (targets : SortedSet Key) : ℕ → List Key → Parents → Option (Key × Parents)
  | 0, _, _ => none
  | _ + 1, [], _ => none
  | depth + 1, keys, parents =>
    match keys.find? (· ∈ targets) with
    | some k => some (k, parents)
    | none => t.hit? targets depth (t.nextLayer keys parents).1 (t.nextLayer keys parents).2

theorem hit?_of_cons {depth : ℕ} (h : ∃ k ks, keys = k :: ks) :
    t.hit? targets (depth + 1) keys parents =
      match keys.find? (· ∈ targets) with
      | some k => some (k, parents)
      | none => t.hit? targets depth (t.nextLayer keys parents).1 (t.nextLayer keys parents).2 := by
  obtain ⟨k, ks, rfl⟩ := h
  rfl

/-- Both searches know the same modules, and the links make up the walks that are carried. -/
structure Alike (layer : List Arrival) (seen : SortedSet Key) (keys : List Key)
    (parents : Parents) : Prop where
  keys_eq : keys = layer.map Arrival.key
  mem_iff : ∀ k, k ∈ parents ↔ k ∈ seen
  linked : ∀ x ∈ layer, parents.Linked x.key x.path

theorem alike_starts (starts : SortedSet Key) :
    Alike (starts.toList.map fun k => ⟨k, .single k⟩) starts starts.toList
      (.ofSet starts fun _ => none) where
  keys_eq := by simp [Function.comp_def]
  mem_iff k := by rw [SortedMap.mem_def, SortedMap.keys_ofSet, SortedSet.mem_def]
  linked x hx := by
    obtain ⟨k, hk, rfl⟩ := List.mem_map.1 hx
    exact .start (by simp [SortedMap.get?_ofSet, SortedSet.mem_def, hk])

def steps (t : EdgeTable) (layer : List Arrival) : List (Arrival × Edge) :=
  layer.flatMap fun x => (t.edges x.key).map fun e => (x, e)

theorem flatMap_onward (t : EdgeTable) (layer : List Arrival) : layer.flatMap t.onward =
    (t.steps layer).map fun s => ⟨s.2.target, s.1.path.extend s.2⟩ := by
  simp only [steps, List.map_flatMap, List.map_map]
  rfl

theorem nextLayer_keys (t : EdgeTable) (layer : List Arrival) (parents : Parents) :
    t.nextLayer (layer.map Arrival.key) parents =
      (t.steps layer).foldl (fun found s => link s.1.key found s.2) ([], parents) := by
  simp [nextLayer, steps, List.foldl_flatMap, List.foldl_map]

theorem firstArrivals_link (steps : List (Arrival × Edge)) (next : List Key)
    (hmem : ∀ k, k ∈ parents ↔ k ∈ seen)
    (hlinked : ∀ s ∈ steps, parents.Linked s.1.key s.1.path) :
    let arrived := firstArrivals seen (steps.map fun s => ⟨s.2.target, s.1.path.extend s.2⟩)
    let found := steps.foldl (fun found s => link s.1.key found s.2) (next, parents)
    found.1 = next ++ arrived.1.map Arrival.key ∧ (∀ k, k ∈ found.2 ↔ k ∈ arrived.2) ∧
      (∀ k p, parents.Linked k p → found.2.Linked k p) ∧
      ∀ x ∈ arrived.1, found.2.Linked x.key x.path := by
  induction steps generalizing seen parents next with
  | nil => simp [firstArrivals, hmem]
  | cons s steps ih =>
    obtain ⟨hs, hsteps⟩ := List.forall_mem_cons.1 hlinked
    simp only [List.map_cons, List.foldl_cons]
    by_cases htarget : s.2.target ∈ seen
    · have hlink : link s.1.key (next, parents) s.2 = (next, parents) :=
        if_pos ((hmem _).2 htarget)
      rw [firstArrivals, if_pos htarget, hlink]
      exact ih next hmem hsteps
    · have hnew : s.2.target ∉ parents := fun h => htarget ((hmem _).1 h)
      let extended : Parents := parents.insert s.2.target (some (s.1.key, s.2.cause))
      have hkeeps : ∀ k link, parents.get? k = some link → extended.get? k = some link := by
        intro k link hk
        have hne : k ≠ s.2.target := fun heq => hnew (heq ▸ SortedMap.mem_of_get? hk)
        rw [SortedMap.get?_insert, if_neg hne, hk]
      have hextended : ∀ k, k ∈ extended ↔ k ∈ seen.insert s.2.target := by
        intro k
        rw [SortedMap.mem_insert, SortedSet.mem_insert, hmem]
      have hlast : extended.Linked s.2.target (s.1.path.extend s.2) :=
        .step (by rw [SortedMap.get?_insert, if_pos rfl]) (hs.mono hkeeps)
      obtain ⟨hkeys, hfound, hold, harrived⟩ := ih (next ++ [s.2.target]) hextended
        fun s hs => (hsteps s hs).mono hkeeps
      have hlink : link s.1.key (next, parents) s.2 = (next ++ [s.2.target], extended) :=
        if_neg hnew
      rw [firstArrivals, if_neg htarget, hlink]
      refine ⟨by rw [hkeys, List.append_assoc]; rfl, hfound, fun k p hp => ?_, ?_⟩
      · exact hold k p (hp.mono hkeeps)
      · exact List.forall_mem_cons.2 ⟨hold _ _ hlast, harrived⟩

theorem Alike.next (h : Alike layer seen keys parents) :
    Alike (firstArrivals seen (layer.flatMap t.onward)).1
      (firstArrivals seen (layer.flatMap t.onward)).2
      (t.nextLayer keys parents).1 (t.nextLayer keys parents).2 := by
  have hsteps : ∀ s ∈ t.steps layer, parents.Linked s.1.key s.1.path := by
    intro s hs
    obtain ⟨x, hx, hs⟩ := List.mem_flatMap.1 hs
    obtain ⟨e, -, rfl⟩ := List.mem_map.1 hs
    exact h.linked x hx
  obtain ⟨hkeys, hfound, -, hlinked⟩ := firstArrivals_link (t.steps layer) [] h.mem_iff hsteps
  rw [← flatMap_onward, ← nextLayer_keys, ← h.keys_eq] at hkeys hfound hlinked
  exact ⟨hkeys, hfound, hlinked⟩

theorem search_eq (depth : ℕ) (h : Alike layer seen keys parents) :
    match t.search targets depth layer seen with
    | none => t.hit? targets depth keys parents = none
    | some p => ∃ k links, t.hit? targets depth keys parents = some (k, links) ∧
        links.Linked k p := by
  induction depth generalizing layer seen keys parents with
  | zero => rfl
  | succ depth ih =>
    cases layer with
    | nil =>
      obtain rfl : keys = [] := h.keys_eq
      rfl
    | cons x xs =>
      have hfind : keys.find? (· ∈ targets) =
          ((x :: xs).find? (·.key ∈ targets)).map Arrival.key := by
        rw [h.keys_eq, List.find?_map]
        rfl
      have hkeys : ∃ k ks, keys = k :: ks := ⟨_, _, h.keys_eq⟩
      rw [search_of_ne_nil (List.cons_ne_nil x xs), hit?_of_cons hkeys, hfind]
      cases hhit : (x :: xs).find? (·.key ∈ targets) with
      | none => exact ih h.next
      | some hit => exact ⟨hit.key, parents, rfl, h.linked hit (List.mem_of_find?_eq_some hhit)⟩

/-- The walk to the target that is found is the one that its links give when they are followed
back. -/
theorem shortestPath_eq_walk_back (t : EdgeTable) (starts targets : List Key) (depth : ℕ) :
    let first := SortedSet.ofList starts
    let hit := t.hit? (.ofList targets) depth first.toList (.ofSet first fun _ => none)
    match t.shortestPath starts targets depth with
    | none => hit = none
    | some p => ∃ k parents, hit = some (k, parents) ∧
        ∃ n a, After parents.back (k, .single k) n (a, p) ∧ parents.back (a, p) = none := by
  intro first hit
  have hsame := @search_eq t (.ofList targets) _ _ _ _ depth (alike_starts first)
  change match t.shortestPath starts targets depth with
    | none => hit = none
    | some p => ∃ k parents, hit = some (k, parents) ∧ parents.Linked k p at hsame
  cases hfound : t.shortestPath starts targets depth with
  | none =>
    rw [hfound] at hsame
    exact hsame
  | some p =>
    rw [hfound] at hsame
    obtain ⟨k, parents, hhit, hlinked⟩ := hsame
    exact ⟨k, parents, hhit, hlinked.walk_back⟩

end EdgeTable

end ModuleGraph
