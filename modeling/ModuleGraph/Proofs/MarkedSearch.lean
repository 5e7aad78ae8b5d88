import ModuleGraph.Proofs.Pruning

/-!
# Marking keys when they are found

A search may mark a key already when it is found, so that no key waits twice, and may note on the
way from where each arc came. It sees the same keys as one that marks them when their turn comes,
and the arcs noted are those that lead from these keys, turned round.
-/
namespace ModuleGraph

namespace Arcs

variable {arcs arcs' : Arcs} {starts : SortedSet Key} {j k l : Key} {ls : List Key} {n : ℕ}

theorem reachable_congr (h : ∀ k l, l ∈ arcs.next k ↔ l ∈ arcs'.next k) (starts : List Key) :
    arcs.reachable starts = arcs'.reachable starts := by
  refine SortedSet.ext fun k => ?_
  simp only [mem_reachable, reaches_iff, h]

theorem next_insert (arcs : Arcs) (k : Key) (ls : List Key) (j : Key) :
    next (arcs.insert k ls) j = if j = k then ls else arcs.next j := by
  rw [next, SortedMap.get?_insert]
  split <;> rfl

namespace Search

variable {s s' : Search}

def find (s : Search) (l : Key) : Search :=
  if l ∈ s.seen then s else ⟨s.queue ++ [l], s.seen.insert l⟩

theorem mem_seen_find : k ∈ (s.find l).seen ↔ k ∈ s.seen ∨ k = l := by
  unfold find
  split
  · next hl => exact ⟨.inl, fun h => h.elim id fun hk => hk ▸ hl⟩
  · rw [SortedSet.mem_insert]
    exact or_comm

theorem mem_queue_find : k ∈ (s.find l).queue ↔ k ∈ s.queue ∨ k = l ∧ l ∉ s.seen := by
  unfold find
  split
  · next hl => simp [hl]
  · next hl => simp [hl]

theorem mem_seen_foldl_find : k ∈ (ls.foldl find s).seen ↔ k ∈ s.seen ∨ k ∈ ls := by
  induction ls generalizing s with
  | nil => simp
  | cons l ls ih => rw [List.foldl_cons, ih, mem_seen_find, List.mem_cons, or_assoc]

theorem mem_queue_foldl_find :
    k ∈ (ls.foldl find s).queue ↔ k ∈ s.queue ∨ k ∈ ls ∧ k ∉ s.seen := by
  induction ls generalizing s with
  | nil => simp
  | cons l ls ih =>
    rw [List.foldl_cons, ih, mem_queue_find, mem_seen_find, List.mem_cons]
    by_cases hk : k = l
    · subst hk
      tauto
    · simp [hk]

/-- A key that is marked when the first one in the queue has its turn waits, or is that one, or had
its turn before. -/
theorem waits_or_done {P : Key → Prop} {queue : List Key} (hqueue : s.queue = k :: queue)
    (h : ∀ j ∈ s.seen, j ∈ s.queue ∨ P j) (hj : j ∈ (ls.foldl find { s with queue }).seen) :
    j ∈ (ls.foldl find { s with queue }).queue ∨ j = k ∨ P j := by
  rw [mem_queue_foldl_find]
  by_cases hseen : j ∈ s.seen
  · rcases h j hseen with hwaits | hdone
    · rcases List.mem_cons.1 (hqueue ▸ hwaits) with rfl | hwaits
      · exact .inr (.inl rfl)
      · exact .inl (.inl hwaits)
    · exact .inr (.inr hdone)
  · exact .inl (.inr ⟨(mem_seen_foldl_find.1 hj).resolve_left hseen, hseen⟩)

def unfound (arcs : Arcs) (s : Search) : ℕ :=
  s.queue.length + (arcs.links.map Prod.snd).countP (· ∉ s.seen)

theorem unfound_find_le (hl : l ∈ arcs.links.map Prod.snd) :
    (s.find l).unfound arcs ≤ s.unfound arcs := by
  unfold find
  split
  · exact le_rfl
  · next hs =>
    have hlt := countP_insert_lt hs hl
    simp only [unfound, List.length_append, List.length_singleton]
    omega

theorem unfound_foldl_find_le (h : ∀ l ∈ ls, l ∈ arcs.links.map Prod.snd) :
    (ls.foldl find s).unfound arcs ≤ s.unfound arcs := by
  induction ls generalizing s with
  | nil => exact le_rfl
  | cons l ls ih =>
    obtain ⟨hl, hls⟩ := List.forall_mem_cons.1 h
    exact (ih hls).trans (unfound_find_le hl)

end Search

def markingTurn (arcs : Arcs) (s : Search) : Option Search :=
  match s.queue with
  | [] => none
  | k :: queue => some ((arcs.next k).foldl Search.find { s with queue })

section Marking

variable {s s' : Search}

theorem markingTurn_eq_some (h : arcs.markingTurn s = some s') : ∃ k queue,
    s.queue = k :: queue ∧ s' = (arcs.next k).foldl Search.find { s with queue } := by
  unfold markingTurn at h
  split at h
  · simp at h
  · next k queue hqueue => exact ⟨k, queue, hqueue, (Option.some.inj h).symm⟩

theorem queue_of_markingTurn_eq_none (h : arcs.markingTurn s = none) : s.queue = [] := by
  unfold markingTurn at h
  split at h
  · assumption
  · simp at h

theorem unfound_markingTurn_lt (h : arcs.markingTurn s = some s') :
    s'.unfound arcs < s.unfound arcs := by
  obtain ⟨k, queue, hqueue, rfl⟩ := markingTurn_eq_some h
  have hle : ((arcs.next k).foldl Search.find { s with queue }).unfound arcs ≤
      Search.unfound arcs { s with queue } :=
    Search.unfound_foldl_find_le fun l hl => List.mem_map.2 ⟨(k, l), mem_links.2 hl, rfl⟩
  refine hle.trans_lt ?_
  simp [Search.unfound, hqueue]

/-- What is marked was reached, and waits or has all its arcs followed. -/
structure Marking (arcs : Arcs) (starts : SortedSet Key) (s : Search) : Prop where
  starts_seen : ∀ a ∈ starts, a ∈ s.seen
  queue_seen : ∀ k ∈ s.queue, k ∈ s.seen
  reached : ∀ k ∈ s.seen, ∃ a ∈ starts, arcs.Reaches a k
  followed : ∀ k ∈ s.seen, k ∈ s.queue ∨ ∀ l ∈ arcs.next k, l ∈ s.seen

namespace Marking

theorem start (arcs : Arcs) (starts : SortedSet Key) :
    Marking arcs starts ⟨starts.toList, starts⟩ where
  starts_seen _ ha := ha
  queue_seen _ hk := hk
  reached k hk := ⟨k, hk, .refl k⟩
  followed _ hk := .inl hk

theorem turn (h : Marking arcs starts s) (hturn : arcs.markingTurn s = some s') :
    Marking arcs starts s' := by
  obtain ⟨k, queue, hqueue, rfl⟩ := markingTurn_eq_some hturn
  have hk : k ∈ s.seen := h.queue_seen k (hqueue ▸ List.mem_cons_self)
  refine ⟨fun a ha => ?_, fun j hj => ?_, fun j hj => ?_, fun j hj => ?_⟩
  · exact Search.mem_seen_foldl_find.2 (.inl (h.starts_seen a ha))
  · rw [Search.mem_seen_foldl_find]
    rcases Search.mem_queue_foldl_find.1 hj with hj | ⟨hj, -⟩
    · exact .inl (h.queue_seen j (hqueue ▸ List.mem_cons_of_mem k hj))
    · exact .inr hj
  · rcases Search.mem_seen_foldl_find.1 hj with hj | hj
    · exact h.reached j hj
    · obtain ⟨a, ha, hak⟩ := h.reached k hk
      exact ⟨a, ha, hak.snoc hj⟩
  · simp only [Search.mem_seen_foldl_find]
    rcases Search.waits_or_done hqueue h.followed hj with hwaits | rfl | hfollowed
    · exact .inl hwaits
    · exact .inr fun l hl => .inr hl
    · exact .inr fun l hl => .inl (hfollowed l hl)

theorem seen_eq (h : Marking arcs starts s) (hend : s.queue = []) :
    s.seen = arcs.reachable starts.toList := by
  refine SortedSet.ext fun k => ?_
  rw [mem_reachable]
  refine ⟨h.reached k, ?_⟩
  rintro ⟨a, ha, hak⟩
  have hseen := h.starts_seen a ha
  clear ha
  induction hak with
  | refl => exact hseen
  | step hl _ ih => exact ih ((h.followed _ hseen).resolve_left (by simp [hend]) _ hl)

end Marking

/-- Marking keys when they are found makes the search see the same. -/
theorem exists_after_marking (arcs : Arcs) (starts : SortedSet Key) :
    ∃ n, After arcs.markingTurn ⟨starts.toList, starts⟩ n ⟨[], arcs.reachable starts.toList⟩ := by
  have hspends : After.Spends arcs.markingTurn (Marking arcs starts) (·.unfound arcs) :=
    fun _ _ h hturn => ⟨h.turn hturn, unfound_markingTurn_lt hturn⟩
  obtain ⟨n, ⟨queue, seen⟩, hlast, hend, -⟩ := hspends.exists_last (.start arcs starts)
  obtain rfl : queue = [] := queue_of_markingTurn_eq_none hend
  have hinv : Marking arcs starts ⟨[], seen⟩ :=
    hlast.keeps (fun _ _ h hturn => h.turn hturn) (Marking.start arcs starts)
  exact ⟨n, hinv.seen_eq rfl ▸ hlast⟩

end Marking

/-- A search that notes for each key it finds from where. -/
structure Sweep extends Search where
  back : Arcs

namespace Sweep

variable {s s' : Sweep}

def find (k : Key) (s : Sweep) (l : Key) : Sweep where
  toSearch := s.toSearch.find l
  back := s.back.insert l (s.back.next l ++ [k])

def turn (arcs : Arcs) (s : Sweep) : Option Sweep :=
  match s.queue with
  | [] => none
  | k :: queue => some ((arcs.next k).foldl (find k) { s with queue })

theorem toSearch_foldl_find (k : Key) (ls : List Key) (s : Sweep) :
    (ls.foldl (find k) s).toSearch = ls.foldl Search.find s.toSearch := by
  induction ls generalizing s with
  | nil => rfl
  | cons l ls ih => exact ih _

theorem mem_next_back_foldl_find : j ∈ (ls.foldl (find k) s).back.next l ↔
    j ∈ s.back.next l ∨ j = k ∧ l ∈ ls := by
  induction ls generalizing s with
  | nil => simp
  | cons m ls ih =>
    rw [List.foldl_cons, ih, find, next_insert, List.mem_cons]
    by_cases hl : l = m
    · subst hl
      simp only [if_true, List.mem_append, List.mem_singleton, true_or, and_true]
      tauto
    · simp [hl]

theorem turn_eq_some (h : s.turn arcs = some s') : ∃ k queue, s.queue = k :: queue ∧
    s' = (arcs.next k).foldl (find k) { s with queue } := by
  unfold turn at h
  split at h
  · simp at h
  · next k queue hqueue => exact ⟨k, queue, hqueue, (Option.some.inj h).symm⟩

theorem markingTurn_toSearch (arcs : Arcs) (s : Sweep) :
    arcs.markingTurn s.toSearch = (s.turn arcs).map Sweep.toSearch := by
  unfold markingTurn turn
  cases s.queue with
  | nil => rfl
  | cons k queue => exact congrArg some (toSearch_foldl_find k (arcs.next k) { s with queue }).symm

theorem markingTurn_of_turn (h : s.turn arcs = some s') :
    arcs.markingTurn s.toSearch = some s'.toSearch := by
  rw [markingTurn_toSearch, h, Option.map_some]

/-- The arcs noted lead from keys that are marked, and all such arcs are noted of keys that do
not wait. -/
structure Noting (arcs : Arcs) (starts : SortedSet Key) (s : Sweep) : Prop
    extends Marking arcs starts s.toSearch where
  sound : ∀ k l, k ∈ s.back.next l → k ∈ s.seen ∧ l ∈ arcs.next k
  noted : ∀ k ∈ s.seen, k ∈ s.queue ∨ ∀ l ∈ arcs.next k, k ∈ s.back.next l

theorem Noting.start (arcs : Arcs) (starts : SortedSet Key) :
    Noting arcs starts ⟨⟨starts.toList, starts⟩, ∅⟩ where
  toMarking := .start arcs starts
  sound _ _ hk := nomatch hk
  noted _ hk := .inl hk

theorem Noting.turn (h : Noting arcs starts s) (hturn : s.turn arcs = some s') :
    Noting arcs starts s' := by
  refine ⟨h.toMarking.turn (markingTurn_of_turn hturn), ?_, ?_⟩
  all_goals obtain ⟨k, queue, hqueue, rfl⟩ := turn_eq_some hturn
  · intro j l hj
    rw [toSearch_foldl_find, Search.mem_seen_foldl_find]
    rcases mem_next_back_foldl_find.1 hj with hj | ⟨rfl, hl⟩
    · exact ⟨.inl (h.sound j l hj).1, (h.sound j l hj).2⟩
    · exact ⟨.inl (h.queue_seen j (hqueue ▸ List.mem_cons_self)), hl⟩
  · intro j hj
    simp only [toSearch_foldl_find, mem_next_back_foldl_find]
    rw [toSearch_foldl_find] at hj
    rcases Search.waits_or_done hqueue h.noted hj with hwaits | rfl | hnoted
    · exact .inl hwaits
    · exact .inr fun l hl => .inr ⟨rfl, hl⟩
    · exact .inr fun l hl => .inl (hnoted l hl)

theorem exists_after (arcs : Arcs) (starts : SortedSet Key) : ∃ n back,
    After (turn arcs) ⟨⟨starts.toList, starts⟩, ∅⟩ n ⟨⟨[], arcs.reachable starts.toList⟩, back⟩ ∧
      ∀ k l, k ∈ back.next l ↔ k ∈ arcs.reachable starts.toList ∧ l ∈ arcs.next k := by
  have hspends : After.Spends (turn arcs) (Noting arcs starts) fun s => s.toSearch.unfound arcs :=
    fun _ _ h hturn => ⟨h.turn hturn, unfound_markingTurn_lt (markingTurn_of_turn hturn)⟩
  obtain ⟨n, ⟨⟨queue, seen⟩, back⟩, hlast, hend, -⟩ := hspends.exists_last (.start arcs starts)
  obtain rfl : queue = [] :=
    queue_of_markingTurn_eq_none ((markingTurn_toSearch arcs _).trans (congrArg _ hend))
  have hinv : Noting arcs starts ⟨⟨[], seen⟩, back⟩ :=
    hlast.keeps (fun _ _ h hturn => h.turn hturn) (Noting.start arcs starts)
  obtain rfl : seen = arcs.reachable starts.toList := hinv.seen_eq rfl
  refine ⟨n, back, hlast, fun k l => ⟨hinv.sound k l, ?_⟩⟩
  rintro ⟨hk, hl⟩
  exact (hinv.noted k hk).resolve_left List.not_mem_nil l hl

end Sweep

end Arcs

namespace EdgeTable

/-- The modules on the way from a start to a target are those that are marked when a first search
notes from where it found each module, and a second one goes back from the targets along what was
noted. -/
theorem exists_after_useful (t : EdgeTable) (starts targets : SortedSet Key) :
    ∃ reached back m n,
      After (Arcs.Sweep.turn t.arcs) ⟨⟨starts.toList, starts⟩, ∅⟩ m ⟨⟨[], reached⟩, back⟩ ∧
      After back.markingTurn ⟨(targets.filter (· ∈ reached)).toList, targets.filter (· ∈ reached)⟩ n
        ⟨[], t.useful starts targets⟩ := by
  obtain ⟨m, back, hm, hback⟩ := Arcs.Sweep.exists_after t.arcs starts
  have hsame : ∀ k l, l ∈ back.next k ↔
      l ∈ (t.back (t.arcs.reachable starts.toList)).next k := by
    intro k l
    rw [hback, mem_next_back, mem_next_arcs]
    constructor
    · rintro ⟨hl, hstep⟩
      exact ⟨mem_reachable_of_leads hl hstep.leads, hl, hstep⟩
    · exact And.right
  obtain ⟨n, hn⟩ := back.exists_after_marking
    (targets.filter (· ∈ t.arcs.reachable starts.toList))
  rw [Arcs.reachable_congr hsame, ← useful_eq] at hn
  exact ⟨_, back, m, n, hm, hn⟩

end EdgeTable

end ModuleGraph
