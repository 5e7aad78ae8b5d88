import ModuleGraph.Proofs.Listing
import ModuleGraph.Proofs.Snapshot

/-!
# A tree that the depth cuts

What is below a module is listed where the module opens, which is at its first occurrence with
room below it, and not at a later one even if that stands higher and has more room. So a module
can be missing from a tree although a walk of few enough modules leads to it.

`IsOpening` tells where modules open from the edges alone: a module opens at the least of the walks
that stay within the depth and go through places where the modules before it open. There is one
such choice, and the modules listed are the root and those one edge away from a module that opens.
-/
namespace ModuleGraph

namespace EdgeTable

variable {t : EdgeTable} {depth : ℕ} {root k : Key} {w : List Key} {items : List Item}
  {o o' : Key → Option (List Key)}

/-- A walk with room below it, to the root or one edge on from where a module opens. -/
def Candidate (t : EdgeTable) (depth : ℕ) (root : Key) (opening : Key → Option (List Key))
    (k : Key) (w : List Key) : Prop :=
  w.length < depth ∧
    (k = root ∧ w = [root] ∨ ∃ j v, opening j = some v ∧ t.Step j k ∧ w = v ++ [k])

/-- Every module opens at the least of its candidates, if it has one. -/
def IsOpening (t : EdgeTable) (depth : ℕ) (root : Key) (opening : Key → Option (List Key)) :
    Prop :=
  ∀ k w, opening k = some w ↔ t.Candidate depth root opening k w ∧
    ∀ v, t.Candidate depth root opening k v → w = v ∨ Before w v

theorem Candidate.congr (h : ∀ j, t.Step j k → o j = o' j) (hw : t.Candidate depth root o k w) :
    t.Candidate depth root o' k w := by
  obtain ⟨hlen, hroot | ⟨j, v, hj, hstep, hv⟩⟩ := hw
  · exact ⟨hlen, .inl hroot⟩
  · exact ⟨hlen, .inr ⟨j, v, h j hstep ▸ hj, hstep, hv⟩⟩

theorem IsOpening.unique (ht : t.Acyclic) (h : t.IsOpening depth root o)
    (h' : t.IsOpening depth root o') : o = o' := by
  funext k
  induction k using ht.wellFounded_parents.induction with
  | _ k ih =>
  have hiff : ∀ w, t.Candidate depth root o k w ↔ t.Candidate depth root o' k w :=
    fun w => ⟨.congr ih, .congr fun j hj => (ih j hj).symm⟩
  refine Option.ext fun w => ?_
  rw [h k w, h' k w, hiff w]
  simp only [hiff]

namespace Listing

def openings (depth : ℕ) (items : List Item) (k : Key) : Option (List Key) :=
  (items.find? fun x => x.key = k ∧ x.referenceOnly = false ∧ x.path.length < depth).map
    (·.path.nodes)

variable (h : t.TreeListing depth root items)

include h

theorem openings_eq_some_iff : openings depth items k = some w ↔
    ∃ x ∈ items, x.Opens depth ∧ x.key = k ∧ x.path.nodes = w := by
  rw [openings, Option.map_eq_some_iff]
  constructor
  · rintro ⟨x, hfind, hw⟩
    have hx := List.find?_some hfind
    simp only [decide_eq_true_eq] at hx
    exact ⟨x, List.mem_of_find?_eq_some hfind, hx.2, hx.1, hw⟩
  · rintro ⟨x, hx, hopen, hk, hw⟩
    cases hfind : items.find? fun x =>
        x.key = k ∧ x.referenceOnly = false ∧ x.path.length < depth with
    | none =>
      have hnone := List.find?_eq_none.1 hfind x hx
      simp only [decide_eq_true_eq] at hnone
      exact absurd ⟨hk, hopen⟩ hnone
    | some y =>
      have hy := List.find?_some hfind
      simp only [decide_eq_true_eq] at hy
      obtain rfl : y = x := h.eq_of_opens (List.mem_of_find?_eq_some hfind) hx hy.2 hopen
        (hy.1.trans hk.symm)
      exact ⟨y, rfl, hw⟩

/-- The candidates of a module are its occurrences with room below them. -/
theorem candidate_iff (hdepth : 1 ≤ depth) :
    t.Candidate depth root (openings depth items) k w ↔
      ∃ x ∈ items, x.key = k ∧ x.path.nodes = w ∧ x.path.length < depth := by
  constructor
  · rintro ⟨hlen, ⟨rfl, rfl⟩ | ⟨j, v, hj, ⟨e, he, rfl⟩, rfl⟩⟩
    · obtain ⟨x, hx, hkey, hpath⟩ := h.exists_root hdepth
      exact ⟨x, hx, hkey, by rw [hpath, Path.nodes_single], by rw [hpath]; exact hlen⟩
    · obtain ⟨x, hx, hopen, rfl, rfl⟩ := h.openings_eq_some_iff.1 hj
      obtain ⟨y, hy, hkey, hpath⟩ := h.exists_onward hx hopen he
      exact ⟨y, hy, hkey, by rw [hpath, Path.nodes_extend], by rw [hpath]; exact hlen⟩
  · rintro ⟨x, hx, rfl, rfl, hlen⟩
    refine ⟨hlen, ?_⟩
    rcases h.eq_root_or_onward hx with ⟨hkey, hpath⟩ | ⟨y, hy, hopen, e, he, hkey, hpath⟩
    · exact .inl ⟨hkey, by rw [hpath, Path.nodes_single]⟩
    · refine .inr ⟨y.key, y.path.nodes, h.openings_eq_some_iff.2 ⟨y, hy, hopen, rfl, rfl⟩, ?_, ?_⟩
      · exact ⟨e, he, hkey.symm⟩
      · rw [hpath, hkey, Path.nodes_extend]

theorem isOpening (hdepth : 1 ≤ depth) : t.IsOpening depth root (openings depth items) := by
  intro k w
  rw [h.openings_eq_some_iff, h.candidate_iff hdepth]
  constructor
  · rintro ⟨x, hx, hopen, rfl, rfl⟩
    refine ⟨⟨x, hx, rfl, rfl, hopen.2⟩, fun v hv => ?_⟩
    obtain ⟨y, hy, hk, rfl, hlen⟩ := (h.candidate_iff hdepth).1 hv
    rcases h.eq_or_before_of_opens hx hopen hy hk hlen with rfl | hlt
    · exact .inl rfl
    · exact .inr hlt
  · rintro ⟨⟨x, hx, rfl, rfl, hlen⟩, hleast⟩
    obtain ⟨y, hy, hopen, hk, hyx⟩ := h.exists_opens hx hlen
    rcases hyx with rfl | hlt
    · exact ⟨y, hy, hopen, rfl, rfl⟩
    · rcases hleast _ ((h.candidate_iff hdepth).2 ⟨y, hy, hk, rfl, hopen.2⟩) with heq | hgt
      · exact ⟨y, hy, hopen, hk, heq.symm⟩
      · exact absurd hgt hlt.asymm

theorem listed_iff (hdepth : 1 ≤ depth) : (∃ x ∈ items, x.key = k) ↔
    k = root ∨ ∃ j v, openings depth items j = some v ∧ t.Step j k := by
  constructor
  · rintro ⟨x, hx, rfl⟩
    rcases h.eq_root_or_onward hx with ⟨hkey, -⟩ | ⟨y, hy, hopen, e, he, hkey, -⟩
    · exact .inl hkey
    · exact .inr ⟨y.key, y.path.nodes, h.openings_eq_some_iff.2 ⟨y, hy, hopen, rfl, rfl⟩,
        e, he, hkey.symm⟩
  · rintro (rfl | ⟨j, v, hj, e, he, rfl⟩)
    · obtain ⟨x, hx, hkey, -⟩ := h.exists_root hdepth
      exact ⟨x, hx, hkey⟩
    · obtain ⟨x, hx, hopen, rfl, -⟩ := h.openings_eq_some_iff.1 hj
      obtain ⟨y, hy, hkey, -⟩ := h.exists_onward hx hopen he
      exact ⟨y, hy, hkey⟩

end Listing

end EdgeTable

namespace Survey

/-- Only modules within the depth are listed. One within the depth is missing exactly if it is not
the root and no module with an edge to it opens. -/
theorem tree_lists_iff (s : Snapshot) (hs : s.Accepted) (f : Filter) (limits : Limits) (root : Key)
    (depth : ℕ) (hdepth : 1 ≤ depth) :
    let survey : Survey := ⟨s, f, limits, false⟩
    ∃ tree opening, (survey.tree [root] depth).result = .ok tree ∧
      survey.table.IsOpening depth root opening ∧
      (∀ opening', survey.table.IsOpening depth root opening' → opening' = opening) ∧
      (∀ m, m ∈ tree.entries.map Entry.key →
        ∃ p, survey.table.Walk root m p ∧ p.length ≤ depth) ∧
      ∀ m, (m ∈ tree.entries.map Entry.key ↔
          ∃ p, survey.table.Walk root m p ∧ p.length ≤ depth) ↔
        ((∃ p, survey.table.Walk root m p ∧ p.length ≤ depth) →
          m = root ∨ ∃ j v, opening j = some v ∧ survey.table.Step j m) := by
  intro survey
  have hac : survey.table.Acyclic := hs.acyclic f
  have hord : survey.table.Ordered := EdgeTable.ordered_ofGraph _ _
  obtain ⟨items, hitems, h⟩ := EdgeTable.exists_treeListing hord depth root
  have hopening := h.isOpening hdepth
  have hlisted : ∀ m, m ∈ (items.map Item.entry).map Entry.key ↔ ∃ x ∈ items, x.key = m := by
    intro m
    rw [List.map_map, List.mem_map]
    rfl
  have hwalk : ∀ m, m ∈ (items.map Item.entry).map Entry.key →
      ∃ p, survey.table.Walk root m p ∧ p.length ≤ depth := by
    intro m hm
    obtain ⟨x, hx, rfl⟩ := (hlisted m).1 hm
    exact ⟨x.path, h.walk x hx⟩
  refine ⟨⟨items.map Item.entry⟩, EdgeTable.Listing.openings depth items, ?_, hopening,
    fun _ h' => h'.unique hac hopening, hwalk, fun m => ?_⟩
  · change Except.ok (survey.table.tree [root] depth) = _
    rw [EdgeTable.tree_singleton, hitems]
  · rw [← h.listed_iff hdepth, ← hlisted]
    exact ⟨Iff.mpr, fun hshort => ⟨hwalk m, hshort⟩⟩

/-- The root leads to `m` at once and, first in order, by way of `a` and `b`; behind `m` come `x`
and `y`. -/
def detour : Survey where
  snapshot := .ofDeclared (Snapshot.plain [
    (.root, [⟨"a", "1"⟩, ⟨"m", "1"⟩]), (⟨"a", "1"⟩, [⟨"b", "1"⟩]), (⟨"b", "1"⟩, [⟨"m", "1"⟩]),
    (⟨"m", "1"⟩, [⟨"x", "1"⟩]), (⟨"x", "1"⟩, [⟨"y", "1"⟩]), (⟨"y", "1"⟩, [])]) []

set_option maxRecDepth 4000 in
theorem detour_accepted : detour.snapshot.Accepted :=
  Snapshot.accepted_ofDeclared (by cbv) (by cbv)

set_option maxRecDepth 4000 in
theorem keys_tree_detour : (detour.table.tree [.root] 5).entries.map Entry.key =
    [.root, ⟨"a", "1"⟩, ⟨"b", "1"⟩, ⟨"m", "1"⟩, ⟨"x", "1"⟩, ⟨"m", "1"⟩] := by cbv

set_option maxRecDepth 4000 in
theorem exists_walk_detour : ∃ p, detour.table.Walk .root ⟨"y", "1"⟩ p ∧ p.length = 4 := by
  have hroot : detour.table.edges .root = [⟨⟨"a", "1"⟩, .direct⟩, ⟨⟨"m", "1"⟩, .direct⟩] := by cbv
  have hm : detour.table.edges ⟨"m", "1"⟩ = [⟨⟨"x", "1"⟩, .direct⟩] := by cbv
  have hx : detour.table.edges ⟨"x", "1"⟩ = [⟨⟨"y", "1"⟩, .direct⟩] := by cbv
  have hwalk := EdgeTable.Walk.single (t := detour.table) ⟨"y", "1"⟩
  have hwalk := hwalk.cons (e := ⟨_, .direct⟩) (by rw [hx]; exact List.mem_singleton_self _)
  have hwalk := hwalk.cons (e := ⟨_, .direct⟩) (by rw [hm]; exact List.mem_singleton_self _)
  have hwalk := hwalk.cons (e := ⟨_, .direct⟩) (by rw [hroot]; simp)
  exact ⟨_, hwalk, rfl⟩

/-- At depth five `x` is listed, which is one edge away from a module that opens. Walks of few
enough modules lead to `y`, but from no module that opens. -/
theorem tree_lists_detour : detour.snapshot.Accepted ∧ 1 ≤ 5 ∧
    ∃ tree opening, (detour.tree [.root] 5).result = .ok tree ∧
      detour.table.IsOpening 5 .root opening ∧
      (∀ m, m ∈ tree.entries.map Entry.key →
        ∃ p, detour.table.Walk .root m p ∧ p.length ≤ 5) ∧
      (⟨"x", "1"⟩ ∈ tree.entries.map Entry.key ∧
        ∃ j v, opening j = some v ∧ detour.table.Step j ⟨"x", "1"⟩) ∧
      ⟨"y", "1"⟩ ∉ tree.entries.map Entry.key ∧
        (∃ p, detour.table.Walk .root ⟨"y", "1"⟩ p ∧ p.length ≤ 5) ∧
        ¬ ∃ j v, opening j = some v ∧ detour.table.Step j ⟨"y", "1"⟩ := by
  have hdepth : 1 ≤ 5 := by decide
  obtain ⟨tree, opening, hok, hopening, -, hwalk, hlists⟩ :=
    tree_lists_iff detour.snapshot detour_accepted .complete .default .root 5 hdepth
  obtain rfl : detour.table.tree [.root] 5 = tree := Except.ok.inj hok
  have hx : ⟨"x", "1"⟩ ∈ (detour.table.tree [.root] 5).entries.map Entry.key := by
    rw [keys_tree_detour]
    decide
  have hy : ⟨"y", "1"⟩ ∉ (detour.table.tree [.root] 5).entries.map Entry.key := by
    rw [keys_tree_detour]
    decide
  obtain ⟨p, hp, hlength⟩ := exists_walk_detour
  have hnear : ∃ p, detour.table.Walk .root ⟨"y", "1"⟩ p ∧ p.length ≤ 5 := ⟨p, hp, by omega⟩
  refine ⟨detour_accepted, hdepth, _, opening, hok, hopening, hwalk, ⟨hx, ?_⟩, hy, hnear, ?_⟩
  · have hshort := (hlists ⟨"x", "1"⟩).1 ⟨hwalk _, fun _ => hx⟩ (hwalk _ hx)
    exact hshort.resolve_left (by decide)
  · intro hstep
    exact hy (((hlists ⟨"y", "1"⟩).2 fun _ => .inr hstep).2 hnear)

set_option maxRecDepth 4000 in
/-- At depth five `m` opens at the end of the detour, where there is no room for `y`, although `y`
is four modules away from the root and is listed at depth four. -/
theorem tree_misses_detour : detour.snapshot.Accepted ∧ ∃ four five p,
    (detour.tree [.root] 4).result = .ok four ∧ (detour.tree [.root] 5).result = .ok five ∧
    detour.table.Walk .root ⟨"y", "1"⟩ p ∧ p.length = 4 ∧
    ⟨"y", "1"⟩ ∈ four.entries.map Entry.key ∧ ⟨"y", "1"⟩ ∉ five.entries.map Entry.key := by
  have hfour : (detour.table.tree [.root] 4).entries.map Entry.key =
      [.root, ⟨"a", "1"⟩, ⟨"b", "1"⟩, ⟨"m", "1"⟩, ⟨"m", "1"⟩, ⟨"x", "1"⟩, ⟨"y", "1"⟩] := by cbv
  obtain ⟨p, hp, hlength⟩ := exists_walk_detour
  refine ⟨detour_accepted, detour.table.tree [.root] 4, detour.table.tree [.root] 5, p, rfl, rfl,
    hp, hlength, ?_, ?_⟩
  · rw [hfour]
    decide
  · rw [keys_tree_detour]
    decide

end Survey

end ModuleGraph
