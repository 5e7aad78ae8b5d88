import ModuleGraph.Proofs.Snapshot
import ModuleGraph.Proofs.TreeShape
import ModuleGraph.Query.Survey

/-!
# The recursive reading of a listing

A tree is listed from a stack: an occurrence is taken off, and what is below it goes on top. The
same listing comes from a recursion that visits a module and then its dependencies in order, where
each visit hands on the set of the modules expanded so far. The recursion descends one level at a
time, so the room below the depth limit bounds it.
-/
namespace ModuleGraph

def Entry.Opens (depth : ℕ) (x : Entry) : Prop := x.referenceOnly = false ∧ x.depth + 1 < depth

namespace EdgeTable

def visitEach (visit : Edge → SortedSet Key → List Entry × SortedSet Key) :
    List Edge → SortedSet Key → List Entry × SortedSet Key
  | [], seen => ([], seen)
  | e :: es, seen =>
    let first := visit e seen
    let rest := visitEach visit es first.2
    (first.1 ++ rest.1, rest.2)

/-- Lists a module at a level. If it is new and there is room below it, its dependencies follow. -/
def visit (t : EdgeTable) (depth : ℕ) (k : Key) (level : ℕ) (cause : Option Cause)
    (seen : SortedSet Key) : List Entry × SortedSet Key :=
  if level < depth then
    let entry : Entry := ⟨k, level, decide (k ∈ seen), cause⟩
    if k ∉ seen ∧ level + 1 < depth then
      let below := visitEach (fun e seen => visit t depth e.target (level + 1) (some e.cause) seen)
        (t.edges k) (seen.insert k)
      (entry :: below.1, below.2)
    else ([entry], seen)
  else ([], seen)
termination_by depth - level

variable {t : EdgeTable} {depth : ℕ} {root : Key}

theorem list_append_eq_visitEach {visit : Edge → SortedSet Key → List Entry × SortedSet Key}
    {place : Edge → Occurrence} (hvisit : ∀ e stack seen, t.list depth (place e :: stack) seen =
      (visit e seen).1 ++ t.list depth stack (visit e seen).2)
    (es : List Edge) (stack : List Occurrence) (seen : SortedSet Key) :
    t.list depth (es.map place ++ stack) seen =
      (visitEach visit es seen).1 ++ t.list depth stack (visitEach visit es seen).2 := by
  induction es generalizing seen with
  | nil => rfl
  | cons e es ih => simp only [List.map_cons, List.cons_append, hvisit, ih, visitEach,
      List.append_assoc]

/-- What stands on top of a stack is visited before the rest is listed. -/
theorem list_cons_eq_visit (t : EdgeTable) (depth : ℕ) (o : Occurrence) (stack : List Occurrence)
    (seen : SortedSet Key) :
    t.list depth (o :: stack) seen =
      (t.visit depth o.key o.level o.cause seen).1 ++
        t.list depth stack (t.visit depth o.key o.level o.cause seen).2 := by
  induction hroom : depth - o.level using Nat.strong_induction_on generalizing o stack seen with
  | _ room ih =>
  rw [list, visit]
  by_cases hlevel : o.level < depth
  · rw [if_neg hlevel.not_ge, if_pos hlevel]
    by_cases hold : o.key ∈ seen
    · simp [hold]
    · by_cases hdeeper : o.level + 1 < depth
      · have hvisit := fun (e : Edge) stack seen => ih (depth - (o.level + 1)) (by omega)
          ⟨e.target, o.level + 1, some e.cause⟩ stack seen rfl
        have hbelow := list_append_eq_visitEach hvisit (t.edges o.key) stack (seen.insert o.key)
        simp [hold, hdeeper, below, hbelow]
      · simp [hold, hdeeper]
  · rw [if_pos (Nat.le_of_not_lt hlevel), if_neg hlevel]
    rfl

theorem treeOf_eq_visit (t : EdgeTable) (depth : ℕ) (root : Key) :
    t.treeOf depth root = (t.visit depth root 0 none ∅).1 := by
  rw [treeOf, list_cons_eq_visit, list, List.append_nil]

variable {before after : List Entry} {x y : Entry}

theorem depth_lt_of_mem_treeOf (ht : t.Ordered) (hx : x ∈ t.treeOf depth root) :
    x.depth < depth := by
  obtain ⟨items, hitems, h⟩ := exists_treeListing ht depth root
  rw [← hitems] at hx
  obtain ⟨item, hitem, rfl⟩ := List.mem_map.1 hx
  obtain ⟨hwalk, hle⟩ := h.walk item hitem
  have hlen : item.path.length = item.path.causes.length + 1 := hwalk.length_nodes
  change item.path.causes.length < depth
  omega

theorem referenceOnly_iff (ht : t.Ordered) (hsplit : t.treeOf depth root = before ++ x :: after) :
    x.referenceOnly = true ↔ ∃ y ∈ before, y.Opens depth ∧ y.key = x.key := by
  obtain ⟨items, hitems, h⟩ := exists_treeListing ht depth root
  obtain ⟨front, rest, rfl, rfl, hrest⟩ := List.map_eq_append_iff.1 (hitems.trans hsplit)
  obtain ⟨item, back, rfl, rfl, rfl⟩ := List.map_eq_cons_iff.1 hrest
  have hopens : ∀ y ∈ front, y.entry.Opens depth ↔ y.Opens depth := by
    intro y hy
    have hlen : y.path.length = y.path.causes.length + 1 :=
      (h.walk y (List.mem_append_left _ hy)).1.length_nodes
    rw [Item.Opens, hlen]
    rfl
  change item.referenceOnly = true ↔ _
  rw [h.reference item (List.mem_append_right _ List.mem_cons_self)]
  constructor
  · rintro (hin | ⟨y, hy, hopen, hk, hlt⟩)
    · exact absurd hin (SortedSet.not_mem_empty _)
    · have hfront : y ∈ front := h.mem_of_before rfl hy hlt
      exact ⟨y.entry, List.mem_map_of_mem hfront, (hopens y hfront).2 hopen, hk⟩
  · rintro ⟨_, hy, hopen, hk⟩
    obtain ⟨y, hfront, rfl⟩ := List.mem_map.1 hy
    have hlt := (List.pairwise_append.1 h.ordered).2.2 y hfront item List.mem_cons_self
    exact .inr ⟨y, List.mem_append_left _ hfront, (hopens y hfront).1 hopen, hk, hlt⟩

theorem not_opens_of_opens (ht : t.Ordered) (hsplit : t.treeOf depth root = before ++ x :: after)
    (hopen : x.Opens depth) (hy : y ∈ before) (hk : y.key = x.key) : ¬ y.Opens depth := by
  intro hyo
  have href := (referenceOnly_iff ht hsplit).2 ⟨y, hy, hyo, hk⟩
  exact Bool.false_ne_true (hopen.1.symm.trans href)

theorem last_level_of_opens (ht : t.Ordered) (hsplit : t.treeOf depth root = before ++ x :: after)
    (hopen : x.Opens depth) (hy : y ∈ before) (hk : y.key = x.key) :
    y.referenceOnly = false ∧ y.depth + 1 = depth := by
  have hshut := fun z hz hk => not_opens_of_opens ht hsplit hopen (y := z) hz hk
  have hnew : y.referenceOnly = false := by
    obtain ⟨front, back, rfl⟩ := List.append_of_mem hy
    have hsplit' : t.treeOf depth root = front ++ y :: (back ++ x :: after) := by
      rw [hsplit, List.append_assoc, List.cons_append]
    by_contra href
    rw [Bool.not_eq_false, referenceOnly_iff ht hsplit'] at href
    obtain ⟨z, hz, hzo, hzk⟩ := href
    exact hshut z (List.mem_append_left _ hz) (hzk.trans hk) hzo
  have hlt : y.depth < depth :=
    depth_lt_of_mem_treeOf ht (hsplit ▸ List.mem_append_left _ hy)
  refine ⟨hnew, ?_⟩
  by_contra hne
  exact hshut y hy hk ⟨hnew, by omega⟩

theorem referenceOnly_of_opens (ht : t.Ordered)
    (hsplit : t.treeOf depth root = before ++ x :: after) (hopen : x.Opens depth) (hy : y ∈ after)
    (hk : y.key = x.key) : y.referenceOnly = true := by
  obtain ⟨front, back, rfl⟩ := List.append_of_mem hy
  have hsplit' : t.treeOf depth root = (before ++ x :: front) ++ y :: back := by
    rw [hsplit, List.append_assoc, List.cons_append]
  rw [referenceOnly_iff ht hsplit']
  exact ⟨x, List.mem_append_right _ List.mem_cons_self, hopen, hk.symm⟩

end EdgeTable

namespace Survey

/-- A survey's tree is what the recursion lists, over the roots in the order in which they first
stand, each with a set of its own. So under one root a module opens at most once, its references
are its entries behind that one, and before it the module is listed on the last level only. -/
theorem tree_eq_visit (s : Snapshot) (f : Filter) (limits : Limits) (roots : List Key)
    (depth : ℕ) :
    let survey : Survey := ⟨s, f, limits, false⟩
    let visited (root : Key) := (survey.table.visit depth root 0 none ∅).1
    survey.tree roots depth = .ok ⟨roots.eraseDups.flatMap visited⟩ ∧
      ∀ root before x after, visited root = before ++ x :: after →
        (x.referenceOnly = true ↔ ∃ y ∈ before, y.Opens depth ∧ y.key = x.key) ∧
        (x.Opens depth →
          (∀ y ∈ before ++ after, y.key = x.key → ¬ y.Opens depth) ∧
          (∀ y ∈ before, y.key = x.key → y.referenceOnly = false ∧ y.depth + 1 = depth) ∧
          ∀ y ∈ after, y.key = x.key → y.referenceOnly = true) := by
  intro survey visited
  have hord : survey.table.Ordered := EdgeTable.ordered_ofGraph _ _
  have hvisited : survey.table.treeOf depth = visited :=
    funext fun root => survey.table.treeOf_eq_visit depth root
  refine ⟨?_, fun root before x after hsplit => ?_⟩
  · rw [← hvisited]
    rfl
  rw [← hvisited] at hsplit
  refine ⟨EdgeTable.referenceOnly_iff hord hsplit, fun hopen => ⟨fun y hy hk => ?_, ?_, ?_⟩⟩
  · rcases List.mem_append.1 hy with hy | hy
    · exact EdgeTable.not_opens_of_opens hord hsplit hopen hy hk
    · have href := EdgeTable.referenceOnly_of_opens hord hsplit hopen hy hk
      exact fun hyo => Bool.false_ne_true (hyo.1.symm.trans href)
  · exact fun y hy hk => EdgeTable.last_level_of_opens hord hsplit hopen hy hk
  · exact fun y hy hk => EdgeTable.referenceOnly_of_opens hord hsplit hopen hy hk

/-- In a triangle the second module is met on the last level first and opens afterwards. -/
theorem tree_eq_visit_triangle : ∃ before x,
    ((EdgeTable.ofGraph Snapshot.triangle.graph .complete).visit 3 .root 0 none ∅).1 =
      before ++ [x] ∧ x = ⟨⟨"b", "1"⟩, 1, false, some .direct⟩ ∧ x.Opens 3 ∧
    ∃ y ∈ before, y.key = x.key ∧ y.referenceOnly = false ∧ y.depth + 1 = 3 := by
  let before : List Entry := [⟨.root, 0, false, none⟩, ⟨⟨"a", "1"⟩, 1, false, some .direct⟩,
    ⟨⟨"b", "1"⟩, 2, false, some .direct⟩]
  have hvisited : ((EdgeTable.ofGraph Snapshot.triangle.graph .complete).visit 3 .root 0 none ∅).1 =
      before ++ [⟨⟨"b", "1"⟩, 1, false, some .direct⟩] := by cbv
  obtain ⟨-, hopens⟩ := tree_eq_visit Snapshot.triangle .complete .default [.root] 3
  have hopen : Entry.Opens 3 ⟨⟨"b", "1"⟩, 1, false, some .direct⟩ := ⟨rfl, by decide⟩
  obtain ⟨-, hlast, -⟩ := (hopens .root before _ [] hvisited).2 hopen
  have hy : ⟨⟨"b", "1"⟩, 2, false, some .direct⟩ ∈ before := by simp [before]
  exact ⟨before, _, hvisited, rfl, hopen, _, hy, rfl, hlast _ hy rfl⟩

end Survey

end ModuleGraph
