import ModuleGraph.Proofs.Listing

/-!
# Reading a tree off its listing

In a listing the parent of an entry is the nearest entry before it that stands one level higher.
Going from parent to parent gives the entries above an entry, up to a root. In the listing of a
root these are the items on the walk to it, and every one of them opens.
-/
namespace ModuleGraph

namespace Tree

/-- The entries above a depth, the nearest first, among those before it, the last one first. -/
def above : ℕ → List Entry → List Entry
  | 0, _ => []
  | _ + 1, [] => []
  | d + 1, x :: before => if x.depth = d then x :: above d before else above (d + 1) before

/-- The modules from the root down to an entry, which stands behind the entries `before`. -/
def chain (before : List Entry) (x : Entry) : List Key :=
  ((x :: above x.depth before.reverse).map Entry.key).reverse

def linksFrom (before : List Entry) : List Entry → List (Entry × Entry)
  | [] => []
  | x :: rest => ((above x.depth before).head?.map (·, x)).toList ++ linksFrom (x :: before) rest

def links (t : Tree) : List (Entry × Entry) := linksFrom [] t.entries

theorem above_append {d : ℕ} {between before : List Entry} (h : ∀ x ∈ between, x.depth ≠ d) :
    above (d + 1) (between ++ before) = above (d + 1) before := by
  induction between with
  | nil => rfl
  | cons x between ih =>
    rw [List.cons_append, above, if_neg (h x List.mem_cons_self)]
    exact ih fun y hy => h y (List.mem_cons_of_mem x hy)

end Tree

namespace EdgeTable

variable {t : EdgeTable} {depth : ℕ} {root : Key} {items before after : List Item} {x y : Item}

namespace Listing

variable (h : t.TreeListing depth root items)

include h

omit h in
theorem mem_of_before {stack : List Arrival} {expanded : SortedSet Key}
    (h : t.Listing depth root stack expanded items) (hsplit : items = before ++ x :: after)
    (hy : y ∈ items) (hlt : Before y.path.nodes x.path.nodes) : y ∈ before := by
  have hord := h.ordered
  rw [hsplit] at hord hy
  rcases List.mem_append.1 hy with hy | hy
  · exact hy
  · rcases List.mem_cons.1 hy with rfl | hy
    · exact absurd hlt (Before.irrefl _)
    · exact absurd ((List.pairwise_cons.1 (List.pairwise_append.1 hord).2.1).1 y hy) hlt.asymm

/-- Between an item that opens and one below it stand only items deeper than the first. -/
theorem above_of_onward (hsplit : items = before ++ x :: after) (hy : y ∈ items) {e : Edge}
    (hpath : x.path = y.path.extend e) :
    ∃ front back, before = front ++ y :: back ∧
      Tree.above x.entry.depth (before.map Item.entry).reverse =
        y.entry :: Tree.above y.entry.depth (front.map Item.entry).reverse := by
  have hord := h.ordered
  rw [hsplit] at hord
  have hyx : Before y.path.nodes x.path.nodes := by
    rw [hpath]
    exact .extension _ _
  obtain ⟨front, back, rfl⟩ := List.append_of_mem (h.mem_of_before hsplit hy hyx)
  refine ⟨front, back, rfl, ?_⟩
  have hdepth : x.entry.depth = y.entry.depth + 1 := by
    simp [Item.entry, hpath]
  have hdeeper : ∀ z ∈ (back.map Item.entry).reverse, z.depth ≠ y.entry.depth := by
    intro z hz
    obtain ⟨w, hw, rfl⟩ := List.mem_map.1 (List.mem_reverse.1 hz)
    rw [List.append_assoc] at hord
    have hyw : Before y.path.nodes w.path.nodes :=
      (List.pairwise_cons.1 (List.pairwise_append.1 hord).2.1).1 w (List.mem_append_left _ hw)
    have hwx : Before w.path.nodes x.path.nodes :=
      (List.pairwise_append.1 (List.pairwise_cons.1 (List.pairwise_append.1 hord).2.1).2).2.2
        w hw x List.mem_cons_self
    have hp : y.path.nodes <+: w.path.nodes := by
      rw [hpath] at hwx
      exact hyw.isPrefix_of_between hwx
    have hne : y.path.nodes.length ≠ w.path.nodes.length := fun heq =>
      Before.irrefl _ (hp.eq_of_length heq ▸ hyw)
    have hyl := (h.walk y hy).1.length_nodes
    have hwl := (h.walk w (by rw [hsplit]; simp [hw])).1.length_nodes
    change w.path.causes.length ≠ y.path.causes.length
    omega
  rw [hdepth, List.map_append, List.map_cons, List.reverse_append, List.reverse_cons,
    List.append_assoc, Tree.above_append hdeeper]
  simp [Tree.above]

theorem chain_eq_nodes (hsplit : items = before ++ x :: after) :
    Tree.chain (before.map Item.entry) x.entry = x.path.nodes := by
  induction hn : before.length using Nat.strong_induction_on generalizing before x after with
  | _ n ih =>
  have hx : x ∈ items := by
    rw [hsplit]
    exact List.mem_append_right _ List.mem_cons_self
  rcases h.eq_root_or_onward hx with ⟨hkey, hpath⟩ | ⟨y, hy, -, e, -, hkey, hpath⟩
  · simp [Tree.chain, Item.entry, hpath, hkey, Tree.above]
  · obtain ⟨front, back, hfront, habove⟩ := h.above_of_onward hsplit hy hpath
    have hshorter : front.length < n := by
      rw [← hn, hfront, List.length_append, List.length_cons]
      omega
    have hsplit' : items = front ++ y :: (back ++ x :: after) := by
      rw [hsplit, hfront, List.append_assoc, List.cons_append]
    have hparent : Tree.chain (front.map Item.entry) y.entry = y.path.nodes :=
      ih front.length hshorter hsplit' rfl
    rw [hpath, Path.nodes_extend, ← hkey, ← hparent, Tree.chain, habove, List.map_cons,
      List.reverse_cons]
    rfl

theorem exists_links (hsplit : items = before ++ after)
    (hafter : ∀ x ∈ after, x.path ≠ .single root) :
    ∃ links : List (Item × Item),
      Tree.linksFrom (before.map Item.entry).reverse (after.map Item.entry) =
        links.map (Prod.map Item.entry Item.entry) ∧
      links.map Prod.snd = after ∧
      ∀ l ∈ links, l.1 ∈ items ∧ l.1.Opens depth ∧
        ∃ e ∈ t.edges l.1.key, l.2.key = e.target ∧ l.2.path = l.1.path.extend e := by
  induction after generalizing before with
  | nil => exact ⟨[], rfl, rfl, by simp⟩
  | cons x after ih =>
    have hx : x ∈ items := by
      rw [hsplit]
      exact List.mem_append_right _ List.mem_cons_self
    have hnext : items = (before ++ [x]) ++ after := by
      rw [hsplit, List.append_assoc, List.singleton_append]
    obtain ⟨links, hlinks, hsnd, hall⟩ := ih hnext fun z hz => hafter z (List.mem_cons_of_mem x hz)
    rcases h.eq_root_or_onward hx with ⟨-, hroot⟩ | ⟨y, hy, hopen, e, he, hkey, hpath⟩
    · exact absurd hroot (hafter x List.mem_cons_self)
    · obtain ⟨front, back, -, habove⟩ := h.above_of_onward hsplit hy hpath
      refine ⟨(y, x) :: links, ?_, by rw [List.map_cons, hsnd], ?_⟩
      · rw [List.map_append, List.reverse_append] at hlinks
        rw [List.map_cons, Tree.linksFrom, habove, List.map_cons]
        simp only [List.head?_cons, Option.map_some, Option.toList_some, List.singleton_append]
        exact congrArg _ hlinks
      · intro l hl
        rcases List.mem_cons.1 hl with rfl | hl
        · exact ⟨hy, hopen, e, he, hkey, hpath⟩
        · exact hall l hl

theorem exists_cons (hdepth : 1 ≤ depth) : ∃ x after, items = x :: after ∧
    x.path = .single root ∧ ∀ y ∈ after, y.path ≠ .single root := by
  obtain ⟨x, hx, -, hroot⟩ := h.exists_root hdepth
  have hord := h.ordered
  obtain ⟨before, after, rfl⟩ := List.append_of_mem hx
  cases before with
  | nil =>
    refine ⟨x, after, rfl, hroot, fun y hy hyroot => ?_⟩
    have hlt := (List.pairwise_cons.1 hord).1 y hy
    rw [hroot, hyroot] at hlt
    exact hlt.irrefl _
  | cons y before =>
    have hlt := (List.pairwise_cons.1 hord).1 x (List.mem_append_right _ List.mem_cons_self)
    obtain ⟨ks, hks⟩ := (h.walk y List.mem_cons_self).1.exists_nodes
    rw [hroot, hks] at hlt
    cases hlt with
    | rel hlt => simp at hlt
    | cons hlt => cases hlt

end Listing

end EdgeTable

end ModuleGraph
