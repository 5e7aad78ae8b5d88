import ModuleGraph.Proofs.Snapshot
import ModuleGraph.Proofs.TreeShape

/-!
# A tree that the depth does not cut

When every walk from the root has room below it, each module that the root leads to opens once, at
its first occurrence. The walk to that occurrence is the least of all walks to the module: the
least walk to its parent, taken one step further, is an occurrence too.
-/
namespace ModuleGraph

namespace EdgeTable

variable {t : EdgeTable} {depth : ℕ} {root : Key} {items before after : List Item} {x y : Item}

namespace Listing

variable (h : t.TreeListing depth root items)
  (hroom : ∀ k p, t.Walk root k p → p.length < depth)

include h hroom

theorem opens_iff (hx : x ∈ items) : x.Opens depth ↔ x.referenceOnly = false :=
  ⟨And.left, fun href => ⟨href, hroom _ _ (h.walk x hx).1⟩⟩

theorem exists_opens_of_leads {k : Key} (hk : t.Leads root k) :
    ∃ x ∈ items, x.Opens depth ∧ x.key = k := by
  obtain ⟨p, hp⟩ := hk
  refine hp.snoc_induction (motive := fun k _ => ∃ x ∈ items, x.Opens depth ∧ x.key = k) ?_ ?_
  · have hdepth : 1 < depth := hroom root _ (.single root)
    obtain ⟨x, hx, hkey, -⟩ := h.exists_root hdepth.le
    obtain ⟨y, hy, hopen, hk, -⟩ := h.exists_opens hx (hroom _ _ (h.walk x hx).1)
    exact ⟨y, hy, hopen, hk.trans hkey⟩
  · rintro k q e he - ⟨x, hx, hopen, rfl⟩
    obtain ⟨y, hy, hkey, -⟩ := h.exists_onward hx hopen he
    obtain ⟨z, hz, hzo, hk, -⟩ := h.exists_opens hy (hroom _ _ (h.walk y hy).1)
    exact ⟨z, hz, hzo, hk.trans hkey⟩

theorem mem_keys_iff {k : Key} :
    k ∈ (items.map Item.entry).map Entry.key ↔ t.Leads root k := by
  rw [List.map_map, List.mem_map]
  constructor
  · rintro ⟨x, hx, rfl⟩
    exact ⟨_, (h.walk x hx).1⟩
  · intro hk
    obtain ⟨x, hx, -, rfl⟩ := h.exists_opens_of_leads hroom hk
    exact ⟨x, hx, rfl⟩

/-- Where a module opens the walk to it is the least. -/
theorem nodes_least (ht : t.Acyclic) (hx : x ∈ items) (hopen : x.Opens depth) {q : Path}
    (hq : t.Walk root x.key q) :
    x.path.nodes = q.nodes ∨ Before x.path.nodes q.nodes := by
  refine hq.snoc_induction (motive := fun k q => ∀ x ∈ items, x.Opens depth → x.key = k →
    x.path.nodes = q.nodes ∨ Before x.path.nodes q.nodes) ?_ ?_ x hx hopen rfl
  · intro x hx hopen hk
    have hdepth : 1 < depth := hroom root _ (.single root)
    obtain ⟨y, hy, hkey, hpath⟩ := h.exists_root hdepth.le
    have hyx := hkey.trans hk.symm
    rcases h.eq_or_before_of_opens hx hopen hy hyx (hroom _ _ (h.walk y hy).1) with rfl | hlt
    · exact .inl (by rw [hpath])
    · exact .inr (hpath ▸ hlt)
  · intro k q e he hq ih x hx hopen hk
    obtain ⟨y, hy, hyo, rfl⟩ := h.exists_opens_of_leads hroom ⟨q, hq⟩
    obtain ⟨z, hz, hkey, hpath⟩ := h.exists_onward hy hyo he
    have hzx := hkey.trans hk.symm
    have hzq : z.path.nodes = (q.extend e).nodes ∨ Before z.path.nodes (q.extend e).nodes := by
      rw [hpath, Path.nodes_extend, Path.nodes_extend]
      rcases ih y hy hyo rfl with heq | hlt
      · exact .inl (by rw [heq])
      · refine .inr (hlt.append (fun hp => ?_) _ _)
        exact Before.irrefl _ ((h.walk y hy).1.nodes_eq_of_isPrefix ht hq hp ▸ hlt)
    rcases h.eq_or_before_of_opens hx hopen hz hzx (hroom _ _ (h.walk z hz).1) with rfl | hlt
    · exact hzq
    · rcases hzq with heq | hzq
      · exact .inr (heq ▸ hlt)
      · exact .inr (hlt.trans hzq)

theorem referenceOnly_iff (hsplit : items = before ++ x :: after) :
    x.referenceOnly = false ↔ ∀ y ∈ before, y.key ≠ x.key := by
  have hx : x ∈ items := by
    rw [hsplit]
    exact List.mem_append_right _ List.mem_cons_self
  constructor
  · intro href y hy hk
    have hyi : y ∈ items := by
      rw [hsplit]
      exact List.mem_append_left _ hy
    have hord := h.ordered
    rw [hsplit] at hord
    have hyx := (List.pairwise_append.1 hord).2.2 y hy x List.mem_cons_self
    have hopen := (h.opens_iff hroom hx).2 href
    rcases h.eq_or_before_of_opens hx hopen hyi hk (hroom _ _ (h.walk y hyi).1) with rfl | hxy
    · exact hyx.irrefl _
    · exact hyx.asymm hxy
  · intro hfirst
    by_contra href
    rw [Bool.not_eq_false, h.reference x hx] at href
    obtain ⟨y, hy, -, hk, hlt⟩ := href.resolve_left (SortedSet.not_mem_empty _)
    exact hfirst y (h.mem_of_before hsplit hy hlt) hk

end Listing

def linkEdge (l : Item × Item) : Key × Key × Option Cause :=
  (l.1.key, l.2.key, l.2.entry.cause)

/-- The links of a listing: each item but the root with the one that opens above it. -/
structure Linked (t : EdgeTable) (depth : ℕ) (root : Key) (items : List Item)
    (links : List (Item × Item)) : Prop where
  links_eq : (Tree.mk (items.map Item.entry)).links = links.map (Prod.map Item.entry Item.entry)
  length_eq : items.length = links.length + 1
  nodup : links.Nodup
  ends_mem : ∀ l ∈ links, l.1 ∈ items ∧ l.2 ∈ items
  opens : ∀ l ∈ links, l.1.Opens depth
  onward : ∀ l ∈ links, ∃ e ∈ t.edges l.1.key, l.2.key = e.target ∧ l.2.path = l.1.path.extend e
  exists_link : ∀ x ∈ items, x.path ≠ .single root → ∃ l ∈ links, l.2 = x

theorem Listing.exists_linked (h : t.TreeListing depth root items) (hdepth : 1 ≤ depth) :
    ∃ links, t.Linked depth root items links := by
  obtain ⟨x, after, hsplit, hroot, hafter⟩ := h.exists_cons hdepth
  have hsplit' : items = [x] ++ after := hsplit
  obtain ⟨links, hlinks, hsnd, hall⟩ := h.exists_links hsplit' hafter
  have hd : after.Nodup := by
    have hord := h.ordered
    rw [hsplit] at hord
    refine (List.pairwise_cons.1 hord).2.imp fun hlt heq => ?_
    exact Before.irrefl _ (heq ▸ hlt)
  have hmem : ∀ l ∈ links, l.2 ∈ after := fun l hl => hsnd ▸ List.mem_map_of_mem hl
  refine ⟨links, ?_, ?_, .of_map Prod.snd (hsnd ▸ hd), fun l hl => ⟨(hall l hl).1, ?_⟩,
    fun l hl => (hall l hl).2.1, fun l hl => (hall l hl).2.2, fun y hy hne => ?_⟩
  · have hzero : x.entry.depth = 0 := by
      simp [Item.entry, hroot]
    rw [Tree.links, hsplit, List.map_cons, Tree.linksFrom, hzero]
    exact hlinks
  · rw [hsplit, ← hsnd, List.length_cons, List.length_map]
  · exact hsplit ▸ List.mem_cons_of_mem x (hmem l hl)
  · rw [hsplit] at hy
    rcases List.mem_cons.1 hy with rfl | hy
    · exact absurd hroot hne
    · rw [← hsnd] at hy
      exact List.mem_map.1 hy

namespace Linked

variable {links : List (Item × Item)} {l m : Item × Item}

theorem linkEdge_eq {e : Edge} (hkey : l.2.key = e.target) (hpath : l.2.path = l.1.path.extend e) :
    linkEdge l = (l.1.key, e.target, some e.cause) := by
  simp [linkEdge, Item.entry, hkey, hpath]

theorem eq_of_linkEdge (hlinked : t.Linked depth root items links)
    (h : t.TreeListing depth root items) (ht : t.Ordered) (hl : l ∈ links) (hm : m ∈ links)
    (heq : linkEdge l = linkEdge m) : l = m := by
  obtain ⟨hl1, hl2⟩ := hlinked.ends_mem l hl
  obtain ⟨hm1, hm2⟩ := hlinked.ends_mem m hm
  obtain ⟨e, he, hlk, hlp⟩ := hlinked.onward l hl
  obtain ⟨f, hf, hmk, hmp⟩ := hlinked.onward m hm
  rw [linkEdge_eq hlk hlp, linkEdge_eq hmk hmp] at heq
  simp only [Prod.mk.injEq] at heq
  obtain ⟨hk, htarget, -⟩ := heq
  have hfirst : l.1 = m.1 := h.eq_of_opens hl1 hm1 (hlinked.opens l hl) (hlinked.opens m hm) hk
  obtain rfl : e = f := ht.eq_of_target he (hk ▸ hf) htarget
  have hsecond : l.2 = m.2 := by
    apply h.eq_of_nodes hl2 hm2
    rw [hlp, hmp, hfirst]
  exact Prod.ext hfirst hsecond

theorem nodup_linkEdge (hlinked : t.Linked depth root items links)
    (h : t.TreeListing depth root items) (ht : t.Ordered) : (links.map linkEdge).Nodup :=
  hlinked.nodup.map_on fun _ hl _ hm heq => hlinked.eq_of_linkEdge h ht hl hm heq

theorem mem_linkEdge_iff (hlinked : t.Linked depth root items links)
    (h : t.TreeListing depth root items) (hroom : ∀ k p, t.Walk root k p → p.length < depth)
    (ht : t.Ordered) (u v : Key) (c : Option Cause) :
    (u, v, c) ∈ links.map linkEdge ↔
      t.Leads root u ∧ ∃ e ∈ t.edges u, e.target = v ∧ c = some e.cause := by
  rw [List.mem_map]
  constructor
  · rintro ⟨l, hl, heq⟩
    obtain ⟨hl1, -⟩ := hlinked.ends_mem l hl
    obtain ⟨e, he, hkey, hpath⟩ := hlinked.onward l hl
    rw [linkEdge_eq hkey hpath] at heq
    simp only [Prod.mk.injEq] at heq
    obtain ⟨rfl, rfl, rfl⟩ := heq
    exact ⟨⟨_, (h.walk l.1 hl1).1⟩, e, he, rfl, rfl⟩
  · rintro ⟨hu, e, he, rfl, rfl⟩
    obtain ⟨x, hx, hopen, rfl⟩ := h.exists_opens_of_leads hroom hu
    obtain ⟨y, hy, -, hpath⟩ := h.exists_onward hx hopen he
    have hne : y.path ≠ .single root := by
      intro hroot
      have hpos : 0 < x.path.nodes.length := List.length_pos_of_mem (h.walk x hx).1.head_mem
      have hlen := congrArg (fun p => p.nodes.length) (hpath.symm.trans hroot)
      simp only [Path.nodes_extend, Path.nodes_single, List.length_append,
        List.length_singleton] at hlen
      omega
    obtain ⟨l, hl, rfl⟩ := hlinked.exists_link y hy hne
    obtain ⟨hl1, -⟩ := hlinked.ends_mem l hl
    obtain ⟨f, hf, hkey, hlpath⟩ := hlinked.onward l hl
    have hextend : l.1.path.extend f = x.path.extend e := hlpath.symm.trans hpath
    obtain ⟨hnodes, htarget⟩ := List.append_inj' (congrArg Path.nodes hextend) rfl
    obtain rfl := h.eq_of_nodes hl1 hx hnodes
    obtain rfl := ht.eq_of_target hf he (List.singleton_inj.1 htarget)
    exact ⟨l, hl, linkEdge_eq hkey hlpath⟩

end Linked

end EdgeTable

namespace Survey

/-- In a tree that the depth does not cut, every module that the root leads to is listed. It opens
once, at its first occurrence, to which the least walk leads; there its edges are listed, each as
the link of a parent and a child, and there is nothing else in the tree. -/
theorem tree_uncut (s : Snapshot) (hs : s.Accepted) (f : Filter) (limits : Limits) (root : Key)
    (depth : ℕ) (hdepth : s.graph.size < depth) :
    let survey : Survey := ⟨s, f, limits, false⟩
    ∃ tree, (survey.tree [root] depth).result = .ok tree ∧
      (∀ k, k ∈ tree.entries.map Entry.key ↔ survey.table.Leads root k) ∧
      (∀ before x after, tree.entries = before ++ x :: after →
        (x.referenceOnly = false ↔ ∀ y ∈ before, y.key ≠ x.key) ∧
        (x.referenceOnly = false → ∃ p, survey.table.Walk root x.key p ∧
          Tree.chain before x = p.nodes ∧
          ∀ q, survey.table.Walk root x.key q → p = q ∨ Before p.nodes q.nodes)) ∧
      (∀ l ∈ tree.links, l.1.referenceOnly = false) ∧
      (tree.links.map fun l => (l.1.key, l.2.key, l.2.cause)).Nodup ∧
      (∀ u v c, (u, v, c) ∈ (tree.links.map fun l => (l.1.key, l.2.key, l.2.cause)) ↔
        survey.table.Leads root u ∧
          ∃ e ∈ survey.table.edges u, e.target = v ∧ c = some e.cause) ∧
      tree.entries.length = tree.links.length + 1 := by
  intro survey
  have hac : survey.table.Acyclic := hs.acyclic f
  have hord : survey.table.Ordered := EdgeTable.ordered_ofGraph _ _
  have hroom : ∀ k p, survey.table.Walk root k p → p.length < depth := fun k p hp =>
    (hs.length_le_size f hp).trans_lt hdepth
  obtain ⟨items, hitems, h⟩ := EdgeTable.exists_treeListing hord depth root
  obtain ⟨links, hlinked⟩ := h.exists_linked (by omega)
  have hmap : ((links.map (Prod.map Item.entry Item.entry)).map
      fun l => (l.1.key, l.2.key, l.2.cause)) = links.map EdgeTable.linkEdge := by
    rw [List.map_map]
    rfl
  refine ⟨⟨items.map Item.entry⟩, ?_, fun k => ?_, ?_, ?_, ?_, ?_, ?_⟩
  · change Except.ok (survey.table.tree [root] depth) = _
    rw [EdgeTable.tree_singleton, hitems]
  · rw [List.map_map, List.mem_map]
    constructor
    · rintro ⟨x, hx, rfl⟩
      exact ⟨_, (h.walk x hx).1⟩
    · intro hk
      obtain ⟨x, hx, -, rfl⟩ := h.exists_opens_of_leads hroom hk
      exact ⟨x, hx, rfl⟩
  · intro before x after hsplit
    obtain ⟨front, rest, hsplit', rfl, hrest⟩ := List.map_eq_append_iff.1 hsplit
    obtain ⟨y, back, rfl, rfl, rfl⟩ := List.map_eq_cons_iff.1 hrest
    have hy : y ∈ items := by
      rw [hsplit']
      exact List.mem_append_right _ List.mem_cons_self
    refine ⟨?_, fun href => ?_⟩
    · rw [List.forall_mem_map]
      exact h.referenceOnly_iff hroom hsplit'
    · refine ⟨y.path, (h.walk y hy).1, h.chain_eq_nodes hsplit', fun q hq => ?_⟩
      have hopen := (h.opens_iff hroom hy).2 href
      refine (h.nodes_least hroom hac hy hopen hq).imp_left fun heq => ?_
      exact (h.walk y hy).1.eq_of_nodes hord hq heq
  · rw [hlinked.links_eq]
    intro l hl
    obtain ⟨m, hm, rfl⟩ := List.mem_map.1 hl
    exact (hlinked.opens m hm).1
  · rw [hlinked.links_eq, hmap]
    exact hlinked.nodup_linkEdge h hord
  · rw [hlinked.links_eq, hmap]
    exact hlinked.mem_linkEdge_iff h hroom hord
  · rw [hlinked.links_eq, List.length_map, List.length_map]
    exact hlinked.length_eq

/-- The tree of a triangle, which a depth of four does not cut. The least walk to `b` leads to its
first occurrence; the second one only refers to it. -/
theorem tree_triangle : Snapshot.triangle.Accepted ∧ Snapshot.triangle.graph.size < 4 ∧
    let survey : Survey := ⟨Snapshot.triangle, .complete, .default, false⟩
    ∃ tree p, (survey.tree [.root] 4).result = .ok tree ∧
      tree.entries.map (fun x => (x.key, x.referenceOnly)) =
        [(.root, false), (⟨"a", "1"⟩, false), (⟨"b", "1"⟩, false), (⟨"b", "1"⟩, true)] ∧
      tree.links.map (fun l => (l.1.key, l.2.key, l.2.cause)) =
        [(.root, ⟨"a", "1"⟩, some .direct), (⟨"a", "1"⟩, ⟨"b", "1"⟩, some .direct),
          (.root, ⟨"b", "1"⟩, some .direct)] ∧
      tree.entries.length = tree.links.length + 1 ∧
      survey.table.Walk .root ⟨"b", "1"⟩ p ∧ p.nodes = [.root, ⟨"a", "1"⟩, ⟨"b", "1"⟩] ∧
      ∀ q, survey.table.Walk .root ⟨"b", "1"⟩ q → p = q ∨ Before p.nodes q.nodes := by
  have hsize : Snapshot.triangle.graph.size < 4 := by decide
  have htree : (Survey.tree ⟨Snapshot.triangle, .complete, .default, false⟩ [.root] 4).result =
      .ok ⟨[⟨.root, 0, false, none⟩, ⟨⟨"a", "1"⟩, 1, false, some .direct⟩,
        ⟨⟨"b", "1"⟩, 2, false, some .direct⟩, ⟨⟨"b", "1"⟩, 1, true, some .direct⟩]⟩ := by cbv
  obtain ⟨tree, hok, -, hfirst, -, -, -, hlength⟩ :=
    tree_uncut Snapshot.triangle Snapshot.triangle_accepted .complete .default .root 4 hsize
  obtain rfl := Except.ok.inj (htree.symm.trans hok)
  obtain ⟨-, hleast⟩ := hfirst [⟨.root, 0, false, none⟩, ⟨⟨"a", "1"⟩, 1, false, some .direct⟩]
    ⟨⟨"b", "1"⟩, 2, false, some .direct⟩ [⟨⟨"b", "1"⟩, 1, true, some .direct⟩] rfl
  obtain ⟨p, hp, hchain, hbefore⟩ := hleast rfl
  exact ⟨Snapshot.triangle_accepted, hsize, _, p, hok, rfl, rfl, hlength, hp, hchain.symm, hbefore⟩

end Survey

end ModuleGraph
