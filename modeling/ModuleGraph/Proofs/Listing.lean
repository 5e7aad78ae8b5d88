import ModuleGraph.Proofs.Walk

namespace ModuleGraph

/-- An occurrence in a listing, with the walk from the root to it. -/
structure Item extends Arrival where
  referenceOnly : Bool

namespace Item

def entry (x : Item) : Entry :=
  ⟨x.key, x.path.causes.length, x.referenceOnly, x.path.causes.getLast?⟩

def Opens (depth : ℕ) (x : Item) : Prop := x.referenceOnly = false ∧ x.path.length < depth

end Item

def Arrival.occurrence (a : Arrival) : Occurrence :=
  ⟨a.key, a.path.causes.length, a.path.causes.getLast?⟩

namespace EdgeTable

variable {t : EdgeTable} {depth : ℕ} {root : Key} {a b : Arrival} {stack : List Arrival}
  {expanded : SortedSet Key} {items : List Item} {x y : Item}

theorem below_occurrence (t : EdgeTable) (a : Arrival) :
    t.below a.occurrence = (t.onward a).map Arrival.occurrence := by
  simp [below, onward, Arrival.occurrence]

/-- The arrivals of a stack are walks from the root; each stands before the next and its
extensions. -/
structure Stacked (t : EdgeTable) (root : Key) (stack : List Arrival) : Prop where
  walk : ∀ a ∈ stack, t.Walk root a.key a.path
  apart : stack.Pairwise fun a b => Before a.path.nodes b.path.nodes ∧
    ¬ a.path.nodes <+: b.path.nodes

structure Listing (t : EdgeTable) (depth : ℕ) (root : Key) (stack : List Arrival)
    (expanded : SortedSet Key) (items : List Item) : Prop where
  ordered : items.Pairwise fun x y => Before x.path.nodes y.path.nodes
  walk : ∀ x ∈ items, t.Walk root x.key x.path ∧ x.path.length ≤ depth
  reference : ∀ x ∈ items, x.referenceOnly = true ↔ x.key ∈ expanded ∨
    ∃ y ∈ items, y.Opens depth ∧ y.key = x.key ∧ Before y.path.nodes x.path.nodes
  start : ∀ a ∈ stack, a.path.length ≤ depth → ∃ x ∈ items, x.toArrival = a
  onward : ∀ x ∈ items, x.Opens depth → ∀ a ∈ t.onward x.toArrival, ∃ y ∈ items, y.toArrival = a
  origin : ∀ x ∈ items, x.toArrival ∈ stack ∨
    ∃ y ∈ items, y.Opens depth ∧ x.toArrival ∈ t.onward y.toArrival
  extends_stack : ∀ x ∈ items, ∃ a ∈ stack, a.path.nodes <+: x.path.nodes

theorem Stacked.tail (h : t.Stacked root (a :: stack)) : t.Stacked root stack :=
  ⟨fun b hb => h.walk b (List.mem_cons_of_mem a hb), (List.pairwise_cons.1 h.apart).2⟩

theorem Stacked.length_path (h : t.Stacked root (a :: stack)) :
    a.path.length = a.path.causes.length + 1 := (h.walk a List.mem_cons_self).length_nodes

theorem Stacked.before (h : t.Stacked root (a :: stack)) (hb : b ∈ stack ∨ b ∈ t.onward a)
    (hp : b.path.nodes <+: x.path.nodes) : Before a.path.nodes x.path.nodes := by
  obtain ⟨z, hz⟩ := hp
  rcases hb with hb | hb
  · obtain ⟨hlt, hp⟩ := (List.pairwise_cons.1 h.apart).1 b hb
    simpa [← hz] using hlt.append hp [] z
  · obtain ⟨e, -, rfl⟩ := mem_onward.1 hb
    have hlt : Before [] (e.target :: z) := .nil
    simpa [← hz] using hlt.append_left a.path.nodes

theorem Stacked.onward (h : t.Stacked root (a :: stack)) (ht : t.Ordered) :
    t.Stacked root (t.onward a ++ stack) := by
  have hw := h.walk a List.mem_cons_self
  obtain ⟨ha, hrest⟩ := List.pairwise_cons.1 h.apart
  refine ⟨fun b hb => ?_, List.pairwise_append.2 ⟨?_, hrest, fun b hb c hc => ?_⟩⟩
  · rcases List.mem_append.1 hb with hb | hb
    · obtain ⟨e, he, rfl⟩ := mem_onward.1 hb
      exact hw.snoc he
    · exact h.walk b (List.mem_cons_of_mem a hb)
  · refine List.pairwise_map.2 ((ht a.key).imp fun {e f} hef => ?_)
    have hne : e.target ≠ f.target := by
      rintro heq
      simp [heq] at hef
    simp only [Path.nodes_extend]
    exact ⟨.append_left (.rel hef) _, by simpa using hne⟩
  · obtain ⟨e, he, rfl⟩ := mem_onward.1 hb
    obtain ⟨hlt, hp⟩ := ha c hc
    refine ⟨by simpa using hlt.append hp [e.target] [], fun hpre => hp ?_⟩
    exact (List.prefix_append _ _).trans hpre

namespace Listing

theorem nil (t : EdgeTable) (depth : ℕ) (root : Key) (expanded : SortedSet Key) :
    t.Listing depth root [] expanded [] :=
  ⟨.nil, by simp, by simp, by simp, by simp, by simp, by simp⟩

theorem cons_deep (hl : t.Listing depth root stack expanded items) (hdeep : depth < a.path.length) :
    t.Listing depth root (a :: stack) expanded items := by
  refine ⟨hl.ordered, hl.walk, hl.reference, fun b hb hlen => ?_, hl.onward, fun x hx => ?_,
    fun x hx => ?_⟩
  · rcases List.mem_cons.1 hb with rfl | hb
    · omega
    · exact hl.start b hb hlen
  · rcases hl.origin x hx with h | h
    · exact .inl (List.mem_cons_of_mem a h)
    · exact .inr h
  · obtain ⟨b, hb, hp⟩ := hl.extends_stack x hx
    exact ⟨b, List.mem_cons_of_mem a hb, hp⟩

/-- An arrival is listed, and if it opens what is below it comes before the rest of the stack. -/
theorem cons {stack' : List Arrival} {expanded' : SortedSet Key} {ref : Bool}
    (hl : t.Listing depth root stack' expanded' items) (h : t.Stacked root (a :: stack))
    (hlen : a.path.length ≤ depth) (href : ref = true ↔ a.key ∈ expanded)
    (hstack : ∀ b, b ∈ stack' ↔ b ∈ stack ∨ Item.Opens depth ⟨a, ref⟩ ∧ b ∈ t.onward a)
    (hexpanded : ∀ k, k ∈ expanded' ↔ k ∈ expanded ∨ Item.Opens depth ⟨a, ref⟩ ∧ k = a.key) :
    t.Listing depth root (a :: stack) expanded (⟨a, ref⟩ :: items) := by
  have hbefore : ∀ x ∈ items, Before a.path.nodes x.path.nodes := by
    intro x hx
    obtain ⟨b, hb, hp⟩ := hl.extends_stack x hx
    exact h.before (((hstack b).1 hb).imp_right And.right) hp
  refine ⟨List.pairwise_cons.2 ⟨hbefore, hl.ordered⟩, ?_, ?_, ?_, ?_, ?_, ?_⟩
  · intro x hx
    rcases List.mem_cons.1 hx with rfl | hx
    · exact ⟨h.walk a List.mem_cons_self, hlen⟩
    · exact hl.walk x hx
  · intro x hx
    rcases List.mem_cons.1 hx with rfl | hx
    · rw [href]
      refine ⟨.inl, fun hor => hor.resolve_right fun hbehind => ?_⟩
      obtain ⟨y, hy, -, -, hlt⟩ := hbehind
      rcases List.mem_cons.1 hy with rfl | hy
      · exact hlt.irrefl _
      · exact hlt.asymm (hbefore y hy)
    · rw [hl.reference x hx, hexpanded, or_assoc]
      refine or_congr_right ⟨fun hor => ?_, fun hex => ?_⟩
      · rcases hor with ⟨hopen, hk⟩ | ⟨y, hy, hyx⟩
        · exact ⟨_, List.mem_cons_self, hopen, hk.symm, hbefore x hx⟩
        · exact ⟨y, List.mem_cons_of_mem _ hy, hyx⟩
      · obtain ⟨y, hy, hopen, hk, hlt⟩ := hex
        rcases List.mem_cons.1 hy with rfl | hy
        · exact .inl ⟨hopen, hk.symm⟩
        · exact .inr ⟨y, hy, hopen, hk, hlt⟩
  · intro b hb hblen
    rcases List.mem_cons.1 hb with rfl | hb
    · exact ⟨_, List.mem_cons_self, rfl⟩
    · obtain ⟨x, hx, hxb⟩ := hl.start b ((hstack b).2 (.inl hb)) hblen
      exact ⟨x, List.mem_cons_of_mem _ hx, hxb⟩
  · intro x hx hopen b hb
    rcases List.mem_cons.1 hx with rfl | hx
    · have hblen : b.path.length ≤ depth := by
        obtain ⟨e, -, rfl⟩ := mem_onward.1 hb
        rw [Path.length_extend]
        exact hopen.2
      obtain ⟨y, hy, hyb⟩ := hl.start b ((hstack b).2 (.inr ⟨hopen, hb⟩)) hblen
      exact ⟨y, List.mem_cons_of_mem _ hy, hyb⟩
    · obtain ⟨y, hy, hyb⟩ := hl.onward x hx hopen b hb
      exact ⟨y, List.mem_cons_of_mem _ hy, hyb⟩
  · intro x hx
    rcases List.mem_cons.1 hx with rfl | hx
    · exact .inl List.mem_cons_self
    · rcases hl.origin x hx with hmem | ⟨y, hy, hyx⟩
      · rcases (hstack _).1 hmem with hmem | ⟨hopen, hmem⟩
        · exact .inl (List.mem_cons_of_mem a hmem)
        · exact .inr ⟨_, List.mem_cons_self, hopen, hmem⟩
      · exact .inr ⟨y, List.mem_cons_of_mem _ hy, hyx⟩
  · intro x hx
    rcases List.mem_cons.1 hx with rfl | hx
    · exact ⟨a, List.mem_cons_self, List.prefix_refl _⟩
    · obtain ⟨b, hb, hp⟩ := hl.extends_stack x hx
      rcases (hstack b).1 hb with hb | ⟨-, hb⟩
      · exact ⟨b, List.mem_cons_of_mem a hb, hp⟩
      · obtain ⟨e, -, rfl⟩ := mem_onward.1 hb
        exact ⟨a, List.mem_cons_self, (List.prefix_append _ _).trans hp⟩

theorem cons_shut {ref : Bool} (hl : t.Listing depth root stack expanded items)
    (h : t.Stacked root (a :: stack)) (hlen : a.path.length ≤ depth)
    (href : ref = true ↔ a.key ∈ expanded) (hshut : ¬ Item.Opens depth ⟨a, ref⟩) :
    t.Listing depth root (a :: stack) expanded (⟨a, ref⟩ :: items) :=
  hl.cons h hlen href (fun b => by simp [hshut]) (fun k => by simp [hshut])

theorem cons_open (hl : t.Listing depth root (t.onward a ++ stack) (expanded.insert a.key) items)
    (h : t.Stacked root (a :: stack)) (hlen : a.path.length < depth) (hnew : a.key ∉ expanded) :
    t.Listing depth root (a :: stack) expanded (⟨a, false⟩ :: items) := by
  have hopen : Item.Opens depth ⟨a, false⟩ := ⟨rfl, hlen⟩
  refine hl.cons h hlen.le (iff_of_false Bool.false_ne_true hnew) (fun b => ?_) fun k => ?_
  · simp only [List.mem_append, hopen, true_and]
    exact or_comm
  · simp only [SortedSet.mem_insert, hopen, true_and]
    exact or_comm

end Listing

theorem exists_listing (ht : t.Ordered) (h : t.Stacked root stack) :
    ∃ items, items.map Item.entry = t.list depth (stack.map Arrival.occurrence) expanded ∧
      t.Listing depth root stack expanded items := by
  generalize hocc : stack.map Arrival.occurrence = occurrences
  fun_induction list t depth occurrences expanded generalizing stack with
  | case1 expanded =>
    obtain rfl := List.map_eq_nil_iff.1 hocc
    exact ⟨[], rfl, .nil t depth root expanded⟩
  | case2 o rest expanded hdeep ih =>
    obtain ⟨a, stack, rfl, rfl, rfl⟩ := List.map_eq_cons_iff.1 hocc
    have hlen := h.length_path
    have hdeep : depth ≤ a.path.causes.length := hdeep
    obtain ⟨items, hitems, hl⟩ := ih h.tail rfl
    exact ⟨items, hitems, hl.cons_deep (by omega)⟩
  | case3 o rest expanded hlevel hold ih =>
    obtain ⟨a, stack, rfl, rfl, rfl⟩ := List.map_eq_cons_iff.1 hocc
    have hlen := h.length_path
    have hlevel : ¬ depth ≤ a.path.causes.length := hlevel
    obtain ⟨items, hitems, hl⟩ := ih h.tail rfl
    refine ⟨⟨a, true⟩ :: items, by rw [List.map_cons, hitems]; rfl, ?_⟩
    exact hl.cons_shut h (by omega) (iff_of_true rfl hold) (by simp [Item.Opens])
  | case4 o rest expanded hlevel hnew hroom ih =>
    obtain ⟨a, stack, rfl, rfl, rfl⟩ := List.map_eq_cons_iff.1 hocc
    have hlen := h.length_path
    have hroom : a.path.causes.length + 1 < depth := hroom
    obtain ⟨items, hitems, hl⟩ := ih (h.onward ht) (by rw [below_occurrence, List.map_append])
    refine ⟨⟨a, false⟩ :: items, by rw [List.map_cons, hitems]; rfl, ?_⟩
    exact hl.cons_open h (by omega) hnew
  | case5 o rest expanded hlevel hnew hroom ih =>
    obtain ⟨a, stack, rfl, rfl, rfl⟩ := List.map_eq_cons_iff.1 hocc
    have hlen := h.length_path
    have hlevel : ¬ depth ≤ a.path.causes.length := hlevel
    have hroom : ¬ a.path.causes.length + 1 < depth := hroom
    obtain ⟨items, hitems, hl⟩ := ih h.tail rfl
    refine ⟨⟨a, false⟩ :: items, by rw [List.map_cons, hitems]; rfl, ?_⟩
    refine hl.cons_shut h (by omega) (iff_of_false Bool.false_ne_true hnew) fun hopen => ?_
    have hlt : a.path.length < depth := hopen.2
    omega

theorem tree_singleton (t : EdgeTable) (root : Key) (depth : ℕ) :
    t.tree [root] depth = ⟨t.treeOf depth root⟩ := by
  simp [tree, List.eraseDups_cons]

abbrev TreeListing (t : EdgeTable) (depth : ℕ) (root : Key) (items : List Item) : Prop :=
  t.Listing depth root [⟨root, .single root⟩] ∅ items

theorem exists_treeListing (ht : t.Ordered) (depth : ℕ) (root : Key) :
    ∃ items, items.map Item.entry = t.treeOf depth root ∧ t.TreeListing depth root items := by
  have h : t.Stacked root [⟨root, .single root⟩] :=
    ⟨fun a ha => List.mem_singleton.1 ha ▸ .single root, List.pairwise_singleton _ _⟩
  exact exists_listing ht h

namespace Listing

theorem eq_of_nodes (h : t.Listing depth root stack expanded items) (hx : x ∈ items)
    (hy : y ∈ items) (hn : x.path.nodes = y.path.nodes) : x = y := by
  have hd : (items.map fun x => x.path.nodes).Nodup := by
    refine List.pairwise_map.2 (h.ordered.imp fun hlt heq => ?_)
    exact Before.irrefl _ (heq ▸ hlt)
  exact List.inj_on_of_nodup_map hd hx hy hn

/-- Under one root a module opens at one place only. -/
theorem eq_of_opens (h : t.Listing depth root stack expanded items) (hx : x ∈ items)
    (hy : y ∈ items) (hxo : x.Opens depth) (hyo : y.Opens depth) (hk : x.key = y.key) : x = y := by
  rcases Before.trichotomy x.path.nodes y.path.nodes with hlt | heq | hlt
  · have href := (h.reference y hy).2 (.inr ⟨x, hx, hxo, hk, hlt⟩)
    exact absurd href (by simp [hyo.1])
  · exact h.eq_of_nodes hx hy heq
  · have href := (h.reference x hx).2 (.inr ⟨y, hy, hyo, hk.symm, hlt⟩)
    exact absurd href (by simp [hxo.1])

variable (h : t.TreeListing depth root items)

include h

theorem exists_opens (hx : x ∈ items) (hroom : x.path.length < depth) :
    ∃ y ∈ items, y.Opens depth ∧ y.key = x.key ∧
      (y = x ∨ Before y.path.nodes x.path.nodes) := by
  cases href : x.referenceOnly with
  | false => exact ⟨x, hx, ⟨href, hroom⟩, rfl, .inl rfl⟩
  | true =>
    obtain hin | ⟨y, hy, hopen, hk, hlt⟩ := (h.reference x hx).1 href
    · exact absurd hin (SortedSet.not_mem_empty _)
    · exact ⟨y, hy, hopen, hk, .inr hlt⟩

theorem eq_or_before_of_opens (hx : x ∈ items) (hxo : x.Opens depth) (hy : y ∈ items)
    (hk : y.key = x.key) (hroom : y.path.length < depth) :
    x = y ∨ Before x.path.nodes y.path.nodes := by
  obtain ⟨z, hz, hzo, hzk, hzy⟩ := h.exists_opens hy hroom
  obtain rfl := h.eq_of_opens hx hz hxo hzo (hk.symm.trans hzk.symm)
  exact hzy

theorem eq_root_or_onward (hx : x ∈ items) : x.key = root ∧ x.path = .single root ∨
    ∃ y ∈ items, y.Opens depth ∧
      ∃ e ∈ t.edges y.key, x.key = e.target ∧ x.path = y.path.extend e := by
  rcases h.origin x hx with hroot | ⟨y, hy, hopen, hmem⟩
  · have harrival := List.mem_singleton.1 hroot
    exact .inl ⟨congrArg Arrival.key harrival, congrArg Arrival.path harrival⟩
  · obtain ⟨e, he, harrival⟩ := mem_onward.1 hmem
    exact .inr ⟨y, hy, hopen, e, he, congrArg Arrival.key harrival, congrArg Arrival.path harrival⟩

theorem exists_onward (hx : x ∈ items) (hopen : x.Opens depth) {e : Edge} (he : e ∈ t.edges x.key) :
    ∃ y ∈ items, y.key = e.target ∧ y.path = x.path.extend e := by
  obtain ⟨y, hy, harrival⟩ := h.onward x hx hopen _ (mem_onward.2 ⟨e, he, rfl⟩)
  exact ⟨y, hy, congrArg Arrival.key harrival, congrArg Arrival.path harrival⟩

theorem exists_root (hdepth : 1 ≤ depth) : ∃ x ∈ items, x.key = root ∧ x.path = .single root := by
  obtain ⟨x, hx, harrival⟩ := h.start _ List.mem_cons_self hdepth
  exact ⟨x, hx, congrArg Arrival.key harrival, congrArg Arrival.path harrival⟩

end Listing

end EdgeTable

end ModuleGraph
