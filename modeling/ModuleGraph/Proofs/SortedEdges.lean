import ModuleGraph.Proofs.EdgeTable
import Mathlib.Data.List.Destutter

namespace ModuleGraph

namespace EdgeTable

def inOrder (e f : Edge) : Bool :=
  match compare e.target f.target with
  | .lt => true
  | .eq => (compare e.cause f.cause).isLE
  | .gt => false

abbrev Apart (e f : Edge) : Prop := e.target ≠ f.target

variable {a b c : Edge} {es : List Edge}

theorem inOrder_iff : inOrder a b ↔
    compare a.target b.target = .lt ∨ a.target = b.target ∧ (compare a.cause b.cause).isLE := by
  unfold inOrder
  split
  · next h => simp [h]
  · next h => simp [Std.LawfulEqCmp.compare_eq_iff_eq.1 h]
  · next h =>
    have hne : a.target ≠ b.target := fun heq => by simp [heq] at h
    simp [h, hne]

theorem inOrder_trans (h : inOrder a b) (h' : inOrder b c) : inOrder a c := by
  rw [inOrder_iff] at h h' ⊢
  rcases h with h | ⟨hab, h⟩
  · rcases h' with h' | ⟨hbc, -⟩
    · exact .inl (Std.TransCmp.lt_trans h h')
    · exact .inl (hbc ▸ h)
  · rcases h' with h' | ⟨hbc, h'⟩
    · exact .inl (hab ▸ h')
    · exact .inr ⟨hab.trans hbc, Std.TransCmp.isLE_trans h h'⟩

theorem inOrder_total (a b : Edge) : inOrder a b || inOrder b a := by
  rw [Bool.or_eq_true, inOrder_iff, inOrder_iff]
  cases h : compare a.target b.target with
  | lt => exact .inl (.inl rfl)
  | gt => exact .inr (.inl (Std.OrientedCmp.gt_iff_lt.1 h))
  | eq =>
    have heq := Std.LawfulEqCmp.compare_eq_iff_eq.1 h
    cases hc : compare a.cause b.cause with
    | lt => simp [heq]
    | eq => simp [heq]
    | gt => simp [heq, Std.OrientedCmp.gt_iff_lt.1 hc]

theorem inOrder_of_mem_cons (h : (a :: es).Pairwise (inOrder · ·)) (hb : b ∈ a :: es) :
    inOrder a b := by
  rcases List.mem_cons.1 hb with rfl | hb
  · simp [inOrder]
  · exact (List.pairwise_cons.1 h).1 b hb

theorem lt_of_mem_cons (h : (a :: b :: es).Pairwise (inOrder · ·)) (hab : Apart a b)
    (hc : c ∈ b :: es) : compare a.target c.target = .lt := by
  obtain ⟨ha, hb⟩ := List.pairwise_cons.1 h
  have hlt : compare a.target b.target = .lt :=
    (inOrder_iff.1 (ha b List.mem_cons_self)).resolve_right fun heq => hab heq.1
  rcases inOrder_iff.1 (inOrder_of_mem_cons hb hc) with hbc | ⟨hbc, -⟩
  · exact Std.TransCmp.lt_trans hlt hbc
  · exact hbc ▸ hlt

theorem increasing_destutter' (h : (a :: es).Pairwise (inOrder · ·)) :
    (es.destutter' Apart a).Pairwise fun e f => compare e.target f.target = .lt := by
  induction es generalizing a with
  | nil => exact List.pairwise_singleton _ a
  | cons b es ih =>
    by_cases hab : Apart a b
    · rw [List.destutter'_cons_pos es hab]
      refine .cons (fun c hc => ?_) (ih (List.pairwise_cons.1 h).2)
      exact lt_of_mem_cons h hab ((List.destutter'_sublist es Apart b).subset hc)
    · rw [List.destutter'_cons_neg es hab]
      exact ih (h.sublist ((List.sublist_cons_self b es).cons_cons a))

theorem inOrder_of_mem_destutter' (h : (a :: es).Pairwise (inOrder · ·))
    (hb : b ∈ es.destutter' Apart a) (hc : c ∈ a :: es) (hcb : c.target = b.target) :
    inOrder b c := by
  induction es generalizing a c with
  | nil =>
    obtain rfl : b = a := by simpa using hb
    exact inOrder_of_mem_cons h hc
  | cons d es ih =>
    obtain ⟨ha, hd⟩ := List.pairwise_cons.1 h
    by_cases had : Apart a d
    · rw [List.destutter'_cons_pos es had] at hb
      rcases List.mem_cons.1 hb with rfl | hkept
      · exact inOrder_of_mem_cons h hc
      · rcases List.mem_cons.1 hc with rfl | hc
        · have hlt := lt_of_mem_cons h had ((List.destutter'_sublist es Apart d).subset hkept)
          simp [hcb] at hlt
        · exact ih hd hkept hc hcb
    · rw [List.destutter'_cons_neg es had] at hb
      have hskip := h.sublist ((List.sublist_cons_self d es).cons_cons a)
      rcases List.mem_cons.1 hc with rfl | hc
      · exact ih hskip hb List.mem_cons_self hcb
      · rcases List.mem_cons.1 hc with rfl | hc
        · have hba := ih hskip hb List.mem_cons_self ((not_not.1 had).trans hcb)
          exact inOrder_trans hba (ha c List.mem_cons_self)
        · exact ih hskip hb (List.mem_cons_of_mem a hc) hcb

theorem exists_mem_destutter' (hc : c ∈ a :: es) :
    ∃ b ∈ es.destutter' Apart a, b.target = c.target := by
  induction es generalizing a c with
  | nil => exact ⟨c, by simpa using hc, rfl⟩
  | cons d es ih =>
    by_cases had : Apart a d
    · rw [List.destutter'_cons_pos es had]
      rcases List.mem_cons.1 hc with rfl | hc
      · exact ⟨c, List.mem_cons_self, rfl⟩
      · obtain ⟨b, hb, htarget⟩ := ih hc
        exact ⟨b, List.mem_cons_of_mem a hb, htarget⟩
    · rw [List.destutter'_cons_neg es had]
      rcases List.mem_cons.1 hc with rfl | hc
      · exact ih List.mem_cons_self
      · rcases List.mem_cons.1 hc with rfl | hc
        · obtain ⟨b, hb, htarget⟩ := ih (List.mem_cons_self (a := a))
          exact ⟨b, hb, htarget.trans (not_not.1 had)⟩
        · exact ih (List.mem_cons_of_mem a hc)

theorem mem_destutter_iff {k : Key} {cause : Cause} (h : es.Pairwise (inOrder · ·)) :
    ⟨k, cause⟩ ∈ es.destutter Apart ↔ LeastCause es k cause := by
  cases es with
  | nil => simp [LeastCause]
  | cons a es =>
    have hleast : ∀ b ∈ es.destutter' Apart a, LeastCause (a :: es) b.target b.cause := by
      intro b hb
      refine ⟨(List.destutter'_sublist es Apart a).subset hb, fun c hc hcb => ?_⟩
      have hbc := inOrder_iff.1 (inOrder_of_mem_destutter' h hb hc hcb)
      rw [hcb] at hbc
      exact (hbc.resolve_left (by simp)).2
    rw [List.destutter_cons']
    constructor
    · exact hleast _
    · intro hk
      obtain ⟨⟨l, c⟩, hb, rfl⟩ := exists_mem_destutter' hk.1
      exact (hleast _ hb).unique hk ▸ hb

/-- The least causes come out when the edges are sorted and repeated targets dropped. -/
theorem leastCauses_eq_destutter (es : List Edge) :
    leastCauses es = (es.mergeSort inOrder).destutter Apart := by
  have hsorted : (es.mergeSort inOrder).Pairwise (inOrder · ·) :=
    @List.pairwise_mergeSort Edge inOrder (fun _ _ _ => inOrder_trans) inOrder_total es
  have hincreasing : ((es.mergeSort inOrder).destutter Apart).Pairwise
      fun e f => compare e.target f.target = .lt := by
    cases hes : es.mergeSort inOrder with
    | nil => exact .nil
    | cons a es => exact increasing_destutter' (hes ▸ hsorted)
  rw [leastCauses_congr fun e => (List.mem_mergeSort (a := e) (l := es)).symm]
  refine SortedSet.eq_of_increasing (ordered_leastCauses _) hincreasing ?_
  rintro ⟨k, cause⟩
  rw [mem_leastCauses_iff, mem_destutter_iff hsorted]

theorem edges_ofGraph_eq_destutter {g : Graph} {f : Filter} {k : Key} {node : Node}
    (hk : g.get? k = some node) : (ofGraph g f).edges k =
      ((followed f node.declaration).mergeSort inOrder).destutter Apart := by
  rw [edges_ofGraph, hk, Option.map_some, Option.getD_some, leastCauses_eq_destutter]

end EdgeTable

end ModuleGraph
