/-! Finite sets held as strictly increasing lists. The order is part of the value: a set prints,
compares and is walked through in it, and two sets with the same members are the same set. -/
namespace ModuleGraph

/-- A finite set, held as its members in strictly increasing order. -/
structure SortedSet (α : Type) [Ord α] where
  toList : List α
  increasing : toList.Pairwise (compare · · = .lt)

namespace SortedSet

variable {α : Type} [Ord α]

instance : Membership α (SortedSet α) := ⟨fun s a => a ∈ s.toList⟩

instance [DecidableEq α] (a : α) (s : SortedSet α) : Decidable (a ∈ s) :=
  inferInstanceAs (Decidable (a ∈ s.toList))

instance [DecidableEq α] : DecidableEq (SortedSet α) := fun s t =>
  decidable_of_iff (s.toList = t.toList)
    ⟨fun h => by cases s; cases t; simp_all, fun h => by rw [h]⟩

theorem mem_def {a : α} {s : SortedSet α} : a ∈ s ↔ a ∈ s.toList := Iff.rfl

def empty : SortedSet α := ⟨[], .nil⟩

instance : EmptyCollection (SortedSet α) := ⟨empty⟩

instance : Inhabited (SortedSet α) := ⟨empty⟩

@[simp] theorem toList_empty : (∅ : SortedSet α).toList = [] := rfl

theorem toList_eq_nil_iff {s : SortedSet α} : s.toList = [] ↔ s = ∅ := by
  constructor
  · intro h
    obtain ⟨l, hl⟩ := s
    obtain rfl : l = [] := h
    rfl
  · rintro rfl
    rfl

@[simp] theorem not_mem_empty (a : α) : ¬ a ∈ (∅ : SortedSet α) := by simp [mem_def]

def place (a : α) : List α → List α
  | [] => [a]
  | b :: l =>
    match compare a b with
    | .lt => a :: b :: l
    | .eq => b :: l
    | .gt => b :: place a l

theorem mem_place [Std.LawfulEqOrd α] {a x : α} {l : List α} :
    x ∈ place a l ↔ x = a ∨ x ∈ l := by
  fun_induction place a l with
  | case1 => simp
  | case2 => simp
  | case3 b l h =>
    have : a = b := Std.LawfulEqCmp.compare_eq_iff_eq.1 h
    subst this; simp
  | case4 b l h ih => simp [ih]; grind

theorem place_increasing [Std.TransOrd α] [Std.LawfulEqOrd α] {a : α} {l : List α}
    (h : l.Pairwise (compare · · = .lt)) : (place a l).Pairwise (compare · · = .lt) := by
  fun_induction place a l with
  | case1 => simp
  | case2 b l hab =>
    refine .cons (fun x hx => ?_) h
    rcases List.mem_cons.1 hx with rfl | hx
    · exact hab
    · exact Std.TransCmp.lt_trans hab ((List.pairwise_cons.1 h).1 x hx)
  | case3 => exact h
  | case4 b l hab ih =>
    obtain ⟨hb, hl⟩ := List.pairwise_cons.1 h
    refine .cons (fun x hx => ?_) (ih hl)
    rcases mem_place.1 hx with rfl | hx
    · exact Std.OrientedCmp.gt_iff_lt.1 hab
    · exact hb x hx

section Lawful

variable [Std.TransOrd α] [Std.LawfulEqOrd α]

def insert (a : α) (s : SortedSet α) : SortedSet α :=
  ⟨place a s.toList, place_increasing s.increasing⟩

@[simp] theorem mem_insert {a x : α} {s : SortedSet α} : x ∈ s.insert a ↔ x = a ∨ x ∈ s :=
  mem_place

def ofList (l : List α) : SortedSet α := l.foldr insert ∅

@[simp] theorem mem_ofList {x : α} {l : List α} : x ∈ ofList l ↔ x ∈ l := by
  induction l with
  | nil => simp [ofList]
  | cons a l ih => simpa [ofList] using or_congr_right ih

def insertAll (s : SortedSet α) (l : List α) : SortedSet α := l.foldl (fun t a => t.insert a) s

@[simp] theorem mem_insertAll {x : α} {s : SortedSet α} {l : List α} :
    x ∈ s.insertAll l ↔ x ∈ s ∨ x ∈ l := by
  induction l generalizing s with
  | nil => simp [insertAll]
  | cons a l ih =>
    have : s.insertAll (a :: l) = (s.insert a).insertAll l := rfl
    rw [this, ih]; simp; grind

omit [Std.TransOrd α] in
theorem nodup_toList (s : SortedSet α) : s.toList.Nodup :=
  s.increasing.imp fun hlt heq => by simp [heq] at hlt

theorem eq_of_increasing {β : Type} {key : β → α} {l l' : List β}
    (hl : l.Pairwise fun x y => compare (key x) (key y) = .lt)
    (hl' : l'.Pairwise fun x y => compare (key x) (key y) = .lt) (h : ∀ x, x ∈ l ↔ x ∈ l') :
    l = l' := by
  have hnodup : ∀ {l : List β}, l.Pairwise (fun x y => compare (key x) (key y) = .lt) →
      l.Nodup := fun h => h.imp fun hlt heq => by simp [heq] at hlt
  have hperm : l.Perm l' := (List.perm_ext_iff_of_nodup (hnodup hl) (hnodup hl')).2 h
  apply hperm.eq_of_pairwise _ hl hl'
  intro x y _ _ hxy hyx
  have hlt : compare (key x) (key x) = .lt := Std.TransCmp.lt_trans hxy hyx
  simp at hlt

theorem ext {s t : SortedSet α} (h : ∀ a, a ∈ s ↔ a ∈ t) : s = t := by
  have hlist : s.toList = t.toList := eq_of_increasing s.increasing t.increasing h
  cases s
  cases t
  simp_all

theorem ofList_toList (s : SortedSet α) : ofList s.toList = s := ext fun _ => mem_ofList

end Lawful

def filter (p : α → Bool) (s : SortedSet α) : SortedSet α :=
  ⟨s.toList.filter p, s.increasing.filter p⟩

@[simp] theorem mem_filter {p : α → Bool} {x : α} {s : SortedSet α} :
    x ∈ s.filter p ↔ x ∈ s ∧ p x := by
  simp [mem_def, filter]

end SortedSet

end ModuleGraph
