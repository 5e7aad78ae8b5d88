import ModuleGraph.SortedSet
namespace ModuleGraph

/-- A finite map: its entries, each key once, in increasing order of the keys. -/
structure SortedMap (α β : Type) [Ord α] where
  entries : List (α × β)
  increasing : entries.Pairwise (fun x y => compare x.1 y.1 = .lt)

namespace SortedMap

variable {α β γ : Type} [Ord α]

def empty : SortedMap α β := ⟨[], .nil⟩

instance : EmptyCollection (SortedMap α β) := ⟨empty⟩

instance : Inhabited (SortedMap α β) := ⟨empty⟩

@[simp] theorem entries_empty : (∅ : SortedMap α β).entries = [] := rfl

theorem eq_of_entries {m n : SortedMap α β} (h : m.entries = n.entries) : m = n := by
  cases m
  cases n
  simp_all

instance [DecidableEq α] [DecidableEq β] : DecidableEq (SortedMap α β) := fun m n =>
  decidable_of_iff (m.entries = n.entries)
    ⟨fun h => by cases m; cases n; simp_all, fun h => by rw [h]⟩

def keys (m : SortedMap α β) : List α := m.entries.map Prod.fst

def values (m : SortedMap α β) : List β := m.entries.map Prod.snd

def size (m : SortedMap α β) : Nat := m.entries.length

def isEmpty (m : SortedMap α β) : Bool := m.entries.isEmpty

theorem keys_increasing (m : SortedMap α β) : m.keys.Pairwise (compare · · = .lt) :=
  List.pairwise_map.2 m.increasing

def keysWhere (p : α → β → Bool) (m : SortedMap α β) : SortedSet α :=
  ⟨(m.entries.filter fun e => p e.1 e.2).map Prod.fst,
    List.pairwise_map.2 (m.increasing.filter _)⟩

theorem mem_keysWhere {p : α → β → Bool} {m : SortedMap α β} {a : α} :
    a ∈ m.keysWhere p ↔ ∃ b, (a, b) ∈ m.entries ∧ p a b := by
  simp [keysWhere, SortedSet.mem_def]

def get? [DecidableEq α] (m : SortedMap α β) (a : α) : Option β := m.entries.lookup a

instance : Membership α (SortedMap α β) := ⟨fun m a => a ∈ m.keys⟩

theorem mem_def {a : α} {m : SortedMap α β} : a ∈ m ↔ a ∈ m.keys := Iff.rfl

instance [DecidableEq α] (a : α) (m : SortedMap α β) : Decidable (a ∈ m) :=
  inferInstanceAs (Decidable (a ∈ m.keys))

/-- Puts an entry at its place among increasing keys, where it replaces one of the same key. -/
def place (a : α) (b : β) : List (α × β) → List (α × β)
  | [] => [(a, b)]
  | e :: l =>
    match compare a e.1 with
    | .lt => (a, b) :: e :: l
    | .eq => (a, b) :: l
    | .gt => e :: place a b l

def mapValues (f : α → β → γ) (m : SortedMap α β) : SortedMap α γ :=
  ⟨m.entries.map fun e => (e.1, f e.1 e.2), List.pairwise_map.2 m.increasing⟩

@[simp] theorem keys_mapValues (f : α → β → γ) (m : SortedMap α β) :
    (m.mapValues f).keys = m.keys := by
  simp [mapValues, keys]

def adjust [DecidableEq α] (a : α) (f : β → β) (m : SortedMap α β) : SortedMap α β :=
  m.mapValues fun k b => if k = a then f b else b

@[simp] theorem keys_adjust [DecidableEq α] (a : α) (f : β → β) (m : SortedMap α β) :
    (m.adjust a f).keys = m.keys := keys_mapValues ..

theorem get?_mapValues [DecidableEq α] (f : α → β → γ) (m : SortedMap α β) (a : α) :
    (m.mapValues f).get? a = (m.get? a).map (f a) := by
  obtain ⟨l, h⟩ := m
  simp only [get?, mapValues]
  clear h
  induction l with
  | nil => rfl
  | cons e l ih => grind

theorem get?_eq_none_iff [DecidableEq α] {m : SortedMap α β} {a : α} :
    m.get? a = none ↔ a ∉ m := by
  simp only [get?, mem_def, keys]
  induction m.entries with
  | nil => simp
  | cons e l ih => grind

theorem mem_of_get? [DecidableEq α] {m : SortedMap α β} {a : α} {b : β}
    (h : m.get? a = some b) : a ∈ m := by
  by_cases ha : a ∈ m
  · exact ha
  · simp [get?_eq_none_iff.2 ha] at h

def ofSet (s : SortedSet α) (f : α → β) : SortedMap α β :=
  ⟨s.toList.map fun a => (a, f a), List.pairwise_map.2 s.increasing⟩

@[simp] theorem keys_ofSet (s : SortedSet α) (f : α → β) : (ofSet s f).keys = s.toList := by
  simp [ofSet, keys, Function.comp_def]

theorem get?_ofSet [DecidableEq α] (s : SortedSet α) (f : α → β) (a : α) :
    (ofSet s f).get? a = if a ∈ s then some (f a) else none := by
  simp only [get?, ofSet, SortedSet.mem_def]
  induction s.toList with
  | nil => simp
  | cons x l ih =>
    by_cases h : a = x
    · simp [h]
    · have hb : (a == x) = false := by simp [h]
      simp [List.lookup_cons, hb, ih, h]

section Lawful

variable [Std.TransOrd α] [Std.LawfulEqOrd α]

omit [Std.TransOrd α] [Std.LawfulEqOrd α] in
theorem fst_mem_place {a : α} {b : β} {l : List (α × β)} {x : α × β} (h : x ∈ place a b l) :
    x = (a, b) ∨ x ∈ l := by
  fun_induction place a b l with
  | case1 => simpa using h
  | case2 => simpa using h
  | case3 e l => rcases List.mem_cons.1 h with h | h <;> simp [h]
  | case4 e l _ ih =>
    rcases List.mem_cons.1 h with h | h
    · simp [h]
    · rcases ih h with h | h <;> simp [h]

theorem place_increasing {a : α} {b : β} {l : List (α × β)}
    (h : l.Pairwise (fun x y => compare x.1 y.1 = .lt)) :
    (place a b l).Pairwise (fun x y => compare x.1 y.1 = .lt) := by
  fun_induction place a b l with
  | case1 => simp
  | case2 e l hab =>
    refine .cons (fun x hx => ?_) h
    rcases List.mem_cons.1 hx with rfl | hx
    · exact hab
    · exact Std.TransCmp.lt_trans hab ((List.pairwise_cons.1 h).1 x hx)
  | case3 e l hab =>
    obtain ⟨he, hl⟩ := List.pairwise_cons.1 h
    exact .cons (fun x hx => Std.LawfulEqCmp.compare_eq_iff_eq.1 hab ▸ he x hx) hl
  | case4 e l hab ih =>
    obtain ⟨he, hl⟩ := List.pairwise_cons.1 h
    refine .cons (fun x hx => ?_) (ih hl)
    rcases fst_mem_place hx with rfl | hx
    · exact Std.OrientedCmp.gt_iff_lt.1 hab
    · exact he x hx

omit [Std.LawfulEqOrd α] in
theorem place_of_forall_lt {a : α} {b : β} {l : List (α × β)}
    (h : ∀ e ∈ l, compare e.1 a = .lt) : place a b l = l ++ [(a, b)] := by
  induction l with
  | nil => rfl
  | cons e l ih =>
    have he : compare a e.1 = .gt := Std.OrientedCmp.gt_iff_lt.2 (h e List.mem_cons_self)
    rw [place, he, ih fun x hx => h x (List.mem_cons_of_mem e hx), List.cons_append]

def insert (a : α) (b : β) (m : SortedMap α β) : SortedMap α β :=
  ⟨place a b m.entries, place_increasing m.increasing⟩

/-- Sets the values of a list of entries one after another, so the last one of a key stays. -/
def ofList (l : List (α × β)) : SortedMap α β := l.foldl (fun m e => m.insert e.1 e.2) ∅

theorem get?_insert [DecidableEq α] (a : α) (b : β) (m : SortedMap α β) (x : α) :
    (m.insert a b).get? x = if x = a then some b else m.get? x := by
  obtain ⟨l, h⟩ := m
  simp only [get?, insert]
  clear h
  fun_induction place a b l with
  | case1 => grind
  | case2 => grind
  | case3 e l hab =>
    have := Std.LawfulEqCmp.compare_eq_iff_eq.1 hab
    grind
  | case4 e l hab ih =>
    have : a ≠ e.1 := fun h => by simp [h] at hab
    grind

theorem mem_insert [DecidableEq α] {a x : α} {b : β} {m : SortedMap α β} :
    x ∈ m.insert a b ↔ x = a ∨ x ∈ m := by
  rw [← Decidable.not_iff_not, not_or, ← get?_eq_none_iff, ← get?_eq_none_iff, get?_insert]
  by_cases h : x = a <;> simp [h]

theorem get?_foldl_insert [DecidableEq α] (l : List (α × β)) (m : SortedMap α β) (a : α) :
    (l.foldl (fun m e => m.insert e.1 e.2) m).get? a =
      ((l.filter (·.1 = a)).getLast?.map Prod.snd).or (m.get? a) := by
  induction l generalizing m with
  | nil => rfl
  | cons e l ih =>
    rw [List.foldl_cons, ih, get?_insert, List.filter_cons]
    by_cases h : e.1 = a
    · simp only [h, decide_true, if_true, List.getLast?_cons]
      cases (l.filter (·.1 = a)).getLast? <;> rfl
    · simp [h, Ne.symm h]

theorem get?_ofList [DecidableEq α] (l : List (α × β)) (a : α) :
    (ofList l).get? a = (l.filter (·.1 = a)).getLast?.map Prod.snd := by
  rw [ofList, get?_foldl_insert]
  exact Option.or_none

omit [Std.TransOrd α] in
theorem nodup_keys (m : SortedMap α β) : m.keys.Nodup :=
  m.keys_increasing.imp fun hlt heq => by simp [heq] at hlt

omit [Ord α] [Std.TransOrd α] [Std.LawfulEqOrd α] in
theorem lookup_eq_some_iff [DecidableEq α] {l : List (α × β)} (hl : (l.map Prod.fst).Nodup)
    {a : α} {b : β} : l.lookup a = some b ↔ (a, b) ∈ l := by
  induction l with
  | nil => simp
  | cons e l ih =>
    obtain ⟨a', b'⟩ := e
    obtain ⟨hn, hl⟩ := List.nodup_cons.1 hl
    by_cases h : a = a'
    · subst h
      have : ∀ b, (a, b) ∉ l := fun b hb => hn (List.mem_map.2 ⟨_, hb, rfl⟩)
      simp [this, eq_comm]
    · have hb : (a == a') = false := by simp [h]
      simp [List.lookup_cons, hb, ih hl, h]

omit [Std.TransOrd α] in
theorem get?_eq_some_iff [DecidableEq α] {m : SortedMap α β} {a : α} {b : β} :
    m.get? a = some b ↔ (a, b) ∈ m.entries :=
  lookup_eq_some_iff m.nodup_keys

omit [Std.TransOrd α] in
theorem mem_values_iff [DecidableEq α] {m : SortedMap α β} {b : β} :
    b ∈ m.values ↔ ∃ a, m.get? a = some b := by
  simp only [values, List.mem_map, get?_eq_some_iff]
  constructor
  · rintro ⟨⟨a, b⟩, he, rfl⟩
    exact ⟨a, he⟩
  · rintro ⟨a, he⟩
    exact ⟨(a, b), he, rfl⟩

theorem ext [DecidableEq α] {m n : SortedMap α β} (h : ∀ a, m.get? a = n.get? a) : m = n := by
  have hmem : ∀ e, e ∈ m.entries ↔ e ∈ n.entries := by
    rintro ⟨a, b⟩
    rw [← get?_eq_some_iff, h, get?_eq_some_iff]
  exact eq_of_entries (SortedSet.eq_of_increasing m.increasing n.increasing hmem)

theorem entries_foldl_insert {l : List (α × β)} {m : SortedMap α β}
    (h : (m.entries ++ l).Pairwise fun x y => compare x.1 y.1 = .lt) :
    (l.foldl (fun m e => m.insert e.1 e.2) m).entries = m.entries ++ l := by
  induction l generalizing m with
  | nil => simp
  | cons e l ih =>
    have hlast : ∀ x ∈ m.entries, compare x.1 e.1 = .lt := fun x hx =>
      (List.pairwise_append.1 h).2.2 x hx e List.mem_cons_self
    have hinsert : (m.insert e.1 e.2).entries = m.entries ++ [e] := place_of_forall_lt hlast
    rw [List.append_cons, ← hinsert] at h
    rw [List.foldl_cons, ih h, hinsert, ← List.append_cons]

theorem ofList_entries (m : SortedMap α β) : ofList m.entries = m :=
  eq_of_entries (entries_foldl_insert (m := ∅) m.increasing)

theorem mem_of_mem_ofList {l : List (α × β)} {e : α × β} (h : e ∈ (ofList l).entries) :
    e ∈ l := by
  revert h
  refine List.foldlRecOn (motive := fun m : SortedMap α β => e ∈ m.entries → e ∈ l) l _ nofun ?_
  intro m hm x hx he
  rcases fst_mem_place he with rfl | he
  · exact hx
  · exact hm he

theorem keys_congr {m : SortedMap α β} {n : SortedMap α γ} (h : ∀ a, a ∈ m ↔ a ∈ n) :
    m.keys = n.keys :=
  SortedSet.eq_of_increasing m.keys_increasing n.keys_increasing h

end Lawful

end SortedMap

end ModuleGraph
