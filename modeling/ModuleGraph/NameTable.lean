namespace ModuleGraph

/-- A table from names to values in which every name stands once, in the order of declaration. -/
structure NameTable (β : Type) where
  entries : List (String × β)
  names_nodup : (entries.map Prod.fst).Nodup

namespace NameTable

variable {β : Type}

def empty : NameTable β := ⟨[], .nil⟩

instance : EmptyCollection (NameTable β) := ⟨empty⟩

instance : Inhabited (NameTable β) := ⟨empty⟩

theorem eq_of_entries {t u : NameTable β} (h : t.entries = u.entries) : t = u := by
  cases t
  cases u
  simp_all

instance [DecidableEq β] : DecidableEq (NameTable β) := fun t u =>
  decidable_of_iff (t.entries = u.entries)
    ⟨fun h => by cases t; cases u; simp_all, fun h => by rw [h]⟩

def names (t : NameTable β) : List String := t.entries.map Prod.fst

def values (t : NameTable β) : List β := t.entries.map Prod.snd

def get? (t : NameTable β) (name : String) : Option β := t.entries.lookup name

/-- A known name keeps its place and takes the new value; a new one goes to the end. -/
def put (name : String) (b : β) : List (String × β) → List (String × β)
  | [] => [(name, b)]
  | e :: l => if e.1 = name then (name, b) :: l else e :: put name b l

theorem map_fst_put (name : String) (b : β) (l : List (String × β)) :
    (put name b l).map Prod.fst =
      if name ∈ l.map Prod.fst then l.map Prod.fst else l.map Prod.fst ++ [name] := by
  fun_induction put name b l with
  | case1 => simp
  | case2 e l h => simp [h]
  | case3 e l h ih =>
    simp only [List.map_cons, ih, List.mem_cons, Ne.symm h, false_or]
    split <;> simp

theorem put_nodup {name : String} {b : β} {l : List (String × β)}
    (h : (l.map Prod.fst).Nodup) : ((put name b l).map Prod.fst).Nodup := by
  rw [map_fst_put]
  split
  · exact h
  · next hn => simp only [List.nodup_append, h]; grind

def insert (name : String) (b : β) (t : NameTable β) : NameTable β :=
  ⟨put name b t.entries, put_nodup t.names_nodup⟩

def ofList (l : List (String × β)) : NameTable β := l.foldl (fun t e => t.insert e.1 e.2) ∅

theorem put_of_not_mem {name : String} {b : β} {l : List (String × β)}
    (h : name ∉ l.map Prod.fst) : put name b l = l ++ [(name, b)] := by
  fun_induction put name b l with
  | case1 => rfl
  | case2 e l he => simp [he] at h
  | case3 e l he ih =>
    rw [List.map_cons, List.mem_cons, not_or] at h
    rw [ih h.2, List.cons_append]

theorem entries_foldl_insert {l : List (String × β)} {t : NameTable β}
    (h : ((t.entries ++ l).map Prod.fst).Nodup) :
    (l.foldl (fun t e => t.insert e.1 e.2) t).entries = t.entries ++ l := by
  induction l generalizing t with
  | nil => simp
  | cons e l ih =>
    have hnew : e.1 ∉ t.entries.map Prod.fst := by
      intro he
      rw [List.map_append, List.nodup_append] at h
      exact h.2.2 e.1 he e.1 (by simp) rfl
    have hinsert : (t.insert e.1 e.2).entries = t.entries ++ [e] := put_of_not_mem hnew
    rw [List.append_cons, ← hinsert] at h
    rw [List.foldl_cons, ih h, hinsert, ← List.append_cons]

theorem ofList_entries (t : NameTable β) : ofList t.entries = t :=
  eq_of_entries (entries_foldl_insert (t := ∅) t.names_nodup)

theorem mem_of_mem_put {name : String} {b : β} {l : List (String × β)} {x : String × β}
    (h : x ∈ put name b l) : x = (name, b) ∨ x ∈ l := by
  fun_induction put name b l with
  | case1 => simpa using h
  | case2 e l he => rcases List.mem_cons.1 h with h | h <;> simp [h]
  | case3 e l he ih =>
    rcases List.mem_cons.1 h with h | h
    · simp [h]
    · rcases ih h with h | h <;> simp [h]

theorem mem_of_mem_ofList {l : List (String × β)} {e : String × β}
    (h : e ∈ (ofList l).entries) : e ∈ l := by
  revert h
  refine List.foldlRecOn (motive := fun t : NameTable β => e ∈ t.entries → e ∈ l) l _ nofun ?_
  intro t ht x hx he
  rcases mem_of_mem_put he with rfl | he
  · exact hx
  · exact ht he

end NameTable

end ModuleGraph
