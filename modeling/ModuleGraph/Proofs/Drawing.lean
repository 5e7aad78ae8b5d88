import ModuleGraph.Drawing
import ModuleGraph.Proofs.Preorder

namespace ModuleGraph

namespace Tree

def Continues (t : Tree) (i : Fin t.entries.length) (level : ℕ) : Prop :=
  ∃ a, t.IsAbove a i ∧ (t.entries.get a).depth = level ∧ t.HasLaterSibling a

instance (t : Tree) (i : Fin t.entries.length) (level : ℕ) : Decidable (t.Continues i level) :=
  inferInstanceAs (Decidable (∃ _, _))

/-- For each entry above but the root, from the top, whether it has a later sibling. -/
def columnsOf (t : Tree) (i : Fin t.entries.length) : List Bool :=
  (List.range' 1 ((t.entries.get i).depth - 1)).map fun level => decide (t.Continues i level)

/-- What stands in front of an entry: nothing for a root, else the columns and a branch. -/
def lead (charset : Charset) (t : Tree) (i : Fin t.entries.length) : String :=
  if (t.entries.get i).depth = 0 then ""
  else
    String.join ((t.columnsOf i).map charset.column) ++ charset.branch (¬ t.HasLaterSibling i)

def piece (charset : Charset) (t : Tree) (i : Fin t.entries.length) : String :=
  t.lead charset i ++ (t.entries.get i).label ++ "\n"

def marked (t : Tree) : List (Entry × Bool) := t.entries.zip (lastFlags t.entries).1

/-- The columns when a line is drawn, as the lines in front of it leave them. -/
def columnsAt (columns : List Bool) (marked : List (Entry × Bool)) (i : ℕ) : List Bool :=
  (marked.take i).foldl (fun columns x => columnsBelow columns x.1 x.2) columns

theorem mem_lastFlags_snd {es : List Entry} {level : ℕ} :
    level ∈ (lastFlags es).2 ↔ ∃ k, ∃ _ : k < es.length, es[k].depth = level ∧
      ∀ j (_ : j < k), level ≤ es[j].depth := by
  induction es with
  | nil => simp [lastFlags]
  | cons x es ih =>
    rw [lastFlags, List.mem_cons, List.mem_filter, ih]
    constructor
    · rintro (rfl | ⟨⟨k, hk, hdepth, hall⟩, hlt⟩)
      · exact ⟨0, Nat.succ_pos _, rfl, by simp⟩
      · refine ⟨k + 1, Nat.succ_lt_succ hk, hdepth, fun j hj => ?_⟩
        cases j with
        | zero => exact (of_decide_eq_true hlt).le
        | succ j => exact hall j (by omega)
    · rintro ⟨k, hk, hdepth, hall⟩
      cases k with
      | zero => exact .inl hdepth.symm
      | succ k =>
        rcases (hall 0 (by omega)).eq_or_lt with heq | hlt
        · exact .inl heq
        · refine .inr ⟨⟨k, Nat.lt_of_succ_lt_succ hk, hdepth, fun j hj => ?_⟩, decide_eq_true hlt⟩
          exact hall (j + 1) (Nat.succ_lt_succ hj)

theorem getElem?_lastFlags (es : List Entry) (i : ℕ) :
    (lastFlags es).1[i]? =
      es[i]?.map fun e => decide (e.depth ∉ (lastFlags (es.drop (i + 1))).2) := by
  induction es generalizing i with
  | nil => simp [lastFlags]
  | cons e es ih =>
    cases i with
    | zero => rfl
    | succ i => exact ih i

variable {t : Tree} {i k : Fin t.entries.length} {level : ℕ}

theorem InPreorder.mem_lastFlags_drop_iff (h : t.InPreorder) (hi : 0 < (t.entries.get i).depth) :
    (t.entries.get i).depth ∈ (lastFlags (t.entries.drop (i + 1))).2 ↔ t.HasLaterSibling i := by
  rw [mem_lastFlags_snd, h.hasLaterSibling_iff hi]
  simp only [List.getElem_drop, List.length_drop]
  constructor
  · rintro ⟨n, hn, hdepth, hall⟩
    refine ⟨⟨i + 1 + n, by omega⟩, Nat.lt_add_right n i.val.lt_succ_self, hdepth, ?_⟩
    rintro ⟨j, hj⟩ hij hjk
    obtain ⟨m, rfl⟩ := Nat.exists_eq_add_of_le (show i.val + 1 ≤ j from hij)
    exact hall m (Nat.lt_of_add_lt_add_left hjk)
  · rintro ⟨⟨k, hk⟩, hik, hdepth, hall⟩
    obtain ⟨n, rfl⟩ := Nat.exists_eq_add_of_le (show i.val + 1 ≤ k from hik)
    refine ⟨n, by omega, hdepth, fun m hm => ?_⟩
    exact hall ⟨i + 1 + m, by omega⟩ (Nat.lt_add_right m i.val.lt_succ_self)
      (Nat.add_lt_add_left hm _)

theorem InPreorder.exists_getElem?_marked (h : t.InPreorder) (i : Fin t.entries.length) :
    ∃ last, t.marked[i.val]? = some (t.entries.get i, last) ∧
      (0 < (t.entries.get i).depth → last = decide ¬ t.HasLaterSibling i) := by
  have hentry : t.entries[i.val]? = some (t.entries.get i) := List.getElem?_eq_getElem i.isLt
  refine ⟨decide ((t.entries.get i).depth ∉ (lastFlags (t.entries.drop (i + 1))).2),
    List.getElem?_zip_eq_some.2 ⟨hentry, ?_⟩, fun hi => ?_⟩
  · rw [getElem?_lastFlags, hentry, Option.map_some]
  · exact decide_eq_decide.2 (not_congr (h.mem_lastFlags_drop_iff hi))

theorem getElem?_lines (charset : Charset) (columns : List Bool) (marked : List (Entry × Bool))
    (i : ℕ) : (lines charset columns marked)[i]? =
      marked[i]?.map fun x => line charset (columnsAt columns marked i) x.1 x.2 := by
  induction marked generalizing columns i with
  | nil => simp [lines]
  | cons x marked ih =>
    cases i with
    | zero => rfl
    | succ i => exact ih _ i

theorem columnsAt_succ {columns : List Bool} {marked : List (Entry × Bool)} {m n : ℕ}
    {x : Entry × Bool} (hmn : m + 1 = n) (hx : marked[m]? = some x) :
    columnsAt columns marked n = columnsBelow (columnsAt columns marked m) x.1 x.2 := by
  rw [columnsAt, ← hmn, List.take_add_one, hx, List.foldl_append]
  rfl

theorem continues_succ_iff (hik : i.val + 1 = k.val) (hlevel : level < (t.entries.get k).depth) :
    t.Continues k level ↔
      ((t.entries.get i).depth = level ∧ t.HasLaterSibling i) ∨ t.Continues i level := by
  constructor
  · rintro ⟨a, ha, hdepth, hmore⟩
    obtain ⟨rfl | ha, -⟩ := (isAbove_succ_iff hik).1 ha
    · exact .inl ⟨hdepth, hmore⟩
    · exact .inr ⟨a, ha, hdepth, hmore⟩
  · rintro (⟨hdepth, hmore⟩ | ⟨a, ha, hdepth, hmore⟩)
    · exact ⟨i, (isAbove_succ_iff hik).2 ⟨.inl rfl, hdepth.trans_lt hlevel⟩, hdepth, hmore⟩
    · exact ⟨a, (isAbove_succ_iff hik).2 ⟨.inr ha, hdepth.trans_lt hlevel⟩, hdepth, hmore⟩

theorem Continues.level_lt (h : t.Continues i level) : level < (t.entries.get i).depth := by
  obtain ⟨a, ha, rfl, -⟩ := h
  exact ha.depth_lt

/-- A line leaves a column for its own level and the ones above, whatever came before it. -/
theorem columnsBelow_eq {columns : List Bool} {last : Bool}
    (hcolumns : columns.take ((t.entries.get i).depth - 1) = t.columnsOf i)
    (hlast : 0 < (t.entries.get i).depth → last = decide ¬ t.HasLaterSibling i) :
    columnsBelow columns (t.entries.get i) last =
      (List.range' 1 (t.entries.get i).depth).map fun level =>
        decide (((t.entries.get i).depth = level ∧ t.HasLaterSibling i) ∨ t.Continues i level) := by
  rw [columnsBelow]
  by_cases hroot : (t.entries.get i).depth = 0
  · rw [if_pos hroot, hroot]
    rfl
  have hpos := Nat.pos_of_ne_zero hroot
  have hrange : List.range' 1 (t.entries.get i).depth =
      List.range' 1 ((t.entries.get i).depth - 1) ++ [(t.entries.get i).depth] := by
    obtain ⟨d, hd⟩ := Nat.exists_eq_add_of_lt hpos
    rw [hd, zero_add, List.range'_1_concat, Nat.add_sub_cancel, Nat.add_comm 1]
  rw [if_neg hroot, hcolumns, columnsOf, hlast hpos, hrange, List.map_append, List.map_singleton]
  congr 1
  · refine List.map_congr_left fun level hlevel => decide_eq_decide.2 ?_
    have hlt := (List.mem_range'_1.1 hlevel).2
    exact ⟨.inr, fun hmore => hmore.resolve_left fun heq => by omega⟩
  · have hself : ¬ t.Continues i (t.entries.get i).depth := fun hmore => hmore.level_lt.false
    simp only [hself, decide_not, Bool.not_not, true_and, or_false]

theorem InPreorder.take_columnsAt (h : t.InPreorder) (i : Fin t.entries.length) :
    (columnsAt [] t.marked i).take ((t.entries.get i).depth - 1) = t.columnsOf i := by
  obtain ⟨n, hn⟩ : ∃ n, i.val = n := ⟨_, rfl⟩
  induction n generalizing i with
  | zero =>
    rw [columnsOf, h.depth_zero hn]
    rfl
  | succ n ih =>
    let before : Fin t.entries.length := ⟨n, by omega⟩
    have hbefore : before.val + 1 = i.val := hn.symm
    have hstep := h.depth_succ_le hbefore
    obtain ⟨last, hmarked, hlast⟩ := h.exists_getElem?_marked before
    have hle : (t.entries.get i).depth - 1 ≤ (t.entries.get before).depth := by omega
    rw [columnsAt_succ hbefore hmarked, columnsBelow_eq (ih before rfl) hlast, ← List.map_take,
      List.take_range'_of_length_ge hle]
    refine List.map_congr_left fun level hlevel => decide_eq_decide.2 ?_
    have hrange := List.mem_range'_1.1 hlevel
    have hlt : level < (t.entries.get i).depth := by omega
    exact (continues_succ_iff hbefore hlt).symm

theorem line_eq_piece {columns : List Bool} {last : Bool} (charset : Charset)
    (hcolumns : columns.take ((t.entries.get i).depth - 1) = t.columnsOf i)
    (hlast : 0 < (t.entries.get i).depth → last = decide ¬ t.HasLaterSibling i) :
    line charset columns (t.entries.get i) last = t.piece charset i := by
  rw [line, piece, lead]
  by_cases hroot : (t.entries.get i).depth = 0
  · rw [if_pos hroot, if_pos hroot]
  · rw [if_neg hroot, if_neg hroot, hcolumns, hlast (Nat.pos_of_ne_zero hroot)]

theorem InPreorder.lines_marked (h : t.InPreorder) (charset : Charset) :
    lines charset [] t.marked = List.ofFn (t.piece charset) := by
  refine List.ext_getElem? fun n => ?_
  rw [getElem?_lines, List.getElem?_ofFn]
  by_cases hn : n < t.entries.length
  · obtain ⟨last, hmarked, hlast⟩ := h.exists_getElem?_marked ⟨n, hn⟩
    rw [dif_pos hn, hmarked, Option.map_some]
    exact congrArg some (line_eq_piece charset (h.take_columnsAt ⟨n, hn⟩) hlast)
  · have hnone : t.marked[n]? = none := by
      rw [List.getElem?_eq_none_iff, marked, List.length_zip]
      omega
    rw [dif_neg hn, hnone, Option.map_none]

def twoRoots : Tree where
  entries := [⟨.root, 0, false, none⟩, ⟨⟨"a", "1"⟩, 1, false, some .direct⟩,
    ⟨⟨"b", "1"⟩, 2, false, some .direct⟩, ⟨⟨"b", "1"⟩, 1, true, some .direct⟩,
    ⟨⟨"a", "1"⟩, 0, false, none⟩, ⟨⟨"b", "1"⟩, 1, false, some .direct⟩]

end Tree

end ModuleGraph
