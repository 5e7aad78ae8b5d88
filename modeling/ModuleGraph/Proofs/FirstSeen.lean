import Mathlib.Data.List.Basic

namespace ModuleGraph.FirstSeen

variable {α : Type} [BEq α] [LawfulBEq α]

theorem nodup_eraseDups : ∀ l : List α, l.eraseDups.Nodup
  | [] => .nil
  | a :: l => by
    rw [List.eraseDups_cons, List.nodup_cons]
    exact ⟨by simp, nodup_eraseDups _⟩
termination_by l => l.length
decreasing_by exact Nat.lt_succ_of_le (List.length_filter_le _ l)

theorem eraseDups_filter (p : α → Bool) :
    ∀ l : List α, (l.filter p).eraseDups = l.eraseDups.filter p
  | [] => rfl
  | a :: l => by
    have hrest := eraseDups_filter p (l.filter fun b => !b == a)
    rw [List.filter_comm] at hrest
    cases hp : p a with
    | true =>
      rw [List.filter_cons_of_pos hp, List.eraseDups_cons, List.eraseDups_cons,
        List.filter_cons_of_pos hp, hrest]
    | false =>
      have hne : ∀ b ∈ l.filter p, (!b == a) = true := by
        intro b hb
        have hb := (List.mem_filter.1 hb).2
        simp only [Bool.not_eq_true', beq_eq_false_iff_ne]
        rintro rfl
        simp [hp] at hb
      rw [List.filter_eq_self.2 hne] at hrest
      rw [List.filter_cons_of_neg (by simp [hp]), List.eraseDups_cons,
        List.filter_cons_of_neg (by simp [hp]), hrest]
termination_by l => l.length
decreasing_by exact Nat.lt_succ_of_le (List.length_filter_le _ l)

theorem eraseDups_eraseDups : ∀ l : List α, l.eraseDups.eraseDups = l.eraseDups
  | [] => rfl
  | a :: l => by
    have hrest := eraseDups_eraseDups (l.filter fun b => !b == a)
    rw [List.eraseDups_cons, List.eraseDups_cons, ← eraseDups_filter, List.filter_filter]
    simp only [Bool.and_self]
    rw [hrest]
termination_by l => l.length
decreasing_by exact Nat.lt_succ_of_le (List.length_filter_le _ l)

theorem eraseDups_append_eraseDups (l l' : List α) :
    (l.eraseDups ++ l'.eraseDups).eraseDups = (l ++ l').eraseDups := by
  have hremove : l'.eraseDups.removeAll l.eraseDups = (l'.removeAll l).eraseDups := by
    simp only [List.removeAll, eraseDups_filter]
    apply List.filter_congr
    intro b _
    simp
  rw [List.eraseDups_append, List.eraseDups_append, hremove, eraseDups_eraseDups,
    eraseDups_eraseDups]

theorem eraseDups_append_right (l l' : List α) :
    (l ++ l'.eraseDups).eraseDups = (l ++ l').eraseDups := by
  rw [← eraseDups_append_eraseDups, eraseDups_eraseDups, eraseDups_append_eraseDups]

end ModuleGraph.FirstSeen
