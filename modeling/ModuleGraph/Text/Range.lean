namespace ModuleGraph.Text

/-- Whether each range ends no earlier than it starts and leaves a gap before the next one. -/
def wellOrdered : List (Nat × Nat) → Bool
  | [] => true
  | [r] => r.1 ≤ r.2
  | r :: s :: rs => r.1 ≤ r.2 && r.2 + 1 < s.1 && wellOrdered (s :: rs)

def inRanges : List (Nat × Nat) → Nat → Bool
  | [], _ => false
  | r :: rs, n => if n ≤ r.2 then r.1 ≤ n else inRanges rs n

theorem wellOrdered_tail {r : Nat × Nat} {rs : List (Nat × Nat)} (h : wellOrdered (r :: rs)) :
    wellOrdered rs := by
  cases rs <;> simp_all [wellOrdered]

theorem lt_of_wellOrdered {r s : Nat × Nat} {rs : List (Nat × Nat)} (h : wellOrdered (r :: rs))
    (hs : s ∈ rs) : r.2 < s.1 := by
  induction rs generalizing r with
  | nil => simp at hs
  | cons t ts ih =>
    have hr : r.2 + 1 < t.1 := by simp_all [wellOrdered]
    have ht := wellOrdered_tail h
    have : t.1 ≤ t.2 := by cases ts <;> simp_all [wellOrdered]
    rcases List.mem_cons.1 hs with rfl | hs
    · omega
    · have := ih ht hs
      omega

theorem inRanges_iff {rs : List (Nat × Nat)} {n : Nat} (h : wellOrdered rs) :
    inRanges rs n ↔ ∃ r ∈ rs, r.1 ≤ n ∧ n ≤ r.2 := by
  induction rs with
  | nil => simp [inRanges]
  | cons r rs ih =>
    have hlt := fun s hs => lt_of_wellOrdered (s := s) h hs
    rw [inRanges]
    split
    · next hn =>
      refine ⟨fun hr => ⟨r, by simp, by simpa using hr, hn⟩, ?_⟩
      rintro ⟨s, hs, hsn, _⟩
      rcases List.mem_cons.1 hs with rfl | hs
      · simpa using hsn
      · have := hlt s hs
        omega
    · next hn =>
      rw [ih (wellOrdered_tail h)]
      refine ⟨fun ⟨s, hs, hsn⟩ => ⟨s, by simp [hs], hsn⟩, ?_⟩
      rintro ⟨s, hs, hsn⟩
      rcases List.mem_cons.1 hs with rfl | hs
      · exact absurd hsn.2 hn
      · exact ⟨s, hs, hsn⟩

end ModuleGraph.Text
