import ModuleGraph.Text
import ModuleGraph.Text.Extending
import ModuleGraph.Text.Unassigned

namespace ModuleGraph.Text

/-- Ranges of the characters that control, format or separate, the space apart, and of those for
private use. -/
def invisibleRanges : List (Nat × Nat) :=
  [(0x0, 0x1F), (0x7F, 0xA0), (0xAD, 0xAD), (0x600, 0x605), (0x61C, 0x61C), (0x6DD, 0x6DD),
   (0x70F, 0x70F), (0x890, 0x891), (0x8E2, 0x8E2), (0x1680, 0x1680), (0x180E, 0x180E),
   (0x2000, 0x200F), (0x2028, 0x202F), (0x205F, 0x2064), (0x2066, 0x206F), (0x3000, 0x3000),
   (0xE000, 0xF8FF), (0xFEFF, 0xFEFF), (0xFFF9, 0xFFFB), (0x110BD, 0x110BD), (0x110CD, 0x110CD),
   (0x13430, 0x1343F), (0x1BCA0, 0x1BCA3), (0x1D173, 0x1D17A), (0xE0001, 0xE0001),
   (0xE0020, 0xE007F), (0xF0000, 0xFFFFD), (0x100000, 0x10FFFD)]

theorem invisibleRanges_wellOrdered : wellOrdered invisibleRanges = true := by decide

/-- Ranges of the letters that hold the place of a missing one in a Korean syllable and that a
reader does not see. -/
def fillerRanges : List (Nat × Nat) := [(0x115F, 0x1160), (0x3164, 0x3164), (0xFFA0, 0xFFA0)]

theorem fillerRanges_wellOrdered : wellOrdered fillerRanges = true := by decide

def isPrintable (c : Char) : Bool :=
  !inRanges invisibleRanges c.toNat && !inRanges fillerRanges c.toNat &&
    !inRanges unassignedRanges c.toNat && !inRanges extendingRanges c.toNat

theorem isPrintable_iff {c : Char} : isPrintable c ↔
    ∀ r ∈ invisibleRanges ++ fillerRanges ++ unassignedRanges ++ extendingRanges,
      ¬ (r.1 ≤ c.toNat ∧ c.toNat ≤ r.2) := by
  have hmiss : ∀ rs, wellOrdered rs → ((!inRanges rs c.toNat) = true ↔
      ∀ r ∈ rs, ¬ (r.1 ≤ c.toNat ∧ c.toNat ≤ r.2)) := by
    intro rs hrs
    rw [Bool.not_eq_true', ← Bool.not_eq_true, inRanges_iff hrs]
    simp only [not_exists, not_and]
  simp only [isPrintable, Bool.and_eq_true, List.forall_mem_append,
    hmiss _ invisibleRanges_wellOrdered, hmiss _ fillerRanges_wellOrdered,
    hmiss _ unassignedRanges_wellOrdered, hmiss _ extendingRanges_wellOrdered]

def quoteChar (c : Char) : List Char :=
  if c = '\t' then ['\\', 't']
  else if c = '\n' then ['\\', 'n']
  else if c = '\r' then ['\\', 'r']
  else if c = '\x00' then ['\\', '0']
  else if c = '"' then ['\\', '"']
  else if c = '\\' then ['\\', '\\']
  else if isPrintable c then [c]
  else ['\\', 'u', '{'] ++ hex c.toNat ++ ['}']

def quote (s : String) : String :=
  String.ofList ('"' :: s.toList.flatMap quoteChar ++ ['"'])

end ModuleGraph.Text
