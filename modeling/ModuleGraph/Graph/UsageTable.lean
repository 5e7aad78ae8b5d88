import ModuleGraph.Declaration

namespace ModuleGraph

structure UsageKey where
  user : Key
  extension : ExtensionId
deriving DecidableEq

namespace UsageKey

instance : Ord UsageKey := ⟨compareLex (compareOn user) (compareOn extension)⟩

instance : Std.TransOrd UsageKey :=
  inferInstanceAs (Std.TransCmp (compareLex (compareOn user) (compareOn extension)))

instance : Std.LawfulEqOrd UsageKey where
  eq_of_compare {a b} h := by
    obtain ⟨hu, he⟩ := Ordering.then_eq_eq.1 h
    cases a; cases b
    cases Std.LawfulEqOrd.eq_of_compare hu
    cases Std.LawfulEqOrd.eq_of_compare he
    rfl

end UsageKey

abbrev UsageTable := SortedMap UsageKey Usage

namespace UsageTable

/-- Enters the rows one after another; a later row of the same user and extension stays. -/
def ofRows (rows : List UsageRow) : UsageTable :=
  .ofList (rows.map fun row => (⟨row.user, row.extension⟩, row.usage))

def usagesOf (table : UsageTable) (extension : ExtensionId) : List (Key × Usage) :=
  (table.entries.filter (·.1.extension = extension)).map fun row => (row.1.user, row.2)

def extensions (table : UsageTable) : List ExtensionId := table.keys.map UsageKey.extension

def extensionIds (table : UsageTable) : SortedSet ExtensionId := .ofList table.extensions

end UsageTable

end ModuleGraph
