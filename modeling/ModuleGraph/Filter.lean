import ModuleGraph.Declaration

namespace ModuleGraph

inductive Cause
  | direct
  | extension (id : ExtensionId)
deriving DecidableEq

namespace Cause

def extension? : Cause → Option ExtensionId
  | direct => none
  | extension id => some id

/-- A direct cause comes before all extensions, and these come in their own order. -/
instance : Ord Cause := ⟨compareOn extension?⟩

instance : Std.TransOrd Cause := inferInstanceAs (Std.TransCmp (compareOn extension?))

theorem extension?_inj {a b : Cause} (h : a.extension? = b.extension?) : a = b := by
  cases a <;> cases b <;> simp_all [extension?]

instance : Std.LawfulEqOrd Cause where
  eq_of_compare h := extension?_inj (Std.LawfulEqOrd.eq_of_compare (α := Option ExtensionId) h)

end Cause

inductive Filter
  | complete
  | finite (ids : SortedSet ExtensionId)
deriving DecidableEq

namespace Filter

def contains : Filter → ExtensionId → Bool
  | complete, _ => true
  | finite ids, id => id ∈ ids

/-- The cause for which an edge of some origin is followed. Declared edges always are; others for
the first of their causes that passes. -/
def cause? (f : Filter) : Origin → Option Cause
  | .declared => some .direct
  | .extensions causes => (causes.toList.find? f.contains).map .extension

end Filter

end ModuleGraph
