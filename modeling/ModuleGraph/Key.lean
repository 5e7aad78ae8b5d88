import ModuleGraph.Text

namespace ModuleGraph

/-- One version of one module. An empty version stands for a module without one. -/
structure Key where
  name : String
  version : String
deriving DecidableEq, Inhabited

namespace Key

instance : Ord Key := ⟨compareLex (compareOn name) (compareOn version)⟩

instance : Std.TransOrd Key :=
  inferInstanceAs (Std.TransCmp (compareLex (compareOn name) (compareOn version)))

instance : Std.LawfulEqOrd Key where
  eq_of_compare {a b} h := by
    obtain ⟨hn, hv⟩ := Ordering.then_eq_eq.1 h
    cases a; cases b
    cases Std.LawfulEqOrd.eq_of_compare hn
    cases Std.LawfulEqOrd.eq_of_compare hv
    rfl

def root : Key := ⟨"", ""⟩

def rootText : String := "<root>"

def noVersionText : String := "_"

def isRoot (k : Key) : Bool := k = root

def text (k : Key) : String :=
  if k = root then rootText
  else if k.version = "" then k.name ++ "@" ++ noVersionText
  else k.name ++ "@" ++ k.version

/-- The name of the repository that holds the module; the root's is empty. -/
def repoName (k : Key) : String :=
  if k = root then "" else k.name ++ "~" ++ k.version

inductive Fault
  | noSeparator
  | emptyName
  | emptyVersion
  | secondSeparator
deriving DecidableEq

def Fault.message : Fault → String
  | .noSeparator => "expected 'name@version'"
  | .emptyName => "empty module name"
  | .emptyVersion => "empty version (use '_' for no version)"
  | .secondSeparator => "more than one '@'"

def ofText (s : String) : Except Fault Key :=
  if s = rootText then .ok root
  else match Text.splitFirst '@' s.toList with
    | none => .error .noSeparator
    | some (name, version) =>
      if name = [] then .error .emptyName
      else if version = [] then .error .emptyVersion
      else if '@' ∈ version then .error .secondSeparator
      else if version = noVersionText.toList then .ok ⟨String.ofList name, ""⟩
      else .ok ⟨String.ofList name, String.ofList version⟩

end Key

end ModuleGraph
