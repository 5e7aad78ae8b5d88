import ModuleGraph.Key

namespace ModuleGraph

/-- An extension: the module that defines it, its name there and, for a usage kept apart from the
others, an isolation key. -/
structure ExtensionId where
  module : Key
  name : String
  isolation : Option String
deriving DecidableEq, Inhabited

namespace ExtensionId

/-- Ordered by module, name and isolation key, where no isolation key comes first. -/
instance : Ord ExtensionId :=
  ⟨compareLex (compareOn module) (compareLex (compareOn name) (compareOn isolation))⟩

instance : Std.TransOrd ExtensionId :=
  inferInstanceAs (Std.TransCmp
    (compareLex (compareOn module) (compareLex (compareOn name) (compareOn isolation))))

instance : Std.LawfulEqOrd ExtensionId where
  eq_of_compare {a b} h := by
    obtain ⟨hm, h⟩ := Ordering.then_eq_eq.1 h
    obtain ⟨hn, hi⟩ := Ordering.then_eq_eq.1 h
    cases a; cases b
    cases Std.LawfulEqOrd.eq_of_compare hm
    cases Std.LawfulEqOrd.eq_of_compare hn
    cases Std.LawfulEqOrd.eq_of_compare hi
    rfl

/-- The text form `module%name`, with `~isolation` after it where there is an isolation key. -/
def text (e : ExtensionId) : String :=
  e.module.text ++ "%" ++ e.name ++
    match e.isolation with
    | none => ""
    | some i => "~" ++ i

inductive Fault
  | noSeparator
  | module (text : String) (fault : Key.Fault)
  | emptyName
  | emptyIsolation
deriving DecidableEq

end ExtensionId

inductive IdentityError
  | key (text : String) (fault : Key.Fault)
  | extension (text : String) (fault : ExtensionId.Fault)
deriving DecidableEq

def Key.Fault.messageFor (fault : Key.Fault) (text : String) : String :=
  "invalid module key '" ++ text ++ "': " ++ fault.message

def ExtensionId.Fault.message : ExtensionId.Fault → String
  | .noSeparator => "expected 'module%extension'"
  | .module text fault => fault.messageFor text
  | .emptyName => "empty extension name"
  | .emptyIsolation => "empty isolation key"

def IdentityError.message : IdentityError → String
  | .key text fault => fault.messageFor text
  | .extension text fault => "invalid extension id '" ++ text ++ "': " ++ fault.message

namespace ExtensionId

def splitIsolation (s : List Char) : List Char × Option (List Char) :=
  match Text.splitFirst '~' s with
  | none => (s, none)
  | some (name, isolation) => (name, some isolation)

def ofText (s : String) : Except Fault ExtensionId :=
  match Text.splitFirst '%' s.toList with
  | none => .error .noSeparator
  | some (module, rest) =>
    match Key.ofText (String.ofList module) with
    | .error fault => .error (.module (String.ofList module) fault)
    | .ok key =>
      let (name, isolation) := splitIsolation rest
      if name = [] then .error .emptyName
      else if isolation = some [] then .error .emptyIsolation
      else .ok ⟨key, String.ofList name, isolation.map String.ofList⟩

end ExtensionId

def Key.read (s : String) : Except IdentityError Key :=
  (Key.ofText s).mapError (.key s)

def ExtensionId.read (s : String) : Except IdentityError ExtensionId :=
  (ExtensionId.ofText s).mapError (.extension s)

end ModuleGraph
