import ModuleGraph.ExtensionId
import ModuleGraph.Text

/-! What a user types for a module or an extension: the grammar alone, apart from what a
reference denotes in a graph. All letters and digits of the grammar are ASCII. -/
namespace ModuleGraph

inductive ReferenceFault
  | moduleName
  | version
  | noExtension
  | extensionName
  | isolation
deriving DecidableEq

def ReferenceFault.message : ReferenceFault → String
  | .moduleName => "invalid module name"
  | .version => "invalid version"
  | .noExtension => "expected 'module%extension'"
  | .extensionName => "invalid extension name"
  | .isolation => "invalid isolation key"

structure InvalidReference where
  token : String
  fault : ReferenceFault
deriving DecidableEq

namespace Reference

def isNameEnd (c : Char) : Bool := c.isLower || c.isDigit

def isNameChar (c : Char) : Bool := isNameEnd c || c == '.' || c == '_' || c == '-'

/-- Starts with a small letter, ends with a small letter or digit, and between them may also
have points, low lines and hyphens. -/
def isModuleName (s : List Char) : Bool :=
  s.head?.any Char.isLower && s.getLast?.any isNameEnd && s.all isNameChar

def isVersionChar (c : Char) : Bool :=
  c.isAlphanum || c == '.' || c == '+' || c == '_' || c == '-'

def isVersion (s : List Char) : Bool := !s.isEmpty && s.all isVersionChar

def isIsolation (s : List Char) : Bool := isVersion s

def isWordStart (c : Char) : Bool := c.isAlpha || c == '_'

def isExtensionName (s : List Char) : Bool :=
  s.head?.any isWordStart && s.all fun c => c.isAlphanum || c == '_'

end Reference

inductive ModuleRef
  | root
  | named (name : String)
  | exact (key : Key)
deriving DecidableEq

namespace ModuleRef

def text : ModuleRef → String
  | .root => Key.rootText
  | .named name => name
  | .exact key => key.text

def ofText (token : String) : Except InvalidReference ModuleRef :=
  if token = Key.rootText then .ok .root
  else
    let (name, version) := match Text.splitFirst '@' token.toList with
      | none => (token.toList, none)
      | some (name, version) => (name, some version)
    if !Reference.isModuleName name then .error ⟨token, .moduleName⟩
    else match version with
      | none => .ok (.named (String.ofList name))
      | some version =>
        if version = Key.noVersionText.toList then .ok (.exact ⟨String.ofList name, ""⟩)
        else if Reference.isVersion version then
          .ok (.exact ⟨String.ofList name, String.ofList version⟩)
        else .error ⟨token, .version⟩

end ModuleRef

structure ExtensionRef where
  module : ModuleRef
  name : String
  isolation : Option String
deriving DecidableEq

namespace ExtensionRef

def text (r : ExtensionRef) : String :=
  r.module.text ++ "%" ++ r.name ++
    match r.isolation with
    | none => ""
    | some i => "~" ++ i

/-- Reads `module%name` or `module%name~isolation`. -/
def ofText (token : String) : Except InvalidReference ExtensionRef :=
  match Text.splitFirst '%' token.toList with
  | none => .error ⟨token, .noExtension⟩
  | some (module, rest) =>
    match ModuleRef.ofText (String.ofList module) with
    | .error e => .error e
    | .ok module =>
      let (name, isolation) := ExtensionId.splitIsolation rest
      if !Reference.isExtensionName name then .error ⟨token, .extensionName⟩
      else if !isolation.all Reference.isIsolation then .error ⟨token, .isolation⟩
      else .ok ⟨module, String.ofList name, isolation.map String.ofList⟩

end ExtensionRef

namespace Reference

def tokens (s : String) : List String :=
  ((Text.splitAll ',' s.toList).map Text.trim).filter (· ≠ []) |>.map String.ofList

/-- Reads every token of a comma list; the first that cannot be read decides. -/
def modules (s : String) : Except InvalidReference (List ModuleRef) :=
  (tokens s).mapM ModuleRef.ofText

def extensions (s : String) : Except InvalidReference (List ExtensionRef) :=
  (tokens s).mapM ExtensionRef.ofText

end Reference

end ModuleGraph
