import ModuleGraph.Document
import ModuleGraph.Json.Reader

/-! Reading documents. Records are objects, or arrays of their fields in order with optional ones
at the end left out; members with unknown names are skipped. Of several faults the one that is met
first counts. -/
namespace ModuleGraph.Document

open Json (Partial Ending)

abbrev Read (α : Type) := Except Error α

def ofSource {α : Type} (x : Except Json.Fault α) : Read α := x.mapError .text

/-- A value of the wrong kind. That a string or a number cannot be read is worse. -/
def unexpected {α : Type} : Partial → Read α
  | .string lexeme => ofSource (Json.read lexeme) >>= fun _ => .error .wrongShape
  | .number lexeme => ofSource (Number.read lexeme) >>= fun _ => .error .wrongShape
  | .openNumber => .error (.text .endOfText)
  | .openString lexeme => .error (.text (Json.openStringFault lexeme))
  | .missing fault => .error (.text fault)
  | .null | .bool _ | .array _ _ | .object _ _ => .error .wrongShape

def readLexeme (lexeme : List Char) : Read String :=
  String.ofList <$> ofSource (Json.read lexeme)

def readString : Partial → Read String
  | .string lexeme => readLexeme lexeme
  | j => unexpected j

def keyOfString (s : String) : Read Key := (Key.read s).mapError .identity

def extensionOfString (s : String) : Read ExtensionId := (ExtensionId.read s).mapError .identity

def readKey (j : Partial) : Read Key := readString j >>= keyOfString

def readExtension (j : Partial) : Read ExtensionId := readString j >>= extensionOfString

def readList {α : Type} (item : Partial → Read α) : Partial → Read (List α)
  | .array items ending => do
    let found ← items.mapM item
    ofSource ending.check
    return found
  | j => unexpected j

def readSet {α : Type} [Ord α] [Std.TransOrd α] [Std.LawfulEqOrd α] (item : Partial → Read α)
    (j : Partial) : Read (SortedSet α) :=
  SortedSet.ofList <$> readList item j

def readMembers {α β : Type} (name : String → Read α) (value : Partial → Read β) :
    Partial → Read (List (α × β))
  | .object members ending => do
    let found ← members.mapM fun m => do
      let a ← readLexeme m.1 >>= name
      let b ← value m.2
      return (a, b)
    ofSource ending.check
    return found
  | j => unexpected j

def readTable {β : Type} (value : Partial → Read β) (j : Partial) : Read (NameTable β) :=
  NameTable.ofList <$> readMembers pure value j

def readMap {α β : Type} [Ord α] [Std.TransOrd α] [Std.LawfulEqOrd α] (name : String → Read α)
    (value : Partial → Read β) (j : Partial) : Read (SortedMap α β) :=
  SortedMap.ofList <$> readMembers name value j

/-- The fields of a record that were met so far are kept in a `σ`, into which `put` enters one
more. The answer tells whether the fields had names. No array has more items than there are
fields, whatever the items are. -/
def readRecord {σ : Type} (fields : List String) (put : σ → String → Partial → Read σ)
    (start : σ) : Partial → Read (σ × Bool)
  | .object members ending => do
    let found ← members.foldlM (fun found m => do put found (← readLexeme m.1) m.2) start
    ofSource ending.check
    return (found, true)
  | .array items ending => do
    let found ← (fields.zip items).foldlM (fun found m => put found m.1 m.2) start
    if fields.length < items.length then throw (.text .malformed)
    ofSource ending.check
    return (found, false)
  | j => unexpected j

def skipped {σ : Type} (found : σ) (j : Partial) : Read σ := do
  ofSource j.skip
  return found

def once {α : Type} (name : String) (found : Option α) (read : Partial → Read α) (j : Partial) :
    Read (Option α) :=
  if found.isSome then .error (.duplicateField name) else some <$> read j

def required {α : Type} (named : Bool) (name : String) : Option α → Read α
  | some a => .ok a
  | none => .error (if named then .missingField name else .wrongShape)

structure ModuleFields where
  key : Option Key := none
  deps : Option (NameTable Key) := none
  unusedDeps : Option (NameTable Key) := none
  extensionDeps : Option (SortedMap String (SortedSet ExtensionId)) := none
  extensions : Option (SortedMap ExtensionId (SortedSet String)) := none

def ModuleFields.put (f : ModuleFields) (name : String) (j : Partial) : Read ModuleFields :=
  match name with
  | "key" => return { f with key := ← once name f.key readKey j }
  | "deps" => return { f with deps := ← once name f.deps (readTable readKey) j }
  | "unused_deps" =>
    return { f with unusedDeps := ← once name f.unusedDeps (readTable readKey) j }
  | "extension_deps" =>
    return { f with
      extensionDeps := ← once name f.extensionDeps (readMap pure (readSet readExtension)) j }
  | "extensions" =>
    return { f with
      extensions := ← once name f.extensions (readMap extensionOfString (readSet readString)) j }
  | _ => skipped f j

def readModule (j : Partial) : Read Declaration := do
  let (f, named) ← readRecord ["key", "deps", "unused_deps", "extension_deps", "extensions"]
    ModuleFields.put {} j
  return {
    key := ← required named "key" f.key
    deps := f.deps.getD ∅
    unusedDeps := f.unusedDeps.getD ∅
    extensionDeps := f.extensionDeps.getD ∅
    extensions := f.extensions.getD ∅ }

structure TagFields where
  tagClass : Option String := none
  attributes : Option (SortedMap String String) := none

def TagFields.put (f : TagFields) (name : String) (j : Partial) : Read TagFields :=
  match name with
  | "class" => return { f with tagClass := ← once name f.tagClass readString j }
  | "attributes" =>
    return { f with attributes := ← once name f.attributes (readMap pure readString) j }
  | _ => skipped f j

def readTag (j : Partial) : Read Tag := do
  let (f, named) ← readRecord ["class", "attributes"] TagFields.put {} j
  return { tagClass := ← required named "class" f.tagClass, attributes := f.attributes.getD ∅ }

structure UsageFields where
  module : Option Key := none
  extension : Option ExtensionId := none
  tags : Option (List Tag) := none
  imports : Option (SortedSet String) := none

def UsageFields.put (f : UsageFields) (name : String) (j : Partial) : Read UsageFields :=
  match name with
  | "module" => return { f with module := ← once name f.module readKey j }
  | "extension" => return { f with extension := ← once name f.extension readExtension j }
  | "tags" => return { f with tags := ← once name f.tags (readList readTag) j }
  | "imports" => return { f with imports := ← once name f.imports (readSet readString) j }
  | _ => skipped f j

def readUsage (j : Partial) : Read UsageRow := do
  let (f, named) ← readRecord ["module", "extension", "tags", "imports"] UsageFields.put {} j
  return {
    user := ← required named "module" f.module
    extension := ← required named "extension" f.extension
    usage := { tags := f.tags.getD [], imports := f.imports.getD ∅ } }

/-- Arrays and objects may be nested 127 deep, and an attribute stands inside of three. -/
def attributeLevels : Nat := 127 - 3

def readAttribute (j : Partial) : Read Value := ofSource (Value.ofPartial attributeLevels j)

structure Fields where
  modules : Option (List Declaration) := none
  usages : Option (List UsageRow) := none
  repoRules : Option RepoRules := none

def Fields.put (f : Fields) (name : String) (j : Partial) : Read Fields :=
  match name with
  | "modules" => return { f with modules := ← once name f.modules (readList readModule) j }
  | "usages" => return { f with usages := ← once name f.usages (readList readUsage) j }
  | "repo_rules" =>
    return { f with
      repoRules := ← once name f.repoRules (readMap pure (readMap pure readAttribute)) j }
  | _ => skipped f j

def ofPartial (j : Partial) : Read Document := do
  let (f, named) ← readRecord ["modules", "usages", "repo_rules"] Fields.put {} j
  return {
    modules := ← required named "modules" f.modules
    usages := f.usages.getD []
    repoRules := f.repoRules.getD ∅ }

def ofText (s : String) : Read Document := do
  let text := Json.Reading.ofText s
  let d ← ofPartial text.value
  if text.trailing then throw (.text .malformed)
  return d

end ModuleGraph.Document
