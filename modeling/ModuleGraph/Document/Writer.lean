import ModuleGraph.Document
import ModuleGraph.Json.Writer

namespace ModuleGraph

namespace Json

def fields (members : List (String × Json)) : Json :=
  .object (members.map fun m => (escape m.1.toList, m.2))

def ofKey (k : Key) : Json := ofString k.text

def ofExtension (e : ExtensionId) : Json := ofString e.text

def ofStrings (s : SortedSet String) : Json := .array (s.toList.map ofString)

end Json

namespace Tag

def toJson (t : Tag) : Json :=
  Json.fields [
    ("class", Json.ofString t.tagClass),
    ("attributes", Json.fields (t.attributes.entries.map fun e => (e.1, Json.ofString e.2)))]

end Tag

namespace Document

def tableToJson (t : NameTable Key) : Json :=
  Json.fields (t.entries.map fun e => (e.1, Json.ofKey e.2))

def moduleToJson (d : Declaration) : Json :=
  Json.fields [
    ("key", Json.ofKey d.key),
    ("deps", tableToJson d.deps),
    ("unused_deps", tableToJson d.unusedDeps),
    ("extension_deps", Json.fields (d.extensionDeps.entries.map fun e =>
      (e.1, .array (e.2.toList.map Json.ofExtension)))),
    ("extensions", Json.fields (d.extensions.entries.map fun e =>
      (e.1.text, Json.ofStrings e.2)))]

def usageToJson (u : UsageRow) : Json :=
  Json.fields [
    ("module", Json.ofKey u.user),
    ("extension", Json.ofExtension u.extension),
    ("tags", .array (u.usage.tags.map Tag.toJson)),
    ("imports", Json.ofStrings u.usage.imports)]

def attributesToJson (attributes : SortedMap String Value) : Json :=
  Json.fields (attributes.entries.map fun e => (e.1, e.2.toJson))

def rulesToJson (rules : RepoRules) : Json :=
  Json.fields (rules.entries.map fun e => (e.1, attributesToJson e.2))

def toJson (d : Document) : Json :=
  Json.fields [
    ("modules", .array (d.modules.map moduleToJson)),
    ("usages", .array (d.usages.map usageToJson)),
    ("repo_rules", rulesToJson d.repoRules)]

def text (d : Document) : String := d.toJson.compactText

end Document

end ModuleGraph
