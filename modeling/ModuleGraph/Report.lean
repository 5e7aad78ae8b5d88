import ModuleGraph.Document.Writer
import ModuleGraph.Drawing
import ModuleGraph.Query.Request
import ModuleGraph.Text.Quoted

namespace ModuleGraph

inductive Format
  | text
  | json
deriving DecidableEq

namespace Report

def noPath : String := "No path found.\n"

def indentation : String := "    "

/-- The walks, a mark if some are missing, and the trees if they show more than their roots. -/
def allPathsText (charset : Charset) (found : AllPaths) : String :=
  if found.paths.isEmpty && !found.truncated then noPath
  else
    String.join (found.paths.map fun p => p.text ++ "\n") ++
      (if found.truncated then "(truncated)\n" else "") ++
      if found.targetTrees.entries.any (0 < ·.depth) then "\n" ++ found.targetTrees.draw charset
      else ""

def repoText (repo : ShownRepo) : String :=
  "@" ++ repo.repoName ++ " -> " ++ (Document.attributesToJson repo.attributes).compactText ++ "\n"

def tagText (extension : ExtensionId) (tag : Tag) : String :=
  let attributes := tag.attributes.entries.map fun e => e.1 ++ " = " ++ Text.quote e.2
  indentation ++ extension.name ++ "." ++ tag.tagClass ++ "(" ++ ", ".intercalate attributes ++
    ")\n"

def importText (repo : RepoImport) : String :=
  indentation ++ repo.name ++ (if repo.imported then " (imported)\n" else " (not imported)\n")

def usageText (extension : ExtensionId) (usage : UsageReport) : String :=
  usage.module.text ++ "\n" ++ String.join (usage.tags.map (tagText extension)) ++
    String.join (usage.repos.map importText)

def extensionText (report : ExtensionReport) : String :=
  "## " ++ report.extension.text ++ "\n" ++
    if report.isEmpty then "(no usages)\n"
    else String.join (report.usages.map (usageText report.extension))

def causeJson : Cause → Json
  | .direct => Json.fields [("kind", Json.ofString "direct")]
  | .extension id =>
    Json.fields [("kind", Json.ofString "extension"), ("extension", Json.ofExtension id)]

def natJson (n : Nat) : Json := .number (Nat.toDigits 10 n)

def entryJson (e : Entry) : Json :=
  Json.fields [
    ("key", Json.ofKey e.key),
    ("depth", natJson e.depth),
    ("reference_only", .bool e.referenceOnly),
    ("cause", (e.cause.map causeJson).getD .null)]

def treeJson (t : Tree) : Json := Json.fields [("entries", .array (t.entries.map entryJson))]

def pathJson (p : Path) : Json :=
  Json.fields [
    ("nodes", .array (p.nodes.map Json.ofKey)),
    ("edges", .array (p.causes.map causeJson))]

def allPathsJson (found : AllPaths) : Json :=
  Json.fields [
    ("paths", .array (found.paths.map pathJson)),
    ("truncated", .bool found.truncated),
    ("target_trees", treeJson found.targetTrees)]

def repoJson (repo : ShownRepo) : Json :=
  Json.fields [
    ("module", Json.ofKey repo.module),
    ("repo_name", Json.ofString repo.repoName),
    ("attributes", Document.attributesToJson repo.attributes)]

def importJson (repo : RepoImport) : Json :=
  Json.fields [("name", Json.ofString repo.name), ("imported", .bool repo.imported)]

def usageJson (usage : UsageReport) : Json :=
  Json.fields [
    ("module", Json.ofKey usage.module),
    ("tags", .array (usage.tags.map Tag.toJson)),
    ("repos", .array (usage.repos.map importJson))]

def extensionJson (report : ExtensionReport) : Json :=
  Json.fields [
    ("extension", Json.ofExtension report.extension),
    ("generated", Json.ofStrings report.generated),
    ("usages", .array (report.usages.map usageJson))]

end Report

namespace Outcome

def text (charset : Charset) : Outcome → String
  | tree t => t.draw charset
  | path (some p) => p.text ++ "\n"
  | path none => Report.noPath
  | allPaths found => Report.allPathsText charset found
  | repos shown => String.join (shown.map Report.repoText)
  | extensions reports => String.join (reports.map Report.extensionText)

def name : Outcome → String
  | tree _ => "tree"
  | path _ => "path"
  | allPaths _ => "all_paths"
  | repos _ => "show"
  | extensions _ => "show_extension"

def resultJson : Outcome → Json
  | tree t => Report.treeJson t
  | path p => (p.map Report.pathJson).getD .null
  | allPaths found => Report.allPathsJson found
  | repos shown => .array (shown.map Report.repoJson)
  | extensions reports => .array (reports.map Report.extensionJson)

def toJson (o : Outcome) : Json :=
  Json.fields [("query", Json.ofString o.name), ("result", o.resultJson)]

def render (format : Format) (charset : Charset) (o : Outcome) : String :=
  match format with
  | .text => o.text charset
  | .json => o.toJson.prettyText ++ "\n"

end Outcome

end ModuleGraph
