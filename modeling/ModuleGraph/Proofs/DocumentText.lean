import ModuleGraph.Proofs.Lossless
import Mathlib

namespace ModuleGraph.Document

open Json (Partial toPartial)

/-- All attributes are without a number that is no integer. -/
def Integral (d : Document) : Prop :=
  ∀ attributes ∈ d.repoRules.values, ∀ v ∈ attributes.values, v.Integral

theorem skipped_eq_ok {σ : Type} {found found' : σ} {j : Partial}
    (h : skipped found j = .ok found') : found' = found := by
  obtain ⟨_, -, h⟩ := bind_eq_ok_iff.1 h
  exact (Except.ok.inj h).symm

structure ModuleFields.AllMet (f : ModuleFields) : Prop where
  key : Met readKey f.key
  deps : Met (readTable readKey) f.deps
  unusedDeps : Met (readTable readKey) f.unusedDeps
  extensionDeps : Met (readMap pure (readSet readExtension)) f.extensionDeps
  extensions : Met (readMap extensionOfString (readSet readString)) f.extensions

theorem ModuleFields.AllMet.put {f f' : ModuleFields} {name : String} {j : Partial}
    (hf : f.AllMet) (h : f.put name j = .ok f') : f'.AllMet := by
  unfold ModuleFields.put at h
  split at h
  case h_6 => exact skipped_eq_ok h ▸ hf
  all_goals
    obtain ⟨o, ho, h⟩ := bind_eq_ok_iff.1 h
    obtain rfl := Except.ok.inj h
  · exact { hf with key := met_of_once ho }
  · exact { hf with deps := met_of_once ho }
  · exact { hf with unusedDeps := met_of_once ho }
  · exact { hf with extensionDeps := met_of_once ho }
  · exact { hf with extensions := met_of_once ho }

structure GivesModule (d : Declaration) : Prop where
  key : Gives readKey d.key
  deps : Gives (readTable readKey) d.deps
  unusedDeps : Gives (readTable readKey) d.unusedDeps
  extensionDeps : Gives (readMap pure (readSet readExtension)) d.extensionDeps
  extensions : Gives (readMap extensionOfString (readSet readString)) d.extensions

theorem givesModule {d : Declaration} (h : Gives readModule d) : GivesModule d := by
  obtain ⟨j, h⟩ := h
  obtain ⟨⟨f, named⟩, hf, h⟩ := bind_eq_ok_iff.1 h
  obtain ⟨key, hkey, h⟩ := bind_eq_ok_iff.1 h
  obtain rfl := Except.ok.inj h
  have hmet : f.AllMet := readRecord_induction hf
    ⟨met_none _, met_none _, met_none _, met_none _, met_none _⟩ fun _ _ _ _ hf => hf.put
  exact {
    key := hmet.key.required hkey
    deps := hmet.deps.getD (gives_readTable_empty _)
    unusedDeps := hmet.unusedDeps.getD (gives_readTable_empty _)
    extensionDeps := hmet.extensionDeps.getD (gives_readMap_empty _ _)
    extensions := hmet.extensions.getD (gives_readMap_empty _ _) }

theorem lossless_module : Lossless readModule moduleToJson := by
  intro d h
  have hgives := givesModule h
  have hkey := lossless_key.standsFor hgives.key
  have hdeps := lossless_key.table.standsFor hgives.deps
  have hunused := lossless_key.table.standsFor hgives.unusedDeps
  have hextensionDeps := (lossless_extension.set.map spells_pure).standsFor hgives.extensionDeps
  have hextensions := (lossless_string.set.map spells_extension).standsFor hgives.extensions
  constructor
  · simp only [moduleToJson, Json.legible_fields_cons, Json.legible_fields_nil, and_true]
    exact ⟨hkey.legible, hdeps.legible, hunused.legible, hextensionDeps.legible,
      hextensions.legible⟩
  · simp only [moduleToJson, tableToJson, Json.ofStrings, readModule, readRecord_fields,
      List.foldlM_cons, List.foldlM_nil, ModuleFields.put, once_none, hkey.read_eq,
      hdeps.read_eq, hunused.read_eq, hextensionDeps.read_eq, hextensions.read_eq, ok_bind,
      pure_bind, Except.map_ok]
    rfl

structure TagFields.AllMet (f : TagFields) : Prop where
  tagClass : Met readString f.tagClass
  attributes : Met (readMap pure readString) f.attributes

theorem TagFields.AllMet.put {f f' : TagFields} {name : String} {j : Partial}
    (hf : f.AllMet) (h : f.put name j = .ok f') : f'.AllMet := by
  unfold TagFields.put at h
  split at h
  case h_3 => exact skipped_eq_ok h ▸ hf
  all_goals
    obtain ⟨o, ho, h⟩ := bind_eq_ok_iff.1 h
    obtain rfl := Except.ok.inj h
  · exact { hf with tagClass := met_of_once ho }
  · exact { hf with attributes := met_of_once ho }

theorem lossless_tag : Lossless readTag Tag.toJson := by
  rintro t ⟨j, h⟩
  obtain ⟨⟨f, named⟩, hf, h⟩ := bind_eq_ok_iff.1 h
  obtain ⟨tagClass, htagClass, h⟩ := bind_eq_ok_iff.1 h
  obtain rfl := Except.ok.inj h
  have hmet : f.AllMet := readRecord_induction hf ⟨met_none _, met_none _⟩
    fun _ _ _ _ hf => hf.put
  have htagClass := lossless_string.standsFor (hmet.tagClass.required htagClass)
  have hattributes := (lossless_string.map spells_pure).standsFor
    (hmet.attributes.getD (gives_readMap_empty _ _))
  constructor
  · simp only [Tag.toJson, Json.legible_fields_cons, Json.legible_fields_nil, and_true]
    exact ⟨htagClass.legible, hattributes.legible⟩
  · simp only [Tag.toJson, readTag, readRecord_fields, List.foldlM_cons, List.foldlM_nil,
      TagFields.put, once_none, htagClass.read_eq, hattributes.read_eq, ok_bind, pure_bind,
      Except.map_ok]
    rfl

structure UsageFields.AllMet (f : UsageFields) : Prop where
  module : Met readKey f.module
  extension : Met readExtension f.extension
  tags : Met (readList readTag) f.tags
  imports : Met (readSet readString) f.imports

theorem UsageFields.AllMet.put {f f' : UsageFields} {name : String} {j : Partial}
    (hf : f.AllMet) (h : f.put name j = .ok f') : f'.AllMet := by
  unfold UsageFields.put at h
  split at h
  case h_5 => exact skipped_eq_ok h ▸ hf
  all_goals
    obtain ⟨o, ho, h⟩ := bind_eq_ok_iff.1 h
    obtain rfl := Except.ok.inj h
  · exact { hf with module := met_of_once ho }
  · exact { hf with extension := met_of_once ho }
  · exact { hf with tags := met_of_once ho }
  · exact { hf with imports := met_of_once ho }

theorem lossless_usage : Lossless readUsage usageToJson := by
  rintro u ⟨j, h⟩
  obtain ⟨⟨f, named⟩, hf, h⟩ := bind_eq_ok_iff.1 h
  obtain ⟨user, huser, h⟩ := bind_eq_ok_iff.1 h
  obtain ⟨extension, hextension, h⟩ := bind_eq_ok_iff.1 h
  obtain rfl := Except.ok.inj h
  have hmet : f.AllMet := readRecord_induction hf
    ⟨met_none _, met_none _, met_none _, met_none _⟩ fun _ _ _ _ hf => hf.put
  have huser := lossless_key.standsFor (hmet.module.required huser)
  have hextension := lossless_extension.standsFor (hmet.extension.required hextension)
  have htags := lossless_tag.list.standsFor (hmet.tags.getD (gives_readList_nil _))
  have himports := lossless_string.set.standsFor (hmet.imports.getD (gives_readSet_empty _))
  constructor
  · simp only [usageToJson, Json.legible_fields_cons, Json.legible_fields_nil, and_true]
    exact ⟨huser.legible, hextension.legible, htags.legible, himports.legible⟩
  · simp only [usageToJson, Json.ofStrings, readUsage, readRecord_fields, List.foldlM_cons,
      List.foldlM_nil, UsageFields.put, once_none, huser.read_eq, hextension.read_eq,
      htags.read_eq, himports.read_eq, ok_bind, pure_bind, Except.map_ok]
    rfl

theorem standsFor_attribute {v : Value} (h : Gives readAttribute v) (hv : v.Integral) :
    StandsFor readAttribute v.toJson v := by
  obtain ⟨j, hj⟩ := h
  refine ⟨v.toJson_legible hv, ?_⟩
  rw [readAttribute, Value.rereads_of_ofPartial _ j (mapError_eq_ok_iff.1 hj) hv]
  rfl

theorem standsFor_rules {rules : RepoRules}
    (h : Gives (readMap pure (readMap pure readAttribute)) rules)
    (hrules : ∀ attributes ∈ rules.values, ∀ v ∈ attributes.values, v.Integral) :
    StandsFor (readMap pure (readMap pure readAttribute)) (rulesToJson rules) rules := by
  refine standsFor_map spells_pure h fun e he hattributes => ?_
  refine standsFor_map spells_pure hattributes fun a ha hv => ?_
  exact standsFor_attribute hv (hrules e.2 (List.mem_map_of_mem he) a.2 (List.mem_map_of_mem ha))

structure Fields.AllMet (f : Fields) : Prop where
  modules : Met (readList readModule) f.modules
  usages : Met (readList readUsage) f.usages
  repoRules : Met (readMap pure (readMap pure readAttribute)) f.repoRules

theorem Fields.AllMet.put {f f' : Fields} {name : String} {j : Partial}
    (hf : f.AllMet) (h : f.put name j = .ok f') : f'.AllMet := by
  unfold Fields.put at h
  split at h
  case h_4 => exact skipped_eq_ok h ▸ hf
  all_goals
    obtain ⟨o, ho, h⟩ := bind_eq_ok_iff.1 h
    obtain rfl := Except.ok.inj h
  · exact { hf with modules := met_of_once ho }
  · exact { hf with usages := met_of_once ho }
  · exact { hf with repoRules := met_of_once ho }

structure GivesDocument (d : Document) : Prop where
  modules : Gives (readList readModule) d.modules
  usages : Gives (readList readUsage) d.usages
  repoRules : Gives (readMap pure (readMap pure readAttribute)) d.repoRules

theorem givesDocument {d : Document} (h : Gives ofPartial d) : GivesDocument d := by
  obtain ⟨j, h⟩ := h
  obtain ⟨⟨f, named⟩, hf, h⟩ := bind_eq_ok_iff.1 h
  obtain ⟨modules, hmodules, h⟩ := bind_eq_ok_iff.1 h
  obtain rfl := Except.ok.inj h
  have hmet : f.AllMet := readRecord_induction hf ⟨met_none _, met_none _, met_none _⟩
    fun _ _ _ _ hf => hf.put
  exact {
    modules := hmet.modules.required hmodules
    usages := hmet.usages.getD (gives_readList_nil _)
    repoRules := hmet.repoRules.getD (gives_readMap_empty _ _) }

theorem standsFor_document {d : Document} (h : Gives ofPartial d) (hd : d.Integral) :
    StandsFor ofPartial d.toJson d := by
  have hgives := givesDocument h
  have hmodules := lossless_module.list.standsFor hgives.modules
  have husages := lossless_usage.list.standsFor hgives.usages
  have hrules := standsFor_rules hgives.repoRules hd
  constructor
  · simp only [toJson, Json.legible_fields_cons, Json.legible_fields_nil, and_true]
    exact ⟨hmodules.legible, husages.legible, hrules.legible⟩
  · simp only [toJson, ofPartial, readRecord_fields, List.foldlM_cons, List.foldlM_nil,
      Fields.put, once_none, hmodules.read_eq, husages.read_eq, hrules.read_eq, ok_bind,
      pure_bind, Except.map_ok]
    rfl

theorem gives_of_ofText {s : String} {d : Document} (h : ofText s = .ok d) :
    Gives ofPartial d := by
  obtain ⟨d', hd, h⟩ := bind_eq_ok_iff.1 h
  split at h
  · obtain ⟨_, h, -⟩ := bind_eq_ok_iff.1 h
    simp [throw, throwThe, MonadExceptOf.throw] at h
  · obtain rfl := Except.ok.inj h
    exact ⟨_, hd⟩

theorem readable_keys {s : String} {d : Document} (h : ofText s = .ok d) {m : Declaration}
    (hm : m ∈ d.modules) : m.key.Readable ∧ ∀ e ∈ m.deps.entries, e.2.Readable := by
  have hmodules := (givesDocument (gives_of_ofText h)).modules
  have hgives := givesModule (gives_of_mem_readList hmodules m hm)
  exact ⟨readable_of_gives hgives.key,
    fun e he => readable_of_gives (gives_of_mem_readTable hgives.deps e he)⟩

theorem ofText_compactText {j : Json} {d : Document} (h : StandsFor ofPartial j d) :
    ofText j.compactText = .ok d := by
  rw [ofText, Json.ofText_compactText h.legible]
  exact bind_eq_ok_iff.2 ⟨d, h.read_eq, rfl⟩

/-- The text of a document that was read reads as the document, and from the document that is read
the same text is written. The keys and extensions in it have the texts that they were read from. -/
theorem ofText_text {s : String} {d : Document} (h : ofText s = .ok d) (hd : d.Integral) :
    ofText d.text = .ok d ∧ text <$> ofText d.text = .ok d.text ∧
      (∀ t k, Key.ofText t = .ok k → k.text = t) ∧
      ∀ t e, ExtensionId.ofText t = .ok e → e.text = t := by
  have hread : ofText d.text = .ok d :=
    ofText_compactText (standsFor_document (gives_of_ofText h) hd)
  refine ⟨hread, ?_, fun _ _ => Key.text_of_ofText, fun _ _ => ExtensionId.text_of_ofText⟩
  rw [hread, Except.map_ok]

/-- A document with modules that are arrays, dependencies in no alphabetical order and an integer
in an attribute. -/
def unordered : String :=
  "\x7b\"modules\":[[\"<root>\",\x7b\"b\":\"b@1\",\"a\":\"a@_\"\x7d],[\"a@_\"],[\"b@1\"]]," ++
    "\"repo_rules\":\x7b\"a~\":\x7b\"n\":[-7]\x7d\x7d\x7d"

def unorderedText : String :=
  "\x7b\"modules\":[\x7b\"key\":\"<root>\",\"deps\":\x7b\"b\":\"b@1\",\"a\":\"a@_\"\x7d," ++
    "\"unused_deps\":\x7b\x7d,\"extension_deps\":\x7b\x7d,\"extensions\":\x7b\x7d\x7d," ++
    "\x7b\"key\":\"a@_\",\"deps\":\x7b\x7d,\"unused_deps\":\x7b\x7d," ++
    "\"extension_deps\":\x7b\x7d,\"extensions\":\x7b\x7d\x7d," ++
    "\x7b\"key\":\"b@1\",\"deps\":\x7b\x7d,\"unused_deps\":\x7b\x7d," ++
    "\"extension_deps\":\x7b\x7d,\"extensions\":\x7b\x7d\x7d]," ++
    "\"usages\":[],\"repo_rules\":\x7b\"a~\":\x7b\"n\":[-7]\x7d\x7d\x7d"

set_option maxRecDepth 4000 in
/-- That document reads back from its own text, in which the dependencies keep their order. -/
theorem ofText_text_unordered : ∃ d, ofText unordered = .ok d ∧
    d.modules.map (fun m => (m.key, m.deps.entries)) =
      [(.root, [("b", ⟨"b", "1"⟩), ("a", ⟨"a", ""⟩)]), (⟨"a", ""⟩, []), (⟨"b", "1"⟩, [])] ∧
    d.repoRules = .ofList [("a~", .ofList [("n", .array [.number (.integer (-7))])])] ∧
    d.Integral ∧ d.text = unorderedText ∧
    ofText d.text = .ok d ∧ text <$> ofText d.text = .ok d.text := by
  have htree : Json.Reading.ofText unordered = ⟨.object [
      ("modules".toList, .array [
        .array [.string "<root>".toList, .object [
          (['b'], .string "b@1".toList), (['a'], .string "a@_".toList)] .closed] .closed,
        .array [.string "a@_".toList] .closed, .array [.string "b@1".toList] .closed] .closed),
      ("repo_rules".toList, .object [
        (['a', '~'], .object [(['n'], .array [.number ['-', '7']] .closed)] .closed)] .closed)]
      .closed, false⟩ := by cbv
  let d : Document := {
    modules := [
      ⟨.root, .ofList [("b", ⟨"b", "1"⟩), ("a", ⟨"a", ""⟩)], ∅, ∅, ∅⟩,
      ⟨⟨"a", ""⟩, ∅, ∅, ∅, ∅⟩, ⟨⟨"b", "1"⟩, ∅, ∅, ∅, ∅⟩]
    usages := []
    repoRules := .ofList [("a~", .ofList [("n", .array [.number (.integer (-7))])])] }
  have hread : ofText unordered = .ok d := by
    rw [ofText, htree]
    rfl
  have hd : d.Integral := by
    intro attributes ha v hv
    obtain rfl := List.mem_singleton.1 ha
    obtain rfl := List.mem_singleton.1 hv
    exact .array (List.forall_mem_singleton.2 (.integer _))
  have hwritten : d.text = unorderedText := by cbv
  obtain ⟨hok, htext, -, -⟩ := ofText_text hread hd
  exact ⟨d, hread, rfl, rfl, hd, hwritten, hok, htext⟩

end ModuleGraph.Document
