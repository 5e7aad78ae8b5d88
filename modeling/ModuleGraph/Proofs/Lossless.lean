import ModuleGraph.Document.Reader
import ModuleGraph.Document.Writer
import ModuleGraph.Proofs.Identity
import ModuleGraph.Proofs.ValueText

/-!
# Formats without a loss

A format is a reader of trees and a writer of them. It is lossless when all that the reader gives
is written as a tree from which the reader gives it again. Lists, sets, tables, maps and records of
parts in lossless formats are in a lossless format themselves.
-/
namespace ModuleGraph

namespace Json

theorem legible_fields_iff {members : List (String × Json)} :
    (fields members).Legible ↔ ∀ m ∈ members, m.2.Legible := by
  rw [fields, legible_object_iff, List.forall_mem_map]
  exact forall₂_congr fun m _ => and_iff_right ⟨m.1.toList, rfl⟩

theorem legible_fields_nil : (fields []).Legible := by simp [legible_fields_iff]

theorem legible_fields_cons {m : String × Json} {members : List (String × Json)} :
    (fields (m :: members)).Legible ↔ m.2.Legible ∧ (fields members).Legible := by
  simp only [legible_fields_iff, List.forall_mem_cons]

theorem toPartial_fields (members : List (String × Json)) : toPartial (fields members) =
    .object (members.map fun m => (escape m.1.toList, toPartial m.2)) .closed := by
  rw [fields, toPartial, membersToPartial_eq_map, List.map_map]
  rfl

end Json

namespace Document

open Json (Partial toPartial)

variable {α β : Type}

def Gives (read : Partial → Read α) (a : α) : Prop := ∃ j, read j = .ok a

/-- The tree stands for the value: a text can hold it, and the value is read from it. -/
structure StandsFor (read : Partial → Read α) (j : Json) (a : α) : Prop where
  legible : j.Legible
  read_eq : read (toPartial j) = .ok a

/-- What reading gives is written as a tree that stands for it. -/
def Lossless (read : Partial → Read α) (write : α → Json) : Prop :=
  ∀ a, Gives read a → StandsFor read (write a) a

theorem Lossless.standsFor {read : Partial → Read α} {write : α → Json} (h : Lossless read write)
    {a : α} (ha : Gives read a) : StandsFor read (write a) a := h a ha

/-- A text that is read as the name of something is the text written for it. -/
def Spells (name : String → Read α) (text : α → String) : Prop :=
  ∀ s a, name s = .ok a → text a = s

theorem unexpected_ne_ok (j : Partial) (a : α) : unexpected j ≠ .ok a := by
  intro h
  cases j with
  | string lexeme | number lexeme =>
    obtain ⟨_, -, h⟩ := bind_eq_ok_iff.1 h
    simp at h
  | _ => simp [unexpected] at h

theorem readLexeme_escape (s : String) : readLexeme (Json.escape s.toList) = .ok s := by
  rw [readLexeme, Json.read_escape]
  exact congrArg Except.ok String.ofList_toList

theorem standsFor_ofString (s : String) : StandsFor readString (Json.ofString s) s where
  legible := by
    rw [Json.ofString, Json.Legible]
    exact ⟨s.toList, rfl⟩
  read_eq := readLexeme_escape s

theorem spells_pure : Spells pure fun s => s := fun _ _ h => (Except.ok.inj h).symm

theorem keyOfString_eq_ok_iff {s : String} {k : Key} :
    keyOfString s = .ok k ↔ Key.ofText s = .ok k :=
  mapError_eq_ok_iff.trans mapError_eq_ok_iff

theorem extensionOfString_eq_ok_iff {s : String} {e : ExtensionId} :
    extensionOfString s = .ok e ↔ ExtensionId.ofText s = .ok e :=
  mapError_eq_ok_iff.trans mapError_eq_ok_iff

theorem spells_key : Spells keyOfString Key.text := fun _ _ h =>
  Key.text_of_ofText (keyOfString_eq_ok_iff.1 h)

theorem spells_extension : Spells extensionOfString ExtensionId.text := fun _ _ h =>
  ExtensionId.text_of_ofText (extensionOfString_eq_ok_iff.1 h)

theorem readable_of_gives {k : Key} (h : Gives readKey k) : k.Readable := by
  obtain ⟨j, h⟩ := h
  obtain ⟨s, -, hs⟩ := bind_eq_ok_iff.1 h
  exact Key.readable_of_ofText (keyOfString_eq_ok_iff.1 hs)

theorem Spells.read_text {name : String → Read α} {text : α → String} (h : Spells name text)
    {s : String} {a : α} (ha : name s = .ok a) : name (text a) = .ok a := by
  rw [h s a ha, ha]

theorem Spells.lossless {name : String → Read α} {text : α → String} (h : Spells name text) :
    Lossless (fun j => readString j >>= name) (fun a => Json.ofString (text a)) := by
  rintro a ⟨j, hj⟩
  obtain ⟨s, -, hs⟩ := bind_eq_ok_iff.1 hj
  have htext := standsFor_ofString (text a)
  exact ⟨htext.legible, bind_eq_ok_iff.2 ⟨text a, htext.read_eq, h.read_text hs⟩⟩

theorem lossless_string : Lossless readString Json.ofString := fun s _ => standsFor_ofString s

theorem lossless_key : Lossless readKey Json.ofKey := spells_key.lossless

theorem lossless_extension : Lossless readExtension Json.ofExtension := spells_extension.lossless

section Lists

variable {item : Partial → Read α} {write : α → Json} {l : List α}

theorem gives_of_mem_readList (h : Gives (readList item) l) : ∀ a ∈ l, Gives item a := by
  obtain ⟨j, h⟩ := h
  unfold readList at h
  split at h
  · obtain ⟨found, hfound, h⟩ := bind_eq_ok_iff.1 h
    obtain ⟨_, -, h⟩ := bind_eq_ok_iff.1 h
    obtain rfl := Except.ok.inj h
    intro a ha
    obtain ⟨j, -, hj⟩ := exists_of_mem_mapM hfound ha
    exact ⟨j, hj⟩
  · exact absurd h (unexpected_ne_ok _ _)

theorem standsFor_array (h : ∀ a ∈ l, StandsFor item (write a) a) :
    StandsFor (readList item) (.array (l.map write)) l where
  legible := Json.legible_array_iff.2 (List.forall_mem_map.2 fun a ha => (h a ha).legible)
  read_eq := by
    have hitems : (l.map fun a => toPartial (write a)).mapM item = .ok l :=
      mapM_eq_ok_iff.2 (List.forall₂_map_left_iff.2 (List.forall₂_same.2 fun a ha =>
        (h a ha).read_eq))
    rw [toPartial, Json.itemsToPartial_eq_map, List.map_map, readList]
    exact bind_eq_ok_iff.2 ⟨l, hitems, rfl⟩

theorem Lossless.list (h : Lossless item write) :
    Lossless (readList item) (fun l => .array (l.map write)) :=
  fun _ hl => standsFor_array fun a ha => h a (gives_of_mem_readList hl a ha)

theorem Lossless.set [Ord α] [Std.TransOrd α] [Std.LawfulEqOrd α] (h : Lossless item write) :
    Lossless (readSet item) (fun s => .array (s.toList.map write)) := by
  rintro s ⟨j, hj⟩
  obtain ⟨l, hl, rfl⟩ := map_eq_ok_iff.1 hj
  have hitems := standsFor_array fun a ha =>
    h a (gives_of_mem_readList ⟨j, hl⟩ a (SortedSet.mem_ofList.1 ha))
  exact ⟨hitems.legible, map_eq_ok_iff.2 ⟨_, hitems.read_eq, SortedSet.ofList_toList _⟩⟩

end Lists

section Members

variable {name : String → Read α} {value : Partial → Read β} {text : α → String}
  {write : β → Json} {l : List (α × β)}

theorem gives_of_mem_readMembers (h : Gives (readMembers name value) l) :
    ∀ e ∈ l, (∃ s, name s = .ok e.1) ∧ Gives value e.2 := by
  obtain ⟨j, h⟩ := h
  unfold readMembers at h
  split at h
  · obtain ⟨found, hfound, h⟩ := bind_eq_ok_iff.1 h
    obtain ⟨_, -, h⟩ := bind_eq_ok_iff.1 h
    obtain rfl := Except.ok.inj h
    intro e he
    obtain ⟨m, -, hm⟩ := exists_of_mem_mapM hfound he
    obtain ⟨a, ha, hm⟩ := bind_eq_ok_iff.1 hm
    obtain ⟨b, hb, hm⟩ := bind_eq_ok_iff.1 hm
    obtain rfl := Except.ok.inj hm
    obtain ⟨s, -, hs⟩ := bind_eq_ok_iff.1 ha
    exact ⟨⟨s, hs⟩, m.2, hb⟩
  · exact absurd h (unexpected_ne_ok _ _)

variable (name text) in
theorem standsFor_fields (hname : ∀ e ∈ l, name (text e.1) = .ok e.1)
    (hvalue : ∀ e ∈ l, StandsFor value (write e.2) e.2) :
    StandsFor (readMembers name value) (Json.fields (l.map fun e => (text e.1, write e.2))) l where
  legible := Json.legible_fields_iff.2 (List.forall_mem_map.2 fun e he => (hvalue e he).legible)
  read_eq := by
    rw [Json.toPartial_fields, List.map_map, readMembers]
    refine bind_eq_ok_iff.2 ⟨l, ?_, rfl⟩
    refine mapM_eq_ok_iff.2 (List.forall₂_map_left_iff.2 (List.forall₂_same.2 fun e he => ?_))
    simp only [Function.comp_apply, readLexeme_escape]
    exact bind_eq_ok_iff.2 ⟨e.1, hname e he, bind_eq_ok_iff.2 ⟨e.2, (hvalue e he).read_eq, rfl⟩⟩

theorem gives_of_mem_readTable {t : NameTable β} (h : Gives (readTable value) t) :
    ∀ e ∈ t.entries, Gives value e.2 := by
  obtain ⟨j, h⟩ := h
  obtain ⟨l, hl, rfl⟩ := map_eq_ok_iff.1 h
  exact fun e he => (gives_of_mem_readMembers ⟨j, hl⟩ e (NameTable.mem_of_mem_ofList he)).2

theorem Lossless.table (h : Lossless value write) : Lossless (readTable value)
    (fun t => Json.fields (t.entries.map fun e => (e.1, write e.2))) := by
  intro t ht
  have hentries := standsFor_fields pure id (fun _ _ => rfl) fun e he =>
    h e.2 (gives_of_mem_readTable ht e he)
  exact ⟨hentries.legible,
    map_eq_ok_iff.2 ⟨_, hentries.read_eq, NameTable.ofList_entries _⟩⟩

variable [Ord α] [Std.TransOrd α] [Std.LawfulEqOrd α]

theorem gives_of_mem_readMap {m : SortedMap α β} (h : Gives (readMap name value) m) :
    ∀ e ∈ m.entries, (∃ s, name s = .ok e.1) ∧ Gives value e.2 := by
  obtain ⟨j, h⟩ := h
  obtain ⟨l, hl, rfl⟩ := map_eq_ok_iff.1 h
  exact fun e he => gives_of_mem_readMembers ⟨j, hl⟩ e (SortedMap.mem_of_mem_ofList he)

theorem standsFor_map (hname : Spells name text) {m : SortedMap α β}
    (hm : Gives (readMap name value) m)
    (h : ∀ e ∈ m.entries, Gives value e.2 → StandsFor value (write e.2) e.2) :
    StandsFor (readMap name value)
      (Json.fields (m.entries.map fun e => (text e.1, write e.2))) m := by
  have hgives := gives_of_mem_readMap hm
  have hentries : StandsFor (readMembers name value)
      (Json.fields (m.entries.map fun e => (text e.1, write e.2))) m.entries := by
    refine standsFor_fields name text (fun e he => ?_) fun e he => h e he (hgives e he).2
    obtain ⟨s, hs⟩ := (hgives e he).1
    exact hname.read_text hs
  exact ⟨hentries.legible, map_eq_ok_iff.2 ⟨_, hentries.read_eq, SortedMap.ofList_entries m⟩⟩

theorem Lossless.map (hname : Spells name text) (h : Lossless value write) :
    Lossless (readMap name value)
      (fun m => Json.fields (m.entries.map fun e => (text e.1, write e.2))) :=
  fun _ hm => standsFor_map hname hm fun e _ => h e.2

end Members

section Records

variable {σ : Type} {read : Partial → Read α} {found : Option α}

def Met (read : Partial → Read α) (found : Option α) : Prop := ∀ a ∈ found, Gives read a

theorem met_none (read : Partial → Read α) : Met read none := by simp [Met]

theorem met_of_once {name : String} {found' : Option α} {j : Partial}
    (h : once name found read j = .ok found') : Met read found' := by
  unfold once at h
  split at h
  · simp at h
  · obtain ⟨a, ha, rfl⟩ := map_eq_ok_iff.1 h
    intro b hb
    obtain rfl := Option.some.inj hb
    exact ⟨j, ha⟩

theorem once_none (name : String) (read : Partial → Read α) (j : Partial) :
    once name none read j = some <$> read j := rfl

theorem Met.required (h : Met read found) {named : Bool} {name : String} {a : α}
    (ha : required named name found = .ok a) : Gives read a := by
  cases found with
  | none => simp [Document.required] at ha
  | some b =>
    obtain rfl := Except.ok.inj ha
    exact h b rfl

theorem Met.getD (h : Met read found) {a : α} (ha : Gives read a) : Gives read (found.getD a) := by
  cases found with
  | none => exact ha
  | some b => exact h b rfl

theorem gives_readTable_empty (value : Partial → Read β) : Gives (readTable value) ∅ :=
  ⟨.object [] .closed, rfl⟩

theorem gives_readMap_empty [Ord α] [Std.TransOrd α] [Std.LawfulEqOrd α]
    (name : String → Read α) (value : Partial → Read β) : Gives (readMap name value) ∅ :=
  ⟨.object [] .closed, rfl⟩

theorem gives_readSet_empty [Ord α] [Std.TransOrd α] [Std.LawfulEqOrd α]
    (item : Partial → Read α) : Gives (readSet item) ∅ :=
  ⟨.array [] .closed, rfl⟩

theorem gives_readList_nil (item : Partial → Read α) : Gives (readList item) [] :=
  ⟨.array [] .closed, rfl⟩

/-- What every field keeps holds of a record that was read. -/
theorem readRecord_induction {P : σ → Prop} {fields : List String}
    {put : σ → String → Partial → Read σ} {start : σ} {j : Partial} {s : σ} {named : Bool}
    (h : readRecord fields put start j = .ok (s, named)) (hstart : P start)
    (hput : ∀ s name j s', P s → put s name j = .ok s' → P s') : P s := by
  unfold readRecord at h
  split at h
  · obtain ⟨t, ht, h⟩ := bind_eq_ok_iff.1 h
    obtain ⟨_, -, h⟩ := bind_eq_ok_iff.1 h
    obtain ⟨rfl, -⟩ := Prod.mk.inj (Except.ok.inj h)
    refine foldlM_induction ht hstart fun s m s' hs hm => ?_
    obtain ⟨name, -, hm⟩ := bind_eq_ok_iff.1 hm
    exact hput s name m.2 s' hs hm
  · obtain ⟨t, ht, h⟩ := bind_eq_ok_iff.1 h
    have hP : P t := foldlM_induction ht hstart fun s m s' hs hm => hput s m.1 m.2 s' hs hm
    split at h
    · obtain ⟨_, h, -⟩ := bind_eq_ok_iff.1 h
      simp [throw, throwThe, MonadExceptOf.throw] at h
    · obtain ⟨_, -, h⟩ := bind_eq_ok_iff.1 h
      obtain ⟨rfl, -⟩ := Prod.mk.inj (Except.ok.inj h)
      exact hP
  · exact absurd h (unexpected_ne_ok _ _)

theorem readRecord_fields (fields : List String) (put : σ → String → Partial → Read σ) (start : σ)
    (members : List (String × Json)) :
    readRecord fields put start (toPartial (Json.fields members)) =
      (·, true) <$> members.foldlM (fun s m => put s m.1 (toPartial m.2)) start := by
  rw [Json.toPartial_fields, readRecord, List.foldlM_map]
  simp only [readLexeme_escape]
  rfl

end Records

end Document

end ModuleGraph
