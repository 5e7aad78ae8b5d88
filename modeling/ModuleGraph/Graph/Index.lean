import ModuleGraph.Key
import ModuleGraph.SortedMap

namespace ModuleGraph

/-- For each name the keys that bear it. -/
abbrev Index := SortedMap String (SortedSet Key)

namespace Index

def versions (index : Index) (name : String) : SortedSet Key := (index.get? name).getD ∅

def contains (index : Index) (key : Key) : Bool := key ∈ index.versions key.name

def add (index : Index) (key : Key) : Index :=
  index.insert key.name ((index.versions key.name).insert key)

/-- The index of a list of keys. The root is left out, for it is never referred to by name. -/
def ofKeys (keys : List Key) : Index := (keys.filter (!·.isRoot)).foldl add ∅

theorem mem_versions_add {index : Index} {key x : Key} {name : String} :
    x ∈ (index.add key).versions name ↔ (x = key ∧ key.name = name) ∨ x ∈ index.versions name := by
  rw [versions, add, SortedMap.get?_insert]
  by_cases h : name = key.name
  · simp [h]
  · simp [h, Ne.symm h, versions]

theorem mem_versions_foldl_add {index : Index} {keys : List Key} {x : Key} {name : String} :
    x ∈ (keys.foldl add index).versions name ↔
      (x ∈ keys ∧ x.name = name) ∨ x ∈ index.versions name := by
  induction keys generalizing index with
  | nil => simp
  | cons key keys ih =>
    rw [List.foldl_cons, ih, mem_versions_add, List.mem_cons]
    grind

theorem mem_versions_ofKeys {keys : List Key} {x : Key} {name : String} :
    x ∈ (ofKeys keys).versions name ↔ x ∈ keys ∧ x ≠ Key.root ∧ x.name = name := by
  rw [ofKeys, mem_versions_foldl_add]
  have hempty : x ∉ (∅ : Index).versions name := SortedSet.not_mem_empty x
  simp [hempty, Key.isRoot, and_assoc]

theorem contains_iff {index : Index} {key : Key} :
    index.contains key ↔ key ∈ index.versions key.name := decide_eq_true_iff

theorem contains_ofKeys_iff {keys : List Key} {key : Key} :
    (ofKeys keys).contains key ↔ key ∈ keys ∧ key ≠ Key.root := by
  rw [contains_iff, mem_versions_ofKeys]
  simp

theorem mem_foldl_add {index : Index} {keys : List Key} {name : String} :
    name ∈ keys.foldl add index ↔ name ∈ keys.map Key.name ∨ name ∈ index := by
  induction keys generalizing index with
  | nil => simp
  | cons key keys ih =>
    rw [List.foldl_cons, ih, add, SortedMap.mem_insert, List.map_cons, List.mem_cons]
    grind

theorem mem_ofKeys {keys : List Key} {name : String} :
    name ∈ ofKeys keys ↔ ∃ key ∈ keys, key ≠ Key.root ∧ key.name = name := by
  have hempty : name ∉ (∅ : Index) := by simp [SortedMap.mem_def, SortedMap.keys]
  rw [ofKeys, mem_foldl_add]
  simp [hempty, Key.isRoot, and_assoc]

end Index

end ModuleGraph
