import ModuleGraph.Proofs.Answer
import ModuleGraph.Proofs.BuiltGraph
import ModuleGraph.Query.Request

namespace ModuleGraph

theorem NameTable.mem_values_of_get? {β : Type} {t : NameTable β} {name : String} {b : β}
    (h : t.get? name = some b) : b ∈ t.values :=
  List.mem_map.2 ⟨_, (SortedMap.lookup_eq_some_iff t.names_nodup).1 h, rfl⟩

namespace Resolver

structure Sound (r : Resolver) : Prop where
  accepted : r.snapshot.Accepted
  exists_base : ∃ k node, r.snapshot.graph.get? k = some node ∧ r.base = node.declaration

def Within (s : Snapshot) (keys : List Key) : Prop := ∀ k ∈ keys, s.graph.contains k

theorem within_flatten {s : Snapshot} {keys : List (List Key)} (h : ∀ ks ∈ keys, Within s ks) :
    Within s keys.flatten.eraseDups := by
  intro k hk
  obtain ⟨ks, hks, hk⟩ := List.mem_flatten.1 (List.mem_eraseDups.1 hk)
  exact h ks hks k hk

variable {r : Resolver} {p : Policy} {k : Key} {name : String}

theorem anchored_sound {s : Snapshot} {base : Key} (hs : s.Accepted)
    (h : anchored s base = .ok r) : r.Sound ∧ r.snapshot = s ∧ r.base.key = base ∧
      ∃ node, s.graph.get? base = some node ∧ r.base = node.declaration := by
  rw [anchored, Graph.get] at h
  cases hnode : s.graph.get? base with
  | none => simp [hnode, Except.map] at h
  | some node =>
    rw [hnode] at h
    obtain rfl := Except.ok.inj h
    obtain ⟨declarations, rows, hbuilt⟩ := hs
    exact ⟨⟨⟨_, _, hbuilt⟩, base, node, hnode, rfl⟩, rfl,
      (Snapshot.declaration_mem hbuilt hnode).2, node, rfl, rfl⟩

theorem accept_ends_of {error : QueryError → Prop} (r : Resolver) (p : Policy)
    (h : error (.unusedExcluded k)) : (r.accept p k).Ends (· = k) error := by
  rw [accept]
  split
  · exact .ok rfl
  · split
    · exact .fail h
    · exact .warning rfl

theorem accept_ends (r : Resolver) (p : Policy) (k : Key) :
    (r.accept p k).Ends (· = k) QueryError.Plain :=
  accept_ends_of r p ⟨rfl, by simp⟩

theorem accept_mapM_ends {keys : List Key} (h : Within r.snapshot keys) :
    (keys.mapM (r.accept p)).Ends (Within r.snapshot) QueryError.Plain := by
  refine Answer.Ends.mapM fun k hk => (accept_ends r p k).mono ?_ fun _ => id
  rintro _ rfl
  exact h _ hk

theorem mem_values_of_mem_named (hk : k ∈ r.named p name) :
    k ∈ r.base.deps.values ++ r.base.unusedDeps.values := by
  rw [named, List.mem_eraseDups, List.mem_append, Option.mem_toList, Option.mem_toList] at hk
  rcases hk with hk | hk
  · exact List.mem_append_left _ (NameTable.mem_values_of_get? hk)
  · split at hk
    · exact List.mem_append_right _ (NameTable.mem_values_of_get? hk)
    · simp at hk

namespace Sound

variable (h : r.Sound)

include h

theorem within_named : Within r.snapshot (r.named p name) := by
  intro k hk
  obtain ⟨j, node, hj, hbase⟩ := h.exists_base
  have htarget := mem_values_of_mem_named hk
  rw [hbase] at htarget
  exact Graph.contains_iff.2 (h.accepted.exists_target hj htarget)

theorem denoted_ends (ref : ModuleRef) :
    (r.denoted p ref).Ends (Within r.snapshot) QueryError.Plain := by
  cases ref with
  | root =>
    refine .ok fun k hk => ?_
    obtain rfl := List.mem_singleton.1 hk
    exact Graph.contains_iff.2 h.accepted.exists_root
  | exact key =>
    rw [denoted]
    split
    · next hindex =>
      refine accept_mapM_ends fun k hk => ?_
      obtain rfl := List.mem_singleton.1 hk
      exact Graph.contains_iff.2 (h.accepted.exists_indexed hindex)
    · exact .fail ⟨rfl, by simp⟩
  | named name =>
    rw [denoted]
    split
    · exact .fail ⟨rfl, by simp⟩
    · exact accept_mapM_ends h.within_named

theorem modules_ends (text : String) :
    (r.modules p text).Ends (Within r.snapshot) QueryError.Plain := by
  refine (Answer.Ends.lift fun _ => ⟨rfl, by simp⟩).bind fun refs _ => ?_
  refine (Answer.Ends.mapM fun ref _ => h.denoted_ends ref).bind fun keys hkeys => ?_
  exact .ok (within_flatten hkeys)

theorem extension_ends (ref : ExtensionRef) :
    (r.extension ref).Ends (fun _ => True) QueryError.Plain := by
  refine (h.denoted_ends ref.module).bind fun keys _ => ?_
  split
  · split
    · exact .fail ⟨rfl, by simp⟩
    · exact .ok trivial
    · split
      · exact .ok trivial
      · exact .fail ⟨rfl, by simp⟩
  · exact .fail ⟨rfl, by simp⟩

theorem extensions_ends (text : String) :
    (r.extensions text).Ends (fun _ => True) QueryError.Plain := by
  refine (Answer.Ends.lift fun _ => ⟨rfl, by simp⟩).bind fun refs _ => ?_
  refine (Answer.Ends.mapM fun ref _ => h.extension_ends ref).bind fun ids _ => ?_
  exact .ok trivial

end Sound

end Resolver

end ModuleGraph
