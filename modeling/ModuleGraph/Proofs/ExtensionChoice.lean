import ModuleGraph.Proofs.Except
import ModuleGraph.Proofs.Resolution

namespace ModuleGraph

namespace Snapshot

/-- The extension is known: a module declares a usage of it, or the usage table has one. -/
def Knows (s : Snapshot) (id : ExtensionId) : Prop :=
  (∃ k node, s.graph.get? k = some node ∧ id ∈ node.declaration.extensions) ∨
    ∃ user, ⟨user, id⟩ ∈ s.usages

theorem mem_mentionedExtensions_iff {s : Snapshot} {id : ExtensionId} :
    id ∈ s.mentionedExtensions ↔ s.Knows id := by
  simp only [mentionedExtensions, Knows, UsageTable.extensions, List.mem_append, List.mem_flatMap,
    List.mem_map, SortedMap.mem_values_iff, SortedMap.mem_def, Graph.get?]
  refine or_congr ⟨?_, ?_⟩ ⟨?_, ?_⟩
  · rintro ⟨node, ⟨k, hk⟩, hid⟩
    exact ⟨k, node, hk, hid⟩
  · rintro ⟨k, node, hk, hid⟩
    exact ⟨node, ⟨k, hk⟩, hid⟩
  · rintro ⟨⟨user, _⟩, hrow, rfl⟩
    exact ⟨user, hrow⟩
  · rintro ⟨user, hrow⟩
    exact ⟨_, hrow, rfl⟩

end Snapshot

namespace Resolver

/-- A known extension of the module that the reference may mean. -/
structure Candidate (r : Resolver) (module : Key) (ref : ExtensionRef) (id : ExtensionId) :
    Prop where
  known : r.snapshot.Knows id
  module : id.module = module
  name : id.name = ref.name
  isolation : ∀ i, ref.isolation = some i → id.isolation = some i

variable {r : Resolver} {module : Key} {keys : List Key} {ref : ExtensionRef} {mref : ModuleRef}
  {id id' : ExtensionId}

theorem mem_candidates_iff : id ∈ r.candidates module ref ↔ r.Candidate module ref id := by
  rw [candidates, SortedSet.mem_ofList, List.mem_filter, Snapshot.mem_mentionedExtensions_iff,
    decide_eq_true_eq]
  constructor
  · rintro ⟨hknown, hmodule, hname, hisolation⟩
    refine ⟨hknown, hmodule, hname, fun i hi => ?_⟩
    rcases hisolation with hnone | hsame
    · simp [hi] at hnone
    · rw [hsame, hi]
  · rintro ⟨hknown, hmodule, hname, hisolation⟩
    refine ⟨hknown, hmodule, hname, ?_⟩
    cases hi : ref.isolation with
    | none => exact .inl rfl
    | some i => exact .inr (hisolation i hi)

theorem Candidate.eq_of_isolation (h : r.Candidate module ref id) (h' : r.Candidate module ref id')
    (hisolation : id.isolation = id'.isolation) : id = id' := by
  obtain ⟨-, hmodule, hname, -⟩ := h
  obtain ⟨-, hmodule', hname', -⟩ := h'
  cases id
  cases id'
  simp_all

def NotAmbiguous (e : QueryError) : Prop := ∀ text keys, e ≠ .ambiguousModule text keys

theorem mapM_accept_singleton_ends (r : Resolver) (p : Policy) (k : Key) :
    ([k].mapM (r.accept p)).Ends (· = [k]) NotAmbiguous := by
  rw [List.mapM_cons]
  refine (accept_ends_of r p (by simp [NotAmbiguous])).bind ?_
  rintro _ rfl
  exact .ok rfl

theorem denoted_usedOnly_ends (r : Resolver) (mref : ModuleRef) :
    (r.denoted .usedOnly mref).Ends (fun keys => ∃ k, keys = [k]) NotAmbiguous := by
  have hone : ∀ k, ([k].mapM (r.accept .usedOnly)).Ends (fun keys => ∃ k, keys = [k])
      NotAmbiguous := fun k =>
    (mapM_accept_singleton_ends r _ k).mono (fun keys hkeys => ⟨k, hkeys⟩) fun _ he => he
  cases mref with
  | root => exact .ok ⟨_, rfl⟩
  | exact k =>
    rw [denoted]
    split
    · exact hone k
    · exact .fail (by simp [NotAmbiguous])
  | named name =>
    cases hk : r.base.deps.get? name with
    | none =>
      have hnamed : r.named .usedOnly name = [] := by simp [named, Policy.usedOnly, hk]
      rw [denoted, hnamed]
      exact .fail (by simp [NotAmbiguous])
    | some k =>
      have hnamed : r.named .usedOnly name = [k] := by
        simp [named, Policy.usedOnly, hk, List.eraseDups_cons]
      rw [denoted, hnamed]
      exact hone k

section Chosen

variable (h : (r.denoted .usedOnly ref.module).result = .ok [module])

include h

theorem extension_result : (r.extension ref).result =
    match (r.candidates module ref).toList with
    | [] => .error (.extensionNotFound ref.name module)
    | [id] => .ok id
    | ids =>
      match ids.find? (·.isolation = none) with
      | some id => .ok id
      | none => .error (.ambiguousExtension ref.text ids) := by
  rw [extension, Answer.result_bind, h, ok_bind]
  dsimp only
  rcases (r.candidates module ref).toList with _ | ⟨id, _ | ⟨id', ids⟩⟩
  · rfl
  · rfl
  · dsimp only
    cases (id :: id' :: ids).find? (·.isolation = none) <;> rfl

theorem extension_of_none (hnone : ∀ id, ¬ r.Candidate module ref id) :
    (r.extension ref).result = .error (.extensionNotFound ref.name module) := by
  have hids : (r.candidates module ref).toList = [] :=
    List.eq_nil_iff_forall_not_mem.2 fun id hid => hnone id (mem_candidates_iff.1 hid)
  rw [extension_result h, hids]

theorem candidate_of_extension (hid : (r.extension ref).result = .ok id) :
    r.Candidate module ref id := by
  rw [← mem_candidates_iff, SortedSet.mem_def]
  rw [extension_result h] at hid
  split at hid
  · simp at hid
  · next hids =>
    rw [hids, List.mem_singleton]
    exact (Except.ok.inj hid).symm
  · split at hid
    · next hfind =>
      obtain rfl := Except.ok.inj hid
      exact List.mem_of_find?_eq_some hfind
    · simp at hid

theorem extension_of_plain (hid : r.Candidate module ref id) (hplain : id.isolation = none) :
    (r.extension ref).result = .ok id := by
  have hmem : id ∈ (r.candidates module ref).toList := mem_candidates_iff.2 hid
  rw [extension_result h]
  split
  · next hids => simp [hids] at hmem
  · next id' hids =>
    rw [hids, List.mem_singleton] at hmem
    rw [hmem]
  · split
    · next id' hfind =>
      have hid' : r.Candidate module ref id' :=
        mem_candidates_iff.1 (List.mem_of_find?_eq_some hfind)
      have hplain' : id'.isolation = none := by simpa using List.find?_some hfind
      rw [hid.eq_of_isolation hid' (hplain.trans hplain'.symm)]
    · next hfind => simpa [hplain] using List.find?_eq_none.1 hfind id hmem

theorem extension_of_only (hid : r.Candidate module ref id)
    (honly : ∀ id', r.Candidate module ref id' → id' = id) :
    (r.extension ref).result = .ok id := by
  have hids : r.candidates module ref = .ofList [id] := by
    refine SortedSet.ext fun id' => ?_
    rw [mem_candidates_iff, SortedSet.mem_ofList, List.mem_singleton]
    exact ⟨honly id', fun heq => heq ▸ hid⟩
  rw [extension_result h, hids]
  rfl

theorem extension_of_several (hid : r.Candidate module ref id)
    (hid' : r.Candidate module ref id') (hne : id ≠ id')
    (hisolated : ∀ id, r.Candidate module ref id → id.isolation ≠ none) :
    (r.extension ref).result =
      .error (.ambiguousExtension ref.text (r.candidates module ref).toList) := by
  have hmem : id ∈ (r.candidates module ref).toList := mem_candidates_iff.2 hid
  have hmem' : id' ∈ (r.candidates module ref).toList := mem_candidates_iff.2 hid'
  rw [extension_result h]
  split
  · next hids => simp [hids] at hmem
  · next hids =>
    rw [hids, List.mem_singleton] at hmem hmem'
    exact absurd (hmem.trans hmem'.symm) hne
  · split
    · next hfind =>
      exact absurd (by simpa using List.find?_some hfind)
        (hisolated _ (mem_candidates_iff.1 (List.mem_of_find?_eq_some hfind)))
    · rfl

theorem extension_eq_notFound_iff :
    (r.extension ref).result = .error (.extensionNotFound ref.name module) ↔
      ∀ id, ¬ r.Candidate module ref id := by
  refine ⟨fun hresult id hid => ?_, extension_of_none h⟩
  have hmem : id ∈ (r.candidates module ref).toList := mem_candidates_iff.2 hid
  rw [extension_result h] at hresult
  split at hresult
  · next hids => simp [hids] at hmem
  · simp at hresult
  · split at hresult <;> simp at hresult

end Chosen

theorem extension_notAmbiguous (r : Resolver) (ref : ExtensionRef) :
    (r.extension ref).Ends (fun _ => True) NotAmbiguous := by
  refine (denoted_usedOnly_ends r ref.module).bind ?_
  rintro _ ⟨module, rfl⟩
  dsimp only
  split
  · exact .fail (by simp [NotAmbiguous])
  · exact .ok trivial
  · split
    · exact .ok trivial
    · exact .fail (by simp [NotAmbiguous])

/-- A reference whose module denotes anything denotes the one candidate that is not isolated, or the
only candidate. It is not found just if there is no candidate, and otherwise ambiguous between all
of them. -/
theorem extension_chosen {s : Snapshot} {base : Key} (hs : s.Accepted)
    (hr : anchored s base = .ok r) (ref : ExtensionRef) :
    (∀ keys, (r.denoted .usedOnly ref.module).result = .ok keys → ∃ module, keys = [module] ∧
      ((r.extension ref).result = .error (.extensionNotFound ref.name module) ↔
        ∀ id, ¬ r.Candidate module ref id) ∧
      (∀ id, r.Candidate module ref id →
        (id.isolation = none ∨ ∀ id', r.Candidate module ref id' → id' = id) →
          (r.extension ref).result = .ok id) ∧
      (∀ id id', r.Candidate module ref id → r.Candidate module ref id' → id ≠ id' →
        (∀ id, r.Candidate module ref id → id.isolation ≠ none) →
          ∃ ids : List ExtensionId, ids.Pairwise (compare · · = .lt) ∧
            (∀ id, id ∈ ids ↔ r.Candidate module ref id) ∧
            (r.extension ref).result = .error (.ambiguousExtension ref.text ids)) ∧
      ∀ id, (r.extension ref).result = .ok id → r.Candidate module ref id) ∧
    (∀ id, (r.extension ref).result = .ok id → s.Knows id) ∧
    ∀ text keys, (r.extension ref).result ≠ .error (.ambiguousModule text keys) := by
  obtain ⟨-, rfl, -⟩ := anchored_sound hs hr
  refine ⟨fun keys hkeys => ?_, fun id hid => ?_, fun text keys hresult =>
    (extension_notAmbiguous r ref).of_error hresult text keys rfl⟩
  · obtain ⟨module, rfl⟩ := (denoted_usedOnly_ends r ref.module).of_ok hkeys
    refine ⟨module, rfl, extension_eq_notFound_iff hkeys, fun id hid hplain => ?_,
      fun id id' hid hid' hne hisolated => ?_, fun id => candidate_of_extension hkeys⟩
    · exact hplain.elim (extension_of_plain hkeys hid) (extension_of_only hkeys hid)
    · exact ⟨_, (r.candidates module ref).increasing, fun _ => mem_candidates_iff,
        extension_of_several hkeys hid hid' hne hisolated⟩
  · cases hkeys : (r.denoted .usedOnly ref.module).result with
    | error e =>
      rw [extension, Answer.result_bind, hkeys] at hid
      cases hid
    | ok keys =>
      obtain ⟨module, rfl⟩ := (denoted_usedOnly_ends r ref.module).of_ok hkeys
      exact (candidate_of_extension hkeys hid).known

def tool (name : String) (isolation : Option String) : ExtensionId :=
  ⟨⟨"tools", "1"⟩, name, isolation⟩

def tooled : SortedMap Key Declaration :=
  Snapshot.plain [(.root, [⟨"tools", "1"⟩]), (⟨"tools", "1"⟩, [])]

def isolatedRows : List UsageRow :=
  [tool "ext" none, tool "ext" (some "iso"), tool "only" (some "b"), tool "only" (some "a")].map
    fun id => ⟨.root, id, ⟨[], ∅⟩⟩

theorem build_isolatedRows :
    Snapshot.build tooled.values isolatedRows = .ok (.ofDeclared tooled isolatedRows) :=
  Snapshot.build_eq_ok_iff.2 ⟨tooled, by cbv, by cbv, rfl⟩

theorem anchored_isolatedRows : ∃ r, anchored (.ofDeclared tooled isolatedRows) .root = .ok r ∧
    (r.denoted .usedOnly (.named "tools")).result = .ok [⟨"tools", "1"⟩] ∧
    (r.candidates ⟨"tools", "1"⟩ ⟨.named "tools", "ext", none⟩).toList =
      [tool "ext" none, tool "ext" (some "iso")] ∧
    (r.candidates ⟨"tools", "1"⟩ ⟨.named "tools", "only", none⟩).toList =
      [tool "only" (some "a"), tool "only" (some "b")] :=
  ⟨_, rfl, by cbv, by cbv, by cbv⟩

/-- The extension that is used in both ways is found, and the one used in isolation is ambiguous. -/
theorem extension_chosen_isolatedRows : ∃ s r, s.Accepted ∧ anchored s .root = .ok r ∧
    (r.denoted .usedOnly (.named "tools")).result = .ok [⟨"tools", "1"⟩] ∧
    (r.extension ⟨.named "tools", "ext", none⟩).result = .ok (tool "ext" none) ∧
    s.Knows (tool "ext" none) ∧
    ∃ ids, (∀ id, id ∈ ids ↔ id = tool "only" (some "a") ∨ id = tool "only" (some "b")) ∧
      (r.extension ⟨.named "tools", "only", none⟩).result =
        .error (.ambiguousExtension "tools%only" ids) := by
  have hs : (Snapshot.ofDeclared tooled isolatedRows).Accepted := ⟨_, _, build_isolatedRows⟩
  obtain ⟨r, hr, hmodule, hext, honly⟩ := anchored_isolatedRows
  have hcandidate : ∀ id, r.Candidate ⟨"tools", "1"⟩ ⟨.named "tools", "only", none⟩ id ↔
      id = tool "only" (some "a") ∨ id = tool "only" (some "b") := by
    intro id
    rw [← mem_candidates_iff, SortedSet.mem_def, honly]
    simp
  obtain ⟨hchosen, hknown, -⟩ := extension_chosen hs hr ⟨.named "tools", "ext", none⟩
  obtain ⟨_, hsame, -, hplain, -⟩ := hchosen _ hmodule
  obtain rfl := (List.singleton_inj.1 hsame).symm
  have hresult := hplain (tool "ext" none)
    (mem_candidates_iff.1 (SortedSet.mem_def.2 (by simp [hext]))) (.inl rfl)
  obtain ⟨hchosen, -⟩ := extension_chosen hs hr ⟨.named "tools", "only", none⟩
  obtain ⟨_, hsame, -, -, hseveral, -⟩ := hchosen _ hmodule
  obtain rfl := (List.singleton_inj.1 hsame).symm
  obtain ⟨ids, -, hids, hambiguous⟩ := hseveral (tool "only" (some "a")) (tool "only" (some "b"))
    ((hcandidate _).2 (.inl rfl)) ((hcandidate _).2 (.inr rfl)) (by decide) fun id hid => by
      rcases (hcandidate id).1 hid with rfl | rfl <;> simp [tool]
  exact ⟨_, r, hs, hr, hmodule, hresult, hknown _ hresult, ids,
    fun id => (hids id).trans (hcandidate id), hambiguous⟩

end Resolver

end ModuleGraph
