import ModuleGraph.Proofs.BareNames
import ModuleGraph.Proofs.FirstSeen

/-!
# What a list of modules denotes

`Expands` says token by token which modules a list denotes, and `Refuses` with what error a token
that can be read is turned down. Every token that can be read does one or the other. A list denotes
something just if all of its tokens do; otherwise the first token that cannot be read decides, and
the first one that is turned down when all can be read.
-/
namespace ModuleGraph

theorem forall_or_exists_first {α : Type} {P Q : α → Prop} {l : List α}
    (h : ∀ a ∈ l, P a ∨ Q a) :
    (∀ a ∈ l, P a) ∨ ∃ before a after, l = before ++ a :: after ∧ (∀ b ∈ before, P b) ∧ Q a := by
  induction l with
  | nil => exact .inl nofun
  | cons a l ih =>
    rcases h a List.mem_cons_self with hP | hQ
    · rcases ih fun b hb => h b (List.mem_cons_of_mem a hb) with hall | hfirst
      · exact .inl (List.forall_mem_cons.2 ⟨hP, hall⟩)
      · obtain ⟨before, b, after, rfl, hbefore, hb⟩ := hfirst
        exact .inr ⟨a :: before, b, after, rfl, List.forall_mem_cons.2 ⟨hP, hbefore⟩, hb⟩
    · exact .inr ⟨[], a, l, rfl, nofun, hQ⟩

namespace Resolver

def Admits (r : Resolver) (p : Policy) (k : Key) : Prop :=
  r.snapshot.graph.isUsed k ∨ p.includeUnused

/-- The modules that a token denotes. -/
inductive Expands (r : Resolver) (p : Policy) (token : String) : List Key → Prop
  | root : ModuleRef.ofText token = .ok .root → Expands r p token [.root]
  | exact {k : Key} : ModuleRef.ofText token = .ok (.exact k) → r.snapshot.graph.contains k →
      r.Admits p k → Expands r p token [k]
  /-- The base knows a selected version under the name, and no other that is allowed. -/
  | selected {name : String} {k : Key} : ModuleRef.ofText token = .ok (.named name) →
      r.base.deps.get? name = some k → r.Admits p k →
      (p.includeUnused → ∀ l, r.base.unusedDeps.get? name = some l → l = k) →
      Expands r p token [k]
  /-- The base knows the name by a version that lost selection only. -/
  | lost {name : String} {l : Key} : ModuleRef.ofText token = .ok (.named name) →
      p.includeUnused → r.base.deps.get? name = none → r.base.unusedDeps.get? name = some l →
      Expands r p token [l]
  | both {name : String} {k l : Key} : ModuleRef.ofText token = .ok (.named name) →
      p.includeUnused → r.base.deps.get? name = some k → r.base.unusedDeps.get? name = some l →
      l ≠ k → Expands r p token [k, l]

/-- The error with which a token is turned down that can be read. -/
inductive Refuses (r : Resolver) (p : Policy) (token : String) : QueryError → Prop
  | unknown {k : Key} : ModuleRef.ofText token = .ok (.exact k) → ¬ r.snapshot.graph.contains k →
      Refuses r p token (.moduleNotFound k.text .graph)
  | unused {k : Key} : ModuleRef.ofText token = .ok (.exact k) → r.snapshot.graph.contains k →
      ¬ r.Admits p k → Refuses r p token (.unusedExcluded k)
  | unnamed {name : String} : ModuleRef.ofText token = .ok (.named name) →
      r.base.deps.get? name = none → (p.includeUnused → r.base.unusedDeps.get? name = none) →
      Refuses r p token (.moduleNotFound name (.dependenciesOf r.base.key))
  | unselected {name : String} {k : Key} : ModuleRef.ofText token = .ok (.named name) →
      r.base.deps.get? name = some k → ¬ r.Admits p k → Refuses r p token (.unusedExcluded k)

def unusedWarnings (r : Resolver) (p : Policy) (keys : List Key) : List Warning :=
  if p.warns then (keys.filter fun k => !r.snapshot.graph.isUsed k).map .unusedVersion else []

variable {r : Resolver} {p : Policy} {token text name : String} {ref : ModuleRef} {k : Key}
  {keys : List Key} {e : QueryError}

theorem Expands.exists_ofText (h : r.Expands p token keys) :
    ∃ ref, ModuleRef.ofText token = .ok ref := by
  cases h <;> exact ⟨_, by assumption⟩

theorem named_of_selected (hk : r.base.deps.get? name = some k)
    (hsame : p.includeUnused → ∀ l, r.base.unusedDeps.get? name = some l → l = k) :
    r.named p name = [k] := by
  rw [named, hk]
  cases hallowed : p.includeUnused with
  | false => rfl
  | true =>
    cases hl : r.base.unusedDeps.get? name with
    | none => rfl
    | some l =>
      obtain rfl := hsame hallowed l hl
      simp [List.eraseDups_cons]

theorem unusedWarnings_append (r : Resolver) (p : Policy) (keys keys' : List Key) :
    r.unusedWarnings p (keys ++ keys') = r.unusedWarnings p keys ++ r.unusedWarnings p keys' := by
  cases hwarns : p.warns <;> simp [unusedWarnings, hwarns]

theorem flatMap_unusedWarnings (r : Resolver) (p : Policy) (lists : List (List Key)) :
    lists.flatMap (r.unusedWarnings p) = r.unusedWarnings p lists.flatten := by
  induction lists with
  | nil => simp [unusedWarnings]
  | cons keys lists ih =>
    rw [List.flatMap_cons, ih, List.flatten_cons, unusedWarnings_append]

theorem accept_of_admits (h : r.Admits p k) : r.accept p k = ⟨.ok k, r.unusedWarnings p [k]⟩ := by
  cases hused : r.snapshot.graph.isUsed k with
  | true => simp [accept, unusedWarnings, hused, Answer.ok]
  | false =>
    have hallowed : p.includeUnused = true := by simpa [Admits, hused] using h
    cases hwarns : p.warns <;>
      simp [accept, unusedWarnings, hused, hallowed, hwarns, Answer.warning]

theorem accept_of_not_admits (h : ¬ r.Admits p k) : r.accept p k = .fail (.unusedExcluded k) := by
  simp only [Admits, not_or, Bool.not_eq_true] at h
  simp [accept, h.1, h.2]

theorem mapM_accept_of_admits (h : ∀ k ∈ keys, r.Admits p k) :
    keys.mapM (r.accept p) = ⟨.ok keys, r.unusedWarnings p keys⟩ := by
  induction keys with
  | nil => simp [unusedWarnings, Answer.ok]
  | cons k keys ih =>
    have hrest := ih fun l hl => h l (List.mem_cons_of_mem k hl)
    rw [List.mapM_cons, accept_of_admits (h k List.mem_cons_self), hrest]
    simp [Answer.ok, ← unusedWarnings_append]

theorem unusedWarnings_root (hs : r.snapshot.Accepted) : r.unusedWarnings p [.root] = [] := by
  have hused : r.snapshot.graph.isUsed .root := hs.isUsed_iff.2 .refl
  simp [unusedWarnings, hused]

theorem ne_root_of_ofText (h : ModuleRef.ofText token = .ok (.exact k)) : k ≠ .root := by
  cases ModuleRef.reads_of_ofText h with
  | exact _ _ hname =>
    obtain ⟨hne, -⟩ := ModuleRef.isVersionChar_of_isModuleName hname
    simp [Key.root, hne]

theorem denoted_of_expands (hs : r.snapshot.Accepted) (href : ModuleRef.ofText token = .ok ref)
    (h : r.Expands p token keys) : r.denoted p ref = ⟨.ok keys, r.unusedWarnings p keys⟩ := by
  cases h with
  | root hread =>
    obtain rfl := Except.ok.inj (href.symm.trans hread)
    rw [denoted, unusedWarnings_root hs]
    rfl
  | @exact k hread hk hadmits =>
    obtain rfl := Except.ok.inj (href.symm.trans hread)
    obtain ⟨node, hnode⟩ := Graph.contains_iff.1 hk
    rw [denoted, if_pos (hs.contains_index hnode (ne_root_of_ofText hread))]
    exact mapM_accept_of_admits (by simpa using hadmits)
  | @selected name k hread hk hadmits hsame =>
    obtain rfl := Except.ok.inj (href.symm.trans hread)
    rw [denoted, named_of_selected hk hsame]
    exact mapM_accept_of_admits (by simpa using hadmits)
  | @lost name l hread hallowed hk hl =>
    obtain rfl := Except.ok.inj (href.symm.trans hread)
    have hnamed : r.named p name = [l] := by
      simp [named, hallowed, hk, hl, List.eraseDups_cons]
    rw [denoted, hnamed]
    exact mapM_accept_of_admits fun _ _ => .inr hallowed
  | @both name k l hread hallowed hk hl hne =>
    obtain rfl := Except.ok.inj (href.symm.trans hread)
    have hnamed : r.named p name = [k, l] := by
      simp [named, hallowed, hk, hl, hne, List.eraseDups_cons]
    rw [denoted, hnamed]
    exact mapM_accept_of_admits fun _ _ => .inr hallowed

theorem denoted_of_refuses (hs : r.snapshot.Accepted) (href : ModuleRef.ofText token = .ok ref)
    (h : r.Refuses p token e) : (r.denoted p ref).result = .error e := by
  cases h with
  | @unknown k hread hk =>
    obtain rfl := Except.ok.inj (href.symm.trans hread)
    have hindex : ¬ r.snapshot.index.contains k :=
      fun hindex => hk (Graph.contains_iff.2 (hs.exists_indexed hindex))
    rw [denoted, if_neg hindex]
    rfl
  | @unused k hread hk hadmits =>
    obtain rfl := Except.ok.inj (href.symm.trans hread)
    obtain ⟨node, hnode⟩ := Graph.contains_iff.1 hk
    rw [denoted, if_pos (hs.contains_index hnode (ne_root_of_ofText hread)), List.mapM_cons,
      accept_of_not_admits hadmits]
    rfl
  | @unnamed name hread hk hl =>
    obtain rfl := Except.ok.inj (href.symm.trans hread)
    have hnamed : r.named p name = [] := by
      cases hallowed : p.includeUnused with
      | false => simp [named, hallowed, hk]
      | true => simp [named, hallowed, hk, hl hallowed]
    rw [denoted, hnamed]
    rfl
  | @unselected name k hread hk hadmits =>
    obtain rfl := Except.ok.inj (href.symm.trans hread)
    have hexcluded : ¬ p.includeUnused := fun hallowed => hadmits (.inr hallowed)
    rw [denoted, named_of_selected hk fun hallowed => absurd hallowed hexcluded]
    simp only [List.mapM_cons, accept_of_not_admits hadmits]
    rfl

theorem expands_or_refuses (r : Resolver) (p : Policy) (h : ModuleRef.ofText token = .ok ref) :
    (∃ keys, r.Expands p token keys) ∨ ∃ e, r.Refuses p token e := by
  cases ref with
  | root => exact .inl ⟨_, .root h⟩
  | exact k =>
    by_cases hk : r.snapshot.graph.contains k
    · by_cases hadmits : r.Admits p k
      · exact .inl ⟨_, .exact h hk hadmits⟩
      · exact .inr ⟨_, .unused h hk hadmits⟩
    · exact .inr ⟨_, .unknown h hk⟩
  | named name =>
    cases hk : r.base.deps.get? name with
    | some k =>
      by_cases hsame : p.includeUnused → ∀ l, r.base.unusedDeps.get? name = some l → l = k
      · by_cases hadmits : r.Admits p k
        · exact .inl ⟨_, .selected h hk hadmits hsame⟩
        · exact .inr ⟨_, .unselected h hk hadmits⟩
      · push Not at hsame
        obtain ⟨hallowed, l, hl, hne⟩ := hsame
        exact .inl ⟨_, .both h hallowed hk hl hne⟩
    | none =>
      by_cases hnone : p.includeUnused → r.base.unusedDeps.get? name = none
      · exact .inr ⟨_, .unnamed h hk hnone⟩
      · push Not at hnone
        obtain ⟨hallowed, hl⟩ := hnone
        obtain ⟨l, hl⟩ := Option.ne_none_iff_exists'.1 hl
        exact .inl ⟨_, .lost h hallowed hk hl⟩

theorem Expands.isUsed (hs : r.snapshot.Accepted) (h : r.Expands p token keys)
    (hexcluded : p.includeUnused = false) : ∀ k ∈ keys, r.snapshot.graph.isUsed k := by
  have hadmits : ∀ {k}, r.Admits p k → r.snapshot.graph.isUsed k :=
    fun h => h.resolve_right (by simp [hexcluded])
  cases h with
  | root => simpa using hs.isUsed_iff.2 .refl
  | exact _ _ hk => simpa using hadmits hk
  | selected _ _ hk => simpa using hadmits hk
  | lost _ hallowed | both _ hallowed => simp [hexcluded] at hallowed

/-- The first token of a list that cannot be read, with what is wrong with it. -/
def FirstMalformed (tokens : List String) (fault : InvalidReference) : Prop :=
  ∃ before token after, tokens = before ++ token :: after ∧
    (∀ t ∈ before, ∃ ref, ModuleRef.ofText t = .ok ref) ∧
    ModuleRef.ofText token = .error fault ∧ fault.token = token

/-- The error of the first token of a list that denotes nothing. -/
def FirstRefused (r : Resolver) (p : Policy) (tokens : List String) (e : QueryError) : Prop :=
  ∃ before token after, tokens = before ++ token :: after ∧
    (∀ t ∈ before, ∃ keys, r.Expands p t keys) ∧ r.Refuses p token e

variable {expansions : List (List Key)} {fault : InvalidReference}

theorem modules_of_expands (hs : r.snapshot.Accepted)
    (h : List.Forall₂ (r.Expands p) (Reference.tokens text) expansions) : r.modules p text =
      ⟨.ok expansions.flatten.eraseDups, r.unusedWarnings p expansions.flatten⟩ := by
  obtain ⟨refs, hrefs, hkeys⟩ : ∃ refs, (Reference.tokens text).mapM ModuleRef.ofText = .ok refs ∧
      List.Forall₂ (fun ref keys => r.denoted p ref = ⟨.ok keys, r.unusedWarnings p keys⟩)
        refs expansions := by
    simp only [mapM_eq_ok_iff]
    generalize Reference.tokens text = tokens at h
    induction h with
    | nil => exact ⟨[], .nil, .nil⟩
    | cons htoken _ ih =>
      obtain ⟨refs, hrefs, hkeys⟩ := ih
      obtain ⟨ref, href⟩ := htoken.exists_ofText
      exact ⟨ref :: refs, .cons href hrefs, .cons (denoted_of_expands hs href htoken) hkeys⟩
  rw [modules, Reference.modules, hrefs, Answer.lift, Except.mapError, Answer.bind_ok,
    Answer.mapM_eq_ok hkeys, flatMap_unusedWarnings, Answer.bind_ok]
  simp [Answer.ok]

theorem modules_of_firstMalformed (h : FirstMalformed (Reference.tokens text) fault) :
    (r.modules p text).result = .error (.invalidReference fault) := by
  obtain ⟨before, token, after, htokens, hbefore, htoken, -⟩ := h
  rw [modules, Reference.modules, htokens, mapM_eq_error hbefore htoken]
  rfl

theorem modules_of_firstRefused (hs : r.snapshot.Accepted)
    (hread : ∀ token ∈ Reference.tokens text, ∃ ref, ModuleRef.ofText token = .ok ref)
    (h : r.FirstRefused p (Reference.tokens text) e) : (r.modules p text).result = .error e := by
  obtain ⟨before, token, after, htokens, hbefore, htoken⟩ := h
  rw [htokens, List.forall_mem_append, List.forall_mem_cons] at hread
  obtain ⟨hread, ⟨ref, href⟩, hread'⟩ := hread
  obtain ⟨refs, hrefs⟩ := exists_forall₂ hread
  obtain ⟨refs', hrefs'⟩ := exists_forall₂ hread'
  have hlist : (before ++ token :: after).mapM ModuleRef.ofText = .ok (refs ++ ref :: refs') :=
    mapM_eq_ok_iff.2 (List.rel_append hrefs (.cons href hrefs'))
  have hfound : ∀ ref ∈ refs, ∃ keys, (r.denoted p ref).result = .ok keys := by
    intro ref href
    obtain ⟨t, ht, hread⟩ := exists_of_mem_mapM (mapM_eq_ok_iff.2 hrefs) href
    obtain ⟨keys, hkeys⟩ := hbefore t ht
    exact ⟨keys, congrArg Answer.result (denoted_of_expands hs hread hkeys)⟩
  have herror : ((refs ++ ref :: refs').mapM (r.denoted p)).result = .error e :=
    (Answer.result_mapM _ _).trans (mapM_eq_error hfound (denoted_of_refuses hs href htoken))
  rw [modules, Reference.modules, htokens, hlist]
  simp only [Answer.lift, Except.mapError, Answer.result_bind, ok_bind, herror]
  rfl

theorem token_of_ofText_error (h : ModuleRef.ofText token = .error fault) :
    fault.token = token := by
  rw [ModuleRef.ofText] at h
  split at h
  · simp at h
  · cases hsplit : Text.splitFirst '@' token.toList with
    | none =>
      rw [hsplit] at h
      dsimp only at h
      split at h
      · rw [← Except.error.inj h]
      · simp at h
    | some p =>
      rw [hsplit] at h
      dsimp only at h
      split at h
      · rw [← Except.error.inj h]
      · split at h
        · simp at h
        · split at h
          · simp at h
          · rw [← Except.error.inj h]

theorem list_cases (r : Resolver) (p : Policy) (tokens : List String) :
    (∃ expansions, List.Forall₂ (r.Expands p) tokens expansions) ∨
    (∃ fault, FirstMalformed tokens fault) ∨
    (∀ token ∈ tokens, ∃ ref, ModuleRef.ofText token = .ok ref) ∧
      ∃ e, r.FirstRefused p tokens e := by
  have hread : ∀ token ∈ tokens, (∃ ref, ModuleRef.ofText token = .ok ref) ∨
      ∃ fault, ModuleRef.ofText token = .error fault := by
    intro token _
    cases ModuleRef.ofText token <;> simp
  rcases forall_or_exists_first hread with hread | hfirst
  · have hdenoted : ∀ token ∈ tokens, (∃ keys, r.Expands p token keys) ∨
        ∃ e, r.Refuses p token e := by
      intro token htoken
      obtain ⟨ref, href⟩ := hread token htoken
      exact expands_or_refuses r p href
    rcases forall_or_exists_first hdenoted with hall | hfirst
    · exact .inl (exists_forall₂ hall)
    · obtain ⟨before, token, after, htokens, hbefore, e, htoken⟩ := hfirst
      exact .inr (.inr ⟨hread, e, before, token, after, htokens, hbefore, htoken⟩)
  · obtain ⟨before, token, after, htokens, hbefore, fault, htoken⟩ := hfirst
    exact .inr (.inl ⟨fault, before, token, after, htokens, hbefore, htoken,
      token_of_ofText_error htoken⟩)

theorem exists_expansions (hs : r.snapshot.Accepted) (h : (r.modules p text).result = .ok keys) :
    ∃ expansions, List.Forall₂ (r.Expands p) (Reference.tokens text) expansions ∧
      keys = expansions.flatten.eraseDups ∧
      (r.modules p text).warnings = r.unusedWarnings p expansions.flatten := by
  rcases list_cases r p (Reference.tokens text) with
    ⟨expansions, hall⟩ | ⟨fault, hfirst⟩ | ⟨hread, e, hfirst⟩
  · have hmodules := modules_of_expands hs hall
    rw [hmodules] at h ⊢
    exact ⟨expansions, hall, (Except.ok.inj h).symm, rfl⟩
  · rw [modules_of_firstMalformed hfirst] at h
    simp at h
  · rw [modules_of_firstRefused hs hread hfirst] at h
    simp at h

theorem modules_eq_ok_iff (hs : r.snapshot.Accepted) :
    (∃ keys, (r.modules p text).result = .ok keys) ↔
      ∀ token ∈ Reference.tokens text, ∃ keys, r.Expands p token keys := by
  constructor
  · rintro ⟨keys, hkeys⟩ token htoken
    obtain ⟨expansions, hall, -⟩ := exists_expansions hs hkeys
    obtain ⟨keys, -, hexpands⟩ := forall₂_exists_of_mem_left hall htoken
    exact ⟨keys, hexpands⟩
  · intro h
    obtain ⟨expansions, hall⟩ := exists_forall₂ h
    exact ⟨_, congrArg Answer.result (modules_of_expands hs hall)⟩

theorem modules_eq_error_iff (hs : r.snapshot.Accepted) :
    (r.modules p text).result = .error e ↔
      (∃ fault, FirstMalformed (Reference.tokens text) fault ∧ e = .invalidReference fault) ∨
      (∀ token ∈ Reference.tokens text, ∃ ref, ModuleRef.ofText token = .ok ref) ∧
        r.FirstRefused p (Reference.tokens text) e := by
  constructor
  · intro h
    rcases list_cases r p (Reference.tokens text) with
      ⟨expansions, hall⟩ | ⟨fault, hfirst⟩ | ⟨hread, e', hfirst⟩
    · rw [modules_of_expands hs hall] at h
      simp at h
    · rw [modules_of_firstMalformed hfirst] at h
      exact .inl ⟨fault, hfirst, (Except.error.inj h).symm⟩
    · rw [modules_of_firstRefused hs hread hfirst] at h
      exact .inr ⟨hread, Except.error.inj h ▸ hfirst⟩
  · rintro (⟨fault, hfirst, rfl⟩ | ⟨hread, hfirst⟩)
    · exact modules_of_firstMalformed hfirst
    · exact modules_of_firstRefused hs hread hfirst

/-- A list denotes something just if each of its tokens does, and then all that they denote, each at
its first occurrence. Otherwise the first token that cannot be read decides with what error it
fails, and the first that denotes nothing if all can be read. A name that a used base depends on
always denotes the module that it leads to, and never fails for a version that is not used. -/
theorem modules_resolved {s : Snapshot} {base : Key} (hs : s.Accepted)
    (hr : anchored s base = .ok r) (p : Policy) (text : String) :
    ((∃ keys, (r.modules p text).result = .ok keys) ↔
      ∀ token ∈ Reference.tokens text, ∃ keys, r.Expands p token keys) ∧
    (∀ keys, (r.modules p text).result = .ok keys →
      (∃ expansions, List.Forall₂ (r.Expands p) (Reference.tokens text) expansions ∧
        keys = expansions.flatten.eraseDups ∧
        (r.modules p text).warnings = r.unusedWarnings p expansions.flatten) ∧
      keys.Nodup ∧
      ∀ k ∈ keys, s.graph.contains k ∧ (p.includeUnused = false → s.graph.isUsed k)) ∧
    (∀ e, (r.modules p text).result = .error e ↔
      (∃ fault, FirstMalformed (Reference.tokens text) fault ∧ e = .invalidReference fault) ∨
      (∀ token ∈ Reference.tokens text, ∃ ref, ModuleRef.ofText token = .ok ref) ∧
        r.FirstRefused p (Reference.tokens text) e) ∧
    (s.graph.isUsed base → p.includeUnused = false →
      ∀ token name, ModuleRef.ofText token = .ok (.named name) →
        (∀ k, r.base.deps.get? name = some k → r.Expands p token [k]) ∧
        ∀ e, r.Refuses p token e → e = .moduleNotFound name (.dependenciesOf base)) := by
  obtain ⟨hsound, rfl, hkey, node, hnode, hdeclared⟩ := anchored_sound hs hr
  refine ⟨modules_eq_ok_iff hs, fun keys hkeys => ?_, fun e => modules_eq_error_iff hs,
    fun hbase hexcluded token name hname => ?_⟩
  · obtain ⟨expansions, hall, rfl, hwarnings⟩ := exists_expansions hs hkeys
    refine ⟨⟨expansions, hall, rfl, hwarnings⟩, FirstSeen.nodup_eraseDups _, fun k hk => ?_⟩
    refine ⟨(hsound.modules_ends text).of_ok hkeys k hk, fun hexcluded => ?_⟩
    obtain ⟨keys, hmem, hk⟩ := List.mem_flatten.1 (List.mem_eraseDups.1 hk)
    obtain ⟨token, -, hexpands⟩ := forall₂_exists_of_mem_left (.flip hall) hmem
    exact hexpands.isUsed hs hexcluded k hk
  · have hadmits : ∀ k, r.base.deps.get? name = some k → r.Admits p k := fun k hk =>
      .inl (hs.isUsed_target hbase ⟨node, hnode, hdeclared ▸ NameTable.mem_values_of_get? hk⟩)
    refine ⟨fun k hk => .selected hname hk (hadmits k hk) (by simp [hexcluded]), fun e he => ?_⟩
    cases he with
    | unknown hread | unused hread => simp [hname] at hread
    | unnamed hread =>
      obtain rfl := ModuleRef.named.inj (Except.ok.inj (hname.symm.trans hread))
      rw [hkey]
    | unselected hread hk hnot =>
      obtain rfl := ModuleRef.named.inj (Except.ok.inj (hname.symm.trans hread))
      exact absurd (hadmits _ hk) hnot

theorem anchored_versions : ∃ r, anchored (.ofDeclared Snapshot.versions []) .root = .ok r ∧
    r.modules ⟨true, true⟩ "a, <root>,a@1" =
      ⟨.ok [⟨"a", "2"⟩, ⟨"a", "1"⟩, .root], List.replicate 2 (.unusedVersion ⟨"a", "1"⟩)⟩ ∧
    (r.modules ⟨true, true⟩ "a@9,A").result = .error (.invalidReference ⟨"A", .moduleName⟩) ∧
    r.base.deps.get? "a" = some ⟨"a", "2"⟩ :=
  ⟨_, rfl, by cbv, by cbv, by cbv⟩

/-- Each mention of the version gives its warning. A token that cannot be read comes before one that
denotes nothing. -/
theorem modules_resolved_versions :
    let s : Snapshot := .ofDeclared Snapshot.versions []
    let p : Policy := ⟨true, true⟩
    s.Accepted ∧ ∃ r, anchored s .root = .ok r ∧
      (∃ expansions, List.Forall₂ (r.Expands p) ["a", "<root>", "a@1"] expansions ∧
        expansions.flatten.eraseDups = [⟨"a", "2"⟩, ⟨"a", "1"⟩, .root] ∧
        r.unusedWarnings p expansions.flatten = List.replicate 2 (.unusedVersion ⟨"a", "1"⟩)) ∧
      FirstMalformed ["a@9", "A"] ⟨"A", .moduleName⟩ ∧
      s.graph.isUsed .root ∧ r.Expands .usedOnly "a" [⟨"a", "2"⟩] := by
  intro s p
  have hs : s.Accepted := Snapshot.accepted_ofDeclared (by cbv) (by cbv)
  have hused : s.graph.isUsed .root := by cbv
  obtain ⟨r, hr, hfound, hfailed, hdep⟩ := anchored_versions
  obtain ⟨-, hok, -, -⟩ := modules_resolved hs hr p "a, <root>,a@1"
  obtain ⟨-, -, herror, -⟩ := modules_resolved hs hr p "a@9,A"
  obtain ⟨-, -, -, hnames⟩ := modules_resolved hs hr .usedOnly "a"
  obtain ⟨⟨expansions, hall, hkeys, hwarnings⟩, -⟩ := hok _ (congrArg Answer.result hfound)
  rw [hfound] at hwarnings
  refine ⟨hs, r, hr, ⟨expansions, hall, hkeys.symm, hwarnings.symm⟩, ?_, hused,
    (hnames hused rfl "a" "a" (by decide)).1 _ hdep⟩
  rcases (herror _).1 hfailed with ⟨fault, hfirst, hfault⟩ | ⟨hread, -⟩
  · exact QueryError.invalidReference.inj hfault ▸ hfirst
  · obtain ⟨ref, href⟩ := hread "A" (by decide)
    have hread : ModuleRef.ofText "A" = .error ⟨"A", .moduleName⟩ := by decide
    simp [hread] at href

end Resolver

end ModuleGraph
