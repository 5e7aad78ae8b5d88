import ModuleGraph.Proofs.Except
import ModuleGraph.Proofs.RunErrors

namespace ModuleGraph

namespace Answer

variable {α β γ δ : Type} {x : Answer α} {y : Answer β} {rel : α → β → Prop} {a : α} {b : β}

/-- If the first answer has a result, then the second has one that is related to it. -/
def Entails (x : Answer α) (y : Answer β) (rel : α → β → Prop) : Prop :=
  ∀ a, x.result = .ok a → ∃ b, y.result = .ok b ∧ rel a b

namespace Entails

theorem refl {rel : α → α → Prop} (x : Answer α) (h : ∀ a, rel a a) : x.Entails x rel :=
  fun a ha => ⟨a, ha, h a⟩

theorem ok (h : rel a b) : (Answer.ok a).Entails (Answer.ok b) rel := by
  intro a' ha
  obtain rfl := Except.ok.inj ha
  exact ⟨b, rfl, h⟩

theorem fail (e : QueryError) (y : Answer β) : (Answer.fail e : Answer α).Entails y rel := by
  intro a ha
  simp [Answer.fail] at ha

theorem inArgument (h : x.Entails y rel) (argument argument' : Argument) :
    (x.inArgument argument).Entails (y.inArgument argument') rel := by
  obtain ⟨result, ws⟩ := x
  cases result with
  | error e => intro a ha; simp [Answer.inArgument, Except.mapError] at ha
  | ok a =>
    intro a' ha
    obtain rfl := Except.ok.inj ha
    obtain ⟨b, hb, hab⟩ := h a rfl
    refine ⟨b, ?_, hab⟩
    rw [Answer.inArgument, hb]
    rfl

theorem bind {f : α → Answer γ} {g : β → Answer δ} {rel' : γ → δ → Prop} (h : x.Entails y rel)
    (hf : ∀ a b, rel a b → (f a).Entails (g b) rel') : (x >>= f).Entails (y >>= g) rel' := by
  intro c hc
  rw [result_bind, bind_eq_ok_iff] at hc
  obtain ⟨a, ha, hc⟩ := hc
  obtain ⟨b, hb, hab⟩ := h a ha
  obtain ⟨d, hd, hcd⟩ := hf a b hab c hc
  refine ⟨d, ?_, hcd⟩
  rw [result_bind, hb]
  exact hd

theorem mapM {ι : Type} {f : ι → Answer α} {g : ι → Answer β} {l : List ι}
    (h : ∀ i ∈ l, (f i).Entails (g i) rel) :
    (l.mapM f).Entails (l.mapM g) (List.Forall₂ rel) := by
  induction l with
  | nil => exact ok .nil
  | cons i l ih =>
    rw [List.mapM_cons, List.mapM_cons]
    refine (h i List.mem_cons_self).bind fun a b hab => ?_
    refine (ih fun j hj => h j (List.mem_cons_of_mem i hj)).bind fun as bs habs => ?_
    exact ok (.cons hab habs)

end Entails

end Answer

namespace Resolver

variable {r : Resolver} {p : Policy} {warns warns' : Bool} {keys found : List Key}

theorem eq_of_mapM_accept (h : (keys.mapM (r.accept p)).result = .ok found) : found = keys := by
  rw [Answer.result_mapM, mapM_eq_ok_iff] at h
  induction h with
  | nil => rfl
  | @cons k l keys found haccept _ ih =>
    obtain rfl : l = k := (accept_ends r p k).of_ok haccept
    rw [ih]

theorem mapM_accept_of_unused (r : Resolver) (warns : Bool) (keys : List Key) :
    (keys.mapM (r.accept ⟨true, warns⟩)).result = .ok keys := by
  rw [Answer.result_mapM, mapM_eq_ok_iff, List.forall₂_same]
  intro k _
  rw [accept]
  split <;> rfl

theorem named_subset (r : Resolver) (warns warns' : Bool) (name : String) :
    r.named ⟨false, warns⟩ name ⊆ r.named ⟨true, warns'⟩ name := by
  intro k hk
  simp only [named, List.mem_eraseDups, List.mem_append] at hk ⊢
  exact .inl (hk.resolve_right (by simp))

theorem denoted_entails (r : Resolver) (warns warns' : Bool) (ref : ModuleRef) :
    (r.denoted ⟨false, warns⟩ ref).Entails (r.denoted ⟨true, warns'⟩ ref) (· ⊆ ·) := by
  have haccept : ∀ {keys keys' : List Key}, keys ⊆ keys' →
      (keys.mapM (r.accept ⟨false, warns⟩)).Entails (keys'.mapM (r.accept ⟨true, warns'⟩))
        (· ⊆ ·) := by
    intro keys keys' hkeys found hfound
    obtain rfl := eq_of_mapM_accept hfound
    exact ⟨keys', mapM_accept_of_unused r warns' keys', hkeys⟩
  cases ref with
  | root => exact .ok (List.Subset.refl _)
  | exact key =>
    rw [denoted, denoted]
    split
    · exact haccept (List.Subset.refl _)
    · exact .fail _ _
  | named name =>
    have hnamed := named_subset r warns warns' name
    rw [denoted, denoted]
    split
    · exact .fail _ _
    · next hne =>
      split
      · next hnil => exact absurd (List.eq_nil_of_subset_nil (hnil ▸ hnamed)) hne
      · exact haccept hnamed

theorem eraseDups_flatten_subset {lists lists' : List (List Key)}
    (h : List.Forall₂ (· ⊆ ·) lists lists') :
    lists.flatten.eraseDups ⊆ lists'.flatten.eraseDups := by
  intro k hk
  rw [List.mem_eraseDups] at hk ⊢
  induction h with
  | nil => exact hk
  | cons hkeys _ ih =>
    rw [List.flatten_cons, List.mem_append] at hk ⊢
    exact hk.imp (fun h => hkeys h) ih

theorem modules_entails (r : Resolver) (warns warns' : Bool) (text : String) :
    (r.modules ⟨false, warns⟩ text).Entails (r.modules ⟨true, warns'⟩ text) (· ⊆ ·) := by
  have hrefs (x : Answer (List ModuleRef)) : x.Entails x Eq := .refl x fun _ => rfl
  refine (hrefs _).bind ?_
  rintro refs _ rfl
  refine (Answer.Entails.mapM fun ref _ => denoted_entails r warns warns' ref).bind ?_
  exact fun _ _ hlists => .ok (eraseDups_flatten_subset hlists)

end Resolver

/-- The second subject of a query has all modules of the first and is otherwise the same. -/
structure Subject.Included (kind : QueryKind) (a b : Subject) : Prop where
  modules : a.modules ⊆ b.modules
  repos : kind = .repos → a.modules = b.modules
  extensions : a.extensions = b.extensions
  starts : a.starts ⊆ b.starts
  users : a.users ⊆ b.users
  filter : a.filter = b.filter

theorem Subject.Included.refl (kind : QueryKind) (a : Subject) : a.Included kind a :=
  ⟨List.Subset.refl _, fun _ => rfl, rfl, List.Subset.refl _, List.Subset.refl _, rfl⟩

namespace Request

variable {s : Snapshot} {q : Request} {r : Resolver} {rules : RuleSource}

def withUnused (q : Request) (allowed : Bool) : Request :=
  { q with options := { q.options with includeUnused := allowed } }

theorem argModules_entails (q : Request) (r : Resolver) (context : String → Argument) :
    ((q.withUnused false).argModules r (q.withUnused false).policy context).Entails
      ((q.withUnused true).argModules r (q.withUnused true).policy context) (· ⊆ ·) := by
  have hargs := Answer.Entails.mapM (l := q.args) fun arg _ =>
    (Resolver.modules_entails r true true arg).inArgument (context arg) (context arg)
  exact hargs.bind fun _ _ hlists => .ok (Resolver.eraseDups_flatten_subset hlists)

theorem targets_entails (q : Request) (r : Resolver) :
    ((q.withUnused false).targets r).Entails ((q.withUnused true).targets r)
      (Subject.Included q.kind) := by
  have hkind : ∀ allowed, (q.withUnused allowed).kind = q.kind := fun _ => rfl
  have hmodules : q.kind ≠ .repos →
      ((q.withUnused false).argModules r (q.withUnused false).policy .module >>= fun modules =>
        pure { modules }).Entails
      ((q.withUnused true).argModules r (q.withUnused true).policy .module >>= fun modules =>
        pure { modules }) (Subject.Included q.kind) := by
    intro hrepos
    refine (argModules_entails q r .module).bind fun _ _ h => .ok ?_
    exact ⟨h, fun hk => absurd hk hrepos, rfl, List.Subset.refl _, List.Subset.refl _, rfl⟩
  rw [targets, targets, hkind, hkind]
  split
  · exact .refl _ (.refl _)
  · exact .refl _ (.refl _)
  · exact .refl _ (.refl _)
  · next hk => exact hmodules (by simp [hk])
  · next hk => exact hmodules (by simp [hk])
  · next hk => exact hmodules (by simp [hk])
  · next hk => exact hmodules (by simp [hk])

theorem subject_entails (q : Request) (s : Snapshot) :
    ((q.withUnused false).subject s).Entails ((q.withUnused true).subject s)
      (Subject.Included q.kind) := by
  have hbase : ((q.withUnused false).base s).Entails ((q.withUnused true).base s) Eq :=
    .refl _ fun _ => rfl
  refine hbase.bind ?_
  rintro base _ rfl
  have hresolver : (resolver s base).Entails (resolver s base) Eq := .refl _ fun _ => rfl
  refine hresolver.bind ?_
  rintro r _ rfl
  refine (targets_entails q r).bind fun a b hab => ?_
  refine ((Resolver.modules_entails r _ _ _).inArgument _ _).bind fun starts starts' hstarts => ?_
  refine ((Resolver.modules_entails r _ _ _).inArgument _ _).bind fun users users' husers => ?_
  have hfollowed : ((q.withUnused false).followed r).Entails ((q.withUnused true).followed r) Eq :=
    .refl _ fun _ => rfl
  refine hfollowed.bind ?_
  rintro filter _ rfl
  exact .ok ⟨hab.modules, hab.repos, hab.extensions, hstarts, husers, rfl⟩

theorem outcome_entails {a b : Subject} (h : a.Included q.kind b) :
    ((q.withUnused false).outcome s rules a).Entails ((q.withUnused true).outcome s rules b)
      fun _ _ => True := by
  intro found hfound
  cases hb : ((q.withUnused true).outcome s rules b).result with
  | ok found' => exact ⟨found', rfl, trivial⟩
  | error e =>
    obtain ⟨hk, -⟩ := (outcome_ends b).of_error hb
    have hk : q.kind = .repos := hk
    have hsame :
        (q.withUnused false).outcome s rules a = (q.withUnused true).outcome s rules b := by
      simp only [outcome, withUnused, hk, h.repos hk]
    rw [hsame, hb] at hfound
    simp at hfound

/-- To allow unused versions only adds: a query that succeeds without them succeeds with them and
refers to all that it referred to before, and so does a list that is resolved with any base. -/
theorem run_withUnused (s : Snapshot) :
    (∀ (q : Request) (rules : RuleSource) (interrupted : Bool) (outcome : Outcome),
      ((q.withUnused false).run s rules interrupted).result = .ok outcome →
        ∃ outcome', ((q.withUnused true).run s rules interrupted).result = .ok outcome') ∧
    (∀ (q : Request) (subject : Subject), ((q.withUnused false).subject s).result = .ok subject →
      ∃ subject', ((q.withUnused true).subject s).result = .ok subject' ∧
        subject.Included q.kind subject') ∧
    ∀ base r, Resolver.anchored s base = .ok r → ∀ warns text keys,
      (r.modules ⟨false, warns⟩ text).result = .ok keys →
        ∃ keys', (r.modules ⟨true, warns⟩ text).result = .ok keys' ∧ ∀ k ∈ keys, k ∈ keys' := by
  refine ⟨fun q rules interrupted => ?_, fun q => subject_entails q s,
    fun base r _ warns text => ?_⟩
  · have hrun : ((q.withUnused false).run s rules interrupted).Entails
        ((q.withUnused true).run s rules interrupted) fun _ _ => True := by
      rw [run, run]
      cases interrupted with
      | true => exact .fail _ _
      | false => exact (subject_entails q s).bind fun a b h => outcome_entails h
    intro outcome houtcome
    obtain ⟨outcome', h, -⟩ := hrun outcome houtcome
    exact ⟨outcome', h⟩
  · exact Resolver.modules_entails r warns warns text

/-- A version that lost the selection is found by its name once it is allowed, behind the other. -/
theorem run_withUnused_versions :
    let s : Snapshot := .ofDeclared Snapshot.versions []
    let q : Request := ⟨.deps, ["a"], { depth := some 1 }⟩
    ∃ outcome outcome' r keys,
      ((q.withUnused false).run s (.ofKnown fun _ => none) false).result = .ok outcome ∧
      ((q.withUnused true).run s (.ofKnown fun _ => none) false).result = .ok outcome' ∧
      Resolver.anchored s .root = .ok r ∧
      (r.modules ⟨false, true⟩ "a").result = .ok [⟨"a", "2"⟩] ∧
      (r.modules ⟨true, true⟩ "a").result = .ok keys ∧ ⟨"a", "2"⟩ ∈ keys := by
  intro s q
  obtain ⟨hrun, -, hlist⟩ := run_withUnused s
  have hok : ((q.withUnused false).run s (.ofKnown fun _ => none) false).result =
      .ok (.tree ⟨[⟨⟨"a", "2"⟩, 0, false, none⟩]⟩) := by cbv
  obtain ⟨outcome', hok'⟩ := hrun q _ false _ hok
  have hselected : (Resolver.anchored s .root).toOption.map
      (fun r => (r.modules ⟨false, true⟩ "a").result) = some (.ok [⟨"a", "2"⟩]) := by cbv
  cases hr : Resolver.anchored s .root with
  | error e => simp [hr, Except.toOption] at hselected
  | ok r =>
    rw [hr] at hselected
    have hkeys := Option.some.inj hselected
    obtain ⟨keys, hkeys', hall⟩ := hlist .root r hr true "a" _ hkeys
    exact ⟨_, outcome', r, keys, hok, hok', rfl, hkeys, hkeys', hall _ List.mem_cons_self⟩

end Request

end ModuleGraph
