import ModuleGraph.Proofs.Answer
import ModuleGraph.Proofs.Snapshot
import ModuleGraph.Query.Request
import Mathlib.Data.List.TakeWhile

/-!
# How the text of the extension filter is taken

A comma list of nothing but commas and blanks has no tokens. As the text of the filter it is taken
in two ways: without a comma it is blank and every extension is followed, with one it is a list of
no extensions and none is followed. Apart from that a query depends on the tokens of the text alone,
up to the text that an error quotes.
-/
namespace ModuleGraph

namespace Text

theorem trim_eq_nil_iff {s : List Char} : trim s = [] ↔ ∀ c ∈ s, isBlank c := by
  have hdrop : (∀ c ∈ s.dropWhile isBlank, isBlank c) ↔ ∀ c ∈ s, isBlank c := by
    constructor
    · intro h c hc
      rw [← List.takeWhile_append_dropWhile (p := isBlank) (l := s)] at hc
      rcases List.mem_append.1 hc with hc | hc
      · exact List.mem_takeWhile_imp hc
      · exact h c hc
    · intro h c hc
      exact h c ((List.dropWhile_sublist isBlank).subset hc)
  simp only [trim, trimEnd, List.reverse_eq_nil_iff, List.dropWhile_eq_nil_iff, List.mem_reverse]
  exact hdrop

theorem mem_splitAll_iff {sep c : Char} {s : List Char} :
    (∃ p ∈ splitAll sep s, c ∈ p) ↔ c ∈ s ∧ c ≠ sep := by
  fun_induction splitAll sep s with
  | case1 => simp
  | case2 s ih =>
    rw [List.exists_mem_cons_iff, ih, List.mem_cons]
    tauto
  | case3 d s hd hnil ih =>
    rw [hnil] at ih
    simp only [List.not_mem_nil, false_and, exists_false, false_iff, not_and] at ih
    simp only [List.mem_cons, List.not_mem_nil, or_false, exists_eq_left]
    constructor
    · rintro rfl
      exact ⟨.inl rfl, hd⟩
    · rintro ⟨rfl | hc, hne⟩
      · rfl
      · exact absurd hne (ih hc)
  | case4 d s hd p ps hsplit ih =>
    rw [hsplit, List.exists_mem_cons_iff] at ih
    rw [List.exists_mem_cons_iff, List.mem_cons, List.mem_cons, or_assoc, ih]
    constructor
    · rintro (rfl | ⟨hc, hne⟩)
      · exact ⟨.inl rfl, hd⟩
      · exact ⟨.inr hc, hne⟩
    · rintro ⟨rfl | hc, hne⟩
      · exact .inl rfl
      · exact .inr ⟨hc, hne⟩

end Text

namespace Reference

theorem tokens_eq_nil_iff {text : String} :
    tokens text = [] ↔ ∀ c ∈ text.toList, c = ',' ∨ Text.isBlank c := by
  have hpieces : tokens text = [] ↔ ∀ p ∈ Text.splitAll ',' text.toList, ∀ c ∈ p,
      Text.isBlank c := by
    simp only [tokens, List.map_eq_nil_iff, List.filter_eq_nil_iff, List.forall_mem_map,
      decide_not, Bool.not_eq_true', decide_eq_false_iff_not, not_not, Text.trim_eq_nil_iff]
  rw [hpieces]
  constructor
  · intro h c hc
    by_cases hcomma : c = ','
    · exact .inl hcomma
    · obtain ⟨p, hp, hcp⟩ := Text.mem_splitAll_iff.2 ⟨hc, hcomma⟩
      exact .inr (h p hp c hcp)
  · intro h p hp c hc
    obtain ⟨hmem, hcomma⟩ := Text.mem_splitAll_iff.1 ⟨p, hp, hc⟩
    exact (h c hmem).resolve_left hcomma

theorem isBlank_iff_of_tokens {text : String} (h : tokens text = []) :
    (∀ c ∈ text.toList, Text.isBlank c) ↔ ',' ∉ text.toList := by
  rw [tokens_eq_nil_iff] at h
  constructor
  · intro hblank hcomma
    have := hblank ',' hcomma
    simp [Text.isBlank] at this
  · intro hcomma c hc
    refine (h c hc).resolve_left ?_
    rintro rfl
    exact hcomma hc

end Reference

namespace Answer

variable {α β : Type} {a a' : Argument} {x y : Answer α}

/-- The answers are the same, except that an error may be said to come from the one argument or
from the other. -/
def SameUpTo (a a' : Argument) (x y : Answer α) : Prop :=
  x.warnings = y.warnings ∧
    match x.result, y.result with
    | .ok u, .ok v => u = v
    | .error e, .error e' => e.innermost = e'.innermost ∧
        (e = e' ∨ ∃ cause, e = .inArgument a cause ∧ e' = .inArgument a' cause)
    | _, _ => False

namespace SameUpTo

theorem refl (x : Answer α) : x.SameUpTo a a' x := by
  obtain ⟨result, ws⟩ := x
  cases result with
  | ok u => exact ⟨rfl, rfl⟩
  | error e => exact ⟨rfl, rfl, .inl rfl⟩

theorem inArgument (x : Answer α) : (x.inArgument a).SameUpTo a a' (x.inArgument a') := by
  obtain ⟨result, ws⟩ := x
  cases result with
  | ok u => exact ⟨rfl, rfl⟩
  | error e => exact ⟨rfl, rfl, .inr ⟨e, rfl, rfl⟩⟩

theorem bind_left (x : Answer α) {f g : α → Answer β} (h : ∀ u, (f u).SameUpTo a a' (g u)) :
    (x >>= f).SameUpTo a a' (x >>= g) := by
  obtain ⟨result, ws⟩ := x
  cases result with
  | ok u =>
    obtain ⟨hwarnings, hresult⟩ := h u
    exact ⟨congrArg (ws ++ ·) hwarnings, hresult⟩
  | error e => exact ⟨rfl, rfl, .inl rfl⟩

theorem bind_right (h : x.SameUpTo a a' y) (f : α → Answer β) :
    (x >>= f).SameUpTo a a' (y >>= f) := by
  obtain ⟨result, ws⟩ := x
  obtain ⟨result', ws'⟩ := y
  obtain ⟨hwarnings, hresult⟩ := h
  obtain rfl : ws = ws' := hwarnings
  cases result with
  | ok u =>
    cases result' with
    | ok v =>
      obtain rfl : u = v := hresult
      exact refl _
    | error e => exact hresult.elim
  | error e =>
    cases result' with
    | ok v => exact hresult.elim
    | error e' => exact ⟨rfl, hresult⟩

end SameUpTo

end Answer

namespace Resolver

variable {r : Resolver} {text text' : String}

theorem extensions_congr (h : Reference.tokens text = Reference.tokens text') :
    r.extensions text = r.extensions text' := by
  rw [extensions, extensions, Reference.extensions, Reference.extensions, h]

theorem extensions_of_no_tokens (h : Reference.tokens text = []) : r.extensions text = .ok [] := by
  rw [extensions, Reference.extensions, h]
  rfl

end Resolver

namespace Request

variable {q : Request} {s : Snapshot} {r : Resolver} {rules : RuleSource} {interrupted : Bool}
  {text text' : String}

def filteredBy (q : Request) (text : Option String) : Request :=
  { q with options := { q.options with extensionFilter := text } }

/-- The query under a filter that is given and not read. -/
def runUnder (q : Request) (s : Snapshot) (rules : RuleSource) (interrupted : Bool) (f : Filter) :
    Answer Outcome :=
  if interrupted then .fail (.interrupted .argumentResolution)
  else do
    let subject ← (q.filteredBy none).subject s
    q.outcome s rules { subject with filter := f }

def references (q : Request) (s : Snapshot) : Answer (Resolver × Subject) := do
  let r ← resolver s (← q.base s)
  let targets ← q.targets r
  let starts ← (r.modules q.policy q.options.start).inArgument (.start q.options.start)
  let users ← (r.modules { q.policy with warns := false } q.options.extensionUsages).inArgument
    (.extensionUsages q.options.extensionUsages)
  return (r, { targets with starts, users })

theorem subject_eq (q : Request) (s : Snapshot) : q.subject s = do
    let (r, subject) ← q.references s
    return { subject with filter := ← q.followed r } := by
  simp only [subject, references, bind_assoc, pure_bind]

theorem run_filteredBy (text : Option String) : (q.filteredBy text).run s rules interrupted =
    if interrupted then .fail (.interrupted .argumentResolution)
    else q.references s >>= fun p => (q.filteredBy text).followed p.1 >>= fun f =>
      q.outcome s rules { p.2 with filter := f } := by
  have hreferences : (q.filteredBy text).references s = q.references s := rfl
  have houtcome : (q.filteredBy text).outcome s rules = q.outcome s rules := rfl
  simp only [run, subject_eq, hreferences, houtcome, bind_assoc, pure_bind]

theorem runUnder_eq (f : Filter) : q.runUnder s rules interrupted f =
    if interrupted then .fail (.interrupted .argumentResolution)
    else q.references s >>= fun p => q.outcome s rules { p.2 with filter := f } := by
  have hreferences : (q.filteredBy none).references s = q.references s := rfl
  have hfollowed : ∀ r, (q.filteredBy none).followed r = pure .complete := fun _ => rfl
  simp only [runUnder, subject_eq, hreferences, hfollowed, bind_assoc, pure_bind]

/-- A filter text that is read without regard to the rest of the query decides the filter. -/
theorem run_filteredBy_eq_runUnder {filter : Option String} {f : Filter}
    (h : ∀ r, (q.filteredBy filter).followed r = .ok f) :
    (q.filteredBy filter).run s rules interrupted = q.runUnder s rules interrupted f := by
  have hfollowed : ∀ r, (q.filteredBy filter).followed r = pure f := h
  simp only [run_filteredBy, runUnder_eq, hfollowed, pure_bind]

theorem followed_of_blank (h : ∀ c ∈ text.toList, Text.isBlank c) :
    (q.filteredBy (some text)).followed r = .ok .complete := by
  have htrim : Text.trim text.toList = [] := Text.trim_eq_nil_iff.2 h
  simp [followed, filteredBy, htrim]

theorem followed_of_not_blank (hq : q.kind.followsEdges)
    (h : ¬ ∀ c ∈ text.toList, Text.isBlank c) :
    (q.filteredBy (some text)).followed r =
      Answer.inArgument (.extensionFilter text) do
        return .finite (.ofList (← r.extensions text)) := by
  have htrim : Text.trim text.toList ≠ [] := mt Text.trim_eq_nil_iff.1 h
  simp [followed, filteredBy, htrim, hq]

theorem followed_of_no_tokens (hq : q.kind.followsEdges) (h : Reference.tokens text = []) :
    (q.filteredBy (some text)).followed r =
      .ok (if ',' ∈ text.toList then .finite ∅ else .complete) := by
  by_cases hcomma : ',' ∈ text.toList
  · have hblank := mt (Reference.isBlank_iff_of_tokens h).1 (not_not.2 hcomma)
    rw [followed_of_not_blank hq hblank, Resolver.extensions_of_no_tokens h, if_pos hcomma]
    rfl
  · rw [followed_of_blank ((Reference.isBlank_iff_of_tokens h).2 hcomma), if_neg hcomma]

theorem followed_sameUpTo (hq : q.kind.followsEdges)
    (h : Reference.tokens text = Reference.tokens text')
    (hcomma : Reference.tokens text = [] → (',' ∈ text.toList ↔ ',' ∈ text'.toList)) :
    ((q.filteredBy (some text)).followed r).SameUpTo (.extensionFilter text)
      (.extensionFilter text') ((q.filteredBy (some text')).followed r) := by
  by_cases hnil : Reference.tokens text = []
  · have hnil' : Reference.tokens text' = [] := h ▸ hnil
    rw [followed_of_no_tokens hq hnil, followed_of_no_tokens hq hnil']
    simp only [hcomma hnil]
    exact .refl _
  · have hblank : ∀ {text : String}, Reference.tokens text ≠ [] →
        ¬ ∀ c ∈ text.toList, Text.isBlank c := fun hne hall =>
      hne (Reference.tokens_eq_nil_iff.2 fun c hc => .inr (hall c hc))
    rw [followed_of_not_blank hq (hblank hnil), followed_of_not_blank hq (hblank (h ▸ hnil)),
      Resolver.extensions_congr h]
    exact .inArgument _

/-- A query that follows edges depends on the tokens of its filter text alone, and so do its errors
up to the text that they quote, provided that of two texts without tokens both or neither have a
comma. Such a text is taken as no filter if it has no comma, and as a list of no extensions if it
has one. -/
theorem run_filterText (s : Snapshot) (q : Request) (hq : q.kind.followsEdges) (rules : RuleSource)
    (interrupted : Bool) :
    (∀ text text', Reference.tokens text = Reference.tokens text' →
      (Reference.tokens text = [] → (',' ∈ text.toList ↔ ',' ∈ text'.toList)) →
        ((q.filteredBy (some text)).run s rules interrupted).SameUpTo (.extensionFilter text)
          (.extensionFilter text') ((q.filteredBy (some text')).run s rules interrupted)) ∧
    (∀ text, Reference.tokens text = [] ↔ ∀ c ∈ text.toList, c = ',' ∨ Text.isBlank c) ∧
    (q.filteredBy none).run s rules interrupted = q.runUnder s rules interrupted .complete ∧
    ∀ text, Reference.tokens text = [] →
      (q.filteredBy (some text)).run s rules interrupted =
        q.runUnder s rules interrupted (if ',' ∈ text.toList then .finite ∅ else .complete) := by
  refine ⟨fun text text' htokens hcomma => ?_, fun text => Reference.tokens_eq_nil_iff, ?_,
    fun text hnil => ?_⟩
  · rw [run_filteredBy, run_filteredBy]
    cases interrupted with
    | true => exact .refl _
    | false =>
      apply Answer.SameUpTo.bind_left
      intro p
      exact (followed_sameUpTo hq htokens hcomma).bind_right _
  · exact run_filteredBy_eq_runUnder fun _ => rfl
  · exact run_filteredBy_eq_runUnder fun _ => followed_of_no_tokens hq hnil

def extended : Snapshot := .ofDeclared ((Snapshot.plain [
    (.root, [⟨"a", "1"⟩]), (⟨"a", "1"⟩, [])]).adjust .root fun d => { d with
      extensionDeps := .ofList [("a", .ofList [⟨⟨"a", "1"⟩, "e", none⟩])] }) []

def rootTree : Request := ⟨.tree, [], { depth := some 3 }⟩

theorem run_filterText_commas : QueryKind.tree.followsEdges ∧
    Reference.tokens "," = Reference.tokens ", ," ∧
    ((rootTree.filteredBy (some ",")).run extended (.ofKnown fun _ => none) false).SameUpTo
      (.extensionFilter ",") (.extensionFilter ", ,")
      ((rootTree.filteredBy (some ", ,")).run extended (.ofKnown fun _ => none) false) := by
  have htokens : Reference.tokens "," = Reference.tokens ", ," := by cbv
  have hcommas : ',' ∈ ",".toList ↔ ',' ∈ ", ,".toList := by decide
  have hrun := run_filterText extended rootTree rfl (.ofKnown fun _ => none) false
  exact ⟨rfl, htokens, hrun.1 "," ", ," htokens fun _ => hcommas⟩

/-- A comma as filter has no tokens, and yet not even the extension is followed that is followed
without a filter. -/
theorem run_filter_comma : extended.Accepted ∧ Reference.tokens "," = Reference.tokens "" ∧
    Reference.tokens "" = [] ∧ ∃ pruned whole,
      ((rootTree.filteredBy (some ",")).run extended (.ofKnown fun _ => none) false).result =
        .ok (.tree pruned) ∧
      ((rootTree.filteredBy (some "")).run extended (.ofKnown fun _ => none) false).result =
        .ok (.tree whole) ∧
      ((rootTree.filteredBy none).run extended (.ofKnown fun _ => none) false).result =
        .ok (.tree whole) ∧
      pruned.entries.map Entry.key = [.root] ∧
      whole.entries.map Entry.key = [.root, ⟨"a", "1"⟩] := by
  have haccepted : extended.Accepted := Snapshot.accepted_ofDeclared (by cbv) (by cbv)
  let listed : Entry := ⟨⟨"a", "1"⟩, 1, false, some (.extension ⟨⟨"a", "1"⟩, "e", none⟩)⟩
  exact ⟨haccepted, by cbv, by cbv, ⟨[⟨.root, 0, false, none⟩]⟩,
    ⟨[⟨.root, 0, false, none⟩, listed]⟩, by cbv, by cbv, by cbv, rfl, rfl⟩

end Request

end ModuleGraph
