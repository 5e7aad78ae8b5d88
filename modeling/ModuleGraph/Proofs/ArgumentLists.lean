import ModuleGraph.Proofs.Answer
import ModuleGraph.Proofs.BuiltGraph
import ModuleGraph.Proofs.FirstSeen
import ModuleGraph.Query.Request

/-!
# One argument with commas in place of several

The arguments of a query are comma lists. Each is resolved by itself and the results are united, so
what succeeds depends on nothing but the tokens of all arguments in order: whether the same tokens
stand in several arguments or in one, the result is the same and so are the warnings. Only failing
queries tell the two apart, for a list is read as a whole before any of it is resolved.
-/
namespace ModuleGraph

namespace Text

theorem splitAll_ne_nil (sep : Char) (s : List Char) : splitAll sep s ≠ [] := by
  fun_induction splitAll sep s <;> simp

theorem splitAll_append (sep : Char) (a b : List Char) :
    splitAll sep (a ++ sep :: b) = splitAll sep a ++ splitAll sep b := by
  induction a with
  | nil => simp [splitAll]
  | cons c a ih =>
    by_cases hc : c = sep
    · simp [splitAll, hc, ih]
    · cases hsplit : splitAll sep a with
      | nil => exact absurd hsplit (splitAll_ne_nil sep a)
      | cons p ps => simp [splitAll, hc, ih, hsplit]

end Text

namespace Reference

theorem tokens_append (a b : String) : tokens (a ++ "," ++ b) = tokens a ++ tokens b := by
  have hlist : (a ++ "," ++ b).toList = a.toList ++ ',' :: b.toList := by simp
  rw [tokens, hlist, Text.splitAll_append, List.map_append, List.filter_append, List.map_append]
  rfl

theorem tokens_intercalate (args : List String) :
    tokens (",".intercalate args) = args.flatMap tokens := by
  induction args with
  | nil => rfl
  | cons a args ih =>
    cases args with
    | nil => simp
    | cons b args =>
      rw [String.intercalate_cons_cons, tokens_append, ih]
      exact List.flatMap_cons.symm

end Reference

namespace Answer

variable {α β γ : Type} {x y : Answer α} {f g : α → Answer β}

/-- The result with the warnings on the way to it, if there is a result. -/
def success (x : Answer α) : Option (α × List Warning) :=
  match x.result with
  | .ok a => some (a, x.warnings)
  | .error _ => none

theorem success_inArgument (argument : Argument) (x : Answer α) :
    (x.inArgument argument).success = x.success := by
  obtain ⟨result, ws⟩ := x
  cases result <;> rfl

theorem success_bind (x : Answer α) (f : α → Answer β) : (x >>= f).success =
    x.success.bind fun p => (f p.1).success.map fun q => (q.1, p.2 ++ q.2) := by
  obtain ⟨result, ws⟩ := x
  cases result with
  | error e => rfl
  | ok a =>
    simp only [success, bind_ok, Option.bind_some]
    cases (f a).result <;> rfl

theorem success_bind_congr (hx : x.success = y.success) (hf : ∀ a, (f a).success = (g a).success) :
    (x >>= f).success = (y >>= g).success := by
  simp only [success_bind, hx, hf]

theorem success_eq_none_iff : x.success = none ↔ ∃ e, x.result = .error e := by
  rw [success]
  cases x.result <;> simp

theorem eq_of_success {a : α} (h : x.success = y.success) (ha : x.result = .ok a) : y = x := by
  obtain ⟨result, ws⟩ := x
  obtain ⟨result', ws'⟩ := y
  obtain rfl : result = .ok a := ha
  cases result' with
  | error e => simp [success] at h
  | ok a' =>
    obtain ⟨rfl, rfl⟩ : a = a' ∧ ws = ws' := by simpa [success] using h
    rfl

/-- For what succeeds it is the same whether everything is read before any of it is used or each
just before it is used. -/
theorem success_mapM_lift {ε : Type} {wrap : ε → QueryError} (read : α → Except ε β)
    (use : β → Answer γ) (l : List α) :
    (lift ((l.mapM read).mapError wrap) >>= fun bs => bs.mapM use).success =
      (l.mapM fun a => lift ((read a).mapError wrap) >>= use).success := by
  induction l with
  | nil => rfl
  | cons a l ih =>
    rw [List.mapM_cons, List.mapM_cons]
    cases hread : read a with
    | error e => rfl
    | ok b =>
      have hrest : (lift ((.ok b >>= fun b => l.mapM read >>= fun bs => pure (b :: bs)).mapError
          wrap) >>= fun bs => bs.mapM use).success = (use b >>= fun c =>
            (lift ((l.mapM read).mapError wrap) >>= fun bs => bs.mapM use) >>=
              fun cs => pure (c :: cs)).success := by
        cases l.mapM read with
        | error e =>
          rw [success_bind (use b)]
          cases (use b).success <;> rfl
        | ok bs => exact congrArg success List.mapM_cons
      exact hrest.trans (success_bind_congr rfl fun c => success_bind_congr ih fun cs => rfl)

end Answer

namespace Resolver

section Lists

variable {ref α β : Type} [BEq β] (read : String → Except InvalidReference ref)
  (use : ref → Answer α) (parts : α → List β)

/-- What the tokens of a list come to: all their parts, each at its first occurrence. -/
def united (tokens : List String) : Answer (List β) := do
  let found ← tokens.mapM fun token => Answer.lift ((read token).mapError .invalidReference) >>= use
  return (found.flatMap parts).eraseDups

def listed (text : String) : Answer (List β) := do
  let refs ← Answer.lift (((Reference.tokens text).mapM read).mapError .invalidReference)
  let found ← refs.mapM use
  return (found.flatMap parts).eraseDups

theorem success_listed (text : String) : (listed read use parts text).success =
    (united read use parts (Reference.tokens text)).success := by
  rw [listed, united, ← bind_assoc]
  exact Answer.success_bind_congr (Answer.success_mapM_lift read use _) fun _ => rfl

variable [LawfulBEq β]

theorem united_append (tokens tokens' : List String) :
    united read use parts (tokens ++ tokens') = do
      let found ← united read use parts tokens
      let found' ← united read use parts tokens'
      return (found ++ found').eraseDups := by
  simp only [united, List.mapM_append, bind_assoc, pure_bind, List.flatMap_append,
    FirstSeen.eraseDups_append_eraseDups]

theorem success_mapM_listed (context : String → Argument) (args : List String) :
    (do
      let found ← args.mapM fun arg => (listed read use parts arg).inArgument (context arg)
      return found.flatten.eraseDups).success =
        (united read use parts (args.flatMap Reference.tokens)).success := by
  induction args with
  | nil => rfl
  | cons arg args ih =>
    have hfirst : ((listed read use parts arg).inArgument (context arg)).success =
        (united read use parts (Reference.tokens arg)).success := by
      rw [Answer.success_inArgument, success_listed]
    have hunited : ∀ found : List β, ((do
        let rest ← args.mapM fun arg => (listed read use parts arg).inArgument (context arg)
        return (found ++ rest.flatten).eraseDups)).success = (do
          let rest ← united read use parts (args.flatMap Reference.tokens)
          return (found ++ rest).eraseDups).success := by
      intro found
      refine Eq.trans ?_ (Answer.success_bind_congr ih fun _ => rfl)
      simp only [bind_assoc, pure_bind, FirstSeen.eraseDups_append_right]
    rw [List.flatMap_cons, united_append]
    simp only [List.mapM_cons, bind_assoc, pure_bind, List.flatten_cons]
    exact Answer.success_bind_congr hfirst hunited

end Lists

variable {r : Resolver} {p : Policy}

theorem modules_eq_listed (r : Resolver) (p : Policy) :
    r.modules p = listed ModuleRef.ofText (r.denoted p) id := by
  funext text
  simp only [modules, Reference.modules, listed, List.flatMap_id]

theorem extensions_eq_listed (r : Resolver) :
    r.extensions = listed ExtensionRef.ofText r.extension (fun id => [id]) := by
  funext text
  simp only [extensions, Reference.extensions, listed, List.flatMap_singleton']

end Resolver

namespace Request

variable {s : Snapshot} {q : Request} {r : Resolver} {rules : RuleSource} {interrupted : Bool}
  {args : List String}

def withArgs (q : Request) (args : List String) : Request := { q with args }

/-- The query with all its arguments put together in one comma list. -/
def joined (q : Request) : Request := q.withArgs [",".intercalate q.args]

section Tokens

variable (hargs : args.flatMap Reference.tokens = q.args.flatMap Reference.tokens)

include hargs

theorem success_argModules (p : Policy) (context : String → Argument) :
    ((q.withArgs args).argModules r p context).success =
      (q.argModules r p context).success := by
  simp only [argModules, withArgs, Resolver.modules_eq_listed, Resolver.success_mapM_listed, hargs]

theorem success_argExtensions :
    ((q.withArgs args).argExtensions r).success = (q.argExtensions r).success := by
  simp only [argExtensions, withArgs, Resolver.extensions_eq_listed,
    Resolver.success_mapM_listed, hargs]

theorem success_targets (hq : q.kind ≠ .tree) :
    ((q.withArgs args).targets r).success = (q.targets r).success := by
  have hkind : (q.withArgs args).kind = q.kind := rfl
  have hpolicy : (q.withArgs args).policy = q.policy := rfl
  rw [targets, targets, hkind]
  cases hk : q.kind with
  | tree => exact absurd hk hq
  | repos => exact Answer.success_bind_congr (success_argModules hargs _ _) fun _ => rfl
  | extensions => exact Answer.success_bind_congr (success_argExtensions hargs) fun _ => rfl
  | _ => exact Answer.success_bind_congr (success_argModules hargs _ _) fun _ => rfl

theorem success_run (hq : q.kind ≠ .tree) :
    ((q.withArgs args).run s rules interrupted).success =
      (q.run s rules interrupted).success := by
  have hsubject : ((q.withArgs args).subject s).success = (q.subject s).success := by
    refine Answer.success_bind_congr rfl fun base => Answer.success_bind_congr rfl fun r => ?_
    exact Answer.success_bind_congr (success_targets hargs hq) fun _ => rfl
  rw [run, run]
  cases interrupted with
  | true => rfl
  | false => exact Answer.success_bind_congr hsubject fun _ => rfl

end Tokens

/-- To put all arguments together in one comma list makes no difference to whether a query fails,
and none to what it comes to and warns of if it does not. -/
theorem run_joined (s : Snapshot) (q : Request) (hq : q.kind ≠ .tree) (rules : RuleSource)
    (interrupted : Bool) :
    ((∃ e, (q.joined.run s rules interrupted).result = .error e) ↔
      ∃ e, (q.run s rules interrupted).result = .error e) ∧
    ∀ outcome, (q.run s rules interrupted).result = .ok outcome →
      q.joined.run s rules interrupted = q.run s rules interrupted := by
  have hargs : [",".intercalate q.args].flatMap Reference.tokens =
      q.args.flatMap Reference.tokens := by
    rw [List.flatMap_singleton, Reference.tokens_intercalate]
  have hsuccess : (q.joined.run s rules interrupted).success =
      (q.run s rules interrupted).success := success_run hargs hq
  refine ⟨?_, fun outcome h => Answer.eq_of_success hsuccess.symm h⟩
  rw [← Answer.success_eq_none_iff, ← Answer.success_eq_none_iff, hsuccess]

def bothVersions : Request where
  kind := .deps
  args := ["a, b@1", "", "a@1,a"]
  options := { includeUnused := true, depth := some 1 }

/-- Every mention of the version that lost gives its warning in either form of the query. -/
theorem run_joined_bothVersions : bothVersions.kind ≠ .tree ∧
    bothVersions.joined.args = ["a, b@1,,a@1,a"] ∧ ∃ outcome warnings,
      bothVersions.run (.ofDeclared Snapshot.versions []) (.ofKnown fun _ => none) false =
        ⟨.ok outcome, warnings⟩ ∧
      bothVersions.joined.run (.ofDeclared Snapshot.versions []) (.ofKnown fun _ => none) false =
        ⟨.ok outcome, warnings⟩ ∧
      warnings = List.replicate 3 (.unusedVersion ⟨"a", "1"⟩) := by
  have hkind : bothVersions.kind ≠ .tree := by decide
  let listed : Tree := ⟨[⟨⟨"a", "2"⟩, 0, false, none⟩, ⟨⟨"a", "1"⟩, 0, false, none⟩,
    ⟨⟨"b", "1"⟩, 0, false, none⟩]⟩
  have hrun : bothVersions.run (.ofDeclared Snapshot.versions []) (.ofKnown fun _ => none) false =
      ⟨.ok (.tree listed), List.replicate 3 (.unusedVersion ⟨"a", "1"⟩)⟩ := by cbv
  obtain ⟨-, hsame⟩ := run_joined (.ofDeclared Snapshot.versions []) bothVersions hkind
    (.ofKnown fun _ => none) false
  refine ⟨hkind, by cbv, _, _, hrun, ?_, rfl⟩
  rw [hsame _ (congrArg Answer.result hrun), hrun]

end Request

end ModuleGraph
