import ModuleGraph.Query.Answer
import Mathlib.Data.List.Forall2
import Mathlib.Tactic.Common

/-!
# How an answer ends

An answer ends with a result or with an error, and `Answer.Ends` says what is known of either. What
is known of the steps of a computation is known of the whole, so that every function of a query is
treated once, with the errors that it can end with.
-/
namespace ModuleGraph

namespace QueryError

/-- An error that ends one query only and does not say where it comes from. -/
def Plain (e : QueryError) : Prop :=
  e.isFatal = false ∧ ∀ argument error, e ≠ .inArgument argument error

/-- An error that says once where it comes from and ends one query only. -/
def Placed (e : QueryError) : Prop :=
  ∃ argument error, e = .inArgument argument error ∧ error.Plain

theorem Placed.not_fatal {e : QueryError} (h : e.Placed) : e.isFatal = false := by
  obtain ⟨argument, error, rfl, hfatal, -⟩ := h
  exact hfatal

end QueryError

namespace Answer

variable {α β : Type} {x : Answer α} {post post' : α → Prop} {after : β → Prop}
  {error error' : QueryError → Prop}

theorem result_bind (x : Answer α) (f : α → Answer β) :
    (x >>= f).result = x.result >>= fun a => (f a).result := by
  obtain ⟨result, ws⟩ := x
  cases result <;> rfl

theorem result_mapM (f : α → Answer β) (l : List α) :
    (l.mapM f).result = l.mapM fun a => (f a).result := by
  induction l with
  | nil => rfl
  | cons a l ih =>
    rw [List.mapM_cons, List.mapM_cons, result_bind]
    simp only [result_bind, ih]
    rfl

theorem mapM_eq_ok {f : α → Answer β} {warnings : β → List Warning} {l : List α} {bs : List β}
    (h : List.Forall₂ (fun a b => f a = ⟨.ok b, warnings b⟩) l bs) :
    l.mapM f = ⟨.ok bs, bs.flatMap warnings⟩ := by
  induction h with
  | nil => rfl
  | cons ha _ ih =>
    rw [List.mapM_cons, ha, ih]
    simp [Answer.ok]

theorem bind_eq_error_iff {f : α → Answer β} {e : QueryError} :
    (x >>= f).result = .error e ↔
      x.result = .error e ∨ ∃ a, x.result = .ok a ∧ (f a).result = .error e := by
  obtain ⟨result, ws⟩ := x
  cases result <;> simp

/-- The result has one property, or the error the other. -/
def Ends (x : Answer α) (post : α → Prop) (error : QueryError → Prop) : Prop :=
  match x.result with
  | .ok a => post a
  | .error e => error e

namespace Ends

theorem of_ok {a : α} (h : x.Ends post error) (ha : x.result = .ok a) : post a := by
  rw [Ends, ha] at h
  exact h

theorem of_error {e : QueryError} (h : x.Ends post error) (he : x.result = .error e) :
    error e := by
  rw [Ends, he] at h
  exact h

theorem ok {a : α} (h : post a) : (Answer.ok a).Ends post error := h

theorem fail {e : QueryError} (h : error e) : (Answer.fail e : Answer α).Ends post error := h

theorem warning {ws : List Warning} {a : α} (h : post a) :
    (Answer.warning ws a).Ends post error := h

theorem mono (h : x.Ends post error) (hpost : ∀ a, post a → post' a)
    (herror : ∀ e, error e → error' e) : x.Ends post' error' := by
  rw [Ends] at h ⊢
  cases hx : x.result with
  | ok a =>
    rw [hx] at h
    exact hpost a h
  | error e =>
    rw [hx] at h
    exact herror e h

theorem imp (h : x.Ends post error) (herror : ∀ e, error e → error' e) : x.Ends post error' :=
  h.mono (fun _ => id) herror

theorem trivial (h : x.Ends post error) : x.Ends (fun _ => True) error :=
  h.mono (fun _ _ => True.intro) fun _ => id

theorem bind {f : α → Answer β} (hx : x.Ends post error)
    (hf : ∀ a, post a → (f a).Ends after error) : (x >>= f).Ends after error := by
  obtain ⟨result, ws⟩ := x
  cases result with
  | ok a => exact hf a hx
  | error e => exact hx

theorem mapM {f : α → Answer β} {l : List α} (h : ∀ a ∈ l, (f a).Ends after error) :
    (l.mapM f).Ends (fun bs => ∀ b ∈ bs, after b) error := by
  induction l with
  | nil => simpa using ok (by simp)
  | cons a l ih =>
    rw [List.mapM_cons]
    refine (h a List.mem_cons_self).bind fun b hb => ?_
    refine (ih fun c hc => h c (List.mem_cons_of_mem a hc)).bind fun bs hbs => ?_
    exact ok (List.forall_mem_cons.2 ⟨hb, hbs⟩)

theorem placed (h : x.Ends post QueryError.Plain) (argument : Argument) :
    (x.inArgument argument).Ends post QueryError.Placed := by
  obtain ⟨result, ws⟩ := x
  cases result with
  | ok a => exact h
  | error e => exact ⟨argument, e, rfl, h⟩

theorem lift {ε : Type} {r : Except ε α} {wrap : ε → QueryError} (h : ∀ e, error (wrap e)) :
    (Answer.lift (r.mapError wrap)).Ends (fun a => r = .ok a) error := by
  cases r with
  | ok a => exact rfl
  | error e => exact h e

end Ends

end Answer

end ModuleGraph
