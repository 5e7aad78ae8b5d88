import Mathlib.Tactic.Common

/-!
# Loops

A loop is given by what makes one turn of it, which gives nothing where the loop ends. What every
turn keeps holds after any number of turns. When every turn uses up some of a potential, there are
no more turns than there was potential at first, so the loop ends.
-/
namespace ModuleGraph

variable {σ : Type} {turn : σ → Option σ} {s t u : σ} {n : ℕ}

/-- The state that a loop is in after so many turns. -/
inductive After (turn : σ → Option σ) (s : σ) : ℕ → σ → Prop
  | start : After turn s 0 s
  | next {n : ℕ} {t u : σ} : After turn s n t → turn t = some u → After turn s (n + 1) u

namespace After

variable {inv : σ → Prop} {potential : σ → ℕ}

theorem head (hturn : turn s = some t) (h : After turn t n u) : After turn s (n + 1) u := by
  induction h with
  | start => exact start.next hturn
  | next _ hlast ih => exact ih.next hlast

theorem keeps (hkeeps : ∀ t u, inv t → turn t = some u → inv u) (hs : inv s)
    (h : After turn s n t) : inv t := by
  induction h with
  | start => exact hs
  | next _ hlast ih => exact hkeeps _ _ ih hlast

theorem unchanged {β : Type} {f : σ → β} (hturns : ∀ t u, turn t = some u → f u = f t)
    (h : After turn s n t) : f t = f s := by
  induction h with
  | start => rfl
  | next _ hlast ih => exact (hturns _ _ hlast).trans ih

/-- Every turn keeps the invariant and uses up some of the potential. -/
def Spends (turn : σ → Option σ) (inv : σ → Prop) (potential : σ → ℕ) : Prop :=
  ∀ t u, inv t → turn t = some u → inv u ∧ potential u < potential t

theorem Spends.add_le (hspends : Spends turn inv potential) (hs : inv s) (h : After turn s n t) :
    n + potential t ≤ potential s := by
  induction h with
  | start => omega
  | next hbefore hlast ih =>
    have hinv := hbefore.keeps (fun t u ht htu => (hspends t u ht htu).1) hs
    have hlt := (hspends _ _ hinv hlast).2
    omega

theorem Spends.exists_last (hspends : Spends turn inv potential) (hs : inv s) :
    ∃ n last, After turn s n last ∧ turn last = none ∧ n ≤ potential s := by
  have hends : ∃ n last, After turn s n last ∧ turn last = none := by
    induction hp : potential s using Nat.strongRecOn generalizing s with
    | _ p ih =>
      cases hturn : turn s with
      | none => exact ⟨0, s, .start, hturn⟩
      | some t =>
        obtain ⟨ht, hlt⟩ := hspends s t hs hturn
        obtain ⟨n, last, hlast, hend⟩ := ih _ (hp ▸ hlt) ht rfl
        exact ⟨n + 1, last, hlast.head hturn, hend⟩
  obtain ⟨n, last, hlast, hend⟩ := hends
  have hle := hspends.add_le hs hlast
  exact ⟨n, last, hlast, hend, by omega⟩

end After

end ModuleGraph
