/-
# Loops that may fail

A loop over a list whose body succeeds under a condition, always with the same error otherwise
(`attempt`), succeeds if the condition holds of every element (`mapM_attempt`,
`foldlM_attempt`).  A loop over the indices of a list is one over its elements
(`forall₂_range`, with `mapM_congr` and `foldlM_congr`).
-/
import Mathlib.Data.List.Forall2
import Mathlib.Data.Nat.Notation

namespace Loops

variable {ε α β σ : Type}

/-! ## Loops over related lists -/

theorem mapM_congr {f : α → Except ε σ} {g : β → Except ε σ} {l : List α} {m : List β}
    (h : List.Forall₂ (fun a b => f a = g b) l m) : l.mapM f = m.mapM g := by
  induction h with
  | nil => rfl
  | cons hab _ ih => rw [List.mapM_cons, List.mapM_cons, hab, ih]

theorem foldlM_congr {f : σ → α → Except ε σ} {g : σ → β → Except ε σ} {l : List α} {m : List β}
    (h : List.Forall₂ (fun a b => ∀ s, f s a = g s b) l m) (s : σ) :
    l.foldlM f s = m.foldlM g s := by
  induction h generalizing s with
  | nil => rfl
  | cons hab _ ih =>
    rw [List.foldlM_cons, List.foldlM_cons, hab]
    congr 1
    funext s'
    exact ih s'

/-- The indices of a list and its elements. -/
theorem forall₂_range {R : ℕ → α → Prop} (l : List α) (h : ∀ i a, l[i]? = some a → R i a) :
    List.Forall₂ R (List.range l.length) l := by
  rw [List.forall₂_iff_get]
  constructor
  · exact List.length_range
  · intro i hi hi'
    rw [List.get_eq_getElem, List.get_eq_getElem, List.getElem_range]
    apply h
    exact List.getElem?_eq_getElem hi'

/-! ## Attempts -/

/-- A computation that succeeds under a condition. -/
def attempt (P : Prop) [Decidable P] (e : ε) (a : α) : Except ε α := if P then .ok a else .error e

variable {P Q : Prop} [Decidable P] [Decidable Q] {e : ε}

theorem attempt_pos (h : P) (a : α) : attempt P e a = .ok a := if_pos h

theorem attempt_neg (h : ¬ P) (a : α) : attempt P e a = .error e := if_neg h

theorem attempt_congr (h : P ↔ Q) (a : α) : attempt P e a = attempt Q e a := by
  by_cases hP : P
  · rw [attempt_pos hP, attempt_pos (h.mp hP)]
  · rw [attempt_neg hP, attempt_neg fun hQ => hP (h.mpr hQ)]

theorem attempt_map (a : α) (f : α → β) :
    (attempt P e a >>= fun a => pure (f a)) = attempt P e (f a) := by
  by_cases hP : P
  · rw [attempt_pos hP, attempt_pos hP]
    rfl
  · rw [attempt_neg hP, attempt_neg hP]
    rfl

/-- Attempts one after the other. -/
theorem attempt_bind (a : α) {k : α → Except ε β} {b : β} (hk : P → k a = attempt Q e b) :
    (attempt P e a >>= k) = attempt (P ∧ Q) e b := by
  by_cases hP : P
  · rw [attempt_pos hP]
    show k a = _
    rw [hk hP]
    exact attempt_congr (by simp [hP]) b
  · rw [attempt_neg hP, attempt_neg fun h => hP h.1]
    rfl

variable {p : α → Prop} [DecidablePred p]

theorem mapM_attempt (f : α → β) (l : List α) :
    l.mapM (fun a => attempt (p a) e (f a)) = attempt (∀ a ∈ l, p a) e (l.map f) := by
  induction l with
  | nil => exact (attempt_pos (by simp) _).symm
  | cons a l ih =>
    rw [List.mapM_cons, ih]
    exact (attempt_bind (f a) fun _ => attempt_map (l.map f) (f a :: ·)).trans
      (attempt_congr List.forall_mem_cons.symm _)

theorem foldlM_attempt (f : β → α → β) (l : List α) (s : β) :
    l.foldlM (fun s a => attempt (p a) e (f s a)) s = attempt (∀ a ∈ l, p a) e (l.foldl f s) := by
  induction l generalizing s with
  | nil => exact (attempt_pos (by simp) _).symm
  | cons a l ih =>
    rw [List.foldlM_cons]
    exact (attempt_bind (f s a) fun _ => ih (f s a)).trans
      (attempt_congr List.forall_mem_cons.symm _)

end Loops
