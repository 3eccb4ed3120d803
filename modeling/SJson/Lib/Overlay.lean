/-
# Bytes laid over memory

A memory is a function from addresses to cells.  `overlay f i b` is the memory `f` with the
list `b` stored from address `i` on.
-/
import Mathlib.Data.List.Basic
import Mathlib.Data.Nat.Notation
import Mathlib.Logic.Function.Basic

namespace Overlay

variable {α : Type}

/-- The memory `f` with the cells of `b` from `i` on. -/
def overlay (f : ℕ → α) (i : ℕ) (b : List α) : ℕ → α := fun j =>
  if i ≤ j then (b[j - i]?).getD (f j) else f j

@[simp] theorem overlay_nil (f : ℕ → α) (i : ℕ) : overlay f i [] = f := by
  funext j
  simp [overlay]

theorem overlay_singleton (f : ℕ → α) (i : ℕ) (c : α) :
    overlay f i [c] = Function.update f i c := by
  funext j
  unfold overlay
  by_cases hj : j = i
  · rw [hj, Function.update_self, if_pos (Nat.le_refl i), Nat.sub_self]
    rfl
  · rw [Function.update_of_ne hj]
    split
    · rw [List.getElem?_eq_none (by simp; omega)]
      rfl
    · rfl

/-- Storing one list behind the other. -/
theorem overlay_append (f : ℕ → α) (i : ℕ) (b b' : List α) :
    overlay (overlay f i b) (i + b.length) b' = overlay f i (b ++ b') := by
  funext j
  unfold overlay
  by_cases hj : i + b.length ≤ j
  · rw [if_pos hj, if_pos (by omega), List.getElem?_append_right (by omega),
      List.getElem?_eq_none (show b.length ≤ j - i by omega), if_pos (by omega),
      Nat.sub_add_eq]
    rfl
  · rw [if_neg hj]
    by_cases hi : i ≤ j
    · rw [if_pos hi, if_pos hi, List.getElem?_append_left (by omega)]
    · rw [if_neg hi, if_neg hi]

theorem overlay_get {f : ℕ → α} {i k : ℕ} {b : List α} (h : k < b.length) :
    overlay f i b (i + k) = b[k] := by
  unfold overlay
  rw [if_pos (Nat.le_add_right ..), Nat.add_sub_cancel_left, List.getElem?_eq_getElem h]
  rfl

theorem overlay_replicate (f : ℕ → α) (i n : ℕ) (c : α) :
    overlay f i (List.replicate n c) = fun j => if i ≤ j ∧ j < i + n then c else f j := by
  funext j
  unfold overlay
  by_cases hi : i ≤ j
  · by_cases hj : j < i + n
    · rw [if_pos hi, if_pos ⟨hi, hj⟩, List.getElem?_replicate, if_pos (by omega)]
      rfl
    · rw [if_pos hi, if_neg (fun h => hj h.2), List.getElem?_replicate, if_neg (by omega)]
      rfl
  · rw [if_neg hi, if_neg (fun h => hi h.1)]

end Overlay
