/-
# Segments of a list

What stands at a place of a list: `Spells src p b q` says that `b` stands from the place `p`
on and ends before `q`.  A segment that is the join of two is a segment behind another
(`spells_append`), so a text that was put together piece by piece can be read off piece by
piece, with no arithmetic on the places.
-/
import Mathlib.Data.List.Basic
import Mathlib.Data.Nat.Notation

namespace Segment

variable {α : Type} {src : List α}

/-- The entries from `p` on are `b`, and end before `q`. -/
def Spells (src : List α) (p : ℕ) (b : List α) (q : ℕ) : Prop :=
  q = p + b.length ∧ b <+: src.drop p

/-- Nothing stands everywhere. -/
@[simp] theorem spells_nil {p q : ℕ} : Spells src p [] q ↔ q = p := by
  simp [Spells]

/-- A list stands at its own beginning. -/
theorem spells_self (src : List α) : Spells src 0 src src.length := by
  simp [Spells]

/-- The first entry of a segment. -/
theorem spells_cons {p q : ℕ} {c : α} {b : List α} :
    Spells src p (c :: b) q ↔ src[p]? = some c ∧ Spells src (p + 1) b q := by
  unfold Spells
  constructor
  · rintro ⟨hq, t, ht⟩
    have hget : (src.drop p)[0]? = some c := by rw [← ht]; rfl
    rw [List.getElem?_drop, Nat.add_zero] at hget
    have htail : src.drop (p + 1) = b ++ t := by
      rw [← List.tail_drop, ← ht]
      rfl
    exact ⟨hget, by rw [hq, List.length_cons]; omega, t, htail.symm⟩
  · rintro ⟨hc, hq, t, ht⟩
    refine ⟨by rw [hq, List.length_cons]; omega, t, ?_⟩
    obtain ⟨hlt, hget⟩ := List.getElem?_eq_some_iff.mp hc
    rw [List.drop_eq_getElem_cons hlt, hget, ← ht]
    rfl

/-- A segment that is the join of two. -/
theorem spells_append {p q : ℕ} {a b : List α} :
    Spells src p (a ++ b) q ↔ ∃ r, Spells src p a r ∧ Spells src r b q := by
  induction a generalizing p with
  | nil => simp
  | cons c a ih =>
    rw [List.cons_append, spells_cons, ih]
    constructor
    · rintro ⟨hc, r, ha, hb⟩
      exact ⟨r, spells_cons.mpr ⟨hc, ha⟩, hb⟩
    · rintro ⟨r, ha, hb⟩
      obtain ⟨hc, ha⟩ := spells_cons.mp ha
      exact ⟨hc, r, ha, hb⟩

theorem Spells.eq {p q : ℕ} {b : List α} (h : Spells src p b q) : q = p + b.length := h.1

/-- What follows a segment. -/
theorem Spells.drop_eq {p q : ℕ} {b : List α} (h : Spells src p b q) :
    src.drop p = b ++ src.drop q := by
  obtain ⟨rfl, t, ht⟩ := h
  rw [← ht, ← List.drop_drop, ← ht, List.drop_left]

/-- A segment that is not empty lies within the list. -/
theorem Spells.le_length {p q : ℕ} {b : List α} (h : Spells src p b q) (hp : p ≤ src.length) :
    q ≤ src.length := by
  obtain ⟨rfl, hpre⟩ := h
  have hlen := hpre.length_le
  rw [List.length_drop] at hlen
  omega

end Segment
