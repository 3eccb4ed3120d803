/-
# Bisection

Binary search over a window of positions, steered by a three-way probe.  Where the probe
splits the positions at `l` and `r` (`splitAt`), the search finds a position between `l`
and `r`, if there is one (`bisect_splitAt`).  A position in an ordered list is on one side
of a threshold exactly when it is less than the number of members on that side
(`countP_lt_iff`).
-/
import Mathlib.Data.List.Pairwise
import Mathlib.Data.Nat.Notation
import Mathlib.Data.Int.Notation
import Mathlib.Tactic.Set

namespace Bisect

/-- The search between `lo` and `hi`, with the middle rounded down. -/
def bisect (probe : ℤ → Ordering) : ℕ → ℤ → ℤ → Option ℤ
  | 0, _, _ => none
  | fuel + 1, lo, hi =>
    if lo ≤ hi then
      match probe (lo + (hi - lo) / 2) with
      | .eq => some (lo + (hi - lo) / 2)
      | .lt => bisect probe fuel (lo + (hi - lo) / 2 + 1) hi
      | .gt => bisect probe fuel lo (lo + (hi - lo) / 2 - 1)
    else none

/-- The probe for the positions from `l` on and before `r`. -/
def splitAt (l r : ℕ) (m : ℤ) : Ordering := if m < l then .lt else if m < r then .eq else .gt

/-- **The search finds a position between `l` and `r`**, exactly if there is one. -/
theorem bisect_splitAt {l r : ℕ} : ∀ {fuel : ℕ} {lo hi : ℤ}, hi - lo < fuel → lo ≤ l → r ≤ hi + 1 →
    (l < r → ∃ m, bisect (splitAt l r) fuel lo hi = some m ∧ (l : ℤ) ≤ m ∧ m < r) ∧
      (r ≤ l → bisect (splitAt l r) fuel lo hi = none) := by
  intro fuel
  induction fuel with
  | zero =>
    intro lo hi hfuel hlo hhi
    exact ⟨fun hlr => by omega, fun _ => rfl⟩
  | succ fuel ih =>
    intro lo hi hfuel hlo hhi
    rw [bisect]
    by_cases hle : lo ≤ hi
    · rw [if_pos hle]
      set mid := lo + (hi - lo) / 2 with hmid
      by_cases hl : mid < l
      · have hprobe : splitAt l r mid = .lt := if_pos hl
        simp only [hprobe]
        exact ih (by omega) (by omega) hhi
      · by_cases hr : mid < r
        · have hprobe : splitAt l r mid = .eq := by rw [splitAt, if_neg hl, if_pos hr]
          simp only [hprobe]
          exact ⟨fun _ => ⟨mid, rfl, by omega, hr⟩, fun hrl => by omega⟩
        · have hprobe : splitAt l r mid = .gt := by rw [splitAt, if_neg hl, if_neg hr]
          simp only [hprobe]
          exact ih (by omega) hlo (by omega)
    · rw [if_neg hle]
      exact ⟨fun hlr => by omega, fun _ => rfl⟩

/-- In a list where everything in front of a member with `p` has `p` too, the members with
`p` are the first ones. -/
theorem countP_lt_iff {α : Type*} {p : α → Bool} : ∀ {l : List α},
    l.Pairwise (fun a b => p b = true → p a = true) → ∀ {m : ℕ} (hm : m < l.length),
      p l[m] = true ↔ m < l.countP p := by
  intro l
  induction l with
  | nil =>
    intro _ m hm
    exact absurd hm (Nat.not_lt_zero m)
  | cons a l ih =>
    intro hl m hm
    obtain ⟨ha, hl'⟩ := List.pairwise_cons.mp hl
    by_cases hpa : p a = true
    · rw [List.countP_cons_of_pos hpa]
      cases m with
      | zero => simp [hpa]
      | succ m =>
        rw [List.getElem_cons_succ, ih hl' (by simpa using hm), Nat.succ_lt_succ_iff]
    · have hnone : ∀ b ∈ l, ¬ p b = true := fun b hb hpb => hpa (ha b hb hpb)
      rw [List.countP_cons_of_neg hpa, List.countP_eq_zero.mpr hnone]
      constructor
      · intro hpm
        rcases List.mem_cons.mp (List.getElem_mem hm) with heq | hmem
        · exact absurd (heq ▸ hpm) hpa
        · exact absurd hpm (hnone _ hmem)
      · intro hlt
        exact absurd hlt (Nat.not_lt_zero m)

end Bisect
