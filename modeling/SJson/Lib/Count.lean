/-
# Programs that count

A program of type `Counting ε α` may fail, and counts the steps of one kind that it makes
(`tick`), also where it fails.  `Within x y b` compares it with the program `y` that does not
count: both end in the same way, after at most `b y` counted steps.

The bound may depend on what is returned, so that a loop can be charged for the way it went
(`Within.bind`); where it does not, `Within.seq` adds the two bounds.
-/
import Mathlib.Algebra.Order.Ring.Nat

namespace Count

variable {ε α β : Type}

/-! ## Counting -/

/-- A program that may fail and counts. -/
abbrev Counting (ε α : Type) := ExceptT ε (StateM ℕ) α

/-- One counted step. -/
def tick : Counting ε Unit := fun k => (.ok (), k + 1)

/-- What costs nothing. -/
def free (y : Except ε α) : Counting ε α := fun k => (y, k)

/-- The program `x` is `y` with a counter that advances by at most `b`. -/
def Within (x : Counting ε α) (y : Except ε α) (b : Except ε α → ℕ) : Prop :=
  ∀ k : ℕ, ∃ m ≤ b y, x k = (y, k + m)

/-- The bound `b` for what is returned, and `n` for an error. -/
def perValue (b : α → ℕ) (n : ℕ) : Except ε α → ℕ
  | .ok a => b a
  | .error _ => n

/-! ## Rules -/

theorem within_pure (a : α) (b : Except ε α → ℕ) :
    Within (pure a : Counting ε α) (.ok a) b := fun _ => ⟨0, Nat.zero_le _, rfl⟩

theorem within_free (y : Except ε α) (b : Except ε α → ℕ) : Within (free y) y b :=
  fun _ => ⟨0, Nat.zero_le _, rfl⟩

/-- A bound may be raised. -/
theorem Within.mono {x : Counting ε α} {y : Except ε α} {b b' : Except ε α → ℕ}
    (h : Within x y b) (hle : b y ≤ b' y) : Within x y b' := by
  intro k
  obtain ⟨m, hm, hx⟩ := h k
  exact ⟨m, hm.trans hle, hx⟩

/-- **Sequences.**  The second program is charged for what the first one returned. -/
theorem Within.bind {x : Counting ε α} {y : Except ε α} {f : α → Counting ε β}
    {g : α → Except ε β} {b : Except ε α → ℕ} {c : α → Except ε β → ℕ} {d : Except ε β → ℕ}
    (hx : Within x y b) (hf : ∀ a, y = .ok a → Within (f a) (g a) (c a))
    (hok : ∀ a, y = .ok a → b (.ok a) + c a (g a) ≤ d (g a))
    (herr : ∀ e, y = .error e → b (.error e) ≤ d (.error e)) :
    Within (x >>= f) (y >>= g) d := by
  intro k
  obtain ⟨m, hm, hxk⟩ := hx k
  cases y with
  | error e =>
    refine ⟨m, hm.trans (herr e rfl), ?_⟩
    show ExceptT.bindCont f (x k).1 (x k).2 = _
    rw [hxk]
    rfl
  | ok a =>
    obtain ⟨m', hm', hfk⟩ := hf a rfl (k + m)
    refine ⟨m + m', (Nat.add_le_add hm hm').trans (hok a rfl), ?_⟩
    show ExceptT.bindCont f (x k).1 (x k).2 = _
    rw [hxk, ← Nat.add_assoc]
    exact hfk

/-- Sequences with bounds that do not depend on what is returned. -/
theorem Within.seq {x : Counting ε α} {y : Except ε α} {f : α → Counting ε β}
    {g : α → Except ε β} {m n : ℕ} (hx : Within x y fun _ => m)
    (hf : ∀ a, y = .ok a → Within (f a) (g a) fun _ => n) :
    Within (x >>= f) (y >>= g) fun _ => m + n :=
  hx.bind hf (fun _ _ => le_rfl) fun _ _ => Nat.le_add_right m n

/-- What is free in front of a program does not count. -/
theorem within_free_bind {y : Except ε α} {f : α → Counting ε β} {g : α → Except ε β}
    {b : Except ε β → ℕ} (hf : ∀ a, y = .ok a → Within (f a) (g a) b) :
    Within (free y >>= f) (y >>= g) b :=
  (within_free y fun _ => 0).bind hf (fun _ _ => (Nat.zero_add _).le) fun _ _ => Nat.zero_le _

/-- A program behind one counted step. -/
theorem within_tick_bind {f : Unit → Counting ε α} {y : Except ε α} {n : ℕ}
    (hf : Within (f ()) y fun _ => n) : Within (tick >>= f) y fun _ => n + 1 := by
  intro k
  obtain ⟨m, hm, hfk⟩ := hf (k + 1)
  refine ⟨m + 1, Nat.succ_le_succ hm, ?_⟩
  rw [Nat.add_comm m 1, ← Nat.add_assoc]
  exact hfk

theorem within_ite {p : Prop} [Decidable p] {x x' : Counting ε α} {y y' : Except ε α}
    {b : Except ε α → ℕ} (h : p → Within x y b) (h' : ¬ p → Within x' y' b) :
    Within (if p then x else x') (if p then y else y') b := by
  by_cases hp : p
  · rw [if_pos hp, if_pos hp]
    exact h hp
  · rw [if_neg hp, if_neg hp]
    exact h' hp

end Count
