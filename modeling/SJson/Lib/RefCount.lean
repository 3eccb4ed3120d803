/-
# Counted ownership

Resources that are shared by the handles that hold them.  A handle holds one resource; a
resource counts its handles and is given up together with the last of them.  `own a` is what
the handle `a` holds and `count b` is the counter of the resource `b`; `none` says that there
is no such handle or resource.
-/
import Mathlib

namespace RefCount

open Function

variable {α β : Type}

/-- The handles that hold `b`. -/
def holders (own : α → Option β) (b : β) : Set α := {a | own a = some b}

/-- **The invariant.**  A resource that is there counts its handles, and has one. -/
structure Counted (own : α → Option β) (count : β → Option ℕ) : Prop where
  count_eq : ∀ b, (count b).getD 0 = (holders own b).ncard
  pos : ∀ b, count b ≠ some 0

/-! ## Holders -/

section Holders

variable [DecidableEq α] {own : α → Option β} {a : α} {b : β}

/-- A handle that is made is one more holder. -/
theorem holders_take (b : β) : holders (update own a (some b)) b = insert a (holders own b) := by
  ext a'
  by_cases h : a' = a
  · simp [holders, h]
  · simp [holders, h]

/-- A handle that is given up is one holder less. -/
theorem holders_drop (b : β) : holders (update own a none) b = holders own b \ {a} := by
  ext a'
  by_cases h : a' = a
  · simp [holders, h]
  · simp [holders, h]

/-- The holders of another resource are the same. -/
theorem holders_take_ne {b' : β} (ha : own a = none) (hb : b' ≠ b) :
    holders (update own a (some b)) b' = holders own b' := by
  ext a'
  by_cases h : a' = a
  · simp [holders, h, ha, hb.symm]
  · simp [holders, h]

theorem holders_drop_ne {b' : β} (ha : own a = some b) (hb : b' ≠ b) :
    holders (update own a none) b' = holders own b' := by
  rw [holders_drop]
  apply Set.sdiff_singleton_eq_self
  intro hmem
  have heq : own a = some b' := hmem
  rw [ha] at heq
  exact hb (Option.some.inj heq).symm

end Holders

/-! ## Consequences of the invariant -/

variable {own : α → Option β} {count : β → Option ℕ} {a : α} {b : β} {n : ℕ}

theorem Counted.ncard_eq (h : Counted own count) (hb : count b = some n) :
    (holders own b).ncard = n := by
  rw [← h.count_eq, hb, Option.getD_some]

/-- What is held is there. -/
theorem Counted.held [Finite α] (h : Counted own count) (ha : own a = some b) :
    (count b).isSome = true := by
  cases hb : count b with
  | none =>
    have hcount := h.count_eq b
    rw [hb, Option.getD_none] at hcount
    have hempty := (Set.ncard_eq_zero (Set.toFinite _)).mp hcount.symm
    exact absurd (show a ∈ holders own b from ha) (by simp [hempty])
  | some n => rfl

/-- With no handle left, no resource is left. -/
theorem Counted.none_left (h : Counted own count) (hown : ∀ a, own a = none) : count b = none := by
  cases hb : count b with
  | none => rfl
  | some n =>
    have hempty : holders own b = ∅ := by
      ext a
      simp [holders, hown a]
    have hzero := h.ncard_eq hb
    rw [hempty, Set.ncard_empty] at hzero
    exact absurd (hzero ▸ hb) (h.pos b)

/-- The counter is one exactly at the last handle. -/
theorem Counted.eq_one_iff (h : Counted own count) (ha : own a = some b) (hb : count b = some n) :
    n = 1 ↔ holders own b = {a} := by
  rw [← h.ncard_eq hb, Set.ncard_eq_one]
  constructor
  · rintro ⟨a', ha'⟩
    have hmem : a ∈ holders own b := ha
    rw [ha'] at hmem ⊢
    rw [Set.mem_singleton_iff.mp hmem]
  · exact fun heq => ⟨a, heq⟩

/-- While something is no handle, a counter stays below the number of handles there can be. -/
theorem Counted.lt_card [Finite α] (h : Counted own count) (ha : own a = none)
    (hb : count b = some n) :
    n < Nat.card α := by
  rw [← h.ncard_eq hb, ← Set.ncard_univ]
  apply Set.ncard_lt_ncard _ (Set.toFinite _)
  rw [Set.ssubset_univ_iff]
  intro heq
  have hmem : own a = some b := show a ∈ holders own b from heq ▸ Set.mem_univ a
  rw [ha] at hmem
  cases hmem

/-! ## Steps -/

variable [DecidableEq α] [DecidableEq β]

/-- **A handle is made**: of a resource that is there, or of a new one. -/
theorem Counted.take [Finite α] (h : Counted own count) (ha : own a = none) (b : β) :
    Counted (update own a (some b)) (update count b (some ((count b).getD 0 + 1))) where
  count_eq := by
    intro b'
    by_cases hb : b' = b
    · have hnew : a ∉ holders own b := by simp [holders, ha]
      rw [hb, update_self, holders_take, Set.ncard_insert_of_notMem hnew, ← h.count_eq,
        Option.getD_some]
    · rw [update_of_ne hb, holders_take_ne ha hb, h.count_eq]
  pos := by
    intro b'
    by_cases hb : b' = b
    · rw [hb, update_self]
      simp
    · rw [update_of_ne hb]
      exact h.pos b'

/-- **A handle is given up**, and with the last one the resource. -/
theorem Counted.drop (h : Counted own count) (ha : own a = some b) (hb : count b = some n) :
    Counted (update own a none) (update count b (if n = 1 then none else some (n - 1))) where
  count_eq := by
    intro b'
    by_cases hne : b' = b
    · have hmem : a ∈ holders own b := ha
      rw [hne, update_self, holders_drop, Set.ncard_sdiff_singleton_of_mem hmem, h.ncard_eq hb]
      split_ifs with h1
      · rw [h1, Option.getD_none]
      · rw [Option.getD_some]
    · rw [update_of_ne hne, holders_drop_ne ha hne, h.count_eq]
  pos := by
    intro b'
    by_cases hne : b' = b
    · have hpos : n ≠ 0 := fun h0 => h.pos b (h0 ▸ hb)
      rw [hne, update_self]
      split_ifs with h1
      · simp
      · intro heq
        have := Option.some.inj heq
        omega
    · rw [update_of_ne hne]
      exact h.pos b'

omit [DecidableEq α] [DecidableEq β] in
/-- **Handles change places**: what counts is how many there are. -/
theorem Counted.perm (h : Counted own count) (e : Equiv.Perm α) :
    Counted (own ∘ e) count where
  count_eq := by
    intro b
    have himage : holders (own ∘ e) b = e.symm '' holders own b := by
      ext a
      simp [holders, eq_comm]
    rw [h.count_eq, himage, Set.ncard_image_of_injective _ e.symm.injective]
  pos := h.pos

end RefCount
