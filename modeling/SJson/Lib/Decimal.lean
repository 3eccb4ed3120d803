/-
# Decimal digits

A run of decimal digits is a list of ASCII bytes, and `value` is the number it denotes,
leading zeros included.  `extend` is the accumulator of the usual loop over the digits: it
starts from the number read so far.

* `value_append`, `value_cons`: how a run is cut into parts;
* `value_text`: every number is denoted by its canonical text.
-/
import Mathlib

namespace Decimal

/-! ## Digits -/

/-- An ASCII digit. -/
def IsDigit (c : UInt8) : Prop := 0x30 ≤ c.toNat ∧ c.toNat ≤ 0x39

instance (c : UInt8) : Decidable (IsDigit c) := inferInstanceAs (Decidable (_ ∧ _))

/-- The number a digit denotes. -/
def digit (c : UInt8) : ℕ := c.toNat - 0x30

theorem IsDigit.digit_lt {c : UInt8} (h : IsDigit c) : digit c < 10 := by
  unfold IsDigit at h
  unfold digit
  omega

/-! ## Runs of digits -/

/-- The number read so far, extended by a run of digits. -/
def extend (n : ℕ) (ds : List UInt8) : ℕ := ds.foldl (fun n c => n * 10 + digit c) n

/-- The number a run of digits denotes. -/
def value (ds : List UInt8) : ℕ := extend 0 ds

@[simp]
theorem extend_nil (n : ℕ) : extend n [] = n := rfl

@[simp]
theorem extend_cons (n : ℕ) (c : UInt8) (ds : List UInt8) :
    extend n (c :: ds) = extend (n * 10 + digit c) ds := by
  unfold extend
  rw [List.foldl_cons]

@[simp]
theorem value_nil : value [] = 0 := rfl

theorem extend_append (n : ℕ) (ds es : List UInt8) :
    extend n (ds ++ es) = extend (extend n ds) es := List.foldl_append

theorem extend_eq (ds : List UInt8) : ∀ n, extend n ds = n * 10 ^ ds.length + value ds := by
  induction ds with
  | nil =>
    intro n
    rw [List.length_nil, Nat.pow_zero, Nat.mul_one, value_nil, extend_nil, Nat.add_zero]
  | cons c ds ih =>
    intro n
    rw [value, extend_cons, extend_cons, ih, ih (0 * 10 + digit c), List.length_cons, pow_succ]
    ring

theorem value_append (ds es : List UInt8) :
    value (ds ++ es) = value ds * 10 ^ es.length + value es := by
  rw [value, extend_append, extend_eq es]
  rfl

theorem value_cons (c : UInt8) (ds : List UInt8) :
    value (c :: ds) = digit c * 10 ^ ds.length + value ds := by
  rw [value, extend_cons, extend_eq, Nat.zero_mul, Nat.zero_add]

theorem le_extend (n : ℕ) (ds : List UInt8) : n ≤ extend n ds := by
  rw [extend_eq]
  exact (Nat.le_mul_of_pos_right n (by positivity)).trans (Nat.le_add_right ..)

/-! ## The text of a number -/

/-- The digits of a number, without superfluous zeros. -/
def text (n : ℕ) : List UInt8 :=
  if n = 0 then [0x30] else (Nat.digits 10 n).reverse.map fun d => .ofNat (0x30 + d)

theorem isDigit_ofNat {d : ℕ} (h : d < 10) :
    IsDigit (.ofNat (0x30 + d)) ∧ digit (.ofNat (0x30 + d)) = d := by
  interval_cases d <;> decide

theorem text_isDigit {n : ℕ} : ∀ c ∈ text n, IsDigit c := by
  unfold text
  split_ifs with hn
  · intro c hc
    rw [List.mem_singleton.mp hc]
    decide
  · intro c hc
    obtain ⟨d, hd, rfl⟩ := List.mem_map.mp hc
    exact (isDigit_ofNat (Nat.digits_lt_base (by decide) (List.mem_reverse.mp hd))).1

theorem text_ne_nil (n : ℕ) : text n ≠ [] := by
  unfold text
  split_ifs with hn
  · exact List.cons_ne_nil _ _
  · simpa [Nat.digits_ne_nil_iff_ne_zero] using hn

/-- Only the text of zero starts with a zero. -/
theorem text_noZero (n : ℕ) (h : (text n).head? = some 0x30) : text n = [0x30] := by
  unfold text at *
  split_ifs at h ⊢ with hn
  · rfl
  · exfalso
    have hne : Nat.digits 10 n ≠ [] := Nat.digits_ne_nil_iff_ne_zero.mpr hn
    rw [List.head?_map, List.head?_reverse, List.getLast?_eq_some_getLast hne, Option.map_some,
      Option.some.injEq] at h
    have hlast := Nat.getLast_digit_ne_zero 10 hn
    have hlt : (Nat.digits 10 n).getLast hne < 10 :=
      Nat.digits_lt_base (by decide) (List.getLast_mem hne)
    have hdigit := (isDigit_ofNat hlt).2
    rw [h] at hdigit
    exact hlast hdigit.symm

/-- How many digits a number has. -/
theorem length_text {n k : ℕ} (hlo : 10 ^ k ≤ n) (hhi : n < 10 ^ (k + 1)) :
    (text n).length = k + 1 := by
  have hn : n ≠ 0 := Nat.pos_iff_ne_zero.mp (lt_of_lt_of_le (Nat.pow_pos (by decide)) hlo)
  rw [text, if_neg hn, List.length_map, List.length_reverse]
  exact le_antisymm ((Nat.digits_length_le_iff (by decide) n).mpr hhi)
    ((Nat.lt_digits_length_iff (by decide) n).mpr hlo)

theorem value_ofDigits {ds : List ℕ} (h : ∀ d ∈ ds, d < 10) :
    value (ds.reverse.map fun d => .ofNat (0x30 + d)) = Nat.ofDigits 10 ds := by
  induction ds with
  | nil => rfl
  | cons d ds ih =>
    obtain ⟨hd, hds⟩ := List.forall_mem_cons.mp h
    rw [List.reverse_cons, List.map_append, value_append, ih hds, List.map_singleton, value_cons,
      (isDigit_ofNat hd).2, Nat.ofDigits_cons]
    simp only [List.length_cons, List.length_nil, value_nil]
    ring

/-- The text of a number denotes it. -/
theorem value_text (n : ℕ) : value (text n) = n := by
  unfold text
  split_ifs with hn
  · rw [hn]
    rfl
  · rw [value_ofDigits fun d hd => Nat.digits_lt_base (by decide) hd, Nat.ofDigits_digits]

end Decimal
