/-
# The text of a double

`jw_double` prints a finite double with `"%.17g"`, and appends `.0` where the text would be read
as an integer.  What it writes is a literal with a fraction or an exponent that fits in its
buffer, and 17 digits are enough: the literal is rounded to the double again
(`floatText_finite`).
-/
import SJson.FastFloat
import SJson.ReadBack

namespace SJson

open Decimal Segment Rounding

/-! ## Zeros at the end of a fraction -/

theorem zero_isDigit : ∀ c ∈ [(0x30 : UInt8)], IsDigit c := by
  intro c hc
  rw [List.mem_singleton.mp hc]
  decide

/-- The number with the digits `int` in front of the point and `frac` behind it, times `10 ^ x`. -/
def scaled (int frac : List UInt8) (x : ℤ) : ℚ := value (int ++ frac) * 10 ^ (x - frac.length)

theorem value_zeros (ds : List UInt8) (k : ℕ) :
    value (ds ++ List.replicate k 0x30) = value ds * 10 ^ k := by
  induction k with
  | zero => simp
  | succ k ih =>
    rw [List.replicate_succ', ← List.append_assoc, value_append, ih]
    simp only [List.length_singleton, pow_one]
    show value ds * 10 ^ k * 10 + 0 = _
    ring

theorem scaled_zeros (int frac : List UInt8) (k : ℕ) (x : ℤ) :
    scaled int (frac ++ List.replicate k 0x30) x = scaled int frac x := by
  have hten : (10 : ℚ) ≠ 0 := by norm_num
  unfold scaled
  rw [← List.append_assoc, value_zeros, List.length_append, List.length_replicate]
  push_cast
  rw [mul_assoc, ← zpow_natCast, ← zpow_add₀ hten]
  congr 2
  ring

/-- A fraction is cut off in front of zeros only. -/
theorem exists_zeros (ds : List UInt8) :
    ∃ k, ds = ds.rdropWhile (· = 0x30) ++ List.replicate k 0x30 := by
  refine ⟨(ds.rtakeWhile (· = 0x30)).length, ?_⟩
  have hzeros : ds.rtakeWhile (· = 0x30) = List.replicate (ds.rtakeWhile (· = 0x30)).length 0x30 :=
    List.eq_replicate_of_mem fun c hc => by simpa using List.mem_rtakeWhile_imp hc
  rw [← hzeros]
  exact (List.rdropWhile_append_rtakeWhile ..).symm

theorem scaled_trim (int ds : List UInt8) (x : ℤ) :
    scaled int (ds.rdropWhile (· = 0x30)) x = scaled int ds x := by
  obtain ⟨k, hk⟩ := exists_zeros ds
  conv_rhs => rw [hk]
  exact (scaled_zeros ..).symm

theorem trim_isDigit {ds : List UInt8} (hds : ∀ c ∈ ds, IsDigit c) :
    ∀ c ∈ ds.rdropWhile (· = 0x30), IsDigit c := fun c hc =>
  hds c ((List.rdropWhile_prefix _ ds).subset hc)

theorem length_trim_le (ds : List UInt8) : (ds.rdropWhile (· = 0x30)).length ≤ ds.length :=
  (List.rdropWhile_prefix _ ds).length_le

theorem length_fractionText_le (ds : List UInt8) :
    (Double.fractionText ds).length ≤ ds.length + 1 := by
  unfold Double.fractionText
  split
  · exact Nat.zero_le _
  · exact Nat.succ_le_succ (length_trim_le ds)

/-! ## The literals that are written -/

/-- The fraction of a literal that has to have one. -/
def someFraction (frac : List UInt8) : List UInt8 := if frac = [] then [0x30] else frac

theorem someFraction_ne_nil (frac : List UInt8) : someFraction frac ≠ [] := by
  unfold someFraction
  split_ifs with h
  · exact List.cons_ne_nil _ _
  · exact h

theorem someFraction_isDigit {frac : List UInt8} (h : ∀ c ∈ frac, IsDigit c) :
    ∀ c ∈ someFraction frac, IsDigit c := by
  unfold someFraction
  split_ifs
  · exact zero_isDigit
  · exact h

theorem scaled_someFraction (int frac : List UInt8) (x : ℤ) :
    scaled int (someFraction frac) x = scaled int frac x := by
  unfold someFraction
  split_ifs with h
  · rw [h]
    exact scaled_zeros int [] 1 x
  · rfl

/-- Digits with a point. -/
def pointLiteral (minus : Bool) (int : Digits)
    (hint : int.bytes.head? = some 0x30 → int.bytes = [0x30]) (frac : List UInt8)
    (hfrac : ∀ c ∈ frac, IsDigit c) : Literal where
  minus := minus
  int := int
  frac := some ⟨someFraction frac, someFraction_ne_nil frac, someFraction_isDigit hfrac⟩
  exp := none
  noZero := hint

/-- The digits of an exponent. -/
def exponentDigits (x : ℤ) : List UInt8 :=
  (if x.natAbs < 10 then [0x30] else []) ++ text x.natAbs

theorem exponentDigits_isDigit (x : ℤ) : ∀ c ∈ exponentDigits x, IsDigit c := by
  intro c hc
  rcases List.mem_append.mp hc with h | h
  · split at h
    · exact zero_isDigit c h
    · cases h
  · exact text_isDigit c h

theorem value_exponentDigits (x : ℤ) : value (exponentDigits x) = x.natAbs := by
  unfold exponentDigits
  rw [value_append, value_text]
  split <;> simp [value_cons, digit]

/-- One digit, a fraction if there is one, and an exponent. -/
def exponentLiteral (minus : Bool) (d : UInt8) (hd : IsDigit d) (frac : List UInt8)
    (hfrac : ∀ c ∈ frac, IsDigit c) (x : ℤ) : Literal where
  minus := minus
  int := ⟨[d], List.cons_ne_nil _ _, fun c hc => by rwa [List.mem_singleton.mp hc]⟩
  frac := if h : frac = [] then none else some ⟨frac, h, hfrac⟩
  exp := some {
    mark := 0x65
    sign := some (if x < 0 then 0x2D else 0x2B)
    digits := ⟨exponentDigits x, by simp [exponentDigits, text_ne_nil], exponentDigits_isDigit x⟩
    isMark := isMark_e
    isSign := fun c hc => by
      rw [← Option.some.inj hc]
      split
      · exact .inr rfl
      · exact .inl rfl }
  noZero := fun h => congrArg (fun c => [c]) (Option.some.inj h)

theorem abs_ratValue_scaled (l : Literal) :
    |l.ratValue| = scaled l.int.bytes l.fracDigits l.exponent := Double.abs_ratValue l

theorem exponentLiteral_fracDigits (minus : Bool) {d : UInt8} (hd : IsDigit d) {frac : List UInt8}
    (hfrac : ∀ c ∈ frac, IsDigit c) (x : ℤ) :
    (exponentLiteral minus d hd frac hfrac x).fracDigits = frac := by
  unfold Literal.fracDigits exponentLiteral
  by_cases h : frac = []
  · simp [h]
  · simp [h]

theorem exponentLiteral_exponent (minus : Bool) {d : UInt8} (hd : IsDigit d) {frac : List UInt8}
    (hfrac : ∀ c ∈ frac, IsDigit c) (x : ℤ) :
    (exponentLiteral minus d hd frac hfrac x).exponent = x := by
  show (if (decide (some (if x < 0 then (0x2D : UInt8) else 0x2B) = some 0x2D)) = true
    then -(value (exponentDigits x) : ℤ) else value (exponentDigits x)) = x
  rw [value_exponentDigits]
  by_cases hx : x < 0
  · simp only [hx, if_true, decide_true]
    omega
  · rw [if_neg hx, if_neg (by decide)]
    omega

/-! ## What `jw_double` appends -/

/-- The text with a point, if it has no mark of a float. -/
def withPoint (t : List UInt8) : List UInt8 :=
  if t.any isFloatMark = false then t ++ [0x2E, 0x30] else t

theorem floatText_of_short (negative : Bool) (m : Magnitude)
    (h : (Double.snprintf17g (.finite negative m)).length + 2 < 32) :
    floatText (Double.finite negative m)
      = .ok (withPoint (Double.snprintf17g (.finite negative m))) := by
  have hprint : CDouble.snprintf17g (Double.finite negative m)
      = some (Double.snprintf17g (.finite negative m)) := rfl
  have hfinite : CDouble.nonFinite (Double.finite negative m) = false := rfl
  unfold floatText withPoint sizeofFloatBuf
  rw [hfinite, hprint]
  simp only [Bool.false_eq_true, if_false]
  rw [if_neg (by omega)]
  split_ifs with h1 h2 h2
  · rfl
  · exact absurd h1.1 h2
  · exact absurd ⟨h2, h⟩ h1
  · rfl

theorem isDigit_not_mark {c : UInt8} (h : IsDigit c) : isFloatMark c = false := by
  unfold IsDigit at h
  unfold isFloatMark
  have h1 : c ≠ 0x2E := fun heq => by rw [heq] at h; revert h; decide
  have h2 : c ≠ 0x65 := fun heq => by rw [heq] at h; revert h; decide
  have h3 : c ≠ 0x45 := fun heq => by rw [heq] at h; revert h; decide
  simp [h1, h2, h3]

theorem any_minus_digits (minus : Bool) {ds : List UInt8} (hds : ∀ c ∈ ds, IsDigit c) :
    (minusText minus ++ ds).any isFloatMark = false := by
  rw [List.any_append, Bool.or_eq_false_iff]
  refine ⟨by cases minus <;> decide, ?_⟩
  rw [List.any_eq_false]
  intro c hc
  rw [isDigit_not_mark (hds c hc)]
  exact Bool.false_ne_true

/-- A text with a point, or with one appended. -/
theorem withPoint_point (minus : Bool) (int : Digits)
    (hint : int.bytes.head? = some 0x30 → int.bytes = [0x30]) {frac : List UInt8}
    (hfrac : ∀ c ∈ frac, IsDigit c) :
    withPoint (minusText minus ++ (int.bytes ++ Double.fractionText frac))
      = (pointLiteral minus int hint (frac.rdropWhile (· = 0x30)) (trim_isDigit hfrac)).text := by
  have htext : (pointLiteral minus int hint (frac.rdropWhile (· = 0x30)) (trim_isDigit hfrac)).text
      = minusText minus ++ (int.bytes ++ 0x2E :: someFraction (frac.rdropWhile (· = 0x30))) := by
    show minusText minus ++ (int.bytes ++ (0x2E :: someFraction _ ++ [])) = _
    rw [List.append_nil]
  rw [htext]
  unfold withPoint Double.fractionText someFraction
  by_cases h : frac.rdropWhile (· = 0x30) = []
  · rw [if_pos h, if_pos h, List.append_nil, if_pos (any_minus_digits minus int.digits),
      List.append_assoc]
  · rw [if_neg h, if_neg h, if_neg]
    simp [isFloatMark]

/-- A text with an exponent. -/
theorem withPoint_exponent (minus : Bool) {d : UInt8} (hd : IsDigit d) {frac : List UInt8}
    (hfrac : ∀ c ∈ frac, IsDigit c) (x : ℤ) :
    withPoint (minusText minus ++ ([d] ++ Double.fractionText frac ++ Double.exponentText x))
      = (exponentLiteral minus d hd (frac.rdropWhile (· = 0x30)) (trim_isDigit hfrac) x).text := by
  have hmark : (minusText minus ++ ([d] ++ Double.fractionText frac ++ Double.exponentText x)).any
      isFloatMark = true := by
    simp [Double.exponentText, isFloatMark]
  unfold withPoint
  rw [hmark, if_neg (by decide)]
  unfold Literal.text Literal.fracText Literal.expText exponentLiteral Double.fractionText
  by_cases h : frac.rdropWhile (· = 0x30) = []
  · simp [h, Exponent.text, Double.exponentText, exponentDigits]
  · simp [h, Exponent.text, Double.exponentText, exponentDigits]

/-! ## `%.17g` -/

theorem value_leading (k : ℕ) (ds : List UInt8) :
    value (List.replicate k 0x30 ++ ds) = value ds := by
  induction k with
  | zero => rfl
  | succ k ih =>
    rw [List.replicate_succ, List.cons_append, value_cons, ih]
    show 0 * _ + _ = _
    rw [Nat.zero_mul, Nat.zero_add]

theorem length_minusText_le (minus : Bool) : (minusText minus).length ≤ 1 := by
  cases minus <;> decide

/-- An exponent of three digits at most. -/
theorem length_exponentText_le {x : ℤ} (hx : x.natAbs < 1000) :
    (Double.exponentText x).length ≤ 5 := by
  have htext : (text x.natAbs).length ≤ 3 := by
    unfold text
    split
    · decide
    · rw [List.length_map, List.length_reverse]
      exact (Nat.digits_length_le_iff (by decide) _).mpr hx
  unfold Double.exponentText
  simp only [List.length_cons, List.length_append]
  split
  · rename_i hlt
    have hone : (text x.natAbs).length = 1 := by
      generalize x.natAbs = n at hlt
      interval_cases n <;> rfl
    simp [hone]
  · rw [List.length_nil]
    omega

/-- The text of a double is a literal for `v`, short enough for the buffer. -/
def WrittenAs (minus : Bool) (text : List UInt8) (v : ℚ) : Prop :=
  ∃ l : Literal, l.minus = minus ∧ l.isFloat = true ∧ withPoint (minusText minus ++ text) = l.text ∧
    (minusText minus ++ text).length + 2 < 32 ∧ |l.ratValue| = v

section General

variable {d : UInt8} {t : List UInt8} {x : ℤ}

/-- The text with an exponent. -/
theorem writtenAs_exponent (minus : Bool) (hd : IsDigit d) (ht : ∀ c ∈ t, IsDigit c)
    (hlen : t.length ≤ 16) (hx : x.natAbs < 1000) :
    WrittenAs minus ([d] ++ Double.fractionText t ++ Double.exponentText x) (scaled [d] t x) := by
  refine ⟨exponentLiteral minus d hd _ (trim_isDigit ht) x, rfl, ?_,
    withPoint_exponent minus hd ht x, ?_, ?_⟩
  · simp [Literal.isFloat, exponentLiteral]
  · have hminus := length_minusText_le minus
    have htrim := length_fractionText_le t
    have hexpText := length_exponentText_le hx
    simp only [List.length_append, List.length_singleton]
    omega
  · rw [abs_ratValue_scaled, exponentLiteral_fracDigits, exponentLiteral_exponent]
    exact scaled_trim [d] t x

/-- The text with zeros behind the point. -/
theorem writtenAs_zeros (minus : Bool) (hds : ∀ c ∈ d :: t, IsDigit c) (hlen : t.length ≤ 16)
    (hx : -4 ≤ x) (hneg : x < 0) :
    WrittenAs minus ([0x30] ++
      Double.fractionText (List.replicate (-x - 1).toNat 0x30 ++ d :: t)) (scaled [d] t x) := by
  have hzeros : ∀ c ∈ List.replicate (-x - 1).toNat 0x30 ++ d :: t, IsDigit c := by
    intro c hc
    rcases List.mem_append.mp hc with h | h
    · rw [List.eq_of_mem_replicate h]
      decide
    · exact hds c h
  refine ⟨pointLiteral minus ⟨[0x30], List.cons_ne_nil _ _, zero_isDigit⟩ (fun _ => rfl) _
    (trim_isDigit hzeros), rfl, rfl, withPoint_point minus
      ⟨[0x30], List.cons_ne_nil _ _, zero_isDigit⟩ (fun _ => rfl) hzeros, ?_, ?_⟩
  · have hminus := length_minusText_le minus
    have hfrac := length_fractionText_le (List.replicate (-x - 1).toNat 0x30 ++ d :: t)
    simp only [List.length_append, List.length_replicate, List.length_cons,
      List.length_nil] at hfrac ⊢
    omega
  · rw [abs_ratValue_scaled]
    show scaled [0x30] (someFraction _) 0 = _
    rw [scaled_someFraction, scaled_trim]
    unfold scaled
    rw [← List.append_assoc, show [0x30] ++ List.replicate (-x - 1).toNat (0x30 : UInt8)
      = List.replicate ((-x - 1).toNat + 1) 0x30 from rfl, value_leading, List.length_append,
      List.length_replicate, List.length_cons, List.singleton_append]
    congr 2
    push_cast
    omega

/-- The text with the point among the digits. -/
theorem writtenAs_point (minus : Bool) (hds : ∀ c ∈ d :: t, IsDigit c) (hlen : t.length ≤ 16)
    (hneg : 0 ≤ x) (hfit : x ≤ t.length) (hzero : d = 0x30 → t = []) :
    WrittenAs minus ((d :: t).take (x.toNat + 1) ++
      Double.fractionText ((d :: t).drop (x.toNat + 1))) (scaled [d] t x) := by
  have htake : (d :: t).take (x.toNat + 1) ≠ [] := by simp
  have hdrop : ∀ c ∈ (d :: t).drop (x.toNat + 1), IsDigit c := fun c hc =>
    hds c (List.mem_of_mem_drop hc)
  have hint : ∀ c ∈ (d :: t).take (x.toNat + 1), IsDigit c := fun c hc =>
    hds c (List.mem_of_mem_take hc)
  have hhead : ((d :: t).take (x.toNat + 1)).head? = some 0x30 →
      (d :: t).take (x.toNat + 1) = [0x30] := by
    intro h
    have hd0 : d = 0x30 := by simpa using h
    simp [hd0, hzero hd0]
  refine ⟨pointLiteral minus ⟨(d :: t).take (x.toNat + 1), htake, hint⟩ hhead _
    (trim_isDigit hdrop), rfl, rfl,
    withPoint_point minus ⟨(d :: t).take (x.toNat + 1), htake, hint⟩ hhead hdrop, ?_, ?_⟩
  · have hminus := length_minusText_le minus
    have hfrac := length_fractionText_le ((d :: t).drop (x.toNat + 1))
    simp only [List.length_append, List.length_take, List.length_drop,
      List.length_cons] at hfrac ⊢
    omega
  · rw [abs_ratValue_scaled]
    show scaled ((d :: t).take (x.toNat + 1)) (someFraction _) 0 = _
    rw [scaled_someFraction, scaled_trim]
    unfold scaled
    rw [List.take_append_drop, List.length_drop, List.length_cons, List.singleton_append]
    congr 2
    omega

/-- Digits and an exponent are written as a literal for the number they denote. -/
theorem generalText_literal (minus : Bool) (hds : ∀ c ∈ d :: t, IsDigit c)
    (hlen : t.length ≤ 16) (hx : x.natAbs < 1000) (hfit : 0 ≤ x → x < 17 → x ≤ t.length)
    (hzero : d = 0x30 → t = []) :
    WrittenAs minus (Double.generalText (d :: t) x) (scaled [d] t x) := by
  obtain ⟨hd, ht⟩ := List.forall_mem_cons.mp hds
  unfold Double.generalText
  by_cases hexp : x < -4 ∨ 17 ≤ x
  · rw [if_pos hexp]
    exact writtenAs_exponent minus hd ht hlen hx
  rw [if_neg hexp]
  by_cases hneg : x < 0
  · rw [if_pos hneg]
    exact writtenAs_zeros minus hds hlen (by omega) hneg
  · rw [if_neg hneg]
    exact writtenAs_point minus hds hlen (by omega) (hfit (by omega) (by omega)) hzero

end General

/-- How many decimal digits a magnitude has in front of the point, once it is shifted. -/
theorem decimalDigits_lt (m : Magnitude) :
    Nat.log 10 (m.units * 10 ^ Double.decimalShift / oneUnits) < Double.decimalShift + 309 := by
  have htop : topUnits * 10 ^ Double.decimalShift
      < 10 ^ (Double.decimalShift + 309) * oneUnits := by decide +kernel
  generalize Double.decimalShift = k at htop ⊢
  apply Nat.log_lt_of_lt_pow'
  · omega
  · rw [Nat.div_lt_iff_lt_mul oneUnits_pos]
    exact (Nat.mul_le_mul_right _ m.bounded.le).trans_lt htop

/-- **17 digits are enough** to find a positive magnitude again. -/
theorem decimal17_spec {m : Magnitude} (hm : m.units ≠ 0) :
    10 ^ 16 ≤ (Double.decimal17 m).1 ∧ (Double.decimal17 m).1 < 10 ^ 17 ∧
      (Double.decimal17 m).2.natAbs < 1000 ∧
      unitsOf ((Double.decimal17 m).1 * 10 ^ ((Double.decimal17 m).2 - 16)) = m.units := by
  have hone := oneUnits_pos
  have hscale : 10 ^ 16 * oneUnits ≤ 10 ^ Double.decimalShift := by decide +kernel
  have hshift : Double.decimalShift ≤ 400 := by decide +kernel
  have hlog := decimalDigits_lt m
  unfold Double.decimal17
  rw [Prod.map_fst, Prod.map_snd, id_eq]
  generalize Double.decimalShift = k at hscale hshift hlog ⊢
  have hpow : 0 < 10 ^ k := Nat.pow_pos (by decide)
  have hbig : 10 ^ 16 * oneUnits ≤ m.units * 10 ^ k :=
    hscale.trans (Nat.le_mul_of_pos_left _ (Nat.pos_iff_ne_zero.mpr hm))
  obtain ⟨hlo, hhi, -⟩ := toDecimal_spec (k := 17) hone (by decide) hbig
  rw [show 17 - 1 = 16 from rfl] at hlo
  have hback := toBits_toDecimal (p := 53) (k := 17) hone (by decide) (by decide) (by norm_num)
    m.fits hbig hpow
  have hexp := toDecimal_exp_le 17 (m.units * 10 ^ k) oneUnits
  have hexp' : ((toDecimal 17 (m.units * 10 ^ k) oneUnits).2 + 16 - k : ℤ).natAbs < 1000 := by
    clear hscale hbig hback
    omega
  generalize toDecimal 17 (m.units * 10 ^ k) oneUnits = r at hlo hhi hback hexp' ⊢
  refine ⟨hlo, hhi, hexp', ?_⟩
  -- the value is a fraction with the denominator `10 ^ k`
  have hvalue : (r.1 : ℚ) * 10 ^ ((r.2 : ℤ) + 16 - k - 16)
      = ((r.1 * 10 ^ r.2 : ℕ) : ℚ) / (10 ^ k : ℕ) := by
    rw [show (r.2 : ℤ) + 16 - k - 16 = (r.2 : ℤ) - k by omega, zpow_sub₀ (by norm_num),
      zpow_natCast, zpow_natCast]
    push_cast
    ring
  rw [hvalue, unitsOf_div _ hpow, ← hback]
  congr 1
  ring

/-- **What is written for a finite double** is a literal that is rounded to the double, with a
fraction or an exponent. -/
theorem floatText_finite (negative : Bool) (m : Magnitude) :
    ∃ l : Literal, l.minus = negative ∧ l.isFloat = true ∧
      floatText (Double.finite negative m) = .ok l.text ∧ unitsOf l.ratValue = m.units := by
  have hprint : Double.snprintf17g (.finite negative m)
      = minusText negative ++ Double.magnitudeText m := rfl
  -- in both cases some digits and an exponent are written
  suffices h : ∃ (d : UInt8) (t : List UInt8) (x : ℤ), Double.magnitudeText m
      = Double.generalText (d :: t) x ∧ (∀ c ∈ d :: t, IsDigit c) ∧ t.length ≤ 16 ∧
      x.natAbs < 1000 ∧ (0 ≤ x → x < 17 → x ≤ t.length) ∧ (d = 0x30 → t = []) ∧
      unitsOf (scaled [d] t x) = m.units by
    obtain ⟨d, t, x, htext, hds, hlen, hx, hfit, hzero, hunits⟩ := h
    obtain ⟨l, hminus, hfloat, hl, hshort, hvalue⟩ :=
      generalText_literal negative hds hlen hx hfit hzero
    rw [← htext, ← hprint] at hl hshort
    exact ⟨l, hminus, hfloat, by rw [floatText_of_short _ _ hshort, hl], by
      rw [← unitsOf_abs, hvalue, hunits]⟩
  unfold Double.magnitudeText
  by_cases hm : m.units = 0
  · refine ⟨0x30, [], 0, ?_, zero_isDigit, by decide, by decide, fun _ _ => le_rfl,
      fun _ => rfl, ?_⟩
    · rw [if_pos hm]
      rfl
    · rw [hm, show scaled [0x30] [] 0 = ((0 : ℕ) : ℚ) / oneUnits by simp [scaled, value, digit]]
      exact unitsOf_units (fits_zero 53)
  · obtain ⟨hlo, hhi, hx, hunits⟩ := decimal17_spec hm
    have hlen := length_text hlo hhi
    have hds := text_isDigit (n := (Double.decimal17 m).1)
    have hzero := text_noZero (Double.decimal17 m).1
    have hvalue := value_text (Double.decimal17 m).1
    rw [if_neg hm]
    cases hcons : text (Double.decimal17 m).1 with
    | nil => exact absurd hcons (text_ne_nil _)
    | cons d t =>
      rw [hcons] at hlen hds hzero hvalue
      rw [List.length_cons] at hlen
      refine ⟨d, t, (Double.decimal17 m).2, rfl, hds, by omega, hx, fun _ _ => by omega,
        fun hd => ?_,
        ?_⟩
      · have htail := hzero (by rw [hd]; rfl)
        exact (List.cons.inj htail).2
      · rw [← hunits]
        unfold scaled
        rw [List.singleton_append, hvalue, show t.length = 16 by omega]
        rfl

end SJson
