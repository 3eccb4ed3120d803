/-
# The fast path of float literals

`json__fast_float_from_parts` multiplies `(double)mant` with an entry of one of two tables, which
holds the power of ten as a double.  Each factor may have been rounded already, and the product is
rounded once more: the result is the double nearest to `mant * 10 ^ exp10` exactly if no midpoint
of two neighbouring doubles lies between this number and the product of the two factors
(`jsonFastFloat_nearest`).

* `strtod_literal`: what `strtod` makes of a literal, which is always the nearest double;
* `fastProduct_exact`: neither factor is rounded where the mantissa has 53 binary places and the
  exponent is not negative;
* `numberToken_libc`: when the two paths agree on a literal.
-/
import SJson.Double
import SJson.Decomposition

namespace SJson

open Decimal Segment Rounding

/-! ## `strtod` on a literal -/

namespace Double

/-- The digits at the front of a text end where another byte follows. -/
theorem digitsAt_append {ds t : List UInt8} (hds : ∀ c ∈ ds, IsDigit c)
    (ht : ¬ Starts IsDigit t) : digitsAt (ds ++ t) = ds := by
  unfold digitsAt
  rw [List.takeWhile_append_of_pos (fun c hc => decide_eq_true (hds c hc))]
  cases t with
  | nil => simp
  | cons c t =>
    have hc : ¬ IsDigit c := fun hc => ht (starts_cons.mpr hc)
    simp [hc]

theorem oneOf_cons {cs : List UInt8} {c : UInt8} (t : List UInt8) (hc : c ∈ cs) :
    oneOf cs (c :: t) = [c] := by
  simp [oneOf, hc]

theorem oneOf_of_not_starts {cs t : List UInt8} (ht : ¬ Starts (· ∈ cs) t) : oneOf cs t = [] := by
  cases t with
  | nil => rfl
  | cons c t =>
    have hc : c ∉ cs := fun hc => ht (starts_cons.mpr hc)
    simp [oneOf, hc]

/-- The optional sign in front of digits. -/
theorem oneOf_sign {minus : Bool} {t : List UInt8} (ht : Starts IsDigit t) :
    oneOf [0x2B, 0x2D] (minusText minus ++ t) = minusText minus := by
  cases minus with
  | true => exact oneOf_cons _ (by decide)
  | false =>
    apply oneOf_of_not_starts
    intro hs
    exact hs.elim ht fun c hc => IsSign.not_digit (by simpa [IsSign] using hc)

/-- The exponent of a literal. -/
theorem strtodExp_literal (l : Literal) :
    strtodExp l.expText = (l.exponent, l.expText.length) := by
  unfold Literal.expText Literal.exponent Literal.expNegative Literal.expDigits
  cases l.exp with
  | none => rfl
  | some e =>
    have hdigits : digitsAt e.digits.bytes = e.digits.bytes := by
      simpa using digitsAt_append e.digits.digits not_starts_nil
    have hmark : oneOf [0x65, 0x45] e.text = [e.mark] :=
      oneOf_cons _ (by simpa [IsMark] using e.isMark)
    have hsign : oneOf [0x2B, 0x2D] (e.sign.toList ++ e.digits.bytes) = e.sign.toList := by
      cases hs : e.sign with
      | none =>
        apply oneOf_of_not_starts
        intro h
        exact h.elim e.digits.starts fun c hc => IsSign.not_digit (by simpa [IsSign] using hc)
      | some c => exact oneOf_cons _ (by simpa [IsSign] using e.isSign c hs)
    have htail : e.text.drop (1 + e.sign.toList.length) = e.digits.bytes := by
      rw [Exponent.text, Nat.add_comm, List.drop_succ_cons, List.drop_left]
    unfold strtodExp
    simp only [hmark, List.length_singleton]
    rw [show e.text.drop 1 = e.sign.toList ++ e.digits.bytes from rfl, hsign, htail, hdigits,
      if_neg (by simp [e.digits.ne])]
    refine Prod.ext ?_ ?_
    · unfold Exponent.negative
      cases hs : e.sign with
      | none => rfl
      | some c => simp
    · simp only [Exponent.text, List.length_cons, List.length_append]
      omega

theorem not_starts_of_exp (l : Literal) {f : UInt8 → Prop} (hf : ∀ c, f c → ¬ IsMark c) :
    ¬ Starts f l.expText := by
  intro h
  by_cases hexp : l.expText = []
  · rw [hexp] at h
    exact not_starts_nil h
  · have hmark := l.starts_exp hexp []
    rw [List.append_nil] at hmark
    exact h.elim hmark hf

/-- The point and the digits of the fraction. -/
theorem fraction_literal (l : Literal) :
    oneOf [0x2E] (l.fracText ++ l.expText) ++ l.fracDigits = l.fracText ∧
      (if oneOf [0x2E] (l.fracText ++ l.expText) = [] then [] else
        digitsAt ((l.fracText ++ l.expText).drop
          (oneOf [0x2E] (l.fracText ++ l.expText)).length)) = l.fracDigits := by
  unfold Literal.fracText Literal.fracDigits
  cases l.frac with
  | none =>
    have hpoint : oneOf [0x2E] ([] ++ l.expText) = [] :=
      oneOf_of_not_starts (not_starts_of_exp l fun c hc hm =>
        hm.not_point (List.mem_singleton.mp hc))
    rw [hpoint]
    exact ⟨rfl, rfl⟩
  | some ds =>
    have hpoint : oneOf [0x2E] (0x2E :: ds.bytes ++ l.expText) = [0x2E] :=
      oneOf_cons _ (by decide)
    have hdigits : digitsAt (ds.bytes ++ l.expText) = ds.bytes :=
      digitsAt_append ds.digits (not_starts_of_exp l fun c hc hm => hm.not_digit hc)
    simp only [hpoint, List.length_singleton]
    exact ⟨rfl, (if_neg (by simp)).trans hdigits⟩

theorem abs_ratValue (l : Literal) :
    |l.ratValue| = (value (l.int.bytes ++ l.fracDigits) : ℚ) *
      10 ^ (l.exponent - l.fracDigits.length) := by
  have hsignum : |l.signum| = 1 := by
    unfold Literal.signum
    split <;> simp
  have hvalue : extend (value l.int.bytes) l.fracDigits = value (l.int.bytes ++ l.fracDigits) :=
    (extend_append ..).symm
  rw [Literal.ratValue_eq, hvalue, abs_mul, abs_mul, hsignum, one_mul,
    abs_of_nonneg (by positivity),
    abs_of_nonneg (by positivity)]

/-- **`strtod` rounds a literal correctly**, and consumes all of it. -/
theorem strtod_literal (l : Literal) :
    strtod l.text = (round l.minus l.ratValue, l.text.length) := by
  have hsign : oneOf [0x2B, 0x2D] l.text = minusText l.minus := oneOf_sign (l.int_starts _)
  have htail : l.text.drop (minusText l.minus).length
      = l.int.bytes ++ (l.fracText ++ l.expText) := List.drop_left
  have hint : digitsAt (l.int.bytes ++ (l.fracText ++ l.expText)) = l.int.bytes := by
    apply digitsAt_append l.int.digits
    intro h
    rw [← List.append_nil (l.fracText ++ l.expText), List.append_assoc] at h
    obtain ⟨hfrac, hexp⟩ := Literal.tail_of_digit h
    rw [hfrac, hexp] at h
    exact not_starts_nil h
  obtain ⟨hpoint, hfrac⟩ := fraction_literal l
  have hrest : l.text.drop ((minusText l.minus).length + l.int.bytes.length)
      = l.fracText ++ l.expText := by
    rw [← List.drop_drop, htail, List.drop_left]
  have hfracLen := congrArg List.length hpoint
  rw [List.length_append] at hfracLen
  have hexpText : l.text.drop ((minusText l.minus).length + l.int.bytes.length +
      (oneOf [0x2E] (l.fracText ++ l.expText)).length + l.fracDigits.length) = l.expText := by
    rw [Nat.add_assoc _ _ l.fracDigits.length, hfracLen, ← List.drop_drop, hrest, List.drop_left]
  unfold strtod
  simp only [hsign, htail, hint, hrest]
  rw [← List.drop_drop, hrest, hfrac, hexpText, strtodExp_literal,
    if_neg (fun h => l.int.ne h.1)]
  refine Prod.ext ?_ ?_
  · have hminus : decide (minusText l.minus = [0x2D]) = l.minus := by
      cases l.minus <;> decide
    rw [hminus]
    apply round_congr
    rw [abs_ratValue]
    exact abs_of_nonneg (by positivity)
  · rw [Literal.text, List.length_append, List.length_append, List.length_append, ← hfracLen]
    show _ + _ = _
    omega

end Double

/-! ## The fast path -/

/-- The product of the mantissa and the power of ten, each rounded to a double, before it is
rounded itself. -/
def fastProduct (mant : ℕ) (exp10 : ℤ) : ℚ :=
  unitsOf mant / oneUnits * (unitsOf (10 ^ exp10) / oneUnits)

theorem fastProduct_nonneg (mant : ℕ) (exp10 : ℤ) : 0 ≤ fastProduct mant exp10 := by
  unfold fastProduct
  positivity

theorem pow_lt {exp10 : ℤ} (hexp : exp10 ≤ 22) : (10 : ℚ) ^ exp10 < 2 ^ 74 := by
  calc (10 : ℚ) ^ exp10 ≤ 10 ^ (22 : ℤ) := zpow_le_zpow_right₀ (by norm_num) hexp
    _ < 2 ^ 74 := by norm_num

/-- The product is far from the largest double. -/
theorem fastProduct_finite {mant : ℕ} {exp10 : ℤ} (hmant : mant < 2 ^ 64) (hexp : exp10 ≤ 22) :
    unitsOf (fastProduct mant exp10) < topUnits := by
  have hm : (unitsOf mant : ℚ) / oneUnits ≤ 2 ^ 64 :=
    units_div_le (by positivity) (by exact_mod_cast hmant)
  have hp : (unitsOf (10 ^ exp10) : ℚ) / oneUnits ≤ 2 ^ 74 :=
    units_div_le (by positivity) (pow_lt hexp)
  refine unitsOf_lt (fastProduct_nonneg mant exp10) (k := 139) ?_ (by decide)
  calc fastProduct mant exp10 ≤ 2 ^ 64 * 2 ^ 74 := mul_le_mul hm hp (by positivity) (by positivity)
    _ < 2 ^ 139 := by norm_num

open Double in
/-- The entry of one of the tables, or no factor at all. -/
theorem mul_table {x : ℚ} (hx : unitsOf x < topUnits) {exp10 : ℤ} (hexp : exp10 ≤ 22) :
    (if exp10 < 0 then CDouble.mul (round false x) (CDouble.pow10Neg (-exp10).toNat)
      else if exp10 > 0 then CDouble.mul (round false x) (CDouble.pow10Pos exp10.toNat)
      else round false x)
      = round false (unitsOf x / oneUnits * (unitsOf (10 ^ exp10) / oneUnits)) := by
  have hpow : unitsOf (10 ^ exp10) < topUnits :=
    unitsOf_lt (by positivity) (pow_lt hexp) (by decide)
  have hmul : CDouble.mul (round false x) (round false (10 ^ exp10))
      = round false (unitsOf x / oneUnits * (unitsOf (10 ^ exp10) / oneUnits)) := by
    rw [round_of_lt _ hx, round_of_lt _ hpow, mul_finite, Magnitude.value, Magnitude.value,
      Bool.bne_false]
  rcases lt_trichotomy exp10 0 with hneg | rfl | hpos
  · have hentry : (1 : ℚ) / 10 ^ (-exp10).toNat = 10 ^ exp10 := by
      rw [← zpow_natCast, Int.toNat_of_nonneg (by omega), zpow_neg, one_div, inv_inv]
    rw [if_pos hneg, pow10Neg_eq, hentry, hmul]
  · have hone : (oneUnits : ℚ) ≠ 0 := by exact_mod_cast oneUnits_pos.ne'
    have hvalue : (unitsOf x : ℚ) / oneUnits
        = (⟨unitsOf x, fits_unitsOf x, hx⟩ : Magnitude).value := by rw [Magnitude.value]
    rw [if_neg (lt_irrefl 0), if_neg (lt_irrefl 0), zpow_zero, unitsOf_one, div_self hone, mul_one,
      hvalue, round_value, round_of_lt _ hx]
  · have hentry : (10 : ℚ) ^ exp10.toNat = 10 ^ exp10 := by
      rw [← zpow_natCast, Int.toNat_of_nonneg (by omega)]
    rw [if_neg (by omega), if_pos hpos, pow10Pos_eq, hentry, hmul]

/-- **The fast path** rounds the product of the two rounded factors. -/
theorem jsonFastFloatFromParts_eq {mant sig : ℕ} {exp10 : ℤ} (neg : Bool) (hmant : mant < 2 ^ 64)
    (hsig : sig ≠ 0) (hlo : -22 ≤ exp10) (hhi : exp10 ≤ 22) :
    jsonFastFloatFromParts mant sig exp10 neg
      = some (Double.round neg (fastProduct mant exp10)) := by
  have hm : unitsOf mant < topUnits :=
    unitsOf_lt (by positivity) (k := 64) (by exact_mod_cast hmant) (by decide)
  have htable := mul_table hm hhi
  unfold jsonFastFloatFromParts fastProduct
  rw [if_neg hsig, if_neg (by omega)]
  dsimp only
  rw [Double.ofUInt64_eq, htable]
  cases neg with
  | true => rw [if_pos rfl, Double.neg_eq, Double.neg_round]
  | false => rw [if_neg Bool.false_ne_true]

/-! ## Literals -/

/-- The counters of a scan, apart from the position. -/
def NumScan.parts (n : NumScan) : Bool × ℕ × ℕ × ℤ := (n.fastOk, n.fastMant, n.fastSig, n.fastExp10)

theorem digitStep_parts (fraction : Bool) {n n' : NumScan} (h : n.parts = n'.parts) (c : UInt8) :
    (digitStep fraction n c).parts = (digitStep fraction n' c).parts := by
  obtain ⟨pos, ok, mant, sig, exp⟩ := n
  obtain ⟨pos', ok', mant', sig', exp'⟩ := n'
  simp only [NumScan.parts, Prod.mk.injEq] at h
  obtain ⟨rfl, rfl, rfl, rfl⟩ := h
  unfold digitStep fastDigit
  dsimp only
  split_ifs <;> rfl

theorem foldl_digitStep_parts (fraction : Bool) : ∀ {ds : List UInt8} {n n' : NumScan},
    n.parts = n'.parts →
    (ds.foldl (digitStep fraction) n).parts = (ds.foldl (digitStep fraction) n').parts := by
  intro ds
  induction ds with
  | nil => exact fun h => h
  | cons c ds ih => exact fun h => ih (digitStep_parts fraction h c)

namespace Literal

variable (l : Literal)

/-- The counters of a literal are the same wherever it starts. -/
theorem token_parts (p p' : ℕ) : (l.token p).scan.parts = (l.token p').scan.parts := by
  have hint : (l.afterInt p).parts = (l.afterInt p').parts :=
    @foldl_digitStep_parts false _ ⟨_, true, 0, 0, 0⟩ ⟨_, true, 0, 0, 0⟩ rfl
  have hfrac : (l.beforeExp p).parts = (l.beforeExp p').parts := by
    unfold beforeExp scanFrac
    cases l.frac with
    | none => exact hint
    | some ds => exact foldl_digitStep_parts true hint
  show (l.scanExp (l.beforeExp p)).parts = (l.scanExp (l.beforeExp p')).parts
  generalize l.beforeExp p = n at hfrac ⊢
  generalize l.beforeExp p' = n' at hfrac ⊢
  simp only [NumScan.parts, Prod.mk.injEq] at hfrac
  obtain ⟨hok, hmant, hsig, hexp⟩ := hfrac
  unfold scanExp
  cases l.exp with
  | none => simp only [NumScan.parts, hok, hmant, hsig, hexp]
  | some e => simp only [NumScan.parts, hok, hmant, hsig, hexp]

/-- The counters of the literal. -/
def scan : NumScan := (l.token 0).scan

/-- The fast path takes the literal, for a value other than zero. -/
def IsFast : Prop :=
  l.scan.fastOk = true ∧ l.scan.fastSig ≠ 0 ∧ -22 ≤ l.scan.fastExp10 ∧ l.scan.fastExp10 ≤ 22

/-- If the fast path takes the literal, then no midpoint lies between the value of the literal
and the product of the two factors. -/
def FastExact : Prop :=
  l.IsFast → SameSide (fastProduct l.scan.fastMant l.scan.fastExp10) |l.ratValue|

instance : Decidable l.IsFast := inferInstanceAs (Decidable (_ ∧ _ ∧ _ ∧ _))

theorem scan_gathers : l.scan.fastMant < 2 ^ 64 ∧
    (l.scan.fastOk = true → l.scan.fastSig = 0 → l.ratValue = 0) := by
  have hgathers := l.beforeExp_gathers 0
  have hmant : l.scan.fastMant = (l.beforeExp 0).fastMant := (l.token_scan 0).1
  have hsig : l.scan.fastSig = (l.beforeExp 0).fastSig := by
    show (l.scanExp (l.beforeExp 0)).fastSig = _
    unfold scanExp
    cases l.exp <;> rfl
  constructor
  · rw [hmant]
    calc (l.beforeExp 0).fastMant < 10 ^ (l.beforeExp 0).fastSig := hgathers.mant_lt
      _ ≤ 10 ^ 19 := Nat.pow_le_pow_right (by decide) hgathers.sig_le
      _ < 2 ^ 64 := by norm_num
  · intro _ hzero
    have hvalue := hgathers.zero (hsig ▸ hzero)
    rw [ratValue_eq, hvalue, Nat.cast_zero, mul_zero, zero_mul]

/-- The product of the factors is rounded to what the value of the literal is rounded to. -/
theorem fastExact_iff (hfast : l.IsFast) : l.FastExact ↔
    unitsOf (fastProduct l.scan.fastMant l.scan.fastExp10) = unitsOf l.ratValue := by
  rw [← unitsOf_abs l.ratValue, unitsOf_eq_iff (fastProduct_nonneg ..) (abs_nonneg _)]
  exact ⟨fun hexact => hexact hfast, fun hside _ => hside⟩

/-- What the fast path makes of a literal, wherever it starts: unless it multiplies, it returns
the zero that the literal denotes, or nothing. -/
theorem fastFloat_cases (p : ℕ) :
    (l.IsFast ∧ fastFloat (l.token p)
      = some (Double.round l.minus (fastProduct l.scan.fastMant l.scan.fastExp10))) ∨
    (¬ l.IsFast ∧ ∀ f : Double, fastFloat (l.token p) = some f →
      f = Double.round l.minus l.ratValue ∧ unitsOf l.ratValue < topUnits) := by
  have hparts := l.token_parts p 0
  simp only [NumScan.parts, Prod.mk.injEq] at hparts
  obtain ⟨hok, hmant, hsig, hexp⟩ := hparts
  obtain ⟨hlt, hzero⟩ := l.scan_gathers
  have hfast : (fastFloat (l.token p) : Option Double) = if l.scan.fastOk then
      jsonFastFloatFromParts l.scan.fastMant l.scan.fastSig l.scan.fastExp10 l.minus
      else none := by
    unfold fastFloat
    rw [hok, hmant, hsig, hexp]
    rfl
  rw [hfast]
  by_cases hin : l.IsFast
  · obtain ⟨hok, hsig, hlo, hhi⟩ := hin
    refine .inl ⟨⟨hok, hsig, hlo, hhi⟩, ?_⟩
    rw [if_pos hok]
    exact jsonFastFloatFromParts_eq l.minus hlt hsig hlo hhi
  · refine .inr ⟨hin, fun f hf => ?_⟩
    by_cases hok : l.scan.fastOk = true
    · rw [if_pos hok, jsonFastFloatFromParts] at hf
      by_cases hsig : l.scan.fastSig = 0
      · rw [if_pos hsig] at hf
        have hval := hzero hok hsig
        have hfinite : unitsOf l.ratValue < topUnits := by
          rw [hval]
          exact unitsOf_lt le_rfl (k := 0) (by norm_num) (by decide)
        refine ⟨?_, hfinite⟩
        rw [hval, ← Option.some.inj hf, Double.round_zero]
        cases l.minus <;> rfl
      · have hout : l.scan.fastExp10 < -22 ∨ l.scan.fastExp10 > 22 := by
          by_contra h
          exact hin ⟨hok, hsig, by omega, by omega⟩
        rw [if_neg hsig, if_pos hout] at hf
        cases hf
    · rw [if_neg hok] at hf
      cases hf

end Literal

/-- `json__parse_number` as it is built with `JSON_FAST_FLOAT` 0, when the storage for a long
token is granted. -/
def libcNumberToken {D : Type} [CDouble D] (src : List UInt8) (start : ℕ) :
    Scan (JsonNode D × ℕ) := do
  let t ← scanNumber src start
  if t.isFloat then
    let token ← copyBytes src start (t.scan.pos - start)
    let node ← slowFloat token
    return (node, t.scan.pos)
  else
    let i ← intResult t
    return (.integer i, t.scan.pos)

/-- The result of the path through `strtod`. -/
theorem slowFloat_literal (l : Literal) : (slowFloat l.text : Scan (JsonNode Double)) =
    if unitsOf l.ratValue < topUnits then .ok (.float (Double.round l.minus l.ratValue))
    else .error (.err .invalidNumber) := by
  unfold slowFloat
  rw [Double.strtod_eq, Double.strtod_literal, if_neg (not_not.mpr rfl), Double.nonFinite_eq]
  by_cases h : unitsOf l.ratValue < topUnits
  · rw [if_pos h, Double.round_of_lt _ h]
    rfl
  · rw [if_neg h, Double.round_of_ge _ h]
    rfl

variable {src : List UInt8} {l : Literal} {p q : ℕ}

theorem libcNumberToken_literal (h : Spells src p l.text q) (hfollows : l.Follows (src.drop q))
    (hfloat : l.isFloat = true) : (libcNumberToken src p : Scan (JsonNode Double × ℕ)) =
      if unitsOf l.ratValue < topUnits then .ok (.float (Double.round l.minus l.ratValue), q)
      else .error (.err .invalidNumber) := by
  obtain ⟨hscan, hpos⟩ := scanNumber_literal l h hfollows
  have hcopy := l.copyBytes_text h
  have hfloat' : (l.token p).isFloat = true := hfloat
  rw [libcNumberToken, scan_bind_ok hscan, if_pos hfloat', hpos, scan_bind_ok hcopy,
    slowFloat_literal]
  split <;> rfl

theorem numberToken_literal (h : Spells src p l.text q) (hfollows : l.Follows (src.drop q))
    (hfloat : l.isFloat = true) : (numberToken src p : Scan (JsonNode Double × ℕ)) =
      match (fastFloat (l.token p) : Option Double) with
      | some f => .ok (.float f, q)
      | none => libcNumberToken src p := by
  obtain ⟨hscan, hpos⟩ := scanNumber_literal l h hfollows
  have hfloat' : (l.token p).isFloat = true := hfloat
  rw [numberToken, scan_bind_ok hscan, if_pos hfloat', libcNumberToken, scan_bind_ok hscan,
    if_pos hfloat', hpos]
  cases (fastFloat (l.token p) : Option Double) <;> rfl

/-- **The two paths agree** on a literal exactly if no midpoint lies between its value and the
product of the two factors, where the fast path takes it. -/
theorem numberToken_libc (h : Spells src p l.text q) (hfollows : l.Follows (src.drop q))
    (hfloat : l.isFloat = true) :
    (numberToken src p : Scan (JsonNode Double × ℕ)) = libcNumberToken src p ↔ l.FastExact := by
  rw [numberToken_literal h hfollows hfloat, libcNumberToken_literal h hfollows hfloat]
  rcases l.fastFloat_cases p with ⟨hfast, heq⟩ | ⟨hno, hnone⟩
  · rw [heq]
    have hfinite := fastProduct_finite l.scan_gathers.1 hfast.2.2.2
    rw [l.fastExact_iff hfast]
    constructor
    · intro heq
      by_cases hlt : unitsOf l.ratValue < topUnits
      · rw [if_pos hlt] at heq
        have hround := (JsonNode.float.inj (Prod.mk.inj (Except.ok.inj heq)).1)
        exact (Double.round_eq_iff _ hfinite).mp hround
      · rw [if_neg hlt] at heq
        cases heq
    · intro hunits
      rw [if_pos (hunits ▸ hfinite)]
      simp only [(Double.round_eq_iff l.minus hfinite).mpr hunits]
  · refine ⟨fun _ hfast => absurd hfast hno, fun _ => ?_⟩
    cases hfast : (fastFloat (l.token p) : Option Double) with
    | some f =>
      obtain ⟨rfl, hlt⟩ := hnone f hfast
      rw [if_pos hlt]
    | none => rfl

/-! ## Where the fast path is right -/

/-- A number of 53 binary places is a double. -/
theorem unitsOf_fits {n : ℕ} (h : Fits 53 n) : unitsOf n = n * oneUnits := by
  obtain ⟨m, e, hm, rfl⟩ := h
  obtain ⟨j, hj, -⟩ := units_eq
  rw [unitsOf_nat, hj]
  exact toBits_self (by decide) ⟨m, e + j, hm, by rw [Nat.pow_add]; ring⟩

theorem fits_pow {k : ℕ} (hk : k ≤ 22) : Fits 53 (10 ^ k) := by
  have hfive : 5 ^ k < 2 ^ 53 := by
    calc 5 ^ k ≤ 5 ^ 22 := Nat.pow_le_pow_right (by decide) hk
      _ < 2 ^ 53 := by norm_num
  exact ⟨5 ^ k, k, hfive, by rw [← Nat.mul_pow]⟩

/-- Neither factor is rounded where the mantissa has 53 binary places and the exponent is not
negative. -/
theorem fastProduct_exact {mant : ℕ} {exp10 : ℤ} (hmant : Fits 53 mant) (hlo : 0 ≤ exp10)
    (hhi : exp10 ≤ 22) : fastProduct mant exp10 = mant * 10 ^ exp10 := by
  obtain ⟨k, rfl⟩ := Int.eq_ofNat_of_zero_le hlo
  have hone : (oneUnits : ℚ) ≠ 0 := by exact_mod_cast oneUnits_pos.ne'
  have hpow : unitsOf (10 ^ (k : ℤ)) = 10 ^ k * oneUnits := by
    rw [← unitsOf_fits (fits_pow (k := k) (by omega)), zpow_natCast]
    push_cast
    rfl
  unfold fastProduct
  rw [unitsOf_fits hmant, hpow, zpow_natCast]
  push_cast
  rw [mul_div_cancel_right₀ _ hone, mul_div_cancel_right₀ _ hone]

/-- Without a power of ten only the mantissa is rounded. -/
theorem sameSide_zero (mant : ℕ) : SameSide (fastProduct mant 0) (mant * 10 ^ (0 : ℤ)) := by
  have hone : (oneUnits : ℚ) ≠ 0 := by exact_mod_cast oneUnits_pos.ne'
  have hproduct : fastProduct mant 0 = unitsOf mant / oneUnits := by
    rw [fastProduct, zpow_zero, unitsOf_one, div_self hone, mul_one]
  rw [← unitsOf_eq_iff (fastProduct_nonneg mant 0) (by positivity), hproduct,
    unitsOf_units (fits_unitsOf _), zpow_zero, mul_one]

/-- The units of the product with a negative power, from natural numbers alone. -/
theorem unitsOf_fastProduct_neg (mant k : ℕ) : unitsOf (fastProduct mant (-k))
    = toBits 53 (toBits 53 (mant * oneUnits) 1 * toBits 53 (1 * oneUnits) (10 ^ k) * oneUnits)
        (oneUnits * oneUnits) := by
  have hpow : (10 : ℚ) ^ (-(k : ℤ)) = ((1 : ℕ) : ℚ) / ((10 ^ k : ℕ) : ℚ) := by
    rw [zpow_neg, zpow_natCast]
    push_cast
    rw [one_div]
  rw [← unitsOf_div _ (Nat.mul_pos oneUnits_pos oneUnits_pos)]
  unfold fastProduct
  rw [unitsOf_nat, hpow, unitsOf_div 1 (Nat.pow_pos (by decide)), div_mul_div_comm]
  push_cast
  rfl

/-- **The fast path is correctly rounded** exactly if no midpoint of two neighbouring doubles lies
between the number and the product of the two factors, each of them rounded to a double; and
exactly then the parser returns for a literal what it returns without the fast path. -/
theorem jsonFastFloat_nearest {mant sig : ℕ} {exp10 : ℤ} (neg : Bool) (hlt : mant < 10 ^ 19)
    (hsig : sig ≠ 0) (hlo : -22 ≤ exp10) (hhi : exp10 ≤ 22) :
    (jsonFastFloatFromParts mant sig exp10 neg = some (Double.round neg (mant * 10 ^ exp10)) ↔
      SameSide (fastProduct mant exp10) (mant * 10 ^ exp10)) ∧
    ∀ (src : List UInt8) (l : Literal) (p q : ℕ), Spells src p l.text q →
      l.Follows (src.drop q) → l.isFloat = true →
      ((numberToken src p : Scan (JsonNode Double × ℕ)) = libcNumberToken src p ↔
        l.FastExact) := by
  refine ⟨?_, fun src l p q h hfollows hfloat => numberToken_libc h hfollows hfloat⟩
  have hmant : mant < 2 ^ 64 := lt_trans hlt (by norm_num)
  rw [jsonFastFloatFromParts_eq neg hmant hsig hlo hhi, Option.some_inj,
    Double.round_eq_iff neg (fastProduct_finite hmant hhi)]
  exact unitsOf_eq_iff (fastProduct_nonneg mant exp10) (by positivity)

/-- The literal `5e3`. -/
def fiveThousand : Literal where
  minus := false
  int := ⟨[0x35], List.cons_ne_nil _ _, fun c hc => by
    rw [List.mem_singleton.mp hc]
    decide⟩
  frac := none
  exp := some ⟨0x65, none, ⟨[0x33], List.cons_ne_nil _ _, fun c hc => by
    rw [List.mem_singleton.mp hc]
    decide⟩, isMark_e, by simp⟩
  noZero := fun h => absurd (Option.some.inj h) (by decide)

/-- The number `5e3` and its literal, which takes the fast path. -/
theorem jsonFastFloat_nearest_fiveThousand :
    jsonFastFloatFromParts 5 1 3 false = some (Double.round false ((5 : ℕ) * 10 ^ (3 : ℤ))) ∧
      fiveThousand.IsFast ∧
      (numberToken [0x35, 0x65, 0x33] 0 : Scan (JsonNode Double × ℕ))
        = libcNumberToken [0x35, 0x65, 0x33] 0 := by
  obtain ⟨hparts, hliteral⟩ := @jsonFastFloat_nearest 5 1 3 false
    (by norm_num) (by decide) (by decide) (by decide)
  have hexact : fastProduct 5 3 = (5 : ℕ) * 10 ^ (3 : ℤ) :=
    fastProduct_exact ⟨5, 0, by norm_num, rfl⟩ (by decide) (by decide)
  refine ⟨hparts.mpr ?_, by decide, ?_⟩
  · rw [hexact]
    exact SameSide.refl _
  · have hfollows : fiveThousand.Follows [] :=
      ⟨not_starts_nil, fun _ => not_starts_nil, fun _ _ => not_starts_nil⟩
    refine (hliteral _ fiveThousand 0 3 (spells_self _) hfollows rfl).mpr fun _ => ?_
    have hscan : fiveThousand.scan.fastMant = 5 ∧ fiveThousand.scan.fastExp10 = 3 := by decide
    have hvalue : |fiveThousand.ratValue| = (5 : ℕ) * 10 ^ (3 : ℤ) := by
      have hdigits : value (fiveThousand.int.bytes ++ fiveThousand.fracDigits) = 5 := by decide
      have hexp : fiveThousand.exponent = 3 := by decide
      have hfrac : fiveThousand.fracDigits.length = 0 := rfl
      rw [Double.abs_ratValue, hdigits, hexp, hfrac]
      norm_num
    rw [hscan.1, hscan.2, hexact, hvalue]
    exact SameSide.refl _

/-- **Three tenths.**  The text `0.3` is read as the double behind the nearest one, because the
entry `1e-1` of the table is rounded up. -/
theorem jsonFastFloat_threeTenths :
    ¬ ∀ (mant sig : ℕ) (exp10 : ℤ) (neg : Bool), 1 ≤ mant → mant < 10 ^ 19 → sig ≠ 0 →
      -22 ≤ exp10 → exp10 ≤ 22 →
      jsonFastFloatFromParts mant sig exp10 neg
        = some (Double.round neg (mant * 10 ^ exp10)) := by
  intro hall
  have heq := hall 3 1 (-1) false (by decide) (by norm_num) (by decide) (by decide) (by decide)
  rw [jsonFastFloatFromParts_eq false (by norm_num) (by decide) (by decide) (by decide),
    Option.some_inj, Double.round_eq_iff false
      (fastProduct_finite (by norm_num) (by decide))] at heq
  have hone : (oneUnits : ℚ) ≠ 0 := by exact_mod_cast oneUnits_pos.ne'
  have htenth : unitsOf (10 ^ (-1 : ℤ)) = toBits 53 (1 * oneUnits) 10 := by
    rw [← unitsOf_div 1 (d := 10) (by decide)]
    norm_num
  have hproduct : fastProduct 3 (-1)
      = ((3 * toBits 53 (1 * oneUnits) 10 : ℕ) : ℚ) / oneUnits := by
    unfold fastProduct
    rw [htenth, unitsOf_fits (n := 3) ⟨3, 0, by norm_num, rfl⟩]
    push_cast
    rw [mul_div_cancel_right₀ _ hone, mul_div_assoc]
  have hvalue : ((3 : ℕ) : ℚ) * 10 ^ (-1 : ℤ) = ((3 : ℕ) : ℚ) / (10 : ℕ) := by norm_num
  rw [hproduct, hvalue, unitsOf_div _ oneUnits_pos, unitsOf_div _ (by decide)] at heq
  exact absurd heq (by decide +kernel)

end SJson
