/-
# The decimal decomposition of a literal

`json__parse_number` decomposes a literal into a sign, a mantissa of at most nineteen digits
and a power of ten, with a 64-bit accumulator and two signed 32-bit counters.  `Decomposed`
says what this is for: no counter overflows, the accumulator does not wrap, and where
`fast_ok` is still set the parts make up the value of the literal.

The digits of the exponent are cut off once their value exceeds 1000, and the mantissa after
nineteen digits, but nothing bounds the decrements of `fast_exp10` by the digits of the
fraction: the decomposition is sound exactly up to 2^31 of them (`scanNumber_decomposed`).
-/
import SJson.NumberText

namespace SJson

open Decimal Segment

/-! ## The value of a literal -/

namespace Literal

/-- The digits behind the point. -/
def fracDigits (l : Literal) : List UInt8 :=
  match l.frac with
  | none => []
  | some ds => ds.bytes

/-- The digits of the exponent. -/
def expDigits (l : Literal) : List UInt8 :=
  match l.exp with
  | none => []
  | some e => e.digits.bytes

/-- The exponent has a minus sign. -/
def expNegative (l : Literal) : Bool :=
  match l.exp with
  | none => false
  | some e => e.negative

/-- The exponent that is written. -/
def exponent (l : Literal) : ℤ :=
  if l.expNegative then -(value l.expDigits : ℤ) else value l.expDigits

/-- The sign as a factor. -/
def signum (l : Literal) : ℚ := if l.minus then -1 else 1

/-- The rational number that the literal denotes. -/
def ratValue (l : Literal) : ℚ :=
  l.signum * (value l.int.bytes + value l.fracDigits / 10 ^ l.fracDigits.length) *
    10 ^ l.exponent

end Literal

/-! ## What the decomposition is for -/

/-- A value of `int32_t`. -/
def InInt32 (x : ℤ) : Prop := -2 ^ 31 ≤ x ∧ x < 2 ^ 31

instance (x : ℤ) : Decidable (InInt32 x) := inferInstanceAs (Decidable (_ ∧ _))

namespace Literal

/-- The counters behind the integer part. -/
def afterInt (l : Literal) (start : ℕ) : NumScan :=
  l.scanInt (start + (minusText l.minus).length)

/-- The counters behind some digits of the fraction. -/
def fracAfter (l : Literal) (start : ℕ) (ds : List UInt8) : NumScan :=
  ds.foldl (digitStep true) { l.afterInt start with pos := (l.afterInt start).pos + 1 }

/-- The counters in front of the exponent. -/
def beforeExp (l : Literal) (start : ℕ) : NumScan := l.scanFrac (l.afterInt start)

/-- `exp_val` and `fast_ok` behind some digits of the exponent. -/
def expAfter (l : Literal) (start : ℕ) (ds : List UInt8) : ℤ × Bool :=
  ds.foldl expStep (0, (l.beforeExp start).fastOk)

/-- The decomposition of a literal that starts at `start` is sound.  The results named are
those of the exact operations, before they are stored. -/
structure Decomposed (l : Literal) (start : ℕ) : Prop where
  /-- `fast_mant * 10U + jd_` in the integer part. -/
  intMant : ∀ ds c es pos, l.int.bytes = ds ++ c :: es →
    (ds.foldl (digitStep false) ⟨pos, true, 0, 0, 0⟩).fastSig < 19 →
    (ds.foldl (digitStep false) ⟨pos, true, 0, 0, 0⟩).fastMant * 10 + digit c < 2 ^ 64
  /-- `fast_mant * 10U + jd_` in the fraction. -/
  fracMant : ∀ ds c es, l.fracDigits = ds ++ c :: es →
    (l.fracAfter start ds).fastSig < 19 →
    (l.fracAfter start ds).fastMant * 10 + digit c < 2 ^ 64
  /-- `fast_exp10--`. -/
  fracExp : ∀ ds c es, l.fracDigits = ds ++ c :: es →
    InInt32 ((l.fracAfter start ds).fastExp10 - 1)
  /-- `exp_val * 10 + d`. -/
  expVal : ∀ ds c es, l.expDigits = ds ++ c :: es → (l.expAfter start ds).1 ≤ 1000 →
    InInt32 ((l.expAfter start ds).1 * 10 + digit c)
  /-- `-exp_val`. -/
  expNeg : InInt32 (-(l.expAfter start l.expDigits).1)
  /-- `fast_exp10 += exp_neg ? -exp_val : exp_val`. -/
  expSum : InInt32 ((l.beforeExp start).fastExp10 +
    if l.expNegative then -(l.expAfter start l.expDigits).1
    else (l.expAfter start l.expDigits).1)
  /-- The parts make up the value. -/
  exact : (l.token start).scan.fastOk = true →
    l.ratValue = l.signum * (l.token start).scan.fastMant * 10 ^ (l.token start).scan.fastExp10

/-- The value of the shortest prefix of some digits that exceeds 1000, or of all of them. -/
def cutValue (ds : List UInt8) : ℕ :=
  ((ds.inits.map value).find? fun v => 1000 < v).getD (value ds)

/-- By how much the exponent lowers the power of ten, cut off at 1000. -/
def cutExp (l : Literal) : ℕ := if l.expNegative then cutValue l.expDigits else 0

end Literal

/-! ## The counters -/

theorem int32_of_fits {x : ℤ} (h : InInt32 x) : int32 x = x := by
  unfold InInt32 at h
  unfold int32
  rw [Int.bmod_def]
  split_ifs <;> omega

@[simp]
theorem fastDigit_fastExp10 (n : NumScan) (d : ℕ) : (fastDigit n d).fastExp10 = n.fastExp10 := by
  unfold fastDigit
  split_ifs <;> rfl

theorem digitStep_fraction (n : NumScan) (c : UInt8) :
    (digitStep true n c).fastExp10 = int32 (n.fastExp10 - 1) := by
  show int32 ((fastDigit n _).fastExp10 - 1) = _
  rw [fastDigit_fastExp10]

/-- The integer part leaves the power of ten alone. -/
theorem foldl_digitStep_int (ds : List UInt8) : ∀ n : NumScan,
    (ds.foldl (digitStep false) n).fastExp10 = n.fastExp10 := by
  induction ds with
  | nil => intro n; rfl
  | cons c ds ih =>
    intro n
    rw [List.foldl_cons, ih]
    exact fastDigit_fastExp10 n _

/-- The fraction lowers it by one for each digit, as long as it is in range. -/
theorem foldl_digitStep_frac : ∀ {ds : List UInt8} {n : NumScan}, n.fastExp10 < 2 ^ 31 →
    -2 ^ 31 ≤ n.fastExp10 - ds.length →
    (ds.foldl (digitStep true) n).fastExp10 = n.fastExp10 - ds.length := by
  intro ds
  induction ds with
  | nil =>
    intro n _ _
    simp
  | cons c ds ih =>
    intro n hhi hlo
    rw [List.length_cons] at hlo ⊢
    push_cast at hlo ⊢
    have hstep : (digitStep true n c).fastExp10 = n.fastExp10 - 1 := by
      rw [digitStep_fraction, int32_of_fits ⟨by omega, by omega⟩]
    rw [List.foldl_cons, ih (by omega) (by omega), hstep]
    omega

/-- `exp_val` holds digits of value `v`, all of them if `fast_ok` is still set. -/
structure ExpGathers (r : ℤ × Bool) (v : ℕ) : Prop where
  nonneg : 0 ≤ r.1
  le : r.1 ≤ 10009
  exact : r.2 = true → r.1 = v

theorem ExpGathers.fits {r : ℤ × Bool} {v d : ℕ} (h : ExpGathers r v) (hcut : r.1 ≤ 1000)
    (hd : d < 10) : InInt32 (r.1 * 10 + d) := by
  have hlo := h.nonneg
  exact ⟨by omega, by omega⟩

theorem ExpGathers.step {r : ℤ × Bool} {v : ℕ} {c : UInt8} (h : ExpGathers r v) (hc : IsDigit c) :
    ExpGathers (expStep r c) (v * 10 + digit c) := by
  have hd := hc.digit_lt
  have hlo := h.nonneg
  unfold expStep
  by_cases hcut : r.1 > 1000
  · rw [if_pos hcut]
    exact ⟨h.nonneg, h.le, fun hok => (by cases hok)⟩
  · rw [if_neg hcut]
    have hround : int32 (r.1 * 10 + (c.toNat - 0x30 : ℕ)) = r.1 * 10 + digit c :=
      int32_of_fits (h.fits (not_lt.mp hcut) hd)
    rw [hround]
    refine ⟨by show 0 ≤ r.1 * 10 + _; omega, by show r.1 * 10 + _ ≤ _; omega, fun hok => ?_⟩
    have hr : r.1 = v := h.exact hok
    show r.1 * 10 + (digit c : ℤ) = _
    rw [hr]
    push_cast
    rfl

theorem ExpGathers.run : ∀ {ds : List UInt8} {r : ℤ × Bool} {v : ℕ}, ExpGathers r v →
    (∀ c ∈ ds, IsDigit c) → ExpGathers (ds.foldl expStep r) (extend v ds) := by
  intro ds
  induction ds with
  | nil => intro r v h _; exact h
  | cons c ds ih =>
    intro r v h hds
    obtain ⟨hc, hds⟩ := List.forall_mem_cons.mp hds
    rw [List.foldl_cons, extend_cons]
    exact ih (h.step hc) hds

/-- `fast_ok` is never set again. -/
theorem foldl_expStep_ok : ∀ {ds : List UInt8} {r : ℤ × Bool}, (ds.foldl expStep r).2 = true →
    r.2 = true := by
  intro ds
  induction ds with
  | nil => intro r h; exact h
  | cons c ds ih =>
    intro r h
    rw [List.foldl_cons] at h
    have hstep := ih h
    unfold expStep at hstep
    split_ifs at hstep
    exact hstep

/-- Behind 1000 the digits of the exponent change nothing. -/
theorem foldl_expStep_cut : ∀ {ds : List UInt8} {r : ℤ × Bool}, 1000 < r.1 →
    (ds.foldl expStep r).1 = r.1 := by
  intro ds
  induction ds with
  | nil => intro r _; rfl
  | cons c ds ih =>
    intro r hcut
    rw [List.foldl_cons, expStep, if_pos hcut]
    exact ih hcut

/-- `exp_val` is the value of the shortest prefix that exceeds 1000. -/
theorem foldl_expStep_eq : ∀ {ds : List UInt8} {v : ℕ} {ok : Bool}, v ≤ 10009 →
    (∀ c ∈ ds, IsDigit c) →
    (ds.foldl expStep ((v : ℤ), ok)).1 =
      ((ds.inits.map (extend v)).find? fun v => 1000 < v).getD (extend v ds) := by
  intro ds
  induction ds with
  | nil =>
    intro v ok _ _
    by_cases hcut : 1000 < v <;> simp [hcut]
  | cons c ds ih =>
    intro v ok hv hds
    obtain ⟨hc, hds⟩ := List.forall_mem_cons.mp hds
    have hd := hc.digit_lt
    by_cases hcut : 1000 < v
    · have hcut' : (1000 : ℤ) < v := by exact_mod_cast hcut
      rw [foldl_expStep_cut hcut']
      simp [hcut]
    · have hstep : expStep ((v : ℤ), ok) c = (((v * 10 + digit c : ℕ) : ℤ), ok) := by
        have hround : int32 ((v : ℤ) * 10 + (c.toNat - 0x30 : ℕ)) = (v : ℤ) * 10 + digit c :=
          int32_of_fits ⟨by show _ ≤ (v : ℤ) * 10 + digit c; omega,
            by show (v : ℤ) * 10 + digit c < _; omega⟩
        have hcut' : ¬ (v : ℤ) > 1000 := by exact_mod_cast hcut
        rw [expStep, if_neg hcut', hround]
        push_cast
        rfl
      have hfirst : ¬ 1000 < extend v [] := hcut
      rw [List.foldl_cons, hstep, ih (by omega) hds, List.inits_cons, List.map_cons, List.map_map,
        List.find?_cons, decide_eq_false hfirst]
      rfl

/-! ## The decomposition -/

namespace Literal

variable (l : Literal) (start : ℕ)

theorem fracDigits_isDigit : ∀ c ∈ l.fracDigits, IsDigit c := by
  unfold fracDigits
  cases l.frac with
  | none => exact fun c hc => by cases hc
  | some ds => exact ds.digits

theorem expDigits_isDigit : ∀ c ∈ l.expDigits, IsDigit c := by
  unfold expDigits
  cases l.exp with
  | none => exact fun c hc => by cases hc
  | some e => exact e.digits.digits

theorem afterInt_gathers : Gathers (l.afterInt start) (value l.int.bytes) :=
  l.scanInt_gathers _

theorem fracAfter_gathers {ds : List UInt8} (hds : ∀ c ∈ ds, IsDigit c) :
    Gathers (l.fracAfter start ds) (extend (value l.int.bytes) ds) := by
  obtain ⟨h1, h2, h3, h4, h5, h6⟩ := l.afterInt_gathers start
  exact Gathers.run true ⟨h1, h2, h3, h4, h5, h6⟩ hds

theorem fracAfter_fastExp10 {ds : List UInt8} (hlen : ds.length ≤ 2 ^ 31) :
    (l.fracAfter start ds).fastExp10 = -(ds.length : ℤ) := by
  have hzero : (l.afterInt start).fastExp10 = 0 := foldl_digitStep_int ..
  unfold fracAfter
  rw [foldl_digitStep_frac]
  · show (l.afterInt start).fastExp10 - _ = _
    rw [hzero, Int.zero_sub]
  · show (l.afterInt start).fastExp10 < _
    rw [hzero]
    norm_num
  · show _ ≤ (l.afterInt start).fastExp10 - _
    rw [hzero]
    omega

/-- In front of the exponent, the counters are those behind all digits of the fraction,
apart from the position where there is no fraction. -/
theorem beforeExp_eq : ∃ pos,
    l.beforeExp start = { l.fracAfter start l.fracDigits with pos := pos } := by
  unfold beforeExp scanFrac fracAfter fracDigits
  cases l.frac with
  | none => exact ⟨(l.afterInt start).pos, rfl⟩
  | some ds => exact ⟨_, rfl⟩

theorem beforeExp_fastExp10 (hlen : l.fracDigits.length ≤ 2 ^ 31) :
    (l.beforeExp start).fastExp10 = -(l.fracDigits.length : ℤ) := by
  obtain ⟨pos, h⟩ := l.beforeExp_eq start
  rw [h]
  exact l.fracAfter_fastExp10 start hlen

theorem beforeExp_gathers :
    Gathers (l.beforeExp start) (extend (value l.int.bytes) l.fracDigits) := by
  obtain ⟨pos, h⟩ := l.beforeExp_eq start
  obtain ⟨h1, h2, h3, h4, h5, h6⟩ := l.fracAfter_gathers start l.fracDigits_isDigit
  rw [h]
  exact ⟨h1, h2, h3, h4, h5, h6⟩

theorem expAfter_gathers {ds : List UInt8} (hds : ∀ c ∈ ds, IsDigit c) :
    ExpGathers (l.expAfter start ds) (value ds) :=
  ExpGathers.run ⟨le_rfl, by show (0 : ℤ) ≤ 10009; norm_num, fun _ => rfl⟩ hds

theorem expAfter_eq : (l.expAfter start l.expDigits).1 = cutValue l.expDigits :=
  foldl_expStep_eq (v := 0) (Nat.zero_le _) l.expDigits_isDigit

/-- The signed exponent that is added at the end. -/
def expShift : ℤ :=
  if l.expNegative then -(l.expAfter start l.expDigits).1 else (l.expAfter start l.expDigits).1

/-- What the scan returns. -/
theorem token_scan : (l.token start).scan.fastMant = (l.beforeExp start).fastMant ∧
    (l.token start).scan.fastOk = (l.expAfter start l.expDigits).2 ∧
    (InInt32 (-(l.expAfter start l.expDigits).1) →
      InInt32 ((l.beforeExp start).fastExp10 + l.expShift start) →
      (l.token start).scan.fastExp10 = (l.beforeExp start).fastExp10 + l.expShift start) := by
  show (l.scanExp (l.beforeExp start)).fastMant = _ ∧ (l.scanExp (l.beforeExp start)).fastOk = _ ∧
    (_ → _ → (l.scanExp (l.beforeExp start)).fastExp10 = _)
  unfold scanExp expShift expNegative expAfter expDigits
  cases l.exp with
  | none => exact ⟨rfl, rfl, fun _ _ => (Int.add_zero _).symm⟩
  | some e =>
    refine ⟨rfl, rfl, fun hneg hsum => ?_⟩
    simp only at hneg hsum ⊢
    rw [int32_of_fits hneg]
    exact int32_of_fits hsum

/-- The value of the literal, from its digits in one row. -/
theorem ratValue_eq : l.ratValue =
    l.signum * (extend (value l.int.bytes) l.fracDigits : ℕ) *
      10 ^ (l.exponent - l.fracDigits.length) := by
  unfold ratValue
  rw [extend_eq, zpow_sub₀ (by norm_num), zpow_natCast]
  push_cast
  field_simp

end Literal

namespace Literal

variable {l : Literal} {start : ℕ}

/-- The decrements of `fast_exp10` alone. -/
theorem fracExp_iff : (∀ ds c es, l.fracDigits = ds ++ c :: es →
    InInt32 ((l.fracAfter start ds).fastExp10 - 1)) ↔ l.fracDigits.length ≤ 2 ^ 31 := by
  constructor
  · intro hall
    by_contra hlong
    -- the decrement behind 2^31 digits
    have hsplit := (List.take_append_drop (2 ^ 31) l.fracDigits).symm
    have hlen : (l.fracDigits.take (2 ^ 31)).length = 2 ^ 31 := by
      rw [List.length_take]
      omega
    obtain ⟨c, es, hdrop⟩ := List.exists_cons_of_length_pos
      (show 0 < (l.fracDigits.drop (2 ^ 31)).length by rw [List.length_drop]; omega)
    have hfit := hall _ c es (hdrop ▸ hsplit)
    rw [l.fracAfter_fastExp10 start hlen.le, hlen] at hfit
    unfold InInt32 at hfit
    norm_num at hfit
  · intro hlen ds c es hds
    have hlt : ds.length < l.fracDigits.length := by
      rw [hds, List.length_append, List.length_cons]
      omega
    rw [l.fracAfter_fastExp10 start (by omega)]
    exact ⟨by omega, by omega⟩

/-- Where no counter overflows, the parts make up the value. -/
theorem exact_of_fits (hlen : l.fracDigits.length ≤ 2 ^ 31)
    (hneg : InInt32 (-(l.expAfter start l.expDigits).1))
    (hsum : InInt32 ((l.beforeExp start).fastExp10 + l.expShift start))
    (hok : (l.token start).scan.fastOk = true) :
    l.ratValue = l.signum * (l.token start).scan.fastMant *
      10 ^ (l.token start).scan.fastExp10 := by
  obtain ⟨hmant, hok', hexp⟩ := l.token_scan start
  rw [hok'] at hok
  have hshift : l.expShift start = l.exponent := by
    rw [expShift, exponent, (l.expAfter_gathers start l.expDigits_isDigit).exact hok]
  rw [hmant, (l.beforeExp_gathers start).exact (foldl_expStep_ok hok), hexp hneg hsum,
    l.beforeExp_fastExp10 start hlen, hshift, ratValue_eq]
  congr 2
  ring

end Literal

/-- **The decomposition of a literal is sound** exactly if the digits of its fraction and a
negative exponent, cut off at 1000, lower the power of ten by at most 2^31. -/
theorem scanNumber_decomposed (l : Literal) {src : List UInt8} {p q : ℕ}
    (h : Spells src p l.text q) (hfollows : l.Follows (src.drop q)) :
    scanNumber src p = .ok (l.token p) ∧
      (l.Decomposed p ↔ l.fracDigits.length + l.cutExp ≤ 2 ^ 31) := by
  refine ⟨(scanNumber_literal l h hfollows).1, ?_⟩
  have hexp := l.expAfter_gathers p l.expDigits_isDigit
  have hlo := hexp.nonneg
  have hhi := hexp.le
  have hcut := l.expAfter_eq p
  have hneg : InInt32 (-(l.expAfter p l.expDigits).1) := ⟨by omega, by omega⟩
  -- given the bound on the fraction, the last addition decides
  have hsum : l.fracDigits.length ≤ 2 ^ 31 →
      (InInt32 ((l.beforeExp p).fastExp10 + l.expShift p) ↔
        l.fracDigits.length + l.cutExp ≤ 2 ^ 31) := by
    intro hlen
    rw [l.beforeExp_fastExp10 p hlen, Literal.expShift, Literal.cutExp, InInt32]
    split_ifs <;> omega
  constructor
  · intro hd
    have hlen := Literal.fracExp_iff.mp hd.fracExp
    exact (hsum hlen).mp hd.expSum
  · intro hle
    have hlen : l.fracDigits.length ≤ 2 ^ 31 := by omega
    have hfits := (hsum hlen).mpr hle
    constructor
    · exact fun ds c es pos hds hsig => l.int_room hds hsig
    · intro ds c es hds hsig
      obtain ⟨hbefore, hc⟩ := isDigit_split l.fracDigits_isDigit hds
      exact ((l.fracAfter_gathers p hbefore).room hsig hc.digit_lt).2
    · exact Literal.fracExp_iff.mpr hlen
    · intro ds c es hds hle1000
      obtain ⟨hbefore, hc⟩ := isDigit_split l.expDigits_isDigit hds
      exact (l.expAfter_gathers p hbefore).fits hle1000 hc.digit_lt
    · exact hneg
    · exact hfits
    · exact Literal.exact_of_fits hlen hneg hfits

/-- The literal `0.00`, with a fraction of `n` zeros. -/
def zerosLiteral (n : ℕ) (hn : n ≠ 0) : Literal where
  minus := false
  int := ⟨[0x30], List.cons_ne_nil _ _, fun c hc => by
    rw [List.mem_singleton.mp hc]
    decide⟩
  frac := some ⟨List.replicate n 0x30, by simpa using hn, fun c hc => by
    rw [List.eq_of_mem_replicate hc]
    decide⟩
  exp := none
  noZero := fun _ => rfl

theorem zerosLiteral_follows (n : ℕ) (hn : n ≠ 0) : (zerosLiteral n hn).Follows [] :=
  ⟨not_starts_nil, fun _ => not_starts_nil, fun _ _ => not_starts_nil⟩

/-- The literal `0.00` is decomposed. -/
theorem scanNumber_decomposed_two :
    ∃ l : Literal, l.fracDigits = [0x30, 0x30] ∧ l.Decomposed 0 := by
  let l := zerosLiteral 2 (by decide)
  have hfollows : l.Follows (l.text.drop l.text.length) := by
    rw [List.drop_length]
    exact zerosLiteral_follows 2 _
  have hle : l.fracDigits.length + l.cutExp ≤ 2 ^ 31 := by
    show 2 + 0 ≤ 2 ^ 31
    norm_num
  exact ⟨l, rfl, (scanNumber_decomposed l (spells_self _) hfollows).2.mpr hle⟩

/-- **One decrement too many.**  On the text `0.` and 2^31 + 1 zeros the last decrement of
`fast_exp10` overflows. -/
theorem scanNumber_expOverflow :
    ¬ ∀ (src : List UInt8) (p : ℕ) (l : Literal), Spells src p l.text src.length →
      l.isFloat = true → scanNumber src p = .ok (l.token p) → l.Decomposed p := by
  intro hall
  obtain ⟨n, hn, hpos⟩ : ∃ n : ℕ, n = 2 ^ 31 + 1 ∧ n ≠ 0 := ⟨_, rfl, by norm_num⟩
  let l := zerosLiteral n hpos
  have hspells : Spells l.text 0 l.text l.text.length := spells_self _
  have hscan := (scanNumber_literal l hspells
    (by rw [List.drop_length]; exact zerosLiteral_follows _ _)).1
  have hfrac := (hall l.text 0 l hspells rfl hscan).fracExp
  have hlen := Literal.fracExp_iff.mp hfrac
  have hzeros : l.fracDigits.length = n := List.length_replicate
  omega

end SJson
