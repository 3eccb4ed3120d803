/-
# Reading back what is written: tokens

The texts that the writer stores for strings and numbers are tokens of the parser, and stand
for what was written: every character of a string (`strItem_charText`), whether it is stored
as it is, as an escape or as a pair of escaped surrogates, and every integer
(`numberToken_intText`), as long as no digit, point or exponent mark follows.
-/
import SJson.WriterSpec
import SJson.Grammar
import SJson.NumberText

namespace SJson

open ErrState Segment

variable {src : List UInt8}

/-! ## Strings -/

theorem jsonHexVal_hexDigit (n : ℕ) : jsonHexVal (hexDigit n) = n % 16 := by
  have hlt : n % 16 < 16 := Nat.mod_lt _ (by decide)
  unfold hexDigit jsonHexVal
  by_cases h10 : n % 16 < 10
  · rw [if_pos h10, toNat_ofNat (by omega), if_pos (by omega)]
    omega
  · rw [if_neg h10, toNat_ofNat (by omega), if_neg (by omega), if_pos (by omega)]
    omega

/-- Four hexadecimal digits are read as the code unit they were written for. -/
theorem hex4At_of_spells {p q code : ℕ} (hcode : code < 65536)
    (h : Spells src p [hexDigit (code / 4096), hexDigit (code / 256), hexDigit (code / 16),
      hexDigit code] q) : Hex4At src p code := by
  obtain ⟨rfl, t, ht⟩ := h
  have hlen : 4 ≤ src.length - p := by
    rw [← List.length_drop, ← ht]
    simp
  unfold Hex4At hex4At jsonParseHex4
  rw [if_neg (by omega), ← ht]
  show (.ok (hexJoin _ _ _ _) : Scan (Option ℕ)) = .ok (some code)
  unfold hexJoin
  simp only [jsonHexVal_hexDigit]
  rw [if_neg (by omega)]
  congr 2
  omega

/-- An escaped code unit outside the surrogate range. -/
theorem strItem_u16 {p q code : ℕ} (hcode : code < 65536) (hhigh : ¬ IsHigh code)
    (hlow : ¬ IsLow code) (h : Spells src p (u16Text code) q) :
    StrItem src p (jsonEncodeUtf8 code) true q := by
  unfold u16Text at h
  obtain ⟨hslash, h⟩ := spells_cons.mp h
  obtain ⟨hu, h⟩ := spells_cons.mp h
  obtain rfl : q = p + 6 := h.eq
  exact .unicode hslash hu (hex4At_of_spells hcode h) hhigh hlow

/-- An escape of one letter. -/
theorem strItem_simple {p q : ℕ} {e c : UInt8} (he : simpleEscape e = some c)
    (hc : c.toNat < 0x80) (h : Spells src p [0x5C, e] q) :
    StrItem src p (jsonEncodeUtf8 c.toNat) true q := by
  obtain ⟨hslash, h⟩ := spells_cons.mp h
  obtain ⟨hget, h⟩ := spells_cons.mp h
  obtain rfl : q = p + 2 := spells_nil.mp h
  rw [(encode_ascii hc).2]
  exact .simple hslash hget he

/-- A byte that is escaped. -/
theorem strItem_escape {p q : ℕ} {c : UInt8} (hc : c.toNat < 0x80)
    (h : Spells src p (escapeText c) q) : StrItem src p (jsonEncodeUtf8 c.toNat) true q := by
  unfold escapeText at h
  split_ifs at h with h1 h2 h3 h4 h5 h6 h7
  · subst h1; exact strItem_simple rfl hc h
  · subst h2; exact strItem_simple rfl hc h
  · subst h3; exact strItem_simple rfl hc h
  · subst h4; exact strItem_simple rfl hc h
  · subst h5; exact strItem_simple rfl hc h
  · subst h6; exact strItem_simple rfl hc h
  · subst h7; exact strItem_simple rfl hc h
  · refine strItem_u16 (by omega) (by unfold IsHigh; omega) (by unfold IsLow; omega) ?_
    have h0 : hexDigit (c.toNat / 4096) = 0x30 := by
      rw [show c.toNat / 4096 = 0 by omega]; rfl
    have h1 : hexDigit (c.toNat / 256) = 0x30 := by
      rw [show c.toNat / 256 = 0 by omega]; rfl
    rwa [u16Text, h0, h1]

/-- **Every character of a string is read back**, however it was written. -/
theorem strItem_charText {p q cp : ℕ} (asciiOnly : Bool) (hcp : IsScalar cp)
    (h : Spells src p (charText asciiOnly cp) q) :
    ∃ esc, StrItem src p (jsonEncodeUtf8 cp) esc q := by
  unfold charText at h
  by_cases hlo : cp < 0x80
  · rw [if_pos hlo] at h
    have hnat : (UInt8.ofNat cp).toNat = cp := toNat_ofNat (by omega)
    by_cases hesc : needsEscape (.ofNat cp) = true
    · rw [if_pos hesc] at h
      have hitem := strItem_escape (by rw [hnat]; exact hlo) h
      rw [hnat] at hitem
      exact ⟨_, hitem⟩
    · rw [if_neg hesc] at h
      obtain ⟨hget, h⟩ := spells_cons.mp h
      obtain rfl : q = p + 1 := spells_nil.mp h
      unfold needsEscape at hesc
      simp only [Bool.or_eq_true, decide_eq_true_eq, not_or, not_lt] at hesc
      obtain ⟨⟨hctl, hquote⟩, hslash⟩ := hesc
      have hascii := encode_ascii (c := .ofNat cp) (by rw [hnat]; exact hlo)
      rw [hnat] at hascii hctl
      rw [hascii.2]
      exact ⟨_, .ascii hget (by rwa [hnat]) (by rwa [hnat]) hquote hslash⟩
  · rw [if_neg hlo] at h
    by_cases hascii : asciiOnly = false
    · rw [if_pos hascii] at h
      have hdrop := h.drop_eq
      obtain rfl := h.eq
      exact ⟨_, .multi hcp (by omega) hdrop⟩
    · rw [if_neg hascii] at h
      obtain ⟨hmax, hsur⟩ := hcp
      by_cases hbmp : cp ≤ 0xFFFF
      · rw [if_pos hbmp] at h
        exact ⟨_, strItem_u16 (by omega) (by unfold IsHigh; omega) (by unfold IsLow; omega) h⟩
      · -- a surrogate pair
        rw [if_neg hbmp] at h
        obtain ⟨r, hfirst, hsecond⟩ := spells_append.mp h
        unfold u16Text at hfirst hsecond
        obtain ⟨hslash, hfirst⟩ := spells_cons.mp hfirst
        obtain ⟨hu, hfirst⟩ := spells_cons.mp hfirst
        obtain rfl : r = p + 6 := hfirst.eq
        obtain ⟨hslash', hsecond⟩ := spells_cons.mp hsecond
        obtain ⟨hu', hsecond⟩ := spells_cons.mp hsecond
        obtain rfl : q = p + 12 := hsecond.eq
        have hitem := StrItem.pair hslash hu (hex4At_of_spells (by omega) hfirst)
          (by unfold IsHigh; omega) hslash' hu' (hex4At_of_spells (by omega) hsecond)
          (by unfold IsLow; omega)
        have hjoin : 0x10000 + (0xD800 + (cp - 0x10000) / 1024 - 0xD800) * 1024 +
            (0xDC00 + (cp - 0x10000) % 1024 - 0xDC00) = cp := by omega
        rw [hjoin] at hitem
        exact ⟨_, hitem⟩

/-- The characters of a string, one after the other. -/
theorem strBody_charTexts (asciiOnly : Bool) : ∀ {cps : List ℕ} {p q : ℕ},
    (∀ cp ∈ cps, IsScalar cp) → Spells src p (cps.flatMap (charText asciiOnly)) q →
    ∃ esc, StrBody src p (cps.flatMap jsonEncodeUtf8) esc q := by
  intro cps
  induction cps with
  | nil =>
    intro p q _ h
    obtain rfl := spells_nil.mp h
    exact ⟨_, .nil q⟩
  | cons cp cps ih =>
    intro p q hall h
    obtain ⟨hcp, hcps⟩ := List.forall_mem_cons.mp hall
    rw [List.flatMap_cons] at h ⊢
    obtain ⟨r, hchar, hrest⟩ := spells_append.mp h
    obtain ⟨esc, hitem⟩ := strItem_charText asciiOnly hcp hchar
    obtain ⟨esc', hbody⟩ := ih hcps hrest
    exact ⟨_, .cons hitem hbody⟩

/-- **A string is read back**: what is written for it, with the closing quotation mark, is a
string token that stands for it. -/
theorem stringAt_contentText (asciiOnly : Bool) {s : List UInt8} (hs : IsUtf8 s)
    (hlen : s.length ≤ jsonMaxStringLen) {p q : ℕ}
    (h : Spells src p (contentText asciiOnly s ++ [0x22]) q) : StringAt src p s q := by
  obtain ⟨cps, hall, rfl⟩ := hs
  rw [contentText_encode asciiOnly hall] at h
  obtain ⟨r, hbody, hquote⟩ := spells_append.mp h
  obtain ⟨hget, hq⟩ := spells_cons.mp hquote
  obtain ⟨esc, hbody⟩ := strBody_charTexts asciiOnly hall hbody
  exact ⟨esc, r, hbody, hget, hlen, spells_nil.mp hq⟩

/-! ## Integers -/

/-- No byte follows that would belong to a number. -/
def Stops (src : List UInt8) (q : ℕ) : Prop :=
  ∀ c, src[q]? = some c → isDigit c = false ∧ isFloatMark c = false

theorem Stops.not_starts {q : ℕ} (h : Stops src q) {f : UInt8 → Prop}
    (hf : ∀ c, f c → isDigit c = true ∨ isFloatMark c = true) : ¬ Starts f (src.drop q) := by
  intro hs
  obtain ⟨c, hc, hfc⟩ := starts_drop.mp hs
  obtain ⟨hdigit, hmark⟩ := h c hc
  rcases hf c hfc with h' | h'
  · rw [hdigit] at h'
    cases h'
  · rw [hmark] at h'
    cases h'

/-- Where a number stops, no literal goes on. -/
theorem Stops.follows {q : ℕ} (h : Stops src q) (l : Literal) : l.Follows (src.drop q) where
  digit := h.not_starts fun c hc => .inl (isDigit_iff.mpr hc)
  mark := fun _ => h.not_starts fun c hc => .inr (by rcases hc with rfl | rfl <;> decide)
  point := fun _ _ => h.not_starts fun c hc => .inr (by subst hc; decide)

/-- The literal that is written for an integer. -/
def intLiteral (i : Int64) : Literal where
  minus := decide (i.toInt < 0)
  int := ⟨Decimal.text (int64Abs i), Decimal.text_ne_nil _, Decimal.text_isDigit⟩
  frac := none
  exp := none
  noZero := Decimal.text_noZero _

theorem intLiteral_text (i : Int64) : (intLiteral i).text = intText i := by
  unfold Literal.text Literal.fracText Literal.expText intText intLiteral minusText Decimal.text
  simp

theorem intLiteral_value (i : Int64) : (intLiteral i).intValue = i.toInt := by
  unfold Literal.intValue intLiteral
  simp only [Decimal.value_text, int64Abs, decide_eq_true_eq]
  split_ifs <;> omega

/-- **An integer is read back**, where no digit, point or exponent mark follows. -/
theorem numberToken_intText {D : Type} [CDouble D] (i : Int64) {p q : ℕ}
    (h : Spells src p (intText i) q) (hstop : Stops src q) :
    numberToken src p = (.ok (.integer i, q) : Scan (JsonNode D × ℕ)) := by
  rw [← intLiteral_text] at h
  obtain ⟨hscan, hpos⟩ := scanNumber_literal (intLiteral i) h (hstop.follows _)
  have htoken := (intLiteral i).token_of_int rfl p
  have hgathers := (intLiteral i).scanInt_gathers (p + (minusText (intLiteral i).minus).length)
  obtain ⟨i', hi', hval⟩ := (@intResult_gathers (intLiteral i).minus false _ _ hgathers).1 (by
      rw [← Literal.intValue, intLiteral_value]
      exact ⟨i.le_toInt, i.toInt_lt⟩)
  rw [← Literal.intValue, intLiteral_value, Int64.toInt_inj] at hval
  subst hval
  rw [numberToken, scan_bind_ok hscan, htoken]
  rw [htoken] at hpos
  simp only [Bool.false_eq_true, if_false]
  rw [scan_bind_ok hi']
  exact congrArg (fun q => (.ok (.integer i', q) : Scan (JsonNode D × ℕ))) hpos

end SJson
