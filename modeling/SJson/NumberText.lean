/-
# Number tokens as RFC 8259 writes them

A `Literal` is a number of RFC 8259 with the parts the grammar gives it, and `text` is how it
is written.  At a minus sign or a digit either a literal stands that nothing behind it could
continue (`Follows`), or the text breaks off in one of four ways (`BadNumber`); there is no
third case (`literal_or_bad`).

* `scanNumber_literal`: a literal is scanned to its end, and the counters of the scan are
  the folds of their steps over its digits (`Literal.token`);
* `scanNumber_bad`: the other texts are syntax errors;
* `jsonParseNumber_rfc8259`: what `json__parse_number` makes of the two.
-/
import SJson.LexerSpec
import SJson.Lib.Segment

namespace SJson

open Decimal Segment

/-! ## The grammar -/

/-- The text starts with a byte of this kind. -/
def Starts (f : UInt8 → Prop) (t : List UInt8) : Prop := ∃ c ∈ t.head?, f c

/-- `1*DIGIT`. -/
structure Digits where
  bytes : List UInt8
  ne : bytes ≠ []
  digits : ∀ c ∈ bytes, IsDigit c

/-- `e`, in both cases. -/
def IsMark (c : UInt8) : Prop := c = 0x65 ∨ c = 0x45

theorem isMark_e : IsMark 0x65 := .inl rfl

/-- `minus / plus`. -/
def IsSign (c : UInt8) : Prop := c = 0x2B ∨ c = 0x2D

/-- `exp = e [ minus / plus ] 1*DIGIT`. -/
structure Exponent where
  mark : UInt8
  sign : Option UInt8
  digits : Digits
  isMark : IsMark mark
  isSign : ∀ c ∈ sign, IsSign c

/-- `number = [ minus ] int [ frac ] [ exp ]`, where `int` is zero or starts with another
digit. -/
structure Literal where
  minus : Bool
  int : Digits
  frac : Option Digits
  exp : Option Exponent
  noZero : int.bytes.head? = some 0x30 → int.bytes = [0x30]

/-- `[ minus ]`. -/
def minusText (minus : Bool) : List UInt8 := if minus then [0x2D] else []

namespace Exponent

/-- The exponent as it is written. -/
def text (e : Exponent) : List UInt8 := e.mark :: (e.sign.toList ++ e.digits.bytes)

/-- The sign is a minus. -/
def negative (e : Exponent) : Bool := e.sign = some 0x2D

end Exponent

namespace Literal

/-- `[ frac ]`, with its decimal point. -/
def fracText (l : Literal) : List UInt8 :=
  match l.frac with
  | none => []
  | some ds => 0x2E :: ds.bytes

/-- `[ exp ]`. -/
def expText (l : Literal) : List UInt8 :=
  match l.exp with
  | none => []
  | some e => e.text

/-- The literal as it is written. -/
def text (l : Literal) : List UInt8 :=
  minusText l.minus ++ (l.int.bytes ++ (l.fracText ++ l.expText))

/-- The literal has a fraction or an exponent. -/
def isFloat (l : Literal) : Bool := l.frac.isSome || l.exp.isSome

/-- The text `t` does not continue the literal, nor a part of one that is missing. -/
structure Follows (l : Literal) (t : List UInt8) : Prop where
  digit : ¬ Starts IsDigit t
  mark : l.exp = none → ¬ Starts IsMark t
  point : l.frac = none → l.exp = none → ¬ Starts (· = 0x2E) t

end Literal

/-- The texts that start like a number and break off. -/
inductive BadNumber : List UInt8 → Prop
  /-- No digit follows the minus. -/
  | noDigit {t : List UInt8} (h : ¬ Starts IsDigit t) : BadNumber (0x2D :: t)
  /-- A digit follows a leading zero. -/
  | leadingZero {minus : Bool} {t : List UInt8} (h : Starts IsDigit t) :
      BadNumber (minusText minus ++ 0x30 :: t)
  /-- No digit follows the point. -/
  | noFraction {l : Literal} {t : List UInt8} (hfrac : l.frac = none) (hexp : l.exp = none)
      (h : ¬ Starts IsDigit t) : BadNumber (l.text ++ 0x2E :: t)
  /-- No digit follows the exponent mark and its sign, if there is one. -/
  | noExponent {l : Literal} {mark : UInt8} {sign : Option UInt8} {t : List UInt8}
      (hexp : l.exp = none) (hmark : IsMark mark) (hsign : ∀ c ∈ sign, IsSign c)
      (hnone : sign = none → ¬ Starts IsSign t) (h : ¬ Starts IsDigit t) :
      BadNumber (l.text ++ mark :: (sign.toList ++ t))

/-! ## What a text starts with -/

@[simp]
theorem starts_cons {f : UInt8 → Prop} {c : UInt8} {t : List UInt8} :
    Starts f (c :: t) ↔ f c := by
  simp [Starts]

@[simp]
theorem not_starts_nil {f : UInt8 → Prop} : ¬ Starts f [] := by
  simp [Starts]

theorem starts_iff {f : UInt8 → Prop} {t : List UInt8} :
    Starts f t ↔ ∃ c t', t = c :: t' ∧ f c := by
  cases t with
  | nil => simp
  | cons c t => simp

theorem Starts.append {f : UInt8 → Prop} {t : List UInt8} (h : Starts f t) (u : List UInt8) :
    Starts f (t ++ u) := by
  obtain ⟨c, t', rfl, hc⟩ := starts_iff.mp h
  exact starts_cons.mpr hc

theorem Digits.starts (ds : Digits) : Starts IsDigit ds.bytes := by
  obtain ⟨c, t, ht⟩ := List.exists_cons_of_ne_nil ds.ne
  rw [ht, starts_cons]
  exact ds.digits c (by rw [ht]; exact List.mem_cons_self ..)

/-- Bytes of different kinds start different texts. -/
theorem Starts.elim {f g : UInt8 → Prop} {t : List UInt8} (hf : Starts f t) (hg : Starts g t)
    (hfg : ∀ c, f c → ¬ g c) : False := by
  obtain ⟨c, t', rfl, hc⟩ := starts_iff.mp hf
  exact hfg c hc (starts_cons.mp hg)

theorem IsMark.not_digit {c : UInt8} (h : IsMark c) : ¬ IsDigit c := by
  rcases h with rfl | rfl <;> decide

theorem IsSign.not_digit {c : UInt8} (h : IsSign c) : ¬ IsDigit c := by
  rcases h with rfl | rfl <;> decide

theorem point_not_digit {c : UInt8} (h : c = 0x2E) : ¬ IsDigit c := by
  subst h
  decide

theorem IsMark.not_point {c : UInt8} (h : IsMark c) : ¬ c = 0x2E := by
  rcases h with rfl | rfl <;> decide

/-- The run of digits at the front of a text. -/
theorem exists_run {t : List UInt8} (h : Starts IsDigit t) :
    ∃ (ds : Digits) (u : List UInt8), t = ds.bytes ++ u ∧ ¬ Starts IsDigit u := by
  have hsplit : ∀ t : List UInt8, ∃ ds u, t = ds ++ u ∧ (∀ c ∈ ds, IsDigit c) ∧
      ¬ Starts IsDigit u := by
    intro t
    induction t with
    | nil => exact ⟨[], [], rfl, fun c hc => (by cases hc), not_starts_nil⟩
    | cons c t ih =>
      by_cases hc : IsDigit c
      · obtain ⟨ds, u, rfl, hds, hu⟩ := ih
        exact ⟨c :: ds, u, rfl, List.forall_mem_cons.mpr ⟨hc, hds⟩, hu⟩
      · exact ⟨[], c :: t, rfl, fun c hc => (by cases hc), by rwa [starts_cons]⟩
  obtain ⟨ds, u, rfl, hds, hu⟩ := hsplit t
  refine ⟨⟨ds, ?_, hds⟩, u, rfl, hu⟩
  rintro rfl
  exact hu h

/-- A run of digits that ends is as long as any other one there. -/
theorem run_prefix {ds ds' t t' : List UInt8} (hds' : ∀ c ∈ ds', IsDigit c)
    (ht : ¬ Starts IsDigit t) (h : ds ++ t = ds' ++ t') (hds : ∀ c ∈ ds, IsDigit c) :
    ∃ es, ds = ds' ++ es ∧ t' = es ++ t := by
  rcases List.append_eq_append_iff.mp h with ⟨es, rfl, hes⟩ | ⟨es, rfl, rfl⟩
  · cases es with
    | nil => exact ⟨[], by simp, by simpa using hes.symm⟩
    | cons c es =>
      -- the longer run goes on where the other one ends
      refine absurd ?_ ht
      rw [hes, List.cons_append, starts_cons]
      exact hds' c (by simp)
  · exact ⟨es, rfl, rfl⟩

/-! ## A literal or a break -/

/-- The literal with an exponent behind it. -/
def Literal.withExp (l : Literal) (e : Exponent) : Literal := { l with exp := some e }

theorem Literal.text_withExp {l : Literal} (hexp : l.exp = none) (e : Exponent) :
    (l.withExp e).text = l.text ++ e.text := by
  simp [Literal.withExp, Literal.text, Literal.fracText, Literal.expText, hexp]

/-- What can stand behind the integer part and the fraction. -/
theorem exponent_or_bad {l : Literal} (hexp : l.exp = none) {t : List UInt8}
    (hdigit : ¬ Starts IsDigit t) (hpoint : l.frac = none → ¬ Starts (· = 0x2E) t) :
    (∃ (l' : Literal) (r : List UInt8), l.text ++ t = l'.text ++ r ∧ l'.Follows r) ∨
      BadNumber (l.text ++ t) := by
  by_cases hmark : Starts IsMark t
  · obtain ⟨mark, t1, rfl, hm⟩ := starts_iff.mp hmark
    obtain ⟨sign, t2, rfl, hsign, hnone⟩ : ∃ (sign : Option UInt8) (t2 : List UInt8),
        t1 = sign.toList ++ t2 ∧ (∀ c ∈ sign, IsSign c) ∧ (sign = none → ¬ Starts IsSign t2) := by
      by_cases hs : Starts IsSign t1
      · obtain ⟨c, t2, rfl, hc⟩ := starts_iff.mp hs
        refine ⟨some c, t2, rfl, ?_, fun h => by cases h⟩
        rintro _ ⟨⟩
        exact hc
      · exact ⟨none, t1, rfl, fun c hc => (by cases hc), fun _ => hs⟩
    by_cases hd : Starts IsDigit t2
    · obtain ⟨ds, r, rfl, hend⟩ := exists_run hd
      let e : Exponent := ⟨mark, sign, ds, hm, hsign⟩
      left
      refine ⟨l.withExp e, r, ?_, hend, fun h => (by cases h), fun _ h => (by cases h)⟩
      rw [Literal.text_withExp hexp]
      simp [e, Exponent.text]
    · exact .inr (.noExponent hexp hm hsign hnone hd)
  · exact .inl ⟨l, t, rfl, hdigit, fun _ => hmark, fun hfrac _ => hpoint hfrac⟩

/-- **A number or a syntax error.**  At a minus sign or a digit a literal stands with
something behind it that does not continue it, or the text breaks off. -/
theorem literal_or_bad {t : List UInt8} (ht : Starts (fun c => c = 0x2D ∨ IsDigit c) t) :
    (∃ (l : Literal) (r : List UInt8), t = l.text ++ r ∧ l.Follows r) ∨ BadNumber t := by
  obtain ⟨minus, t1, rfl, hminus⟩ : ∃ minus t1, t = minusText minus ++ t1 ∧
      (minus = false → Starts IsDigit t1) := by
    obtain ⟨c, t', rfl, hc⟩ := starts_iff.mp ht
    rcases hc with rfl | hc
    · exact ⟨true, t', rfl, fun h => by cases h⟩
    · exact ⟨false, c :: t', rfl, fun _ => starts_cons.mpr hc⟩
  by_cases hdigit : Starts IsDigit t1
  · obtain ⟨int, t2, rfl, hint⟩ := exists_run hdigit
    by_cases hzero : int.bytes.head? = some 0x30 → int.bytes = [0x30]
    · let l : Literal := ⟨minus, int, none, none, hzero⟩
      have hl : ∀ u, minusText minus ++ (int.bytes ++ u) = l.text ++ u := fun u => by
        simp [l, Literal.text, Literal.fracText, Literal.expText]
      rw [hl]
      by_cases hpoint : Starts (· = 0x2E) t2
      · obtain ⟨-, t3, rfl, rfl⟩ := starts_iff.mp hpoint
        by_cases hfrac : Starts IsDigit t3
        · obtain ⟨frac, t4, rfl, hend⟩ := exists_run hfrac
          let l' : Literal := ⟨minus, int, some frac, none, hzero⟩
          have hl' : l.text ++ 0x2E :: (frac.bytes ++ t4) = l'.text ++ t4 := by
            simp [l, l', Literal.text, Literal.fracText, Literal.expText]
          rw [hl']
          exact exponent_or_bad rfl hend fun h => by cases h
        · exact .inr (.noFraction rfl rfl hfrac)
      · exact exponent_or_bad rfl hint fun _ => hpoint
    · -- more digits behind a zero
      obtain ⟨hhead, hne⟩ := Classical.not_imp.mp hzero
      obtain ⟨c, ds, hds⟩ := List.exists_cons_of_ne_nil int.ne
      rw [hds, List.head?_cons, Option.some.injEq] at hhead
      subst hhead
      have hmore : ds ≠ [] := fun h => hne (by rw [hds, h])
      obtain ⟨d, ds, rfl⟩ := List.exists_cons_of_ne_nil hmore
      have hd : IsDigit d := int.digits d (by rw [hds]; simp)
      right
      rw [hds]
      exact .leadingZero (t := d :: (ds ++ t2)) (starts_cons.mpr hd)
  · cases minus with
    | true => exact .inr (.noDigit hdigit)
    | false => exact absurd (hminus rfl) hdigit

/-! ## The longest literal -/

theorem Literal.starts_frac {l : Literal} (h : l.fracText ≠ []) (t : List UInt8) :
    Starts (· = 0x2E) (l.fracText ++ t) := by
  unfold Literal.fracText at *
  cases hfrac : l.frac with
  | none =>
    rw [hfrac] at h
    exact absurd rfl h
  | some ds => exact starts_cons.mpr rfl

theorem Literal.starts_exp {l : Literal} (h : l.expText ≠ []) (t : List UInt8) :
    Starts IsMark (l.expText ++ t) := by
  unfold Literal.expText at *
  cases hexp : l.exp with
  | none =>
    rw [hexp] at h
    exact absurd rfl h
  | some e => exact starts_cons.mpr e.isMark

/-- Behind a point or an exponent mark there is no digit run to continue. -/
theorem Literal.tail_of_digit {l : Literal} {t : List UInt8}
    (h : Starts IsDigit (l.fracText ++ (l.expText ++ t))) : l.fracText = [] ∧ l.expText = [] := by
  have hfrac : l.fracText = [] := by
    by_contra hne
    exact h.elim (l.starts_frac hne _) fun c hc hp => point_not_digit hp hc
  refine ⟨hfrac, ?_⟩
  rw [hfrac, List.nil_append] at h
  by_contra hne
  exact h.elim (l.starts_exp hne _) fun c hc hm => hm.not_digit hc

theorem minusText_inj {b b' : Bool} {t t' : List UInt8} (ht : Starts IsDigit t)
    (ht' : Starts IsDigit t') (h : minusText b ++ t = minusText b' ++ t') : b = b' ∧ t = t' := by
  have hne : ∀ {u u' : List UInt8}, Starts IsDigit u → u ≠ 0x2D :: u' := by
    rintro u u' hu rfl
    exact absurd (starts_cons.mp hu) (by decide)
  cases b with
  | true =>
    cases b' with
    | true => exact ⟨rfl, List.cons_inj_right _ |>.mp h⟩
    | false => exact absurd h.symm (hne ht')
  | false =>
    cases b' with
    | true => exact absurd h (hne ht)
    | false => exact ⟨rfl, h⟩

theorem Literal.int_starts (l : Literal) (t : List UInt8) : Starts IsDigit (l.int.bytes ++ t) :=
  l.int.starts.append t

/-- What follows a literal does not continue its digits. -/
theorem Literal.Follows.exp_tail {l : Literal} {r : List UInt8} (h : l.Follows r) :
    ¬ Starts IsDigit (l.expText ++ r) := by
  intro hd
  by_cases hexp : l.expText = []
  · rw [hexp] at hd
    exact h.digit hd
  · exact hd.elim (l.starts_exp hexp r) fun c hc hm => hm.not_digit hc

theorem Literal.Follows.frac_tail {l : Literal} {r : List UInt8} (h : l.Follows r) :
    ¬ Starts IsDigit (l.fracText ++ (l.expText ++ r)) := by
  intro hd
  obtain ⟨hfrac, hexp⟩ := Literal.tail_of_digit hd
  rw [hfrac, hexp] at hd
  exact h.digit hd

/-- A sign is there or not. -/
theorem sign_inj {s s' : Option UInt8} {t t' : List UInt8} (hs : ∀ c ∈ s, IsSign c)
    (hs' : ∀ c ∈ s', IsSign c) (ht : Starts IsDigit t) (ht' : Starts IsDigit t')
    (h : s.toList ++ t = s'.toList ++ t') : t = t' := by
  cases s with
  | none =>
    cases s' with
    | none => exact h
    | some c =>
      rw [show t = c :: t' from h, starts_cons] at ht
      exact absurd ht (hs' c rfl).not_digit
  | some b =>
    cases s' with
    | none =>
      rw [show t' = b :: t from h.symm, starts_cons] at ht'
      exact absurd ht' (hs b rfl).not_digit
    | some c => exact (List.cons.inj h).2

theorem Literal.expText_eq_nil {l : Literal} : l.expText = [] ↔ l.exp = none := by
  unfold Literal.expText
  cases l.exp with
  | none => simp
  | some e => simp [Exponent.text]

theorem Literal.Follows.exp_longest {l l' : Literal} {r r' : List UInt8} (h : l.Follows r)
    (heq : l.expText ++ r = l'.expText ++ r') : l'.expText.length ≤ l.expText.length := by
  by_cases hexp' : l'.expText = []
  · rw [hexp']
    exact Nat.zero_le _
  have hmark := l'.starts_exp hexp' r'
  rw [← heq] at hmark
  unfold Literal.expText at *
  cases hexp : l.exp with
  | none =>
    rw [hexp] at hmark
    exact absurd hmark (h.mark hexp)
  | some e =>
    cases hexp2 : l'.exp with
    | none =>
      rw [hexp2] at hexp'
      exact absurd rfl hexp'
    | some e' =>
      rw [hexp, hexp2] at heq
      simp only [Exponent.text, List.cons_append, List.append_assoc, List.cons.injEq] at heq ⊢
      obtain ⟨-, heq⟩ := heq
      have hdigits := sign_inj e.isSign e'.isSign (e.digits.starts.append r)
        (e'.digits.starts.append r') heq
      rw [hdigits] at heq
      have hsign : e.sign.toList = e'.sign.toList := List.append_cancel_right heq
      obtain ⟨es, hes, -⟩ := run_prefix e'.digits.digits h.digit hdigits e.digits.digits
      rw [hes, hsign]
      simp only [List.length_cons, List.length_append]
      omega

theorem Literal.Follows.frac_longest {l l' : Literal} {r r' : List UInt8} (h : l.Follows r)
    (heq : l.fracText ++ (l.expText ++ r) = l'.fracText ++ (l'.expText ++ r')) :
    l'.fracText.length + l'.expText.length ≤ l.fracText.length + l.expText.length := by
  by_cases hfrac' : l'.fracText = []
  · rw [hfrac', List.nil_append] at heq
    by_cases hfrac : l.fracText = []
    · rw [hfrac, List.nil_append] at heq
      have hle := h.exp_longest heq
      rw [hfrac']
      simp only [List.length_nil]
      omega
    · -- a point is no exponent mark
      have hpoint := l.starts_frac hfrac (l.expText ++ r)
      rw [heq] at hpoint
      have hexp' : l'.expText = [] := by
        by_contra hne
        exact hpoint.elim (l'.starts_exp hne r') fun c hc hm => hm.not_point hc
      rw [hfrac', hexp']
      exact Nat.zero_le _
  have hpoint := l'.starts_frac hfrac' (l'.expText ++ r')
  rw [← heq] at hpoint
  unfold Literal.fracText at *
  cases hfrac : l.frac with
  | none =>
    rw [hfrac, List.nil_append] at hpoint
    by_cases hexp : l.expText = []
    · rw [hexp] at hpoint
      exact absurd hpoint (h.point hfrac (Literal.expText_eq_nil.mp hexp))
    · exact (hpoint.elim (l.starts_exp hexp r) fun c hc hm => hm.not_point hc).elim
  | some ds =>
    cases hfrac2 : l'.frac with
    | none =>
      rw [hfrac2] at hfrac'
      exact absurd rfl hfrac'
    | some ds' =>
      rw [hfrac, hfrac2] at heq
      obtain ⟨es, hes, htail⟩ := run_prefix ds'.digits h.exp_tail (List.cons.inj heq).2 ds.digits
      simp only [hes, List.length_cons, List.length_append]
      cases es with
      | nil =>
        have hle := h.exp_longest htail.symm
        omega
      | cons c es =>
        have hc : IsDigit c := ds.digits c (by rw [hes]; simp)
        have hexp' : l'.expText = [] := by
          by_contra hne
          refine (l'.starts_exp hne r').elim (g := IsDigit) ?_ fun c hm => hm.not_digit
          rw [htail]
          exact starts_cons.mpr hc
        rw [hexp', List.length_nil]
        omega

/-- **Maximal munch.**  No literal at the same place is longer than one that nothing behind it
continues. -/
theorem Literal.Follows.longest {l l' : Literal} {r r' : List UInt8} (h : l.Follows r)
    (heq : l.text ++ r = l'.text ++ r') : l'.text.length ≤ l.text.length := by
  unfold Literal.text at *
  simp only [List.append_assoc] at heq
  obtain ⟨hminus, heq⟩ := minusText_inj (l.int_starts _) (l'.int_starts _) heq
  obtain ⟨es, hint, htail⟩ := run_prefix l'.int.digits h.frac_tail heq l.int.digits
  simp only [List.length_append, hminus, hint]
  -- the other literal ends within the integer part, or has the same one
  cases es with
  | nil =>
    have hle := h.frac_longest htail.symm
    omega
  | cons c es =>
    have hc : IsDigit c := l.int.digits c (by rw [hint]; simp)
    obtain ⟨hfrac', hexp'⟩ := l'.tail_of_digit (t := r') (by
      rw [htail, List.cons_append]
      exact starts_cons.mpr hc)
    rw [hfrac', hexp']
    simp only [List.length_nil]
    omega

/-! ## Scanning a literal -/

/-- One digit of the exponent: `exp_val` and `fast_ok`. -/
def expStep (r : ℤ × Bool) (c : UInt8) : ℤ × Bool :=
  if r.1 > 1000 then (r.1, false) else (int32 (r.1 * 10 + (c.toNat - 0x30 : ℕ)), r.2)

namespace Literal

/-- The counters behind the integer part that starts at `pos`. -/
def scanInt (l : Literal) (pos : ℕ) : NumScan :=
  l.int.bytes.foldl (digitStep false) ⟨pos, true, 0, 0, 0⟩

/-- The counters behind the fraction. -/
def scanFrac (l : Literal) (n : NumScan) : NumScan :=
  match l.frac with
  | none => n
  | some ds => ds.bytes.foldl (digitStep true) { n with pos := n.pos + 1 }

/-- The counters behind the exponent. -/
def scanExp (l : Literal) (n : NumScan) : NumScan :=
  match l.exp with
  | none => n
  | some e =>
    let r := e.digits.bytes.foldl expStep (0, n.fastOk)
    { n with
      pos := n.pos + e.text.length
      fastOk := r.2
      fastExp10 := int32 (n.fastExp10 + if e.negative then int32 (-r.1) else r.1) }

/-- What is scanned of a literal that starts at `start`. -/
def token (l : Literal) (start : ℕ) : NumToken :=
  ⟨l.minus, l.isFloat, l.scanExp (l.scanFrac (l.scanInt (start + (minusText l.minus).length)))⟩

end Literal

variable {src : List UInt8}

theorem starts_drop {f : UInt8 → Prop} {q : ℕ} :
    Starts f (src.drop q) ↔ ∃ c, src[q]? = some c ∧ f c := by
  unfold Starts
  rw [List.head?_drop]
  rfl

theorem any_eq_true {f : UInt8 → Bool} {q : ℕ} :
    src[q]?.any f = true ↔ Starts (fun c => f c = true) (src.drop q) := by
  rw [starts_drop, Option.any_eq_true]

theorem any_isDigit {q : ℕ} : src[q]?.any isDigit = true ↔ Starts IsDigit (src.drop q) := by
  rw [any_eq_true]
  simp only [isDigit_iff]

/-- The digit loops run over the digits that are there. -/
theorem digitsLoop_foldl (fraction : Bool) : ∀ {b : List UInt8} {fuel q : ℕ} {n : NumScan},
    Spells src n.pos b q → (∀ c ∈ b, IsDigit c) → ¬ Starts IsDigit (src.drop q) →
    src.length - n.pos ≤ fuel →
    digitsLoop src fraction fuel n = .ok (b.foldl (digitStep fraction) n) := by
  intro b
  induction b with
  | nil =>
    intro fuel q n h _ hend hfuel
    obtain rfl := spells_nil.mp h
    cases fuel with
    | zero => exact if_neg (by omega)
    | succ fuel =>
      rw [digitsLoop]
      by_cases hlt : n.pos < src.length
      · have hd : ¬ isDigit src[n.pos] = true := fun hd =>
          hend (starts_drop.mpr ⟨_, List.getElem?_eq_getElem hlt, isDigit_iff.mp hd⟩)
        rw [if_pos hlt, scan_bind_ok (rd_of_lt hlt), if_neg hd]
        rfl
      · rw [if_neg hlt]
        rfl
  | cons c b ih =>
    intro fuel q n h hall hend hfuel
    obtain ⟨hc, hrest⟩ := spells_cons.mp h
    obtain ⟨hd, hall⟩ := List.forall_mem_cons.mp hall
    have hlt := (List.getElem?_eq_some_iff.mp hc).1
    obtain ⟨fuel, rfl⟩ : ∃ k, fuel = k + 1 := ⟨fuel - 1, by omega⟩
    have hpos := digitStep_pos fraction n c
    rw [digitsLoop_succ hc (isDigit_iff.mpr hd), List.foldl_cons]
    exact ih (hpos ▸ hrest) hall hend (by omega)

theorem foldl_digitStep_pos (fraction : Bool) (b : List UInt8) : ∀ n : NumScan,
    (b.foldl (digitStep fraction) n).pos = n.pos + b.length := by
  induction b with
  | nil => intro n; rfl
  | cons c b ih =>
    intro n
    rw [List.foldl_cons, ih, digitStep_pos, List.length_cons]
    omega

/-- The loop over the digits of the exponent. -/
theorem expLoop_foldl : ∀ {b : List UInt8} {fuel p q : ℕ} {r : ℤ × Bool},
    Spells src p b q → (∀ c ∈ b, IsDigit c) → ¬ Starts IsDigit (src.drop q) →
    src.length - p ≤ fuel →
    expLoop src fuel p r.1 r.2 = .ok (q, (b.foldl expStep r).1, (b.foldl expStep r).2) := by
  intro b
  induction b with
  | nil =>
    intro fuel p q r h _ hend hfuel
    obtain rfl := spells_nil.mp h
    cases fuel with
    | zero => exact if_neg (by omega)
    | succ fuel =>
      rw [expLoop]
      by_cases hlt : q < src.length
      · have hd : ¬ isDigit src[q] = true := fun hd =>
          hend (starts_drop.mpr ⟨_, List.getElem?_eq_getElem hlt, isDigit_iff.mp hd⟩)
        rw [if_pos hlt, scan_bind_ok (rd_of_lt hlt), if_neg hd]
        rfl
      · rw [if_neg hlt]
        rfl
  | cons c b ih =>
    intro fuel p q r h hall hend hfuel
    obtain ⟨hc, hrest⟩ := spells_cons.mp h
    obtain ⟨hd, hall⟩ := List.forall_mem_cons.mp hall
    have hlt := (List.getElem?_eq_some_iff.mp hc).1
    obtain ⟨fuel, rfl⟩ : ∃ k, fuel = k + 1 := ⟨fuel - 1, by omega⟩
    have hnext := @ih fuel _ _ (expStep r c) hrest hall hend (by omega)
    rw [expLoop, if_pos hlt, scan_bind_ok (rd_of_some hc), if_pos (isDigit_iff.mpr hd),
      List.foldl_cons, ← hnext, expStep]
    split_ifs <;> rfl

/-- The integer part: a zero is counted like the other digits. -/
theorem intPart_literal (l : Literal) {pos q : ℕ} (h : Spells src pos l.int.bytes q)
    (hend : ¬ Starts IsDigit (src.drop q)) :
    intPart src ⟨pos, true, 0, 0, 0⟩ = .ok (l.scanInt pos) := by
  obtain ⟨c, ds, hds⟩ := List.exists_cons_of_ne_nil l.int.ne
  have hget := (spells_cons.mp (hds ▸ h)).1
  have hdigit : IsDigit c := l.int.digits c (by rw [hds]; exact List.mem_cons_self ..)
  rw [intPart, scan_bind_ok (rd_of_some hget)]
  by_cases hzero : c = 0x30
  · have hint := l.noZero (by rw [hds, hzero]; rfl)
    rw [hint] at h
    obtain rfl : q = pos + 1 := h.eq
    have hno : ¬ src[pos + 1]?.any isDigit = true := mt any_isDigit.mp hend
    rw [if_pos hzero, scan_bind_ok (digitAt_eq ..), if_neg hno, Literal.scanInt, hint]
    rfl
  · rw [if_neg hzero, if_pos (isDigit_iff.mpr hdigit)]
    exact digitsLoop_foldl false h l.int.digits hend le_rfl

theorem Literal.scanInt_pos (l : Literal) (pos : ℕ) :
    (l.scanInt pos).pos = pos + l.int.bytes.length := foldl_digitStep_pos ..

theorem Literal.scanFrac_pos (l : Literal) (n : NumScan) :
    (l.scanFrac n).pos = n.pos + l.fracText.length := by
  unfold Literal.scanFrac Literal.fracText
  cases l.frac with
  | none => rfl
  | some ds =>
    simp only [foldl_digitStep_pos, List.length_cons]
    omega

theorem Literal.scanExp_pos (l : Literal) (n : NumScan) :
    (l.scanExp n).pos = n.pos + l.expText.length := by
  unfold Literal.scanExp Literal.expText
  cases l.exp with
  | none => rfl
  | some e => rfl

theorem fracPart_literal (l : Literal) {n : NumScan} {q : ℕ} (h : Spells src n.pos l.fracText q)
    (hend : ¬ Starts IsDigit (src.drop q))
    (hpoint : l.frac = none → ¬ Starts (· = 0x2E) (src.drop q)) :
    fracPart src n = .ok (l.scanFrac n, l.frac.isSome) := by
  unfold Literal.fracText at h
  unfold Literal.scanFrac
  rw [fracPart, scan_bind_ok (byteAt_eq ..)]
  cases hfrac : l.frac with
  | none =>
    rw [hfrac] at h
    obtain rfl := spells_nil.mp h
    rw [if_neg]
    · rfl
    · intro hdot
      apply hpoint hfrac
      obtain ⟨c, hc, hdot⟩ := starts_drop.mp (any_eq_true.mp hdot)
      exact starts_drop.mpr ⟨c, hc, by simpa using hdot⟩
  | some ds =>
    rw [hfrac] at h
    obtain ⟨hget, hrest⟩ := spells_cons.mp h
    have hdigit : src[n.pos + 1]?.any isDigit = true := by
      rw [any_isDigit, hrest.drop_eq]
      exact ds.starts.append _
    rw [if_pos (by rw [hget]; rfl)]
    show (do
      if ← digitAt src (n.pos + 1) then _ else _) = _
    rw [scan_bind_ok (digitAt_eq ..), if_pos hdigit,
      scan_bind_ok (digitsLoop_foldl true (n := { n with pos := n.pos + 1 }) hrest ds.digits hend
        le_rfl)]
    rfl

theorem byteAt_mark {p : ℕ} : src[p]?.any [0x65, 0x45].contains = true ↔
    Starts IsMark (src.drop p) := by
  rw [any_eq_true]
  simp [IsMark, Starts]

theorem byteAt_sign {p : ℕ} : src[p]?.any [0x2B, 0x2D].contains = true ↔
    Starts IsSign (src.drop p) := by
  rw [any_eq_true]
  simp [IsSign, Starts]

theorem expDigits_run {n : NumScan} {pos q : ℕ} {expNeg : Bool} {ds : Digits}
    (h : Spells src pos ds.bytes q) (hend : ¬ Starts IsDigit (src.drop q)) :
    expDigits src n pos expNeg = .ok ({ n with
      pos := q
      fastOk := (ds.bytes.foldl expStep (0, n.fastOk)).2
      fastExp10 := int32 (n.fastExp10 + if expNeg
        then int32 (-(ds.bytes.foldl expStep (0, n.fastOk)).1)
        else (ds.bytes.foldl expStep (0, n.fastOk)).1) }, true) := by
  have hdigit : src[pos]?.any isDigit = true := by
    rw [any_isDigit, h.drop_eq]
    exact ds.starts.append _
  have hloop := expLoop_foldl (r := (0, n.fastOk)) h ds.digits hend le_rfl
  rw [expDigits, scan_bind_ok (digitAt_eq ..), if_pos hdigit, scan_bind_ok hloop]
  rfl

theorem expDigits_none {n : NumScan} {pos : ℕ} {expNeg : Bool}
    (h : ¬ Starts IsDigit (src.drop pos)) :
    expDigits src n pos expNeg = .error (.err .invalidNumber) := by
  have hno : ¬ src[pos]?.any isDigit = true := mt any_isDigit.mp h
  rw [expDigits, scan_bind_ok (digitAt_eq ..), if_neg hno]

/-- Behind an exponent mark and its sign, or a mark without one. -/
theorem expPart_mark {n : NumScan} {mark : UInt8} {sign : Option UInt8} {q : ℕ}
    (hmark : IsMark mark) (hsign : ∀ c ∈ sign, IsSign c)
    (h : Spells src n.pos (mark :: sign.toList) q)
    (hnone : sign = none → ¬ Starts IsSign (src.drop q)) :
    expPart src n = expDigits src n q (sign = some 0x2D) := by
  obtain ⟨hget, hrest⟩ := spells_cons.mp h
  have hm : src[n.pos]?.any [0x65, 0x45].contains = true :=
    byteAt_mark.mpr (starts_drop.mpr ⟨mark, hget, hmark⟩)
  rw [expPart, scan_bind_ok (byteAt_eq ..), if_pos hm, scan_bind_ok (byteAt_eq ..)]
  cases sign with
  | none =>
    obtain rfl := spells_nil.mp hrest
    rw [if_neg (mt byteAt_sign.mp (hnone rfl))]
    rfl
  | some c =>
    obtain ⟨hget', hrest⟩ := spells_cons.mp hrest
    obtain rfl := spells_nil.mp hrest
    have hc := hsign c rfl
    rw [if_pos (byteAt_sign.mpr (starts_drop.mpr ⟨c, hget', hc⟩)), scan_bind_ok (byteAt_eq ..),
      hget']
    congr 1
    rcases hc with rfl | rfl <;> decide

theorem expPart_literal (l : Literal) {n : NumScan} {q : ℕ} (h : Spells src n.pos l.expText q)
    (hend : ¬ Starts IsDigit (src.drop q))
    (hmark : l.exp = none → ¬ Starts IsMark (src.drop q)) :
    expPart src n = .ok (l.scanExp n, l.exp.isSome) := by
  unfold Literal.expText at h
  unfold Literal.scanExp
  cases hexp : l.exp with
  | none =>
    rw [hexp] at h
    obtain rfl := spells_nil.mp h
    rw [expPart, scan_bind_ok (byteAt_eq ..), if_neg (mt byteAt_mark.mp (hmark hexp))]
    rfl
  | some e =>
    rw [hexp] at h
    have htext : Spells src n.pos (e.mark :: e.sign.toList ++ e.digits.bytes) q := h
    obtain ⟨r, hhead, hdigits⟩ := spells_append.mp htext
    have hnone : e.sign = none → ¬ Starts IsSign (src.drop r) := by
      intro _ hs
      refine hs.elim (g := IsDigit) ?_ fun c hc => hc.not_digit
      rw [hdigits.drop_eq]
      exact e.digits.starts.append _
    rw [expPart_mark e.isMark e.isSign hhead hnone, expDigits_run hdigits hend, h.eq]
    rfl

/-- What `json__parse_number` scans behind the minus, for a token that starts at `start`. -/
def scanTail (src : List UInt8) (minus : Bool) (pos : ℕ) : Scan NumToken := do
  let n ← intPart src ⟨pos, true, 0, 0, 0⟩
  let (n, hasFrac) ← fracPart src n
  let (n, hasExp) ← expPart src n
  return ⟨minus, hasFrac || hasExp, n⟩

/-- The minus is there or a digit is. -/
theorem scanNumber_minus {minus : Bool} {p q : ℕ} (h : Spells src p (minusText minus) q)
    (hdigit : minus = false → Starts IsDigit (src.drop q)) :
    scanNumber src p =
      if q ≥ src.length then .error (.err .unexpectedEof) else scanTail src minus q := by
  have hneg : src[p]?.any [0x2D].contains = minus ∧ (if minus then p + 1 else p) = q := by
    cases minus with
    | true =>
      obtain ⟨hget, hrest⟩ := spells_cons.mp h
      exact ⟨by rw [hget]; rfl, (spells_nil.mp hrest).symm⟩
    | false =>
      obtain rfl := spells_nil.mp h
      refine ⟨?_, rfl⟩
      rw [← Bool.not_eq_true, any_eq_true]
      intro hm
      refine (hdigit rfl).elim hm fun c hc hminus => ?_
      rw [show c = 0x2D by simpa using hminus] at hc
      exact absurd hc (by decide)
  rw [scanNumber, scan_bind_ok (byteAt_eq ..), hneg.1]
  simp only [hneg.2]
  rfl

/-- The scan gets behind the integer part. -/
theorem scanNumber_int (l : Literal) {p p0 q : ℕ} (hminus : Spells src p (minusText l.minus) p0)
    (hint : Spells src p0 l.int.bytes q) (hend : ¬ Starts IsDigit (src.drop q)) :
    (l.scanInt p0).pos = q ∧ scanNumber src p = do
      let (n, hasFrac) ← fracPart src (l.scanInt p0)
      let (n, hasExp) ← expPart src n
      return ⟨l.minus, hasFrac || hasExp, n⟩ := by
  have hstart : Starts IsDigit (src.drop p0) := by
    rw [hint.drop_eq]
    exact l.int_starts _
  have hlt : p0 < src.length := by
    obtain ⟨c, hc, -⟩ := starts_drop.mp hstart
    exact (List.getElem?_eq_some_iff.mp hc).1
  refine ⟨(l.scanInt_pos p0).trans hint.eq.symm, ?_⟩
  rw [scanNumber_minus hminus fun _ => hstart, if_neg (not_le.mpr hlt), scanTail,
    scan_bind_ok (intPart_literal l hint hend)]

/-- The scan gets behind the fraction. -/
theorem scanNumber_frac (l : Literal) {p p0 p1 q : ℕ}
    (hminus : Spells src p (minusText l.minus) p0) (hint : Spells src p0 l.int.bytes p1)
    (hfrac : Spells src p1 l.fracText q) (hend : ¬ Starts IsDigit (src.drop q))
    (hpoint : l.frac = none → ¬ Starts (· = 0x2E) (src.drop q)) :
    (l.scanFrac (l.scanInt p0)).pos = q ∧ scanNumber src p = do
      let (n, hasExp) ← expPart src (l.scanFrac (l.scanInt p0))
      return ⟨l.minus, l.frac.isSome || hasExp, n⟩ := by
  have hend1 : ¬ Starts IsDigit (src.drop p1) := by
    intro hd
    rw [hfrac.drop_eq] at hd
    by_cases hnone : l.fracText = []
    · rw [hnone] at hd
      exact hend hd
    · exact hd.elim (l.starts_frac hnone _) fun c hc hp => point_not_digit hp hc
  obtain ⟨hpos, hscan⟩ := scanNumber_int l hminus hint hend1
  have hpart := fracPart_literal l (n := l.scanInt p0) (hpos.symm ▸ hfrac) hend hpoint
  refine ⟨by rw [l.scanFrac_pos, hpos, hfrac.eq], ?_⟩
  rw [hscan, scan_bind_ok hpart]

/-- **A literal is scanned to its end**, and its counters are the folds over its digits. -/
theorem scanNumber_literal (l : Literal) {p q : ℕ} (h : Spells src p l.text q)
    (hfollows : l.Follows (src.drop q)) :
    scanNumber src p = .ok (l.token p) ∧ (l.token p).scan.pos = q := by
  obtain ⟨p0, hminus, h0⟩ := spells_append.mp h
  obtain ⟨p1, hint, h1⟩ := spells_append.mp h0
  obtain ⟨p2, hfrac, hexp⟩ := spells_append.mp h1
  have hend : ¬ Starts IsDigit (src.drop p2) := by
    rw [hexp.drop_eq]
    exact hfollows.exp_tail
  have hpoint : l.frac = none → ¬ Starts (· = 0x2E) (src.drop p2) := by
    intro hf hs
    rw [hexp.drop_eq] at hs
    by_cases he : l.expText = []
    · rw [he] at hs
      exact hfollows.point hf (Literal.expText_eq_nil.mp he) hs
    · exact hs.elim (l.starts_exp he _) fun c hc hm => hm.not_point hc
  obtain ⟨hpos, hscan⟩ := scanNumber_frac l hminus hint hfrac hend hpoint
  have hpart := expPart_literal l (hpos.symm ▸ hexp) hfollows.digit hfollows.mark
  have hstart : p + (minusText l.minus).length = p0 := hminus.eq.symm
  constructor
  · rw [hscan, scan_bind_ok hpart, Literal.token, hstart]
    rfl
  · show (l.scanExp (l.scanFrac (l.scanInt _))).pos = q
    rw [hstart, l.scanExp_pos, hpos, hexp.eq]

theorem spells_of_drop {p : ℕ} {a t : List UInt8} (h : src.drop p = a ++ t) :
    Spells src p a (p + a.length) ∧ src.drop (p + a.length) = t := by
  refine ⟨⟨rfl, t, h.symm⟩, ?_⟩
  rw [← List.drop_drop, h, List.drop_left]

/-- **Broken numbers are syntax errors.** -/
theorem scanNumber_bad {p : ℕ} (h : BadNumber (src.drop p)) :
    ∃ e, scanNumber src p = .error (.err e) ∧ (e = .invalidNumber ∨ e = .unexpectedEof) := by
  generalize ht : src.drop p = t at h
  cases h with
  | @noDigit t hno =>
    obtain ⟨hminus, hrest⟩ := spells_of_drop (a := minusText true) ht
    rw [scanNumber_minus hminus fun h => by cases h]
    by_cases heof : p + (minusText true).length ≥ src.length
    · exact ⟨_, if_pos heof, .inr rfl⟩
    · have hlt := not_le.mp heof
      have hnd : ¬ IsDigit src[p + (minusText true).length] := fun hd =>
        hno (by rw [← hrest]; exact starts_drop.mpr ⟨_, List.getElem?_eq_getElem hlt, hd⟩)
      have hzero : ¬ src[p + (minusText true).length] = 0x30 := fun hz => hnd (by rw [hz]; decide)
      have hpart : intPart src ⟨p + (minusText true).length, true, 0, 0, 0⟩ =
          .error (.err .invalidNumber) := by
        rw [intPart, scan_bind_ok (rd_of_lt hlt), if_neg hzero, if_neg (mt isDigit_iff.mp hnd)]
      exact ⟨_, by rw [if_neg heof, scanTail, scan_bind_error hpart], .inl rfl⟩
  | @leadingZero minus t hdigit =>
    obtain ⟨hminus, hrest⟩ := spells_of_drop ht
    obtain ⟨hzero, hrest'⟩ := spells_of_drop (a := [0x30]) hrest
    have hget := (spells_cons.mp hzero).1
    have hlt := (List.getElem?_eq_some_iff.mp hget).1
    have hpart : intPart src ⟨p + (minusText minus).length, true, 0, 0, 0⟩ =
        .error (.err .invalidNumber) := by
      have hnext : src[p + (minusText minus).length + 1]?.any isDigit = true := by
        rw [any_isDigit]
        rw [← hrest'] at hdigit
        exact hdigit
      rw [intPart, scan_bind_ok (rd_of_some hget), if_pos rfl, scan_bind_ok (digitAt_eq ..),
        if_pos hnext]
    refine ⟨_, ?_, .inl rfl⟩
    rw [scanNumber_minus hminus fun _ => by rw [hrest]; exact starts_cons.mpr (by decide),
      if_neg (not_le.mpr hlt), scanTail, scan_bind_error hpart]
  | @noFraction l t hfrac hexp hno =>
    obtain ⟨htext, hrest⟩ := spells_of_drop ht
    obtain ⟨p0, hminus, h0⟩ := spells_append.mp htext
    obtain ⟨p1, hint, h1⟩ := spells_append.mp h0
    have hnil : l.fracText ++ l.expText = [] := by
      simp [Literal.fracText, Literal.expText, hfrac, hexp]
    rw [hnil] at h1
    rw [spells_nil.mp h1] at hrest
    obtain ⟨hdot, hrest'⟩ := spells_of_drop (a := [0x2E]) hrest
    have hend : ¬ Starts IsDigit (src.drop p1) := by
      rw [hrest, starts_cons]
      decide
    obtain ⟨hpos, hscan⟩ := scanNumber_int l hminus hint hend
    have hpart : fracPart src (l.scanInt p0) = .error (.err .invalidNumber) := by
      have hdot' : src[(l.scanInt p0).pos]?.any [0x2E].contains = true := by
        rw [hpos, (spells_cons.mp hdot).1]
        rfl
      have hnd : ¬ src[(l.scanInt p0).pos + 1]?.any isDigit = true := by
        rw [hpos, any_isDigit]
        rw [← hrest'] at hno
        exact hno
      rw [fracPart, scan_bind_ok (byteAt_eq ..), if_pos hdot']
      show (do
        if ← digitAt src ((l.scanInt p0).pos + 1) then _ else _) = _
      rw [scan_bind_ok (digitAt_eq ..), if_neg hnd]
    exact ⟨_, by rw [hscan, scan_bind_error hpart], .inl rfl⟩
  | @noExponent l mark sign t hexp hmark hsign hnone hno =>
    obtain ⟨htext, hrest⟩ := spells_of_drop ht
    obtain ⟨p0, hminus, h0⟩ := spells_append.mp htext
    obtain ⟨p1, hint, h1⟩ := spells_append.mp h0
    rw [Literal.expText_eq_nil.mpr hexp, List.append_nil] at h1
    have hrest0 : src.drop (p + l.text.length) = (mark :: sign.toList) ++ t := hrest
    obtain ⟨hhead, hrest'⟩ := spells_of_drop hrest0
    have hmark' : Starts IsMark (src.drop (p + l.text.length)) := by
      rw [hrest]
      exact starts_cons.mpr hmark
    obtain ⟨hpos, hscan⟩ := scanNumber_frac l hminus hint h1
      (fun hd => hd.elim hmark' fun c hc hm => hm.not_digit hc)
      fun _ hs => hs.elim hmark' fun c hc hm => hm.not_point hc
    rw [← hpos] at hhead hrest'
    have hpart := expPart_mark hmark hsign hhead (by rw [hrest']; exact hnone)
    rw [expDigits_none (by rw [hrest']; exact hno)] at hpart
    exact ⟨_, by rw [hscan, scan_bind_error hpart], .inl rfl⟩

/-! ## The mantissa -/

/-- The counters of the scan hold the digits whose value is `v`: all of them as long as
`fast_ok` is set, and the first nineteen significant ones otherwise. -/
structure Gathers (n : NumScan) (v : ℕ) : Prop where
  sig_le : n.fastSig ≤ 19
  mant_lt : n.fastMant < 10 ^ n.fastSig
  exact : n.fastOk = true → n.fastMant = v
  zero : n.fastSig = 0 → v = 0
  full : n.fastSig ≠ 0 → 10 ^ (n.fastSig - 1) ≤ v
  large : n.fastOk = false → 10 ^ 19 ≤ v

theorem gathers_start (pos : ℕ) : Gathers ⟨pos, true, 0, 0, 0⟩ 0 :=
  ⟨Nat.zero_le _, Nat.one_pos, fun _ => rfl, fun _ => rfl, fun h => absurd rfl h,
    fun h => (by cases h)⟩

/-- The accumulator has room for a digit wherever the code adds one. -/
theorem Gathers.room {n : NumScan} {v d : ℕ} (h : Gathers n v) (hsig : n.fastSig < 19)
    (hd : d < 10) : n.fastMant * 10 + d < 10 ^ (n.fastSig + 1) ∧
      n.fastMant * 10 + d < 2 ^ 64 := by
  have hlt := h.mant_lt
  have hmono : 10 ^ (n.fastSig + 1) ≤ 10 ^ 19 := Nat.pow_le_pow_right (by decide) (by omega)
  have hstep : n.fastMant * 10 + d < 10 ^ (n.fastSig + 1) := by
    rw [pow_succ]
    omega
  have hmax : (10 : ℕ) ^ 19 < 2 ^ 64 := by norm_num
  exact ⟨hstep, by omega⟩

/-- One more digit. -/
theorem Gathers.fastDigit {n : NumScan} {v d : ℕ} (h : Gathers n v) (hd : d < 10) :
    Gathers (fastDigit n d) (v * 10 + d) := by
  unfold SJson.fastDigit
  by_cases hskip : n.fastSig ≠ 0 ∨ d ≠ 0
  · rw [if_pos hskip]
    by_cases hfull : n.fastSig ≥ 19
    · rw [if_pos hfull]
      have hsig : n.fastSig = 19 := le_antisymm h.sig_le hfull
      have hlow := h.full (by omega)
      rw [hsig] at hlow
      refine ⟨h.sig_le, h.mant_lt, fun hok => (by cases hok),
        fun hz => absurd (hsig.symm.trans hz) (by decide), fun _ => ?_, fun _ => by omega⟩
      show 10 ^ (n.fastSig - 1) ≤ _
      rw [hsig]
      omega
    · rw [if_neg hfull]
      obtain ⟨hlt, hwrap⟩ := h.room (not_le.mp hfull) hd
      rw [Nat.mod_eq_of_lt hwrap]
      refine ⟨by show n.fastSig + 1 ≤ 19; omega, hlt, ?_, fun hz => absurd hz (Nat.succ_ne_zero _),
        fun _ => ?_, ?_⟩
      · intro hok
        show n.fastMant * 10 + d = _
        rw [h.exact hok]
      · show 10 ^ n.fastSig ≤ _
        by_cases hsig : n.fastSig = 0
        · rw [hsig]
          have := h.zero hsig
          omega
        · have hlow := h.full hsig
          have hpow : 10 ^ n.fastSig = 10 ^ (n.fastSig - 1) * 10 := by
            rw [← pow_succ, Nat.sub_add_cancel (by omega)]
          omega
      · intro hok
        have := h.large hok
        omega
  · rw [if_neg hskip]
    simp only [not_or, not_not] at hskip
    have hv := h.zero hskip.1
    rw [hskip.2, hv]
    rwa [hv] at h

theorem Gathers.digitStep {n : NumScan} {v : ℕ} {c : UInt8} (h : Gathers n v) (hc : IsDigit c)
    (fraction : Bool) : Gathers (digitStep fraction n c) (v * 10 + digit c) := by
  obtain ⟨h1, h2, h3, h4, h5, h6⟩ := h.fastDigit hc.digit_lt
  exact ⟨h1, h2, h3, h4, h5, h6⟩

/-- The digits of a run. -/
theorem Gathers.run (fraction : Bool) : ∀ {ds : List UInt8} {n : NumScan} {v : ℕ},
    Gathers n v → (∀ c ∈ ds, IsDigit c) →
    Gathers (ds.foldl (SJson.digitStep fraction) n) (extend v ds) := by
  intro ds
  induction ds with
  | nil => intro n v h _; exact h
  | cons c ds ih =>
    intro n v h hds
    obtain ⟨hc, hds⟩ := List.forall_mem_cons.mp hds
    rw [List.foldl_cons, extend_cons]
    exact ih (h.digitStep hc fraction) hds

/-! ## Integers -/

/-- The value of the literal without its fraction and exponent. -/
def Literal.intValue (l : Literal) : ℤ :=
  if l.minus then -(value l.int.bytes : ℤ) else value l.int.bytes

/-- The limits of `int64_t`, on the digits that the scan has gathered. -/
theorem intResult_gathers {minus isFloat : Bool} {n : NumScan} {v : ℕ} (h : Gathers n v) :
    let x : ℤ := if minus then -(v : ℤ) else v
    (-2 ^ 63 ≤ x ∧ x < 2 ^ 63 →
      ∃ i : Int64, intResult ⟨minus, isFloat, n⟩ = .ok i ∧ i.toInt = x) ∧
    (¬ (-2 ^ 63 ≤ x ∧ x < 2 ^ 63) → intResult ⟨minus, isFloat, n⟩ = .error (.err .overflow)) := by
  intro x
  have hround : ∀ y : ℤ, -2 ^ 63 ≤ y → y < 2 ^ 63 → (Int64.ofInt y).toInt = y := fun y h1 h2 =>
    Int64.toInt_ofInt_of_le h1 h2
  cases hok : n.fastOk with
  | false =>
    have hlarge := h.large hok
    have hx : ¬ (-2 ^ 63 ≤ x ∧ x < 2 ^ 63) := by
      simp only [x]
      split_ifs <;> omega
    refine ⟨fun hin => absurd hin hx, fun _ => ?_⟩
    rw [intResult, if_pos (.inl hok)]
  | true =>
    have hmant := h.exact hok
    unfold intResult intLimit
    simp only [hok, hmant, Bool.true_eq_false, false_or, x]
    cases minus with
    | true =>
      simp only [if_true]
      constructor
      · intro hin
        rw [if_neg (by omega)]
        by_cases hmin : v = 9223372036854775808
        · rw [if_pos hmin]
          refine ⟨_, rfl, ?_⟩
          rw [Int64.toInt_minValue, hmin]
          norm_num
        · rw [if_neg hmin]
          exact ⟨_, rfl, hround _ (by omega) (by omega)⟩
      · intro hout
        rw [if_pos (by omega)]
    | false =>
      simp only [Bool.false_eq_true, if_false]
      constructor
      · intro hin
        rw [if_neg (by omega)]
        exact ⟨_, rfl, hround _ (by omega) (by omega)⟩
      · intro hout
        rw [if_pos (by omega)]

/-- The digits of the integer part are gathered. -/
theorem Literal.scanInt_gathers (l : Literal) (pos : ℕ) :
    Gathers (l.scanInt pos) (value l.int.bytes) := (gathers_start pos).run false l.int.digits

/-- The digits in front of one of them, and this one. -/
theorem isDigit_split {ds es all : List UInt8} {c : UInt8} (hall : ∀ d ∈ all, IsDigit d)
    (h : all = ds ++ c :: es) : (∀ d ∈ ds, IsDigit d) ∧ IsDigit c := by
  subst h
  exact ⟨fun d hd => hall d (List.mem_append_left _ hd),
    hall c (List.mem_append_right _ List.mem_cons_self)⟩

/-- No digit of the integer part makes the mantissa wrap. -/
theorem Literal.int_room (l : Literal) {ds es : List UInt8} {c : UInt8} {pos : ℕ}
    (hds : l.int.bytes = ds ++ c :: es)
    (hsig : (ds.foldl (digitStep false) ⟨pos, true, 0, 0, 0⟩).fastSig < 19) :
    (ds.foldl (digitStep false) ⟨pos, true, 0, 0, 0⟩).fastMant * 10 + digit c < 2 ^ 64 := by
  obtain ⟨hbefore, hc⟩ := isDigit_split l.int.digits hds
  exact (((gathers_start pos).run false hbefore).room hsig hc.digit_lt).2

/-- A literal that is an integer has only an integer part. -/
theorem Literal.token_of_int {l : Literal} (h : l.isFloat = false) (p : ℕ) :
    l.token p = ⟨l.minus, false, l.scanInt (p + (minusText l.minus).length)⟩ := by
  obtain ⟨hfrac, hexp⟩ := Bool.or_eq_false_iff.mp h
  have hfrac' : l.frac = none := by simpa using hfrac
  have hexp' : l.exp = none := by simpa using hexp
  rw [Literal.token, h, Literal.scanFrac, Literal.scanExp, hfrac', hexp']

/-! ## The token function -/

section Token

variable {D : Type} [CDouble D]

open ErrState

/-- A literal ends within the buffer. -/
theorem Literal.le_length (l : Literal) {p q : ℕ} (h : Spells src p l.text q) :
    q ≤ src.length := by
  obtain ⟨c, t, ht, -⟩ := starts_iff.mp (l.int_starts (l.fracText ++ l.expText))
  obtain ⟨r, hminus, hint⟩ := spells_append.mp h
  rw [ht] at hint
  have hlt := (List.getElem?_eq_some_iff.mp (spells_cons.mp hint).1).1
  exact hint.le_length hlt.le

/-- What is copied of a literal is its text. -/
theorem Literal.copyBytes_text (l : Literal) {p q : ℕ} (h : Spells src p l.text q) :
    copyBytes src p (q - p) = .ok l.text := by
  have hle := l.le_length h
  have htoken : (src.drop p).take (q - p) = l.text := by
    rw [h.drop_eq, h.eq, Nat.add_sub_cancel_left, List.take_left]
  rw [copyBytes, if_pos (by have := h.eq; omega), htoken]

/-- A float token is read, unless its value is not finite. -/
theorem jsonParseNumber_float {l : Literal} {p q : ℕ} (h : Spells src p l.text q)
    (hfollows : l.Follows (src.drop q)) (hfloat : l.isFloat = true)
    (hstrtod : (CDouble.strtod l.text : D × ℕ).2 = l.text.length) {s : St D}
    (hroom : s.arena.Roomy (src.length + 8)) :
    ∃ A, (∃ f, jsonParseNumber src p s = .ok (.float f, q) { s with arena := A }) ∨
      CDouble.nonFinite (CDouble.strtod l.text : D × ℕ).1 = true ∧
        jsonParseNumber src p s = .error (.err .invalidNumber) { s with arena := A } := by
  obtain ⟨hscan, hpos⟩ := scanNumber_literal l h hfollows
  have hlen : q ≤ src.length := l.le_length h
  have hcopy := l.copyBytes_text h
  have hfloat' : (l.token p).isFloat = true := hfloat
  rw [jsonParseNumber, bind_ok (ofScan_ok hscan), if_pos hfloat']
  simp only [hpos]
  cases hfast : (fastFloat (l.token p) : Option D) with
  | some f => exact ⟨s.arena, .inl ⟨f, rfl⟩⟩
  | none =>
    obtain ⟨A, -, hgrant | ⟨-, hno⟩⟩ := bufferFor_cases s (q - p ≥ sizeofNumBuf) (q - p + 1)
      fun _ => Nat.succ_pos _
    · refine ⟨A, ?_⟩
      simp only
      rw [bind_ok hgrant, if_pos rfl, bind_ok (ofScan_ok hcopy)]
      by_cases hfin : CDouble.nonFinite (CDouble.strtod l.text : D × ℕ).1 = true
      · have hslow : (slowFloat l.text : Scan (JsonNode D)) = .error (.err .invalidNumber) := by
          rw [slowFloat, if_neg (not_not.mpr hstrtod), if_pos hfin]
        exact .inr ⟨hfin, bind_error (ofScan_error hslow)⟩
      · have hslow : slowFloat l.text = .ok (.float (CDouble.strtod l.text : D × ℕ).1) := by
          rw [slowFloat, if_neg (not_not.mpr hstrtod), if_neg hfin]
        exact .inl ⟨_, by rw [bind_ok (ofScan_ok hslow)]; rfl⟩
    · exact absurd (hroom.mono (by omega)) (hno 0)

/-- **Number tokens are the numbers of RFC 8259.**  At a minus sign or a digit, with memory,
`json__parse_number` reports a syntax error exactly where the text breaks off, and otherwise
it consumes the longest literal that stands there.  A literal without a fraction and an
exponent becomes the integer it denotes, whatever the number of its digits, if `int64_t`
holds it, and is an overflow if not; the accumulator never wraps on the way.  Any other
literal becomes a double, unless `strtod` finds that its value is not finite. -/
theorem jsonParseNumber_rfc8259 {p : ℕ}
    (hstart : Starts (fun c => c = 0x2D ∨ IsDigit c) (src.drop p)) {s : St D}
    (hroom : s.arena.Roomy (src.length + 8)) :
    (BadNumber (src.drop p) ∧ ∃ e, jsonParseNumber src p s = .error (.err e) s ∧
      (e = .invalidNumber ∨ e = .unexpectedEof)) ∨
    ¬ BadNumber (src.drop p) ∧ ∃ (l : Literal) (r : List UInt8), src.drop p = l.text ++ r ∧
      (∀ (l' : Literal) (r' : List UInt8), src.drop p = l'.text ++ r' →
        l'.text.length ≤ l.text.length) ∧
      (l.isFloat = false →
        (-2 ^ 63 ≤ l.intValue ∧ l.intValue < 2 ^ 63 → ∃ i : Int64, i.toInt = l.intValue ∧
          jsonParseNumber src p s = .ok (.integer i, p + l.text.length) s) ∧
        (¬ (-2 ^ 63 ≤ l.intValue ∧ l.intValue < 2 ^ 63) →
          jsonParseNumber src p s = .error (.err .overflow) s) ∧
        ∀ ds c es pos, l.int.bytes = ds ++ c :: es →
          (ds.foldl (digitStep false) ⟨pos, true, 0, 0, 0⟩).fastSig < 19 →
          (ds.foldl (digitStep false) ⟨pos, true, 0, 0, 0⟩).fastMant * 10 + digit c < 2 ^ 64) ∧
      (l.isFloat = true → (CDouble.strtod l.text : D × ℕ).2 = l.text.length →
        ∃ A, (∃ f, jsonParseNumber src p s =
            .ok (.float f, p + l.text.length) { s with arena := A }) ∨
          CDouble.nonFinite (CDouble.strtod l.text : D × ℕ).1 = true ∧
            jsonParseNumber src p s = .error (.err .invalidNumber) { s with arena := A }) := by
  rcases literal_or_bad hstart with ⟨l, r, hsrc, hfollows⟩ | hbad
  · obtain ⟨htext, hrest⟩ := spells_of_drop hsrc
    rw [← hrest] at hfollows
    obtain ⟨hscan, hpos⟩ := scanNumber_literal l htext hfollows
    right
    constructor
    · intro hbad
      obtain ⟨e, herr, -⟩ := scanNumber_bad hbad
      rw [hscan] at herr
      cases herr
    refine ⟨l, r, hsrc, ?_, fun hint => ?_, fun hfloat hstrtod =>
      jsonParseNumber_float htext hfollows hfloat hstrtod hroom⟩
    · intro l' r' hsrc'
      rw [hrest] at hfollows
      exact hfollows.longest (hsrc.symm.trans hsrc')
    · have hres := @intResult_gathers l.minus false _ _
        (l.scanInt_gathers (p + (minusText l.minus).length))
      rw [← l.token_of_int hint p] at hres
      have hint' : ¬ (l.token p).isFloat = true := by
        rw [Literal.token, hint]
        exact Bool.false_ne_true
      rw [jsonParseNumber, bind_ok (ofScan_ok hscan), if_neg hint']
      refine ⟨fun hin => ?_, fun hout => ?_, ?_⟩
      · obtain ⟨i, hi, hval⟩ := hres.1 hin
        refine ⟨i, hval, ?_⟩
        rw [bind_ok (ofScan_ok hi), hpos]
        rfl
      · exact bind_error (ofScan_error (hres.2 hout))
      · exact fun ds c es pos hds hsig => l.int_room hds hsig
  · obtain ⟨e, herr, he⟩ := scanNumber_bad hbad
    exact .inl ⟨hbad, e, bind_error (ofScan_error herr), he⟩

/-- The token `-7`. -/
theorem jsonParseNumber_rfc8259_minusSeven :
    ¬ BadNumber [0x2D, 0x37] ∧ ∃ (l : Literal) (r : List UInt8), [0x2D, 0x37] = l.text ++ r ∧
      ∀ (l' : Literal) (r' : List UInt8), [0x2D, 0x37] = l'.text ++ r' →
        l'.text.length ≤ l.text.length := by
  obtain ⟨A, hA⟩ := Arena.exists_fresh
  let _ : CDouble Unit := { CDouble.unit with strtod := fun t => ((), t.length) }
  have hread : jsonParseNumber [0x2D, 0x37] 0 (⟨.empty, A⟩ : St Unit) =
      .ok (.integer (-7), 2) ⟨.empty, A⟩ := rfl
  have hstart : Starts (fun c => c = 0x2D ∨ IsDigit c) (([0x2D, 0x37] : List UInt8).drop 0) := by
    simp
  rcases jsonParseNumber_rfc8259 hstart (s := (⟨.empty, A⟩ : St Unit)) (hA.roomy (by decide))
    with ⟨-, e, herr, -⟩ | ⟨hno, l, r, hsrc, hmax, -⟩
  · rw [hread] at herr
    cases herr
  · exact ⟨hno, l, r, hsrc, hmax⟩

end Token

end SJson
