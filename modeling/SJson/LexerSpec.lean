/-
# What the lexer accepts

String tokens are described by a grammar (`StrItem`, `StrBody`), which says what each
piece of the text between the quotes stands for.  Both passes of `json__parse_string`
follow it: the measuring pass succeeds on exactly the bodies of the grammar
(`measureLoop_spec`, `measureLoop_of_body`), and the decoding pass then writes
exactly the bytes that were counted (`decodeLoop_of_body`).

No token function faults: a read outside the buffer, a store outside the string or a
use of a value that was not set is impossible.
-/
import SJson.Lexer
import SJson.Lib.Decimal

namespace SJson

/-! ## White space -/

/-- The position behind the white space at `p`. -/
def wsEnd (src : List UInt8) (p : ℕ) : ℕ := p + ((src.drop p).takeWhile isWs).length

theorem le_wsEnd (src : List UInt8) (p : ℕ) : p ≤ wsEnd src p := Nat.le_add_right ..

theorem wsEnd_le {src : List UInt8} {p : ℕ} (h : p ≤ src.length) : wsEnd src p ≤ src.length := by
  have := List.Sublist.length_le (List.takeWhile_sublist isWs (l := src.drop p))
  rw [List.length_drop] at this
  unfold wsEnd
  omega

theorem wsEnd_of_ws {src : List UInt8} {p : ℕ} {c : UInt8} (hc : src[p]? = some c)
    (hws : isWs c = true) : wsEnd src p = wsEnd src (p + 1) := by
  obtain ⟨hp, rfl⟩ := List.getElem?_eq_some_iff.mp hc
  unfold wsEnd
  rw [List.drop_eq_getElem_cons hp, List.takeWhile_cons_of_pos hws, List.length_cons]
  omega

theorem wsEnd_of_not_ws {src : List UInt8} {p : ℕ} {c : UInt8} (hc : src[p]? = some c)
    (hws : isWs c = false) : wsEnd src p = p := by
  obtain ⟨hp, rfl⟩ := List.getElem?_eq_some_iff.mp hc
  unfold wsEnd
  rw [List.drop_eq_getElem_cons hp, List.takeWhile_cons_of_neg (by simp [hws])]
  rfl

theorem wsEnd_of_ge {src : List UInt8} {p : ℕ} (h : src.length ≤ p) : wsEnd src p = p := by
  simp [wsEnd, List.drop_of_length_le h]

theorem skipWsLoop_eq {src : List UInt8} {fuel : ℕ} :
    ∀ {p : ℕ}, src.length - p ≤ fuel → skipWsLoop src fuel p = .ok (wsEnd src p) := by
  induction fuel with
  | zero =>
    intro p hfuel
    rw [skipWsLoop, if_neg (by omega), wsEnd_of_ge (by omega)]
  | succ fuel ih =>
    intro p hfuel
    rw [skipWsLoop]
    by_cases hp : p < src.length
    · rw [if_pos hp, scan_bind_ok (rd_of_lt hp)]
      have hc : src[p]? = some src[p] := List.getElem?_eq_getElem hp
      cases hws : isWs src[p] with
      | true => rw [if_pos rfl, ih (by omega), wsEnd_of_ws hc hws]
      | false => rw [if_neg Bool.false_ne_true, wsEnd_of_not_ws hc hws]
    · rw [if_neg hp, wsEnd_of_ge (by omega)]

/-- `json__lex_skip_ws` never fails. -/
theorem jsonLexSkipWs_eq (src : List UInt8) (p : ℕ) :
    jsonLexSkipWs src p = .ok (wsEnd src p) := skipWsLoop_eq le_rfl

/-! ## Literals -/

/-- `LEX_EXPECT_LITERAL` accepts the literal, and rejects anything else. -/
theorem lexExpectLiteral_eq {src : List UInt8} {p : ℕ} (hp : p ≤ src.length) (lit : List UInt8) :
    lexExpectLiteral src p lit =
      if (src.drop p).take lit.length = lit then .ok (p + lit.length)
      else .error (.err .invalidJson) := by
  unfold lexExpectLiteral
  by_cases hlen : p + lit.length > src.length
  · rw [if_pos hlen]
    by_cases hlit : (src.drop p).take lit.length = lit
    · have hl := congrArg List.length hlit
      simp only [List.length_take, List.length_drop] at hl
      omega
    · rw [if_neg hlit]
  · rw [if_neg hlen, scan_bind_ok (a := (src.drop p).take lit.length == lit)]
    · by_cases hlit : (src.drop p).take lit.length = lit <;> simp [hlit]
    · rw [memEq, if_pos (by rw [List.length_drop]; omega)]

/-! ## String tokens: the grammar -/

/-- Four hexadecimal digits at `p` with the value `v`. -/
def Hex4At (src : List UInt8) (p v : ℕ) : Prop := hex4At src p = .ok (some v)

/-- The piece of a string token between `p` and `q` stands for the bytes `out`; the
flag says whether it is an escape. -/
inductive StrItem (src : List UInt8) : ℕ → List UInt8 → Bool → ℕ → Prop
  /-- An ASCII character other than a control character, quotation mark or backslash. -/
  | ascii {p : ℕ} {c : UInt8} (hc : src[p]? = some c) (hlo : 0x20 ≤ c.toNat)
      (hhi : c.toNat < 0x80) (hquote : c ≠ 0x22) (hslash : c ≠ 0x5C) :
      StrItem src p [c] false (p + 1)
  /-- A character outside ASCII. -/
  | multi {p cp : ℕ} {rest : List UInt8} (hcp : IsScalar cp) (hlo : 0x80 ≤ cp)
      (hsrc : src.drop p = jsonEncodeUtf8 cp ++ rest) :
      StrItem src p (jsonEncodeUtf8 cp) false (p + (jsonEncodeUtf8 cp).length)
  /-- One of the eight escapes of one letter. -/
  | simple {p : ℕ} {e b : UInt8} (hslash : src[p]? = some 0x5C) (he : src[p + 1]? = some e)
      (hb : simpleEscape e = some b) : StrItem src p [b] true (p + 2)
  /-- An escaped code unit outside the surrogate range. -/
  | unicode {p u : ℕ} (hslash : src[p]? = some 0x5C) (hu : src[p + 1]? = some 0x75)
      (hhex : Hex4At src (p + 2) u) (hhigh : ¬ IsHigh u) (hlow : ¬ IsLow u) :
      StrItem src p (jsonEncodeUtf8 u) true (p + 6)
  /-- An escaped surrogate pair. -/
  | pair {p hi lo : ℕ} (hslash : src[p]? = some 0x5C) (hu : src[p + 1]? = some 0x75)
      (hhex : Hex4At src (p + 2) hi) (hhigh : IsHigh hi)
      (hslash' : src[p + 6]? = some 0x5C) (hu' : src[p + 7]? = some 0x75)
      (hhex' : Hex4At src (p + 8) lo) (hlow : IsLow lo) :
      StrItem src p (jsonEncodeUtf8 (0x10000 + (hi - 0xD800) * 1024 + (lo - 0xDC00))) true (p + 12)

/-- A run of pieces. -/
inductive StrBody (src : List UInt8) : ℕ → List UInt8 → Bool → ℕ → Prop
  | nil (p : ℕ) : StrBody src p [] false p
  | cons {p q r : ℕ} {out out' : List UInt8} {esc esc' : Bool} (h : StrItem src p out esc q)
      (t : StrBody src q out' esc' r) : StrBody src p (out ++ out') (esc || esc') r

/-- A string token whose first byte behind the quotation mark is at `p`, and which
ends before `q`, stands for `out`. -/
def StringAt (src : List UInt8) (p : ℕ) (out : List UInt8) (q : ℕ) : Prop :=
  ∃ esc r, StrBody src p out esc r ∧ src[r]? = some 0x22 ∧ out.length ≤ jsonMaxStringLen ∧
    q = r + 1

/-! ## The measuring pass -/

theorem jsonHexVal_lt {c : UInt8} (h : jsonHexVal c ≠ 0xFF) : jsonHexVal c < 16 := by
  unfold jsonHexVal at *
  split_ifs at h ⊢ <;> omega

theorem exists_getElem? {l : List UInt8} {i : ℕ} (h : i < l.length) : ∃ c, l[i]? = some c :=
  ⟨_, List.getElem?_eq_getElem h⟩

/-- Looking for four hexadecimal digits never reads behind the end. -/
theorem hex4At_cases (src : List UInt8) (p : ℕ) :
    hex4At src p = .ok none ∨ ∃ v, Hex4At src p v ∧ v < 65536 ∧ p + 4 ≤ src.length := by
  unfold Hex4At hex4At jsonParseHex4
  by_cases hlen : src.length - p < 4
  · exact .inl (if_pos hlen)
  rw [if_neg hlen]
  have hdrop : (src.drop p).length = src.length - p := List.length_drop ..
  rw [scan_bind_ok (rd_of_lt (by omega : 0 < (src.drop p).length)),
    scan_bind_ok (rd_of_lt (by omega : 1 < (src.drop p).length)),
    scan_bind_ok (rd_of_lt (by omega : 2 < (src.drop p).length)),
    scan_bind_ok (rd_of_lt (by omega : 3 < (src.drop p).length))]
  unfold hexJoin
  split_ifs with hbad
  · exact .inl rfl
  · simp only [not_or] at hbad
    have h0 := jsonHexVal_lt hbad.1
    have h1 := jsonHexVal_lt hbad.2.1
    have h2 := jsonHexVal_lt hbad.2.2.1
    have h3 := jsonHexVal_lt hbad.2.2.2
    exact .inr ⟨_, rfl, by omega, by omega⟩

theorem Hex4At.lt {src : List UInt8} {p v : ℕ} (h : Hex4At src p v) :
    v < 65536 ∧ p + 4 ≤ src.length := by
  rcases hex4At_cases src p with hn | ⟨w, hw, hlt⟩
  · rw [Hex4At, hn] at h
    simp at h
  · obtain rfl : w = v := by
      have := hw.symm.trans h
      simpa using this
    exact hlt

/-- The length of an encoded code unit, as the measuring pass counts it. -/
theorem jsonEncodeUtf8_length_unit {u : ℕ} (hu : u < 65536) :
    (jsonEncodeUtf8 u).length = if u < 0x80 then 1 else if u < 0x800 then 2 else 3 := by
  unfold jsonEncodeUtf8
  split_ifs <;> rfl

/-- A surrogate pair encodes a code point outside the basic plane. -/
theorem surrogatePair_bounds {hi lo : ℕ} (hhigh : IsHigh hi) (hlow : IsLow lo) :
    0x10000 ≤ 0x10000 + (hi - 0xD800) * 1024 + (lo - 0xDC00) ∧
      0x10000 + (hi - 0xD800) * 1024 + (lo - 0xDC00) ≤ 0x10FFFF := by
  unfold IsHigh IsLow at *
  omega

theorem jsonEncodeUtf8_length_pair {cp : ℕ} (hlo : 0x10000 ≤ cp) (hhi : cp ≤ 0x10FFFF) :
    (jsonEncodeUtf8 cp).length = 4 := by
  unfold jsonEncodeUtf8
  rw [if_neg (by omega), if_neg (by omega), if_neg (by omega), if_pos hhi]
  rfl

theorem simpleEscape_u : simpleEscape 0x75 = none := by decide

theorem drop_add_of_append {src a rest : List UInt8} {p : ℕ} (h : src.drop p = a ++ rest) :
    src.drop (p + a.length) = rest := by
  rw [← List.drop_drop, h, List.drop_left]

theorem jsonEncodeUtf8_head {cp : ℕ} (hcp : IsScalar cp) (hlo : 0x80 ≤ cp) :
    ∃ c l, jsonEncodeUtf8 cp = c :: l ∧ 0x80 ≤ c.toNat ∧ ∀ b ∈ l, 0x80 ≤ b.toNat := by
  rcases jsonEncodeUtf8_cases hcp.1 with ⟨hlt, -⟩ | ⟨-, -, b0, b1, hb, h0, h1⟩ |
    ⟨-, -, b0, b1, b2, hb, h0, h1, h2⟩ | ⟨-, b0, b1, b2, b3, hb, h0, h1, h2, h3⟩
  · omega
  all_goals
    refine ⟨b0, _, hb, by omega, ?_⟩
    simp only [List.forall_mem_cons]
    exact ⟨by omega, by simp <;> omega⟩

/-- The measuring pass on a piece of the grammar. -/
theorem measureStep_of_item {src : List UInt8} {p q : ℕ} {out : List UInt8} {esc : Bool}
    (h : StrItem src p out esc q) {s : StrScan} (hs : s.scanPos = p) :
    ∃ c hash, src[p]? = some c ∧ c ≠ 0x22 ∧
      measureStep src s c = .ok ⟨q, s.outLen + out.length, s.hasEscape || esc, hash⟩ ∧
      (esc = false → hash = out.foldl fnvStep s.rawHash) := by
  subst hs
  cases h with
  | @ascii c hc hlo hhi hquote hslash =>
    refine ⟨c, fnvStep s.rawHash c, hc, hquote, ?_, fun _ => rfl⟩
    rw [measureStep, if_neg hslash, if_neg (by omega), if_neg (by omega)]
    simp
  | @multi cp rest hcp hlo hsrc =>
    obtain ⟨c, l, henc, hc, -⟩ := jsonEncodeUtf8_head hcp hlo
    have hlen : (jsonEncodeUtf8 cp).length ≤ src.length - s.scanPos := by
      rw [← List.length_drop, hsrc, List.length_append]
      omega
    have hget : src[s.scanPos]? = some c := by
      have := congrArg (·[0]?) hsrc
      simpa [List.getElem?_drop, henc] using this
    refine ⟨c, (jsonEncodeUtf8 cp).foldl fnvStep s.rawHash, hget, ?_, ?_, fun _ => rfl⟩
    · rintro rfl
      simp at hc
    · rw [measureStep, if_neg (by rintro rfl; simp at hc), if_neg (by omega), if_pos hc,
        measureUtf8, hsrc, jsonUtf8Decode_encode hcp rest hlen]
      simp
  | @simple e b hslash he hb =>
    have hlt : s.scanPos + 1 < src.length := (List.getElem?_eq_some_iff.mp he).1
    refine ⟨0x5C, s.rawHash, hslash, by decide, ?_, by simp⟩
    rw [measureStep, if_pos rfl, measureEscape, if_neg (by omega), scan_bind_ok (rd_of_some he),
      if_pos (by simp [hb])]
    simp
  | @unicode u hslash hu hhex hhigh hlow =>
    have hlt : s.scanPos + 1 < src.length := (List.getElem?_eq_some_iff.mp hu).1
    refine ⟨0x5C, s.rawHash, hslash, by decide, ?_, by simp⟩
    rw [measureStep, if_pos rfl, measureEscape, if_neg (by omega), scan_bind_ok (rd_of_some hu),
      if_neg (by simp [simpleEscape_u]), if_pos rfl, measureUnicode, scan_bind_ok hhex]
    simp [if_neg hhigh, if_neg hlow, jsonEncodeUtf8_length_unit hhex.lt.1]
  | @pair hi lo hslash hu hhex hhigh hslash' hu' hhex' hlow =>
    have hlt : s.scanPos + 7 < src.length := (List.getElem?_eq_some_iff.mp hu').1
    have hbounds := surrogatePair_bounds hhigh hlow
    refine ⟨0x5C, s.rawHash, hslash, by decide, ?_, by simp⟩
    rw [measureStep, if_pos rfl, measureEscape, if_neg (by omega), scan_bind_ok (rd_of_some hu),
      if_neg (by simp [simpleEscape_u]), if_pos rfl, measureUnicode, scan_bind_ok hhex]
    show (if IsHigh hi then _ else _) = _
    rw [if_pos hhigh, measureLow, if_neg (by simp; omega), scan_bind_ok (rd_of_some hslash'),
      if_neg (by decide), scan_bind_ok (rd_of_some hu'), if_neg (by decide), scan_bind_ok hhex']
    simp [hlow, jsonEncodeUtf8_length_pair hbounds.1 hbounds.2]

/-- Behind a high surrogate, the measuring pass rejects what is no low one. -/
theorem measureLow_cases {src : List UInt8} {p hi : ℕ} {s : StrScan} (hs : s.scanPos = p + 6)
    (hslash : src[p]? = some 0x5C) (hu : src[p + 1]? = some 0x75) (hhex : Hex4At src (p + 2) hi)
    (hhigh : IsHigh hi) :
    (∃ e, measureLow src s = .error (.err e) ∧ e.syntactic) ∨
      ∃ out esc q, StrItem src p out esc q := by
  rw [measureLow, hs]
  by_cases heof : p + 6 + 1 ≥ src.length
  · exact .inl ⟨_, if_pos heof, rfl⟩
  obtain ⟨c, h6⟩ := exists_getElem? (show p + 6 < src.length by omega)
  obtain ⟨u, h7⟩ := exists_getElem? (show p + 7 < src.length by omega)
  rw [if_neg heof, scan_bind_ok (rd_of_some h6)]
  by_cases hc : c ≠ 0x5C
  · rw [if_pos hc]
    exact .inl ⟨_, rfl, rfl⟩
  rw [if_neg hc, scan_bind_ok (rd_of_some h7)]
  by_cases hu' : u ≠ 0x75
  · rw [if_pos hu']
    exact .inl ⟨_, rfl, rfl⟩
  rw [if_neg hu']
  rw [not_not.mp hc] at h6
  rw [not_not.mp hu'] at h7
  rcases hex4At_cases src (p + 8) with hnone | ⟨lo, hhex', -⟩
  · rw [scan_bind_ok hnone]
    exact .inl ⟨_, rfl, rfl⟩
  rw [scan_bind_ok hhex']
  by_cases hlow : IsLow lo
  · exact .inr ⟨_, _, _, .pair hslash hu hhex hhigh h6 h7 hhex' hlow⟩
  · exact .inl ⟨_, if_pos hlow, rfl⟩

/-- Behind a backslash, the measuring pass rejects what is no escape. -/
theorem measureEscape_cases {src : List UInt8} {s : StrScan}
    (hslash : src[s.scanPos]? = some 0x5C) :
    (∃ e, measureEscape src s = .error (.err e) ∧ e.syntactic) ∨
      ∃ out esc q, StrItem src s.scanPos out esc q := by
  rw [measureEscape]
  by_cases heof : s.scanPos + 1 ≥ src.length
  · exact .inl ⟨_, if_pos heof, rfl⟩
  obtain ⟨e, he⟩ := exists_getElem? (not_le.mp heof)
  rw [if_neg heof, scan_bind_ok (rd_of_some he)]
  cases hb : simpleEscape e with
  | some b => exact .inr ⟨_, _, _, .simple hslash he hb⟩
  | none =>
    rw [if_neg (by simp)]
    by_cases hu : e = 0x75
    swap
    · exact .inl ⟨_, if_neg hu, rfl⟩
    rw [hu] at he
    rw [if_pos hu, measureUnicode]
    rcases hex4At_cases src (s.scanPos + 2) with hnone | ⟨u, hhex, -⟩
    · rw [scan_bind_ok hnone]
      exact .inl ⟨_, rfl, rfl⟩
    rw [scan_bind_ok hhex]
    show (∃ e, (if IsHigh u then _ else _) = _ ∧ _) ∨ _
    by_cases hhigh : IsHigh u
    · rw [if_pos hhigh]
      exact measureLow_cases rfl hslash he hhex hhigh
    · rw [if_neg hhigh]
      by_cases hlow : IsLow u
      · exact .inl ⟨_, if_pos hlow, rfl⟩
      · exact .inr ⟨_, _, _, .unicode hslash he hhex hhigh hlow⟩

/-- The measuring pass rejects what is no piece of the grammar. -/
theorem measureStep_cases {src : List UInt8} {s : StrScan} {c : UInt8}
    (hc : src[s.scanPos]? = some c) (hquote : c ≠ 0x22) :
    (∃ e, measureStep src s c = .error (.err e) ∧ e.syntactic) ∨
      ∃ out esc q, StrItem src s.scanPos out esc q := by
  rw [measureStep]
  by_cases hslash : c = 0x5C
  · rw [if_pos hslash]
    exact measureEscape_cases (hslash ▸ hc)
  rw [if_neg hslash]
  by_cases hctl : c.toNat < 0x20
  · exact .inl ⟨_, if_pos hctl, rfl⟩
  rw [if_neg hctl]
  by_cases hhi : c.toNat ≥ 0x80
  · rw [if_pos hhi, measureUtf8]
    rcases jsonUtf8Decode_safe (List.length_drop (i := s.scanPos) (l := src)).ge with
      herr | ⟨cp, count, hok, -, -⟩
    · rw [herr]
      exact .inl ⟨_, rfl, rfl⟩
    · obtain ⟨hcp, rfl, -, rest, hsrc⟩ := jsonUtf8Decode_sound hok
      refine .inr ⟨_, _, _, .multi hcp ?_ hsrc⟩
      -- a code point below 128 is encoded as itself
      by_contra hlt
      have henc : jsonEncodeUtf8 cp = [.ofNat cp] := if_pos (by omega)
      have := congrArg (·[0]?) hsrc
      simp only [List.getElem?_drop, Nat.add_zero, hc, henc] at this
      obtain rfl : c = .ofNat cp := by simpa using this
      rw [toNat_ofNat (by omega)] at hhi
      omega
  · exact .inr ⟨_, _, _, .ascii hc (by omega) (by omega) hquote hslash⟩

theorem StrItem.pos_lt {src : List UInt8} {p q : ℕ} {out : List UInt8} {esc : Bool}
    (h : StrItem src p out esc q) : p < q ∧ q ≤ src.length := by
  cases h with
  | ascii hc => exact ⟨by omega, (List.getElem?_eq_some_iff.mp hc).1⟩
  | multi hcp _ hsrc =>
    have hlen := congrArg List.length hsrc
    have hpos := jsonEncodeUtf8_length_pos hcp
    rw [List.length_drop, List.length_append] at hlen
    omega
  | simple _ he =>
    have := (List.getElem?_eq_some_iff.mp he).1
    omega
  | unicode _ _ hhex =>
    have := hhex.lt.2
    omega
  | pair _ _ _ _ _ _ hhex' =>
    have := hhex'.lt.2
    omega

/-- **The measuring pass.**  It fails with a syntax error, or it stops behind a body
of the grammar, at the quotation mark or at the end of the text, and has counted the
bytes the body stands for. -/
theorem measureLoop_spec {src : List UInt8} {fuel : ℕ} :
    ∀ {s : StrScan}, src.length - s.scanPos ≤ fuel → s.scanPos ≤ src.length →
      (∃ e, measureLoop src fuel s = .error (.err e) ∧ e.syntactic) ∨
      ∃ out esc q hash, StrBody src s.scanPos out esc q ∧ q ≤ src.length ∧
        (q < src.length → src[q]? = some 0x22) ∧
        measureLoop src fuel s = .ok ⟨q, s.outLen + out.length, s.hasEscape || esc, hash⟩ ∧
        (esc = false → hash = out.foldl fnvStep s.rawHash) := by
  induction fuel with
  | zero =>
    intro s hfuel hle
    refine .inr ⟨[], false, s.scanPos, s.rawHash, .nil _, hle, fun h => by omega, ?_, fun _ => rfl⟩
    rw [measureLoop, if_neg (by omega)]
    simp
  | succ fuel ih =>
    intro s hfuel hle
    rw [measureLoop]
    by_cases hlt : s.scanPos < src.length
    · have hc : src[s.scanPos]? = some src[s.scanPos] := List.getElem?_eq_getElem hlt
      rw [if_pos hlt, scan_bind_ok (rd_of_some hc)]
      by_cases hquote : src[s.scanPos] = 0x22
      · rw [if_pos hquote]
        rw [hquote] at hc
        exact .inr ⟨[], false, s.scanPos, s.rawHash, .nil _, hle, fun _ => hc, by simp,
          fun _ => rfl⟩
      rw [if_neg hquote]
      rcases measureStep_cases hc hquote with ⟨e, herr, he⟩ | ⟨out, esc, q, hitem⟩
      · exact .inl ⟨e, scan_bind_error herr, he⟩
      · obtain ⟨c, hash, hc', -, hstep, hhash⟩ := measureStep_of_item hitem rfl
        obtain rfl : src[s.scanPos] = c := Option.some.inj (hc.symm.trans hc')
        rw [scan_bind_ok hstep]
        have hq := hitem.pos_lt
        rcases ih (s := ⟨q, s.outLen + out.length, s.hasEscape || esc, hash⟩)
          (by show src.length - q ≤ fuel; omega) hq.2 with
          ⟨e, herr, he⟩ | ⟨out', esc', r, hash', hbody, hr, hend, hok, hhash'⟩
        · exact .inl ⟨e, herr, he⟩
        · refine .inr ⟨out ++ out', esc || esc', r, hash', .cons hitem hbody, hr, hend, ?_, ?_⟩
          · rw [hok]
            simp [Nat.add_assoc, Bool.or_assoc]
          · intro hesc
            obtain ⟨h1, h2⟩ := Bool.or_eq_false_iff.mp hesc
            rw [hhash' h2, List.foldl_append]
            exact congrArg (List.foldl fnvStep · out') (hhash h1)
    · rw [if_neg hlt]
      exact .inr ⟨[], false, s.scanPos, s.rawHash, .nil _, hle, fun h => absurd h hlt, by simp,
        fun _ => rfl⟩

/-- The measuring pass succeeds on a body of the grammar that a quotation mark ends. -/
theorem measureLoop_of_body {src : List UInt8} {p q : ℕ} {out : List UInt8} {esc : Bool}
    (h : StrBody src p out esc q) (hend : src[q]? = some 0x22) :
    ∀ {fuel : ℕ} {s : StrScan}, s.scanPos = p → src.length - p ≤ fuel →
      ∃ hash, measureLoop src fuel s = .ok
        ⟨q, s.outLen + out.length, s.hasEscape || esc, hash⟩ := by
  induction h with
  | nil p =>
    intro fuel s hs hfuel
    subst hs
    have hlt := (List.getElem?_eq_some_iff.mp hend).1
    obtain ⟨fuel, rfl⟩ : ∃ k, fuel = k + 1 := ⟨fuel - 1, by omega⟩
    refine ⟨s.rawHash, ?_⟩
    rw [measureLoop, if_pos hlt, scan_bind_ok (rd_of_some hend), if_pos rfl]
    simp
  | @cons p q r out out' esc esc' hitem _ ih =>
    intro fuel s hs hfuel
    obtain ⟨c, hash, hc, hquote, hstep, -⟩ := measureStep_of_item hitem hs
    have hq := hitem.pos_lt
    obtain ⟨fuel, rfl⟩ : ∃ k, fuel = k + 1 := ⟨fuel - 1, by omega⟩
    have hfuel' : src.length - q ≤ fuel := by omega
    obtain ⟨hash', hrest⟩ := ih hend
      (s := ⟨q, s.outLen + out.length, s.hasEscape || esc, hash⟩) rfl hfuel'
    refine ⟨hash', ?_⟩
    rw [measureLoop, if_pos (by omega), scan_bind_ok (rd_of_some (hs ▸ hc)), if_neg hquote,
      scan_bind_ok hstep, hrest]
    simp [Nat.add_assoc, Bool.or_assoc]

/-! ## The decoding pass -/

theorem putBytes_of_le {outLen : ℕ} {buf bytes : List UInt8}
    (h : buf.length + bytes.length ≤ outLen) : putBytes outLen buf bytes = .ok (buf ++ bytes) :=
  if_pos h

/-- One round of the decoding pass on a byte that stands for itself. -/
theorem decodeLoop_byte {src : List UInt8} {outLen fuel p : ℕ} {buf : List UInt8} {c : UInt8}
    (hc : src[p]? = some c) (hquote : c ≠ 0x22) (hslash : c ≠ 0x5C) (hbuf : buf.length < outLen) :
    decodeLoop src outLen (fuel + 1) p buf = decodeLoop src outLen fuel (p + 1) (buf ++ [c]) := by
  rw [decodeLoop, if_pos (List.getElem?_eq_some_iff.mp hc).1, scan_bind_ok (rd_of_some hc),
    if_neg hquote, if_neg hslash, scan_bind_ok (putBytes_of_le hbuf)]

/-- The decoding pass copies a run of bytes above ASCII. -/
theorem decodeLoop_high {src rest : List UInt8} {outLen : ℕ} :
    ∀ {l buf : List UInt8} {fuel p : ℕ}, src.drop p = l ++ rest → (∀ b ∈ l, 0x80 ≤ b.toNat) →
      buf.length + l.length ≤ outLen →
      decodeLoop src outLen (fuel + l.length) p buf
        = decodeLoop src outLen fuel (p + l.length) (buf ++ l) := by
  intro l
  induction l with
  | nil => intro buf fuel p _ _ _; simp
  | cons c l ih =>
    intro buf fuel p hsrc hall hbuf
    simp only [List.length_cons] at hbuf
    have hc : src[p]? = some c := by
      have := congrArg (·[0]?) hsrc
      simpa [List.getElem?_drop] using this
    have hhigh := hall c List.mem_cons_self
    have hdrop : src.drop (p + 1) = l ++ rest := by
      have := drop_add_of_append (show src.drop p = [c] ++ (l ++ rest) from hsrc)
      simpa using this
    rw [List.length_cons, ← Nat.add_assoc,
      decodeLoop_byte hc (by rintro rfl; simp at hhigh) (by rintro rfl; simp at hhigh) (by omega),
      ih hdrop (fun b hb => hall b (List.mem_cons_of_mem c hb)) (by simp; omega)]
    simp [Nat.add_assoc, Nat.add_comm 1]

/-- The decoding pass on a piece of the grammar writes what the piece stands for. -/
theorem decodeLoop_of_item {src : List UInt8} {p q : ℕ} {out : List UInt8} {esc : Bool}
    (h : StrItem src p out esc q) {outLen fuel : ℕ} {buf : List UInt8}
    (hfuel : src.length - p ≤ fuel) (hbuf : buf.length + out.length ≤ outLen) :
    ∃ fuel', src.length - q ≤ fuel' ∧
      decodeLoop src outLen fuel p buf = decodeLoop src outLen fuel' q (buf ++ out) := by
  have hq := h.pos_lt
  obtain ⟨k, rfl⟩ : ∃ k, fuel = k + 1 := ⟨fuel - 1, by omega⟩
  have hesc : src[p]? = some 0x5C → decodeEscape src p = .ok (out, q) →
      decodeLoop src outLen (k + 1) p buf = decodeLoop src outLen k q (buf ++ out) :=
    fun hslash hdec => by
      rw [decodeLoop, if_pos (by omega), scan_bind_ok (rd_of_some hslash), if_neg (by decide),
        if_pos rfl, scan_bind_ok hdec]
      exact scan_bind_ok (putBytes_of_le hbuf)
  cases h with
  | @ascii c hc _ _ hquote hslash =>
    exact ⟨k, by omega, decodeLoop_byte hc hquote hslash hbuf⟩
  | @multi cp rest hcp hlo hsrc =>
    obtain ⟨c, l, henc, hc, hall⟩ := jsonEncodeUtf8_head hcp hlo
    have hhigh : ∀ b ∈ jsonEncodeUtf8 cp, 0x80 ≤ b.toNat := by
      rw [henc]
      exact List.forall_mem_cons.mpr ⟨hc, hall⟩
    obtain ⟨j, hj⟩ : ∃ j, k + 1 = j + (jsonEncodeUtf8 cp).length :=
      ⟨k + 1 - (jsonEncodeUtf8 cp).length, by omega⟩
    refine ⟨j, by omega, ?_⟩
    rw [hj]
    exact decodeLoop_high hsrc hhigh hbuf
  | @simple e b hslash he hb =>
    refine ⟨k, by omega, hesc hslash ?_⟩
    rw [decodeEscape, scan_bind_ok (rd_of_some he), hb]
  | @unicode u hslash hu hhex hhigh hlow =>
    refine ⟨k, by omega, hesc hslash ?_⟩
    have hdec : decodeUnicode src (p + 2) = .ok (u, p + 6) := by
      rw [decodeUnicode, scan_bind_ok hhex]
      exact if_neg hhigh
    rw [decodeEscape, scan_bind_ok (rd_of_some hu), simpleEscape_u]
    simp only [if_pos, scan_bind_ok hdec]
  | @pair hi lo hslash hu hhex hhigh hslash' hu' hhex' hlow =>
    refine ⟨k, by omega, hesc hslash ?_⟩
    have hdec : decodeUnicode src (p + 2)
        = .ok (0x10000 + (hi - 0xD800) * 1024 + (lo - 0xDC00), p + 12) := by
      rw [decodeUnicode, scan_bind_ok hhex]
      show (if IsHigh hi then _ else _) = _
      rw [if_pos hhigh, scan_bind_ok hhex']
    rw [decodeEscape, scan_bind_ok (rd_of_some hu), simpleEscape_u]
    simp only [if_pos, scan_bind_ok hdec]

/-- **The decoding pass** writes what the body stands for and stops at its end. -/
theorem decodeLoop_of_body {src : List UInt8} {p q : ℕ} {out : List UInt8} {esc : Bool}
    (h : StrBody src p out esc q) (hend : src[q]? = some 0x22) {outLen : ℕ} :
    ∀ {fuel : ℕ} {buf : List UInt8}, src.length - p ≤ fuel → buf.length + out.length ≤ outLen →
      decodeLoop src outLen fuel p buf = .ok (buf ++ out, q) := by
  induction h with
  | nil p =>
    intro fuel buf hfuel _
    have hlt := (List.getElem?_eq_some_iff.mp hend).1
    obtain ⟨fuel, rfl⟩ : ∃ k, fuel = k + 1 := ⟨fuel - 1, by omega⟩
    rw [decodeLoop, if_pos hlt, scan_bind_ok (rd_of_some hend), if_pos rfl, List.append_nil]
  | @cons p q r out out' esc esc' hitem _ ih =>
    intro fuel buf hfuel hbuf
    rw [List.length_append] at hbuf
    obtain ⟨fuel', hfuel', hstep⟩ := decodeLoop_of_item hitem hfuel
      (show buf.length + out.length ≤ outLen by omega)
    rw [hstep, ih hend hfuel' (by rw [List.length_append]; omega), List.append_assoc]

/-- A body without escapes stands for itself. -/
theorem StrBody.raw {src : List UInt8} {p q : ℕ} {out : List UInt8} {esc : Bool}
    (h : StrBody src p out esc q) (hesc : esc = false) :
    q = p + out.length ∧ (src.drop p).take out.length = out := by
  induction h with
  | nil p => simp
  | @cons p q r out out' esc esc' hitem _ ih =>
    obtain ⟨h1, h2⟩ := Bool.or_eq_false_iff.mp hesc
    obtain ⟨hr, hout'⟩ := ih h2
    have hpiece : q = p + out.length ∧ ∃ rest, src.drop p = out ++ rest := by
      subst h1
      cases hitem with
      | ascii hc =>
        obtain ⟨hp, rfl⟩ := List.getElem?_eq_some_iff.mp hc
        exact ⟨rfl, _, List.drop_eq_getElem_cons hp⟩
      | multi _ _ hsrc => exact ⟨rfl, _, hsrc⟩
    obtain ⟨rfl, rest, hsrc⟩ := hpiece
    rw [drop_add_of_append hsrc] at hout'
    refine ⟨by rw [hr, List.length_append]; omega, ?_⟩
    rw [hsrc, List.length_append, List.take_length_add_append, hout']

theorem fillString_of_body {src : List UInt8} {p q : ℕ} {out : List UInt8} {esc : Bool}
    {hash : UInt32} (h : StrBody src p out esc q) (hend : src[q]? = some 0x22)
    (hhash : esc = false → hash = out.foldl fnvStep 0x811C9DC5) :
    fillString src p ⟨q, out.length, esc, hash⟩ = .ok (⟨out, jsonFnv1a out⟩, q + 1) := by
  have hlt := (List.getElem?_eq_some_iff.mp hend).1
  unfold fillString
  cases esc with
  | true =>
    rw [if_pos rfl, scan_bind_ok (decodeLoop_of_body h hend le_rfl (by simp))]
    show (if q ≥ src.length then _ else _) = _
    rw [if_neg (by omega), List.nil_append, if_neg (lt_irrefl _)]
  | false =>
    obtain ⟨rfl, hout⟩ := h.raw rfl
    have hcopy : copyBytes src p out.length = .ok out := by
      rw [copyBytes, if_pos (by omega), hout]
    rw [if_neg (by simp), scan_bind_ok hcopy, if_neg (by simp; omega), hhash rfl]
    rfl

/-! ## String tokens -/

/-- A text has one body up to the quotation mark. -/
theorem StrBody.unique {src : List UInt8} {p q q' : ℕ} {out out' : List UInt8} {esc esc' : Bool}
    (h : StrBody src p out esc q) (hend : src[q]? = some 0x22) (h' : StrBody src p out' esc' q')
    (hend' : src[q']? = some 0x22) : out = out' ∧ esc = esc' ∧ q = q' := by
  obtain ⟨_, hm⟩ := measureLoop_of_body h hend (s := ⟨p, 0, false, 0⟩) rfl le_rfl
  obtain ⟨_, hm'⟩ := measureLoop_of_body h' hend' (s := ⟨p, 0, false, 0⟩) rfl le_rfl
  have hbuf : ∀ l : List UInt8, ([] : List UInt8).length + l.length ≤ l.length := by simp
  have hd := decodeLoop_of_body h hend (le_refl (src.length - p)) (hbuf out)
  have hd' := decodeLoop_of_body h' hend' (le_refl (src.length - p)) (hbuf out')
  rw [hm] at hm'
  simp only [Except.ok.injEq, StrScan.mk.injEq, Nat.zero_add, Bool.false_or] at hm'
  obtain ⟨rfl, hlen, rfl, -⟩ := hm'
  rw [hlen, hd'] at hd
  simp only [List.nil_append, Except.ok.injEq, Prod.mk.injEq, and_true] at hd
  exact ⟨hd.symm, rfl, rfl⟩

/-- **String tokens.**  The token function fails with a syntax error and there is no
string here, or it returns the bytes of the one string that is here, with their hash. -/
theorem stringToken_cases {src : List UInt8} {p : ℕ} (hp : p ≤ src.length) :
    (∃ e, stringToken src p = .error (.err e) ∧ e.syntactic ∧ ∀ out q, ¬ StringAt src p out q) ∨
      ∃ out q, StringAt src p out q ∧ stringToken src p = .ok (⟨out, jsonFnv1a out⟩, q) := by
  unfold stringToken measureString
  rcases measureLoop_spec (s := ⟨p, 0, false, 0x811C9DC5⟩) (le_refl (src.length - p)) hp with
    ⟨e, herr, he⟩ | ⟨out, esc, q, hash, hbody, hq, hend, hok, hhash⟩
  · refine .inl ⟨e, scan_bind_error herr, he, ?_⟩
    rintro out q ⟨esc, r, hbody, hend, -⟩
    obtain ⟨hash, hok⟩ := measureLoop_of_body hbody hend
      (s := ⟨p, 0, false, 0x811C9DC5⟩) rfl le_rfl
    exact absurd (herr.symm.trans hok) (by simp)
  · rw [scan_bind_ok hok]
    by_cases heof : q ≥ src.length
    · refine .inl ⟨_, if_pos heof, rfl, ?_⟩
      rintro out' q' ⟨esc', r, hbody', hend', -⟩
      obtain ⟨hash', hok'⟩ := measureLoop_of_body hbody' hend'
        (s := ⟨p, 0, false, 0x811C9DC5⟩) rfl le_rfl
      have hr := (List.getElem?_eq_some_iff.mp hend').1
      have := hok.symm.trans hok'
      simp only [Except.ok.injEq, StrScan.mk.injEq] at this
      omega
    · rw [if_neg heof]
      replace hend := hend (not_le.mp heof)
      by_cases hmax : out.length > jsonMaxStringLen
      · refine .inl ⟨.overflow, if_pos (by rw [Nat.zero_add]; exact hmax), rfl, ?_⟩
        rintro out' q' ⟨esc', r, hbody', hend', hmax', -⟩
        obtain ⟨rfl, -, -⟩ := hbody.unique hend hbody' hend'
        omega
      · refine .inr ⟨out, q + 1, ⟨esc, q, hbody, hend, not_lt.mp hmax, rfl⟩, ?_⟩
        rw [if_neg (by rw [Nat.zero_add]; exact hmax), Bool.false_or, Nat.zero_add]
        exact fillString_of_body hbody hend hhash

theorem StringAt.unique {src : List UInt8} {p q q' : ℕ} {out out' : List UInt8}
    (h : StringAt src p out q) (h' : StringAt src p out' q') : out = out' ∧ q = q' := by
  obtain ⟨esc, r, hbody, hend, -, rfl⟩ := h
  obtain ⟨esc', r', hbody', hend', -, rfl⟩ := h'
  obtain ⟨rfl, -, rfl⟩ := hbody.unique hend hbody' hend'
  exact ⟨rfl, rfl⟩

/-- A piece stands for no more bytes than it is long. -/
theorem StrItem.length_le {src : List UInt8} {p q : ℕ} {out : List UInt8} {esc : Bool}
    (h : StrItem src p out esc q) : out.length ≤ q - p := by
  cases h with
  | ascii => simp
  | multi => simp
  | simple => simp
  | unicode _ _ hhex =>
    rw [jsonEncodeUtf8_length_unit hhex.lt.1]
    split_ifs <;> omega
  | pair _ _ _ hhigh _ _ _ hlow =>
    have hb := surrogatePair_bounds hhigh hlow
    rw [jsonEncodeUtf8_length_pair hb.1 hb.2]
    omega

theorem StrBody.pos_le {src : List UInt8} {p q : ℕ} {out : List UInt8} {esc : Bool}
    (h : StrBody src p out esc q) : p ≤ q ∧ out.length ≤ q - p := by
  induction h with
  | nil p => simp
  | @cons p q r out out' esc esc' hitem _ ih =>
    have hq := hitem.pos_lt
    have hlen := hitem.length_le
    rw [List.length_append]
    omega

theorem StringAt.pos {src : List UInt8} {p q : ℕ} {out : List UInt8} (h : StringAt src p out q) :
    p < q ∧ q ≤ src.length ∧ out.length < q - p := by
  obtain ⟨esc, r, hbody, hend, -, rfl⟩ := h
  have hr := (List.getElem?_eq_some_iff.mp hend).1
  have := hbody.pos_le
  omega

/-- An ASCII character is its own encoding. -/
theorem encode_ascii {c : UInt8} (h : c.toNat < 0x80) :
    IsScalar c.toNat ∧ jsonEncodeUtf8 c.toNat = [c] :=
  ⟨⟨by omega, by omega⟩, jsonEncodeUtf8_one h rfl⟩

theorem simpleEscape_ascii {e b : UInt8} (h : simpleEscape e = some b) : b.toNat < 0x80 := by
  unfold simpleEscape at h
  split_ifs at h
  all_goals
    obtain rfl := Option.some.inj h
    decide

/-- A piece stands for one character. -/
theorem StrItem.encodes {src : List UInt8} {p q : ℕ} {out : List UInt8} {esc : Bool}
    (h : StrItem src p out esc q) : ∃ cp, IsScalar cp ∧ out = jsonEncodeUtf8 cp := by
  cases h with
  | ascii _ _ hhi =>
    obtain ⟨hcp, henc⟩ := encode_ascii hhi
    exact ⟨_, hcp, henc.symm⟩
  | multi hcp => exact ⟨_, hcp, rfl⟩
  | simple _ _ hb =>
    obtain ⟨hcp, henc⟩ := encode_ascii (simpleEscape_ascii hb)
    exact ⟨_, hcp, henc.symm⟩
  | unicode _ _ hhex hhigh hlow =>
    refine ⟨_, ⟨by have := hhex.lt.1; omega, fun hsur => ?_⟩, rfl⟩
    unfold IsHigh IsLow at *
    omega
  | pair _ _ _ hhigh _ _ _ hlow =>
    have hb := surrogatePair_bounds hhigh hlow
    exact ⟨_, ⟨hb.2, by omega⟩, rfl⟩

/-- A string token stands for well-formed UTF-8. -/
theorem StrBody.isUtf8 {src : List UInt8} {p q : ℕ} {out : List UInt8} {esc : Bool}
    (h : StrBody src p out esc q) : IsUtf8 out := by
  induction h with
  | nil p => exact isUtf8_nil
  | cons hitem _ ih =>
    obtain ⟨cp, hcp, rfl⟩ := hitem.encodes
    exact (IsUtf8.encode_append hcp).mpr ih

theorem StringAt.isUtf8 {src : List UInt8} {p q : ℕ} {out : List UInt8}
    (h : StringAt src p out q) : IsUtf8 out := by
  obtain ⟨esc, r, hbody, -⟩ := h
  exact hbody.isUtf8

variable {D : Type}

open ErrState

/-- **`json__parse_string`** returns what the token function returns, or runs out of
memory, and only the arena changes. -/
theorem jsonParseString_cases {src : List UInt8} {p : ℕ} (hp : p ≤ src.length) (s : St D) :
    (∃ e, stringToken src p = .error (.err e) ∧ e.syntactic ∧
      jsonParseString src p s = .error (.err e) s) ∨
    ∃ out q A', StringAt src p out q ∧ stringToken src p = .ok (⟨out, jsonFnv1a out⟩, q) ∧
      s.arena.Uses A' (out.length + 7) ∧
      (jsonParseString src p s = .ok (⟨out, jsonFnv1a out⟩, q) { s with arena := A' } ∨
        jsonParseString src p s = .error (.err .oom) { s with arena := A' } ∧
          ∀ m, ¬ s.arena.Roomy (out.length + 7 + m)) := by
  have htok := stringToken_cases hp
  unfold jsonParseString
  unfold stringToken at htok ⊢
  rcases measureLoop_spec (s := ⟨p, 0, false, 0x811C9DC5⟩) (le_refl (src.length - p)) hp with
    ⟨e, herr, he⟩ | ⟨out, esc, q, hash, hbody, hq, hend, hok, hhash⟩
  · have herr' : measureString src p = .error (.err e) := herr
    exact .inl ⟨e, scan_bind_error herr', he, bind_error (ofScan_error herr')⟩
  have hok' : measureString src p = .ok ⟨q, out.length, esc, hash⟩ := by
    rw [measureString, hok, Nat.zero_add, Bool.false_or]
  rw [scan_bind_ok hok'] at htok ⊢
  rw [bind_ok (ofScan_ok hok')]
  by_cases heof : q ≥ src.length
  · exact .inl ⟨_, if_pos heof, rfl, by rw [if_pos heof]; rfl⟩
  rw [if_neg heof] at htok ⊢
  rw [if_neg heof]
  by_cases hmax : out.length > jsonMaxStringLen
  · exact .inl ⟨_, if_pos hmax, rfl, by rw [if_pos hmax]; rfl⟩
  rw [if_neg hmax] at htok ⊢
  rw [if_neg hmax]
  have hfill := fillString_of_body hbody (hend (not_le.mp heof)) hhash
  obtain ⟨A', huses, hres⟩ := bufferFor_cases s (out.length > 0) out.length (by simp)
  refine .inr ⟨out, q + 1, A', ⟨esc, q, hbody, hend (not_le.mp heof), not_lt.mp hmax, rfl⟩, hfill,
    huses, hres.imp ?_ ?_⟩
  · intro hgrant
    rw [bind_ok hgrant]
    exact ofScan_ok hfill
  · rintro ⟨hrefuse, hroom⟩
    rw [bind_ok hrefuse]
    exact ⟨rfl, hroom⟩

/-! ## Number tokens -/

theorem isDigit_iff {c : UInt8} : isDigit c = true ↔ Decimal.IsDigit c := decide_eq_true_iff

theorem digitAt_eq (src : List UInt8) (p : ℕ) : digitAt src p = .ok (src[p]?.any isDigit) := by
  unfold digitAt
  by_cases hp : p ≥ src.length
  · rw [if_pos hp, List.getElem?_eq_none hp]
    rfl
  · rw [if_neg hp, List.getElem?_eq_getElem (not_le.mp hp), scan_bind_ok (rd_of_lt (not_le.mp hp))]
    rfl

theorem byteAt_eq (src : List UInt8) (p : ℕ) (cs : List UInt8) :
    byteAt src p cs = .ok (src[p]?.any cs.contains) := by
  unfold byteAt
  by_cases hp : p < src.length
  · rw [if_pos hp, List.getElem?_eq_getElem hp, scan_bind_ok (rd_of_lt hp)]
    rfl
  · rw [if_neg hp, List.getElem?_eq_none (not_lt.mp hp)]
    rfl

theorem lt_length_of_any {src : List UInt8} {p : ℕ} {f : UInt8 → Bool}
    (h : src[p]?.any f = true) : p < src.length := by
  by_contra hc
  rw [List.getElem?_eq_none (not_lt.mp hc)] at h
  simp at h

theorem digitStep_pos (fraction : Bool) (n : NumScan) (c : UInt8) :
    (digitStep fraction n c).pos = n.pos + 1 := by
  unfold digitStep fastDigit
  split_ifs <;> rfl

theorem digitsLoop_succ {src : List UInt8} {fraction : Bool} {fuel : ℕ} {n : NumScan} {c : UInt8}
    (hc : src[n.pos]? = some c) (hd : isDigit c = true) :
    digitsLoop src fraction (fuel + 1) n
      = digitsLoop src fraction fuel (digitStep fraction n c) := by
  rw [digitsLoop, if_pos (List.getElem?_eq_some_iff.mp hc).1, scan_bind_ok (rd_of_some hc),
    if_pos hd]

/-- The digit loops stop inside the text. -/
theorem digitsLoop_spec {src : List UInt8} {fraction : Bool} {fuel : ℕ} :
    ∀ {n : NumScan}, src.length - n.pos ≤ fuel → n.pos ≤ src.length →
      ∃ n', digitsLoop src fraction fuel n = .ok n' ∧ n.pos ≤ n'.pos ∧ n'.pos ≤ src.length := by
  induction fuel with
  | zero =>
    intro n hfuel hn
    exact ⟨n, by rw [digitsLoop, if_neg (by omega)], le_rfl, hn⟩
  | succ fuel ih =>
    intro n hfuel hn
    by_cases hlt : n.pos < src.length
    · have hc : src[n.pos]? = some src[n.pos] := List.getElem?_eq_getElem hlt
      by_cases hd : isDigit src[n.pos] = true
      · rw [digitsLoop_succ hc hd]
        have hpos := digitStep_pos fraction n src[n.pos]
        obtain ⟨n', hok, hle, hlen⟩ := ih (n := digitStep fraction n src[n.pos])
          (by omega) (by omega)
        exact ⟨n', hok, by omega, hlen⟩
      · refine ⟨n, ?_, le_rfl, hn⟩
        rw [digitsLoop, if_pos hlt, scan_bind_ok (rd_of_some hc), if_neg hd]
    · exact ⟨n, by rw [digitsLoop, if_neg hlt], le_rfl, hn⟩

theorem expLoop_spec {src : List UInt8} {fuel : ℕ} :
    ∀ {p : ℕ} {e : ℤ} {ok : Bool}, src.length - p ≤ fuel → p ≤ src.length →
      ∃ p' e' ok', expLoop src fuel p e ok = .ok (p', e', ok') ∧ p ≤ p' ∧ p' ≤ src.length := by
  induction fuel with
  | zero =>
    intro p e ok hfuel hp
    exact ⟨p, e, ok, by rw [expLoop, if_neg (by omega)], le_rfl, hp⟩
  | succ fuel ih =>
    intro p e ok hfuel hp
    rw [expLoop]
    by_cases hlt : p < src.length
    · rw [if_pos hlt, scan_bind_ok (rd_of_lt hlt)]
      have hnext : ∀ e' ok', ∃ p' e'' ok'', expLoop src fuel (p + 1) e' ok' = .ok (p', e'', ok'') ∧
          p ≤ p' ∧ p' ≤ src.length := fun e' ok' => by
        obtain ⟨p', e'', ok'', h, hle, hlen⟩ := @ih (p + 1) e' ok' (by omega) hlt
        exact ⟨p', e'', ok'', h, by omega, hlen⟩
      split_ifs
      · exact hnext _ _
      · exact hnext _ _
      · exact ⟨p, e, ok, rfl, le_rfl, hp⟩
    · rw [if_neg hlt]
      exact ⟨p, e, ok, rfl, le_rfl, hp⟩

/-- A part of a number is refused as a syntax error, or ends inside the text. -/
def PartOk (src : List UInt8) (p : ℕ) {α : Type} (pos : α → ℕ) (x : Scan α) : Prop :=
  (∃ e, x = .error (.err e) ∧ e.syntactic) ∨ ∃ a, x = .ok a ∧ p ≤ pos a ∧ pos a ≤ src.length

/-- A digit loop that starts on a digit consumes it. -/
theorem digitsLoop_ok {src : List UInt8} (fraction : Bool) {n : NumScan}
    (hn : src[n.pos]?.any isDigit = true) :
    PartOk src (n.pos + 1) NumScan.pos (digitsLoop src fraction (src.length - n.pos) n) := by
  have hlt := lt_length_of_any hn
  have hc : src[n.pos]? = some src[n.pos] := List.getElem?_eq_getElem hlt
  have hfuel : src.length - n.pos = src.length - n.pos - 1 + 1 := by omega
  rw [hc] at hn
  rw [hfuel, digitsLoop_succ hc hn, ← digitStep_pos fraction n src[n.pos]]
  have hpos := digitStep_pos fraction n src[n.pos]
  exact .inr (digitsLoop_spec (by omega) (by omega))

theorem intPart_ok {src : List UInt8} {n : NumScan} (hn : n.pos < src.length) :
    PartOk src (n.pos + 1) NumScan.pos (intPart src n) := by
  unfold intPart
  rw [scan_bind_ok (rd_of_lt hn)]
  by_cases h0 : src[n.pos] = 0x30
  · rw [if_pos h0, scan_bind_ok (digitAt_eq ..)]
    split_ifs
    · exact .inl ⟨_, rfl, rfl⟩
    · exact .inr ⟨_, rfl, le_rfl, hn⟩
  rw [if_neg h0]
  by_cases hd : isDigit src[n.pos] = true
  · rw [if_pos hd]
    exact digitsLoop_ok false (by rw [List.getElem?_eq_getElem hn]; exact hd)
  · rw [if_neg hd]
    exact .inl ⟨_, rfl, rfl⟩

theorem fracPart_ok {src : List UInt8} {n : NumScan} (hn : n.pos ≤ src.length) :
    PartOk src n.pos (fun r => r.1.pos) (fracPart src n) := by
  unfold fracPart
  rw [scan_bind_ok (byteAt_eq ..)]
  split_ifs with hdot
  · rw [scan_bind_ok (digitAt_eq ..)]
    split_ifs with hd
    · rcases digitsLoop_ok true (n := { n with pos := n.pos + 1 }) hd with
        ⟨e, herr, he⟩ | ⟨n', hok, hle, hlen⟩
      · exact .inl ⟨e, scan_bind_error herr, he⟩
      · have hle' : n.pos + 1 + 1 ≤ n'.pos := hle
        exact .inr ⟨(n', true), scan_bind_ok hok, by show n.pos ≤ n'.pos; omega, hlen⟩
    · exact .inl ⟨_, rfl, rfl⟩
  · exact .inr ⟨(n, false), rfl, le_rfl, hn⟩

theorem expDigits_ok {src : List UInt8} {n : NumScan} {p : ℕ} {expNeg : Bool} :
    PartOk src p (fun r => r.1.pos) (expDigits src n p expNeg) := by
  unfold expDigits
  rw [scan_bind_ok (digitAt_eq ..)]
  by_cases hd : src[p]?.any isDigit = true
  · obtain ⟨p', e', ok', hok, hle, hlen⟩ := @expLoop_spec src _ p 0 n.fastOk
      (le_refl (src.length - p)) (lt_length_of_any hd).le
    rw [if_pos hd]
    exact .inr ⟨_, scan_bind_ok hok, hle, hlen⟩
  · rw [if_neg hd]
    exact .inl ⟨_, rfl, rfl⟩

theorem PartOk.mono {src : List UInt8} {p q : ℕ} {α : Type} {pos : α → ℕ} {x : Scan α}
    (h : PartOk src q pos x) (hle : p ≤ q) : PartOk src p pos x :=
  h.imp_right fun ⟨a, ha, hq, hlen⟩ => ⟨a, ha, hle.trans hq, hlen⟩

theorem expPart_ok {src : List UInt8} {n : NumScan} (hn : n.pos ≤ src.length) :
    PartOk src n.pos (fun r => r.1.pos) (expPart src n) := by
  unfold expPart
  rw [scan_bind_ok (byteAt_eq ..)]
  split_ifs with he
  · rw [scan_bind_ok (byteAt_eq ..)]
    split_ifs with hs
    · rw [scan_bind_ok (byteAt_eq ..)]
      exact expDigits_ok.mono (by omega)
    · exact expDigits_ok.mono (by omega)
  · exact .inr ⟨(n, false), rfl, le_rfl, hn⟩

/-- Scanning a number consumes at least one byte, or fails with a syntax error. -/
theorem scanNumber_ok (src : List UInt8) (start : ℕ) :
    PartOk src (start + 1) (fun t => t.scan.pos) (scanNumber src start) := by
  unfold scanNumber
  rw [scan_bind_ok (byteAt_eq ..)]
  set pos := if src[start]?.any (List.contains [0x2D]) = true then start + 1 else start with hpos
  have hle : start ≤ pos := by split_ifs at hpos <;> omega
  by_cases heof : pos ≥ src.length
  · exact .inl ⟨_, if_pos heof, rfl⟩
  rw [if_neg heof]
  rcases intPart_ok (n := ⟨pos, true, 0, 0, 0⟩) (not_le.mp heof) with
    ⟨e, herr, he⟩ | ⟨n1, hok1, hle1, hlen1⟩
  · exact .inl ⟨e, scan_bind_error herr, he⟩
  rw [scan_bind_ok hok1]
  rcases fracPart_ok hlen1 with ⟨e, herr, he⟩ | ⟨⟨n2, hasFrac⟩, hok2, hle2, hlen2⟩
  · exact .inl ⟨e, scan_bind_error herr, he⟩
  rw [scan_bind_ok hok2]
  rcases expPart_ok hlen2 with ⟨e, herr, he⟩ | ⟨⟨n3, hasExp⟩, hok3, hle3, hlen3⟩
  · exact .inl ⟨e, scan_bind_error herr, he⟩
  refine .inr ⟨_, scan_bind_ok hok3, ?_, hlen3⟩
  have h1 : pos + 1 ≤ n1.pos := hle1
  have h2 : n1.pos ≤ n2.pos := hle2
  have h3 : n2.pos ≤ n3.pos := hle3
  show start + 1 ≤ n3.pos
  omega

theorem intResult_cases (t : NumToken) :
    (∃ e, intResult t = .error (.err e) ∧ e.syntactic) ∨ ∃ i, intResult t = .ok i := by
  unfold intResult
  split_ifs
  · exact .inl ⟨_, rfl, rfl⟩
  · exact .inr ⟨_, rfl⟩
  · exact .inr ⟨_, rfl⟩
  · exact .inr ⟨_, rfl⟩

variable [CDouble D]

theorem slowFloat_cases (token : List UInt8) :
    (∃ e, (slowFloat token : Scan (JsonNode D)) = .error (.err e) ∧ e.syntactic) ∨
      ∃ f, slowFloat token = .ok (.float (D := D) f) := by
  unfold slowFloat
  split_ifs
  · exact .inl ⟨_, rfl, rfl⟩
  · exact .inl ⟨_, rfl, rfl⟩
  · exact .inr ⟨_, rfl⟩

/-- The nodes that numbers are stored as. -/
def JsonNode.IsNumber : JsonNode D → Prop
  | .integer _ => True
  | .float _ => True
  | _ => False

/-- **Number tokens and `json__parse_number`.**  Both fail with the same syntax error,
or both return the same node and position, unless memory runs out; only the arena
changes. -/
theorem jsonParseNumber_cases {src : List UInt8} {p : ℕ} (hp : p ≤ src.length) (s : St D) :
    (∃ e A', (numberToken src p : Scan (JsonNode D × ℕ)) = .error (.err e) ∧ e.syntactic ∧
      s.arena.Uses A' (src.length - p + 8) ∧
      (jsonParseNumber src p s = .error (.err e) { s with arena := A' } ∨
        jsonParseNumber src p s = .error (.err .oom) { s with arena := A' } ∧
          ∀ m, ¬ s.arena.Roomy (src.length - p + 8 + m))) ∨
    ∃ node q A', (numberToken src p : Scan (JsonNode D × ℕ)) = .ok (node, q) ∧ node.IsNumber ∧
      p < q ∧ q ≤ src.length ∧ s.arena.Uses A' (q - p + 8) ∧
      (jsonParseNumber src p s = .ok (node, q) { s with arena := A' } ∨
        jsonParseNumber src p s = .error (.err .oom) { s with arena := A' } ∧
          ∀ m, ¬ s.arena.Roomy (q - p + 8 + m)) := by
  unfold numberToken jsonParseNumber
  rcases scanNumber_ok src p with ⟨e, herr, he⟩ | ⟨t, hok, hlt, hlen⟩
  · exact .inl ⟨e, s.arena, scan_bind_error herr, he, .refl ..,
      .inl (bind_error (ofScan_error herr))⟩
  rw [scan_bind_ok hok, bind_ok (ofScan_ok hok)]
  have hlt' : p < t.scan.pos := hlt
  have hlen' : t.scan.pos ≤ src.length := hlen
  by_cases hfloat : t.isFloat = true
  · rw [if_pos hfloat, if_pos hfloat]
    cases hfast : (fastFloat t : Option D) with
    | some f =>
      exact .inr ⟨.float f, t.scan.pos, s.arena, rfl, trivial, hlt, hlen, .refl .., .inl rfl⟩
    | none =>
      obtain ⟨A', huses, hres⟩ := bufferFor_cases s (t.scan.pos - p ≥ sizeofNumBuf)
        (t.scan.pos - p + 1) (fun _ => Nat.succ_pos _)
      have hcopy : copyBytes src p (t.scan.pos - p)
          = .ok ((src.drop p).take (t.scan.pos - p)) := if_pos (by omega)
      simp only [scan_bind_ok hcopy]
      rcases slowFloat_cases (D := D) ((src.drop p).take (t.scan.pos - p)) with
        ⟨e, herr, he⟩ | ⟨f, hf⟩
      · refine .inl ⟨e, A', scan_bind_error herr, he, huses.mono (by omega), hres.imp ?_ ?_⟩
        · intro hgrant
          rw [bind_ok hgrant, if_pos rfl, bind_ok (ofScan_ok hcopy), bind_error (ofScan_error herr)]
        · rintro ⟨hrefuse, hroom⟩
          rw [bind_ok hrefuse]
          exact ⟨rfl, fun m hm => hroom m (hm.mono (by omega))⟩
      · refine .inr ⟨.float f, t.scan.pos, A', scan_bind_ok hf, trivial, hlt, hlen, huses,
          hres.imp ?_ ?_⟩
        · intro hgrant
          rw [bind_ok hgrant, if_pos rfl, bind_ok (ofScan_ok hcopy), bind_ok (ofScan_ok hf)]
          rfl
        · rintro ⟨hrefuse, hroom⟩
          rw [bind_ok hrefuse]
          exact ⟨rfl, hroom⟩
  · rw [if_neg hfloat, if_neg hfloat]
    rcases intResult_cases t with ⟨e, herr, he⟩ | ⟨i, hi⟩
    · exact .inl ⟨e, s.arena, scan_bind_error herr, he, .refl ..,
        .inl (bind_error (ofScan_error herr))⟩
    · exact .inr ⟨.integer i, t.scan.pos, s.arena, scan_bind_ok hi, trivial, hlt, hlen, .refl ..,
        .inl (by rw [bind_ok (ofScan_ok hi)]; rfl)⟩

end SJson
