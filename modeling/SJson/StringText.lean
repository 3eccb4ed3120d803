/-
# String tokens as RFC 8259 writes them

The string grammar of `LexerSpec` follows the positions of the source and speaks of
hexadecimal digits, escapes and characters through the functions of the code.  Here the
string production of RFC 8259 stands on its own: a text is cut into the characters and
escapes it is written with, each of them means one Unicode scalar value (a Lean `Char`),
and the token stands for their UTF-8 encodings, which are Lean's own.

The two grammars agree (`stringAt_iff`), so `json__parse_string` accepts exactly the
strings of RFC 8259 up to the limit on their length, and both of its passes do what the
grammar says (`jsonParseString_rfc8259`).
-/
import SJson.LexerSpec

namespace SJson

/-! ## The grammar -/

/-- `HEXDIG`, in both cases, with its value. -/
inductive HexDigit : UInt8 → ℕ → Prop
  | digit {n : ℕ} (h : n < 10) : HexDigit (.ofNat (0x30 + n)) n
  | lower {n : ℕ} (h : n < 6) : HexDigit (.ofNat (0x61 + n)) (10 + n)
  | upper {n : ℕ} (h : n < 6) : HexDigit (.ofNat (0x41 + n)) (10 + n)

/-- `4HEXDIG` with the code unit it spells. -/
inductive HexQuad : List UInt8 → ℕ → Prop
  | mk {c0 c1 c2 c3 : UInt8} {h0 h1 h2 h3 : ℕ} (d0 : HexDigit c0 h0) (d1 : HexDigit c1 h1)
      (d2 : HexDigit c2 h2) (d3 : HexDigit c3 h3) :
      HexQuad [c0, c1, c2, c3] (h0 * 4096 + h1 * 256 + h2 * 16 + h3)

theorem HexQuad.length_eq {ds : List UInt8} {v : ℕ} (h : HexQuad ds v) : ds.length = 4 := by
  cases h
  rfl

/-- The eight letters behind a backslash and the code points they mean. -/
def escapeTable : List (UInt8 × ℕ) :=
  [(0x22, 0x22), (0x5C, 0x5C), (0x2F, 0x2F), (0x62, 0x08), (0x66, 0x0C), (0x6E, 0x0A),
    (0x72, 0x0D), (0x74, 0x09)]

/-- One `char` of the string production and the character it means.  A `Char` is never a
surrogate, so that a lone one cannot be written. -/
inductive CharText : List UInt8 → Char → Prop
  /-- `unescaped`: the UTF-8 encoding of the character. -/
  | raw {c : Char} (hcontrol : 0x20 ≤ c.toNat) (hquote : c.toNat ≠ 0x22)
      (hslash : c.toNat ≠ 0x5C) : CharText (String.utf8EncodeChar c) c
  /-- A backslash and one letter. -/
  | escape {e : UInt8} {c : Char} (h : (e, c.toNat) ∈ escapeTable) : CharText [0x5C, e] c
  /-- `\uXXXX`. -/
  | unit {ds : List UInt8} {c : Char} (h : HexQuad ds c.toNat) : CharText (0x5C :: 0x75 :: ds) c
  /-- `\uXXXX\uXXXX`, a high surrogate and a low one. -/
  | pair {ds ds' : List UInt8} {hi lo : ℕ} {c : Char} (h : HexQuad ds hi) (h' : HexQuad ds' lo)
      (hhigh : 0xD800 ≤ hi ∧ hi ≤ 0xDBFF) (hlow : 0xDC00 ≤ lo ∧ lo ≤ 0xDFFF)
      (hc : c.toNat = 0x10000 + (hi - 0xD800) * 0x400 + (lo - 0xDC00)) :
      CharText (0x5C :: 0x75 :: (ds ++ 0x5C :: 0x75 :: ds')) c

/-- `*char` and the characters it means. -/
inductive CharsText : List UInt8 → List Char → Prop
  | nil : CharsText [] []
  | cons {text text' : List UInt8} {c : Char} {cs : List Char} (h : CharText text c)
      (t : CharsText text' cs) : CharsText (text ++ text') (c :: cs)

/-- The UTF-8 encoding of a string. -/
def utf8Bytes (cs : List Char) : List UInt8 := cs.flatMap String.utf8EncodeChar

@[simp]
theorem utf8Bytes_nil : utf8Bytes [] = [] := rfl

@[simp]
theorem utf8Bytes_cons (c : Char) (cs : List Char) :
    utf8Bytes (c :: cs) = String.utf8EncodeChar c ++ utf8Bytes cs := List.flatMap_cons

/-! ## Characters and scalar values -/

theorem isScalar_toNat (c : Char) : IsScalar c.toNat := by
  have h := c.valid
  unfold UInt32.isValidChar Nat.isValidChar at h
  show c.val.toNat ≤ 0x10FFFF ∧ ¬ (0xD800 ≤ c.val.toNat ∧ c.val.toNat ≤ 0xDFFF)
  omega

/-- Every scalar value is a character. -/
theorem IsScalar.exists_char {cp : ℕ} (h : IsScalar cp) : ∃ c : Char, c.toNat = cp := by
  have hvalid : cp.isValidChar := by
    unfold IsScalar at h
    unfold Nat.isValidChar
    omega
  refine ⟨Char.ofNat cp, ?_⟩
  rw [Char.ofNat, dif_pos hvalid]
  rfl

/-- `json__encode_utf8` is the UTF-8 encoding of Lean. -/
theorem jsonEncodeUtf8_char (c : Char) : jsonEncodeUtf8 c.toNat = String.utf8EncodeChar c := by
  have hc := isScalar_toNat c
  rw [show c.toNat = c.val.toNat from rfl] at hc ⊢
  unfold jsonEncodeUtf8 String.utf8EncodeChar
  generalize c.val.toNat = n at hc ⊢
  have hbyte : ∀ {a b : ℕ}, a = b → UInt8.ofNat a = UInt8.ofNat b := fun h => congrArg _ h
  have hlast : UInt8.ofNat (0x80 + n % 64) = UInt8.ofNat (n % 0x40 + 0x80) := hbyte (by omega)
  show _ = if n ≤ 0x7F then _ else if n ≤ 0x7FF then _ else if n ≤ 0xFFFF then _ else _
  -- the two definitions cut at the same code points
  rcases Nat.lt_or_ge n 0x80 with h1 | h1
  · rw [if_pos h1, if_pos (by omega)]
  rcases Nat.lt_or_ge n 0x800 with h2 | h2
  · rw [if_neg (by omega), if_pos h2, if_neg (by omega), if_pos (by omega), hlast,
      hbyte (show 0xC0 + n / 64 = n / 64 % 0x20 + 0xC0 by omega)]
  rw [hbyte (show 0x80 + n / 64 % 64 = n / 64 % 0x40 + 0x80 by omega), hlast]
  rcases Nat.lt_or_ge n 0x10000 with h3 | h3
  · rw [if_neg (by omega), if_neg (by omega), if_pos h3, if_neg (by omega), if_neg (by omega),
      if_pos (by omega), hbyte (show 0xE0 + n / 4096 = n / 4096 % 0x10 + 0xE0 by omega)]
  · have hmax : n ≤ 0x10FFFF := hc.1
    rw [if_neg (by omega), if_neg (by omega), if_neg (by omega), if_pos hmax, if_neg (by omega),
      if_neg (by omega), if_neg (by omega),
      hbyte (show 0xF0 + n / 262144 = n / 262144 % 0x08 + 0xF0 by omega),
      hbyte (show 0x80 + n / 4096 % 64 = n / 4096 % 0x40 + 0x80 by omega)]

/-! ## Digits and escapes -/

theorem hexDigit_iff {c : UInt8} {n : ℕ} : HexDigit c n ↔ jsonHexVal c = n ∧ n < 16 := by
  constructor
  · intro h
    cases h with
    | @digit n h => interval_cases n <;> decide
    | @lower n h => interval_cases n <;> decide
    | @upper n h => interval_cases n <;> decide
  · rintro ⟨hval, hlt⟩
    unfold jsonHexVal at hval
    split_ifs at hval with h1 h2 h3
    · obtain rfl : UInt8.ofNat (0x30 + n) = c := ofNat_eq_of_toNat (by omega)
      exact .digit (by omega)
    · obtain ⟨k, rfl⟩ : ∃ k, n = 10 + k := ⟨n - 10, by omega⟩
      obtain rfl : UInt8.ofNat (0x61 + k) = c := ofNat_eq_of_toNat (by omega)
      exact .lower (by omega)
    · obtain ⟨k, rfl⟩ : ∃ k, n = 10 + k := ⟨n - 10, by omega⟩
      obtain rfl : UInt8.ofNat (0x41 + k) = c := ofNat_eq_of_toNat (by omega)
      exact .upper (by omega)
    · omega

/-- Four hexadecimal digits in a row, as the code reads them and as they are written. -/
theorem hex4At_iff {src : List UInt8} {p v : ℕ} :
    Hex4At src p v ↔ ∃ ds rest, src.drop p = ds ++ rest ∧ HexQuad ds v := by
  constructor
  · intro h
    have hlen := h.lt.2
    obtain ⟨c0, c1, c2, c3, rest, hsrc⟩ :
        ∃ c0 c1 c2 c3 rest, src.drop p = c0 :: c1 :: c2 :: c3 :: rest := by
      have hdrop : (src.drop p).length = src.length - p := List.length_drop ..
      match hl : src.drop p, hdrop with
      | c0 :: c1 :: c2 :: c3 :: rest, _ => exact ⟨c0, c1, c2, c3, rest, rfl⟩
      | [], hd | [_], hd | [_, _], hd | [_, _, _], hd => simp at hd; omega
    unfold Hex4At hex4At jsonParseHex4 at h
    rw [if_neg (by omega), hsrc] at h
    have hjoin : hexJoin (jsonHexVal c0) (jsonHexVal c1) (jsonHexVal c2) (jsonHexVal c3) =
        some v := by
      have h' : (Except.ok (hexJoin (jsonHexVal c0) (jsonHexVal c1) (jsonHexVal c2)
        (jsonHexVal c3)) : Scan (Option ℕ)) = .ok (some v) := h
      exact Except.ok.inj h'
    unfold hexJoin at hjoin
    split_ifs at hjoin with hbad
    simp only [not_or] at hbad
    obtain ⟨h0, h1, h2, h3⟩ := hbad
    obtain rfl := Option.some.inj hjoin
    exact ⟨_, rest, hsrc, .mk (hexDigit_iff.mpr ⟨rfl, jsonHexVal_lt h0⟩)
      (hexDigit_iff.mpr ⟨rfl, jsonHexVal_lt h1⟩) (hexDigit_iff.mpr ⟨rfl, jsonHexVal_lt h2⟩)
      (hexDigit_iff.mpr ⟨rfl, jsonHexVal_lt h3⟩)⟩
  · rintro ⟨ds, rest, hsrc, ⟨d0, d1, d2, d3⟩⟩
    obtain ⟨rfl, b0⟩ := hexDigit_iff.mp d0
    obtain ⟨rfl, b1⟩ := hexDigit_iff.mp d1
    obtain ⟨rfl, b2⟩ := hexDigit_iff.mp d2
    obtain ⟨rfl, b3⟩ := hexDigit_iff.mp d3
    have hlen := congrArg List.length hsrc
    rw [List.length_drop, List.length_append] at hlen
    simp only [List.length_cons, List.length_nil] at hlen
    unfold Hex4At hex4At jsonParseHex4
    rw [if_neg (by omega), hsrc]
    show (Except.ok (hexJoin _ _ _ _) : Scan (Option ℕ)) = _
    rw [hexJoin, if_neg (by omega)]

theorem simpleEscape_iff {e b : UInt8} :
    simpleEscape e = some b ↔ (e, b.toNat) ∈ escapeTable := by
  constructor
  · intro h
    unfold simpleEscape at h
    split_ifs at h
    all_goals
      subst e
      obtain rfl := Option.some.inj h
      decide
  · intro h
    simp only [escapeTable, List.mem_cons, Prod.mk.injEq, List.not_mem_nil, or_false] at h
    rcases h with ⟨rfl, hb⟩ | ⟨rfl, hb⟩ | ⟨rfl, hb⟩ | ⟨rfl, hb⟩ | ⟨rfl, hb⟩ | ⟨rfl, hb⟩ |
      ⟨rfl, hb⟩ | ⟨rfl, hb⟩
    all_goals
      obtain rfl := ofNat_eq_of_toNat hb
      rfl

theorem escapeTable_lt {e : UInt8} {n : ℕ} (h : (e, n) ∈ escapeTable) : n < 0x80 := by
  simp only [escapeTable, List.mem_cons, Prod.mk.injEq, List.not_mem_nil, or_false] at h
  omega

/-! ## The two grammars -/

theorem drop_of_getElem? {src : List UInt8} {p : ℕ} {c : UInt8} (h : src[p]? = some c) :
    src.drop p = c :: src.drop (p + 1) := by
  obtain ⟨hp, rfl⟩ := List.getElem?_eq_some_iff.mp h
  exact List.drop_eq_getElem_cons hp

theorem getElem?_of_drop {src a rest : List UInt8} {p : ℕ} {c : UInt8}
    (h : src.drop p = a ++ c :: rest) : src[p + a.length]? = some c := by
  rw [← List.getElem?_drop, h, List.getElem?_append_right le_rfl, Nat.sub_self]
  rfl

/-- The piece the lexer sees is written as one character or escape. -/
theorem StrItem.charText {src : List UInt8} {p q : ℕ} {out : List UInt8} {esc : Bool}
    (h : StrItem src p out esc q) :
    ∃ text c, CharText text c ∧ src.drop p = text ++ src.drop q ∧ q = p + text.length ∧
      out = String.utf8EncodeChar c := by
  cases h with
  | @ascii b hc hlo hhi hquote hslash =>
    obtain ⟨hcp, henc⟩ := encode_ascii hhi
    obtain ⟨c, hcn⟩ := hcp.exists_char
    have hbyte : String.utf8EncodeChar c = [b] := by rw [← jsonEncodeUtf8_char, hcn, henc]
    refine ⟨[b], c, hbyte ▸ .raw (by omega) ?_ ?_, drop_of_getElem? hc, rfl, hbyte.symm⟩
    · rw [hcn]
      exact fun h => hquote (UInt8.toNat_inj.mp h)
    · rw [hcn]
      exact fun h => hslash (UInt8.toNat_inj.mp h)
  | @multi cp rest hcp hlo hsrc =>
    obtain ⟨c, rfl⟩ := hcp.exists_char
    refine ⟨_, c, jsonEncodeUtf8_char c ▸ .raw (by omega) (by omega) (by omega), ?_, rfl,
      jsonEncodeUtf8_char c⟩
    rw [drop_add_of_append hsrc]
    exact hsrc
  | @simple e b hslash he hb =>
    obtain ⟨hcp, henc⟩ := encode_ascii (simpleEscape_ascii hb)
    obtain ⟨c, hcn⟩ := hcp.exists_char
    refine ⟨[0x5C, e], c, .escape (hcn ▸ simpleEscape_iff.mp hb), ?_, rfl, ?_⟩
    · rw [drop_of_getElem? hslash, drop_of_getElem? he]
      rfl
    · rw [← jsonEncodeUtf8_char, hcn, henc]
  | @unicode u hslash hu hhex hhigh hlow =>
    have hscalar : IsScalar u := by
      have := hhex.lt.1
      unfold IsHigh IsLow at *
      unfold IsScalar
      omega
    obtain ⟨c, rfl⟩ := hscalar.exists_char
    obtain ⟨ds, rest, hsrc, hquad⟩ := hex4At_iff.mp hhex
    have hlen := hquad.length_eq
    refine ⟨_, c, .unit hquad, ?_, by simp [hlen], jsonEncodeUtf8_char c⟩
    rw [drop_of_getElem? hslash, drop_of_getElem? hu, hsrc,
      show p + 6 = p + 2 + ds.length by omega, drop_add_of_append hsrc]
    rfl
  | @pair hi lo hslash hu hhex hhigh hslash' hu' hhex' hlow =>
    have hb := surrogatePair_bounds hhigh hlow
    obtain ⟨c, hc⟩ := (show IsScalar _ from ⟨hb.2, by omega⟩).exists_char
    obtain ⟨ds, rest, hsrc, hquad⟩ := hex4At_iff.mp hhex
    obtain ⟨ds', rest', hsrc', hquad'⟩ := hex4At_iff.mp hhex'
    have hlen := hquad.length_eq
    have hlen' := hquad'.length_eq
    have hrest := drop_add_of_append hsrc
    have hrest' := drop_add_of_append hsrc'
    rw [hlen] at hrest
    rw [hlen'] at hrest'
    refine ⟨_, c, .pair hquad hquad' hhigh hlow hc, ?_, by simp [hlen, hlen'], ?_⟩
    · rw [drop_of_getElem? hslash, drop_of_getElem? hu, hsrc, ← hrest, drop_of_getElem? hslash',
        drop_of_getElem? hu', hsrc', hrest']
      simp
    · rw [← jsonEncodeUtf8_char, hc]

/-- A written character or escape is a piece the lexer sees. -/
theorem CharText.strItem {src text rest : List UInt8} {p : ℕ} {c : Char} (h : CharText text c)
    (hsrc : src.drop p = text ++ rest) :
    ∃ esc, StrItem src p (String.utf8EncodeChar c) esc (p + text.length) := by
  cases h with
  | raw hcontrol hquote hslash =>
    rw [← jsonEncodeUtf8_char] at hsrc ⊢
    by_cases hascii : c.toNat < 0x80
    · have hone : jsonEncodeUtf8 c.toNat = [UInt8.ofNat c.toNat] := if_pos hascii
      have hnat : (UInt8.ofNat c.toNat).toNat = c.toNat := toNat_ofNat (by omega)
      rw [hone] at hsrc ⊢
      refine ⟨false, .ascii (getElem?_of_drop (a := []) hsrc) (by omega) (by omega) ?_ ?_⟩
      · exact fun h => hquote (by rw [← hnat, h]; rfl)
      · exact fun h => hslash (by rw [← hnat, h]; rfl)
    · exact ⟨false, .multi (isScalar_toNat c) (by omega) hsrc⟩
  | @escape e _ htable =>
    have hlt := escapeTable_lt htable
    have hnat : (UInt8.ofNat c.toNat).toNat = c.toNat := toNat_ofNat (by omega)
    have hone : jsonEncodeUtf8 c.toNat = [UInt8.ofNat c.toNat] := if_pos hlt
    rw [← jsonEncodeUtf8_char, hone]
    exact ⟨true, .simple (getElem?_of_drop (a := []) hsrc) (getElem?_of_drop (a := [0x5C]) hsrc)
      (simpleEscape_iff.mpr (hnat.symm ▸ htable))⟩
  | @unit ds _ hquad =>
    have hscalar := isScalar_toNat c
    have hlen := hquad.length_eq
    have hhex : Hex4At src (p + 2) c.toNat :=
      hex4At_iff.mpr ⟨ds, rest, drop_add_of_append (a := [0x5C, 0x75]) hsrc, hquad⟩
    rw [← jsonEncodeUtf8_char]
    refine ⟨true, ?_⟩
    rw [show p + (0x5C :: 0x75 :: ds).length = p + 6 by simp [hlen]]
    refine .unicode (getElem?_of_drop (a := []) hsrc) (getElem?_of_drop (a := [0x5C]) hsrc) hhex
      ?_ ?_
    · unfold IsScalar at hscalar
      unfold IsHigh
      omega
    · unfold IsScalar at hscalar
      unfold IsLow
      omega
  | @pair ds ds' hi lo _ hquad hquad' hhigh hlow hc =>
    have hlen := hquad.length_eq
    have hlen' := hquad'.length_eq
    have hsrc6 : src.drop (p + 6) = 0x5C :: 0x75 :: (ds' ++ rest) := by
      have hsplit : src.drop p = (0x5C :: 0x75 :: ds) ++ 0x5C :: 0x75 :: (ds' ++ rest) := by
        rw [hsrc]
        simp
      have hdrop := drop_add_of_append hsplit
      rwa [show p + (0x5C :: 0x75 :: ds).length = p + 6 by simp [hlen]] at hdrop
    have hhex : Hex4At src (p + 2) hi :=
      hex4At_iff.mpr ⟨ds, 0x5C :: 0x75 :: (ds' ++ rest),
        drop_add_of_append (a := [0x5C, 0x75]) (by rw [hsrc]; simp), hquad⟩
    have hhex' : Hex4At src (p + 8) lo :=
      hex4At_iff.mpr ⟨ds', rest, drop_add_of_append (a := [0x5C, 0x75]) hsrc6, hquad'⟩
    rw [← jsonEncodeUtf8_char, hc,
      show p + (0x5C :: 0x75 :: (ds ++ 0x5C :: 0x75 :: ds')).length = p + 12 by simp [hlen, hlen']]
    exact ⟨true, .pair (getElem?_of_drop (a := []) hsrc) (getElem?_of_drop (a := [0x5C]) hsrc)
      hhex hhigh (getElem?_of_drop (a := []) hsrc6) (getElem?_of_drop (a := [0x5C]) hsrc6) hhex'
      hlow⟩

/-- A run of pieces is a run of characters and escapes. -/
theorem StrBody.charsText {src : List UInt8} {p q : ℕ} {out : List UInt8} {esc : Bool}
    (h : StrBody src p out esc q) :
    ∃ text cs, CharsText text cs ∧ src.drop p = text ++ src.drop q ∧ q = p + text.length ∧
      out = utf8Bytes cs := by
  induction h with
  | nil p => exact ⟨[], [], .nil, rfl, rfl, rfl⟩
  | cons hitem _ ih =>
    obtain ⟨text, c, hc, hsrc, hq, hout⟩ := hitem.charText
    obtain ⟨text', cs, hcs, hsrc', hr, hout'⟩ := ih
    refine ⟨text ++ text', c :: cs, .cons hc hcs, ?_, ?_, ?_⟩
    · rw [hsrc, hsrc', List.append_assoc]
    · rw [hr, hq, List.length_append, Nat.add_assoc]
    · rw [hout, hout', utf8Bytes_cons]

theorem CharsText.strBody {src text : List UInt8} {cs : List Char} (h : CharsText text cs) :
    ∀ {p : ℕ} {rest : List UInt8}, src.drop p = text ++ rest →
      ∃ esc, StrBody src p (utf8Bytes cs) esc (p + text.length) := by
  induction h with
  | nil =>
    intro p _ _
    exact ⟨false, .nil p⟩
  | @cons text text' c cs hc _ ih =>
    intro p rest hsrc
    rw [List.append_assoc] at hsrc
    obtain ⟨esc, hitem⟩ := hc.strItem hsrc
    obtain ⟨esc', hbody⟩ := ih (drop_add_of_append hsrc)
    refine ⟨esc || esc', ?_⟩
    rw [utf8Bytes_cons, List.length_append, ← Nat.add_assoc]
    exact .cons hitem hbody

/-- **The two grammars agree.**  A string token of the lexer is the text of a string of
RFC 8259 with its closing quotation mark, and stands for the encoding of its characters. -/
theorem stringAt_iff {src : List UInt8} {p q : ℕ} {out : List UInt8} :
    StringAt src p out q ↔
      ∃ text cs rest, CharsText text cs ∧ src.drop p = text ++ 0x22 :: rest ∧
        q = p + text.length + 1 ∧ out = utf8Bytes cs ∧ out.length ≤ jsonMaxStringLen := by
  constructor
  · rintro ⟨esc, r, hbody, hend, hmax, rfl⟩
    obtain ⟨text, cs, hcs, hsrc, rfl, hout⟩ := hbody.charsText
    rw [drop_of_getElem? hend] at hsrc
    exact ⟨text, cs, _, hcs, hsrc, rfl, hout, hmax⟩
  · rintro ⟨text, cs, rest, hcs, hsrc, rfl, rfl, hmax⟩
    obtain ⟨esc, hbody⟩ := hcs.strBody hsrc
    exact ⟨esc, _, hbody, getElem?_of_drop hsrc, hmax, rfl⟩

/-! ## The token function -/

/-- The second pass leaves exactly these bytes in its buffer of `m.outLen` bytes: it
decodes if the first pass has met an escape, and copies otherwise. -/
def SecondPass (src : List UInt8) (p : ℕ) (m : StrScan) (out : List UInt8) : Prop :=
  if m.hasEscape then decodeLoop src m.outLen (src.length - p) p [] = .ok (out, m.scanPos)
  else copyBytes src p m.outLen = .ok out

/-- The two passes over a body of the grammar stay in step. -/
theorem StrBody.passes {src : List UInt8} {p q : ℕ} {out : List UInt8} {esc : Bool}
    (h : StrBody src p out esc q) (hend : src[q]? = some 0x22) :
    ∃ m, measureString src p = .ok m ∧ m.scanPos = q ∧ m.outLen = out.length ∧
      SecondPass src p m out := by
  obtain ⟨hash, hm⟩ := measureLoop_of_body h hend (s := ⟨p, 0, false, 0x811C9DC5⟩) rfl le_rfl
  rw [Nat.zero_add, Bool.false_or] at hm
  refine ⟨⟨q, out.length, esc, hash⟩, hm, rfl, rfl, ?_⟩
  unfold SecondPass
  cases esc with
  | true =>
    rw [if_pos rfl]
    exact decodeLoop_of_body h hend le_rfl (by simp)
  | false =>
    obtain ⟨rfl, hout⟩ := h.raw rfl
    have hlt := (List.getElem?_eq_some_iff.mp hend).1
    rw [if_neg Bool.false_ne_true, copyBytes, if_pos (by show p + out.length ≤ _; omega)]
    exact congrArg _ hout

variable {D : Type}

open ErrState

/-- **String tokens are the strings of RFC 8259.**  With memory, `json__parse_string`
succeeds exactly on the text of a string that its closing quotation mark ends and that
stands for at most `JSON_MAX_STRING_LEN` bytes.  It then returns these bytes with their
hash and the position behind the quotation mark; the first pass has counted the bytes the
second one writes.  On no text does it fault. -/
theorem jsonParseString_rfc8259 {src : List UInt8} {p : ℕ} (hp : p ≤ src.length) {s : St D}
    (hroom : s.arena.Roomy (jsonMaxStringLen + 7)) :
    ((∃ str q s', jsonParseString src p s = .ok (str, q) s') ↔
      ∃ text cs rest, CharsText text cs ∧ src.drop p = text ++ 0x22 :: rest ∧
        (utf8Bytes cs).length ≤ jsonMaxStringLen) ∧
    (∀ text cs rest, CharsText text cs → src.drop p = text ++ 0x22 :: rest →
      (utf8Bytes cs).length ≤ jsonMaxStringLen →
        (∃ m, measureString src p = .ok m ∧ m.scanPos = p + text.length ∧
          m.outLen = (utf8Bytes cs).length ∧ SecondPass src p m (utf8Bytes cs)) ∧
        ∃ A, jsonParseString src p s =
          .ok (⟨utf8Bytes cs, jsonFnv1a (utf8Bytes cs)⟩, p + text.length + 1)
            { s with arena := A }) ∧
    ∀ f s', jsonParseString src p s ≠ .error (.fault f) s' := by
  -- with memory, the token function finds the string that is here or there is none
  have hcases : (∃ e, jsonParseString src p s = .error (.err e) s ∧
      ∀ out q, ¬ StringAt src p out q) ∨
      ∃ out q A, StringAt src p out q ∧
        jsonParseString src p s = .ok (⟨out, jsonFnv1a out⟩, q) { s with arena := A } := by
    rcases jsonParseString_cases hp s with ⟨e, htok, -, herr⟩ | ⟨out, q, A, hat, -, -, hok | hoom⟩
    · refine .inl ⟨e, herr, ?_⟩
      rcases stringToken_cases hp with ⟨-, -, -, hno⟩ | ⟨out, q, -, hok⟩
      · exact hno
      · rw [htok] at hok
        cases hok
    · exact .inr ⟨out, q, A, hat, hok⟩
    · obtain ⟨-, -, -, -, hmax, -⟩ := hat
      exact absurd (hroom.mono (by omega)) (hoom.2 0)
  refine ⟨⟨?_, ?_⟩, ?_, ?_⟩
  · rintro ⟨str, q, s', hok⟩
    rcases hcases with ⟨e, herr, -⟩ | ⟨out, r, A, hat, -⟩
    · rw [herr] at hok
      cases hok
    · obtain ⟨text, cs, rest, hcs, hsrc, -, rfl, hmax⟩ := stringAt_iff.mp hat
      exact ⟨text, cs, rest, hcs, hsrc, hmax⟩
  · rintro ⟨text, cs, rest, hcs, hsrc, hmax⟩
    have hat := stringAt_iff.mpr ⟨text, cs, rest, hcs, hsrc, rfl, rfl, hmax⟩
    rcases hcases with ⟨e, -, hno⟩ | ⟨out, r, A, -, hok⟩
    · exact absurd hat (hno _ _)
    · exact ⟨_, _, _, hok⟩
  · intro text cs rest hcs hsrc hmax
    have hat := stringAt_iff.mpr ⟨text, cs, rest, hcs, hsrc, rfl, rfl, hmax⟩
    constructor
    · obtain ⟨esc, hbody⟩ := hcs.strBody hsrc
      exact hbody.passes (getElem?_of_drop hsrc)
    · rcases hcases with ⟨e, -, hno⟩ | ⟨out, r, A, hat', hok⟩
      · exact absurd hat (hno _ _)
      · obtain ⟨rfl, rfl⟩ := hat.unique hat'
        exact ⟨A, hok⟩
  · intro f s' hfault
    rcases hcases with ⟨e, herr, -⟩ | ⟨out, r, A, -, hok⟩
    · rw [herr] at hfault
      cases hfault
    · rw [hok] at hfault
      cases hfault

/-- The token `A\u00e9` behind its opening quotation mark. -/
theorem jsonParseString_rfc8259_eAcute :
    ∃ (s : St Unit) (A : Arena),
      jsonParseString [0x41, 0x5C, 0x75, 0x30, 0x30, 0x65, 0x39, 0x22] 0 s =
        .ok (⟨[0x41, 0xC3, 0xA9], jsonFnv1a [0x41, 0xC3, 0xA9]⟩, 8) { s with arena := A } := by
  obtain ⟨A, hA⟩ := Arena.exists_fresh
  have hquad : HexQuad [0x30, 0x30, 0x65, 0x39] (Char.ofNat 0xE9).toNat :=
    .mk (.digit (n := 0) (by decide)) (.digit (n := 0) (by decide))
      (.lower (n := 4) (by decide)) (.digit (n := 9) (by decide))
  have htext : CharsText ([0x41] ++ (0x5C :: 0x75 :: [0x30, 0x30, 0x65, 0x39] ++ []))
      [Char.ofNat 0x41, Char.ofNat 0xE9] :=
    .cons (.raw (c := Char.ofNat 0x41) (by decide) (by decide) (by decide))
      (.cons (.unit hquad) .nil)
  have hp : 0 ≤ ([0x41, 0x5C, 0x75, 0x30, 0x30, 0x65, 0x39, 0x22] : List UInt8).length := by
    decide
  obtain ⟨-, h, -⟩ := jsonParseString_rfc8259 hp (s := (⟨.empty, A⟩ : St Unit))
    (hA.roomy (by decide))
  obtain ⟨-, A', hok⟩ := h _ _ [] htext rfl (by decide)
  exact ⟨_, A', hok⟩

end SJson
