/-
# The UTF-8 codec

`src/sJson.c`, lines 910-989: `json__parse_hex4`, `json__encode_utf8`,
`json__utf8_decode` and `json__valid_utf8`.

* A pointer into a buffer is the list of the bytes from there on; a read is `rd`.
* Code points are natural numbers below `2^32`.  Masks and shifts that select or
  join disjoint bit groups are written with `%`, `/` and `+`.

The decoder inverts the encoder (`jsonUtf8Decode_encode`), accepts nothing else
(`jsonUtf8Decode_sound`), and never reads behind `size` (`jsonUtf8Decode_safe`).
-/
import SJson.Basic

namespace SJson

/-! ## Hexadecimal digits -/

/-- `json__hex_val`. -/
def jsonHexVal (c : UInt8) : ℕ :=
  if 0x30 ≤ c.toNat ∧ c.toNat ≤ 0x39 then c.toNat - 0x30
  else if 0x61 ≤ c.toNat ∧ c.toNat ≤ 0x66 then c.toNat - 0x61 + 10
  else if 0x41 ≤ c.toNat ∧ c.toNat ≤ 0x46 then c.toNat - 0x41 + 10
  else 0xFF

/-- The number that four digit values make up.  The values are at most 15 or equal to
255, so that the join of their bits is 255 exactly when one of them is. -/
def hexJoin (h0 h1 h2 h3 : ℕ) : Option ℕ :=
  if h0 = 0xFF ∨ h1 = 0xFF ∨ h2 = 0xFF ∨ h3 = 0xFF then none
  else some (h0 * 4096 + h1 * 256 + h2 * 16 + h3)

/-- `json__parse_hex4`; `none` is the result `false`. -/
def jsonParseHex4 (s : List UInt8) (max : ℕ) : Scan (Option ℕ) :=
  if max < 4 then .ok none
  else do
    let c0 ← rd s 0
    let c1 ← rd s 1
    let c2 ← rd s 2
    let c3 ← rd s 3
    return hexJoin (jsonHexVal c0) (jsonHexVal c1) (jsonHexVal c2) (jsonHexVal c3)

/-! ## Encoding and decoding -/

/-- `json__encode_utf8`: the bytes it stores. -/
def jsonEncodeUtf8 (cp : ℕ) : List UInt8 :=
  if cp < 0x80 then [.ofNat cp]
  else if cp < 0x800 then [.ofNat (0xC0 + cp / 64), .ofNat (0x80 + cp % 64)]
  else if cp < 0x10000 then
    [.ofNat (0xE0 + cp / 4096), .ofNat (0x80 + cp / 64 % 64), .ofNat (0x80 + cp % 64)]
  else if cp ≤ 0x10FFFF then
    [.ofNat (0xF0 + cp / 262144), .ofNat (0x80 + cp / 4096 % 64), .ofNat (0x80 + cp / 64 % 64),
      .ofNat (0x80 + cp % 64)]
  else []

/-- What the lead byte of a sequence longer than one says: the number of bytes, the
payload bits, and the least code point that needs so many bytes. -/
def utf8Lead (lead : UInt8) : Option (ℕ × ℕ × ℕ) :=
  if 0xC2 ≤ lead.toNat ∧ lead.toNat ≤ 0xDF then some (2, lead.toNat % 32, 0x80)
  else if 0xE0 ≤ lead.toNat ∧ lead.toNat ≤ 0xEF then some (3, lead.toNat % 16, 0x800)
  else if 0xF0 ≤ lead.toNat ∧ lead.toNat ≤ 0xF4 then some (4, lead.toNat % 8, 0x10000)
  else none

/-- The loop of `json__utf8_decode` over the continuation bytes from `i` on. -/
def utf8ContLoop (data : List UInt8) : ℕ → ℕ → ℕ → Scan ℕ
  | _, 0, code => .ok code
  | i, k + 1, code => do
    let next ← rd data i
    if next.toNat / 64 ≠ 2 then .error (.err .invalidUtf8)
    else utf8ContLoop data (i + 1) k (code * 64 + next.toNat % 64)

/-- `json__utf8_decode` behind the choice by the lead byte. -/
def utf8Multi (data : List UInt8) (size count code minimum : ℕ) : Scan (ℕ × ℕ) :=
  if count > size then .error (.err .invalidUtf8)
  else do
    let code ← utf8ContLoop data 1 (count - 1) code
    if code < minimum ∨ code > 0x10FFFF ∨ (0xD800 ≤ code ∧ code ≤ 0xDFFF) then
      .error (.err .invalidUtf8)
    else .ok (code, count)

/-- `json__utf8_decode`: the code point and the number of bytes consumed. -/
def jsonUtf8Decode (data : List UInt8) (size : ℕ) : Scan (ℕ × ℕ) :=
  if size = 0 then .error (.err .invalidUtf8)
  else do
    let lead ← rd data 0
    if lead.toNat < 0x80 then .ok (lead.toNat, 1)
    else
      match utf8Lead lead with
      | none => .error (.err .invalidUtf8)
      | some (count, code, minimum) => utf8Multi data size count code minimum

/-- The loop of `json__valid_utf8`. -/
def validUtf8Loop (data : List UInt8) (size : ℕ) : ℕ → ℕ → Scan Bool
  | 0, offset => if offset < size then .error (.fault .fuel) else .ok true
  | fuel + 1, offset =>
    if offset < size then
      match jsonUtf8Decode (data.drop offset) (size - offset) with
      | .ok (_, count) => validUtf8Loop data size fuel (offset + count)
      | .error (.err _) => .ok false
      | .error (.fault f) => .error (.fault f)
    else .ok true

/-- `json__valid_utf8`. -/
def jsonValidUtf8 (data : List UInt8) : Scan Bool :=
  validUtf8Loop data data.length data.length 0

/-! ## Scalar values -/

/-- A Unicode scalar value. -/
def IsScalar (cp : ℕ) : Prop := cp ≤ 0x10FFFF ∧ ¬ (0xD800 ≤ cp ∧ cp ≤ 0xDFFF)

instance (cp : ℕ) : Decidable (IsScalar cp) := inferInstanceAs (Decidable (_ ∧ _))

theorem toNat_ofNat {n : ℕ} (h : n < 256) : (UInt8.ofNat n).toNat = n := by
  rw [UInt8.toNat_ofNat']
  exact Nat.mod_eq_of_lt h

theorem ofNat_eq_of_toNat {n : ℕ} {b : UInt8} (h : b.toNat = n) : UInt8.ofNat n = b := by
  rw [← h]
  exact UInt8.ofNat_toNat

theorem jsonEncodeUtf8_one {cp : ℕ} {b0 : UInt8} (hcp : cp < 0x80) (h0 : b0.toNat = cp) :
    jsonEncodeUtf8 cp = [b0] := by
  rw [jsonEncodeUtf8, if_pos hcp, ofNat_eq_of_toNat h0]

theorem jsonEncodeUtf8_two {cp : ℕ} {b0 b1 : UInt8} (hlo : 0x80 ≤ cp) (hhi : cp < 0x800)
    (h0 : b0.toNat = 0xC0 + cp / 64) (h1 : b1.toNat = 0x80 + cp % 64) :
    jsonEncodeUtf8 cp = [b0, b1] := by
  rw [jsonEncodeUtf8, if_neg (by omega), if_pos hhi, ofNat_eq_of_toNat h0, ofNat_eq_of_toNat h1]

theorem jsonEncodeUtf8_three {cp : ℕ} {b0 b1 b2 : UInt8} (hlo : 0x800 ≤ cp) (hhi : cp < 0x10000)
    (h0 : b0.toNat = 0xE0 + cp / 4096) (h1 : b1.toNat = 0x80 + cp / 64 % 64)
    (h2 : b2.toNat = 0x80 + cp % 64) : jsonEncodeUtf8 cp = [b0, b1, b2] := by
  rw [jsonEncodeUtf8, if_neg (by omega), if_neg (by omega), if_pos hhi, ofNat_eq_of_toNat h0,
    ofNat_eq_of_toNat h1, ofNat_eq_of_toNat h2]

theorem jsonEncodeUtf8_four {cp : ℕ} {b0 b1 b2 b3 : UInt8} (hlo : 0x10000 ≤ cp)
    (hhi : cp ≤ 0x10FFFF) (h0 : b0.toNat = 0xF0 + cp / 262144)
    (h1 : b1.toNat = 0x80 + cp / 4096 % 64) (h2 : b2.toNat = 0x80 + cp / 64 % 64)
    (h3 : b3.toNat = 0x80 + cp % 64) : jsonEncodeUtf8 cp = [b0, b1, b2, b3] := by
  rw [jsonEncodeUtf8, if_neg (by omega), if_neg (by omega), if_neg (by omega), if_pos hhi,
    ofNat_eq_of_toNat h0, ofNat_eq_of_toNat h1, ofNat_eq_of_toNat h2, ofNat_eq_of_toNat h3]

/-- The four shapes of an encoded scalar value. -/
theorem jsonEncodeUtf8_cases {cp : ℕ} (h : cp ≤ 0x10FFFF) :
    (cp < 0x80 ∧ ∃ b0, jsonEncodeUtf8 cp = [b0] ∧ b0.toNat = cp) ∨
    (0x80 ≤ cp ∧ cp < 0x800 ∧ ∃ b0 b1, jsonEncodeUtf8 cp = [b0, b1] ∧
      b0.toNat = 0xC0 + cp / 64 ∧ b1.toNat = 0x80 + cp % 64) ∨
    (0x800 ≤ cp ∧ cp < 0x10000 ∧ ∃ b0 b1 b2, jsonEncodeUtf8 cp = [b0, b1, b2] ∧
      b0.toNat = 0xE0 + cp / 4096 ∧ b1.toNat = 0x80 + cp / 64 % 64 ∧
      b2.toNat = 0x80 + cp % 64) ∨
    (0x10000 ≤ cp ∧ ∃ b0 b1 b2 b3, jsonEncodeUtf8 cp = [b0, b1, b2, b3] ∧
      b0.toNat = 0xF0 + cp / 262144 ∧ b1.toNat = 0x80 + cp / 4096 % 64 ∧
      b2.toNat = 0x80 + cp / 64 % 64 ∧ b3.toNat = 0x80 + cp % 64) := by
  have hof : ∀ n, n < 256 → ∃ b : UInt8, b.toNat = n := fun n hn => ⟨_, toNat_ofNat hn⟩
  rcases Nat.lt_or_ge cp 0x80 with h1 | h1
  · obtain ⟨b0, h0⟩ := hof cp (by omega)
    exact .inl ⟨h1, b0, jsonEncodeUtf8_one h1 h0, h0⟩
  rcases Nat.lt_or_ge cp 0x800 with h2 | h2
  · obtain ⟨b0, hb0⟩ := hof (0xC0 + cp / 64) (by omega)
    obtain ⟨b1, hb1⟩ := hof (0x80 + cp % 64) (by omega)
    exact .inr (.inl ⟨h1, h2, b0, b1, jsonEncodeUtf8_two h1 h2 hb0 hb1, hb0, hb1⟩)
  obtain ⟨b1, hb1⟩ := hof (0x80 + cp / 64 % 64) (by omega)
  obtain ⟨b2, hb2⟩ := hof (0x80 + cp % 64) (by omega)
  rcases Nat.lt_or_ge cp 0x10000 with h3 | h3
  · obtain ⟨b0, hb0⟩ := hof (0xE0 + cp / 4096) (by omega)
    exact .inr (.inr (.inl ⟨h2, h3, b0, b1, b2, jsonEncodeUtf8_three h2 h3 hb0 hb1 hb2, hb0, hb1,
      hb2⟩))
  · obtain ⟨b0, hb0⟩ := hof (0xF0 + cp / 262144) (by omega)
    obtain ⟨c, hc⟩ := hof (0x80 + cp / 4096 % 64) (by omega)
    exact .inr (.inr (.inr ⟨h3, b0, c, b1, b2, jsonEncodeUtf8_four h3 h hb0 hc hb1 hb2, hb0, hc,
      hb1, hb2⟩))

/-! ## The decoder against the encoder -/

/-- A continuation byte is consumed. -/
theorem utf8ContLoop_succ {data : List UInt8} {i k code : ℕ} {b : UInt8} (hb : rd data i = .ok b)
    (hcont : b.toNat / 64 = 2) :
    utf8ContLoop data i (k + 1) code = utf8ContLoop data (i + 1) k (code * 64 + b.toNat % 64) := by
  rw [utf8ContLoop, hb]
  show (if b.toNat / 64 ≠ 2 then _ else _) = _
  rw [if_neg (not_not.mpr hcont)]

/-- What the loop over the continuation bytes returns, and that it reads no further. -/
theorem utf8ContLoop_spec {data : List UInt8} {k : ℕ} :
    ∀ {i code : ℕ}, i + k ≤ data.length →
      utf8ContLoop data i k code = .error (.err .invalidUtf8) ∨
      ∃ c, utf8ContLoop data i k code = .ok c ∧
        ∀ j, i ≤ j → j < i + k → ∃ b, rd data j = .ok b ∧ b.toNat / 64 = 2 := by
  induction k with
  | zero =>
    intro i code _
    exact .inr ⟨code, rfl, fun j hj hj' => absurd hj' (by omega)⟩
  | succ k ih =>
    intro i code hlen
    have hi : i < data.length := by omega
    by_cases hcont : data[i].toNat / 64 = 2
    · rw [utf8ContLoop_succ (rd_of_lt hi) hcont]
      refine (ih (i := i + 1) (by omega)).imp_right fun ⟨c, hc, hall⟩ => ⟨c, hc, fun j hj hj' => ?_⟩
      rcases Nat.eq_or_lt_of_le hj with rfl | hlt
      · exact ⟨_, rd_of_lt hi, hcont⟩
      · exact hall j hlt (by omega)
    · refine .inl ?_
      rw [utf8ContLoop, rd_of_lt hi]
      exact if_pos hcont

theorem utf8Lead_bounds {lead : UInt8} {count code minimum : ℕ}
    (h : utf8Lead lead = some (count, code, minimum)) : 2 ≤ count ∧ count ≤ 4 := by
  unfold utf8Lead at h
  split_ifs at h <;> simp only [Option.some.injEq, Prod.mk.injEq] at h <;> omega

theorem utf8Multi_safe {data : List UInt8} {size count : ℕ} (code minimum : ℕ)
    (h : size ≤ data.length) (hcount : 2 ≤ count) :
    utf8Multi data size count code minimum = .error (.err .invalidUtf8) ∨
      ∃ c, utf8Multi data size count code minimum = .ok (c, count) := by
  unfold utf8Multi
  by_cases hc : count > size
  · exact .inl (if_pos hc)
  rw [if_neg hc]
  rcases @utf8ContLoop_spec data (count - 1) 1 code (by omega)
    with hloop | ⟨c, hloop, -⟩
  · exact .inl (scan_bind_error hloop)
  · rw [scan_bind_ok hloop]
    split_ifs
    · exact .inl rfl
    · exact .inr ⟨_, rfl⟩

/-- Decoding within `size` bytes reads only those bytes. -/
theorem jsonUtf8Decode_safe {data : List UInt8} {size : ℕ} (h : size ≤ data.length) :
    jsonUtf8Decode data size = .error (.err .invalidUtf8) ∨
      ∃ c count, jsonUtf8Decode data size = .ok (c, count) ∧ 0 < count ∧ count ≤ size := by
  unfold jsonUtf8Decode
  by_cases h0 : size = 0
  · exact .inl (if_pos h0)
  rw [if_neg h0, scan_bind_ok (rd_of_lt (by omega : 0 < data.length))]
  by_cases h1 : data[0].toNat < 0x80
  · rw [if_pos h1]
    exact .inr ⟨_, _, rfl, by omega, by omega⟩
  rw [if_neg h1]
  cases hl : utf8Lead data[0] with
  | none => exact .inl rfl
  | some t =>
    obtain ⟨count, code, minimum⟩ := t
    have hb := utf8Lead_bounds hl
    refine (utf8Multi_safe code minimum h hb.1).imp_right ?_
    rintro ⟨c, hc⟩
    refine ⟨c, count, hc, by omega, ?_⟩
    by_contra hgt
    rw [utf8Multi, if_pos (by omega)] at hc
    simp at hc

/-- Decoding what the encoder produced, whatever follows it. -/
theorem jsonUtf8Decode_encode {cp : ℕ} (h : IsScalar cp) (rest : List UInt8) {size : ℕ}
    (hsize : (jsonEncodeUtf8 cp).length ≤ size) :
    jsonUtf8Decode (jsonEncodeUtf8 cp ++ rest) size = .ok (cp, (jsonEncodeUtf8 cp).length) := by
  obtain ⟨hle, hsur⟩ := h
  rcases jsonEncodeUtf8_cases hle with ⟨hcp, b0, hb, h0⟩ | ⟨hlo, hhi, b0, b1, hb, h0, h1⟩ |
    ⟨hlo, hhi, b0, b1, b2, hb, h0, h1, h2⟩ | ⟨hlo, b0, b1, b2, b3, hb, h0, h1, h2, h3⟩
  all_goals
    rw [hb] at hsize ⊢
    simp only [List.length_cons, List.length_nil] at hsize
    rw [jsonUtf8Decode, if_neg (by omega), List.cons_append, scan_bind_ok (rd_cons_zero ..)]
  · rw [if_pos (by omega), h0]
    rfl
  · have hlead : utf8Lead b0 = some (2, b0.toNat % 32, 0x80) := if_pos (by omega)
    rw [if_neg (by omega), hlead]
    show utf8Multi _ _ _ _ _ = _
    rw [utf8Multi, if_neg (by omega), scan_bind_ok (a := cp), if_neg (by omega)]
    · rfl
    · rw [utf8ContLoop_succ (b := b1) rfl (by omega), utf8ContLoop]
      exact congrArg _ (by omega)
  · have hlead : utf8Lead b0 = some (3, b0.toNat % 16, 0x800) := by
      rw [utf8Lead, if_neg (by omega), if_pos (by omega)]
    rw [if_neg (by omega), hlead]
    show utf8Multi _ _ _ _ _ = _
    rw [utf8Multi, if_neg (by omega), scan_bind_ok (a := cp), if_neg (by omega)]
    · rfl
    · rw [utf8ContLoop_succ (b := b1) rfl (by omega), utf8ContLoop_succ (b := b2) rfl (by omega),
        utf8ContLoop]
      exact congrArg _ (by omega)
  · have hlead : utf8Lead b0 = some (4, b0.toNat % 8, 0x10000) := by
      rw [utf8Lead, if_neg (by omega), if_neg (by omega), if_pos (by omega)]
    rw [if_neg (by omega), hlead]
    show utf8Multi _ _ _ _ _ = _
    rw [utf8Multi, if_neg (by omega), scan_bind_ok (a := cp), if_neg (by omega)]
    · rfl
    · rw [utf8ContLoop_succ (b := b1) rfl (by omega), utf8ContLoop_succ (b := b2) rfl (by omega),
        utf8ContLoop_succ (b := b3) rfl (by omega), utf8ContLoop]
      exact congrArg _ (by omega)

theorem eq_cons_of_getElem? {a b : UInt8} {l : List UInt8} (h : (a :: l)[1]? = some b) :
    ∃ l', l = b :: l' := by
  cases l with
  | nil => simp at h
  | cons c l => exact ⟨l, by simpa using h⟩

theorem utf8ContLoop_inv {data : List UInt8} {i k code c : ℕ}
    (h : utf8ContLoop data i (k + 1) code = .ok c) :
    ∃ b, data[i]? = some b ∧ b.toNat / 64 = 2 ∧
      utf8ContLoop data (i + 1) k (code * 64 + b.toNat % 64) = .ok c := by
  rw [utf8ContLoop] at h
  cases hb : data[i]? with
  | none =>
    rw [scan_bind_error (e := .fault .oobRead) (by simp [rd, hb])] at h
    simp at h
  | some b =>
    rw [scan_bind_ok (a := b) (by simp [rd, hb])] at h
    by_cases hcont : b.toNat / 64 = 2
    · rw [if_neg (not_not.mpr hcont)] at h
      exact ⟨b, rfl, hcont, h⟩
    · rw [if_pos hcont] at h
      simp at h

/-- What the multi-byte branch accepts was checked to be a scalar value. -/
theorem utf8Multi_inv {data : List UInt8} {size n code minimum c count : ℕ}
    (h : utf8Multi data size n code minimum = .ok (c, count)) :
    count = n ∧ n ≤ size ∧ utf8ContLoop data 1 (n - 1) code = .ok c ∧ minimum ≤ c ∧
      IsScalar c := by
  unfold utf8Multi at h
  by_cases hn : n > size
  · simp [if_pos hn] at h
  rw [if_neg hn] at h
  obtain ⟨c', hloop, h⟩ := scan_bind_eq_ok.mp h
  by_cases hbad : c' < minimum ∨ c' > 0x10FFFF ∨ (0xD800 ≤ c' ∧ c' ≤ 0xDFFF)
  · simp [if_pos hbad] at h
  rw [if_neg hbad] at h
  obtain ⟨rfl, rfl⟩ : c' = c ∧ n = count := by simpa using h
  exact ⟨rfl, not_lt.mp hn, hloop, by omega, by omega, by omega⟩

/-- The lead byte and the bytes that continue it are the encoding of what they stand for. -/
theorem utf8Lead_sound {b0 : UInt8} {data : List UInt8} {n code minimum c : ℕ}
    (hlead : utf8Lead b0 = some (n, code, minimum))
    (hloop : utf8ContLoop (b0 :: data) 1 (n - 1) code = .ok c) (hmin : minimum ≤ c)
    (hc : IsScalar c) :
    n = (jsonEncodeUtf8 c).length ∧ ∃ rest, b0 :: data = jsonEncodeUtf8 c ++ rest := by
  have hc' := hc.1
  unfold utf8Lead at hlead
  split_ifs at hlead with h2 h3 h4
  · obtain ⟨rfl, rfl, rfl⟩ := hlead
    obtain ⟨b1, hb1, hc1, hloop⟩ := utf8ContLoop_inv hloop
    have hcode : _ = c := Except.ok.inj hloop
    obtain ⟨data, rfl⟩ := eq_cons_of_getElem? hb1
    have henc : jsonEncodeUtf8 c = [b0, b1] :=
      jsonEncodeUtf8_two (by omega) (by omega) (by omega) (by omega)
    exact ⟨by rw [henc]; rfl, data, by rw [henc]; rfl⟩
  · obtain ⟨rfl, rfl, rfl⟩ := hlead
    obtain ⟨b1, hb1, hc1, hloop⟩ := utf8ContLoop_inv hloop
    obtain ⟨b2, hb2, hc2, hloop⟩ := utf8ContLoop_inv hloop
    have hcode : _ = c := Except.ok.inj hloop
    obtain ⟨data, rfl⟩ := eq_cons_of_getElem? hb1
    obtain ⟨data, rfl⟩ := eq_cons_of_getElem? (a := b1) hb2
    have henc : jsonEncodeUtf8 c = [b0, b1, b2] :=
      jsonEncodeUtf8_three (by omega) (by omega) (by omega) (by omega) (by omega)
    exact ⟨by rw [henc]; rfl, data, by rw [henc]; rfl⟩
  · obtain ⟨rfl, rfl, rfl⟩ := hlead
    obtain ⟨b1, hb1, hc1, hloop⟩ := utf8ContLoop_inv hloop
    obtain ⟨b2, hb2, hc2, hloop⟩ := utf8ContLoop_inv hloop
    obtain ⟨b3, hb3, hc3, hloop⟩ := utf8ContLoop_inv hloop
    have hcode : _ = c := Except.ok.inj hloop
    obtain ⟨data, rfl⟩ := eq_cons_of_getElem? hb1
    obtain ⟨data, rfl⟩ := eq_cons_of_getElem? (a := b1) hb2
    obtain ⟨data, rfl⟩ := eq_cons_of_getElem? (a := b2) hb3
    have henc : jsonEncodeUtf8 c = [b0, b1, b2, b3] :=
      jsonEncodeUtf8_four (by omega) (by omega) (by omega) (by omega) (by omega) (by omega)
    exact ⟨by rw [henc]; rfl, data, by rw [henc]; rfl⟩

/-- The decoder accepts nothing but encoded scalar values. -/
theorem jsonUtf8Decode_sound {data : List UInt8} {size c count : ℕ}
    (h : jsonUtf8Decode data size = .ok (c, count)) :
    IsScalar c ∧ count = (jsonEncodeUtf8 c).length ∧ count ≤ size ∧
      ∃ rest, data = jsonEncodeUtf8 c ++ rest := by
  unfold jsonUtf8Decode at h
  by_cases h0 : size = 0
  · simp [if_pos h0] at h
  rw [if_neg h0] at h
  cases data with
  | nil => cases h
  | cons b0 data =>
    rw [scan_bind_ok (rd_cons_zero ..)] at h
    by_cases h1 : b0.toNat < 0x80
    · rw [if_pos h1] at h
      obtain ⟨rfl, rfl⟩ : b0.toNat = c ∧ 1 = count := by simpa using h
      have henc : jsonEncodeUtf8 b0.toNat = [b0] := by
        rw [jsonEncodeUtf8, if_pos h1, UInt8.ofNat_toNat]
      exact ⟨⟨by omega, by omega⟩, by rw [henc]; rfl, by omega, data, by rw [henc]; rfl⟩
    rw [if_neg h1] at h
    cases hl : utf8Lead b0 with
    | none => simp [hl] at h
    | some t =>
      obtain ⟨n, code, minimum⟩ := t
      rw [hl] at h
      obtain ⟨rfl, hn, hloop, hmin, hscalar⟩ := utf8Multi_inv h
      obtain ⟨hlen, hrest⟩ := utf8Lead_sound hl hloop hmin hscalar
      exact ⟨hscalar, hlen, hn, hrest⟩

theorem jsonEncodeUtf8_length_pos {cp : ℕ} (h : IsScalar cp) : 0 < (jsonEncodeUtf8 cp).length := by
  rcases jsonEncodeUtf8_cases h.1 with ⟨-, _, hb, -⟩ | ⟨-, -, _, _, hb, -⟩ |
    ⟨-, -, _, _, _, hb, -⟩ | ⟨-, _, _, _, _, hb, -⟩ <;> simp [hb]

theorem jsonEncodeUtf8_length_le (cp : ℕ) : (jsonEncodeUtf8 cp).length ≤ 4 := by
  unfold jsonEncodeUtf8
  split_ifs <;> simp

/-- Encodings are prefix-free: what stands in front of a text is the one scalar value the
decoder finds there. -/
theorem jsonEncodeUtf8_append_inj {cp cp' : ℕ} (h : IsScalar cp) (h' : IsScalar cp')
    {rest rest' : List UInt8} (heq : jsonEncodeUtf8 cp ++ rest = jsonEncodeUtf8 cp' ++ rest') :
    cp = cp' ∧ rest = rest' := by
  have hdec := jsonUtf8Decode_encode h rest
    (le_max_left (jsonEncodeUtf8 cp).length (jsonEncodeUtf8 cp').length)
  rw [heq, jsonUtf8Decode_encode h' _ (le_max_right ..)] at hdec
  simp only [Except.ok.injEq, Prod.mk.injEq] at hdec
  obtain ⟨rfl, -⟩ := hdec
  exact ⟨rfl, List.append_cancel_left heq⟩

/-- A sequence of scalar values is determined by its bytes. -/
theorem flatMap_jsonEncodeUtf8_inj {cps : List ℕ} :
    ∀ {cps' : List ℕ}, (∀ cp ∈ cps, IsScalar cp) → (∀ cp ∈ cps', IsScalar cp) →
      cps.flatMap jsonEncodeUtf8 = cps'.flatMap jsonEncodeUtf8 → cps = cps' := by
  -- an encoding is never empty, so the two sequences end together
  have hpos : ∀ {cp : ℕ} {rest : List UInt8}, IsScalar cp → jsonEncodeUtf8 cp ++ rest ≠ [] := by
    intro cp rest hcp hnil
    have := jsonEncodeUtf8_length_pos hcp
    simp_all
  induction cps with
  | nil =>
    intro cps' _ hall' heq
    cases cps' with
    | nil => rfl
    | cons cp' cps' => exact absurd heq.symm (hpos (hall' cp' List.mem_cons_self))
  | cons cp cps ih =>
    intro cps' hall hall' heq
    cases cps' with
    | nil => exact absurd heq (hpos (hall cp List.mem_cons_self))
    | cons cp' cps' =>
      obtain ⟨hcp, hcps⟩ := List.forall_mem_cons.mp hall
      obtain ⟨hcp', hcps'⟩ := List.forall_mem_cons.mp hall'
      obtain ⟨rfl, hrest⟩ := jsonEncodeUtf8_append_inj hcp hcp' heq
      rw [ih hcps hcps' hrest]

/-! ## Well-formed strings -/

/-- The bytes encode a sequence of scalar values. -/
def IsUtf8 (data : List UInt8) : Prop :=
  ∃ cps : List ℕ, (∀ cp ∈ cps, IsScalar cp) ∧ data = cps.flatMap jsonEncodeUtf8

theorem isUtf8_nil : IsUtf8 [] := ⟨[], by simp, rfl⟩

theorem IsUtf8.encode_append {cp : ℕ} (h : IsScalar cp) {rest : List UInt8} :
    IsUtf8 (jsonEncodeUtf8 cp ++ rest) ↔ IsUtf8 rest := by
  constructor
  · rintro ⟨cps, hall, heq⟩
    cases cps with
    | nil =>
      have := jsonEncodeUtf8_length_pos h
      simp_all
    | cons cp' cps =>
      obtain ⟨hcp', hcps⟩ := List.forall_mem_cons.mp hall
      obtain ⟨-, hrest⟩ := jsonEncodeUtf8_append_inj h hcp' heq
      exact ⟨cps, hcps, hrest⟩
  · rintro ⟨cps, hall, rfl⟩
    exact ⟨cp :: cps, by simpa using ⟨h, hall⟩, rfl⟩

theorem IsUtf8.eq_append {data : List UInt8} (h : IsUtf8 data) (hne : data ≠ []) :
    ∃ cp rest, IsScalar cp ∧ data = jsonEncodeUtf8 cp ++ rest ∧ IsUtf8 rest := by
  obtain ⟨cps, hall, rfl⟩ := h
  cases cps with
  | nil => simp at hne
  | cons cp cps =>
    exact ⟨cp, _, hall cp List.mem_cons_self, rfl,
      cps, fun c hc => hall c (List.mem_cons_of_mem _ hc), rfl⟩

theorem validUtf8Loop_spec {data : List UInt8} {fuel : ℕ} :
    ∀ {offset : ℕ}, data.length - offset ≤ fuel →
      ∃ b, validUtf8Loop data data.length fuel offset = .ok b ∧
        (b = true ↔ IsUtf8 (data.drop offset)) := by
  induction fuel with
  | zero =>
    intro offset hfuel
    have hge : ¬ offset < data.length := by omega
    refine ⟨true, by rw [validUtf8Loop, if_neg hge], ?_⟩
    simp [List.drop_of_length_le (not_lt.mp hge), isUtf8_nil]
  | succ fuel ih =>
    intro offset hfuel
    rw [validUtf8Loop]
    by_cases hlt : offset < data.length
    · rw [if_pos hlt]
      have hlen : (data.drop offset).length = data.length - offset := List.length_drop ..
      rcases jsonUtf8Decode_safe hlen.ge with herr | ⟨c, count, hok, hpos, -⟩
      · refine ⟨false, by rw [herr], ?_⟩
        simp only [Bool.false_eq_true, false_iff]
        intro hutf
        have hne : data.drop offset ≠ [] := by
          rw [← List.length_pos_iff, hlen]
          omega
        obtain ⟨cp, rest, hcp, heq, -⟩ := hutf.eq_append hne
        have hle : (jsonEncodeUtf8 cp).length ≤ data.length - offset := by
          rw [← hlen, heq, List.length_append]
          omega
        rw [heq, jsonUtf8Decode_encode hcp rest hle] at herr
        simp at herr
      · obtain ⟨hcp, hcount, -, rest, heq⟩ := jsonUtf8Decode_sound hok
        rw [hok]
        obtain ⟨b, hb, hiff⟩ := ih (show data.length - (offset + count) ≤ fuel by omega)
        refine ⟨b, hb, ?_⟩
        have hrest : data.drop (offset + count) = rest := by
          rw [← List.drop_drop, heq, hcount, List.drop_left]
        rw [hiff, hrest, heq, IsUtf8.encode_append hcp]
    · rw [if_neg hlt]
      refine ⟨true, rfl, ?_⟩
      simp [List.drop_of_length_le (not_lt.mp hlt), isUtf8_nil]

/-- **`json__valid_utf8` decides well-formedness.** -/
theorem jsonValidUtf8_iff (data : List UInt8) :
    jsonValidUtf8 data = .ok true ↔ IsUtf8 data := by
  obtain ⟨b, hb, hiff⟩ := validUtf8Loop_spec (le_of_eq (Nat.sub_zero data.length))
  rw [List.drop_zero] at hiff
  rw [jsonValidUtf8, hb, ← hiff]
  simp

/-- `json__valid_utf8` stays in bounds. -/
theorem jsonValidUtf8_total (data : List UInt8) : ∃ b, jsonValidUtf8 data = .ok b := by
  obtain ⟨b, hb, -⟩ := validUtf8Loop_spec (le_of_eq (Nat.sub_zero data.length))
  exact ⟨b, hb⟩

/-! ## The codec -/

/-- What a successful decoding has read: the bytes of one scalar value, none of them behind
`size`. -/
theorem jsonUtf8Decode_reads {data : List UInt8} {size c count : ℕ}
    (h : jsonUtf8Decode data size = .ok (c, count)) :
    data.take count = jsonEncodeUtf8 c ∧
      jsonUtf8Decode (data.take size) size = .ok (c, count) := by
  obtain ⟨hc, rfl, hle, rest, rfl⟩ := jsonUtf8Decode_sound h
  refine ⟨List.take_left, ?_⟩
  rw [List.take_append, List.take_of_length_le hle]
  exact jsonUtf8Decode_encode hc _ hle

/-- **The codec.**  `json__valid_utf8` answers, and accepts exactly the encodings of sequences of
scalar values; the sequence is unique.  In front of any bytes `json__utf8_decode` returns the
first value of a non-empty valid string and the length of its encoding.  Whatever it returns is
a scalar value that stands encoded in front, and it would have returned the same from a buffer
that ends at `size`, where a read further on is a fault. -/
theorem utf8_codec (data : List UInt8) :
    (∃ b, jsonValidUtf8 data = .ok b ∧
      (b = true ↔ ∃ cps : List ℕ,
        (∀ cp ∈ cps, IsScalar cp) ∧ data = cps.flatMap jsonEncodeUtf8)) ∧
    (∀ cps cps' : List ℕ, (∀ cp ∈ cps, IsScalar cp) → (∀ cp ∈ cps', IsScalar cp) →
      data = cps.flatMap jsonEncodeUtf8 → data = cps'.flatMap jsonEncodeUtf8 → cps = cps') ∧
    (jsonValidUtf8 data = .ok true → data ≠ [] → ∃ cp cps, (∀ c ∈ cp :: cps, IsScalar c) ∧
      data = (cp :: cps).flatMap jsonEncodeUtf8 ∧
      ∀ rest size, data.length ≤ size →
        jsonUtf8Decode (data ++ rest) size = .ok (cp, (jsonEncodeUtf8 cp).length)) ∧
    (∀ size c count, jsonUtf8Decode data size = .ok (c, count) →
      IsScalar c ∧ count = (jsonEncodeUtf8 c).length ∧ count ≤ size ∧
      data.take count = jsonEncodeUtf8 c ∧
      jsonUtf8Decode (data.take size) size = .ok (c, count)) := by
  refine ⟨?_, ?_, ?_, ?_⟩
  · obtain ⟨b, hb⟩ := jsonValidUtf8_total data
    refine ⟨b, hb, ?_⟩
    have hiff := jsonValidUtf8_iff data
    rw [hb] at hiff
    simpa [IsUtf8] using hiff
  · intro cps cps' hall hall' heq heq'
    exact flatMap_jsonEncodeUtf8_inj hall hall' (heq.symm.trans heq')
  · intro hvalid hne
    obtain ⟨cps, hall, rfl⟩ := (jsonValidUtf8_iff data).mp hvalid
    cases cps with
    | nil => exact absurd rfl hne
    | cons cp cps =>
      refine ⟨cp, cps, hall, rfl, fun rest size hsize => ?_⟩
      rw [List.flatMap_cons, List.length_append] at hsize
      rw [List.flatMap_cons, List.append_assoc]
      exact jsonUtf8Decode_encode (hall cp List.mem_cons_self) _ (by omega)
  · intro size c count h
    obtain ⟨hc, hcount, hle, -⟩ := jsonUtf8Decode_sound h
    obtain ⟨htake, hwithin⟩ := jsonUtf8Decode_reads h
    exact ⟨hc, hcount, hle, htake, hwithin⟩

/-- The two bytes of U+00E9 followed by a digit. -/
theorem utf8_codec_eAcute : ∃ cp cps,
    ([0xC3, 0xA9] : List UInt8) = (cp :: cps).flatMap jsonEncodeUtf8 ∧
      jsonUtf8Decode [0xC3, 0xA9, 0x31] 3 = .ok (cp, (jsonEncodeUtf8 cp).length) := by
  obtain ⟨cp, cps, -, heq, hdec⟩ := (utf8_codec [0xC3, 0xA9]).2.2.1 (by decide) (by decide)
  exact ⟨cp, cps, heq, hdec [0x31] 3 (by decide)⟩

end SJson
