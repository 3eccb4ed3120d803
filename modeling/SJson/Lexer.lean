/-
# The lexer

`src/sJson.c`, lines 870-908 and 992-1364: white space, literals, string tokens and
number tokens.  A token function takes the buffer and the position it starts at and
returns what it read with the position behind it.

Every loop carries a bound on its iterations, which is never reached, and every read
of the buffer is checked, so that reading behind `len` would show as a fault.
`LexerSpec` proves that no fault occurs and says which tokens are accepted.
-/
import SJson.Memory
import SJson.Utf8

namespace SJson

variable {D : Type}

/-! ## White space and literals -/

/-- The white space of `json__lex_skip_ws`. -/
def isWs (c : UInt8) : Bool := c = 0x20 ∨ c = 0x0A ∨ c = 0x0D ∨ c = 0x09

/-- The loop of `json__lex_skip_ws`. -/
def skipWsLoop (src : List UInt8) : ℕ → ℕ → Scan ℕ
  | 0, p => if p < src.length then .error (.fault .fuel) else .ok p
  | fuel + 1, p =>
    if p < src.length then do
      let c ← rd src p
      if isWs c then skipWsLoop src fuel (p + 1) else .ok p
    else .ok p

/-- `json__lex_skip_ws`. -/
def jsonLexSkipWs (src : List UInt8) (pos : ℕ) : Scan ℕ :=
  skipWsLoop src (src.length - pos) pos

/-- `memcmp(p, literal, n) == 0`. -/
def memEq (data literal : List UInt8) : Scan Bool :=
  if literal.length ≤ data.length then .ok (data.take literal.length == literal)
  else .error (.fault .oobRead)

/-- `LEX_EXPECT_LITERAL`. -/
def lexExpectLiteral (src : List UInt8) (pos : ℕ) (literal : List UInt8) : Scan ℕ :=
  if pos + literal.length > src.length then .error (.err .invalidJson)
  else do
    if ← memEq (src.drop pos) literal then .ok (pos + literal.length)
    else .error (.err .invalidJson)

/-! ## Strings -/

/-- The locals of the measuring pass of `json__parse_string`. -/
structure StrScan where
  scanPos : ℕ
  outLen : ℕ
  hasEscape : Bool
  rawHash : UInt32

/-- The escapes of one letter: the bytes behind the backslash and the byte meant. -/
def simpleEscape (e : UInt8) : Option UInt8 :=
  if e = 0x22 then some 0x22          -- quotation mark
  else if e = 0x5C then some 0x5C     -- backslash
  else if e = 0x2F then some 0x2F     -- solidus
  else if e = 0x62 then some 0x08     -- b
  else if e = 0x66 then some 0x0C     -- f
  else if e = 0x6E then some 0x0A     -- n
  else if e = 0x72 then some 0x0D     -- r
  else if e = 0x74 then some 0x09     -- t
  else none

/-- `json__parse_hex4(src + pos, len - pos, ..)`. -/
def hex4At (src : List UInt8) (pos : ℕ) : Scan (Option ℕ) :=
  jsonParseHex4 (src.drop pos) (src.length - pos)

/-- A code unit that starts a surrogate pair. -/
def IsHigh (u : ℕ) : Prop := 0xD800 ≤ u ∧ u ≤ 0xDBFF

/-- A code unit that ends a surrogate pair. -/
def IsLow (u : ℕ) : Prop := 0xDC00 ≤ u ∧ u ≤ 0xDFFF

instance (u : ℕ) : Decidable (IsHigh u) := inferInstanceAs (Decidable (_ ∧ _))

instance (u : ℕ) : Decidable (IsLow u) := inferInstanceAs (Decidable (_ ∧ _))

/-- The second half of a surrogate pair in the measuring pass, from `scan_pos` on. -/
def measureLow (src : List UInt8) (s : StrScan) : Scan StrScan :=
  if s.scanPos + 1 ≥ src.length then .error (.err .invalidString)
  else do
    let c ← rd src s.scanPos
    if c ≠ 0x5C then .error (.err .invalidString)
    else do
      let c ← rd src (s.scanPos + 1)
      if c ≠ 0x75 then .error (.err .invalidString)
      else do
        match ← hex4At src (s.scanPos + 2) with
        | none => .error (.err .invalidString)
        | some lo =>
          if ¬ IsLow lo then .error (.err .invalidString)
          else .ok { s with scanPos := s.scanPos + 2 + 4, outLen := s.outLen + 4 }

/-- The case `'u'` of the measuring pass; `scan_pos` is behind the `u`. -/
def measureUnicode (src : List UInt8) (s : StrScan) : Scan StrScan := do
  match ← hex4At src s.scanPos with
  | none => .error (.err .invalidString)
  | some hi =>
    if IsHigh hi then measureLow src { s with scanPos := s.scanPos + 4 }
    else if IsLow hi then .error (.err .invalidString)
    else .ok { s with
      scanPos := s.scanPos + 4
      outLen := s.outLen + if hi < 0x80 then 1 else if hi < 0x800 then 2 else 3 }

/-- An escape in the measuring pass; `scan_pos` is at the backslash. -/
def measureEscape (src : List UInt8) (s : StrScan) : Scan StrScan :=
  if s.scanPos + 1 ≥ src.length then .error (.err .unexpectedEof)
  else do
    let e ← rd src (s.scanPos + 1)
    if (simpleEscape e).isSome then
      .ok { s with scanPos := s.scanPos + 2, outLen := s.outLen + 1, hasEscape := true }
    else if e = 0x75 then
      measureUnicode src { s with scanPos := s.scanPos + 2, hasEscape := true }
    else .error (.err .invalidString)

/-- A byte above ASCII in the measuring pass. -/
def measureUtf8 (src : List UInt8) (s : StrScan) : Scan StrScan :=
  match jsonUtf8Decode (src.drop s.scanPos) (src.length - s.scanPos) with
  | .error (.err _) => .error (.err .invalidUtf8)
  | .error (.fault f) => .error (.fault f)
  | .ok (_, count) => .ok { s with
      scanPos := s.scanPos + count
      outLen := s.outLen + count
      rawHash := ((src.drop s.scanPos).take count).foldl fnvStep s.rawHash }

/-- One round of the measuring pass, for the byte `c` at `scan_pos`. -/
def measureStep (src : List UInt8) (s : StrScan) (c : UInt8) : Scan StrScan :=
  if c = 0x5C then measureEscape src s
  else if c.toNat < 0x20 then .error (.err .invalidString)
  else if c.toNat ≥ 0x80 then measureUtf8 src s
  else .ok { s with
    scanPos := s.scanPos + 1, outLen := s.outLen + 1, rawHash := fnvStep s.rawHash c }

/-- The measuring pass of `json__parse_string`. -/
def measureLoop (src : List UInt8) : ℕ → StrScan → Scan StrScan
  | 0, s => if s.scanPos < src.length then .error (.fault .fuel) else .ok s
  | fuel + 1, s =>
    if s.scanPos < src.length then do
      let c ← rd src s.scanPos
      if c = 0x22 then .ok s
      else do
        let s ← measureStep src s c
        measureLoop src fuel s
    else .ok s

/-- The measuring pass for the string whose first byte is at `pos`. -/
def measureString (src : List UInt8) (pos : ℕ) : Scan StrScan :=
  measureLoop src (src.length - pos) ⟨pos, 0, false, 0x811C9DC5⟩

/-- `memcpy(out_buf, src + pos, n)`. -/
def copyBytes (src : List UInt8) (pos n : ℕ) : Scan (List UInt8) :=
  if pos + n ≤ src.length then .ok ((src.drop pos).take n) else .error (.fault .oobRead)

/-- `out_buf[write_pos++] = b` for each byte, in a buffer of `outLen` bytes. -/
def putBytes (outLen : ℕ) (buf bytes : List UInt8) : Scan (List UInt8) :=
  if buf.length + bytes.length ≤ outLen then .ok (buf ++ bytes) else .error (.fault .oobWrite)

/-- The case `'u'` of the decoding pass, with `pos` behind the `u`: the code point
and the position behind it. -/
def decodeUnicode (src : List UInt8) (pos : ℕ) : Scan (ℕ × ℕ) := do
  match ← hex4At src pos with
  | none => .error (.fault .uninit)
  | some hi =>
    if IsHigh hi then do
      match ← hex4At src (pos + 4 + 2) with
      | none => .error (.fault .uninit)
      | some lo => .ok (0x10000 + (hi - 0xD800) * 1024 + (lo - 0xDC00), pos + 4 + 2 + 4)
    else .ok (hi, pos + 4)

/-- An escape in the decoding pass, with `pos` at the backslash: the bytes to write and
the position behind it. -/
def decodeEscape (src : List UInt8) (pos : ℕ) : Scan (List UInt8 × ℕ) := do
  let e ← rd src (pos + 1)
  match simpleEscape e with
  | some b => .ok ([b], pos + 2)
  | none =>
    if e = 0x75 then do
      let (codepoint, pos) ← decodeUnicode src (pos + 2)
      .ok (jsonEncodeUtf8 codepoint, pos)
    else .ok ([], pos + 2)

/-- The decoding pass of `json__parse_string`: what is written, and where the pass
stops. -/
def decodeLoop (src : List UInt8) (outLen : ℕ) : ℕ → ℕ → List UInt8 → Scan (List UInt8 × ℕ)
  | 0, pos, buf => if pos < src.length then .error (.fault .fuel) else .ok (buf, pos)
  | fuel + 1, pos, buf =>
    if pos < src.length then do
      let c ← rd src pos
      if c = 0x22 then .ok (buf, pos)
      else if c = 0x5C then do
        let (bytes, pos) ← decodeEscape src pos
        let buf ← putBytes outLen buf bytes
        decodeLoop src outLen fuel pos buf
      else do
        let buf ← putBytes outLen buf [c]
        decodeLoop src outLen fuel (pos + 1) buf
    else .ok (buf, pos)

/-- The second pass of `json__parse_string`: copy or decode `outLen` bytes. -/
def fillString (src : List UInt8) (pos : ℕ) (m : StrScan) : Scan (JsonStr × ℕ) := do
  if m.hasEscape then do
    let (buf, pos) ← decodeLoop src m.outLen (src.length - pos) pos []
    if pos ≥ src.length then .error (.err .unexpectedEof)
    -- the rest of the buffer would be read without having been written
    else if buf.length < m.outLen then .error (.fault .uninit)
    else .ok (⟨buf, jsonFnv1a buf⟩, pos + 1)
  else do
    let buf ← copyBytes src pos m.outLen
    if pos + m.outLen ≥ src.length then .error (.err .unexpectedEof)
    else .ok (⟨buf, m.rawHash⟩, pos + m.outLen + 1)

/-- `json__parse_string`, for the string whose first byte is at `pos`. -/
def jsonParseString (src : List UInt8) (pos : ℕ) : M D (JsonStr × ℕ) := do
  let m ← ofScan (measureString src pos)
  if m.scanPos ≥ src.length then throw (.err .unexpectedEof)
  else if m.outLen > jsonMaxStringLen then throw (.err .overflow)
  else
    -- an empty string has no storage
    let hasBuf ← bufferFor (m.outLen > 0) m.outLen
    if hasBuf then ofScan (fillString src pos m) else throw (.err .oom)

/-- `json__parse_string` when the storage is granted. -/
def stringToken (src : List UInt8) (pos : ℕ) : Scan (JsonStr × ℕ) := do
  let m ← measureString src pos
  if m.scanPos ≥ src.length then .error (.err .unexpectedEof)
  else if m.outLen > jsonMaxStringLen then .error (.err .overflow)
  else fillString src pos m

/-! ## Numbers -/

/-- `c >= '0' && c <= '9'`. -/
def isDigit (c : UInt8) : Bool := 0x30 ≤ c.toNat ∧ c.toNat ≤ 0x39

/-- The locals of `json__parse_number` that the digits change.  The signed counter
wraps as two's complement. -/
structure NumScan where
  pos : ℕ
  fastOk : Bool
  fastMant : ℕ
  fastSig : ℕ
  fastExp10 : ℤ

/-- A signed 32-bit result. -/
def int32 (x : ℤ) : ℤ := x.bmod (2 ^ 32)

/-- `JSON__FAST_DIGIT`. -/
def fastDigit (n : NumScan) (d : ℕ) : NumScan :=
  if n.fastSig ≠ 0 ∨ d ≠ 0 then
    if n.fastSig ≥ 19 then { n with fastOk := false }
    else { n with fastMant := (n.fastMant * 10 + d) % 2 ^ 64, fastSig := n.fastSig + 1 }
  else n

/-- One digit of the integer part, or of the fraction, where it also lowers the
exponent. -/
def digitStep (fraction : Bool) (n : NumScan) (c : UInt8) : NumScan :=
  let n := fastDigit n (c.toNat - 0x30)
  { n with
    pos := n.pos + 1
    fastExp10 := if fraction then int32 (n.fastExp10 - 1) else n.fastExp10 }

/-- The digits of the integer part, or of the fraction. -/
def digitsLoop (src : List UInt8) (fraction : Bool) : ℕ → NumScan → Scan NumScan
  | 0, n => if n.pos < src.length then .error (.fault .fuel) else .ok n
  | fuel + 1, n =>
    if n.pos < src.length then do
      let c ← rd src n.pos
      if isDigit c then digitsLoop src fraction fuel (digitStep fraction n c) else .ok n
    else .ok n

/-- The digits of the exponent: `l->pos`, `exp_val` and `fast_ok`. -/
def expLoop (src : List UInt8) : ℕ → ℕ → ℤ → Bool → Scan (ℕ × ℤ × Bool)
  | 0, pos, expVal, ok =>
    if pos < src.length then .error (.fault .fuel) else .ok (pos, expVal, ok)
  | fuel + 1, pos, expVal, ok =>
    if pos < src.length then do
      let c ← rd src pos
      if isDigit c then
        if expVal > 1000 then expLoop src fuel (pos + 1) expVal false
        else expLoop src fuel (pos + 1) (int32 (expVal * 10 + (c.toNat - 0x30 : ℕ))) ok
      else .ok (pos, expVal, ok)
    else .ok (pos, expVal, ok)

/-- A check `pos >= len || src[pos] < '0' || src[pos] > '9'`, negated. -/
def digitAt (src : List UInt8) (pos : ℕ) : Scan Bool :=
  if pos ≥ src.length then .ok false
  else do
    let c ← rd src pos
    return isDigit c

/-- The integer part. -/
def intPart (src : List UInt8) (n : NumScan) : Scan NumScan := do
  let c ← rd src n.pos
  if c = 0x30 then do
    if ← digitAt src (n.pos + 1) then .error (.err .invalidNumber)
    else .ok { n with pos := n.pos + 1 }
  else if isDigit c then digitsLoop src false (src.length - n.pos) n
  else .error (.err .invalidNumber)

/-- `pos < len && src[pos] == c` for one of the bytes `cs`. -/
def byteAt (src : List UInt8) (pos : ℕ) (cs : List UInt8) : Scan Bool :=
  if pos < src.length then do
    let c ← rd src pos
    return cs.contains c
  else .ok false

/-- The fractional part, and whether there is one. -/
def fracPart (src : List UInt8) (n : NumScan) : Scan (NumScan × Bool) := do
  if ← byteAt src n.pos [0x2E] then
    let n := { n with pos := n.pos + 1 }
    if ← digitAt src n.pos then do
      let n ← digitsLoop src true (src.length - n.pos) n
      return (n, true)
    else .error (.err .invalidNumber)
  else return (n, false)

/-- The digits of the exponent part, from `pos` on. -/
def expDigits (src : List UInt8) (n : NumScan) (pos : ℕ) (expNeg : Bool) :
    Scan (NumScan × Bool) := do
  if ← digitAt src pos then
    let (pos, expVal, ok) ← expLoop src (src.length - pos) pos 0 n.fastOk
    return ({ n with
      pos := pos
      fastOk := ok
      fastExp10 := int32 (n.fastExp10 + if expNeg then int32 (-expVal) else expVal) }, true)
  else .error (.err .invalidNumber)

/-- The exponent part, and whether there is one. -/
def expPart (src : List UInt8) (n : NumScan) : Scan (NumScan × Bool) := do
  if ← byteAt src n.pos [0x65, 0x45] then
    if ← byteAt src (n.pos + 1) [0x2B, 0x2D] then
      expDigits src n (n.pos + 2) (← byteAt src (n.pos + 1) [0x2D])
    else expDigits src n (n.pos + 1) false
  else return (n, false)

/-- A scanned number token. -/
structure NumToken where
  negative : Bool
  isFloat : Bool
  scan : NumScan

/-- `json__parse_number` up to the end of the token. -/
def scanNumber (src : List UInt8) (start : ℕ) : Scan NumToken := do
  let negative ← byteAt src start [0x2D]
  let pos := if negative then start + 1 else start
  if pos ≥ src.length then .error (.err .unexpectedEof)
  else do
    let n ← intPart src ⟨pos, true, 0, 0, 0⟩
    let (n, hasFrac) ← fracPart src n
    let (n, hasExp) ← expPart src n
    return ⟨negative, hasFrac || hasExp, n⟩

/-- `json__fast_float_from_parts`. -/
def jsonFastFloatFromParts [CDouble D] (mant sig : ℕ) (exp10 : ℤ) (neg : Bool) : Option D :=
  if sig = 0 then some (if neg then CDouble.neg CDouble.zero else CDouble.zero)
  else if exp10 < -22 ∨ exp10 > 22 then none
  else
    let v : D := CDouble.ofUInt64 mant
    let v := if exp10 < 0 then CDouble.mul v (CDouble.pow10Neg (-exp10).toNat)
      else if exp10 > 0 then CDouble.mul v (CDouble.pow10Pos exp10.toNat) else v
    some (if neg then CDouble.neg v else v)

/-- The result of `strtod` on the token, if it consumed all of it and is finite. -/
def slowFloat [CDouble D] (token : List UInt8) : Scan (JsonNode D) :=
  if (CDouble.strtod token : D × ℕ).2 ≠ token.length then .error (.err .invalidNumber)
  else if CDouble.nonFinite (CDouble.strtod token : D × ℕ).1 then .error (.err .invalidNumber)
  else .ok (.float (CDouble.strtod token : D × ℕ).1)

/-- `limit`: the largest absolute value of a positive or negative `int64_t`. -/
def intLimit (negative : Bool) : ℕ :=
  if negative then 9223372036854775808 else 9223372036854775807

/-- The integer branch of `json__parse_number`. -/
def intResult (t : NumToken) : Scan Int64 :=
  if t.scan.fastOk = false ∨ t.scan.fastMant > intLimit t.negative then .error (.err .overflow)
  else if t.negative then
    if t.scan.fastMant = intLimit true then .ok Int64.minValue
    else .ok (Int64.ofInt (-(t.scan.fastMant : ℤ)))
  else .ok (Int64.ofInt t.scan.fastMant)

/-- `sizeof(num_buf)`. -/
def sizeofNumBuf : ℕ := 64

/-- The result of the fast path, if it applies. -/
def fastFloat [CDouble D] (t : NumToken) : Option D :=
  if t.scan.fastOk then
    jsonFastFloatFromParts t.scan.fastMant t.scan.fastSig t.scan.fastExp10 t.negative
  else none

/-- `json__parse_number`: the node it fills in, and the position behind the token. -/
def jsonParseNumber [CDouble D] (src : List UInt8) (start : ℕ) : M D (JsonNode D × ℕ) := do
  let t ← ofScan (scanNumber src start)
  if t.isFloat then
    match (fastFloat t : Option D) with
    | some f => return (.float f, t.scan.pos)
    | none =>
      let hasBuf ← bufferFor (t.scan.pos - start ≥ sizeofNumBuf) (t.scan.pos - start + 1)
      if hasBuf then
        let token ← ofScan (copyBytes src start (t.scan.pos - start))
        let node ← ofScan (slowFloat token)
        return (node, t.scan.pos)
      else throw (.err .oom)
  else
    let i ← ofScan (intResult t)
    return (.integer i, t.scan.pos)

/-- `json__parse_number` when the storage for a long token is granted. -/
def numberToken [CDouble D] (src : List UInt8) (start : ℕ) : Scan (JsonNode D × ℕ) := do
  let t ← scanNumber src start
  if t.isFloat then
    match (fastFloat t : Option D) with
    | some f => return (.float f, t.scan.pos)
    | none =>
      let token ← copyBytes src start (t.scan.pos - start)
      let node ← slowFloat token
      return (node, t.scan.pos)
  else
    let i ← intResult t
    return (.integer i, t.scan.pos)

end SJson
