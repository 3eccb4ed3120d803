/-
# Path queries

`json_path` and `json_arr_get`, `src/sJson.c` lines 1889-1897 and 1986-2069.

A `const char*` into the path is the list of the bytes from there on, with the NUL that
ends the string; a read behind the NUL is a fault.  The result `NULL` with an error code
is that error.  `key_buf` is filled but never read, so that only its size is left of it.
-/
import SJson.Lookup
import SJson.Lexer

namespace SJson

variable {D : Type}

/-- `json_arr_get`. -/
def jsonArrGet (h : Heap D) (v : JsonPtr) (idx : ℕ) : Scan JsonPtr :=
  match h.node v with
  | .array a =>
    match a.items[idx]? with
    | some item => .ok item
    | none => .error (.err .notFound)
  | _ => .error (.err .typeMismatch)

/-! ## Scanning -/

/-- `while (*p != '\0' && !stop(*p)) { p++; }`: the bytes passed over, and `p`. -/
def scanTo (stop : UInt8 → Bool) : List UInt8 → Scan (List UInt8 × List UInt8)
  | [] => .error (.fault .oobRead)
  | c :: p =>
    if c ≠ 0 ∧ stop c = false then do
      let (ks, p) ← scanTo stop p
      return (c :: ks, p)
    else .ok ([], c :: p)

/-- The loop over the digits of an index: the index, and `p`. -/
def indexLoop : ℕ → List UInt8 → Scan (ℕ × List UInt8)
  | _, [] => .error (.fault .oobRead)
  | idx, c :: p =>
    if isDigit c then
      if idx > (uint32Max - (c.toNat - 0x30)) / 10 then .error (.err .overflow)
      else indexLoop (idx * 10 + (c.toNat - 0x30)) p
    else .ok (idx, c :: p)

/-- `if (*p != ']') { err = JSON_ERR_INVALID_JSON; goto fail; } p++;` -/
def closeBracket : List UInt8 → Scan (List UInt8)
  | [] => .error (.fault .oobRead)
  | c :: p => if c ≠ 0x5D then .error (.err .invalidJson) else .ok p

/-- The end of a quoted key: an error at the NUL, and else `p++`. -/
def closeQuote : List UInt8 → Scan (List UInt8)
  | [] => .error (.fault .oobRead)
  | c :: p => if c = 0 then .error (.err .invalidJson) else .ok p

/-- The first byte of an identifier. -/
def isIdentStart (c : UInt8) : Bool :=
  (0x61 ≤ c.toNat ∧ c.toNat ≤ 0x7A) ∨ (0x41 ≤ c.toNat ∧ c.toNat ≤ 0x5A) ∨ c = 0x5F ∨
    0x80 ≤ c.toNat

/-- The byte that ends a quoted key. -/
def isQuote (c : UInt8) : Bool := c = 0x22

/-- The bytes that end an identifier. -/
def endsIdent (c : UInt8) : Bool := c = 0x2E ∨ c = 0x5B

/-! ## Resolving -/

/-- Bracket notation, with `p` behind the bracket. -/
def pathBracket (h : Heap D) (cur : JsonPtr) : List UInt8 → Scan (JsonPtr × List UInt8)
  | [] => .error (.fault .oobRead)
  | c :: p =>
    if c = 0x22 then do
      let (key, p) ← scanTo isQuote p
      let p ← closeQuote p
      let p ← closeBracket p
      let out ← jsonObjGetN h cur key
      return (out, p)
    else if isDigit c then do
      let (idx, p) ← indexLoop 0 (c :: p)
      let p ← closeBracket p
      let out ← jsonArrGet h cur idx
      return (out, p)
    else .error (.err .invalidJson)

/-- `sizeof(key_buf)`. -/
def sizeofKeyBuf : ℕ := 512

/-- Dot notation, with `p` at the first byte of the identifier. -/
def pathIdent (h : Heap D) (cur : JsonPtr) (p : List UInt8) : Scan (JsonPtr × List UInt8) := do
  let (key, p) ← scanTo endsIdent p
  if key.length ≥ sizeofKeyBuf then .error (.err .overflow)
  else do
    let out ← jsonObjGetN h cur key
    return (out, p)

/-- `if (*p == '.') { p++; }` -/
def skipDot : List UInt8 → List UInt8
  | [] => []
  | c :: p => if c = 0x2E then p else c :: p

/-- What stands behind the leading dot. -/
def pathPart (h : Heap D) (cur : JsonPtr) : List UInt8 → Scan (JsonPtr × List UInt8)
  | [] => .error (.fault .oobRead)
  | c :: p =>
    if c = 0x5B then pathBracket h cur p
    else if isIdentStart c then pathIdent h cur (c :: p)
    else .error (.err .invalidJson)

/-- The loop of `json_path`. -/
def pathLoop (h : Heap D) : ℕ → JsonPtr → List UInt8 → Scan JsonPtr
  | 0, _, _ => .error (.fault .fuel)
  | _ + 1, _, [] => .error (.fault .oobRead)
  | fuel + 1, cur, c :: p =>
    if c = 0 then .ok cur
    else do
      let (cur, p) ← pathPart h cur (skipDot (c :: p))
      pathLoop h fuel cur p

/-- `json_path`, on a path of these bytes. -/
def jsonPath (h : Heap D) (root : JsonPtr) (path : List UInt8) : Scan JsonPtr :=
  pathLoop h (path.length + 2) root (path ++ [0])

end SJson
