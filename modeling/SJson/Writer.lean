/-
# The writer

`src/sJson.c`, lines 2071-2424: `jw_put` to `json__write_value`, `json_write`,
`json_measure` and `json_write_arena`.

* An emitting function returns an error code, which its callers may ignore, so that codes
  are results here and only faults are exceptions.
* `buf` is all of the memory from the buffer on; a store behind the first `cap` bytes is a
  fault.
* The temporary arena for sorting matters only in whether it grants a request: `sortMem`
  says so for the requests to come.
* The recursion is on the levels that are left, so `room + 1` is
  `depth = JSON_MAX_DEPTH - room - 1`.
* `v` and `written` are not `NULL`, and `buf` is `NULL` only where `json_measure` makes it so.
-/
import SJson.Represent

namespace SJson

open ErrState

/-- `JsonWriteOpts`. -/
structure JsonWriteOpts where
  pretty : Bool
  indent : UInt32
  sortKeys : Bool
  asciiOnly : Bool
  trailingNl : Bool
  deriving DecidableEq, Repr

/-- `k_default_opts`. -/
def kDefaultOpts : JsonWriteOpts := ⟨false, 2, false, false, false⟩

/-- `JsonWriter`. -/
structure JsonWriter where
  buf : ℕ → UInt8
  cap : ℕ
  used : ℕ
  measureOnly : Bool
  err : JsonError
  sortMem : ℕ → Bool

/-- A function that writes. -/
abbrev WM := EStateM Fault JsonWriter

/-! ## Emitting -/

/-- `w->err = e; return e`. -/
def setErr (e : JsonError) : WM JsonError := fun w => .ok e { w with err := e }

/-- `w->err`. -/
def getErr : WM JsonError := fun w => .ok w.err w

/-- `w->buf[w->used++] = c`. -/
def storeByte (c : UInt8) : WM Unit := fun w =>
  if w.used < w.cap then
    .ok () { w with buf := Function.update w.buf w.used c, used := w.used + 1 }
  else .error .oobWrite w

/-- `jw_put`. -/
def jwPut (c : UInt8) : WM JsonError := fun w =>
  if w.used = sizeMax then setErr .overflow w
  else if w.measureOnly then .ok .ok { w with used := w.used + 1 }
  else if w.cap = 0 ∨ w.used ≥ w.cap - 1 then setErr .bufferTooSmall w
  else (do
    storeByte c
    return .ok : WM JsonError) w

/-- The loop of `jw_puts`, and the one behind the conversion in `jw_int64`. -/
def putLoop : List UInt8 → WM JsonError
  | [] => return .ok
  | c :: s => do
    if (← jwPut c) ≠ .ok then return .bufferTooSmall else putLoop s

/-- `jw_puts`. -/
def jwPuts (s : List UInt8) : WM JsonError := fun w =>
  if s.length > sizeMax - w.used then setErr .overflow w
  else if w.measureOnly then .ok .ok { w with used := w.used + s.length }
  else putLoop s w

/-- `JSON_MEMSET(w->buf + w->used, ' ', count); w->used += count`. -/
def fillSpaces (count : ℕ) : WM Unit := fun w =>
  if w.used + count ≤ w.cap then
    .ok () { w with
      buf := fun i => if w.used ≤ i ∧ i < w.used + count then 0x20 else w.buf i
      used := w.used + count }
  else .error .oobWrite w

/-- `jw_indent`. -/
def jwIndent (depth : ℕ) (indentSz : UInt32) : WM JsonError := fun w =>
  let count := depth * indentSz.toNat % 2 ^ 64
  if (depth ≠ 0 ∧ count / depth ≠ indentSz.toNat) ∨ count > sizeMax - w.used then setErr .overflow w
  else if w.measureOnly then .ok .ok { w with used := w.used + count }
  else if w.cap = 0 ∨ w.used ≥ w.cap ∨ count ≥ w.cap - w.used then setErr .bufferTooSmall w
  else (do
    fillSpaces count
    return .ok : WM JsonError) w

/-! ## Numbers -/

/-- The loop of `jw_int64` that takes the digits off; `tmp` has `room` places left, and its
last place is the head of the list. -/
def digitLoop : ℕ → ℕ → List UInt8 → WM (List UInt8)
  | 0, absV, tmp => if absV > 0 then throw .oobWrite else return tmp
  | room + 1, absV, tmp =>
    if absV > 0 then digitLoop room (absV / 10) (.ofNat (0x30 + absV % 10) :: tmp) else return tmp

/-- The size of `tmp` in `jw_int64`. -/
def sizeofIntBuf : ℕ := 22

/-- The absolute value in `jw_int64`, an unsigned number. -/
def int64Abs (v : Int64) : ℕ := v.toInt.natAbs

/-- `jw_int64`. -/
def jwInt64 (v : Int64) : WM JsonError := do
  let err ← if v.toInt < 0 then jwPut 0x2D else pure .ok
  if err ≠ .ok then return .bufferTooSmall
  else if int64Abs v = 0 then jwPut 0x30
  else
    let tmp ← digitLoop sizeofIntBuf (int64Abs v) []
    putLoop tmp

/-- The size of `tmp` in `jw_double`. -/
def sizeofFloatBuf : ℕ := 32

/-- `c` is a point or an exponent mark. -/
def isFloatMark (c : UInt8) : Bool := c = 0x2E || c = 0x65 || c = 0x45

/-- The text of a double in `jw_double`, or the error it returns. -/
def floatText {D : Type} [CDouble D] (v : D) : Except JsonError (List UInt8) :=
  if CDouble.nonFinite v then .error .invalidNumber
  else
    match CDouble.snprintf17g v with
    | none => .error .overflow
    | some tmp =>
      if tmp.length ≥ sizeofFloatBuf then .error .overflow
      else if tmp.any isFloatMark = false ∧ tmp.length + 2 < sizeofFloatBuf then
        .ok (tmp ++ [0x2E, 0x30])
      else .ok tmp

/-- `jw_double`. -/
def jwDouble {D : Type} [CDouble D] (v : D) : WM JsonError :=
  match floatText v with
  | .ok tmp => jwPuts tmp
  | .error e => return e

/-! ## Strings -/

/-- `hex[n]`, for the low four bits of `n`. -/
def hexDigit (n : ℕ) : UInt8 := .ofNat (if n % 16 < 10 then 0x30 + n % 16 else 0x61 + (n % 16 - 10))

/-- The bytes of `jw_u16`. -/
def u16Text (code : ℕ) : List UInt8 :=
  [0x5C, 0x75, hexDigit (code / 4096), hexDigit (code / 256), hexDigit (code / 16), hexDigit code]

/-- `jw_u16`. -/
def jwU16 (code : ℕ) : WM JsonError := jwPuts (u16Text code)

/-- The escape of a byte in `jw_string_content`. -/
def escapeText (c : UInt8) : List UInt8 :=
  if c = 0x22 then [0x5C, 0x22]
  else if c = 0x5C then [0x5C, 0x5C]
  else if c = 0x0A then [0x5C, 0x6E]
  else if c = 0x0D then [0x5C, 0x72]
  else if c = 0x09 then [0x5C, 0x74]
  else if c = 0x08 then [0x5C, 0x62]
  else if c = 0x0C then [0x5C, 0x66]
  else [0x5C, 0x75, 0x30, 0x30, hexDigit (c.toNat / 16), hexDigit c.toNat]

/-- The byte is escaped. -/
def needsEscape (c : UInt8) : Bool := c.toNat < 0x20 || c = 0x22 || c = 0x5C

/-- What `jw_string_content` emits for a code point from `0x80` on, whose bytes are `s`. -/
def jwMultibyte (asciiOnly : Bool) (code : ℕ) (s : List UInt8) : WM JsonError :=
  if asciiOnly = false then jwPuts s
  else if code ≤ 0xFFFF then jwU16 code
  else do
    let status ← jwU16 (0xD800 + (code - 0x10000) / 1024)
    if status = .ok then jwU16 (0xDC00 + (code - 0x10000) % 1024) else return status

/-- The loop of `jw_string_content` on the rest of the string. -/
def stringLoop (asciiOnly : Bool) : ℕ → List UInt8 → WM JsonError
  | _, [] => getErr
  | 0, _ :: _ => throw .fuel
  | fuel + 1, c :: s =>
    if c.toNat ≥ 0x80 then
      match jsonUtf8Decode (c :: s) (c :: s).length with
      | .error (.fault f) => throw f
      | .error (.err e) => setErr e
      | .ok (code, count) => do
        let status ← jwMultibyte asciiOnly code ((c :: s).take count)
        if status ≠ .ok then return status else stringLoop asciiOnly fuel ((c :: s).drop count)
    else if needsEscape c then do
      let _ ← jwPuts (escapeText c)
      stringLoop asciiOnly fuel s
    else do
      let _ ← jwPut c
      stringLoop asciiOnly fuel s

/-- `jw_string_content`. -/
def jwStringContent (asciiOnly : Bool) (s : List UInt8) : WM JsonError :=
  stringLoop asciiOnly s.length s

/-! ## Values -/

/-- `null`. -/
def litNull : List UInt8 := [0x6E, 0x75, 0x6C, 0x6C]

/-- `true`. -/
def litTrue : List UInt8 := [0x74, 0x72, 0x75, 0x65]

/-- `false`. -/
def litFalse : List UInt8 := [0x66, 0x61, 0x6C, 0x73, 0x65]

/-- A new line with its indentation, where the output is pretty. -/
def jwNewLine (opts : JsonWriteOpts) (depth : ℕ) : WM Unit :=
  if opts.pretty then do
    let _ ← jwPut 0x0A
    let _ ← jwIndent depth opts.indent
    return ()
  else return ()

/-- The case `JSON_STRING`. -/
def writeString (opts : JsonWriteOpts) (s : List UInt8) : WM JsonError := do
  let err ← jwPut 0x22
  if err ≠ .ok then return err
  else
    let err ← jwStringContent opts.asciiOnly s
    if err ≠ .ok then return err else jwPut 0x22

/-- The end of a container with `len` entries, and its bracket. -/
def writeClose (opts : JsonWriteOpts) (depth len : ℕ) (bracket : UInt8) : WM JsonError := do
  if len > 0 then jwNewLine opts depth
  jwPut bracket

/-- The loop over the items of an array that is `depth` levels down. -/
def writeItems (opts : JsonWriteOpts) (depth : ℕ) (write : JsonPtr → WM JsonError) :
    List JsonPtr → WM JsonError
  | [] => return .ok
  | p :: ps => do
    jwNewLine opts (depth + 1)
    let err ← write p
    if err ≠ .ok then return err
    else
      if ps ≠ [] then
        let _ ← jwPut 0x2C
      writeItems opts depth write ps

/-- A key with its colon. -/
def writeKey (opts : JsonWriteOpts) (key : List UInt8) : WM Unit := do
  let _ ← jwPut 0x22
  let _ ← jwStringContent opts.asciiOnly key
  let _ ← jwPut 0x22
  let _ ← jwPut 0x3A
  if opts.pretty then
    let _ ← jwPut 0x20
  return ()

/-- The loop over the pairs of an object that is `depth` levels down. -/
def writePairs (opts : JsonWriteOpts) (depth : ℕ) (write : JsonPtr → WM JsonError) :
    List JsonPair → WM JsonError
  | [] => return .ok
  | pair :: pairs => do
    jwNewLine opts (depth + 1)
    writeKey opts pair.key.data
    let err ← write pair.val
    if err ≠ .ok then return err
    else
      if pairs ≠ [] then
        let _ ← jwPut 0x2C
      writePairs opts depth write pairs

/-- Whether `json__arena_alloc_uninit(w->sort_arena, …)` is not `NULL`. -/
def sortAlloc : WM Bool := fun w =>
  .ok (w.sortMem 0) { w with sortMem := fun k => w.sortMem (k + 1) }

/-- The pairs in the order of `json__introsort` with `lexical` set. -/
def sortedPairs (pairs : List JsonPair) : Scan (List JsonPair) := do
  let order ← sortIndices ⟨pairs, true⟩
  order.mapM (pairAt pairs)

/-- The pairs in the order in which they are written; `none` for lack of memory. -/
def orderPairs (opts : JsonWriteOpts) (pairs : List JsonPair) : WM (Option (List JsonPair)) :=
  fun w =>
    if opts.sortKeys ∧ w.measureOnly = false ∧ pairs.length > 1 then (do
      if ← sortAlloc then
        match sortedPairs pairs with
        | .ok sorted => return some sorted
        | .error (.fault f) => throw f
        | .error (.err _) => throw .deadBranch
      else return none : WM _) w
    else .ok (some pairs) w

variable {D : Type} [CDouble D]

/-- The `switch` of `json__write_value`, `depth` levels down. -/
def writeNodeAt (opts : JsonWriteOpts) (depth : ℕ) (write : JsonPtr → WM JsonError) :
    JsonNode D → WM JsonError
  | .null => jwPuts litNull
  | .bool b => if b then jwPuts litTrue else jwPuts litFalse
  | .integer i => jwInt64 i
  | .float f => jwDouble f
  | .string s => writeString opts s.data
  | .array a => do
    let err ← jwPut 0x5B
    if err ≠ .ok then return err
    else
      let err ← writeItems opts depth write a.items
      if err ≠ .ok then return err else writeClose opts depth a.items.length 0x5D
  | .object o => do
    match ← orderPairs opts o.pairs with
    | none => return .oom
    | some pairs =>
      let err ← jwPut 0x7B
      if err ≠ .ok then return err
      else
        let err ← writePairs opts depth write pairs
        if err ≠ .ok then return err else writeClose opts depth o.pairs.length 0x7D

/-- `json__write_value`. -/
def jsonWriteValue (h : Heap D) (opts : JsonWriteOpts) : ℕ → JsonPtr → WM JsonError
  | 0, _ => return .depthExceeded
  | room + 1, v =>
    writeNodeAt opts (jsonMaxDepth - 1 - room) (jsonWriteValue h opts room) (h.node v)

/-! ## Entry points -/

/-- `buf[w.used] = '\0'`, if there is a place for it. -/
def terminate : WM JsonError := fun w =>
  if w.used < w.cap then .ok .ok { w with buf := Function.update w.buf w.used 0 }
  else .ok .bufferTooSmall w

/-- `json_write` behind the set-up of the writer. -/
def writeAll (h : Heap D) (opts : JsonWriteOpts) (v : JsonPtr) : WM JsonError := do
  let err ← jsonWriteValue h opts jsonMaxDepth v
  let err ← if err = .ok ∧ opts.trailingNl then jwPut 0x0A else pure err
  let w ← get
  if err = .ok ∧ w.measureOnly = false then terminate else return err

/-- What `json_write` leaves: the code it returns, `*written`, and the memory from the
buffer on. -/
structure Written where
  status : JsonError
  written : ℕ
  buf : ℕ → UInt8

/-- The bytes that `json_write` reports, without the terminator. -/
def Written.bytes (r : Written) : List UInt8 := (List.range r.written).map r.buf

/-- The outcome of a writer that ran to its end, or the fault. -/
def outcome : EStateM.Result Fault JsonWriter JsonError → Except Fault Written
  | .ok e w => .ok ⟨e, w.used, w.buf⟩
  | .error f _ => .error f

/-- `json_write` into the buffer `buf` of `bufSize` bytes. -/
def jsonWrite (h : Heap D) (v : JsonPtr) (buf : ℕ → UInt8) (bufSize : ℕ) (opts : JsonWriteOpts)
    (sortMem : ℕ → Bool) : Except Fault Written :=
  outcome (writeAll h opts v ⟨buf, bufSize, 0, false, .ok, sortMem⟩)

/-- `json_measure`: the code and `*size_out`. -/
def jsonMeasure (h : Heap D) (v : JsonPtr) (opts : JsonWriteOpts) :
    Except Fault (JsonError × ℕ) := do
  -- the buffer is `NULL`, and nothing is sorted
  let r ← outcome (writeAll h opts v ⟨fun _ => 0, 0, 0, true, .ok, fun _ => false⟩)
  return (r.status, r.written)

/-- `json_write_arena`, with `mem` the memory behind the allocation: the code, and the
string with its length on success. -/
def jsonWriteArena (h : Heap D) (v : JsonPtr) (A : Arena) (mem : ℕ → UInt8) (opts : JsonWriteOpts)
    (sortMem : ℕ → Bool) : Except Fault (JsonError × Option Written × Arena) := do
  let (err, needed) ← jsonMeasure h v opts
  if err ≠ .ok then return (err, none, A)
  else if needed = sizeMax then return (.overflow, none, A)
  else if (A.alloc (needed + 1)).1.isSome then
    let r ← jsonWrite h v mem (needed + 1) opts sortMem
    if r.status ≠ .ok then return (r.status, none, (A.alloc (needed + 1)).2)
    else return (.ok, some r, (A.alloc (needed + 1)).2)
  else return (.oom, none, (A.alloc (needed + 1)).2)

end SJson
