/-
# The C ABI

`bindings/ffi/sjson_ffi.c`: documents, each of which owns the arena of its values, and reading
these values.

Nothing of one document can be reached from another, so that a document is kept together with
its nodes, as in the cJSON layer.  The functions run in `Option`, where `none` stands for a use
of a document or a value that is not there, or not there any more.  The pointers that results
are stored through are not `NULL`.
-/
import SJson.ArrayList
import SJson.CompatInvariant
import SJson.OutputText

namespace SJson

/-! ## Error codes and types -/

/-- The number of an error code. -/
def JsonError.code : JsonError → ℤ
  | .ok => 0
  | .nullParam => -1
  | .oom => -2
  | .invalidJson => -3
  | .unexpectedEof => -4
  | .depthExceeded => -5
  | .invalidString => -6
  | .invalidNumber => -7
  | .invalidUtf8 => -8
  | .overflow => -9
  | .notFound => -10
  | .typeMismatch => -11
  | .bufferTooSmall => -12
  | .nodeLimit => -13

/-- `json_error_str`. -/
def jsonErrorStr : JsonError → String
  | .ok => "OK"
  | .nullParam => "NULL parameter"
  | .oom => "Out of memory"
  | .invalidJson => "Invalid JSON"
  | .unexpectedEof => "Unexpected end of input"
  | .depthExceeded => "Nesting depth exceeded"
  | .invalidString => "Invalid string / escape sequence"
  | .invalidNumber => "Invalid number"
  | .invalidUtf8 => "Invalid UTF-8 sequence"
  | .overflow => "Arithmetic or buffer overflow"
  | .notFound => "Key or index not found"
  | .typeMismatch => "Type mismatch"
  | .bufferTooSmall => "Output buffer too small"
  | .nodeLimit => "Node count limit exceeded"

/-- `type`, as a number. -/
def JsonNode.type {D : Type} : JsonNode D → ℤ
  | .null => 0
  | .bool _ => 1
  | .integer _ => 2
  | .float _ => 3
  | .string _ => 4
  | .array _ => 5
  | .object _ => 6

/-! ## Reading values -/

section Getters

variable {D : Type}

/-- `json_get_bool`. -/
def jsonGetBool (h : Heap D) (v : JsonPtr) : Scan Bool :=
  match h.node v with
  | .bool b => .ok b
  | _ => .error (.err .typeMismatch)

/-- `json_get_float`, and `json_get_number`. -/
def jsonGetFloat [CDouble D] (h : Heap D) (v : JsonPtr) : Scan D :=
  match h.node v with
  | .float f => .ok f
  | .integer i => .ok (CDouble.ofInt64 i)
  | _ => .error (.err .typeMismatch)

/-- `json_get_string`. -/
def jsonGetString (h : Heap D) (v : JsonPtr) : Scan (List UInt8) :=
  match h.node v with
  | .string s => .ok s.data
  | _ => .error (.err .typeMismatch)

end Getters

/-- The rational number that a finite double denotes. -/
def Double.toRat (negative : Bool) (m : Magnitude) : ℚ := if negative then -m.value else m.value

/-- What is left of a number when what is behind the point is dropped. -/
def truncate (x : ℚ) : ℤ := if x < 0 then ⌈x⌉ else ⌊x⌋

/-- `(int64_t)f`, where that is defined. -/
def Double.toInt64 : Double → Except JsonError Int64
  | .finite negative m =>
    if Double.toRat negative m < -2 ^ 63 ∨ Double.toRat negative m ≥ 2 ^ 63 then .error .overflow
    else .ok (.ofInt (truncate (Double.toRat negative m)))
  | _ => .error .overflow

/-- `json_get_int`. -/
def jsonGetInt (h : Heap Double) (v : JsonPtr) : Scan Int64 :=
  match h.node v with
  | .integer i => .ok i
  | .float f => f.toInt64.mapError .err
  | _ => .error (.err .typeMismatch)

/-! ## Documents -/

/-- `SJsonDocument*`: which call of `sjson_document_parse` made it. -/
abbrev DocPtr := ℕ

/-- `struct SJsonDocument`, with the nodes of its arena. -/
structure SJsonDocument where
  state : St Double
  root : JsonPtr

/-- What is left of a call of `sjson_document_parse`: a document, or the memory of an arena that
could not be made or was destroyed. -/
inductive DocCell where
  | live (doc : SJsonDocument)
  | gone (m : BlockMem)

/-- What the allocators grant: the one below each arena, and `calloc` for each document. -/
structure FfiBacking where
  grants : DocPtr → ℕ → ℕ → Bool
  callocs : DocPtr → Bool

/-- The documents, in the order in which they were made. -/
structure FfiState where
  docs : List DocCell

namespace FfiState

/-- Nothing made yet. -/
def init : FfiState := ⟨[]⟩

/-- The document, if it is not freed. -/
def docAt (w : FfiState) (k : DocPtr) : Option SJsonDocument :=
  match w.docs[k]? with
  | some (.live doc) => some doc
  | _ => none

/-- One more call of `sjson_document_parse`. -/
def add (w : FfiState) (cell : DocCell) : FfiState := ⟨w.docs ++ [cell]⟩

/-- The nodes that `v` is one of. -/
def nodesOf (w : FfiState) (v : ValueRef) : Option (Heap Double) := do
  let doc ← w.docAt v.arena
  if v.node < doc.state.heap.next then some doc.state.heap else none

end FfiState

/-- What `json_parse` reports at its label `parse_error`. -/
def parseStatus (e : JsonError) : JsonError := if e ≠ .ok then e else .invalidJson

/-- `sjson_document_parse`: the document, and what is stored in `*error`. -/
def sjsonDocumentParse (B : FfiBacking) (bytes : Option (List UInt8)) (w : FfiState) :
    Option ((Option DocPtr × JsonError) × FfiState) :=
  match bytes with
  | none => some ((none, .nullParam), w)
  | some src =>
    let k := w.docs.length
    if B.callocs k then
      match Arena.create (B.grants k) 4096 (by decide) with
      -- there is no arena to destroy in `sjson_document_free`
      | (none, m) => some ((none, .oom), w.add (.gone m))
      | (some arena, _) =>
        match (jsonParse src ⟨.empty, arena⟩ : EStateM.Result _ (St Double) _) with
        | .error (.fault _) _ => none
        | .error (.err e) s => do
          let m ← jsonArenaDestroy s.arena.raw
          return ((none, parseStatus e), w.add (.gone m))
        | .ok root s => some ((some k, .ok), w.add (.live ⟨s, root⟩))
    else some ((none, .oom), w.add (.gone (.init (B.grants k))))

/-- `sjson_document_free`. -/
def sjsonDocumentFree (doc : Option DocPtr) (w : FfiState) : Option FfiState :=
  match doc with
  | none => some w
  | some k => do
    let doc ← w.docAt k
    let m ← jsonArenaDestroy doc.state.arena.raw
    return ⟨w.docs.set k (.gone m)⟩

/-- `sjson_document_root`. -/
def sjsonDocumentRoot (doc : Option DocPtr) (w : FfiState) : Option (Option ValueRef) :=
  match doc with
  | none => some none
  | some k => do
    let doc ← w.docAt k
    return some ⟨k, doc.root⟩

/-! ## Values -/

/-- What a function of the library returns: its output, or an error code. -/
def reported {α : Type} : Scan α → Option (Except JsonError α)
  | .ok a => some (.ok a)
  | .error (.err e) => some (.error e)
  | .error (.fault _) => none

namespace FfiState

variable {α : Type}

/-- A function of the library that reads a value. -/
def read (w : FfiState) (value : Option ValueRef) (f : Heap Double → JsonPtr → Scan α) :
    Option (Except JsonError α) :=
  match value with
  | none => some (.error .nullParam)
  | some v => do
    let h ← w.nodesOf v
    reported (f h v.node)

/-- A value of the document that `value` is in. -/
def sibling (value : Option ValueRef) (p : JsonPtr) : Option ValueRef :=
  value.map fun v => { v with node := p }

/-- A function of the library that looks up a value. -/
def lookup (w : FfiState) (value : Option ValueRef) (f : Heap Double → JsonPtr → Scan JsonPtr) :
    Option (Option ValueRef) := do
  match ← w.read value f with
  | .ok p => return sibling value p
  | .error _ => return none

end FfiState

/-- `sjson_value_member`. -/
def sjsonValueMember (value : Option ValueRef) (key : List UInt8) (w : FfiState) :
    Option (Option ValueRef) :=
  w.lookup value fun h v => jsonObjGetN h v key

/-- `sjson_value_at`. -/
def sjsonValueAt (value : Option ValueRef) (index : UInt32) (w : FfiState) :
    Option (Option ValueRef) :=
  w.lookup value fun h v => jsonArrGet h v index.toNat

/-- `sjson_value_kind`. -/
def sjsonValueKind (value : Option ValueRef) (w : FfiState) : Option ℤ :=
  match value with
  | none => some (-1)
  | some v => do
    let h ← w.nodesOf v
    return (h.node v.node).type

/-- `sjson_value_size`. -/
def sjsonValueSize (value : Option ValueRef) (w : FfiState) : Option ℕ :=
  match value with
  | none => some 0
  | some v => do
    let h ← w.nodesOf v
    match h.node v.node with
    | .array a => return a.items.length
    | .object o => return o.pairs.length
    | .string s => return s.len
    | _ => return 0

/-- `sjson_value_bool`. -/
def sjsonValueBool (value : Option ValueRef) (w : FfiState) : Option (Except JsonError ℤ) :=
  w.read value fun h v => (fun b : Bool => if b then 1 else 0) <$> jsonGetBool h v

/-- `sjson_value_int`. -/
def sjsonValueInt (value : Option ValueRef) (w : FfiState) : Option (Except JsonError Int64) :=
  w.read value jsonGetInt

/-- `sjson_value_number`. -/
def sjsonValueNumber (value : Option ValueRef) (w : FfiState) :
    Option (Except JsonError Double) :=
  w.read value jsonGetFloat

/-- `sjson_value_string`: the bytes at `*output`, of which there are `*length`. -/
def sjsonValueString (value : Option ValueRef) (w : FfiState) :
    Option (Except JsonError (List UInt8)) :=
  w.read value jsonGetString

/-- `sjson_value_entry`: the bytes of the key, and the value. -/
def sjsonValueEntry (value : Option ValueRef) (index : UInt32) (w : FfiState) :
    Option (Except JsonError (List UInt8 × Option ValueRef)) :=
  w.read value fun h v =>
    (Prod.map id (FfiState.sibling value)) <$> jsonObjIter h v index.toNat

/-- `sjson_value_write`, with no buffer if `output` is `none`; an error is one that is returned
before anything is stored. -/
def sjsonValueWrite (value : Option ValueRef) (output : Option (ℕ → UInt8)) (capacity : ℕ)
    (w : FfiState) : Option (Except JsonError Written) :=
  match value with
  | none => some (.error .nullParam)
  | some v => do
    let h ← w.nodesOf v
    match output with
    | none =>
      if capacity > 0 then return .error .nullParam
      else
        match jsonMeasure h v.node kDefaultOpts with
        | .ok (status, written) => return .ok ⟨status, written, fun _ => 0⟩
        | .error _ => none
    | some buf =>
      -- the default options do not sort
      match jsonWrite h v.node buf capacity kDefaultOpts fun _ => false with
      | .ok r => return .ok r
      | .error _ => none

end SJson
