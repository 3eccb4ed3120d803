/-
# What is written

The text of a tree, cut into pieces (`Json.pieces`): texts, the indentation behind a new
line, and the places where the writer looks whether something has gone wrong.  The text
itself is `Json.render`.

The tree that is written is read off the heap (`Heap.unfold`), with the pairs of every
object in the order in which they are written.
-/
import SJson.Writer
import SJson.Json
import Mathlib.Data.Nat.Digits.Defs

namespace SJson

open ErrState

/-! ## Pieces -/

/-- A piece of output. -/
inductive Piece where
  /-- Bytes that are written one behind the other. -/
  | text (b : List UInt8)
  /-- The spaces behind a new line. -/
  | pad (n : ℕ)
  /-- The end of a string value, where `w->err` is returned. -/
  | gate
  deriving DecidableEq, Repr

/-- The bytes of a piece. -/
def Piece.bytes : Piece → List UInt8
  | .text b => b
  | .pad n => List.replicate n 0x20
  | .gate => []

/-- The bytes of a list of pieces. -/
def bytesOf (ps : List Piece) : List UInt8 := ps.flatMap Piece.bytes

@[simp] theorem bytesOf_nil : bytesOf [] = [] := rfl

@[simp] theorem bytesOf_cons (p : Piece) (ps : List Piece) :
    bytesOf (p :: ps) = p.bytes ++ bytesOf ps := rfl

@[simp] theorem bytesOf_append (ps qs : List Piece) :
    bytesOf (ps ++ qs) = bytesOf ps ++ bytesOf qs := List.flatMap_append

/-! ## Scalars -/

/-- The text of an integer. -/
def intText (i : Int64) : List UInt8 :=
  (if i.toInt < 0 then [0x2D] else []) ++
    if int64Abs i = 0 then [0x30]
    else (Nat.digits 10 (int64Abs i)).reverse.map fun d => .ofNat (0x30 + d)

/-- The text of a double, if it has one. -/
def floatBytes {D : Type} [CDouble D] (f : D) : List UInt8 :=
  match floatText f with
  | .ok b => b
  | .error _ => []

/-- The text of a double fits in the buffer of `jw_double`. -/
theorem floatText_length {D : Type} [CDouble D] {f : D} {b : List UInt8}
    (hb : floatText f = .ok b) : b ≠ [] ∧ b.length < sizeofFloatBuf := by
  unfold floatText at hb
  split at hb
  · cases hb
  split at hb
  · cases hb
  split_ifs at hb with hlen hmark
  · cases hb
    refine ⟨by simp, ?_⟩
    rw [List.length_append]
    exact hmark.2
  · cases hb
    refine ⟨?_, by omega⟩
    rintro rfl
    exact hmark ⟨rfl, by decide⟩

/-- The code points of a string. -/
def decodeAll : ℕ → List UInt8 → List ℕ
  | _, [] => []
  | 0, _ :: _ => []
  | fuel + 1, c :: s =>
    match jsonUtf8Decode (c :: s) (c :: s).length with
    | .ok (cp, count) => cp :: decodeAll fuel ((c :: s).drop count)
    | .error _ => []

/-- The text of a code point in a string. -/
def charText (asciiOnly : Bool) (cp : ℕ) : List UInt8 :=
  if cp < 0x80 then
    if needsEscape (.ofNat cp) then escapeText (.ofNat cp) else [.ofNat cp]
  else if asciiOnly = false then jsonEncodeUtf8 cp
  else if cp ≤ 0xFFFF then u16Text cp
  else u16Text (0xD800 + (cp - 0x10000) / 1024) ++ u16Text (0xDC00 + (cp - 0x10000) % 1024)

/-- The text of a string between the quotes. -/
def contentText (asciiOnly : Bool) (s : List UInt8) : List UInt8 :=
  (decodeAll s.length s).flatMap (charText asciiOnly)

/-- The text of a key with its colon. -/
def keyText (opts : JsonWriteOpts) (key : List UInt8) : List UInt8 :=
  0x22 :: contentText opts.asciiOnly key ++ [0x22, 0x3A] ++ if opts.pretty then [0x20] else []

/-! ## Trees -/

/-- A new line, where the output is pretty. -/
def newLine (opts : JsonWriteOpts) (depth : ℕ) : List Piece :=
  if opts.pretty then [.text [0x0A], .pad (depth * opts.indent.toNat)] else []

/-- The end of a container. -/
def closePieces (opts : JsonWriteOpts) (depth len : ℕ) (bracket : UInt8) : List Piece :=
  (if len > 0 then newLine opts depth else []) ++ [.text [bracket]]

/-- The comma behind an entry that others follow. -/
def commaPieces (last : Bool) : List Piece := if last then [] else [.text [0x2C]]

variable {D : Type} [CDouble D]

namespace Json

mutual

/-- The pieces of a tree that is `depth` levels down. -/
def pieces (opts : JsonWriteOpts) : Json D → ℕ → List Piece
  | .null, _ => [.text litNull]
  | .bool b, _ => [.text (if b then litTrue else litFalse)]
  | .int i, _ => [.text (intText i)]
  | .float f, _ => [.text (floatBytes f)]
  | .str s, _ => [.text (0x22 :: contentText opts.asciiOnly s), .gate, .text [0x22]]
  | .arr items, depth =>
    .text [0x5B] :: (piecesArr opts items depth ++ closePieces opts depth items.length 0x5D)
  | .obj pairs, depth =>
    .text [0x7B] :: (piecesObj opts pairs depth ++ closePieces opts depth pairs.length 0x7D)
termination_by structural j => j

/-- The pieces of the items of an array. -/
def piecesArr (opts : JsonWriteOpts) : List (Json D) → ℕ → List Piece
  | [], _ => []
  | j :: items, depth =>
    newLine opts (depth + 1) ++ pieces opts j (depth + 1) ++ commaPieces items.isEmpty ++
      piecesArr opts items depth
termination_by structural items => items

/-- The pieces of the pairs of an object. -/
def piecesObj (opts : JsonWriteOpts) : List (List UInt8 × Json D) → ℕ → List Piece
  | [], _ => []
  | (key, j) :: pairs, depth =>
    newLine opts (depth + 1) ++ .text (keyText opts key) :: pieces opts j (depth + 1) ++
      commaPieces pairs.isEmpty ++ piecesObj opts pairs depth
termination_by structural pairs => pairs

end

/-- The pieces of a whole output. -/
def layout (opts : JsonWriteOpts) (j : Json D) : List Piece :=
  j.pieces opts 0 ++ if opts.trailingNl then [.text [0x0A]] else []

/-- The text of a tree. -/
def render (opts : JsonWriteOpts) (j : Json D) : List UInt8 := bytesOf (j.layout opts)

end Json

/-! ## The tree that is written -/

/-- The sort of the writer, which does not fail (`sortedPairs_spec`). -/
def sortedList (pairs : List JsonPair) : List JsonPair :=
  match sortedPairs pairs with
  | .ok sorted => sorted
  | .error _ => pairs

/-- The pairs in the order in which they are written. -/
def arrange (sort : Bool) (pairs : List JsonPair) : List JsonPair :=
  if sort ∧ pairs.length > 1 then sortedList pairs else pairs

/-- The tree at `v` down to `room` levels. -/
def Heap.unfold (h : Heap D) (sort : Bool) : ℕ → JsonPtr → Json D
  | 0, _ => .null
  | room + 1, v =>
    match h.node v with
    | .null => .null
    | .bool b => .bool b
    | .integer i => .int i
    | .float f => .float f
    | .string s => .str s.data
    | .array a => .arr (a.items.map (h.unfold sort room))
    | .object o =>
      .obj ((arrange sort o.pairs).map fun pr => (pr.key.data, h.unfold sort room pr.val))

/-- The graph is at most `room` levels deep from `v` on, and its doubles satisfy `P`. -/
def Heap.Ends (P : D → Prop) (h : Heap D) : ℕ → JsonPtr → Prop
  | 0, _ => False
  | room + 1, v =>
    match h.node v with
    | .float f => P f
    | .array a => ∀ p ∈ a.items, h.Ends P room p
    | .object o => ∀ pr ∈ o.pairs, h.Ends P room pr.val
    | _ => True

/-- The double has a text. -/
def HasText (f : D) : Prop := ∃ b, floatText f = .ok b

/-- What the writer gets through. -/
def Heap.Writable (h : Heap D) (room : ℕ) (v : JsonPtr) : Prop := h.Ends HasText room v

/-! ## Sorting for output -/

/-- The pair at an index. -/
def pairOf (pairs : List JsonPair) (i : ℕ) : JsonPair := (pairs[i]?).getD ⟨⟨[], 0⟩, 0⟩

theorem mapM_pairAt {pairs : List JsonPair} : ∀ {order : List ℕ}, (∀ i ∈ order, i < pairs.length) →
    order.mapM (pairAt pairs) = .ok (order.map (pairOf pairs)) := by
  intro order
  induction order with
  | nil => exact fun _ => rfl
  | cons i order ih =>
    intro h
    obtain ⟨hi, hrest⟩ := List.forall_mem_cons.mp h
    have hget := List.getElem?_eq_getElem hi
    have hat : pairAt pairs i = .ok (pairOf pairs i) := by
      rw [pairAt, pairOf, hget]
      rfl
    rw [List.mapM_cons, scan_bind_ok hat, scan_bind_ok (ih hrest)]
    rfl

theorem map_pairOf (pairs : List JsonPair) :
    (List.range pairs.length).map (pairOf pairs) = pairs := by
  refine List.ext_getElem (by simp) fun k h1 h2 => ?_
  rw [List.getElem_map, List.getElem_range, pairOf, List.getElem?_eq_getElem h2]
  rfl

theorem key_pairOf (pairs : List JsonPair) (lexical : Bool) (i : ℕ) :
    JsonSortCtx.key ⟨pairs, lexical⟩ i = (pairOf pairs i).key := by
  unfold JsonSortCtx.key pairOf
  cases pairs[i]? <;> rfl

/-- **The sort of the writer** returns the same pairs, with the keys in lexical order. -/
theorem sortedPairs_spec (pairs : List JsonPair) :
    sortedPairs pairs = .ok (sortedList pairs) ∧ (sortedList pairs).Perm pairs ∧
      (sortedList pairs).Pairwise fun a b => sortKey true a.key ≤ sortKey true b.key := by
  obtain ⟨order, hok, hperm, hsorted⟩ := sortIndices_spec ⟨pairs, true⟩
  have hlt : ∀ i ∈ order, i < pairs.length := fun i hi => List.mem_range.mp (hperm.mem_iff.mp hi)
  have hpairs : sortedPairs pairs = .ok (order.map (pairOf pairs)) := by
    rw [sortedPairs, scan_bind_ok hok, mapM_pairAt hlt]
  have hlist : sortedList pairs = order.map (pairOf pairs) := by rw [sortedList, hpairs]
  rw [hlist]
  refine ⟨hpairs, ?_, ?_⟩
  · have hmap := hperm.map (pairOf pairs)
    rwa [map_pairOf] at hmap
  · rw [List.pairwise_map]
    refine hsorted.imp fun {a b} hab => ?_
    rw [JsonSortCtx.le, key_pairOf, key_pairOf] at hab
    exact hab

theorem arrange_perm (sort : Bool) (pairs : List JsonPair) : (arrange sort pairs).Perm pairs := by
  unfold arrange
  split
  · exact (sortedPairs_spec pairs).2.1
  · exact .refl _

@[simp] theorem arrange_false (pairs : List JsonPair) : arrange false pairs = pairs := by
  simp [arrange]

/-- The pairs are sorted if there are two of them, and something is written. -/
theorem orderPairs_cases (opts : JsonWriteOpts) (pairs : List JsonPair) (w : JsonWriter) :
    ((opts.sortKeys = true ∧ w.measureOnly = false ∧ pairs.length > 1) ∧
      orderPairs opts pairs w = .ok (if w.sortMem 0 then some (sortedList pairs) else none)
        { w with sortMem := fun k => w.sortMem (k + 1) }) ∨
    (¬ (opts.sortKeys = true ∧ w.measureOnly = false ∧ pairs.length > 1) ∧
      orderPairs opts pairs w = .ok (some pairs) w) := by
  by_cases hsort : opts.sortKeys = true ∧ w.measureOnly = false ∧ pairs.length > 1
  · refine .inl ⟨hsort, ?_⟩
    have halloc : sortAlloc w
        = .ok (w.sortMem 0) { w with sortMem := fun k => w.sortMem (k + 1) } :=
      rfl
    unfold orderPairs
    rw [if_pos hsort, bind_ok halloc, (sortedPairs_spec pairs).1]
    cases w.sortMem 0 <;> rfl
  · exact .inr ⟨hsort, if_neg hsort⟩

/-- Where the memory for it is granted, the pairs are written in the order of `arrange`. -/
theorem orderPairs_granted (opts : JsonWriteOpts) (pairs : List JsonPair) {w : JsonWriter}
    (hmem : w.measureOnly = false → ∀ k, w.sortMem k = true) :
    orderPairs opts pairs w
      = .ok (some (arrange (opts.sortKeys && !w.measureOnly) pairs)) w := by
  unfold arrange
  rcases orderPairs_cases opts pairs w with ⟨⟨hkeys, hmode, hlen⟩, heq⟩ | ⟨hsort, heq⟩
  · have hsame : (fun k => w.sortMem (k + 1)) = w.sortMem := by
      funext k
      rw [hmem hmode, hmem hmode]
    rw [heq, hsame, hmem hmode, if_pos rfl, if_pos ⟨by simp [hkeys, hmode], hlen⟩]
  · rw [heq, if_neg]
    rintro ⟨hs, hlen⟩
    rw [Bool.and_eq_true, Bool.not_eq_true'] at hs
    exact hsort ⟨hs.1, hs.2, hlen⟩

end SJson
