/-
# Objects: lookup, the sorted index, and construction

`src/sJson.c`: `json__obj_sort` (lines 815-849), `json_obj_get_n` and `json_obj_iter` (lines
1899-1983), the functions `json_make_*`, `json_arr_push` and `json_obj_set` (lines 2426-2574),
and `json_obj_finalize`.

* Pointers are not `NULL`: the functions only refuse those.  A key is the bytes at
  `key`, `klen` their number; `NULL` with `klen` zero is the empty key.
* A node that is `NULL` for lack of memory or nodes is `none`.
* The array behind `sorted_idx` has `cap` cells, since growing an object drops it, so
  only its first `len` cells are kept.
-/
import SJson.SortSpec
import SJson.Utf8

namespace SJson

variable {D : Type}

/-! ## Looking up a key -/

/-- `k->hash == hash && k->len == klen && (klen == 0 || memcmp(k->data, key, klen) == 0)`. -/
def keyMatches (hash : UInt32) (key : List UInt8) (k : JsonStr) : Bool :=
  k.hash = hash && k.len = key.length && (key.length = 0 || memcmp key.length k.data key = 0)

/-- The linear scan of `json_obj_get_n`. -/
def linearGet (hash : UInt32) (key : List UInt8) : List JsonPair → Scan JsonPtr
  | [] => .error (.err .notFound)
  | pair :: pairs => if keyMatches hash key pair.key then .ok pair.val else linearGet hash key pairs

/-- `sorted_idx[(uint32_t)mid]`. -/
def idxAt (idx : List ℕ) (mid : ℤ) : Scan ℕ :=
  if mid < 0 then .error (.fault .oobRead)
  else
    match idx[mid.toNat]? with
    | some i => .ok i
    | none => .error (.fault .oobRead)

/-- The binary search of `json_obj_get_n`, whose comparison is that of `json__key_cmp`
written out again. -/
def bisectGet (pairs : List JsonPair) (idx : List ℕ) (hash : UInt32) (key : List UInt8) :
    ℕ → ℤ → ℤ → Scan JsonPtr
  | 0, lo, hi => if lo ≤ hi then .error (.fault .fuel) else .error (.err .notFound)
  | fuel + 1, lo, hi =>
    if lo ≤ hi then do
      let i ← idxAt idx (lo + (hi - lo) / 2)
      let pair ← pairAt pairs i
      if keyOrd false pair.key ⟨key, hash⟩ = 0 then return pair.val
      else if keyOrd false pair.key ⟨key, hash⟩ < 0 then
        bisectGet pairs idx hash key fuel (lo + (hi - lo) / 2 + 1) hi
      else bisectGet pairs idx hash key fuel lo (lo + (hi - lo) / 2 - 1)
    else .error (.err .notFound)

/-- `json_obj_get_n` on an object that is not empty. -/
def objGet (o : JsonObj) (key : List UInt8) : Scan JsonPtr :=
  match o.isSorted, o.sortedIdx with
  | true, some idx =>
    bisectGet o.pairs idx (jsonFnv1a key) key o.pairs.length 0 (o.pairs.length - 1)
  | _, _ => linearGet (jsonFnv1a key) key o.pairs

/-- `json_obj_get_n`. -/
def jsonObjGetN (h : Heap D) (v : JsonPtr) (key : List UInt8) : Scan JsonPtr :=
  if key.length > uint32Max then .error (.err .overflow)
  else
    match h.node v with
    | .object o => if o.pairs.length = 0 then .error (.err .notFound) else objGet o key
    | _ => .error (.err .typeMismatch)

/-- `json_obj_iter`: the key and the value at `idx`. -/
def jsonObjIter (h : Heap D) (v : JsonPtr) (idx : ℕ) : Scan (List UInt8 × JsonPtr) :=
  match h.node v with
  | .object o =>
    if idx ≥ o.pairs.length then .error (.err .notFound)
    else do
      let pair ← pairAt o.pairs idx
      return (pair.key.data, pair.val)
  | _ => .error (.err .typeMismatch)

/-! ## The sorted index -/

/-- The indices of the pairs in the order of `json__introsort`. -/
def sortIndices (ctx : JsonSortCtx) : Scan (List ℕ) :=
  if ctx.pairs.length > 1 then do
    let arr ← jsonIntrosort ctx (2 * jsonIlog2 ctx.pairs.length) 0 (ctx.pairs.length - 1) fun i => i
    return (List.range ctx.pairs.length).map arr
  else .ok (List.range ctx.pairs.length)

/-- `sizeof(uint32_t)`. -/
def sizeofUint32 : ℕ := 4

/-- `json__obj_sort`. -/
def jsonObjSort (v : JsonPtr) (o : JsonObj) : M D Unit :=
  if o.isSorted ∨ o.pairs.length = 0 then pure ()
  else do
    let hasIdx ← bufferFor o.sortedIdx.isNone (o.cap * sizeofUint32)
    if hasIdx then
      let idx ← ofScan (sortIndices ⟨o.pairs, false⟩)
      writeNode v (.object { o with sortedIdx := some idx, isSorted := true })
    else throw (.err .oom)

/-- `json_obj_finalize`. -/
def jsonObjFinalize (v : JsonPtr) : M D Unit := do
  match ← readNode v with
  | .object o => jsonObjSort v o
  | _ => throw (.err .typeMismatch)

/-! ## Construction -/

/-- A new node filled in with `n`. -/
def makeNode (n : JsonNode D) : M D (Option JsonPtr) := do
  match ← jsonNewNode with
  | none => return none
  | some v =>
    writeNode v n
    return some v

/-- `json_make_null`. -/
def jsonMakeNull : M D (Option JsonPtr) := makeNode .null

/-- `json_make_bool`. -/
def jsonMakeBool (val : Bool) : M D (Option JsonPtr) := makeNode (.bool val)

/-- `json_make_int`. -/
def jsonMakeInt (val : Int64) : M D (Option JsonPtr) := makeNode (.integer val)

/-- `json_make_float`. -/
def jsonMakeFloat [CDouble D] (val : D) : M D (Option JsonPtr) :=
  if CDouble.nonFinite val then return none else makeNode (.float val)

/-- `json_make_array`. -/
def jsonMakeArray : M D (Option JsonPtr) := makeNode (.array .empty)

/-- `json_make_object`. -/
def jsonMakeObject : M D (Option JsonPtr) := makeNode (.object .empty)

/-- `json_make_string`. -/
def jsonMakeString (s : List UInt8) : M D (Option JsonPtr) :=
  if s.length > jsonMaxStringLen then return none
  else do
    let valid ← ofScan (jsonValidUtf8 s)
    if s.length > 0 ∧ valid = false then return none
    else
      match ← jsonNewNode with
      | none => return none
      | some v =>
        let hasCopy ← bufferFor (s.length > 0) s.length
        if hasCopy then
          writeNode v (.string ⟨s, jsonFnv1a s⟩)
          return some v
        else return none

/-- `json_arr_push`. -/
def jsonArrPush (arr item : JsonPtr) : M D Unit := do
  match ← readNode arr with
  | .array _ => arrStore arr item
  | _ => throw (.err .typeMismatch)

/-- The loop of `json_obj_set` that looks for the key and replaces its value. -/
def setPair (hash : UInt32) (key : List UInt8) (val : JsonPtr) :
    List JsonPair → Option (List JsonPair)
  | [] => none
  | pair :: pairs =>
    if keyMatches hash key pair.key then some ({ pair with val := val } :: pairs)
    else (setPair hash key val pairs).map (pair :: ·)

/-- The part of `json_obj_set` that inserts a new pair. -/
def insertPair (obj : JsonPtr) (o : JsonObj) (key : List UInt8) (val : JsonPtr) : M D Unit := do
  let o ← objRoom o
  -- the object has grown even where the copy of the key fails
  writeNode obj (.object o)
  let hasCopy ← bufferFor (key.length > 0) key.length
  if hasCopy then
    if o.pairs.length < o.cap then
      writeNode obj (.object { o with
        pairs := o.pairs ++ [⟨⟨key, jsonFnv1a key⟩, val⟩]
        isSorted := false })
    else throw (.fault .oobWrite)
  else throw (.err .oom)

/-- `json_obj_set`. -/
def jsonObjSet (obj : JsonPtr) (key : List UInt8) (val : JsonPtr) : M D Unit := do
  match ← readNode obj with
  | .object o =>
    if key.length > jsonMaxStringLen then throw (.err .overflow)
    else
      let valid ← ofScan (jsonValidUtf8 key)
      if valid = false then throw (.err .invalidUtf8)
      else
        match setPair (jsonFnv1a key) key val o.pairs with
        | some pairs => writeNode obj (.object { o with pairs := pairs })
        | none => insertPair obj o key val
  | _ => throw (.err .typeMismatch)

end SJson
