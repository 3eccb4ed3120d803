/-
# Sorting indices by key

`json__key_cmp`, `json__isort`, `json__sift_down`, `json__heapsort` and
`json__introsort`, `src/sJson.c` lines 648-813.

A `uint32_t*` is the function from indices to cells, and every function gets the window
`lo`, `hi` it may touch: an access to a cell outside it is a fault, even where the array
goes on.  Indices stay below `JSON_MAX_ARRAY_LEN`, so no index wraps, except that the
decrement of `0` would; it is written out in `scanDown`.
-/
import SJson.Json
import SJson.Lib.Window

namespace SJson

/-! ## Comparing keys -/

/-- `JSON_MEMCMP`: the difference of the first bytes that differ among the first `n`. -/
def memcmp : ℕ → List UInt8 → List UInt8 → ℤ
  | n + 1, x :: a, y :: b => if x = y then memcmp n a b else (x.toNat : ℤ) - y.toNat
  | _, _, _ => 0

/-- The comparison of `json__key_cmp` on the two keys. -/
def keyOrd (lexical : Bool) (ka kb : JsonStr) : ℤ :=
  if lexical = false ∧ ka.hash ≠ kb.hash then (if ka.hash < kb.hash then -1 else 1)
  else
    let cmp := memcmp (min ka.len kb.len) ka.data kb.data
    if cmp ≠ 0 then cmp
    else if ka.len < kb.len then -1
    else if ka.len > kb.len then 1
    else 0

/-- `JsonSortCtx`. -/
structure JsonSortCtx where
  pairs : List JsonPair
  lexical : Bool

/-- `pairs[i]`. -/
def pairAt (pairs : List JsonPair) (i : ℕ) : Scan JsonPair :=
  match pairs[i]? with
  | some pair => .ok pair
  | none => .error (.fault .oobRead)

/-- `json__key_cmp`. -/
def jsonKeyCmp (ctx : JsonSortCtx) (a b : ℕ) : Scan ℤ := do
  let pa ← pairAt ctx.pairs a
  let pb ← pairAt ctx.pairs b
  return keyOrd ctx.lexical pa.key pb.key

/-! ## Cells -/

/-- `arr[i]`, in sorting the cells from `lo` to `hi`. -/
def cell (lo hi : ℕ) (arr : ℕ → ℕ) (i : ℕ) : Scan ℕ :=
  if lo ≤ i ∧ i ≤ hi then .ok (arr i) else .error (.fault .oobRead)

/-- `arr[i] = x`. -/
def setCell (lo hi : ℕ) (arr : ℕ → ℕ) (i x : ℕ) : Scan (ℕ → ℕ) :=
  if lo ≤ i ∧ i ≤ hi then .ok (Function.update arr i x) else .error (.fault .oobWrite)

/-- `tmp = arr[i]; arr[i] = arr[j]; arr[j] = tmp`. -/
def swapCells (lo hi : ℕ) (arr : ℕ → ℕ) (i j : ℕ) : Scan (ℕ → ℕ) := do
  let tmp ← cell lo hi arr i
  let x ← cell lo hi arr j
  let arr ← setCell lo hi arr i x
  setCell lo hi arr j tmp

/-! ## Insertion sort -/

/-- The inner loop of `json__isort`, from the hole `j` down: the cells and the hole. -/
def isortShift (ctx : JsonSortCtx) (lo hi key : ℕ) : ℕ → (ℕ → ℕ) → Scan ((ℕ → ℕ) × ℕ)
  | 0, arr => .ok (arr, 0)
  | j + 1, arr =>
    if j + 1 > lo then do
      let x ← cell lo hi arr j
      let cmp ← jsonKeyCmp ctx x key
      if cmp > 0 then do
        let arr ← setCell lo hi arr (j + 1) x
        isortShift ctx lo hi key j arr
      else .ok (arr, j + 1)
    else .ok (arr, j + 1)

/-- The outer loop of `json__isort`, from `i` up. -/
def isortLoop (ctx : JsonSortCtx) (lo hi : ℕ) : ℕ → ℕ → (ℕ → ℕ) → Scan (ℕ → ℕ)
  | 0, i, arr => if i ≤ hi then .error (.fault .fuel) else .ok arr
  | fuel + 1, i, arr =>
    if i ≤ hi then do
      let key ← cell lo hi arr i
      let (arr, j) ← isortShift ctx lo hi key i arr
      let arr ← setCell lo hi arr j key
      isortLoop ctx lo hi fuel (i + 1) arr
    else .ok arr

/-- `json__isort`. -/
def jsonIsort (ctx : JsonSortCtx) (lo hi : ℕ) (arr : ℕ → ℕ) : Scan (ℕ → ℕ) :=
  isortLoop ctx lo hi (hi - lo) (lo + 1) arr

/-! ## Heapsort -/

/-- The greater child, where the first one is `child`. -/
def greaterChild (ctx : JsonSortCtx) (lo hi : ℕ) (arr : ℕ → ℕ) (last child : ℕ) : Scan ℕ :=
  if child + 1 ≤ last then do
    let x ← cell lo hi arr (lo + child)
    let y ← cell lo hi arr (lo + (child + 1))
    let cmp ← jsonKeyCmp ctx x y
    if cmp < 0 then return child + 1 else return child
  else .ok child

/-- The loop of `json__sift_down` on `arr + lo`. -/
def siftLoop (ctx : JsonSortCtx) (lo hi last : ℕ) : ℕ → ℕ → (ℕ → ℕ) → Scan (ℕ → ℕ)
  | 0, parent, arr => if 2 * parent + 1 > last then .ok arr else .error (.fault .fuel)
  | fuel + 1, parent, arr =>
    if 2 * parent + 1 > last then .ok arr
    else do
      let child ← greaterChild ctx lo hi arr last (2 * parent + 1)
      let x ← cell lo hi arr (lo + parent)
      let y ← cell lo hi arr (lo + child)
      let cmp ← jsonKeyCmp ctx x y
      if cmp ≥ 0 then .ok arr
      else do
        let arr ← swapCells lo hi arr (lo + parent) (lo + child)
        siftLoop ctx lo hi last fuel child arr

/-- `json__sift_down` on `arr + lo`. -/
def jsonSiftDown (ctx : JsonSortCtx) (lo hi : ℕ) (arr : ℕ → ℕ) (root last : ℕ) :
    Scan (ℕ → ℕ) := siftLoop ctx lo hi last (last + 1) root arr

/-- The loop of `json__heapsort` that builds the heap, with `i - lo` roots to go. -/
def heapBuild (ctx : JsonSortCtx) (lo hi n : ℕ) : ℕ → (ℕ → ℕ) → Scan (ℕ → ℕ)
  | 0, arr => .ok arr
  | i + 1, arr => do
    let arr ← jsonSiftDown ctx lo hi arr i (n - 1)
    heapBuild ctx lo hi n i arr

/-- The loop of `json__heapsort` that extracts the maxima, from `i` down. -/
def heapExtract (ctx : JsonSortCtx) (lo hi : ℕ) : ℕ → (ℕ → ℕ) → Scan (ℕ → ℕ)
  | 0, arr => .ok arr
  | i + 1, arr => do
    let arr ← swapCells lo hi arr lo (lo + (i + 1))
    let arr ← jsonSiftDown ctx lo hi arr 0 i
    heapExtract ctx lo hi i arr

/-- `json__heapsort`. -/
def jsonHeapsort (ctx : JsonSortCtx) (lo hi : ℕ) (arr : ℕ → ℕ) : Scan (ℕ → ℕ) :=
  let n := hi - lo + 1
  if n < 2 then .ok arr
  else do
    let arr ← heapBuild ctx lo hi n (n / 2) arr
    heapExtract ctx lo hi (n - 1) arr

/-! ## Introsort -/

/-- The loop of `json__ilog2`. -/
def ilog2Loop : ℕ → ℕ → ℕ → ℕ
  | 0, _, r => r
  | fuel + 1, n, r => if n > 1 then ilog2Loop fuel (n / 2) (r + 1) else r

/-- `json__ilog2`. -/
def jsonIlog2 (n : ℕ) : ℕ := ilog2Loop n n 0

/-- Exchange two cells that are out of order. -/
def orderCells (ctx : JsonSortCtx) (lo hi : ℕ) (arr : ℕ → ℕ) (i j : ℕ) : Scan (ℕ → ℕ) := do
  let x ← cell lo hi arr i
  let y ← cell lo hi arr j
  let cmp ← jsonKeyCmp ctx x y
  if cmp > 0 then swapCells lo hi arr i j else .ok arr

/-- `while (json__key_cmp(ctx, arr[++i], pivot) < 0 && i < hi) { }`. -/
def scanUp (ctx : JsonSortCtx) (lo hi pivot : ℕ) (arr : ℕ → ℕ) : ℕ → ℕ → Scan ℕ
  | 0, _ => .error (.fault .fuel)
  | fuel + 1, i => do
    let x ← cell lo hi arr (i + 1)
    let cmp ← jsonKeyCmp ctx x pivot
    if cmp < 0 ∧ i + 1 < hi then scanUp ctx lo hi pivot arr fuel (i + 1) else .ok (i + 1)

/-- `while (json__key_cmp(ctx, arr[--j], pivot) > 0 && j > lo) { }`. -/
def scanDown (ctx : JsonSortCtx) (lo hi pivot : ℕ) (arr : ℕ → ℕ) : ℕ → Scan ℕ
  -- `--j` wraps, and the cell is far outside
  | 0 => .error (.fault .oobRead)
  | j + 1 => do
    let x ← cell lo hi arr j
    let cmp ← jsonKeyCmp ctx x pivot
    if cmp > 0 ∧ j > lo then scanDown ctx lo hi pivot arr j else .ok j

/-- The loop of the partition: the cells, and where the indices meet. -/
def partitionLoop (ctx : JsonSortCtx) (lo hi pivot : ℕ) :
    ℕ → ℕ → ℕ → (ℕ → ℕ) → Scan ((ℕ → ℕ) × ℕ)
  | 0, _, _, _ => .error (.fault .fuel)
  | fuel + 1, i, j, arr => do
    let i ← scanUp ctx lo hi pivot arr (hi + 1) i
    let j ← scanDown ctx lo hi pivot arr j
    if i ≥ j then .ok (arr, i)
    else do
      let arr ← swapCells lo hi arr i j
      partitionLoop ctx lo hi pivot fuel i j arr

/-- The median of three as pivot, and the partition around it: the cells, and where
the pivot is. -/
def partitionCells (ctx : JsonSortCtx) (lo hi : ℕ) (arr : ℕ → ℕ) : Scan ((ℕ → ℕ) × ℕ) := do
  let mid := lo + (hi - lo + 1) / 2
  let arr ← orderCells ctx lo hi arr lo mid
  let arr ← orderCells ctx lo hi arr lo hi
  let arr ← orderCells ctx lo hi arr mid hi
  let pivot ← cell lo hi arr mid
  let arr ← swapCells lo hi arr mid (hi - 1)
  let (arr, i) ← partitionLoop ctx lo hi pivot (hi + 1) lo (hi - 1) arr
  let arr ← swapCells lo hi arr i (hi - 1)
  return (arr, i)

/-- `json__introsort`.  The source goes on with the larger part in the same call. -/
def jsonIntrosort (ctx : JsonSortCtx) : ℕ → ℕ → ℕ → (ℕ → ℕ) → Scan (ℕ → ℕ)
  | depth, lo, hi, arr =>
    if lo < hi then
      if hi - lo + 1 ≤ jsonIntrosortThresh then jsonIsort ctx lo hi arr
      else
        match depth with
        | 0 => jsonHeapsort ctx lo hi arr
        | depth + 1 => do
          let (arr, i) ← partitionCells ctx lo hi arr
          if i - lo < hi - i then do
            let arr ← jsonIntrosort ctx depth lo (i - 1) arr
            jsonIntrosort ctx depth (i + 1) hi arr
          else do
            let arr ← jsonIntrosort ctx depth (i + 1) hi arr
            if i = 0 then .ok arr else jsonIntrosort ctx depth lo (i - 1) arr
    else .ok arr

end SJson
