/-
# The arena allocator

`src/sJson.c`, lines 449-630.  Blocks live in a pointer-addressed memory, so that
dangling pointers, orphaned blocks and cycles can be expressed; the operations
run in `Option`, where `none` stands for undefined behaviour (a `NULL` or
dangling dereference, an invalid `free`) or for a loop that does not end.

The backing allocator is an oracle: it grants or refuses each call, by the number
of the call and its size, and names a granted block by the number of the call.
-/
import SJson.Basic
import SJson.Lib.LinkedChain

namespace SJson

/-! ## The backing allocator -/

/-- A pointer obtained from the backing allocator. -/
abbrev BlockPtr := ℕ

/-- `JsonArenaBlock`, the header in front of a block's data. -/
structure JsonArenaBlock where
  next : Option BlockPtr
  cap : ℕ
  used : ℕ
  deriving DecidableEq, Repr

/-- The backing allocator and the block headers stored in its memory. -/
structure BlockMem where
  /-- Whether the `n`-th call, for this many bytes, succeeds. -/
  grants : ℕ → ℕ → Bool
  /-- Calls of `alloc` so far. -/
  calls : ℕ
  /-- The allocations not yet freed. -/
  live : List BlockPtr
  /-- The headers of the blocks. -/
  block : BlockPtr → Option JsonArenaBlock

namespace BlockMem

/-- Nothing allocated yet. -/
def init (grants : ℕ → ℕ → Bool) : BlockMem := ⟨grants, 0, [], fun _ => none⟩

/-- `backing.alloc(ctx, size)`. -/
def alloc (m : BlockMem) (size : ℕ) : Option BlockPtr × BlockMem :=
  if m.grants m.calls size then
    (some m.calls, { m with calls := m.calls + 1, live := m.calls :: m.live })
  else
    (none, { m with calls := m.calls + 1 })

/-- `backing.free(ctx, p)`; freeing what is not allocated is undefined. -/
def free (m : BlockMem) (p : BlockPtr) : Option BlockMem :=
  if p ∈ m.live then
    some { m with live := m.live.erase p, block := Function.update m.block p none }
  else none

/-- `*p = b` for a block header. -/
def store (m : BlockMem) (p : BlockPtr) (b : JsonArenaBlock) : BlockMem :=
  { m with block := Function.update m.block p (some b) }

end BlockMem

/-! ## Blocks -/

/-- `sizeof(JsonArenaBlock)`. -/
def sizeofJsonArenaBlock : ℕ := 24

/-- `sizeof(JsonArena)`. -/
def sizeofJsonArena : ℕ := 72

/-- `json__align_up`; masking with `~(JSON_ARENA_ALIGN - 1)` rounds down to a
multiple, since the alignment is a power of two. -/
def jsonAlignUp (sz : ℕ) : ℕ :=
  szAdd sz (jsonArenaAlign - 1) / jsonArenaAlign * jsonArenaAlign

/-- The size of a block's header, rounded up. -/
def headerSz : ℕ := jsonAlignUp sizeofJsonArenaBlock

/-- The local `block_sz` of `json__block_new`. -/
def blockSz (blockSize minSize : ℕ) : ℕ :=
  if szAdd minSize headerSz > blockSize then jsonAlignUp (szAdd minSize headerSz) else blockSize

/-- `json__block_new`. -/
def jsonBlockNew (blockSize : ℕ) (m : BlockMem) (minSize : ℕ) : Option BlockPtr × BlockMem :=
  if minSize > szSub sizeMax headerSz
      ∨ szAdd minSize headerSz > sizeMax - (jsonArenaAlign - 1) then
    (none, m)
  else
    match m.alloc (blockSz blockSize minSize) with
    | (none, m) => (none, m)
    | (some p, m) => (some p, m.store p ⟨none, szSub (blockSz blockSize minSize) headerSz, 0⟩)

/-! ## The arena -/

/-- `JsonArena`, with the address of the header itself and the memory of its
blocks. -/
structure JsonArena where
  self : BlockPtr
  current : BlockPtr
  first : BlockPtr
  blockSize : ℕ
  totalBytes : ℕ
  nodeCount : ℕ
  mem : BlockMem

/-- The bytes an allocation returns: `size` bytes at `off` in the data of
`block`. -/
structure Region where
  block : BlockPtr
  off : ℕ
  size : ℕ
  deriving DecidableEq, Repr

/-- `json_arena_create`. -/
def jsonArenaCreate (m : BlockMem) (blockSize : ℕ) : Option (Option JsonArena × BlockMem) :=
  let blockSize := if blockSize = 0 then 64 * 1024 else blockSize
  let blockSize := if blockSize < jsonArenaMinBlock then jsonArenaMinBlock else blockSize
  match m.alloc sizeofJsonArena with
  | (none, m) => some (none, m)
  | (some self, m) =>
    match jsonBlockNew blockSize m 0 with
    | (none, m) => (m.free self).map fun m => (none, m)
    | (some first, m) => some (some ⟨self, first, first, blockSize, 0, 0, m⟩, m)

/-- The loop of `json_arena_reset` over the chain from `blk`. -/
def resetLoop (m : BlockMem) : ℕ → Option BlockPtr → Option BlockMem
  | _, none => some m
  | 0, some _ => none
  | fuel + 1, some p => do
    let b ← m.block p
    resetLoop (m.store p { b with used := 0 }) fuel b.next

/-- `json_arena_reset`. -/
def jsonArenaReset (a : JsonArena) : Option JsonArena := do
  let m ← resetLoop a.mem (a.mem.calls + 1) (some a.first)
  return { a with mem := m, current := a.first, totalBytes := 0, nodeCount := 0 }

/-- The loop that frees the chain from `blk`, of `json_arena_trim` and
`json_arena_destroy`. -/
def freeLoop (m : BlockMem) : ℕ → Option BlockPtr → Option BlockMem
  | _, none => some m
  | 0, some _ => none
  | fuel + 1, some p => do
    let b ← m.block p
    let m ← m.free p
    freeLoop m fuel b.next

/-- `json_arena_trim`. -/
def jsonArenaTrim (a : JsonArena) : Option JsonArena := do
  let b ← a.mem.block a.first
  let m ← freeLoop a.mem (a.mem.calls + 1) b.next
  let b ← m.block a.first
  jsonArenaReset { a with mem := m.store a.first { b with next := none } }

/-- `json_arena_destroy`. -/
def jsonArenaDestroy (a : JsonArena) : Option BlockMem := do
  let m ← freeLoop a.mem (a.mem.calls + 1) (some a.first)
  m.free a.self

/-- The walk of `json__arena_alloc_raw` along the retained chain: the first later
block with room, or the last block. -/
def retainedLoop (m : BlockMem) (alignedSize : ℕ) : ℕ → BlockPtr → Option BlockPtr
  | 0, _ => none
  | fuel + 1, p => do
    let b ← m.block p
    match b.next with
    | none => some p
    | some q =>
      let c ← m.block q
      if alignedSize ≤ szSub c.cap c.used then some q else retainedLoop m alignedSize fuel q

/-- The end of `json__arena_alloc_raw`: take the bytes from `blk`. -/
def takeFrom (a : JsonArena) (blk : BlockPtr) (alignedSize : ℕ) : Option (Region × JsonArena) := do
  let b ← a.mem.block blk
  return (⟨blk, b.used, alignedSize⟩,
    { a with
      mem := a.mem.store blk { b with used := szAdd b.used alignedSize }
      current := blk
      totalBytes := szAdd a.totalBytes alignedSize })

/-- `json__arena_alloc_raw`, `json_arena_alloc` and `json__arena_alloc_uninit`:
whether the bytes are zeroed does not matter here. -/
def jsonArenaAllocRaw (a : JsonArena) (size : ℕ) : Option (Option Region × JsonArena) :=
  if size = 0 then some (none, a)
  else
    let alignedSize := jsonAlignUp size
    if alignedSize < size then some (none, a)
    else if alignedSize > sizeMax - a.totalBytes then some (none, a)
    else do
      let cur ← a.mem.block a.current
      if alignedSize ≤ szSub cur.cap cur.used then
        let (r, a) ← takeFrom a a.current alignedSize
        return (some r, a)
      else
        let blk ← retainedLoop a.mem alignedSize (a.mem.calls + 1) a.current
        let b ← a.mem.block blk
        if alignedSize > szSub b.cap b.used then
          match jsonBlockNew a.blockSize a.mem alignedSize with
          | (none, m) => return (none, { a with mem := m })
          | (some added, m) =>
            -- `new_blk->next = added`
            let b ← m.block blk
            let (r, a) ← takeFrom { a with mem := m.store blk { b with next := some added } }
              added alignedSize
            return (some r, a)
        else
          let (r, a) ← takeFrom a blk alignedSize
          return (some r, a)

end SJson
