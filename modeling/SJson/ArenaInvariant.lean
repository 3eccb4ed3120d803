/-
# The arena invariant

Every arena that `json_arena_create` returns and the arena operations then reach
satisfies `ArenaOk`: the blocks form one chain from `first`, `current` lies on it,
no block is over-full, the blocks behind `current` are empty, `total_bytes` is
what is used in the whole chain, and the outstanding allocations are the header
and the chain.  `ArenaRun` adds the regions handed out since the last reset.

The three places where `json__arena_alloc_raw` takes bytes from are brought to one
case: moving `current` along the chain (`ArenaOk.advance`) and linking a new block
behind it (`ArenaOk.append`) keep the invariant, and the bytes are then taken from
the current block (`ArenaOk.take`).
-/
import SJson.Arena

namespace SJson

open LinkedChain

/-! ## Sizes -/

theorem jsonAlignUp_dvd (n : ℕ) : jsonArenaAlign ∣ jsonAlignUp n := Nat.dvd_mul_left _ _

theorem jsonAlignUp_of_le {n : ℕ} (h : n ≤ sizeMax - 7) :
    n ≤ jsonAlignUp n ∧ jsonAlignUp n ≤ n + 7 := by
  unfold jsonAlignUp szAdd jsonArenaAlign
  unfold sizeMax at h
  omega

theorem headerSz_eq : headerSz = 24 := rfl

/-! ## The invariant -/

namespace BlockMem

/-- The pointer stored in a block. -/
def nextOf (m : BlockMem) (p : BlockPtr) : Option BlockPtr := (m.block p).bind (·.next)

/-- The bytes used in a block; nothing is used in what is not a block. -/
def usedOf (m : BlockMem) (p : BlockPtr) : ℕ := ((m.block p).map (·.used)).getD 0

/-- The size of a block's data; zero where there is no block. -/
def capOf (m : BlockMem) (p : BlockPtr) : ℕ := ((m.block p).map (·.cap)).getD 0

/-- The block has `sz` bytes left. -/
def HasRoom (m : BlockMem) (sz : ℕ) (p : BlockPtr) : Prop := m.usedOf p + sz ≤ m.capOf p

theorem nextOf_eq {m : BlockMem} {p : BlockPtr} {b : JsonArenaBlock}
    (h : m.block p = some b) : m.nextOf p = b.next := by simp [nextOf, h]

theorem usedOf_eq {m : BlockMem} {p : BlockPtr} {b : JsonArenaBlock}
    (h : m.block p = some b) : m.usedOf p = b.used := by simp [usedOf, h]

theorem capOf_eq {m : BlockMem} {p : BlockPtr} {b : JsonArenaBlock}
    (h : m.block p = some b) : m.capOf p = b.cap := by simp [capOf, h]

theorem hasRoom_iff {m : BlockMem} {p : BlockPtr} {b : JsonArenaBlock} {sz : ℕ}
    (h : m.block p = some b) : m.HasRoom sz p ↔ b.used + sz ≤ b.cap := by
  rw [HasRoom, usedOf_eq h, capOf_eq h]

theorem usedOf_of_none {m : BlockMem} {p : BlockPtr} (h : m.block p = none) :
    m.usedOf p = 0 := by simp [usedOf, h]

@[simp] theorem store_block_self (m : BlockMem) (p : BlockPtr) (b : JsonArenaBlock) :
    (m.store p b).block p = some b := Function.update_self ..

theorem store_block_ne (m : BlockMem) {p q : BlockPtr} (b : JsonArenaBlock) (h : q ≠ p) :
    (m.store p b).block q = m.block q := Function.update_of_ne h ..

@[simp] theorem store_calls (m : BlockMem) (p : BlockPtr) (b : JsonArenaBlock) :
    (m.store p b).calls = m.calls := rfl

@[simp] theorem store_live (m : BlockMem) (p : BlockPtr) (b : JsonArenaBlock) :
    (m.store p b).live = m.live := rfl

theorem store_nextOf (m : BlockMem) (p : BlockPtr) (b : JsonArenaBlock) :
    (m.store p b).nextOf = Function.update m.nextOf p b.next := by
  funext q
  by_cases h : q = p
  · subst h; simp [nextOf]
  · rw [Function.update_of_ne h, nextOf, store_block_ne m b h, nextOf]

theorem store_usedOf (m : BlockMem) (p : BlockPtr) (b : JsonArenaBlock) :
    (m.store p b).usedOf = Function.update m.usedOf p b.used := by
  funext q
  by_cases h : q = p
  · subst h; simp [usedOf]
  · rw [Function.update_of_ne h, usedOf, store_block_ne m b h, usedOf]

theorem store_capOf (m : BlockMem) (p : BlockPtr) (b : JsonArenaBlock) :
    (m.store p b).capOf = Function.update m.capOf p b.cap := by
  funext q
  by_cases h : q = p
  · subst h; simp [capOf]
  · rw [Function.update_of_ne h, capOf, store_block_ne m b h, capOf]

/-- Storing a header of the same size. -/
theorem store_capOf_of_eq {m : BlockMem} {p : BlockPtr} {b b' : JsonArenaBlock}
    (h : m.block p = some b) (hcap : b'.cap = b.cap) : (m.store p b').capOf = m.capOf := by
  rw [store_capOf, hcap, ← capOf_eq h, Function.update_eq_self]

/-- Storing a header with as much used. -/
theorem store_usedOf_of_eq {m : BlockMem} {p : BlockPtr} {b b' : JsonArenaBlock}
    (h : m.block p = some b) (hused : b'.used = b.used) : (m.store p b').usedOf = m.usedOf := by
  rw [store_usedOf, hused, ← usedOf_eq h, Function.update_eq_self]

/-- A well-formed block header is stored at `p`. -/
def BlockOk (m : BlockMem) (p : BlockPtr) : Prop :=
  ∃ b, m.block p = some b ∧ b.used ≤ b.cap ∧ b.cap + headerSz ≤ sizeMax ∧ jsonArenaAlign ∣ b.used

theorem BlockOk.store {m : BlockMem} {p q : BlockPtr} {b : JsonArenaBlock}
    (hq : m.BlockOk q)
    (hb : b.used ≤ b.cap ∧ b.cap + headerSz ≤ sizeMax ∧ jsonArenaAlign ∣ b.used) :
    (m.store p b).BlockOk q := by
  by_cases h : q = p
  · subst h
    exact ⟨b, store_block_self m q b, hb⟩
  · obtain ⟨c, hc, hok⟩ := hq
    exact ⟨c, by rw [store_block_ne m b h, hc], hok⟩

end BlockMem

/-- The blocks reachable from `first`: those before `current`, `current` itself and
those behind it. -/
abbrev JsonArena.chain (a : JsonArena) (pre post : List BlockPtr) : List BlockPtr :=
  pre ++ a.current :: post

theorem JsonArena.chain_concat (a : JsonArena) (pre post : List BlockPtr) (p : BlockPtr) :
    a.chain pre (post ++ [p]) = a.chain pre post ++ [p] := by
  simp [JsonArena.chain]

/-- The blocks of the arena are the chain `chain`, wherever `current` is. -/
structure ChainOk (a : JsonArena) (chain : List BlockPtr) : Prop where
  /-- The chain is complete: its last block points to `NULL`. -/
  linked : Linked a.mem.nextOf chain
  /-- The chain starts at `first`. -/
  first : chain.head? = some a.first
  /-- Every block has `used <= cap`. -/
  blocks : ∀ p ∈ chain, a.mem.BlockOk p
  /-- The outstanding allocations are the header and the chain, each once. -/
  live : a.mem.live.Perm (a.self :: chain)
  nodup : a.mem.live.Nodup
  /-- Names of allocations are not used before they are handed out. -/
  fresh : ∀ p, a.mem.calls ≤ p → a.mem.block p = none ∧ p ∉ a.mem.live
  blockSize : headerSz ≤ a.blockSize ∧ a.blockSize ≤ sizeMax

/-- **The arena invariant**, for an arena whose chain is `pre`, `current`, `post`. -/
structure ArenaOk (a : JsonArena) (pre post : List BlockPtr) : Prop
    extends ChainOk a (a.chain pre post) where
  /-- Every block after `current` has `used = 0`. -/
  empty : ∀ p ∈ post, a.mem.usedOf p = 0
  /-- `total_bytes` is the sum of `used`. -/
  total : a.totalBytes = ((a.chain pre post).map a.mem.usedOf).sum
  totalLe : a.totalBytes ≤ sizeMax

namespace ChainOk

variable {a : JsonArena} {chain : List BlockPtr}

theorem mem_live (h : ChainOk a chain) {p : BlockPtr} (hp : p ∈ chain) :
    p ∈ a.mem.live := h.live.mem_iff.mpr (List.mem_cons_of_mem _ hp)

theorem lt_calls (h : ChainOk a chain) {p : BlockPtr} (hp : p ∈ chain) :
    p < a.mem.calls := by
  by_contra hc
  exact (h.fresh p (not_lt.mp hc)).2 (h.mem_live hp)

/-- The chain is no longer than the number of allocations. -/
theorem length_chain_le (h : ChainOk a chain) : chain.length ≤ a.mem.calls := by
  have hsub : chain ⊆ List.range a.mem.calls := fun p hp => List.mem_range.mpr (h.lt_calls hp)
  have hle := (h.linked.nodup.subperm hsub).length_le
  rwa [List.length_range] at hle

theorem eq_cons (h : ChainOk a chain) : ∃ tail, chain = a.first :: tail := by
  cases chain with
  | nil => simpa using h.first
  | cons p tail => exact ⟨tail, by rw [Option.some.inj h.first]⟩

end ChainOk

/-- `a'` is `a` after the bytes of `r` have been taken from the free end of the
block of `r`, which is on the chain of `a'`. -/
structure Takes (a : JsonArena) (r : Region) (a' : JsonArena) (chain' : List BlockPtr) : Prop where
  mem : r.block ∈ chain'
  off : r.off = a.mem.usedOf r.block
  align : jsonArenaAlign ∣ r.off
  used : a'.mem.usedOf = Function.update a.mem.usedOf r.block (r.off + r.size)
  total : a'.totalBytes = a.totalBytes + r.size
  nodeCount : a'.nodeCount = a.nodeCount
  grants : a'.mem.grants = a.mem.grants
  cap : ∀ p b, a.mem.block p = some b → a'.mem.capOf p = b.cap

namespace ArenaOk

variable {a : JsonArena} {pre post : List BlockPtr}

theorem used_le_total (h : ArenaOk a pre post) {p : BlockPtr} (hp : p ∈ a.chain pre post) :
    a.mem.usedOf p ≤ a.totalBytes := by
  rw [h.total]
  exact List.single_le_sum (by simp) _ (List.mem_map_of_mem hp)

/-- `current` may move to any later block of the chain. -/
theorem advance {mid rest : List BlockPtr} {blk : BlockPtr}
    (h : ArenaOk a pre (mid ++ blk :: rest)) :
    ArenaOk { a with current := blk } (pre ++ a.current :: mid) rest := by
  have hchain : ({ a with current := blk } : JsonArena).chain (pre ++ a.current :: mid) rest
      = a.chain pre (mid ++ blk :: rest) := by simp [JsonArena.chain]
  exact {
    linked := hchain ▸ h.linked
    first := hchain ▸ h.first
    blocks := hchain ▸ h.blocks
    empty := fun p hp => h.empty p (by simp [hp])
    total := hchain ▸ h.total
    totalLe := h.totalLe
    live := hchain ▸ h.live
    nodup := h.nodup
    fresh := h.fresh
    blockSize := h.blockSize }

/-- Taking bytes from the current block. -/
theorem take (h : ArenaOk a pre post) {sz : ℕ} (hdvd : jsonArenaAlign ∣ sz)
    {b : JsonArenaBlock} (hb : a.mem.block a.current = some b) (hroom : b.used + sz ≤ b.cap)
    (htotal : a.totalBytes + sz ≤ sizeMax) :
    ∃ a', takeFrom a a.current sz = some (⟨a.current, b.used, sz⟩, a') ∧
      ArenaOk a' pre post ∧ a'.current = a.current ∧ a'.mem.calls = a.mem.calls ∧
      Takes a ⟨a.current, b.used, sz⟩ a' (a'.chain pre post) := by
  have hcur : a.current ∈ a.chain pre post := by simp [JsonArena.chain]
  obtain ⟨b', hb', hle, hcap, hmul⟩ := h.blocks _ hcur
  obtain rfl : b = b' := Option.some.inj (hb.symm.trans hb')
  have hused : szAdd b.used sz = b.used + sz := szAdd_of_le (by omega)
  refine ⟨{ a with
      mem := a.mem.store a.current { b with used := b.used + sz }
      totalBytes := a.totalBytes + sz }, ?_, ?_, rfl, rfl, ?_⟩
  · simp [takeFrom, hb, hused, szAdd_of_le htotal]
  · have hnd := h.linked.nodup
    exact {
      linked := by
        refine h.linked.congr fun p _ => ?_
        rw [BlockMem.store_nextOf, Function.update_eq_self_iff.mpr]
        exact (BlockMem.nextOf_eq hb).symm
      first := h.first
      blocks := fun p hp =>
        (h.blocks p hp).store ⟨hroom, hcap, (Nat.dvd_add_right hmul).mpr hdvd⟩
      empty := fun p hp => by
        -- the blocks behind `current` are not the one that is taken from
        have hne : p ≠ a.current := by
          rintro rfl
          simp [JsonArena.chain, List.nodup_append, hp] at hnd
        rw [BlockMem.store_usedOf, Function.update_of_ne hne]
        exact h.empty p hp
      total := by
        have hsum := sum_map_update a.mem.usedOf hnd hcur (b.used + sz)
        rw [BlockMem.usedOf_eq hb, ← h.total] at hsum
        show a.totalBytes + sz = ((a.chain pre post).map _).sum
        rw [BlockMem.store_usedOf]
        show _ = ((a.chain pre post).map (Function.update a.mem.usedOf a.current (b.used + sz))).sum
        omega
      totalLe := htotal
      live := h.live
      nodup := h.nodup
      fresh := fun p hp => by
        have hne : p ≠ a.current := fun he => absurd (h.lt_calls hcur) (not_lt.mpr (he ▸ hp))
        refine ⟨?_, (h.fresh p hp).2⟩
        rw [BlockMem.store_block_ne _ _ hne]
        exact (h.fresh p hp).1
      blockSize := h.blockSize }
  · refine ⟨hcur, (BlockMem.usedOf_eq hb).symm, hmul, BlockMem.store_usedOf .., rfl, rfl, rfl, ?_⟩
    intro p c hc
    have hcaps : (a.mem.store a.current { b with used := b.used + sz }).capOf = a.mem.capOf :=
      BlockMem.store_capOf_of_eq hb rfl
    exact (congrFun hcaps p).trans (BlockMem.capOf_eq hc)

end ArenaOk

/-! ## New blocks -/

/-- A block that could not be had leaves everything but the call count alone. -/
def BlockMem.Unchanged (m m' : BlockMem) : Prop :=
  m'.block = m.block ∧ m'.live = m.live ∧ m.calls ≤ m'.calls ∧ m'.grants = m.grants

theorem BlockMem.Unchanged.usedOf {m m' : BlockMem} (h : m.Unchanged m') :
    m'.usedOf = m.usedOf := by
  funext p
  simp [BlockMem.usedOf, h.1]

/-- `m'` is `m` after the backing allocator has handed out an empty block. -/
structure BlockMem.Adds (m m' : BlockMem) (cap : ℕ) : Prop where
  block : m'.block = Function.update m.block m.calls (some ⟨none, cap, 0⟩)
  live : m'.live = m.calls :: m.live
  calls : m'.calls = m.calls + 1
  grants : m'.grants = m.grants

namespace BlockMem.Adds

variable {m m' : BlockMem} {cap : ℕ}

theorem block_self (h : m.Adds m' cap) : m'.block m.calls = some ⟨none, cap, 0⟩ := by
  rw [h.block, Function.update_self]

theorem block_ne (h : m.Adds m' cap) {p : BlockPtr} (hp : p ≠ m.calls) :
    m'.block p = m.block p := by
  rw [h.block, Function.update_of_ne hp]

theorem nextOf (h : m.Adds m' cap) : m'.nextOf = Function.update m.nextOf m.calls none := by
  funext p
  by_cases hp : p = m.calls
  · subst hp
    rw [Function.update_self, nextOf_eq h.block_self]
  · rw [Function.update_of_ne hp, BlockMem.nextOf, h.block_ne hp, BlockMem.nextOf]

/-- Nothing is used in the new block. -/
theorem usedOf (h : m.Adds m' cap) (hfree : m.block m.calls = none) : m'.usedOf = m.usedOf := by
  funext p
  by_cases hp : p = m.calls
  · subst hp
    rw [usedOf_eq h.block_self, usedOf_of_none hfree]
  · rw [BlockMem.usedOf, h.block_ne hp, BlockMem.usedOf]

/-- The blocks that were there keep their size when the new one is linked behind one of them. -/
theorem link_cap (h : m.Adds m' cap) (hfree : m.block m.calls = none) {last p : BlockPtr}
    {b c : JsonArenaBlock} (hlast : m'.block last = some b) (next : Option BlockPtr)
    (hc : m.block p = some c) :
    ∃ c', (m'.store last { b with next := next }).block p = some c' ∧ c'.cap = c.cap := by
  have hold : m'.block p = some c := by
    rw [h.block_ne, hc]
    rintro rfl
    rw [hfree] at hc
    cases hc
  by_cases hp : p = last
  · subst hp
    obtain rfl : b = c := Option.some.inj (hlast.symm.trans hold)
    exact ⟨_, store_block_self .., rfl⟩
  · exact ⟨c, (store_block_ne _ _ hp).trans hold, rfl⟩

end BlockMem.Adds

/-- The size of a new block fits the header and the request. -/
theorem blockSz_spec {blockSize minSize : ℕ} (hbs : blockSize ≤ sizeMax)
    (hmin : minSize ≤ sizeMax - 31) :
    minSize + 24 ≤ blockSz blockSize minSize ∧ blockSz blockSize minSize ≤ sizeMax := by
  have hsum : szAdd minSize headerSz = minSize + 24 := by
    rw [headerSz_eq]
    exact szAdd_of_le (by unfold sizeMax at *; omega)
  have hup := jsonAlignUp_of_le (n := minSize + 24) (by unfold sizeMax at *; omega)
  unfold blockSz
  rw [hsum]
  unfold sizeMax at *
  split_ifs <;> omega

/-- `json__block_new` fails without effect, or yields an empty block with room for
`minSize` bytes. -/
theorem jsonBlockNew_spec {blockSize : ℕ} (minSize : ℕ) (m : BlockMem)
    (hbs : headerSz ≤ blockSize ∧ blockSize ≤ sizeMax) :
    (∃ m', jsonBlockNew blockSize m minSize = (none, m') ∧ m.Unchanged m' ∧
      ((∀ k sz, m.grants k sz = true) → sizeMax < minSize + 31)) ∨
    (∃ m' cap, jsonBlockNew blockSize m minSize = (some m.calls, m') ∧ m.Adds m' cap ∧
      minSize ≤ cap ∧ cap + headerSz ≤ sizeMax) := by
  have hsub : szSub sizeMax headerSz = sizeMax - 24 :=
    szSub_of_le (by rw [headerSz_eq]; unfold sizeMax; omega)
  unfold jsonBlockNew
  by_cases hbig : minSize > szSub sizeMax headerSz
      ∨ szAdd minSize headerSz > sizeMax - (jsonArenaAlign - 1)
  · rw [if_pos hbig]
    refine .inl ⟨m, rfl, ⟨rfl, rfl, le_rfl, rfl⟩, fun _ => ?_⟩
    by_contra hc
    have hsum : szAdd minSize headerSz = minSize + 24 := by
      rw [headerSz_eq]
      exact szAdd_of_le (by omega)
    rw [hsub, hsum] at hbig
    simp only [sizeMax, jsonArenaAlign] at hbig hc
    omega
  · rw [if_neg hbig]
    have hmin' : minSize ≤ sizeMax - 31 := by
      rw [hsub, headerSz_eq] at hbig
      simp only [szAdd, sizeMax, jsonArenaAlign, not_or] at hbig ⊢
      omega
    -- neither the header nor the rounding wraps
    have hfit := blockSz_spec hbs.2 hmin'
    have hcap : szSub (blockSz blockSize minSize) headerSz = blockSz blockSize minSize - 24 := by
      rw [headerSz_eq]
      exact szSub_of_le (by omega)
    unfold BlockMem.alloc
    by_cases hg : m.grants m.calls (blockSz blockSize minSize) = true
    · refine .inr ⟨BlockMem.store { m with calls := m.calls + 1, live := m.calls :: m.live }
        m.calls ⟨none, blockSz blockSize minSize - 24, 0⟩, _, ?_, ⟨rfl, rfl, rfl, rfl⟩, ?_, ?_⟩
      · rw [if_pos hg, hcap]
      · omega
      · rw [headerSz_eq]
        omega
    · rw [if_neg hg]
      exact .inl ⟨_, rfl, ⟨rfl, rfl, Nat.le_succ _, rfl⟩, fun hall => absurd (hall _ _) hg⟩

namespace ArenaOk

variable {a : JsonArena} {pre post : List BlockPtr}

/-- An arena whose memory only saw a refused call. -/
theorem unchanged (h : ArenaOk a pre post) {m : BlockMem} (hm : a.mem.Unchanged m) :
    ArenaOk { a with mem := m } pre post := by
  obtain ⟨hblock, hlive, hcalls, -⟩ := id hm
  have hnext : m.nextOf = a.mem.nextOf := by funext p; simp [BlockMem.nextOf, hblock]
  have hused : m.usedOf = a.mem.usedOf := hm.usedOf
  exact {
    linked := by
      show Linked m.nextOf _
      rw [hnext]
      exact h.linked
    first := h.first
    blocks := fun p hp => by
      obtain ⟨b, hb, hok⟩ := h.blocks p hp
      exact ⟨b, by rw [hblock, hb], hok⟩
    empty := fun p hp => by
      show m.usedOf p = 0
      rw [hused]
      exact h.empty p hp
    total := by
      show a.totalBytes = ((a.chain pre post).map m.usedOf).sum
      rw [hused]
      exact h.total
    totalLe := h.totalLe
    live := by
      show m.live.Perm _
      rw [hlive]
      exact h.live
    nodup := by
      show m.live.Nodup
      rw [hlive]
      exact h.nodup
    fresh := fun p hp => by
      show m.block p = none ∧ p ∉ m.live
      rw [hblock, hlive]
      exact h.fresh p (hcalls.trans hp)
    blockSize := h.blockSize }

/-- Linking a new block behind the last one. -/
theorem append (h : ArenaOk a pre post) {l : List BlockPtr} {last : BlockPtr}
    (hlast : a.chain pre post = l ++ [last]) {m : BlockMem} {cap : ℕ}
    (hm : a.mem.Adds m cap) (hcap : cap + headerSz ≤ sizeMax) :
    ∃ b, m.block last = some b ∧
      ArenaOk { a with mem := m.store last { b with next := some a.mem.calls } } pre
        (post ++ [a.mem.calls]) := by
  have hmem : last ∈ a.chain pre post := by simp [hlast]
  have hnew : a.mem.calls ∉ a.chain pre post := fun hin => lt_irrefl _ (h.lt_calls hin)
  have hne : last ≠ a.mem.calls := fun he => hnew (he ▸ hmem)
  have hfree : a.mem.block a.mem.calls = none := (h.fresh _ le_rfl).1
  -- only the pointer of `last` changes
  obtain ⟨b, hb, hok⟩ := h.blocks last hmem
  have hb' : m.block last = some b := (hm.block_ne hne).trans hb
  have hused : (m.store last { b with next := some a.mem.calls }).usedOf = a.mem.usedOf := by
    rw [← hm.usedOf hfree]
    exact BlockMem.store_usedOf_of_eq hb' rfl
  have hchain := a.chain_concat pre post a.mem.calls
  refine ⟨b, hb', ?_⟩
  exact {
    linked := by
      show Linked _ (a.chain pre (post ++ [a.mem.calls]))
      rw [hchain, hlast, List.append_assoc, BlockMem.store_nextOf, hm.nextOf]
      exact (hlast ▸ h.linked).append_fresh (hlast ▸ hnew)
    first := by
      show (a.chain pre (post ++ [a.mem.calls])).head? = _
      rw [← h.first]
      cases pre <;> simp [JsonArena.chain]
    blocks := fun p hp => by
      replace hp : p ∈ a.chain pre (post ++ [a.mem.calls]) := hp
      rw [hchain, List.mem_append, List.mem_singleton] at hp
      rcases hp with hp | rfl
      · obtain ⟨c, hc, hcok⟩ := h.blocks p hp
        have hpne : p ≠ a.mem.calls := fun he => hnew (he ▸ hp)
        have hpm : m.BlockOk p := ⟨c, (hm.block_ne hpne).trans hc, hcok⟩
        exact hpm.store hok
      · exact ⟨_, (BlockMem.store_block_ne _ _ hne.symm).trans hm.block_self, Nat.zero_le _, hcap,
          Nat.dvd_zero _⟩
    empty := fun p hp => by
      show (m.store last _).usedOf p = 0
      rw [hused]
      rcases List.mem_append.mp hp with hp' | hp'
      · exact h.empty p hp'
      · rw [List.mem_singleton.mp hp', BlockMem.usedOf_of_none hfree]
    total := by
      show a.totalBytes = ((a.chain pre (post ++ [a.mem.calls])).map _).sum
      rw [hused, h.total, hchain, List.map_append, List.sum_append]
      simp [BlockMem.usedOf_of_none hfree]
    totalLe := h.totalLe
    live := by
      show m.live.Perm (a.self :: a.chain pre (post ++ [a.mem.calls]))
      rw [hm.live, hchain, ← List.cons_append]
      exact (List.Perm.cons _ h.live).trans (List.perm_append_singleton _ _).symm
    nodup := by
      show m.live.Nodup
      rw [hm.live]
      exact List.nodup_cons.mpr ⟨(h.fresh _ le_rfl).2, h.nodup⟩
    fresh := fun p hp => by
      have hp' : a.mem.calls + 1 ≤ p := hm.calls ▸ hp
      have hpl : p ≠ last := ne_of_gt ((h.lt_calls hmem).trans hp')
      obtain ⟨hnone, hdead⟩ := h.fresh p (by omega)
      refine ⟨?_, ?_⟩
      · show (m.store last _).block p = none
        rw [BlockMem.store_block_ne _ _ hpl, hm.block_ne (by omega : p ≠ a.mem.calls), hnone]
      · show p ∉ m.live
        rw [hm.live, List.mem_cons, not_or]
        exact ⟨by omega, hdead⟩
    blockSize := h.blockSize }

end ArenaOk

/-! ## Allocation -/

/-- The walk over the retained blocks stops at the first later block with room, or at the
last block of the chain. -/
theorem retainedLoop_spec {m : BlockMem} (sz : ℕ) :
    ∀ (fuel : ℕ) {cur : BlockPtr} {post : List BlockPtr}, Linked m.nextOf (cur :: post) →
      (∀ p ∈ cur :: post, m.BlockOk p) → post.length < fuel →
      ∃ mid blk rest, retainedLoop m sz fuel cur = some blk ∧ cur :: post = mid ++ blk :: rest ∧
        (∀ p ∈ mid.tail, ¬ m.HasRoom sz p) ∧ (rest = [] ∨ m.HasRoom sz blk ∧ mid ≠ []) := by
  intro fuel
  induction fuel with
  | zero => intro cur post _ _ hfuel; omega
  | succ fuel ih =>
    intro cur post hlinked hblocks hfuel
    obtain ⟨b, hb, -⟩ := hblocks cur List.mem_cons_self
    have hnext : b.next = post.head? := (BlockMem.nextOf_eq hb).symm.trans hlinked.1
    cases post with
    | nil =>
      refine ⟨[], cur, [], ?_, rfl, by simp, .inl rfl⟩
      simp [retainedLoop, hb, hnext]
    | cons q post =>
      have htail : ∀ p ∈ q :: post, m.BlockOk p :=
        fun p hp => hblocks p (List.mem_cons_of_mem cur hp)
      obtain ⟨c, hc, hle, hcap, -⟩ := htail q List.mem_cons_self
      have hroom : m.HasRoom sz q ↔ sz ≤ c.cap - c.used := by
        rw [BlockMem.hasRoom_iff hc]
        omega
      -- the loop looks at the block behind `cur`
      by_cases hfit : sz ≤ c.cap - c.used
      · refine ⟨[cur], q, post, ?_, rfl, by simp, .inr ⟨hroom.mpr hfit, by simp⟩⟩
        simp [retainedLoop, hb, hnext, hc, szSub_of_le hle, hfit]
      · simp only [List.length_cons] at hfuel
        obtain ⟨mid, blk, rest, hloop, hsplit, hskip, hstop⟩ := ih hlinked.2 htail (by omega)
        refine ⟨cur :: mid, blk, rest, ?_, by rw [hsplit, List.cons_append], ?_,
          hstop.imp_right fun h => ⟨h.1, List.cons_ne_nil _ _⟩⟩
        · simp [retainedLoop, hb, hnext, hc, szSub_of_le hle, hfit, hloop]
        · -- the first block skipped is the one behind `cur`
          intro p hp
          cases mid with
          | nil => exact absurd hp List.not_mem_nil
          | cons q' mid =>
            obtain ⟨rfl, -⟩ : q = q' ∧ post = mid ++ blk :: rest := by simpa using hsplit
            rcases List.mem_cons.mp hp with rfl | hp
            · exact fun h => hfit (hroom.mp h)
            · exact hskip p hp

/-- Which block serves a request: the first one from `current` on that has room, or a new
one behind them all. -/
structure Served (a : JsonArena) (post : List BlockPtr) (n : ℕ) (r : Region) (a' : JsonArena)
    (mid rest new : List BlockPtr) : Prop where
  positive : 0 < n
  noWrap : n ≤ jsonAlignUp n
  total : a.totalBytes + jsonAlignUp n ≤ sizeMax
  size : r.size = jsonAlignUp n
  split : a.current :: (post ++ new) = mid ++ r.block :: rest
  skipped : ∀ p ∈ mid, ¬ a.mem.HasRoom (jsonAlignUp n) p
  source : new = [] ∧ a.mem.HasRoom (jsonAlignUp n) r.block ∧ a'.mem.calls = a.mem.calls ∨
    new = [r.block] ∧ rest = [] ∧ r.off = 0

/-- Why a request is refused when the backing allocator is not to blame. -/
def Refused (a : JsonArena) (post : List BlockPtr) (n : ℕ) : Prop :=
  n = 0 ∨ jsonAlignUp n < n ∨ sizeMax < a.totalBytes + jsonAlignUp n ∨
    ∀ p ∈ a.current :: post, ¬ a.mem.HasRoom (jsonAlignUp n) p

namespace ArenaOk

variable {a : JsonArena} {pre post : List BlockPtr}

/-- Taking bytes from a block at or behind `current`. -/
theorem takeFrom_spec {mid rest : List BlockPtr} {blk : BlockPtr} {b : JsonArenaBlock} {sz : ℕ}
    (h : ArenaOk a pre post) (hsplit : a.current :: post = mid ++ blk :: rest)
    (hdvd : jsonArenaAlign ∣ sz) (hb : a.mem.block blk = some b) (hroom : b.used + sz ≤ b.cap)
    (htotal : a.totalBytes + sz ≤ sizeMax) :
    ∃ r a', takeFrom a blk sz = some (r, a') ∧ ArenaOk a' (pre ++ mid) rest ∧ r.size = sz ∧
      a'.chain (pre ++ mid) rest = a.chain pre post ∧ r.block = blk ∧ a'.mem.calls = a.mem.calls ∧
      Takes a r a' (a'.chain (pre ++ mid) rest) := by
  have hmoved : ArenaOk { a with current := blk } (pre ++ mid) rest := by
    cases mid with
    | nil =>
      obtain ⟨rfl, rfl⟩ : a.current = blk ∧ post = rest := by simpa using hsplit
      simpa using h
    | cons c mid =>
      obtain ⟨rfl, rfl⟩ : a.current = c ∧ post = mid ++ blk :: rest := by simpa using hsplit
      exact h.advance
  obtain ⟨a', htake, hok, hcur, hcalls, htakes⟩ := hmoved.take hdvd hb hroom htotal
  have hchain : a'.chain (pre ++ mid) rest = a.chain pre post := by
    simp [JsonArena.chain, hcur, hsplit]
  exact ⟨⟨blk, b.used, sz⟩, a', htake, hok, rfl, hchain, rfl, hcalls, htakes.mem, htakes.off,
    htakes.align, htakes.used, htakes.total, htakes.nodeCount, htakes.grants, htakes.cap⟩

/-- A block at or behind `current` serves the request. -/
theorem served_retained {mid rest : List BlockPtr} {blk : BlockPtr} {b : JsonArenaBlock} {n : ℕ}
    (h : ArenaOk a pre post) (hsplit : a.current :: post = mid ++ blk :: rest)
    (hskip : ∀ p ∈ mid, ¬ a.mem.HasRoom (jsonAlignUp n) p) (hb : a.mem.block blk = some b)
    (hroom : b.used + jsonAlignUp n ≤ b.cap) (hpos : 0 < n) (hwrap : n ≤ jsonAlignUp n)
    (htotal : a.totalBytes + jsonAlignUp n ≤ sizeMax) :
    ∃ r a', takeFrom a blk (jsonAlignUp n) = some (r, a') ∧ ArenaOk a' (pre ++ mid) rest ∧
      a'.chain (pre ++ mid) rest = a.chain pre post ++ [] ∧ Served a post n r a' mid rest [] ∧
      Takes a r a' (a'.chain (pre ++ mid) rest) := by
  obtain ⟨r, a', htake, hok, hsize, hchain, hblock, hcalls, htakes⟩ :=
    h.takeFrom_spec hsplit (jsonAlignUp_dvd n) hb hroom htotal
  have hhas : a.mem.HasRoom (jsonAlignUp n) r.block := by
    rw [hblock, BlockMem.hasRoom_iff hb]
    exact hroom
  exact ⟨r, a', htake, hok, by rw [hchain, List.append_nil],
    ⟨hpos, hwrap, htotal, hsize, by rw [hblock, List.append_nil, hsplit], hskip,
      .inl ⟨rfl, hhas, hcalls⟩⟩, htakes⟩

/-- A new block, linked behind the last one, serves the request. -/
theorem served_new {mid : List BlockPtr} {blk : BlockPtr} {m : BlockMem} {cap n : ℕ}
    (h : ArenaOk a pre post) (hsplit : a.current :: post = mid ++ [blk])
    (hfull : ∀ p ∈ mid ++ [blk], ¬ a.mem.HasRoom (jsonAlignUp n) p) (hm : a.mem.Adds m cap)
    (hcap : jsonAlignUp n ≤ cap ∧ cap + headerSz ≤ sizeMax) (hpos : 0 < n)
    (hwrap : n ≤ jsonAlignUp n) (htotal : a.totalBytes + jsonAlignUp n ≤ sizeMax) :
    ∃ b r a', m.block blk = some b ∧
      takeFrom { a with mem := m.store blk { b with next := some a.mem.calls } } a.mem.calls
        (jsonAlignUp n) = some (r, a') ∧
      ArenaOk a' (pre ++ (mid ++ [blk])) [] ∧
      a'.chain (pre ++ (mid ++ [blk])) [] = a.chain pre post ++ [r.block] ∧
      Served a post n r a' (mid ++ [blk]) [] [r.block] ∧
      Takes a r a' (a'.chain (pre ++ (mid ++ [blk])) []) := by
  have hlast : a.chain pre post = (pre ++ mid) ++ [blk] := by simp [JsonArena.chain, hsplit]
  have hfree : a.mem.block a.mem.calls = none := (h.fresh _ le_rfl).1
  have hne : blk ≠ a.mem.calls := (h.lt_calls (by simp [hlast] : blk ∈ a.chain pre post)).ne
  obtain ⟨b, hb, hok⟩ := h.append hlast hm hcap.2
  have hadded : (m.store blk { b with next := some a.mem.calls }).block a.mem.calls
      = some ⟨none, cap, 0⟩ := (BlockMem.store_block_ne _ _ hne.symm).trans hm.block_self
  have hused : (m.store blk { b with next := some a.mem.calls }).usedOf = a.mem.usedOf := by
    rw [← hm.usedOf hfree]
    exact BlockMem.store_usedOf_of_eq hb rfl
  have hsplit' : a.current :: (post ++ [a.mem.calls]) = (mid ++ [blk]) ++ a.mem.calls :: [] := by
    rw [← hsplit, List.cons_append]
  obtain ⟨r, a', htake, hok', hsize, hchain, hblock, -, htakes⟩ :=
    hok.takeFrom_spec hsplit' (jsonAlignUp_dvd n) hadded (by simpa using hcap.1) htotal
  have hoff : r.off = 0 := by
    rw [htakes.off, hblock]
    exact BlockMem.usedOf_eq hadded
  refine ⟨b, r, a', hb, htake, hok', ?_, ⟨hpos, hwrap, htotal, hsize, by rw [hblock, hsplit'],
    hfull, .inr ⟨rfl, rfl, hoff⟩⟩, ?_⟩
  · rw [hchain, hblock]
    exact a.chain_concat pre post a.mem.calls
  · exact {
      mem := htakes.mem
      off := htakes.off.trans (congrFun hused _)
      align := htakes.align
      used := htakes.used.trans (congrArg (Function.update · _ _) hused)
      total := htakes.total
      nodeCount := htakes.nodeCount
      grants := htakes.grants.trans hm.grants
      cap := fun p c hc => by
        obtain ⟨c', hc', hcap'⟩ := hm.link_cap hfree hb (some a.mem.calls) hc
        rw [htakes.cap p c' hc', hcap'] }

/-- The walk from a block without room ends at a later one with room, or at the last one. -/
theorem walk_spec (h : ArenaOk a pre post) (sz : ℕ) (hfull : ¬ a.mem.HasRoom sz a.current) :
    ∃ mid blk rest, retainedLoop a.mem sz (a.mem.calls + 1) a.current = some blk ∧
      a.current :: post = mid ++ blk :: rest ∧ (∀ p ∈ mid, ¬ a.mem.HasRoom sz p) ∧
      (rest = [] ∨ a.mem.HasRoom sz blk) := by
  have hsuffix : Linked a.mem.nextOf (a.current :: post) := h.linked.suffix
  have hlen : post.length < a.mem.calls + 1 := by
    have := h.length_chain_le
    simp only [JsonArena.chain, List.length_append, List.length_cons] at this
    omega
  obtain ⟨mid, blk, rest, hloop, hsplit, hskip, hstop⟩ := retainedLoop_spec sz (a.mem.calls + 1)
    hsuffix (fun p hp => h.blocks p (List.mem_append_right pre hp)) hlen
  refine ⟨mid, blk, rest, hloop, hsplit, fun p hp => ?_, hstop.imp_right And.left⟩
  cases mid with
  | nil => exact absurd hp List.not_mem_nil
  | cons c mid =>
    obtain ⟨rfl, -⟩ : a.current = c ∧ post = mid ++ blk :: rest := by simpa using hsplit
    rcases List.mem_cons.mp hp with rfl | hp
    · exact hfull
    · exact hskip p hp

/-- **The step lemma of `json__arena_alloc_raw`.**  On an arena in order, a call
either returns `NULL` and leaves the arena alone, or takes `align_up(size)` bytes
from a block of the chain, which it may have lengthened by that block.  With a
backing allocator that never refuses, only sizes that do not fit are refused. -/
theorem alloc_served (n : ℕ) (h : ArenaOk a pre post) :
    (∃ m, jsonArenaAllocRaw a n = some (none, { a with mem := m }) ∧ a.mem.Unchanged m ∧
      Refused a post n ∧
      ((∀ k sz, a.mem.grants k sz = true) → n = 0 ∨ sizeMax < a.totalBytes + n + 38)) ∨
    (∃ r a' mid rest new, jsonArenaAllocRaw a n = some (some r, a') ∧
      ArenaOk a' (pre ++ mid) rest ∧ a'.chain (pre ++ mid) rest = a.chain pre post ++ new ∧
      Served a post n r a' mid rest new ∧ Takes a r a' (a'.chain (pre ++ mid) rest)) := by
  have hsame : ∀ {x : Option (Option Region × JsonArena)}, x = some (none, a) →
      Refused a post n → (n = 0 ∨ sizeMax < a.totalBytes + n + 38) →
      ∃ m, x = some (none, { a with mem := m }) ∧ a.mem.Unchanged m ∧ Refused a post n ∧
        ((∀ k sz, a.mem.grants k sz = true) → n = 0 ∨ sizeMax < a.totalBytes + n + 38) :=
    fun hx href hn => ⟨a.mem, hx, ⟨rfl, rfl, le_rfl, rfl⟩, href, fun _ => hn⟩
  unfold jsonArenaAllocRaw
  by_cases h0 : n = 0
  · exact .inl (hsame (by rw [if_pos h0]) (.inl h0) (.inl h0))
  rw [if_neg h0]
  by_cases hwrap : jsonAlignUp n < n
  · refine .inl (hsame (by simp only [if_pos hwrap]) (.inr (.inl hwrap)) (.inr ?_))
    by_contra hc
    exact absurd (jsonAlignUp_of_le (n := n) (by omega)).1 (not_le.mpr hwrap)
  simp only [if_neg hwrap]
  by_cases htot : jsonAlignUp n > sizeMax - a.totalBytes
  · refine .inl (hsame (by rw [if_pos htot]) (.inr (.inr (.inl (by omega)))) (.inr ?_))
    by_contra hc
    have := (jsonAlignUp_of_le (n := n) (by omega)).2
    omega
  rw [if_neg htot]
  have hpos : 0 < n := Nat.pos_of_ne_zero h0
  replace hwrap := not_lt.mp hwrap
  have htotal : a.totalBytes + jsonAlignUp n ≤ sizeMax := by
    have := h.totalLe
    omega
  have hcurMem : a.current ∈ a.chain pre post := by simp [JsonArena.chain]
  obtain ⟨cur, hcur, hle, -⟩ := h.blocks _ hcurMem
  simp only [hcur, Option.bind_eq_bind, Option.bind_some, szSub_of_le hle]
  by_cases hfit : jsonAlignUp n ≤ cur.cap - cur.used
  · -- the current block has room
    rw [if_pos hfit]
    obtain ⟨r, a', htake, hserved⟩ := h.served_retained (List.nil_append _).symm (by simp) hcur
      (by omega) hpos hwrap htotal
    exact .inr ⟨r, a', [], post, [], by simp [htake], hserved⟩
  rw [if_neg hfit]
  obtain ⟨mid, blk, rest, hloop, hsplit, hskip, hstop⟩ :=
    h.walk_spec (jsonAlignUp n) (by rw [BlockMem.hasRoom_iff hcur]; omega)
  have hblkMem : blk ∈ a.chain pre post := by
    rw [JsonArena.chain, hsplit]
    simp
  obtain ⟨b, hb, hble, -⟩ := h.blocks blk hblkMem
  simp only [hloop, hb, Option.bind_some, szSub_of_le hble]
  by_cases hroom : jsonAlignUp n ≤ b.cap - b.used
  · -- a retained block has room
    rw [if_neg (by omega)]
    obtain ⟨r, a', htake, hserved⟩ := h.served_retained hsplit hskip hb (by omega) hpos hwrap htotal
    exact .inr ⟨r, a', mid, rest, [], by simp [htake], hserved⟩
  -- the chain is exhausted: append a block
  rw [if_pos (by omega)]
  have hblk : ¬ a.mem.HasRoom (jsonAlignUp n) blk := by
    rw [BlockMem.hasRoom_iff hb]
    omega
  obtain rfl : rest = [] := hstop.resolve_right hblk
  have hall : ∀ p ∈ mid ++ [blk], ¬ a.mem.HasRoom (jsonAlignUp n) p := by
    intro p hp
    rcases List.mem_append.mp hp with hp | hp
    · exact hskip p hp
    · rw [List.mem_singleton.mp hp]
      exact hblk
  rcases jsonBlockNew_spec (jsonAlignUp n) a.mem h.blockSize with
    ⟨m, hnew, hm, hgrants⟩ | ⟨m, cap, hnew, hm, hcap⟩
  · refine .inl ⟨m, by simp [hnew], hm, .inr (.inr (.inr (hsplit ▸ hall))), fun hg => .inr ?_⟩
    have hbig := hgrants hg
    by_contra hc
    have := (jsonAlignUp_of_le (n := n) (by omega)).2
    omega
  · obtain ⟨c, r, a', hc, htake, hserved⟩ := h.served_new hsplit hall hm hcap hpos hwrap htotal
    exact .inr ⟨r, a', mid ++ [blk], [], [r.block], by simp [hnew, hc, htake], hserved⟩

/-- The step lemma without the choice of the block. -/
theorem alloc (n : ℕ) (h : ArenaOk a pre post) :
    (∃ m, jsonArenaAllocRaw a n = some (none, { a with mem := m }) ∧ a.mem.Unchanged m ∧
      ((∀ k sz, a.mem.grants k sz = true) → n = 0 ∨ sizeMax < a.totalBytes + n + 38)) ∨
    (∃ r a' pre' post', jsonArenaAllocRaw a n = some (some r, a') ∧ ArenaOk a' pre' post' ∧
      r.size = jsonAlignUp n ∧ n ≤ r.size ∧ a.chain pre post ⊆ a'.chain pre' post' ∧
      Takes a r a' (a'.chain pre' post')) := by
  rcases h.alloc_served n with ⟨m, halloc, hm, -, hgrants⟩ |
    ⟨r, a', mid, rest, new, halloc, hok, hchain, hserved, htakes⟩
  · exact .inl ⟨m, halloc, hm, hgrants⟩
  · refine .inr ⟨r, a', _, _, halloc, hok, hserved.size, ?_, ?_, htakes⟩
    · rw [hserved.size]
      exact hserved.noWrap
    · rw [hchain]
      exact List.subset_append_left _ _

end ArenaOk

end SJson
