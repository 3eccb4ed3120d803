/-
# Runs of the arena

`json_arena_create`, `json_arena_reset` and `json_arena_trim` establish or keep
`ArenaOk`, hence so does every sequence of arena calls.  Alongside the arena a run
records the regions handed out since the last reset or trim (`ArenaTrace`); the
run invariant `TraceOk` says that they lie in the used part of the chain's blocks
and are pairwise disjoint.
-/
import SJson.ArenaInvariant

namespace SJson

open LinkedChain

/-! ## Reset -/

/-- `m'` is `m` with the blocks of `l` emptied. -/
structure BlockMem.Emptied (m m' : BlockMem) (l : List BlockPtr) : Prop where
  next : m'.nextOf = m.nextOf
  used : ∀ p, m'.usedOf p = if p ∈ l then 0 else m.usedOf p
  cap : m'.capOf = m.capOf
  blocks : ∀ p, m.BlockOk p → m'.BlockOk p
  none : ∀ p, m.block p = none → m'.block p = none
  live : m'.live = m.live
  calls : m'.calls = m.calls
  grants : m'.grants = m.grants

theorem resetLoop_spec : ∀ {l : List BlockPtr} {m : BlockMem} {fuel : ℕ}, Linked m.nextOf l →
    (∀ p ∈ l, m.BlockOk p) → l.length ≤ fuel →
    ∃ m', resetLoop m fuel l.head? = some m' ∧ m.Emptied m' l := by
  intro l
  induction l with
  | nil =>
    intro m fuel _ _ _
    refine ⟨m, by cases fuel <;> rfl, rfl, fun p => by simp, rfl, fun _ h => h, fun _ h => h, rfl,
      rfl, rfl⟩
  | cons p l ih =>
    intro m fuel hlinked hblocks hfuel
    obtain ⟨fuel, rfl⟩ : ∃ k, fuel = k + 1 :=
      ⟨fuel - 1, by simp only [List.length_cons] at hfuel; omega⟩
    obtain ⟨b, hb, -, hcap, -⟩ := hblocks p List.mem_cons_self
    have hnext : b.next = l.head? := (BlockMem.nextOf_eq hb).symm.trans hlinked.1
    -- emptying a block does not relink it
    have hstored : (m.store p { b with used := 0 }).nextOf = m.nextOf := by
      rw [BlockMem.store_nextOf, Function.update_eq_self_iff.mpr]
      exact (BlockMem.nextOf_eq hb).symm
    have hok : ∀ q, m.BlockOk q → (m.store p { b with used := 0 }).BlockOk q :=
      fun q hq => hq.store ⟨Nat.zero_le _, hcap, Nat.dvd_zero _⟩
    have hfuel' : l.length ≤ fuel := by simpa using hfuel
    obtain ⟨m', hloop, hm'⟩ := ih (m := m.store p { b with used := 0 })
      (hstored ▸ hlinked.2) (fun q hq => hok q (hblocks q (List.mem_cons_of_mem p hq))) hfuel'
    rw [← hnext] at hloop
    refine ⟨m', by simp [resetLoop, hb, hloop], ?_⟩
    exact {
      next := hm'.next.trans hstored
      used := fun q => by
        rw [hm'.used, BlockMem.store_usedOf]
        by_cases hq : q = p
        · subst hq
          simp
        · simp [hq]
      cap := hm'.cap.trans (BlockMem.store_capOf_of_eq hb rfl)
      blocks := fun q hq => hm'.blocks q (hok q hq)
      none := fun q hq => by
        refine hm'.none q ?_
        rw [BlockMem.store_block_ne _ _ (by rintro rfl; simp [hb] at hq), hq]
      live := hm'.live
      calls := hm'.calls
      grants := hm'.grants }

/-- After a reset the arena is in order and empty, with the same chain. -/
theorem ChainOk.reset {a : JsonArena} {tail : List BlockPtr} (h : ChainOk a (a.first :: tail)) :
    ∃ a', jsonArenaReset a = some a' ∧ ArenaOk a' [] tail ∧ a'.current = a.first ∧
      a'.totalBytes = 0 ∧ a'.nodeCount = 0 ∧ a'.mem.grants = a.mem.grants ∧ a'.self = a.self ∧
      a'.first = a.first ∧ a'.mem.calls = a.mem.calls ∧ a'.mem.capOf = a.mem.capOf := by
  obtain ⟨m, hloop, hm⟩ := resetLoop_spec h.linked h.blocks
    (h.length_chain_le.trans (Nat.le_succ _))
  -- every block of the chain is emptied, `current` included
  have hzero : ∀ p ∈ a.first :: tail, m.usedOf p = 0 := fun p hp => by rw [hm.used, if_pos hp]
  refine ⟨{ a with mem := m, current := a.first, totalBytes := 0, nodeCount := 0 }, ?_, ?_, rfl,
    rfl, rfl, hm.grants, rfl, rfl, hm.calls, hm.cap⟩
  · have hhead : (a.first :: tail).head? = some a.first := rfl
    rw [hhead] at hloop
    simp [jsonArenaReset, hloop]
  · exact {
      linked := by
        show Linked m.nextOf _
        rw [hm.next]
        exact h.linked
      first := rfl
      blocks := fun p hp => hm.blocks p (h.blocks p hp)
      live := by
        show m.live.Perm _
        rw [hm.live]
        exact h.live
      nodup := by
        show m.live.Nodup
        rw [hm.live]
        exact h.nodup
      fresh := fun p hp => by
        have hp' : a.mem.calls ≤ p := hm.calls ▸ hp
        exact ⟨hm.none p (h.fresh p hp').1, by
          show p ∉ m.live
          rw [hm.live]
          exact (h.fresh p hp').2⟩
      blockSize := h.blockSize
      empty := fun p hp => hzero p (List.mem_cons_of_mem _ hp)
      total := by
        symm
        exact List.sum_eq_zero (by simpa using hzero)
      totalLe := Nat.zero_le _ }

/-! ## Trim -/

/-- Freeing a chain removes its blocks and nothing else. -/
theorem freeLoop_spec : ∀ {l rest : List BlockPtr} {m : BlockMem} {fuel : ℕ},
    Linked m.nextOf l → (∀ p ∈ l, m.BlockOk p) → m.live.Perm (l ++ rest) → m.live.Nodup →
    l.length ≤ fuel →
    ∃ m', freeLoop m fuel l.head? = some m' ∧ m'.live.Perm rest ∧ m'.live.Nodup ∧
      (∀ p, p ∉ l → m'.block p = m.block p) ∧ m'.calls = m.calls ∧ m'.grants = m.grants := by
  intro l
  induction l with
  | nil =>
    intro rest m fuel _ _ hlive hnodup _
    exact ⟨m, by cases fuel <;> rfl, hlive, hnodup, fun _ _ => rfl, rfl, rfl⟩
  | cons p l ih =>
    intro rest m fuel hlinked hblocks hlive hnodup hfuel
    obtain ⟨fuel, rfl⟩ : ∃ k, fuel = k + 1 :=
      ⟨fuel - 1, by simp only [List.length_cons] at hfuel; omega⟩
    obtain ⟨b, hb, -⟩ := hblocks p List.mem_cons_self
    have hnext : b.next = l.head? := (BlockMem.nextOf_eq hb).symm.trans hlinked.1
    have hp : p ∈ m.live := hlive.mem_iff.mpr (by simp)
    have hpl : p ∉ l := (List.nodup_cons.mp hlinked.nodup).1
    -- a block that is freed is not met again behind it
    have hkeep : ∀ q ∈ l, Function.update m.block p none q = m.block q :=
      fun q hq => Function.update_of_ne (ne_of_mem_of_not_mem hq hpl) ..
    have hfuel' : l.length ≤ fuel := by simpa using hfuel
    have hlive' : (m.live.erase p).Perm (l ++ rest) := by simpa using hlive.erase p
    obtain ⟨m', hloop, hlive', hnodup', hblock, hcalls, hgrants⟩ := ih
      (m := { m with live := m.live.erase p, block := Function.update m.block p none })
      (hlinked.2.congr fun q hq => by simp only [BlockMem.nextOf, hkeep q hq])
      (fun q hq => by
        obtain ⟨c, hc, hok⟩ := hblocks q (List.mem_cons_of_mem p hq)
        exact ⟨c, by show Function.update m.block p none q = _; rw [hkeep q hq, hc], hok⟩)
      hlive' (hnodup.erase p) hfuel'
    refine ⟨m', ?_, hlive', hnodup', fun q hq => ?_, hcalls, hgrants⟩
    · simp [freeLoop, hb, BlockMem.free, hp, hnext, hloop]
    · rw [hblock q fun hql => hq (List.mem_cons_of_mem p hql)]
      have hne : q ≠ p := by
        rintro rfl
        exact hq List.mem_cons_self
      exact Function.update_of_ne hne ..

/-- After a trim the first block is the whole chain. -/
theorem ChainOk.trim {a : JsonArena} {tail : List BlockPtr} (h : ChainOk a (a.first :: tail)) :
    ∃ a', jsonArenaTrim a = some a' ∧ ArenaOk a' [] [] ∧ a'.current = a.first ∧
      a'.totalBytes = 0 ∧ a'.nodeCount = 0 ∧ a'.self = a.self ∧ a'.first = a.first := by
  obtain ⟨b, hb, hbok⟩ := h.blocks a.first List.mem_cons_self
  have hnext : b.next = tail.head? := (BlockMem.nextOf_eq hb).symm.trans h.linked.1
  have hfirst : a.first ∉ tail := (List.nodup_cons.mp h.linked.nodup).1
  have hlive : a.mem.live.Perm (tail ++ [a.self, a.first]) := by
    refine h.live.trans ?_
    exact @List.perm_append_comm _ [a.self, a.first] tail
  have hlen := h.length_chain_le
  simp only [List.length_cons] at hlen
  obtain ⟨m, hloop, hmlive, hmnodup, hmblock, hmcalls, -⟩ := freeLoop_spec h.linked.2
    (fun p hp => h.blocks p (List.mem_cons_of_mem _ hp)) hlive h.nodup
    (show tail.length ≤ a.mem.calls + 1 by omega)
  have hmb : m.block a.first = some b := by rw [hmblock _ hfirst, hb]
  -- the chain is cut behind its first block, and then reset
  have hcut : ChainOk { a with mem := m.store a.first { b with next := none } } [a.first] := {
    linked := by
      rw [linked_singleton, BlockMem.store_nextOf, Function.update_self]
    first := rfl
    blocks := fun p hp => by
      rw [List.mem_singleton.mp hp]
      exact ⟨_, BlockMem.store_block_self _ _ _, hbok⟩
    live := hmlive
    nodup := hmnodup
    fresh := fun p hp => by
      have hp' : a.mem.calls ≤ p := hmcalls ▸ hp
      obtain ⟨hnone, hnl⟩ := h.fresh p hp'
      have hpf : p ≠ a.first := by
        rintro rfl
        simp [hb] at hnone
      have hpt : p ∉ tail := fun hmem =>
        absurd (h.lt_calls (List.mem_cons_of_mem _ hmem)) (not_lt.mpr hp')
      have hps : p ∉ [a.self, a.first] := fun hmem =>
        hnl (h.live.mem_iff.mpr (by simp only [List.mem_cons] at hmem ⊢; tauto))
      exact ⟨by rw [BlockMem.store_block_ne _ _ hpf, hmblock p hpt, hnone],
        fun hmem => hps (hmlive.mem_iff.mp hmem)⟩
    blockSize := h.blockSize }
  obtain ⟨a', hreset, hok, hcur, htotal, hnodes, -, hself, hfirst, -⟩ := hcut.reset
  refine ⟨a', ?_, hok, hcur, htotal, hnodes, hself, hfirst⟩
  simp [jsonArenaTrim, hb, hnext, hloop, hmb, hreset]

/-! ## Create -/

/-- Memory of which nothing is outstanding. -/
structure BlockMem.Idle (m : BlockMem) : Prop where
  live : m.live = []
  fresh : ∀ p, m.calls ≤ p → m.block p = none

theorem BlockMem.idle_init (grants : ℕ → ℕ → Bool) : (BlockMem.init grants).Idle :=
  ⟨rfl, fun _ _ => rfl⟩

/-- The arena that `json_arena_create` makes of its two allocations is in order. -/
theorem ArenaOk.create {m m1 : BlockMem} (hm : m.Idle) {blockSize cap : ℕ}
    (hsz : headerSz ≤ blockSize ∧ blockSize ≤ sizeMax) (hcap : cap + headerSz ≤ sizeMax)
    (hm1 : BlockMem.Adds { m with calls := m.calls + 1, live := [m.calls] } m1 cap) :
    ArenaOk ⟨m.calls, m.calls + 1, m.calls + 1, blockSize, 0, 0, m1⟩ [] [] := by
  have hone : m1.block (m.calls + 1) = some ⟨none, cap, 0⟩ := hm1.block_self
  have hlive : m1.live = [m.calls + 1, m.calls] := hm1.live
  exact {
    linked := by
      show Linked m1.nextOf [m.calls + 1]
      rw [linked_singleton, BlockMem.nextOf_eq hone]
    first := rfl
    blocks := fun p hp => by
      rw [List.mem_singleton.mp hp]
      exact ⟨_, hone, Nat.zero_le _, hcap, Nat.dvd_zero _⟩
    live := by
      show m1.live.Perm [m.calls, m.calls + 1]
      rw [hlive]
      exact List.Perm.swap _ _ _
    nodup := by
      show m1.live.Nodup
      rw [hlive]
      simp
    fresh := fun p hp => by
      have hp' : m.calls + 2 ≤ p := by
        have h : m1.calls ≤ p := hp
        rwa [hm1.calls] at h
      show m1.block p = none ∧ p ∉ m1.live
      rw [hm1.block_ne (by show p ≠ m.calls + 1; omega), hlive]
      exact ⟨hm.fresh p (by omega), by simp; omega⟩
    blockSize := hsz
    empty := fun p hp => absurd hp List.not_mem_nil
    total := by
      show 0 = m1.usedOf (m.calls + 1) + 0
      rw [BlockMem.usedOf_eq hone]
    totalLe := Nat.zero_le _ }

/-- The header is given back when there is no first block. -/
theorem BlockMem.free_header {m m1 : BlockMem} (hm : m.Idle)
    (hm1 : BlockMem.Unchanged { m with calls := m.calls + 1, live := [m.calls] } m1) :
    ∃ m', m1.free m.calls = some m' ∧ m'.Idle := by
  obtain ⟨hblock, hlive, hcalls, -⟩ := hm1
  refine ⟨{ m1 with live := [], block := Function.update m1.block m.calls none }, ?_, rfl,
    fun p hp => ?_⟩
  · rw [BlockMem.free, if_pos (by rw [hlive]; simp), hlive]
    simp
  · have hp' : m.calls + 1 ≤ p := hcalls.trans hp
    have hne : p ≠ m.calls := by omega
    show Function.update m1.block m.calls none p = none
    rw [Function.update_of_ne hne, hblock]
    exact hm.fresh p (by omega)

/-- `json_arena_create` returns an empty arena in order, or `NULL` with nothing left
behind, which only happens when the backing allocator refuses. -/
theorem jsonArenaCreate_spec {m : BlockMem} (hm : m.Idle) {blockSize : ℕ}
    (hsz : blockSize ≤ sizeMax) :
    ∃ res m', jsonArenaCreate m blockSize = some (res, m') ∧ (res = none → m'.Idle) ∧
      (∀ a, res = some a → a.mem = m' ∧ ArenaOk a [] [] ∧ a.totalBytes = 0 ∧ a.nodeCount = 0 ∧
        a.mem.grants = m.grants) ∧ ((∀ k sz, m.grants k sz = true) → res.isSome) := by
  set bs := if blockSize = 0 then 64 * 1024 else blockSize with hbs
  set bs' := if bs < jsonArenaMinBlock then jsonArenaMinBlock else bs with hbs'
  have hle : headerSz ≤ bs' ∧ bs' ≤ sizeMax := by
    rw [headerSz_eq, hbs', hbs]
    unfold jsonArenaMinBlock sizeMax at *
    split_ifs <;> omega
  unfold jsonArenaCreate
  simp only [← hbs, ← hbs']
  by_cases hg : m.grants m.calls sizeofJsonArena = true
  · have halloc : m.alloc sizeofJsonArena
        = (some m.calls, { m with calls := m.calls + 1, live := [m.calls] }) := by
      rw [BlockMem.alloc, if_pos hg, hm.live]
    rw [halloc]
    rcases jsonBlockNew_spec 0 { m with calls := m.calls + 1, live := [m.calls] } hle with
      ⟨m1, hnew, hm1, hall⟩ | ⟨m1, cap, hnew, hm1, -, hcap⟩
    · obtain ⟨m', hfree, hidle⟩ := BlockMem.free_header hm hm1
      exact ⟨none, m', by simp [hnew, hfree], fun _ => hidle, fun a ha => by simp at ha,
        fun hgrants => absurd (hall hgrants) (by decide)⟩
    · refine ⟨some ⟨m.calls, m.calls + 1, m.calls + 1, bs', 0, 0, m1⟩, m1, by simp [hnew],
        fun h => by simp at h, fun a ha => ?_, fun _ => rfl⟩
      obtain rfl := Option.some.inj ha
      exact ⟨rfl, .create hm hle hcap hm1, rfl, rfl, hm1.grants⟩
  · have halloc : m.alloc sizeofJsonArena = (none, { m with calls := m.calls + 1 }) := by
      rw [BlockMem.alloc, if_neg hg]
    rw [halloc]
    exact ⟨none, _, rfl, fun _ => ⟨hm.live, fun p hp => hm.fresh p ((Nat.le_succ _).trans hp)⟩,
      fun a ha => by simp at ha, fun hall => absurd (hall _ _) hg⟩

/-! ## Runs -/

/-- A call on an existing arena. -/
inductive ArenaOp where
  | alloc (size : ℕ)
  | reset
  | trim

/-- An arena together with the regions handed out since the last reset or trim. -/
structure ArenaTrace where
  arena : JsonArena
  regions : List Region

/-- One call. -/
def ArenaTrace.step (t : ArenaTrace) : ArenaOp → Option ArenaTrace
  | .alloc n => do
    let (r, a) ← jsonArenaAllocRaw t.arena n
    return ⟨a, r.toList ++ t.regions⟩
  | .reset => do
    let a ← jsonArenaReset t.arena
    return ⟨a, []⟩
  | .trim => do
    let a ← jsonArenaTrim t.arena
    return ⟨a, []⟩

/-- A sequence of calls. -/
def ArenaTrace.run (t : ArenaTrace) : List ArenaOp → Option ArenaTrace
  | [] => some t
  | op :: ops => do
    let t ← t.step op
    t.run ops

/-- The bytes of the two regions do not overlap. -/
def Region.Disjoint (r s : Region) : Prop :=
  r.block ≠ s.block ∨ r.off + r.size ≤ s.off ∨ s.off + s.size ≤ r.off

/-- The region is aligned and lies in the used part of a block of the chain. -/
structure Region.InBounds (a : JsonArena) (chain : List BlockPtr) (r : Region) : Prop where
  mem : r.block ∈ chain
  align : jsonArenaAlign ∣ r.off
  used : r.off + r.size ≤ a.mem.usedOf r.block

/-- **The run invariant.** -/
structure TraceOk (t : ArenaTrace) (pre post : List BlockPtr) : Prop where
  arena : ArenaOk t.arena pre post
  inBounds : ∀ r ∈ t.regions, r.InBounds t.arena (t.arena.chain pre post)
  disjoint : t.regions.Pairwise Region.Disjoint

/-- A taken region is in bounds, and disjoint from every region in bounds before. -/
theorem Takes.inBounds {a a' : JsonArena} {r : Region} {chain chain' : List BlockPtr}
    (h : Takes a r a' chain') (hsub : chain ⊆ chain') :
    r.InBounds a' chain' ∧ ∀ s : Region, s.InBounds a chain → s.InBounds a' chain' ∧
      r.Disjoint s := by
  refine ⟨⟨h.mem, h.align, by rw [h.used, Function.update_self]⟩,
    fun s hs => ⟨⟨hsub hs.mem, hs.align, ?_⟩, ?_⟩⟩
  · have hs' := hs.used
    rw [h.used]
    by_cases hb : s.block = r.block
    · rw [hb, Function.update_self]
      rw [hb, ← h.off] at hs'
      omega
    · rw [Function.update_of_ne hb]
      exact hs'
  · by_cases hb : r.block = s.block
    · right; right
      rw [h.off, hb]
      exact hs.used
    · exact .inl hb

/-- The arena call `op` keeps the run invariant. -/
theorem TraceOk.step {t : ArenaTrace} {pre post : List BlockPtr} (h : TraceOk t pre post)
    (op : ArenaOp) : ∃ t' pre' post', t.step op = some t' ∧ TraceOk t' pre' post' := by
  obtain ⟨tail, htail⟩ := h.arena.eq_cons
  have hchain : ChainOk t.arena (t.arena.first :: tail) := htail ▸ h.arena.toChainOk
  cases op with
  | alloc n =>
    rcases h.arena.alloc n with ⟨m, halloc, hm, -⟩ |
      ⟨r, a', pre', post', halloc, hok, -, -, hsub, htakes⟩
    · refine ⟨⟨{ t.arena with mem := m }, t.regions⟩, pre, post, ?_, h.arena.unchanged hm, ?_,
        h.disjoint⟩
      · simp [ArenaTrace.step, halloc]
      · intro r hr
        obtain ⟨hmem, halign, hused⟩ := h.inBounds r hr
        exact ⟨hmem, halign, by rw [hm.usedOf]; exact hused⟩
    · refine ⟨⟨a', r :: t.regions⟩, pre', post', by simp [ArenaTrace.step, halloc], hok, ?_, ?_⟩
      · intro s hs
        rcases List.mem_cons.mp hs with rfl | hs
        · exact (htakes.inBounds hsub).1
        · exact ((htakes.inBounds hsub).2 s (h.inBounds s hs)).1
      · exact List.pairwise_cons.mpr
          ⟨fun s hs => ((htakes.inBounds hsub).2 s (h.inBounds s hs)).2, h.disjoint⟩
  | reset =>
    obtain ⟨a', hreset, hok, -⟩ := hchain.reset
    exact ⟨⟨a', []⟩, [], tail, by simp [ArenaTrace.step, hreset], hok,
      fun r hr => absurd hr List.not_mem_nil, List.Pairwise.nil⟩
  | trim =>
    obtain ⟨a', htrim, hok, -⟩ := hchain.trim
    exact ⟨⟨a', []⟩, [], [], by simp [ArenaTrace.step, htrim], hok,
      fun r hr => absurd hr List.not_mem_nil, List.Pairwise.nil⟩

/-- Every sequence of arena calls is defined and keeps the run invariant. -/
theorem TraceOk.run {t : ArenaTrace} {pre post : List BlockPtr} (h : TraceOk t pre post)
    (ops : List ArenaOp) : ∃ t' pre' post', t.run ops = some t' ∧ TraceOk t' pre' post' := by
  induction ops generalizing t pre post with
  | nil => exact ⟨t, pre, post, rfl, h⟩
  | cons op ops ih =>
    obtain ⟨t', pre', post', hstep, hok⟩ := h.step op
    obtain ⟨t'', pre'', post'', hrun, hok'⟩ := ih hok
    exact ⟨t'', pre'', post'', by simp [ArenaTrace.run, hstep, hrun], hok'⟩

/-- **The arena is sound in every reachable state.**  For every block size and every
pattern of backing failures, no sequence of calls is undefined; the chain from
`first` ends, has no block twice and contains `current`, its blocks are not
over-full, those behind `current` are empty, and `total_bytes` is the sum of
`used`.  A further call returns `NULL` and changes nothing, or it returns
`align_up(size)` aligned bytes within a block of the chain that overlap no region
handed out since the last reset or trim. -/
theorem jsonArena_sound (grants : ℕ → ℕ → Bool) (blockSize : ℕ) (hsz : blockSize ≤ sizeMax) :
    ∃ res m, jsonArenaCreate (.init grants) blockSize = some (res, m) ∧
      ∀ a, res = some a → ∀ ops : List ArenaOp,
        ∃ t pre post, ArenaTrace.run ⟨a, []⟩ ops = some t ∧
          (t.arena.chain pre post).head? = some t.arena.first ∧
          Linked t.arena.mem.nextOf (t.arena.chain pre post) ∧
          (t.arena.chain pre post).Nodup ∧
          (∀ p ∈ t.arena.chain pre post, ∃ b, t.arena.mem.block p = some b ∧ b.used ≤ b.cap) ∧
          (∀ p ∈ post, t.arena.mem.usedOf p = 0) ∧
          t.arena.totalBytes = ((t.arena.chain pre post).map t.arena.mem.usedOf).sum ∧
          t.regions.Pairwise Region.Disjoint ∧
          ∀ n,
            (∃ m', jsonArenaAllocRaw t.arena n = some (none, { t.arena with mem := m' }) ∧
              m'.block = t.arena.mem.block ∧ m'.live = t.arena.mem.live) ∨
            (∃ r a' pre' post' b, jsonArenaAllocRaw t.arena n = some (some r, a') ∧
              r.size = jsonAlignUp n ∧ n ≤ r.size ∧ jsonArenaAlign ∣ r.off ∧
              Linked a'.mem.nextOf (a'.chain pre' post') ∧
              (a'.chain pre' post').head? = some a'.first ∧
              r.block ∈ a'.chain pre' post' ∧
              a'.mem.block r.block = some b ∧ r.off + r.size ≤ b.cap ∧
              ∀ s ∈ t.regions, r.Disjoint s) := by
  obtain ⟨res, m, hcreate, -, hres, -⟩ := jsonArenaCreate_spec (BlockMem.idle_init grants) hsz
  refine ⟨res, m, hcreate, fun a ha ops => ?_⟩
  have hstart : TraceOk ⟨a, []⟩ [] [] :=
    ⟨(hres a ha).2.1, fun r hr => absurd hr List.not_mem_nil, List.Pairwise.nil⟩
  obtain ⟨t, pre, post, hrun, hok⟩ := hstart.run ops
  refine ⟨t, pre, post, hrun, hok.arena.first, hok.arena.linked, hok.arena.linked.nodup,
    fun p hp => ?_, hok.arena.empty, hok.arena.total, hok.disjoint, fun n => ?_⟩
  · obtain ⟨b, hb, hle, -⟩ := hok.arena.blocks p hp
    exact ⟨b, hb, hle⟩
  · -- one more request
    rcases hok.arena.alloc n with ⟨m', halloc, hm, -⟩ |
      ⟨r, a', pre', post', halloc, hok', hsize, hn, hsub, htakes⟩
    · exact .inl ⟨m', halloc, hm.1, hm.2.1⟩
    · obtain ⟨b, hb, hle, -⟩ := hok'.blocks r.block htakes.mem
      have hfits : r.off + r.size ≤ b.cap := by
        rw [← BlockMem.usedOf_eq hb, htakes.used, Function.update_self] at hle
        exact hle
      exact .inr ⟨r, a', pre', post', b, halloc, hsize, hn, htakes.align, hok'.linked, hok'.first,
        htakes.mem, hb, hfits, fun s hs => ((htakes.inBounds hsub).2 s (hok.inBounds s hs)).2⟩

/-- The smallest block size, with a backing allocator that never fails. -/
theorem jsonArena_sound_minBlock :
    ∃ res m, jsonArenaCreate (.init fun _ _ => true) jsonArenaMinBlock = some (res, m) ∧
      ∀ a, res = some a → ∃ t, ArenaTrace.run ⟨a, []⟩ [.alloc 5000, .reset, .alloc 24] =
        some t := by
  obtain ⟨res, m, hcreate, hrun⟩ :=
    jsonArena_sound (fun _ _ => true) jsonArenaMinBlock (by decide)
  refine ⟨res, m, hcreate, fun a ha => ?_⟩
  obtain ⟨t, -, -, ht, -⟩ := hrun a ha [.alloc 5000, .reset, .alloc 24]
  exact ⟨t, ht⟩

end SJson
