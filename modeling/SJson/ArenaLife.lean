/-
# The life of an arena

What an arena owns, from `json_arena_create` to `json_arena_destroy` (`ArenaLife`): the
outstanding allocations are the header and the blocks of the chain, each once, until the
arena is destroyed and nothing is outstanding (`jsonArena_ownership`).  And what a reset
is for: the same requests after another reset are served from the same places, without
new memory (`jsonArena_replay`).

Arenas share nothing but the backing allocator, so one arena is there at a time.
-/
import SJson.ArenaRun

namespace SJson

open LinkedChain

/-! ## Destroy -/

/-- Destroying an arena frees the chain and the header, once each. -/
theorem ChainOk.destroy {a : JsonArena} {chain : List BlockPtr} (h : ChainOk a chain) :
    ∃ m, jsonArenaDestroy a = some m ∧ m.Idle := by
  have hlive : a.mem.live.Perm (chain ++ [a.self]) :=
    h.live.trans (List.perm_append_singleton _ _).symm
  obtain ⟨m, hloop, hmlive, -, hmblock, hmcalls, -⟩ := freeLoop_spec h.linked h.blocks hlive h.nodup
    (h.length_chain_le.trans (Nat.le_succ _))
  rw [h.first] at hloop
  have hlast : m.live = [a.self] := List.perm_singleton.mp hmlive
  have hfree : m.free a.self = some
      { m with live := [], block := Function.update m.block a.self none } := by
    rw [BlockMem.free, if_pos (by rw [hlast]; simp), hlast]
    simp
  refine ⟨{ m with live := [], block := Function.update m.block a.self none }, ?_, rfl,
    fun p hp => ?_⟩
  · simp [jsonArenaDestroy, hloop, hfree]
  · have hp' : a.mem.calls ≤ p := hmcalls ▸ hp
    have hchain : p ∉ chain := fun hmem => absurd (h.lt_calls hmem) (not_lt.mpr hp')
    show Function.update m.block a.self none p = none
    by_cases hself : p = a.self
    · rw [hself, Function.update_self]
    · rw [Function.update_of_ne hself, hmblock p hchain]
      exact (h.fresh p hp').1

/-! ## Lives -/

/-- What calls lead to: the arena that is there, if any, and the memory of the backing
allocator.  Arenas are created and destroyed one after the other. -/
inductive ArenaLife (grants : ℕ → ℕ → Bool) : Option JsonArena → BlockMem → Prop
  | start : ArenaLife grants none (.init grants)
  | create {m m' : BlockMem} {res : Option JsonArena} {blockSize : ℕ} (hsz : blockSize ≤ sizeMax)
      (h : ArenaLife grants none m) (hcall : jsonArenaCreate m blockSize = some (res, m')) :
      ArenaLife grants res m'
  | alloc {a a' : JsonArena} {m : BlockMem} {r : Option Region} {size : ℕ}
      (h : ArenaLife grants (some a) m) (hcall : jsonArenaAllocRaw a size = some (r, a')) :
      ArenaLife grants (some a') a'.mem
  | reset {a a' : JsonArena} {m : BlockMem} (h : ArenaLife grants (some a) m)
      (hcall : jsonArenaReset a = some a') : ArenaLife grants (some a') a'.mem
  | trim {a a' : JsonArena} {m : BlockMem} (h : ArenaLife grants (some a) m)
      (hcall : jsonArenaTrim a = some a') : ArenaLife grants (some a') a'.mem
  | destroy {a : JsonArena} {m m' : BlockMem} (h : ArenaLife grants (some a) m)
      (hcall : jsonArenaDestroy a = some m') : ArenaLife grants none m'

/-- What holds at every point of a life. -/
def LifeOk : Option JsonArena → BlockMem → Prop
  | none, m => m.Idle
  | some a, m => a.mem = m ∧ ∃ pre post, ArenaOk a pre post

theorem ArenaLife.ok {grants : ℕ → ℕ → Bool} {res : Option JsonArena} {m : BlockMem}
    (h : ArenaLife grants res m) : LifeOk res m := by
  induction h with
  | start => exact BlockMem.idle_init grants
  | @create m m' res blockSize hsz _ hcall ih =>
    obtain ⟨res', m'', hcreate, hnone, hsome, -⟩ := jsonArenaCreate_spec ih hsz
    obtain ⟨rfl, rfl⟩ : res' = res ∧ m'' = m' := by
      rw [hcall] at hcreate
      simpa [eq_comm] using hcreate
    cases res' with
    | none => exact hnone rfl
    | some a =>
      obtain ⟨hmem, hok, -⟩ := hsome a rfl
      exact ⟨hmem, [], [], hok⟩
  | @alloc a a' _ r size _ hcall ih =>
    obtain ⟨-, pre, post, hok⟩ := ih
    refine ⟨rfl, ?_⟩
    -- a refused request leaves the chain as it is
    rcases hok.alloc size with ⟨m', halloc, hm, -⟩ | ⟨r', a'', pre', post', halloc, hok', -⟩
    · rw [hcall] at halloc
      obtain ⟨-, rfl⟩ : r = none ∧ a' = { a with mem := m' } := by simpa using halloc
      exact ⟨pre, post, hok.unchanged hm⟩
    · rw [hcall] at halloc
      obtain ⟨-, rfl⟩ : r = some r' ∧ a' = a'' := by simpa using halloc
      exact ⟨pre', post', hok'⟩
  | @reset a a' _ _ hcall ih =>
    obtain ⟨-, pre, post, hok⟩ := ih
    obtain ⟨tail, htail⟩ := hok.eq_cons
    obtain ⟨a'', hreset, hok', -⟩ := ChainOk.reset (htail ▸ hok.toChainOk)
    obtain rfl : a' = a'' := Option.some.inj (hcall.symm.trans hreset)
    exact ⟨rfl, [], tail, hok'⟩
  | @trim a a' _ _ hcall ih =>
    obtain ⟨-, pre, post, hok⟩ := ih
    obtain ⟨tail, htail⟩ := hok.eq_cons
    obtain ⟨a'', htrim, hok', -⟩ := ChainOk.trim (htail ▸ hok.toChainOk)
    obtain rfl : a' = a'' := Option.some.inj (hcall.symm.trans htrim)
    exact ⟨rfl, [], [], hok'⟩
  | @destroy a _ m' _ hcall ih =>
    obtain ⟨-, pre, post, hok⟩ := ih
    obtain ⟨m'', hdestroy, hidle⟩ := hok.toChainOk.destroy
    obtain rfl : m' = m'' := Option.some.inj (hcall.symm.trans hdestroy)
    exact hidle

/-- **Blocks are owned.**  While there is no arena, nothing is outstanding: before the
first one, after one was destroyed, and after a `json_arena_create` that returned `NULL`.
While there is one, the outstanding allocations are its header and the blocks that are
reachable from `first`, each once.  No call frees what is not outstanding; after a trim
the header and the first block are outstanding, after a destroy nothing is. -/
theorem jsonArena_ownership (grants : ℕ → ℕ → Bool) (res : Option JsonArena) (m : BlockMem)
    (h : ArenaLife grants res m) :
    (res = none → m.live = [] ∧ ∀ blockSize, blockSize ≤ sizeMax →
      ∃ res' m', jsonArenaCreate m blockSize = some (res', m')) ∧
    ∀ a, res = some a → a.mem = m ∧
      (∃ tail, Linked m.nextOf (a.first :: tail) ∧ m.live.Perm (a.self :: a.first :: tail) ∧
        m.live.Nodup) ∧
      (∀ size, ∃ r a', jsonArenaAllocRaw a size = some (r, a')) ∧
      (∃ a', jsonArenaReset a = some a') ∧
      (∃ a', jsonArenaTrim a = some a' ∧ a'.self = a.self ∧ a'.first = a.first ∧
        a'.mem.nextOf a.first = none ∧ a'.mem.live.Perm [a.self, a.first]) ∧
      ∃ m', jsonArenaDestroy a = some m' ∧ m'.live = [] := by
  have hok := h.ok
  constructor
  · rintro rfl
    refine ⟨hok.live, fun blockSize hsz => ?_⟩
    obtain ⟨res', m', hcreate, -⟩ := jsonArenaCreate_spec hok hsz
    exact ⟨res', m', hcreate⟩
  · rintro a rfl
    obtain ⟨rfl, pre, post, harena⟩ := hok
    obtain ⟨tail, htail⟩ := harena.eq_cons
    have hchain : ChainOk a (a.first :: tail) := htail ▸ harena.toChainOk
    refine ⟨rfl, ⟨tail, hchain.linked, hchain.live, hchain.nodup⟩, fun size => ?_, ?_, ?_, ?_⟩
    · rcases harena.alloc size with ⟨m', halloc, -⟩ | ⟨r, a', pre', post', halloc, -⟩
      · exact ⟨_, _, halloc⟩
      · exact ⟨_, _, halloc⟩
    · obtain ⟨a', hreset, -⟩ := hchain.reset
      exact ⟨a', hreset⟩
    · obtain ⟨a', htrim, hok', hcur, -, -, hself, hfirst⟩ := hchain.trim
      -- what is left of the chain is its first block
      have hcut : Linked a'.mem.nextOf [a.first] := hcur ▸ hok'.linked
      have hlive : a'.mem.live.Perm [a.self, a.first] := by
        have hl := hok'.live
        rwa [hself, JsonArena.chain, hcur] at hl
      exact ⟨a', htrim, hself, hfirst, linked_singleton.mp hcut, hlive⟩
    · obtain ⟨m', hdestroy, hidle⟩ := hchain.destroy
      exact ⟨m', hdestroy, hidle.live⟩

/-- An arena that was created and trimmed once. -/
theorem jsonArena_ownership_trimmed :
    ∃ a m, ArenaLife (fun _ _ => true) (some a) m ∧ ∃ m', jsonArenaDestroy a = some m' ∧
      m'.live = [] := by
  obtain ⟨res, m, hcreate, -, hres, hsome⟩ :=
    jsonArenaCreate_spec (BlockMem.idle_init fun _ _ => true) (Nat.zero_le sizeMax)
  obtain ⟨a, rfl⟩ := Option.isSome_iff_exists.mp (hsome fun _ _ => rfl)
  have hlife : ArenaLife (fun _ _ => true) (some a) m := .create (Nat.zero_le _) .start hcreate
  obtain ⟨a', htrim, -⟩ := (((jsonArena_ownership _ _ _ hlife).2 a rfl).2.2.2.2).1
  have hlife' : ArenaLife (fun _ _ => true) (some a') a'.mem := .trim hlife htrim
  exact ⟨a', a'.mem, hlife', (((jsonArena_ownership _ _ _ hlife').2 a' rfl).2.2.2.2).2⟩

/-! ## What requests ask for -/

/-- A size that no arena grants that has as many bytes in use: the backing allocator is not
asked. -/
def JsonArena.Hopeless (a : JsonArena) (n : ℕ) : Prop :=
  n = 0 ∨ jsonAlignUp n < n ∨ sizeMax < a.totalBytes + jsonAlignUp n ∨
    sizeMax < jsonAlignUp n + 31

/-- What `json__arena_alloc_raw` has asked the backing allocator for: nothing, or one block. -/
inductive Backed (a : JsonArena) (n : ℕ) : Option Region → JsonArena → Prop
  | kept {r : Region} {a' : JsonArena} (hcalls : a'.mem.calls = a.mem.calls)
    (hlive : a'.mem.live = a.mem.live) : Backed a n (some r) a'
  | added {r : Region} {a' : JsonArena} (hcalls : a'.mem.calls = a.mem.calls + 1)
    (hlive : a'.mem.live = a.mem.calls :: a.mem.live) : Backed a n (some r) a'
  | hopeless {a' : JsonArena} (hn : a.Hopeless n) (ha' : a' = a) : Backed a n none a'
  | refused {a' : JsonArena} (hn : ¬ a.Hopeless n) (hcalls : a'.mem.calls = a.mem.calls + 1)
    (hlive : a'.mem.live = a.mem.live) : Backed a n none a'

theorem takeFrom_backed {a a' : JsonArena} {blk : BlockPtr} {n : ℕ} {r : Region}
    (h : takeFrom a blk n = some (r, a')) :
    a'.mem.calls = a.mem.calls ∧ a'.mem.live = a.mem.live := by
  obtain ⟨b, -, heq⟩ := Option.bind_eq_some_iff.mp h
  obtain ⟨-, rfl⟩ := Prod.mk.inj (Option.some.inj heq)
  exact ⟨rfl, rfl⟩

theorem jsonBlockNew_backed {blockSize n : ℕ} {m m' : BlockMem} {p : Option BlockPtr}
    (hn : n ≤ sizeMax) (h : jsonBlockNew blockSize m n = (p, m')) :
    sizeMax < n + 31 ∧ p = none ∧ m' = m ∨
    ¬ sizeMax < n + 31 ∧ m'.calls = m.calls + 1 ∧
      (p = none ∧ m'.live = m.live ∨ p = some m.calls ∧ m'.live = m.calls :: m.live) := by
  have hbig : (n > szSub sizeMax headerSz
      ∨ szAdd n headerSz > sizeMax - (jsonArenaAlign - 1)) ↔ sizeMax < n + 31 := by
    rw [headerSz_eq, szSub_of_le (by decide)]
    unfold szAdd jsonArenaAlign
    unfold sizeMax at *
    omega
  unfold jsonBlockNew at h
  by_cases hlarge : sizeMax < n + 31
  · rw [if_pos (hbig.mpr hlarge)] at h
    obtain ⟨rfl, rfl⟩ := Prod.mk.inj h
    exact .inl ⟨hlarge, rfl, rfl⟩
  rw [if_neg (mt hbig.mp hlarge)] at h
  unfold BlockMem.alloc at h
  by_cases hgrant : m.grants m.calls (blockSz blockSize n) = true
  · rw [if_pos hgrant] at h
    obtain ⟨rfl, rfl⟩ := Prod.mk.inj h
    exact .inr ⟨hlarge, rfl, .inr ⟨rfl, rfl⟩⟩
  · rw [if_neg hgrant] at h
    obtain ⟨rfl, rfl⟩ := Prod.mk.inj h
    exact .inr ⟨hlarge, rfl, .inl ⟨rfl, rfl⟩⟩

theorem jsonArenaAllocRaw_backed {a a' : JsonArena} {n : ℕ} {r : Option Region}
    (htotal : a.totalBytes ≤ sizeMax) (h : jsonArenaAllocRaw a n = some (r, a')) :
    Backed a n r a' := by
  have hsame : ∀ {x : Option (Option Region × JsonArena)}, x = some (none, a) →
      x = some (r, a') → a.Hopeless n → Backed a n r a' := by
    rintro x rfl hx hn
    obtain ⟨rfl, rfl⟩ := Prod.mk.inj (Option.some.inj hx)
    exact .hopeless hn rfl
  -- bytes of a block that is there
  have htake : ∀ {blk : BlockPtr}, ((takeFrom a blk (jsonAlignUp n)).bind
      fun x => some (some x.1, x.2)) = some (r, a') → Backed a n r a' := by
    intro blk hall
    obtain ⟨x, hx, heq⟩ := Option.bind_eq_some_iff.mp hall
    obtain ⟨rfl, rfl⟩ := Prod.mk.inj (Option.some.inj heq)
    obtain ⟨hcalls, hlive⟩ := takeFrom_backed hx
    exact .kept hcalls hlive
  unfold jsonArenaAllocRaw at h
  by_cases h0 : n = 0
  · rw [if_pos h0] at h
    exact hsame rfl h (.inl h0)
  rw [if_neg h0] at h
  by_cases hwrap : jsonAlignUp n < n
  · simp only [if_pos hwrap] at h
    exact hsame rfl h (.inr (.inl hwrap))
  simp only [if_neg hwrap] at h
  by_cases hsum : jsonAlignUp n > sizeMax - a.totalBytes
  · rw [if_pos hsum] at h
    exact hsame rfl h (.inr (.inr (.inl (by omega))))
  rw [if_neg hsum] at h
  simp only [Option.bind_eq_bind, Option.pure_def] at h
  obtain ⟨cur, -, h⟩ := Option.bind_eq_some_iff.mp h
  by_cases hroom : jsonAlignUp n ≤ szSub cur.cap cur.used
  · rw [if_pos hroom] at h
    exact htake h
  rw [if_neg hroom] at h
  obtain ⟨blk, -, h⟩ := Option.bind_eq_some_iff.mp h
  obtain ⟨b, -, h⟩ := Option.bind_eq_some_iff.mp h
  by_cases hfull : jsonAlignUp n > szSub b.cap b.used
  swap
  · rw [if_neg hfull] at h
    exact htake h
  rw [if_pos hfull] at h
  obtain ⟨p, m, hnew⟩ : ∃ p m, jsonBlockNew a.blockSize a.mem (jsonAlignUp n) = (p, m) :=
    ⟨_, _, rfl⟩
  rw [hnew] at h
  rcases jsonBlockNew_backed (by omega) hnew with
    ⟨hlarge, rfl, rfl⟩ | ⟨hsmall, hcalls, ⟨rfl, hlive⟩ | ⟨rfl, hlive⟩⟩
  · obtain ⟨rfl, rfl⟩ := Prod.mk.inj (Option.some.inj h)
    exact .hopeless (.inr (.inr (.inr hlarge))) rfl
  · obtain ⟨rfl, rfl⟩ := Prod.mk.inj (Option.some.inj h)
    refine .refused ?_ hcalls hlive
    rintro (h0' | hwrap' | hsum' | hlarge)
    · exact h0 h0'
    · exact hwrap hwrap'
    · omega
    · exact hsmall hlarge
  · obtain ⟨c, -, h⟩ := Option.bind_eq_some_iff.mp h
    obtain ⟨x, hx, heq⟩ := Option.bind_eq_some_iff.mp h
    obtain ⟨rfl, rfl⟩ := Prod.mk.inj (Option.some.inj heq)
    obtain ⟨hcalls', hlive'⟩ := takeFrom_backed hx
    exact .added (hcalls'.trans hcalls) (hlive'.trans hlive)

/-- What is hopeless is refused, and changes nothing. -/
theorem ArenaOk.alloc_hopeless {a : JsonArena} {pre post : List BlockPtr} (h : ArenaOk a pre post)
    {n : ℕ} (hn : a.Hopeless n) : jsonArenaAllocRaw a n = some (none, a) := by
  rcases h.alloc_served n with ⟨m, halloc, -⟩ |
    ⟨r, a', mid, rest, new, -, hok, -, hserved, htakes⟩
  · cases jsonArenaAllocRaw_backed h.totalLe halloc with
    | hopeless _ heq => rw [halloc, heq]
    | refused hno => exact absurd hn hno
  · -- a block has less than this room
    exfalso
    obtain ⟨c, hc, hle, hcap, -⟩ := hok.blocks r.block htakes.mem
    have hused : c.used = r.off + r.size := by
      rw [← BlockMem.usedOf_eq hc, htakes.used, Function.update_self]
    have hsize := hserved.size
    have hpos := hserved.positive
    have hwrap := hserved.noWrap
    have htotal := hserved.total
    obtain ⟨k, hk⟩ := jsonAlignUp_dvd n
    rw [headerSz_eq] at hcap
    unfold JsonArena.Hopeless at hn
    unfold jsonArenaAlign at hk
    unfold sizeMax at *
    omega

/-! ## Requests after a reset -/

/-- A sequence of requests, and what they return. -/
def allocAll (a : JsonArena) : List ℕ → Option (List (Option Region) × JsonArena)
  | [] => some ([], a)
  | n :: ns => do
    let (r, a) ← jsonArenaAllocRaw a n
    let (rs, a) ← allocAll a ns
    return (r :: rs, a)

theorem allocAll_cons {n : ℕ} {ns : List ℕ} {a a' : JsonArena} {rs : List (Option Region)} :
    allocAll a (n :: ns) = some (rs, a') ↔ ∃ r a₁ rs', jsonArenaAllocRaw a n = some (r, a₁) ∧
      allocAll a₁ ns = some (rs', a') ∧ rs = r :: rs' := by
  rw [allocAll]
  simp only [Option.bind_eq_bind, Option.bind_eq_some_iff, Option.pure_def, Option.some_inj]
  constructor
  · rintro ⟨⟨r, a₁⟩, hn, ⟨rs', a₂⟩, hns, heq⟩
    obtain ⟨rfl, rfl⟩ := Prod.mk.inj heq
    exact ⟨r, a₁, rs', hn, hns, rfl⟩
  · rintro ⟨r, a₁, rs', hn, hns, rfl⟩
    exact ⟨(r, a₁), hn, (rs', a'), hns, rfl⟩

/-- Requests only lengthen the chain, and the blocks keep their sizes. -/
theorem ArenaOk.allocAll_chain {ns : List ℕ} : ∀ {a a' : JsonArena} {pre post : List BlockPtr}
    {rs : List (Option Region)}, ArenaOk a pre post → allocAll a ns = some (rs, a') →
    ∃ pre' post' new, ArenaOk a' pre' post' ∧ a'.chain pre' post' = a.chain pre post ++ new ∧
      ∀ p ∈ a.chain pre post, a'.mem.capOf p = a.mem.capOf p := by
  induction ns with
  | nil =>
    intro a a' pre post rs h hrun
    obtain ⟨-, rfl⟩ : [] = rs ∧ a = a' := by simpa [allocAll] using hrun
    exact ⟨pre, post, [], h, by simp, fun _ _ => rfl⟩
  | cons n ns ih =>
    intro a a' pre post rs h hrun
    rcases h.alloc_served n with ⟨m, halloc, hm, -⟩ |
      ⟨r, a1, mid, rest, new, halloc, hok, hchain, -, htakes⟩
    · -- a refused request
      obtain ⟨rs', hrest⟩ : ∃ rs', allocAll { a with mem := m } ns = some (rs', a') := by
        simp only [allocAll, halloc, Option.bind_eq_bind, Option.bind_some,
          Option.bind_eq_some_iff] at hrun
        obtain ⟨⟨rs', a''⟩, hrest, heq⟩ := hrun
        obtain ⟨-, rfl⟩ : none :: rs' = rs ∧ a'' = a' := by simpa using heq
        exact ⟨rs', hrest⟩
      obtain ⟨pre', post', new, hok, hchain, hcap⟩ := ih (h.unchanged hm) hrest
      refine ⟨pre', post', new, hok, hchain, fun p hp => (hcap p hp).trans ?_⟩
      simp [BlockMem.capOf, hm.1]
    · -- a served request, which adds at most one block
      obtain ⟨rs', hrest⟩ : ∃ rs', allocAll a1 ns = some (rs', a') := by
        simp only [allocAll, halloc, Option.bind_eq_bind, Option.bind_some,
          Option.bind_eq_some_iff] at hrun
        obtain ⟨⟨rs', a''⟩, hrest, heq⟩ := hrun
        obtain ⟨-, rfl⟩ : some r :: rs' = rs ∧ a'' = a' := by simpa using heq
        exact ⟨rs', hrest⟩
      obtain ⟨pre', post', new', hok', hchain', hcap⟩ := ih hok hrest
      refine ⟨pre', post', new ++ new', hok', by rw [hchain', hchain, List.append_assoc],
        fun p hp => ?_⟩
      obtain ⟨b, hb, -⟩ := h.blocks p hp
      rw [hcap p (hchain ▸ List.mem_append_left _ hp), htakes.cap p b hb, BlockMem.capOf_eq hb]

/-- Every call of the backing allocator that was made in between has given memory. -/
def BlockMem.Granted (m m' : BlockMem) : Prop := ∀ k, m.calls ≤ k → k < m'.calls → k ∈ m'.live

/-- Requests add to what is outstanding, and what they add is called by new names. -/
structure BlockMem.Grows (m m' : BlockMem) : Prop where
  calls : m.calls ≤ m'.calls
  live : m.live ⊆ m'.live
  new : ∀ p ∈ m'.live, p ∈ m.live ∨ m.calls ≤ p

theorem BlockMem.Grows.refl (m : BlockMem) : m.Grows m :=
  ⟨le_rfl, List.Subset.refl _, fun _ hp => .inl hp⟩

theorem BlockMem.Grows.trans {m m' m'' : BlockMem} (h : m.Grows m') (h' : m'.Grows m'') :
    m.Grows m'' := by
  refine ⟨h.calls.trans h'.calls, List.Subset.trans h.live h'.live, ?_⟩
  intro p hp
  rcases h'.new p hp with hp' | hp'
  · exact h.new p hp'
  · exact .inr (h.calls.trans hp')

theorem Backed.grows {a a' : JsonArena} {n : ℕ} {r : Option Region} (h : Backed a n r a') :
    a.mem.Grows a'.mem := by
  have hold : ∀ {k}, a'.mem.calls = a.mem.calls + k → a'.mem.live = a.mem.live →
      a.mem.Grows a'.mem := by
    intro k hcalls hlive
    exact ⟨by omega, hlive ▸ List.Subset.refl _, fun p hp => .inl (hlive ▸ hp)⟩
  cases h with
  | kept hcalls hlive => exact hold (k := 0) hcalls hlive
  | hopeless _ heq => exact heq ▸ .refl _
  | refused _ hcalls hlive => exact hold hcalls hlive
  | added hcalls hlive =>
    refine ⟨by omega, hlive ▸ List.subset_cons_self _ _, ?_⟩
    intro p hp
    rcases List.mem_cons.mp (hlive ▸ hp) with rfl | hp'
    · exact .inr le_rfl
    · exact .inl hp'

theorem ArenaOk.alloc_backed {a a' : JsonArena} {pre post : List BlockPtr} {n : ℕ}
    {r : Option Region} (h : ArenaOk a pre post) (halloc : jsonArenaAllocRaw a n = some (r, a')) :
    Backed a n r a' ∧ ∃ pre' post', ArenaOk a' pre' post' := by
  refine ⟨jsonArenaAllocRaw_backed h.totalLe halloc, ?_⟩
  rcases h.alloc n with ⟨m, halloc', hm, -⟩ | ⟨r', a₁, pre', post', halloc', hok, -⟩
  · obtain ⟨-, rfl⟩ := Prod.mk.inj (Option.some.inj (halloc.symm.trans halloc'))
    exact ⟨pre, post, h.unchanged hm⟩
  · obtain ⟨-, rfl⟩ := Prod.mk.inj (Option.some.inj (halloc.symm.trans halloc'))
    exact ⟨pre', post', hok⟩

theorem ArenaOk.allocAll_grows {ns : List ℕ} : ∀ {a a' : JsonArena} {pre post : List BlockPtr}
    {rs : List (Option Region)}, ArenaOk a pre post → allocAll a ns = some (rs, a') →
    a.mem.Grows a'.mem := by
  induction ns with
  | nil =>
    intro a a' pre post rs _ hrun
    obtain ⟨-, rfl⟩ := Prod.mk.inj (Option.some.inj hrun)
    exact .refl _
  | cons n ns ih =>
    intro a a' pre post rs h hrun
    obtain ⟨r, a₁, rs', halloc, hrest, -⟩ := allocAll_cons.mp hrun
    obtain ⟨hbacked, pre', post', hok⟩ := h.alloc_backed halloc
    exact hbacked.grows.trans (ih hok hrest)

/-- Requests that all succeed were given every block that they asked for. -/
theorem ArenaOk.allocAll_granted {ns : List ℕ} : ∀ {a a' : JsonArena} {pre post : List BlockPtr}
    {rs : List (Option Region)}, ArenaOk a pre post → allocAll a ns = some (rs, a') →
    (∀ r ∈ rs, r.isSome) → a.mem.Granted a'.mem := by
  induction ns with
  | nil =>
    intro a a' pre post rs _ hrun _ k hle hlt
    obtain ⟨-, rfl⟩ := Prod.mk.inj (Option.some.inj hrun)
    exact absurd hle (not_le.mpr hlt)
  | cons n ns ih =>
    intro a a' pre post rs h hrun hall k hle hlt
    obtain ⟨r, a₁, rs', halloc, hrest, rfl⟩ := allocAll_cons.mp hrun
    obtain ⟨hsome, hall'⟩ := List.forall_mem_cons.mp hall
    obtain ⟨hbacked, pre', post', hok⟩ := h.alloc_backed halloc
    by_cases hk : a₁.mem.calls ≤ k
    · exact ih hok hrest hall' k hk hlt
    -- the call was made for the first of the requests
    cases hbacked with
    | kept hcalls _ => exact absurd (hcalls.trans_le hle) hk
    | added hcalls hlive =>
      obtain rfl : k = a.mem.calls := by omega
      exact (hok.allocAll_grows hrest).live (hlive ▸ List.mem_cons_self)
    | hopeless _ _ => cases hsome
    | refused _ _ _ => cases hsome

/-- What was refused without a call would be refused again. -/
theorem Backed.hopeless_of_granted {a a₁ a' : JsonArena} {pre post : List BlockPtr} {n : ℕ}
    (hbacked : Backed a n none a₁) (h : ArenaOk a pre post) (hgrows : a₁.mem.Grows a'.mem)
    (hgranted : a.mem.Granted a'.mem) : a.Hopeless n ∧ a₁ = a := by
  cases hbacked with
  | hopeless hn heq => exact ⟨hn, heq⟩
  | refused _ hcalls hlive =>
    -- the name of the refused call is that of no block
    have hlt := hgrows.calls
    rcases hgrows.new _ (hgranted a.mem.calls le_rfl (by omega)) with hold | hnew
    · exact absurd (hlive ▸ hold) (h.fresh _ le_rfl).2
    · omega

/-- A list is cut in one way only at its first member with a property. -/
theorem first_unique {α : Type} {P : α → Prop} :
    ∀ {mid mid' rest rest' : List α} {x x' : α}, mid ++ x :: rest = mid' ++ x' :: rest' →
      (∀ p ∈ mid, ¬ P p) → P x → (∀ p ∈ mid', ¬ P p) → P x' →
      mid = mid' ∧ x = x' ∧ rest = rest' := by
  intro mid
  induction mid with
  | nil =>
    intro mid' rest rest' x x' heq _ hx hmid' _
    cases mid' with
    | nil => simpa using heq
    | cons y mid' =>
      obtain ⟨rfl, -⟩ : x = y ∧ rest = mid' ++ x' :: rest' := by simpa using heq
      exact absurd hx (hmid' _ List.mem_cons_self)
  | cons y mid ih =>
    intro mid' rest rest' x x' heq hmid hx hmid' hx'
    cases mid' with
    | nil =>
      obtain ⟨rfl, -⟩ : y = x' ∧ mid ++ x :: rest = rest' := by simpa using heq
      exact absurd hx' (hmid _ List.mem_cons_self)
    | cons y' mid' =>
      obtain ⟨rfl, hrest⟩ : y = y' ∧ mid ++ x :: rest = mid' ++ x' :: rest' := by simpa using heq
      obtain ⟨rfl, rfl, rfl⟩ := ih hrest (fun p hp => hmid p (List.mem_cons_of_mem _ hp)) hx
        (fun p hp => hmid' p (List.mem_cons_of_mem _ hp)) hx'
      exact ⟨rfl, rfl, rfl⟩

/-- `b` is where `a` is, on a chain with the blocks `extra` behind that of `a`. -/
structure Ahead (a b : JsonArena) (pre post extra : List BlockPtr) : Prop where
  left : ArenaOk a pre post
  right : ArenaOk b pre (post ++ extra)
  current : b.current = a.current
  used : ∀ p ∈ a.chain pre post, b.mem.usedOf p = a.mem.usedOf p
  cap : ∀ p ∈ a.chain pre post, b.mem.capOf p = a.mem.capOf p
  total : b.totalBytes = a.totalBytes

/-- The block that serves a request becomes the current one. -/
theorem Served.current {a a' : JsonArena} {pre post mid rest new : List BlockPtr} {n : ℕ}
    {r : Region} (h : Served a post n r a' mid rest new)
    (hchain : a'.chain (pre ++ mid) rest = a.chain pre post ++ new) : a'.current = r.block := by
  have heq : (pre ++ mid) ++ a'.current :: rest = (pre ++ mid) ++ r.block :: rest := by
    rw [JsonArena.chain, JsonArena.chain, List.append_assoc pre (a.current :: post),
      List.cons_append, h.split] at hchain
    rw [hchain, List.append_assoc]
  exact (List.cons.inj (List.append_cancel_left heq)).1

/-- The blocks of the shorter chain have as much room on the longer one. -/
theorem Ahead.hasRoom_iff {a b : JsonArena} {pre post extra : List BlockPtr}
    (h : Ahead a b pre post extra) {p : BlockPtr} (hp : p ∈ a.chain pre post) (sz : ℕ) :
    b.mem.HasRoom sz p ↔ a.mem.HasRoom sz p := by
  rw [BlockMem.HasRoom, BlockMem.HasRoom, h.used p hp, h.cap p hp]

/-- The block that serves a request on the shorter chain has room on the longer one, and as
much of it is used; what is passed over is on the shorter chain. -/
theorem Ahead.place {a b a' : JsonArena} {pre post extra extra' mid rest new : List BlockPtr}
    {n : ℕ} {r : Region} (h : Ahead a b pre post extra)
    (hserved : Served a post n r a' mid rest new)
    (htakes : Takes a r a' (a'.chain (pre ++ mid) rest)) (hok' : ArenaOk a' (pre ++ mid) rest)
    (hextra : extra = new ++ extra') (hcap : ∀ p ∈ new, b.mem.capOf p = a'.mem.capOf p) :
    (∀ p ∈ mid, p ∈ a.chain pre post) ∧ b.mem.usedOf r.block = r.off ∧
      b.mem.HasRoom (jsonAlignUp n) r.block := by
  have hs := hserved.split
  rcases hserved.source with ⟨hnew, hfits, -⟩ | ⟨hnew, hrest, hoff⟩
  · rw [hnew, List.append_nil] at hs
    have hmem : ∀ p ∈ mid ++ r.block :: rest, p ∈ a.chain pre post := fun p hp =>
      List.mem_append_right pre (hs ▸ hp)
    have hr := hmem r.block (by simp)
    refine ⟨fun p hp => hmem p (List.mem_append_left _ hp), ?_, (h.hasRoom_iff hr _).mpr hfits⟩
    rw [h.used _ hr, htakes.off]
  · have hlast : a.current :: post = mid := by
      rw [hnew, hrest, ← List.cons_append] at hs
      exact List.append_cancel_right hs
    have hempty : b.mem.usedOf r.block = 0 := h.right.empty _ (by simp [hextra, hnew])
    refine ⟨fun p hp => List.mem_append_right pre (hlast ▸ hp), hempty.trans hoff.symm, ?_⟩
    obtain ⟨c, hc, hle, -⟩ := hok'.blocks r.block htakes.mem
    have hused : c.used = r.off + r.size := by
      rw [← BlockMem.usedOf_eq hc, htakes.used, Function.update_self]
    have hsize := hserved.size
    rw [BlockMem.HasRoom, hempty, hcap r.block (by simp [hnew]), BlockMem.capOf_eq hc]
    omega

/-- A request that the shorter chain serves is served from the same place of the longer one. -/
theorem Ahead.served {a b a' : JsonArena} {pre post extra extra' mid rest new : List BlockPtr}
    {n : ℕ} {r : Region} (h : Ahead a b pre post extra)
    (hserved : Served a post n r a' mid rest new)
    (htakes : Takes a r a' (a'.chain (pre ++ mid) rest)) (hok' : ArenaOk a' (pre ++ mid) rest)
    (hextra : extra = new ++ extra') (hcap : ∀ p ∈ new, b.mem.capOf p = a'.mem.capOf p) :
    ∃ b', jsonArenaAllocRaw b n = some (some r, b') ∧ b'.mem.calls = b.mem.calls ∧
      ArenaOk b' (pre ++ mid) (rest ++ extra') ∧ b'.current = r.block ∧
      b'.chain (pre ++ mid) (rest ++ extra') = b.chain pre (post ++ extra) ∧
      Takes b r b' (b.chain pre (post ++ extra)) := by
  obtain ⟨hmid, husedR, hroomR⟩ := h.place hserved htakes hok' hextra hcap
  have hsplit : b.current :: (post ++ extra) = mid ++ r.block :: (rest ++ extra') := by
    rw [h.current, hextra, ← List.append_assoc, ← List.cons_append, hserved.split,
      List.append_assoc, List.cons_append]
  have hskipped : ∀ p ∈ mid, ¬ b.mem.HasRoom (jsonAlignUp n) p := fun p hp hr =>
    hserved.skipped p hp ((h.hasRoom_iff (hmid p hp) _).mp hr)
  have hmemR : r.block ∈ b.current :: (post ++ extra) := by
    rw [hsplit]
    simp
  rcases h.right.alloc_served n with ⟨m, -, -, href, -⟩ |
    ⟨rb, b', midb, restb, newb, halloc, hokb, hchainb, hservedb, htakesb⟩
  · -- there is no reason to refuse it
    have hpos := hserved.positive
    have hwrap := hserved.noWrap
    have htotal := hserved.total
    rw [← h.total] at htotal
    rcases href with h0 | h1 | h2 | h3
    · omega
    · omega
    · omega
    · exact absurd hroomR (h3 _ hmemR)
  · have hsplitb := hservedb.split
    obtain ⟨rfl, hroomb, hcallsb⟩ :
        newb = [] ∧ b.mem.HasRoom (jsonAlignUp n) rb.block ∧ b'.mem.calls = b.mem.calls := by
      -- a new block would be behind the block of `r`, which has room
      refine hservedb.source.resolve_right fun hgrown => ?_
      rw [hgrown.1, hgrown.2.1, ← List.cons_append] at hsplitb
      exact hservedb.skipped _ (List.append_cancel_right hsplitb ▸ hmemR) hroomR
    rw [List.append_nil, hsplit] at hsplitb
    obtain ⟨rfl, hblock, rfl⟩ := first_unique hsplitb hskipped hroomR hservedb.skipped hroomb
    obtain rfl : r = rb := by
      have hoff : rb.off = r.off := by rw [htakesb.off, ← hblock, husedR]
      have hsize : rb.size = r.size := hservedb.size.trans hserved.size.symm
      cases r
      cases rb
      simp_all
    have hcurb := hservedb.current hchainb
    rw [List.append_nil] at hchainb
    exact ⟨b', halloc, hcallsb, hokb, hcurb, hchainb, hchainb ▸ htakesb⟩

/-- **The step of a replay**: a request that the shorter chain serves keeps the longer one
ahead; a block that the shorter chain gets for it is the next one of the longer chain. -/
theorem Ahead.alloc {a b a' : JsonArena} {pre post extra extra' mid rest new : List BlockPtr}
    {n : ℕ} {r : Region} (h : Ahead a b pre post extra)
    (hserved : Served a post n r a' mid rest new)
    (htakes : Takes a r a' (a'.chain (pre ++ mid) rest)) (hok' : ArenaOk a' (pre ++ mid) rest)
    (hchain : a'.chain (pre ++ mid) rest = a.chain pre post ++ new) (hextra : extra = new ++ extra')
    (hcap : ∀ p ∈ new, b.mem.capOf p = a'.mem.capOf p) :
    ∃ b', jsonArenaAllocRaw b n = some (some r, b') ∧ b'.mem.calls = b.mem.calls ∧
      Ahead a' b' (pre ++ mid) rest extra' ∧
      b'.chain (pre ++ mid) (rest ++ extra') = b.chain pre (post ++ extra) ∧
      ∀ p ∈ b.chain pre (post ++ extra), b'.mem.capOf p = b.mem.capOf p := by
  obtain ⟨b', halloc, hcallsb, hokb, hcurb, hchainb, htakesb⟩ :=
    h.served hserved htakes hok' hextra hcap
  have hcapb : ∀ p ∈ b.chain pre (post ++ extra), b'.mem.capOf p = b.mem.capOf p := fun p hp => by
    obtain ⟨c, hc, -⟩ := h.right.blocks p hp
    rw [htakesb.cap p c hc, BlockMem.capOf_eq hc]
  have hold : ∀ p ∈ a.chain pre post, p ∈ b.chain pre (post ++ extra) := fun p hp => by
    simp only [JsonArena.chain, h.current, List.mem_append, List.mem_cons] at hp ⊢
    tauto
  -- a block that the shorter chain gets is the one that serves
  have hnewR : ∀ p ∈ new, p = r.block := fun p hp => by
    rcases hserved.source with ⟨hnew, -⟩ | ⟨hnew, -⟩
    · simp [hnew] at hp
    · simpa [hnew] using hp
  refine ⟨b', halloc, hcallsb, ⟨hok', hokb, ?_, fun p hp => ?_, fun p hp => ?_, ?_⟩, hchainb, hcapb⟩
  · rw [hcurb, hserved.current hchain]
  · rw [htakes.used, htakesb.used]
    by_cases hpr : p = r.block
    · rw [hpr, Function.update_self, Function.update_self]
    · rw [Function.update_of_ne hpr, Function.update_of_ne hpr]
      rw [hchain] at hp
      rcases List.mem_append.mp hp with hp | hp
      · exact h.used p hp
      · exact absurd (hnewR p hp) hpr
  · rw [hchain] at hp
    rcases List.mem_append.mp hp with hp | hp
    · obtain ⟨c, hc, -⟩ := h.left.blocks p hp
      rw [hcapb p (hold p hp), h.cap p hp, htakes.cap p c hc, BlockMem.capOf_eq hc]
    · have hin : p ∈ b.chain pre (post ++ extra) := by simp [JsonArena.chain, hextra, hp]
      rw [hcapb p hin, hcap p hp]
  · rw [htakesb.total, htakes.total, h.total]

/-- A sequence of requests on the shorter chain, for which every call of the backing allocator gave
memory, ending with the blocks of the longer one: they are served from the same places of the
longer chain, and refused where they were. -/
theorem Ahead.allocAll {ns : List ℕ} : ∀ {a b a' : JsonArena}
    {pre post extra pre' post' : List BlockPtr}
    {rs : List (Option Region)}, Ahead a b pre post extra → allocAll a ns = some (rs, a') →
    a.mem.Granted a'.mem → ArenaOk a' pre' post' →
    a'.chain pre' post' = b.chain pre (post ++ extra) →
    (∀ p ∈ b.chain pre (post ++ extra), b.mem.capOf p = a'.mem.capOf p) →
    ∃ b', SJson.allocAll b ns = some (rs, b') ∧ b'.mem.calls = b.mem.calls := by
  induction ns with
  | nil =>
    intro a b a' pre post extra pre' post' rs _ hrun _ _ _ _
    obtain ⟨rfl, -⟩ : [] = rs ∧ a = a' := by simpa [SJson.allocAll] using hrun
    exact ⟨b, rfl, rfl⟩
  | cons n ns ih =>
    intro a b a' pre post extra pre' post' rs h hrun hgranted hok' hchain' hcap'
    obtain ⟨r, a1, rs', hfirst, hrest, rfl⟩ := allocAll_cons.mp hrun
    obtain ⟨hbacked, _, _, hafter⟩ := h.left.alloc_backed hfirst
    have hgrows := hafter.allocAll_grows hrest
    rcases h.left.alloc_served n with ⟨m, halloc, -⟩ |
      ⟨r', a1', mid, rest, new, halloc, hok, hchain, hserved, htakes⟩
    · -- what was refused is hopeless
      obtain ⟨rfl, -⟩ := Prod.mk.inj (Option.some.inj (hfirst.symm.trans halloc))
      obtain ⟨hn, rfl⟩ := hbacked.hopeless_of_granted h.left hgrows hgranted
      obtain ⟨b', hrun', hcalls⟩ := ih h hrest hgranted hok' hchain' hcap'
      have hnb : b.Hopeless n := by
        unfold JsonArena.Hopeless at hn ⊢
        rwa [h.total]
      exact ⟨b', allocAll_cons.mpr ⟨_, b, rs', h.right.alloc_hopeless hnb, hrun', rfl⟩, hcalls⟩
    · obtain ⟨rfl, rfl⟩ := Prod.mk.inj (Option.some.inj (hfirst.symm.trans halloc))
      obtain ⟨pre1, post1, new1, hok1, hchain1, hcap1⟩ := hok.allocAll_chain hrest
      -- the blocks behind those of `a` are the new one and those that come later
      have hsame : a'.chain pre1 post1 = a'.chain pre' post' :=
        hok1.linked.eq_of_head hok'.linked (hok1.first.trans hok'.first.symm)
      have hextra : extra = new ++ new1 := by
        have hlong : a.chain pre post ++ (new ++ new1) = a.chain pre post ++ extra := by
          rw [← List.append_assoc, ← hchain, ← hchain1, hsame, hchain']
          simp [JsonArena.chain, h.current]
        exact (List.append_cancel_left hlong).symm
      have hcapNew : ∀ p ∈ new, b.mem.capOf p = a1.mem.capOf p := fun p hp => by
        have hin : p ∈ b.chain pre (post ++ extra) := by
          simp [JsonArena.chain, hextra, hp]
        rw [hcap' p hin, hcap1 p (hchain ▸ List.mem_append_right _ hp)]
      obtain ⟨b1, hallocb, hcalls, hahead, hchainb, hcapb⟩ :=
        h.alloc hserved htakes hok hchain hextra hcapNew
      have hgranted' : a1.mem.Granted a'.mem := fun k hle =>
        hgranted k (hbacked.grows.calls.trans hle)
      obtain ⟨b', hrun', hcalls'⟩ := ih hahead hrest hgranted' hok' (hchain'.trans hchainb.symm)
        (fun p hp => by
          rw [hchainb] at hp
          rw [hcapb p hp, hcap' p hp])
      exact ⟨b', allocAll_cons.mpr ⟨_, b1, rs', hallocb, hrun', rfl⟩, hcalls'.trans hcalls⟩

/-- A reset puts an arena behind the start of the next run where it was before the last one, on
a chain with the blocks that this one has added. -/
theorem ArenaOk.reset_ahead {a a' : JsonArena} {tail pre post new : List BlockPtr}
    (hok : ArenaOk a [] tail) (hcur : a.current = a.first) (hzero : a.totalBytes = 0)
    (hok' : ArenaOk a' pre post) (hchain : a'.chain pre post = a.chain [] tail ++ new)
    (hcap : ∀ p ∈ a.chain [] tail, a'.mem.capOf p = a.mem.capOf p) :
    ∃ b, jsonArenaReset a' = some b ∧ Ahead a b [] tail new ∧
      a'.chain pre post = b.chain [] (tail ++ new) ∧ b.mem.calls = a'.mem.calls ∧
      b.mem.capOf = a'.mem.capOf := by
  have hstart : a.chain [] tail = a.first :: tail := by rw [JsonArena.chain, hcur, List.nil_append]
  have hfirst : a'.first = a.first := by
    have hhead := hok'.first
    rw [hchain, hstart] at hhead
    exact (Option.some.inj hhead).symm
  have hchain' : a'.chain pre post = a'.first :: (tail ++ new) := by
    rw [hchain, hstart, hfirst, List.cons_append]
  obtain ⟨b, hreset, hokb, hcurb, hzerob, -, -, -, -, hcallsb, hcapb⟩ :=
    ChainOk.reset (hchain' ▸ hok'.toChainOk)
  have hunused : ∀ {x : JsonArena} {l : List BlockPtr}, ArenaOk x [] l → x.totalBytes = 0 →
      ∀ p ∈ x.chain [] l, x.mem.usedOf p = 0 := by
    intro x l hx hx0 p hp
    have hle := hx.used_le_total hp
    omega
  have hcurrent : b.current = a.current := by rw [hcurb, hfirst, hcur]
  have hsub : ∀ p ∈ a.chain [] tail, p ∈ b.chain [] (tail ++ new) := by
    intro p hp
    rw [JsonArena.chain, hcurrent, List.nil_append, ← List.cons_append]
    exact List.mem_append_left _ hp
  refine ⟨b, hreset, ⟨hok, hokb, hcurrent, ?_, ?_, hzerob.trans hzero.symm⟩, ?_, hcallsb, hcapb⟩
  · intro p hp
    rw [hunused hokb hzerob p (hsub p hp), hunused hok hzero p hp]
  · intro p hp
    rw [hcapb, hcap p hp]
  · rw [hchain', JsonArena.chain, hcurb, List.nil_append]

/-- **Replay after a reset.**  Whatever happened to an arena: where all of a sequence of
requests succeed after a reset, the same requests after another reset all succeed and
return the same places, and the backing allocator is not called. -/
theorem jsonArena_replay (grants : ℕ → ℕ → Bool) (a : JsonArena) (m : BlockMem)
    (h : ArenaLife grants (some a) m) (sizes : List ℕ) (a1 a2 : JsonArena)
    (rs : List (Option Region))
    (hreset : jsonArenaReset a = some a1) (hrun : allocAll a1 sizes = some (rs, a2))
    (hall : ∀ r ∈ rs, r.isSome) :
    ∃ a3 a4, jsonArenaReset a2 = some a3 ∧ allocAll a3 sizes = some (rs, a4) ∧
      a3.mem.calls = a2.mem.calls ∧ a4.mem.calls = a2.mem.calls := by
  obtain ⟨-, pre, post, hok⟩ := h.ok
  obtain ⟨tail, htail⟩ := hok.eq_cons
  obtain ⟨a1', hreset', hok1, hcur1, htotal1, -, -, -, hfirst1, -, -⟩ :=
    ChainOk.reset (htail ▸ hok.toChainOk)
  obtain rfl : a1 = a1' := Option.some.inj (hreset.symm.trans hreset')
  obtain ⟨pre2, post2, new, hok2, hchain2, hcap2⟩ := hok1.allocAll_chain hrun
  -- the chain behind the second run is that of the first, and more
  obtain ⟨a3, hreset3, hahead, hchain3, hcalls3, hcap3⟩ :=
    hok1.reset_ahead (hcur1.trans hfirst1.symm) htotal1 hok2 hchain2 hcap2
  obtain ⟨a4, hrun4, hcalls4⟩ := hahead.allocAll hrun (hok1.allocAll_granted hrun hall) hok2 hchain3
    fun p _ => congrFun hcap3 p
  exact ⟨a3, a4, hreset3, hrun4, hcalls3, hcalls4.trans hcalls3⟩

/-- One request larger than a block of the smallest size, with a backing allocator that
never fails. -/
theorem jsonArena_replay_grown :
    ∃ a m a1 a2 rs a3 a4, ArenaLife (fun _ _ => true) (some a) m ∧ jsonArenaReset a = some a1 ∧
      allocAll a1 [5000] = some (rs, a2) ∧ jsonArenaReset a2 = some a3 ∧
      allocAll a3 [5000] = some (rs, a4) ∧ a4.mem.calls = a2.mem.calls := by
  obtain ⟨res, m, hcreate, -, hres, hsome⟩ :=
    jsonArenaCreate_spec (BlockMem.idle_init fun _ _ => true) (Nat.zero_le sizeMax)
  obtain ⟨a, rfl⟩ := Option.isSome_iff_exists.mp (hsome fun _ _ => rfl)
  have hlife : ArenaLife (fun _ _ => true) (some a) m := .create (Nat.zero_le _) .start hcreate
  obtain ⟨-, hok, -, -, hgrants⟩ := hres a rfl
  obtain ⟨tail, htail⟩ := hok.eq_cons
  obtain ⟨a1, hreset, hok1, -, htotal1, -, hgrants1, -⟩ := ChainOk.reset (htail ▸ hok.toChainOk)
  rcases hok1.alloc 5000 with ⟨m', -, -, hfail⟩ | ⟨r, a2, -, -, halloc, -⟩
  · have hall : ∀ k sz, a1.mem.grants k sz = true := fun k sz => by
      rw [hgrants1, hgrants]
      rfl
    have hbig := hfail hall
    rw [htotal1] at hbig
    unfold sizeMax at hbig
    omega
  · have hrun : allocAll a1 [5000] = some ([some r], a2) := by simp [allocAll, halloc]
    obtain ⟨a3, a4, hreset3, hrun4, -, hcalls⟩ :=
      jsonArena_replay _ a m hlife [5000] a1 a2 [some r] hreset hrun (by simp)
    exact ⟨a, m, a1, a2, [some r], a3, a4, hlife, hreset, hrun, hreset3, hrun4, hcalls⟩

end SJson
