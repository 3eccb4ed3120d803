/-
# The invariant of the cJSON layer

Wrappers and owners are handles and counted resources (`RefCount.Counted`), every owner has
an arena that is not destroyed and every arena that is not destroyed has one owner, and a
wrapper points into the arena of its owner (`CompatOk`).  Each thing that a call can do to
the wrappers, the owners and the arenas keeps the invariant.
-/
import SJson.Compat
import SJson.LookupSpec
import SJson.Lib.RefCount

namespace SJson

open RefCount Function

variable {D : Type}

/-! ## The invariant -/

namespace CompatState

/-- The wrappers of the document that has this arena. -/
def wrappersOf (w : CompatState D) (arena : ArenaPtr) : Set CAddr :=
  {p | ∃ c, w.items p = some c ∧ c.arena = arena}

/-- The owner that a wrapper holds. -/
def own (w : CompatState D) : CAddr → Option CAddr := Option.map CJSON.owner ∘ w.items

/-- The counter of an owner. -/
def count (w : CompatState D) : CAddr → Option ℕ :=
  Option.map (fun o => o.references.toNat) ∘ w.owners

/-- The arena of an owner. -/
def arenaOf (w : CompatState D) : CAddr → Option ArenaPtr :=
  Option.map SjsonCjsonOwner.arena ∘ w.owners

variable {w : CompatState D} {p q : CAddr}

theorem own_of {c : CJSON D} (hc : w.items p = some c) : w.own p = some c.owner := by
  rw [own, comp_apply, hc, Option.map_some]

theorem count_of {o : SjsonCjsonOwner} (ho : w.owners q = some o) :
    w.count q = some o.references.toNat := by
  rw [count, comp_apply, ho, Option.map_some]

theorem arenaOf_eq_some {k : ArenaPtr} :
    w.arenaOf q = some k ↔ ∃ o, w.owners q = some o ∧ o.arena = k := by
  rw [arenaOf, comp_apply, Option.map_eq_some_iff]

theorem arenaOf_of {o : SjsonCjsonOwner} (ho : w.owners q = some o) :
    w.arenaOf q = some o.arena := arenaOf_eq_some.mpr ⟨o, ho, rfl⟩

end CompatState

/-- A wrapper in order: its owner is there and has its arena, and its value is a node of
that arena, which is not destroyed. -/
structure CJSON.Ok (w : CompatState D) (c : CJSON D) : Prop where
  owner : w.arenaOf c.owner = some c.arena
  value : ∀ v, c.value = some v → v.arena = c.arena ∧ ∃ h, w.nodesOf v = some h

/-- **The invariant.** -/
structure CompatOk (w : CompatState D) : Prop where
  null : w.items 0 = none
  counted : Counted w.own w.count
  item : ∀ p c, w.items p = some c → c.Ok w
  owner : ∀ q k, w.arenaOf q = some k → ∃ s, w.arenaAt k = some s
  inj : ∀ q q' k, w.arenaOf q = some k → w.arenaOf q' = some k → q = q'
  arena : ∀ k s, w.arenaAt k = some s → s.heap.RepOk ∧ ∃ q, w.arenaOf q = some k
  gone : ∀ (k : ArenaPtr) m, w.arenas[k]? = some (ArenaCell.gone m) → m.live = []

theorem CompatOk.init : CompatOk (CompatState.init : CompatState D) where
  null := rfl
  counted := ⟨fun q => by simp [CompatState.count, CompatState.own, CompatState.init, holders],
    fun q => by simp [CompatState.count, CompatState.init]⟩
  item := by simp [CompatState.init]
  owner := by simp [CompatState.init, CompatState.arenaOf]
  inj := by simp [CompatState.init, CompatState.arenaOf]
  arena := by simp [CompatState.init, CompatState.arenaAt]
  gone := by simp [CompatState.init]

/-! ## Arenas -/

namespace CompatState

variable {w : CompatState D} {k : ArenaPtr}

theorem arenaAt_eq_some {s : St D} : w.arenaAt k = some s ↔ w.arenas[k]? = some (.live s) := by
  unfold arenaAt
  split
  · rename_i s' hs'
    rw [hs']
    simp
  · rename_i hne
    exact ⟨fun h => (by cases h), fun h => absurd h (hne s)⟩

theorem lt_of_arenaAt {s : St D} (h : w.arenaAt k = some s) : k < w.arenas.length :=
  (List.getElem?_eq_some_iff.mp (arenaAt_eq_some.mp h)).1

theorem addArena_lt (cell : ArenaCell D) (hk : k < w.arenas.length) :
    (w.addArena cell).arenas[k]? = w.arenas[k]? := List.getElem?_append_left hk

@[simp]
theorem addArena_self (cell : ArenaCell D) :
    (w.addArena cell).arenas[w.arenas.length]? = some cell := by
  simp [addArena]

/-- The arenas that were there are still there. -/
theorem arenaAt_addArena {s : St D} (cell : ArenaCell D) (h : w.arenaAt k = some s) :
    (w.addArena cell).arenaAt k = some s := by
  rw [arenaAt_eq_some, addArena_lt cell (lt_of_arenaAt h)]
  exact arenaAt_eq_some.mp h

/-- An arena is what its cell says. -/
theorem arenaAt_congr {v : CompatState D} {k' : ArenaPtr} (h : v.arenas[k']? = w.arenas[k]?) :
    v.arenaAt k' = w.arenaAt k := by
  unfold arenaAt
  rw [h]

/-- The arenas after one of them was replaced. -/
theorem arenaAt_set (hk : k < w.arenas.length) (cell : ArenaCell D) (k' : ArenaPtr) :
    CompatState.arenaAt { w with arenas := w.arenas.set k cell } k' =
      if k' = k then (match cell with | .live s => some s | .gone _ => none) else w.arenaAt k' := by
  by_cases h : k' = k
  · have hcell : ({ w with arenas := w.arenas.set k cell } : CompatState D).arenas[k]? =
      some cell :=
      List.getElem?_set_self hk
    rw [if_pos h, h]
    unfold arenaAt
    rw [hcell]
    cases cell <;> rfl
  · rw [if_neg h]
    exact arenaAt_congr (List.getElem?_set_ne (Ne.symm h))

/-- The arenas after one more was made. -/
theorem arenaAt_add {k' : ArenaPtr} (cell : ArenaCell D) :
    (w.addArena cell).arenaAt k' =
      if k' = w.arenas.length then (match cell with | .live s => some s | .gone _ => none)
      else w.arenaAt k' := by
  unfold arenaAt
  by_cases h : k' = w.arenas.length
  · rw [if_pos h, h, addArena_self]
    cases cell <;> rfl
  · rw [if_neg h]
    rcases Nat.lt_or_ge k' w.arenas.length with hlt | hge
    · rw [addArena_lt cell hlt]
    · rw [List.getElem?_eq_none hge, List.getElem?_eq_none]
      rw [addArena, List.length_append, List.length_singleton]
      exact Nat.succ_le_of_lt (lt_of_le_of_ne hge (Ne.symm h))

theorem arenaAt_length : w.arenaAt w.arenas.length = none := by
  unfold arenaAt
  rw [List.getElem?_eq_none le_rfl]

theorem nodesOf_eq_some {v : ValueRef} {h : Heap D} :
    w.nodesOf v = some h ↔ ∃ s, w.arenaAt v.arena = some s ∧ v.node < s.heap.next ∧ s.heap = h := by
  unfold nodesOf
  cases hs : w.arenaAt v.arena with
  | none => simp
  | some s => simp

end CompatState

/-- An arena is made from memory of which nothing is outstanding, or nothing stays behind. -/
theorem Arena.create_none {grants : ℕ → ℕ → Bool} {blockSize : ℕ} {hsz : blockSize ≤ sizeMax}
    {m : BlockMem} (h : Arena.create grants blockSize hsz = (none, m)) : m.live = [] := by
  obtain ⟨res, m', hcreate, hnone, -⟩ := jsonArenaCreate_spec (BlockMem.idle_init grants) hsz
  unfold Arena.create at h
  split at h
  · cases h
  · rename_i m'' hcall
    rw [hcall] at hcreate
    obtain ⟨rfl, rfl⟩ : none = res ∧ m'' = m' := by simpa using hcreate
    obtain ⟨-, rfl⟩ := Prod.mk.inj h
    exact (hnone rfl).live
  · rename_i hcall
    rw [hcall] at hcreate
    cases hcreate

/-- Where memory is granted, an arena is made. -/
theorem Arena.create_granted {grants : ℕ → ℕ → Bool} {blockSize : ℕ} (hsz : blockSize ≤ sizeMax)
    (hgrants : ∀ k sz, grants k sz = true) :
    ∃ A m, Arena.create grants blockSize hsz = (some A, m) ∧ A.Fresh := by
  obtain ⟨res, m', hcreate, -, hok, hsome⟩ := jsonArenaCreate_spec (BlockMem.idle_init grants) hsz
  obtain ⟨a, rfl⟩ := Option.isSome_iff_exists.mp (hsome hgrants)
  obtain ⟨-, -, htotal, hnodes, hsame⟩ := hok a rfl
  unfold Arena.create
  split
  · rename_i a' m'' hcall
    obtain ⟨rfl, rfl⟩ : a' = a ∧ m'' = m' := by
      rw [hcall] at hcreate
      simpa using hcreate
    refine ⟨_, _, rfl, htotal, hnodes, ?_⟩
    intro k sz
    exact (congrFun (congrFun hsame k) sz).trans (hgrants k sz)
  · rename_i m'' hcall
    rw [hcall] at hcreate
    cases hcreate
  · rename_i hcall
    rw [hcall] at hcreate
    cases hcreate

/-- An arena in order is destroyed without leaving anything. -/
theorem Arena.destroy_spec (A : Arena) : ∃ m, jsonArenaDestroy A.raw = some m ∧ m.live = [] := by
  obtain ⟨pre, post, hok⟩ := A.ok
  obtain ⟨m, hdestroy, hidle⟩ := hok.toChainOk.destroy
  exact ⟨m, hdestroy, hidle.live⟩

/-- Destroying an arena that is there leaves nothing of it. -/
theorem CompatState.destroyArena_eq {w : CompatState D} {k : ArenaPtr} {s : St D}
    (h : w.arenaAt k = some s) : ∃ m, m.live = [] ∧
      w.destroyArena k = some { w with arenas := w.arenas.set k (.gone m) } := by
  obtain ⟨pre, post, hok⟩ := s.arena.ok
  obtain ⟨m, hdestroy, hidle⟩ := hok.toChainOk.destroy
  refine ⟨m, hidle.live, ?_⟩
  rw [destroyArena, h]
  simp [hdestroy]

/-- A document that is given up again. -/
theorem CompatState.destroyArena_last {w : CompatState D} {arenas : List (ArenaCell D)} {s : St D}
    (h : w.arenas = arenas ++ [.live s]) :
    ∃ m, m.live = [] ∧
      w.destroyArena arenas.length = some { w with arenas := arenas ++ [.gone m] } := by
  have hs : w.arenaAt arenas.length = some s := by
    rw [arenaAt_eq_some, h]
    simp
  obtain ⟨m, hm, hdestroy⟩ := destroyArena_eq hs
  refine ⟨m, hm, ?_⟩
  rw [hdestroy, h]
  simp

/-! ## Allocation -/

/-- `malloc` fails, or finds an address that is not in use. -/
theorem CompatState.malloc_cases (B : Backing) (w : CompatState D) (size : ℕ) :
    w.malloc B size = (none, { w with calls := w.calls + 1 }) ∨
    ∃ p, w.malloc B size = (some p, { w with calls := w.calls + 1 }) ∧ p ≠ 0 ∧
      w.owners p = none ∧ w.items p = none := by
  unfold malloc
  cases B.address w.calls size with
  | none => exact .inl rfl
  | some p =>
    by_cases hused : p = 0 ∨ (w.owners p).isSome ∨ (w.items p).isSome
    · exact .inl (if_pos hused)
    · refine .inr ⟨p, if_neg hused, ?_⟩
      simpa using hused

section Calls

variable [CDouble D] [CDoubleInt D] {B : Backing}

/-- The `switch` fills in the type and the numbers only. -/
theorem CJSON.fill_eq (c : CJSON D) (n : JsonNode D) :
    (c.fill n).arena = c.arena ∧ (c.fill n).owner = c.owner ∧ (c.fill n).value = c.value := by
  cases n <;> exact ⟨rfl, rfl, rfl⟩

/-- **Wrapping a value** fails and changes nothing, or makes a wrapper that takes one
reference. -/
theorem sjsonCjsonWrap_cases {w : CompatState D} {q : CAddr} {o : SjsonCjsonOwner} {v : ValueRef}
    {h : Heap D} (ownsArena : Int32) (ho : w.owners q = some o) (hv : w.nodesOf v = some h) :
    sjsonCjsonWrap B q (some v) ownsArena w = some (none, { w with calls := w.calls + 1 }) ∨
    ∃ p c, p ≠ 0 ∧ w.items p = none ∧ w.owners p = none ∧ c.arena = o.arena ∧ c.owner = q ∧
      c.value = some v ∧
      sjsonCjsonWrap B q (some v) ownsArena w = some (some p,
        { w with
          calls := w.calls + 1
          owners := update w.owners q (some { o with references := o.references + 1 })
          items := update w.items p (some c) }) := by
  unfold sjsonCjsonWrap
  rcases w.malloc_cases B sizeofCJSON with hfail | ⟨p, hok, hp, howner, hitem⟩
  · rw [hfail]
    exact .inl rfl
  · rw [hok]
    obtain ⟨harena, hown, hval⟩ := CJSON.fill_eq
      (⟨o.arena, some v, ownsArena, .cJSONFalse, 0, CDouble.zero, none, q⟩ : CJSON D)
        (h.node v.node)
    refine .inr ⟨p, _, hp, hitem, howner, harena, hown, hval, ?_⟩
    have hv' : ∀ owners, CompatState.nodesOf ⟨w.arenas, owners, w.items, w.calls + 1⟩ v = some h :=
      fun _ => hv
    simp [ho, hv', CompatState.setOwner, CompatState.setItem]

end Calls

/-! ## Owners and arenas -/

/-- The owners and the arenas that are not destroyed belong together one by one. -/
structure Assigned (arenaOf : CAddr → Option ArenaPtr) (arenaAt : ArenaPtr → Option (St D)) :
    Prop where
  owner : ∀ q k, arenaOf q = some k → ∃ s, arenaAt k = some s
  inj : ∀ q q' k, arenaOf q = some k → arenaOf q' = some k → q = q'
  arena : ∀ k s, arenaAt k = some s → s.heap.RepOk ∧ ∃ q, arenaOf q = some k

namespace Assigned

variable {arenaOf : CAddr → Option ArenaPtr} {arenaAt : ArenaPtr → Option (St D)} {q q' : CAddr}
  {k k' : ArenaPtr}

/-- Owners do not have an arena that is not there. -/
theorem ne (h : Assigned arenaOf arenaAt) (hk : arenaAt k = none) (hq : arenaOf q' = some k') :
    k' ≠ k := by
  rintro rfl
  obtain ⟨s, hs⟩ := h.owner q' _ hq
  rw [hk] at hs
  cases hs

/-- A new arena with its owner. -/
theorem add (h : Assigned arenaOf arenaAt) (hq : arenaOf q = none) (hk : arenaAt k = none)
    {s : St D} (hrep : s.heap.RepOk) :
    Assigned (update arenaOf q (some k)) (update arenaAt k (some s)) where
  owner q' k' hq' := by
    by_cases hqq : q' = q
    · rw [hqq, update_self] at hq'
      obtain rfl := Option.some.inj hq'
      exact ⟨s, update_self ..⟩
    · rw [update_of_ne hqq] at hq'
      obtain ⟨s', hs'⟩ := h.owner q' k' hq'
      exact ⟨s', by rw [update_of_ne (h.ne hk hq'), hs']⟩
  inj q₁ q₂ k' h1 h2 := by
    by_cases hq1 : q₁ = q
    · by_cases hq2 : q₂ = q
      · rw [hq1, hq2]
      · rw [hq1, update_self] at h1
        rw [update_of_ne hq2, ← Option.some.inj h1] at h2
        exact absurd rfl (h.ne hk h2)
    · rw [update_of_ne hq1] at h1
      by_cases hq2 : q₂ = q
      · rw [hq2, update_self] at h2
        rw [← Option.some.inj h2] at h1
        exact absurd rfl (h.ne hk h1)
      · rw [update_of_ne hq2] at h2
        exact h.inj q₁ q₂ k' h1 h2
  arena k' s' hs' := by
    by_cases hkk : k' = k
    · rw [hkk, update_self] at hs'
      obtain rfl := Option.some.inj hs'
      exact ⟨hrep, q, by rw [hkk, update_self]⟩
    · rw [update_of_ne hkk] at hs'
      obtain ⟨hrep', q', hq'⟩ := h.arena k' s' hs'
      have hne : q' ≠ q := by
        rintro rfl
        rw [hq] at hq'
        cases hq'
      exact ⟨hrep', q', by rw [update_of_ne hne, hq']⟩

/-- An owner that is left behind other than this one has another arena. -/
theorem of_update (h : Assigned arenaOf arenaAt) (hq : arenaOf q = some k)
    (hq' : update arenaOf q none q' = some k') : arenaOf q' = some k' ∧ k' ≠ k := by
  have hne : q' ≠ q := by
    rintro rfl
    rw [update_self] at hq'
    cases hq'
  rw [update_of_ne hne] at hq'
  refine ⟨hq', ?_⟩
  rintro rfl
  exact hne (h.inj _ _ _ hq' hq)

/-- An arena that is destroyed with its owner. -/
theorem remove (h : Assigned arenaOf arenaAt) (hq : arenaOf q = some k) :
    Assigned (update arenaOf q none) (update arenaAt k none) where
  owner q' k' hq' := by
    obtain ⟨hold, hne⟩ := h.of_update hq hq'
    rw [update_of_ne hne]
    exact h.owner q' k' hold
  inj q₁ q₂ k' h1 h2 := h.inj q₁ q₂ k' (h.of_update hq h1).1 (h.of_update hq h2).1
  arena k' s' hs' := by
    have hne : k' ≠ k := by
      rintro rfl
      rw [update_self] at hs'
      cases hs'
    rw [update_of_ne hne] at hs'
    obtain ⟨hrep, q', hq'⟩ := h.arena k' s' hs'
    refine ⟨hrep, q', ?_⟩
    rw [update_of_ne, hq']
    rintro rfl
    exact hne (Option.some.inj (hq'.symm.trans hq))

/-- An arena that has handed out memory. -/
theorem replace (h : Assigned arenaOf arenaAt) {s s' : St D} (hs : arenaAt k = some s)
    (hheap : s'.heap = s.heap) : Assigned arenaOf (update arenaAt k (some s')) where
  owner q k' hq := by
    rw [update_apply]
    split_ifs
    · exact ⟨s', rfl⟩
    · exact h.owner q k' hq
  inj := h.inj
  arena k' t ht := by
    rw [update_apply] at ht
    split_ifs at ht with hk
    · obtain rfl := Option.some.inj ht
      rw [hheap]
      exact h.arena k' s (hk ▸ hs)
    · exact h.arena k' t ht

end Assigned

theorem CompatOk.assigned {w : CompatState D} (h : CompatOk w) :
    Assigned w.arenaOf w.arenaAt := ⟨h.owner, h.inj, h.arena⟩

/-! ## Steps of the counters -/

/-- There are `2 ^ 64` addresses. -/
theorem card_cAddr : Nat.card CAddr = 2 ^ 64 := by
  have e : CAddr ≃ Fin (2 ^ 64) := ⟨fun p => p.toFin, fun i => ⟨⟨i⟩⟩, fun _ => rfl, fun _ => rfl⟩
  rw [Nat.card_congr e, Nat.card_eq_fintype_card, Fintype.card_fin]

namespace CompatOk

variable {w w' : CompatState D} {p q : CAddr} {c : CJSON D} {o : SjsonCjsonOwner} {k : ArenaPtr}

theorem own_none (h : CompatOk w) : w.own 0 = none := by
  rw [CompatState.own, comp_apply, h.null, Option.map_none]

/-- A wrapper that is made takes a reference, and the counter does not wrap: there are not
more wrappers than addresses, and none at `NULL`. -/
theorem counted_take (h : CompatOk w) (hp : p ≠ 0) (hfree : w.items p = none)
    (hr : o.references.toNat = (w.count q).getD 0) (hitems : w'.items = update w.items p (some c))
    (howners : w'.owners = update w.owners q (some ⟨k, o.references + 1⟩)) (hq : c.owner = q) :
    Counted w'.own w'.count := by
  have hown : w'.own = update w.own p (some q) := by
    rw [CompatState.own, hitems, comp_update, ← hq]
    rfl
  have htake := h.counted.take (a := p) (by rw [CompatState.own, comp_apply, hfree]; rfl) q
  have hlt : (w.count q).getD 0 + 1 < 2 ^ 64 := by
    rw [← card_cAddr]
    refine htake.lt_card (a := 0) (b := q) ?_ (update_self ..)
    rw [update_of_ne hp.symm, h.own_none]
  have hcount : w'.count = update w.count q (some ((w.count q).getD 0 + 1)) := by
    rw [CompatState.count, howners, comp_update, Option.map_some, UInt64.toNat_add, hr,
      UInt64.toNat_one, Nat.mod_eq_of_lt hlt]
    rfl
  rw [hown, hcount]
  exact htake

theorem references_pos (h : CompatOk w) (ho : w.owners q = some o) : 1 ≤ o.references.toNat := by
  have hcount := CompatState.count_of ho
  rw [Nat.one_le_iff_ne_zero]
  intro h0
  exact h.counted.pos q (h0 ▸ hcount)

/-- The counter of an owner becomes zero with its last wrapper. -/
theorem last_iff (h : CompatOk w) (hc : w.items p = some c) (ho : w.owners c.owner = some o) :
    o.references - 1 = 0 ↔ holders w.own c.owner = {p} := by
  have hown := CompatState.own_of hc
  have hcount := CompatState.count_of ho
  have hpos := h.references_pos ho
  rw [← h.counted.eq_one_iff hown hcount, ← UInt64.toNat_inj, UInt64.toNat_sub_of_le _ _ hpos]
  simp only [UInt64.toNat_one, UInt64.toNat_zero]
  omega

/-- A wrapper that is deleted gives its reference back. -/
theorem counted_drop (h : CompatOk w) (hc : w.items p = some c) (ho : w.owners c.owner = some o)
    (hitems : w'.items = update w.items p none)
    (howners : w'.owners = update w.owners c.owner
      (if o.references - 1 = 0 then none else some ⟨k, o.references - 1⟩)) :
    Counted w'.own w'.count := by
  have hown := CompatState.own_of hc
  have hcount := CompatState.count_of ho
  have hone : o.references - 1 = 0 ↔ o.references.toNat = 1 :=
    (h.last_iff hc ho).trans (h.counted.eq_one_iff hown hcount).symm
  have hown' : w'.own = update w.own p none := by
    rw [CompatState.own, hitems, comp_update]
    rfl
  have hcount' : w'.count = update w.count c.owner
      (if o.references.toNat = 1 then none else some (o.references.toNat - 1)) := by
    rw [CompatState.count, howners, comp_update]
    simp only [hone]
    split_ifs
    · rfl
    · rw [Option.map_some, UInt64.toNat_sub_of_le _ _ (h.references_pos ho)]
      rfl
  rw [hown', hcount']
  exact h.counted.drop hown hcount

/-- The wrappers of a document hold its owner. -/
theorem wrappersOf_eq (h : CompatOk w) (hq : w.arenaOf q = some k) :
    w.wrappersOf k = holders w.own q := by
  ext p
  constructor
  · rintro ⟨c, hc, hk⟩
    have hcown := (h.item p c hc).owner
    rw [hk] at hcown
    show w.own p = some q
    rw [CompatState.own_of hc, h.inj _ _ _ hcown hq]
  · intro hp
    have hp' : w.own p = some q := hp
    rw [CompatState.own, comp_apply, Option.map_eq_some_iff] at hp'
    obtain ⟨c, hc, hco⟩ := hp'
    have hcown := (h.item p c hc).owner
    rw [hco, hq] at hcown
    exact ⟨c, hc, (Option.some.inj hcown).symm⟩

/-! ## What the invariant says -/

/-- The counter of an owner is the number of its wrappers, and its arena is there. -/
theorem counter (h : CompatOk w) (hq : w.owners q = some o) :
    o.references.toNat = (w.wrappersOf o.arena).ncard ∧ 0 < o.references.toNat ∧
      ∃ s, w.arenaAt o.arena = some s := by
  have harena := CompatState.arenaOf_of hq
  refine ⟨?_, h.references_pos hq, h.owner q _ harena⟩
  rw [h.wrappersOf_eq harena, h.counted.ncard_eq (CompatState.count_of hq)]

/-- What a wrapper points to is there. -/
theorem points (h : CompatOk w) (hc : w.items p = some c) :
    (∃ o, w.owners c.owner = some o ∧ o.arena = c.arena) ∧ ∃ s, w.arenaAt c.arena = some s ∧
      ∀ v, c.value = some v → v.arena = c.arena ∧ v.node < s.heap.next := by
  obtain ⟨howner, hvalue⟩ := h.item p c hc
  obtain ⟨s, hs⟩ := h.owner _ _ howner
  refine ⟨CompatState.arenaOf_eq_some.mp howner, s, hs, fun v hv => ?_⟩
  obtain ⟨hva, hp, hnodes⟩ := hvalue v hv
  obtain ⟨s', hs', hlt, -⟩ := CompatState.nodesOf_eq_some.mp hnodes
  rw [hva, hs] at hs'
  exact ⟨hva, Option.some.inj hs' ▸ hlt⟩

/-- Without wrappers there are no owners, and every arena is destroyed. -/
theorem nothing_left (h : CompatOk w)
    (hitems : ∀ p, w.items p = none) :
    (∀ q, w.owners q = none) ∧ ∀ cell ∈ w.arenas, ∃ m, cell = ArenaCell.gone m ∧ m.live = [] := by
  have howners : ∀ q, w.owners q = none := by
    intro q
    have hnone := h.counted.none_left (b := q) fun p => by
      rw [CompatState.own, comp_apply, hitems, Option.map_none]
    rwa [CompatState.count, comp_apply, Option.map_eq_none_iff] at hnone
  refine ⟨howners, fun cell hcell => ?_⟩
  obtain ⟨k, hk⟩ := List.mem_iff_getElem?.mp hcell
  cases cell with
  | gone m => exact ⟨m, rfl, h.gone k m hk⟩
  | live s =>
    obtain ⟨-, q, hq⟩ := h.arena k s (CompatState.arenaAt_eq_some.mpr hk)
    obtain ⟨o, ho, -⟩ := CompatState.arenaOf_eq_some.mp hq
    rw [howners q] at ho
    cases ho

/-! ## What a call leaves -/

/-- A new wrapper of a document. -/
theorem wrap (h : CompatOk w) {v : ValueRef} {hp : Heap D} {n : ℕ} (ho : w.owners q = some o)
    (hv : w.nodesOf v = some hp) (hva : v.arena = o.arena) (hp0 : p ≠ 0) (hfree : w.items p = none)
    (hca : c.arena = o.arena) (hco : c.owner = q) (hcv : c.value = some v) :
    CompatOk
      { w with
        calls := n
        owners := update w.owners q (some { o with references := o.references + 1 })
        items := update w.items p (some c) } := by
  set w' : CompatState D :=
    { w with
      calls := n
      owners := update w.owners q (some { o with references := o.references + 1 })
      items := update w.items p (some c) } with hw'
  -- the arena of the owner stays the same, its counter does not
  have harena : w'.arenaOf = w.arenaOf := by
    rw [CompatState.arenaOf, hw', comp_update, Option.map_some, ← CompatState.arenaOf_of ho]
    exact update_eq_self q w.arenaOf
  have hat : w'.arenaAt = w.arenaAt := rfl
  have hcount : o.references.toNat = (w.count q).getD 0 := by
    rw [CompatState.count_of ho, Option.getD_some]
  refine ⟨?_, h.counted_take hp0 hfree hcount rfl rfl hco, ?_, ?_, ?_, ?_, h.gone⟩
  · show update w.items p (some c) 0 = none
    rw [update_of_ne hp0.symm, h.null]
  · intro p' c' hc'
    by_cases hpp : p' = p
    · obtain rfl : c = c' := by
        rw [hpp] at hc'
        simpa [hw'] using hc'
      constructor
      · rw [harena, hco, hca]
        exact CompatState.arenaOf_of ho
      · intro v' hv'
        rw [hcv] at hv'
        obtain rfl := Option.some.inj hv'
        exact ⟨hva.trans hca.symm, hp, hv⟩
    · have hold := h.item p' c' (by simpa [hw', hpp] using hc')
      exact ⟨harena ▸ hold.owner, hold.value⟩
  · rw [harena]
    exact h.owner
  · rw [harena]
    exact h.inj
  · rw [harena]
    exact h.arena

/-- A document whose text could not be read, or whose wrapper could not be made. -/
theorem addGone (h : CompatOk w) {m : BlockMem} (hm : m.live = []) {n : ℕ} :
    CompatOk { w.addArena (.gone m) with calls := n } := by
  set w' : CompatState D := { w.addArena (.gone m) with calls := n } with hw'
  -- no arena is added that is still there
  have hat : w'.arenaAt = w.arenaAt := by
    funext k
    show (w.addArena (.gone m)).arenaAt k = w.arenaAt k
    rw [CompatState.arenaAt_add]
    split_ifs with hk
    · rw [hk, CompatState.arenaAt_length]
    · rfl
  refine ⟨h.null, h.counted, fun p c hc => ?_, ?_, h.inj, ?_, fun k m' hk => ?_⟩
  · obtain ⟨howner, hvalue⟩ := h.item p c hc
    refine ⟨howner, fun v hv => ?_⟩
    obtain ⟨hva, hp, hnodes⟩ := hvalue v hv
    refine ⟨hva, hp, ?_⟩
    rw [CompatState.nodesOf, hat]
    exact hnodes
  · rw [hat]
    exact h.owner
  · rw [hat]
    exact h.arena
  · have hcell : (w.addArena (.gone m)).arenas[k]? = some (.gone m') := hk
    rcases Nat.lt_trichotomy k w.arenas.length with hlt | heq | hgt
    · rw [CompatState.addArena_lt _ hlt] at hcell
      exact h.gone k m' hcell
    · rw [heq, CompatState.addArena_self] at hcell
      obtain rfl : m = m' := by simpa using hcell
      exact hm
    · rw [List.getElem?_eq_none] at hcell
      · cases hcell
      · rw [CompatState.addArena, List.length_append, List.length_singleton]
        omega

/-- A new document with its first wrapper. -/
theorem enter (h : CompatOk w) {s : St D} {v : ValueRef} {n : ℕ} (hrep : s.heap.RepOk)
    (hva : v.arena = w.arenas.length) (hvn : v.node < s.heap.next) (hq : w.owners q = none)
    (hp0 : p ≠ 0) (hfree : w.items p = none) (hca : c.arena = w.arenas.length)
    (hco : c.owner = q) (hcv : c.value = some v) :
    CompatOk
      { w.addArena (.live s) with
        calls := n
        owners := update w.owners q (some ⟨w.arenas.length, 1⟩)
        items := update w.items p (some c) } := by
  set w' : CompatState D :=
    { w.addArena (.live s) with
      calls := n
      owners := update w.owners q (some ⟨w.arenas.length, 1⟩)
      items := update w.items p (some c) } with hw'
  have harena : w'.arenaOf = update w.arenaOf q (some w.arenas.length) := by
    rw [CompatState.arenaOf, hw', comp_update]
    rfl
  have hqnone : w.arenaOf q = none := by rw [CompatState.arenaOf, comp_apply, hq]; rfl
  have hat : w'.arenaAt = update w.arenaAt w.arenas.length (some s) := by
    funext k
    rw [update_apply]
    exact CompatState.arenaAt_add (.live s)
  have hassigned : Assigned w'.arenaOf w'.arenaAt := by
    rw [harena, hat]
    exact h.assigned.add hqnone CompatState.arenaAt_length hrep
  have hcount : (⟨0, 0⟩ : SjsonCjsonOwner).references.toNat = (w.count q).getD 0 := by
    rw [CompatState.count, comp_apply, hq]
    rfl
  refine ⟨?_, h.counted_take hp0 hfree hcount rfl rfl hco, ?_, hassigned.owner, hassigned.inj,
    hassigned.arena, ?_⟩
  · show update w.items p (some c) 0 = none
    rw [update_of_ne hp0.symm, h.null]
  · intro p' c' hc'
    by_cases hpp : p' = p
    · obtain rfl : c = c' := by
        rw [hpp] at hc'
        simpa [hw'] using hc'
      refine ⟨?_, fun v' hv' => ?_⟩
      · rw [harena, hco, hca, update_self]
      · rw [hcv] at hv'
        obtain rfl := Option.some.inj hv'
        refine ⟨hva.trans hca.symm, s.heap, CompatState.nodesOf_eq_some.mpr ⟨s, ?_, hvn, rfl⟩⟩
        rw [hat, hva, update_self]
    · obtain ⟨howner, hvalue⟩ := h.item p' c' (by simpa [hw', hpp] using hc')
      have hne : c'.owner ≠ q := by
        intro heq
        rw [heq, hqnone] at howner
        cases howner
      -- the arenas of the owners that were there are older
      have holder := h.assigned.ne CompatState.arenaAt_length howner
      refine ⟨?_, fun v' hv' => ?_⟩
      · rw [harena, update_of_ne hne, howner]
      · obtain ⟨hva', hp, hnodes⟩ := hvalue v' hv'
        refine ⟨hva', hp, ?_⟩
        rw [CompatState.nodesOf, hat, update_of_ne (hva' ▸ holder)]
        exact hnodes
  · intro k' m hk
    have hcell : (w.addArena (.live s)).arenas[k']? = some (.gone m) := hk
    rcases Nat.lt_or_ge k' w.arenas.length with hlt' | hge
    · rw [CompatState.addArena_lt _ hlt'] at hcell
      exact h.gone k' m hcell
    · rw [CompatState.addArena, List.getElem?_append_right hge, List.getElem?_singleton] at hcell
      split_ifs at hcell
      cases hcell

/-- A wrapper that is deleted while the document has others. -/
theorem delete_other (h : CompatOk w) (hc : w.items p = some c) (ho : w.owners c.owner = some o)
    (hne : ¬ o.references - 1 = 0) :
    CompatOk
      { w with
        owners := update w.owners c.owner (some { o with references := o.references - 1 })
        items := update w.items p none } := by
  set w' : CompatState D :=
    { w with
      owners := update w.owners c.owner (some { o with references := o.references - 1 })
      items := update w.items p none } with hw'
  have harena : w'.arenaOf = w.arenaOf := by
    rw [CompatState.arenaOf, hw', comp_update, Option.map_some, ← CompatState.arenaOf_of ho]
    exact update_eq_self c.owner w.arenaOf
  have hdrop := @counted_drop _ w w' p c o o.arena h hc ho rfl (by rw [if_neg hne])
  -- every other wrapper is where it was
  have hitems : ∀ {p' c'}, w'.items p' = some c' → w.items p' = some c' := by
    intro p' c' hc'
    by_cases hpp : p' = p
    · rw [hpp] at hc'
      simp [hw'] at hc'
    · simpa [hw', hpp] using hc'
  refine ⟨?_, hdrop, ?_, ?_, ?_, ?_, h.gone⟩
  · show update w.items p none 0 = none
    by_cases hp0 : 0 = p
    · rw [hp0, update_self]
    · rw [update_of_ne hp0, h.null]
  · intro p' c' hc'
    obtain ⟨howner, hvalue⟩ := h.item p' c' (hitems hc')
    exact ⟨harena ▸ howner, hvalue⟩
  · rw [harena]
    exact h.owner
  · rw [harena]
    exact h.inj
  · rw [harena]
    exact h.arena

/-- The last wrapper of a document is deleted, with the owner and the arena. -/
theorem delete_last (h : CompatOk w) (hc : w.items p = some c) (ho : w.owners c.owner = some o)
    (hone : o.references - 1 = 0) {m : BlockMem} (hm : m.live = []) :
    CompatOk
      { w with
        arenas := w.arenas.set c.arena (.gone m)
        owners := update w.owners c.owner none
        items := update w.items p none } := by
  set w' : CompatState D :=
    { w with
      arenas := w.arenas.set c.arena (.gone m)
      owners := update w.owners c.owner none
      items := update w.items p none } with hw'
  have hdrop := @counted_drop _ w w' p c o o.arena h hc ho rfl (by rw [if_pos hone])
  have hholders := (h.last_iff hc ho).mp hone
  have hcown := (h.item p c hc).owner
  obtain ⟨s, hs⟩ := h.owner _ _ hcown
  have hat : w'.arenaAt = update w.arenaAt c.arena none := by
    funext k
    rw [update_apply]
    exact CompatState.arenaAt_set (CompatState.lt_of_arenaAt hs) (.gone m) k
  have harena : w'.arenaOf = update w.arenaOf c.owner none := by
    rw [CompatState.arenaOf, hw', comp_update]
    rfl
  have hassigned : Assigned w'.arenaOf w'.arenaAt := by
    rw [harena, hat]
    exact h.assigned.remove hcown
  refine ⟨?_, hdrop, ?_, hassigned.owner, hassigned.inj, hassigned.arena, ?_⟩
  · show update w.items p none 0 = none
    by_cases hp0 : 0 = p
    · rw [hp0, update_self]
    · rw [update_of_ne hp0, h.null]
  · intro p' c' hc'
    have hpp : p' ≠ p := by
      rintro rfl
      simp [hw'] at hc'
    have hold : w.items p' = some c' := by simpa [hw', hpp] using hc'
    obtain ⟨howner, hvalue⟩ := h.item p' c' hold
    -- a wrapper of the same owner would be a second holder
    have hown : c'.owner ≠ c.owner := by
      intro heq
      have hmem : p' ∈ holders w.own c.owner := by
        show w.own p' = some c.owner
        rw [CompatState.own_of hold, heq]
      rw [hholders] at hmem
      exact hpp hmem
    have hne : c'.arena ≠ c.arena := by
      intro heq
      rw [heq] at howner
      exact hown (h.inj _ _ _ howner hcown)
    refine ⟨?_, fun v hv => ?_⟩
    · rw [harena, update_of_ne hown, howner]
    · obtain ⟨hva, hp, hnodes⟩ := hvalue v hv
      refine ⟨hva, hp, ?_⟩
      rw [CompatState.nodesOf, hat, update_of_ne (hva ▸ hne)]
      exact hnodes
  · intro k m' hk
    have hcell : (w.arenas.set c.arena (.gone m))[k]? = some (.gone m') := hk
    by_cases hkc : k = c.arena
    · rw [hkc, List.getElem?_set_self (CompatState.lt_of_arenaAt hs)] at hcell
      obtain rfl : m = m' := by simpa using hcell
      exact hm
    · rw [List.getElem?_set_ne (Ne.symm hkc)] at hcell
      exact h.gone k m' hcell

/-- The arena of a wrapper hands out memory, for the string that the wrapper caches. -/
theorem cache (h : CompatOk w) (hc : w.items p = some c) {s : St D}
    (hs : w.arenaAt c.arena = some s) (A : Arena) (str : Option CString) :
    CompatOk
      { w with
        arenas := w.arenas.set c.arena (.live { s with arena := A })
        items := update w.items p (some { c with valuestring := str }) } := by
  set w' : CompatState D :=
    { w with
      arenas := w.arenas.set c.arena (.live { s with arena := A })
      items := update w.items p (some { c with valuestring := str }) } with hw'
  have hlt := CompatState.lt_of_arenaAt hs
  have hat : w'.arenaAt = update w.arenaAt c.arena (some { s with arena := A }) := by
    funext k
    rw [update_apply]
    exact CompatState.arenaAt_set hlt (.live { s with arena := A }) k
  have hassigned : Assigned w'.arenaOf w'.arenaAt := hat ▸ h.assigned.replace hs rfl
  have hown : w'.own = w.own := by
    rw [CompatState.own, hw', comp_update, Option.map_some]
    exact update_eq_self_iff.mpr (CompatState.own_of hc).symm
  -- the nodes are those of before, also in this arena
  have hnodes : ∀ {v hp}, w.nodesOf v = some hp → w'.nodesOf v = some hp := by
    intro v hp hv
    obtain ⟨s', hs', hv'⟩ := CompatState.nodesOf_eq_some.mp hv
    rw [CompatState.nodesOf_eq_some, hat, update_apply]
    split_ifs with hk
    · rw [hk, hs] at hs'
      obtain rfl := Option.some.inj hs'
      exact ⟨_, rfl, hv'⟩
    · exact ⟨s', hs', hv'⟩
  have hitem : ∀ {c' : CJSON D}, c'.Ok w → c'.Ok w' := fun ⟨howner, hvalue⟩ =>
    ⟨howner, fun v hv => (hvalue v hv).imp id fun ⟨hp, hv'⟩ => ⟨hp, hnodes hv'⟩⟩
  refine ⟨?_, ?_, ?_, hassigned.owner, hassigned.inj, hassigned.arena, ?_⟩
  · have hp0 : 0 ≠ p := by
      rintro rfl
      rw [h.null] at hc
      cases hc
    show update w.items p _ 0 = none
    rw [update_of_ne hp0, h.null]
  · rw [hown]
    exact h.counted
  · intro p' c' hc'
    by_cases hpp : p' = p
    · obtain rfl : { c with valuestring := str } = c' := by
        rw [hpp] at hc'
        simpa [hw'] using hc'
      obtain ⟨howner, hvalue⟩ := hitem (h.item p c hc)
      exact ⟨howner, hvalue⟩
    · exact hitem (h.item p' c' (by simpa [hw', hpp] using hc'))
  · intro k m hk
    have hcell : (w.arenas.set c.arena (.live { s with arena := A }))[k]? = some (.gone m) := hk
    by_cases hkc : k = c.arena
    · rw [hkc, List.getElem?_set_self hlt] at hcell
      cases hcell
    · rw [List.getElem?_set_ne (Ne.symm hkc)] at hcell
      exact h.gone k m hcell

end CompatOk

end SJson
