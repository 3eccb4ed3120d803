/-
# Who owns what in the cJSON layer

What each call can do (`CompatStep`), and that the calls of careful callers, who use and
delete only what they were given, do nothing else, whatever allocation fails.  A run hence
never uses or frees what is not there, and leaves nothing behind when the last wrapper is
deleted (`cJSON_ownership`).
-/
import SJson.CompatInvariant

namespace SJson

open RefCount Function

variable {D : Type}

/-! ## Calls -/

/-- The calls that make a document. -/
def CompatCall.Parses (c : CompatCall) : Prop :=
  ∃ value, c = .parse value ∨ c = .parseWithLength value

/-- The calls that make a wrapper for an item. -/
def CompatCall.Looks (c : CompatCall) : Prop :=
  (∃ array index, c = .getArrayItem array index) ∨ ∃ object string, c = .getObjectItem object string

theorem CompatCall.Parses.ne_delete {c : CompatCall} (h : c.Parses) (p : CAddr) :
    c ≠ .delete (some p) := by
  rintro rfl
  obtain ⟨_, h | h⟩ := h <;> cases h

theorem CompatCall.Looks.ne_delete {c : CompatCall} (h : c.Looks) (p : CAddr) :
    c ≠ .delete (some p) := by
  rintro rfl
  obtain ⟨_, _, h⟩ | ⟨_, _, h⟩ := h <;> cases h

/-- **What a call can do**: what it returns, and the state it leaves. -/
inductive CompatStep (w : CompatState D) : CompatCall → Option CAddr → CompatState D → Prop
  | nothing {call : CompatCall} (n : ℕ) (hcall : ∀ p, call ≠ .delete (some p)) :
      CompatStep w call none { w with calls := n }
  | refuse {call : CompatCall} {m : BlockMem} (n : ℕ) (hcall : call.Parses) (hm : m.live = []) :
      CompatStep w call none { w.addArena (.gone m) with calls := n }
  | enter {call : CompatCall} {s : St D} {v : ValueRef} {p q : CAddr} {c : CJSON D} (n : ℕ)
      (hcall : call.Parses) (hrep : s.heap.RepOk) (hva : v.arena = w.arenas.length)
      (hvn : v.node < s.heap.next) (hq : w.owners q = none) (hp : p ≠ 0) (hfree : w.items p = none)
      (hca : c.arena = w.arenas.length) (hco : c.owner = q) (hcv : c.value = some v) :
      CompatStep w call (some p)
        { w.addArena (.live s) with
          calls := n
          owners := update w.owners q (some ⟨w.arenas.length, 1⟩)
          items := update w.items p (some c) }
  | wrap {call : CompatCall} {v : ValueRef} {h : Heap D} {p q : CAddr} {o : SjsonCjsonOwner}
      {c : CJSON D} (n : ℕ) (hcall : call.Looks) (ho : w.owners q = some o)
      (hv : w.nodesOf v = some h) (hva : v.arena = o.arena) (hp : p ≠ 0) (hfree : w.items p = none)
      (hca : c.arena = o.arena) (hco : c.owner = q) (hcv : c.value = some v) :
      CompatStep w call (some p)
        { w with
          calls := n
          owners := update w.owners q (some { o with references := o.references + 1 })
          items := update w.items p (some c) }
  | cache {p : CAddr} {c : CJSON D} {s : St D} (hc : w.items p = some c)
      (hs : w.arenaAt c.arena = some s) (A : Arena) (str : Option CString) :
      CompatStep w (.getStringValue (some p)) none
        { w with
          arenas := w.arenas.set c.arena (.live { s with arena := A })
          items := update w.items p (some { c with valuestring := str }) }
  | deleteOther {p : CAddr} {c : CJSON D} {o : SjsonCjsonOwner} (hc : w.items p = some c)
      (ho : w.owners c.owner = some o) (hne : ¬ o.references - 1 = 0) :
      CompatStep w (.delete (some p)) none
        { w with
          owners := update w.owners c.owner (some { o with references := o.references - 1 })
          items := update w.items p none }
  | deleteLast {p : CAddr} {c : CJSON D} {o : SjsonCjsonOwner} {m : BlockMem}
      (hc : w.items p = some c) (ho : w.owners c.owner = some o) (hone : o.references - 1 = 0)
      (hm : m.live = []) :
      CompatStep w (.delete (some p)) none
        { w with
          arenas := w.arenas.set c.arena (.gone m)
          owners := update w.owners c.owner none
          items := update w.items p none }

/-- **A call keeps the invariant.** -/
theorem CompatStep.ok {w w' : CompatState D} {call : CompatCall} {r : Option CAddr}
    (hstep : CompatStep w call r w') (h : CompatOk w) : CompatOk w' := by
  cases hstep with
  | nothing n _ => exact ⟨h.null, h.counted, fun p c hc => ⟨(h.item p c hc).1, (h.item p c hc).2⟩,
      h.owner, h.inj, h.arena, h.gone⟩
  | refuse n _ hm => exact h.addGone hm
  | enter n _ hrep hva hvn hq hp hfree hca hco hcv =>
      exact h.enter hrep hva hvn hq hp hfree hca hco hcv
  | wrap n _ ho hv hva hp hfree hca hco hcv => exact h.wrap ho hv hva hp hfree hca hco hcv
  | cache hc hs A str => exact h.cache hc hs A str
  | deleteOther hc ho hne => exact h.delete_other hc ho hne
  | deleteLast hc ho hone hm => exact h.delete_last hc ho hone hm

/-- An item of an array is found or not. -/
theorem jsonArrGet_finds {h : Heap D} (hrep : h.RepOk) {v : JsonPtr} (hv : v < h.next) (idx : ℕ) :
    h.Finds (jsonArrGet h v idx) := by
  have hok := hrep v hv
  unfold jsonArrGet
  cases ha : h.node v with
  | array a =>
    rw [ha] at hok
    simp only
    cases hitem : a.items[idx]? with
    | none => exact h.finds_err _
    | some item => exact Heap.finds_ok (hok.2 item (List.mem_of_getElem? hitem))
  | _ => exact h.finds_err _

/-! ## Consequences -/

/-- The call deletes the only wrapper of a document. -/
def CompatState.LastDelete (w : CompatState D) (call : CompatCall) (k : ArenaPtr) : Prop :=
  ∃ p, call = .delete (some p) ∧ w.wrappersOf k = {p}

namespace CompatStep

variable {w w' : CompatState D} {call : CompatCall} {r : Option CAddr} {k : ArenaPtr}

/-- The wrappers that are there are those that callers have. -/
theorem items_iff (hstep : CompatStep w call r w') (p : CAddr) :
    (w'.items p).isSome ↔ p ∈ call.after {p | (w.items p).isSome} r := by
  have hafter : (∀ p, call ≠ .delete (some p)) →
      call.after {p | (w.items p).isSome} r = {p | (w.items p).isSome} ∪ {p | r = some p} := by
    intro hne
    unfold CompatCall.after
    split
    · exact absurd rfl (hne _)
    · rfl
  -- a call that returns a wrapper adds it to those that callers have
  have hnew : ∀ {p' : CAddr} {c : CJSON D}, (∀ p, call ≠ .delete (some p)) → r = some p' →
      ((update w.items p' (some c) p).isSome ↔ p ∈ call.after {p | (w.items p).isSome} r) := by
    rintro p' c hne rfl
    rw [hafter hne]
    by_cases hp : p = p'
    · simp [hp]
    · simp [hp]
  cases hstep with
  | nothing n hcall =>
    rw [hafter hcall]
    simp
  | refuse n hcall hm =>
    rw [hafter hcall.ne_delete]
    simp [CompatState.addArena]
  | enter n hcall => exact hnew hcall.ne_delete rfl
  | wrap n hcall => exact hnew hcall.ne_delete rfl
  | @cache p' c s hc hs A str =>
    rw [hafter fun p heq => by cases heq]
    by_cases hp : p = p'
    · simp [hp, hc]
    · simp [hp]
  | @deleteOther p' =>
    by_cases hp : p = p'
    · simp [hp, CompatCall.after]
    · simp [hp, CompatCall.after]
  | @deleteLast p' =>
    by_cases hp : p = p'
    · simp [hp, CompatCall.after]
    · simp [hp, CompatCall.after]

/-- A deletion is the last one of a document if it is of a wrapper of the document and the
counter becomes zero. -/
theorem lastDelete_iff (h : CompatOk w) {p : CAddr} {c : CJSON D} {o : SjsonCjsonOwner}
    (hc : w.items p = some c) (ho : w.owners c.owner = some o) :
    w.LastDelete (.delete (some p)) k ↔ k = c.arena ∧ o.references - 1 = 0 := by
  rw [h.last_iff hc ho, ← h.wrappersOf_eq (h.item p c hc).owner]
  constructor
  · rintro ⟨p', hcall, hset⟩
    obtain rfl : p = p' := by simpa using hcall
    have hmem : p ∈ w.wrappersOf k := hset ▸ Set.mem_singleton p
    obtain ⟨c', hc', hk⟩ := hmem
    obtain rfl : c = c' := Option.some.inj (hc.symm.trans hc')
    exact ⟨hk.symm, hk ▸ hset⟩
  · rintro ⟨rfl, hset⟩
    exact ⟨p, rfl, hset⟩

/-- **An arena is destroyed at the deletion of the last wrapper of its document**, and by
nothing else. -/
theorem arena_ends (h : CompatOk w) (hstep : CompatStep w call r w') {s : St D}
    (hs : w.arenaAt k = some s) : w'.arenaAt k = none ↔ w.LastDelete call k := by
  -- no call but a deletion ends an arena
  have hkeep : ∀ {s'}, (∀ p, call ≠ .delete (some p)) → w'.arenaAt k = some s' →
      (w'.arenaAt k = none ↔ w.LastDelete call k) := by
    intro s' hne hs'
    constructor
    · intro hnone
      rw [hs'] at hnone
      cases hnone
    · rintro ⟨p, hcall, -⟩
      exact absurd hcall (hne p)
  cases hstep with
  | nothing n hcall => exact hkeep hcall hs
  | refuse n hcall hm => exact hkeep hcall.ne_delete (CompatState.arenaAt_addArena (.gone _) hs)
  | enter n hcall => exact hkeep hcall.ne_delete (CompatState.arenaAt_addArena (.live _) hs)
  | wrap n hcall => exact hkeep hcall.ne_delete hs
  | @cache _ c s' hc hs' A str =>
    have hat := CompatState.arenaAt_set (CompatState.lt_of_arenaAt hs') (.live ⟨s'.heap, A⟩) k
    by_cases hk : k = c.arena
    · rw [if_pos hk] at hat
      exact hkeep (fun p heq => by cases heq) hat
    · rw [if_neg hk] at hat
      exact hkeep (fun p heq => by cases heq) (hat.trans hs)
  | deleteOther hc ho hne =>
    rw [lastDelete_iff h hc ho]
    constructor
    · intro hnone
      have hs' : w.arenaAt k = none := hnone
      rw [hs] at hs'
      cases hs'
    · exact fun hlast => absurd hlast.2 hne
  | @deleteLast p c o m hc ho hone hm =>
    obtain ⟨s', hs'⟩ := h.owner _ _ (h.item p c hc).owner
    have hat := CompatState.arenaAt_set (CompatState.lt_of_arenaAt hs') (.gone m) k
    rw [lastDelete_iff h hc ho]
    show CompatState.arenaAt { w with arenas := w.arenas.set c.arena (.gone m) } k = none ↔ _
    rw [hat]
    by_cases hk : k = c.arena
    · simp [hk, hone]
    · simp [hk, hs]

/-- **An owner is freed together with the arena.** -/
theorem owner_ends (h : CompatOk w) (hstep : CompatStep w call r w') {q : CAddr}
    {o : SjsonCjsonOwner} (hq : w.owners q = some o) :
    w'.owners q = none ↔ w.LastDelete call o.arena := by
  have hkeep : (∀ p, call ≠ .delete (some p)) → w'.owners q ≠ none →
      (w'.owners q = none ↔ w.LastDelete call o.arena) := by
    intro hne hsome
    constructor
    · exact fun hnone => absurd hnone hsome
    · rintro ⟨p, hcall, -⟩
      exact absurd hcall (hne p)
  -- an owner that is written is there afterwards
  have hset : ∀ {q' : CAddr} {o' : SjsonCjsonOwner}, update w.owners q' (some o') q ≠ none := by
    intro q' o'
    by_cases hqq : q = q'
    · simp [hqq]
    · simp [hqq, hq]
  cases hstep with
  | nothing n hcall => exact hkeep hcall (by simp [hq])
  | refuse n hcall hm => exact hkeep hcall.ne_delete (by simp [CompatState.addArena, hq])
  | enter n hcall => exact hkeep hcall.ne_delete hset
  | wrap n hcall => exact hkeep hcall.ne_delete hset
  | cache hc hs A str => exact hkeep (fun p heq => by cases heq) (by simp [hq])
  | deleteOther hc ho hne =>
    rw [lastDelete_iff h hc ho]
    exact ⟨fun hnone => absurd hnone hset, fun hlast => absurd hlast.2 hne⟩
  | @deleteLast p c o' m hc ho hone hm =>
    rw [lastDelete_iff h hc ho]
    show update w.owners c.owner none q = none ↔ _
    have hqo := CompatState.arenaOf_of hq
    have hcown := (h.item p c hc).owner
    -- two owners do not share an arena
    by_cases hqc : q = c.owner
    · rw [hqc, hcown] at hqo
      simp [hqc, hone, Option.some.inj hqo]
    · rw [update_of_ne hqc, hq]
      constructor
      · intro hnone
        cases hnone
      · rintro ⟨harena, -⟩
        exact absurd (h.inj _ _ _ (harena ▸ hqo) hcown) hqc

/-- What was destroyed stays so. -/
theorem gone_stays (h : CompatOk w) (hstep : CompatStep w call r w') {m : BlockMem}
    (hk : w.arenas[k]? = some (.gone m)) : w'.arenas[k]? = some (.gone m) := by
  have hlt : k < w.arenas.length := (List.getElem?_eq_some_iff.mp hk).1
  have hset : ∀ {k' : ArenaPtr} {s : St D} (cell : ArenaCell D), w.arenaAt k' = some s →
      (w.arenas.set k' cell)[k]? = some (.gone m) := by
    intro k' s cell hs
    have hne : k' ≠ k := by
      rintro rfl
      rw [CompatState.arenaAt_eq_some, hk] at hs
      cases hs
    rw [List.getElem?_set_ne hne, hk]
  cases hstep with
  | refuse n hcall hm => exact (CompatState.addArena_lt (.gone _) hlt).trans hk
  | enter n hcall => exact (CompatState.addArena_lt (.live _) hlt).trans hk
  | cache hc hs A str => exact hset _ hs
  | @deleteLast p c o m' hc ho hone hm =>
    obtain ⟨s, hs⟩ := h.owner _ _ (h.item p c hc).owner
    exact hset _ hs
  | _ => exact hk

/-- **A parse that returns `NULL` leaves nothing of what it made.** -/
theorem parse_none (hstep : CompatStep w call none w') (hcall : call.Parses) :
    w'.owners = w.owners ∧ w'.items = w.items ∧
      ∀ k m, w.arenas.length ≤ k → w'.arenas[k]? = some m → ∃ m', m = .gone m' ∧ m'.live = [] := by
  have hold : ∀ (k : ArenaPtr) (m : ArenaCell D), w.arenas.length ≤ k → w.arenas[k]? = some m →
      ∃ m', m = .gone m' ∧ m'.live = [] := by
    intro k m hk hm
    rw [List.getElem?_eq_none hk] at hm
    cases hm
  cases hstep with
  | nothing n _ => exact ⟨rfl, rfl, hold⟩
  | @refuse _ m n _ hm =>
    refine ⟨rfl, rfl, fun k cell hk hcell => ?_⟩
    have hcell' : (w.arenas ++ [ArenaCell.gone m])[k]? = some cell := hcell
    rw [List.getElem?_append_right hk, List.getElem?_singleton] at hcell'
    split_ifs at hcell'
    exact ⟨m, (Option.some.inj hcell').symm, hm⟩
  | cache => obtain ⟨_, h | h⟩ := hcall <;> cases h
  | deleteOther => obtain ⟨_, h | h⟩ := hcall <;> cases h
  | deleteLast => obtain ⟨_, h | h⟩ := hcall <;> cases h

/-- **A parse that returns a wrapper has made a document**, of which it is the only one. -/
theorem parse_some (h : CompatOk w) {p : CAddr} (hstep : CompatStep w call (some p) w')
    (hcall : call.Parses) :
    (∃ s, w'.arenaAt w.arenas.length = some s) ∧ w'.wrappersOf w.arenas.length = {p} := by
  cases hstep with
  | @enter _ s v _ q c n _ hrep hva hvn hq hp hfree hca hco hcv =>
    refine ⟨⟨s, ?_⟩, ?_⟩
    · rw [CompatState.arenaAt_eq_some]
      exact CompatState.addArena_self (.live s)
    · ext p'
      constructor
      · rintro ⟨c', hc', hk⟩
        have hc'' : update w.items p (some c) p' = some c' := hc'
        by_cases hpp : p' = p
        · exact hpp
        · rw [update_of_ne hpp] at hc''
          obtain ⟨s', hs'⟩ := h.owner _ _ (h.item p' c' hc'').owner
          rw [hk, CompatState.arenaAt_length] at hs'
          cases hs'
      · intro hmem
        obtain rfl : p' = p := hmem
        exact ⟨c, update_self .., hca⟩
  | wrap n hlooks =>
    obtain ⟨_, h | h⟩ := hcall <;> subst h <;> obtain ⟨_, _, h⟩ | ⟨_, _, h⟩ := hlooks <;> cases h

end CompatStep

section Runs

variable [CDouble D] [CDoubleInt D] {B : Backing}

/-- Wrapping what a lookup finds. -/
theorem wrapFound_step {w : CompatState D} (h : CompatOk w) {call : CompatCall}
    (hcall : call.Looks) {p : CAddr} (hp : (w.items p).isSome)
    {lookup : Heap D → JsonPtr → Scan JsonPtr}
    (hfinds : ∀ {hp : Heap D} {v}, hp.RepOk → v < hp.next → hp.Finds (lookup hp v)) :
    ∃ r w', wrapFound B p lookup w = some (r, w') ∧ CompatStep w call r w' := by
  obtain ⟨c, hc⟩ := Option.isSome_iff_exists.mp hp
  obtain ⟨howner, hvalue⟩ := h.item p c hc
  unfold wrapFound
  rw [hc, Option.bind_eq_bind, Option.bind_some]
  cases hcv : c.value with
  | none => exact ⟨none, w, rfl, .nothing w.calls hcall.ne_delete⟩
  | some v =>
    obtain ⟨hva, hp, hnodes⟩ := hvalue v hcv
    obtain ⟨s, hs, hlt, rfl⟩ := CompatState.nodesOf_eq_some.mp hnodes
    obtain ⟨hfault, hfound⟩ := hfinds (h.arena _ s hs).1 hlt
    simp only [hnodes, Option.bind_eq_bind, Option.bind_some]
    cases hlook : lookup s.heap v.node with
    | error e =>
      cases e with
      | err e => exact ⟨none, w, rfl, .nothing w.calls hcall.ne_delete⟩
      | fault f => exact absurd hlook (hfault f)
    | ok out =>
      obtain ⟨o, ho, hoa⟩ := CompatState.arenaOf_eq_some.mp howner
      have hout : w.nodesOf ⟨v.arena, out⟩ = some s.heap :=
        CompatState.nodesOf_eq_some.mpr ⟨s, hs, hfound out hlook, rfl⟩
      rcases sjsonCjsonWrap_cases (B := B) 0 ho hout with hfail |
        ⟨p', c', hp0, hfree, -, hca, hco, hcv', hwrap⟩
      · exact ⟨none, _, hfail, .nothing _ hcall.ne_delete⟩
      · exact ⟨some p', _, hwrap, .wrap _ hcall ho hout (hva.trans hoa.symm) hp0 hfree hca hco hcv'⟩

/-- The owner and the wrapper of a document are both made, or the arena is destroyed. -/
theorem wrapRoot_step (w : CompatState D) {call : CompatCall} (hcall : call.Parses) {s : St D}
    (hrep : s.heap.RepOk) {root : JsonPtr} (hroot : root < s.heap.next) :
    ∃ r w', wrapRoot B w.arenas.length root (w.addArena (.live s)) = some (r, w') ∧
      CompatStep w call r w' := by
  unfold wrapRoot
  rcases (w.addArena (.live s)).malloc_cases B sizeofSjsonCjsonOwner with hfail |
    ⟨q, hq, -, hqfree, -⟩
  · -- there is no owner
    obtain ⟨m, hm, hdestroy⟩ := CompatState.destroyArena_last
      (w := { w.addArena (.live s) with calls := w.calls + 1 }) (s := s) rfl
    refine ⟨none, _, ?_, .refuse (w.calls + 1) hcall hm⟩
    rw [hfail]
    exact congrArg (· >>= fun w => some (none, w)) hdestroy
  · rw [hq]
    simp only
    set w₁ : CompatState D :=
      { w.addArena (.live s) with
        calls := w.calls + 1
        owners := update w.owners q (some ⟨w.arenas.length, 0⟩) } with hw₁
    -- the owner is made with no reference, and the wrapper takes the first one
    have ho : w₁.owners q = some ⟨w.arenas.length, 0⟩ := update_self ..
    have hv : w₁.nodesOf ⟨w.arenas.length, root⟩ = some s.heap := by
      rw [CompatState.nodesOf_eq_some]
      refine ⟨s, ?_, hroot, rfl⟩
      rw [CompatState.arenaAt_eq_some]
      exact CompatState.addArena_self (.live s)
    have hset : ∀ o', update w₁.owners q o' = update w.owners q o' := fun _ => update_idem ..
    rcases sjsonCjsonWrap_cases (B := B) 1 ho hv with hfail |
      ⟨p, c, hp0, hfree, -, hca, hco, hcv, hwrap⟩
    · -- there is no wrapper
      obtain ⟨m, hm, hdestroy⟩ := CompatState.destroyArena_last
        (w := { w₁ with calls := w.calls + 2 }) (s := s) rfl
      refine ⟨none, _, ?_, .refuse (w.calls + 2) hcall hm⟩
      show (sjsonCjsonWrap B q (some ⟨w.arenas.length, root⟩) 1 w₁ >>= _) = _
      rw [hfail, Option.bind_eq_bind, Option.bind_some]
      show (CompatState.destroyArena { w₁ with calls := w.calls + 2 } w.arenas.length >>= _) = _
      rw [hdestroy, Option.bind_eq_bind, Option.bind_some, CompatState.freeOwner, ho]
      have hsame : update w.owners q none = w.owners := update_eq_self_iff.mpr hqfree.symm
      simp [hw₁, hsame]
      exact ⟨rfl, rfl, rfl⟩
    · refine ⟨some p, _, ?_, .enter (w.calls + 2) hcall hrep rfl hroot hqfree hp0 hfree hca
        hco hcv⟩
      show (sjsonCjsonWrap B q (some ⟨w.arenas.length, root⟩) 1 w₁ >>= _) = _
      rw [hwrap, hset]
      rfl

/-- The arena, the owner and the wrapper are made together or not at all. -/
theorem parseBuffer_step (w : CompatState D) {call : CompatCall} (hcall : call.Parses)
    (buffer : List UInt8) :
    ∃ r w', parseBuffer B buffer w = some (r, w') ∧ CompatStep w call r w' := by
  unfold parseBuffer
  by_cases hlen : buffer.length > (sizeMax - 65536) / 3
  · exact ⟨none, w, dif_pos hlen, .nothing w.calls hcall.ne_delete⟩
  · rw [dif_neg hlen]
    rcases hcreate : Arena.create (B.grants w.arenas.length) (buffer.length * 3 + 65536)
      (by unfold sizeMax at *; omega) with ⟨_ | A, m⟩
    · refine ⟨none, _, ?_, .refuse w.calls hcall (Arena.create_none hcreate)⟩
      simp only [hcreate]
      rfl
    · have hkeeps := keeps_jsonParse (s := (⟨.empty, A⟩ : St D)) ⟨Heap.RepOk.empty, le_rfl⟩ buffer
      cases hparse : jsonParse buffer (⟨.empty, A⟩ : St D) with
      | error e s =>
        cases e with
        | fault f => exact absurd hparse fun herr => (jsonParse_ensures buffer _).error herr
        | err e =>
          obtain ⟨m, hm, hdestroy⟩ :=
            CompatState.destroyArena_last (w := w.addArena (.live s)) (s := s) rfl
          refine ⟨none, _, ?_, .refuse w.calls hcall hm⟩
          simp only [hcreate, hparse, hdestroy, Option.bind_eq_bind, Option.bind_some]
          rfl
      | ok root s =>
        obtain ⟨⟨hrep, -⟩, hroot, -⟩ := hkeeps.ok hparse
        simp only [hcreate, hparse]
        exact wrapRoot_step w hcall hrep hroot

theorem cJSONParseWithLength_step (w : CompatState D) {call : CompatCall} (hcall : call.Parses)
    (value : Option (List UInt8)) :
    ∃ r w', cJSONParseWithLength B value w = some (r, w') ∧ CompatStep w call r w' := by
  cases value with
  | none => exact ⟨none, w, rfl, .nothing w.calls hcall.ne_delete⟩
  | some value => exact parseBuffer_step w hcall _

omit [CDouble D] [CDoubleInt D] in
/-- `cJSON_GetStringValue`. -/
theorem cJSONGetStringValue_step {w : CompatState D} (h : CompatOk w) {item : Option CAddr}
    (hitem : ∀ p, item = some p → (w.items p).isSome) :
    ∃ r w', (fun r => (none, r.2)) <$> cJSONGetStringValue item w = some (r, w') ∧
      CompatStep w (.getStringValue item) r w' := by
  have hnot : ∀ p, CompatCall.getStringValue item ≠ .delete (some p) := fun p heq => by cases heq
  have hnothing : CompatStep w (.getStringValue item) none w := .nothing w.calls hnot
  cases item with
  | none => exact ⟨none, w, rfl, hnothing⟩
  | some p =>
    obtain ⟨c, hc⟩ := Option.isSome_iff_exists.mp (hitem p rfl)
    obtain ⟨howner, hvalue⟩ := h.item p c hc
    unfold cJSONGetStringValue
    simp only [hc, Option.bind_eq_bind, Option.bind_some]
    cases hcv : c.value with
    | none => exact ⟨none, w, rfl, hnothing⟩
    | some v =>
      obtain ⟨hva, hp, hnodes⟩ := hvalue v hcv
      simp only [hnodes, Option.bind_some]
      cases hp.node v.node with
      | string str =>
        simp only
        by_cases hcached : c.valuestring.isSome = true
        · rw [if_pos hcached]
          exact ⟨none, w, rfl, hnothing⟩
        · rw [if_neg hcached]
          obtain ⟨s, hs⟩ := h.owner _ _ howner
          rw [hs, Option.bind_some]
          -- the copy of the string is cached if there is memory for it
          cases halloc : s.arena.alloc (str.len + 1) with
          | mk out A =>
            cases out with
            | none =>
              have hcache := CompatStep.cache hc hs A c.valuestring
              have hsame : update w.items p (some c) = w.items := update_eq_self_iff.mpr hc.symm
              rw [show { c with valuestring := c.valuestring } = c from rfl, hsame] at hcache
              exact ⟨none, _, rfl, hcache⟩
            | some place =>
              have hcache := CompatStep.cache hc hs A (some ⟨place, str.data ++ [0]⟩)
              rw [hcv] at hcache
              exact ⟨none, _, rfl, hcache⟩
      | _ => exact ⟨none, w, rfl, hnothing⟩

omit [CDouble D] [CDoubleInt D] in
/-- `cJSON_Delete`. -/
theorem cJSONDelete_step {w : CompatState D} (h : CompatOk w) {item : Option CAddr}
    (hitem : ∀ p, item = some p → (w.items p).isSome) :
    ∃ r w', (fun w => (none, w)) <$> cJSONDelete item w = some (r, w') ∧
      CompatStep w (.delete item) r w' := by
  cases item with
  | none => exact ⟨none, w, rfl, .nothing w.calls fun p heq => by cases heq⟩
  | some p =>
    obtain ⟨c, hc⟩ := Option.isSome_iff_exists.mp (hitem p rfl)
    have howner := (h.item p c hc).owner
    obtain ⟨s, hs⟩ := h.owner _ _ howner
    obtain ⟨o, ho, hoa⟩ := CompatState.arenaOf_eq_some.mp howner
    unfold cJSONDelete
    simp only [hc, ho, Option.bind_eq_bind, Option.bind_some]
    -- the counter decides whether the document goes with the wrapper
    by_cases hone : o.references - 1 = 0
    · rw [if_pos hone]
      set w₁ := w.setOwner c.owner ⟨o.arena, o.references - 1⟩ with hw₁
      have hs₁ : w₁.arenaAt c.arena = some s := hs
      obtain ⟨m, hm, hdestroy⟩ := CompatState.destroyArena_eq hs₁
      refine ⟨none, _, ?_, .deleteLast hc ho hone hm⟩
      rw [hdestroy, Option.bind_some]
      simp [CompatState.freeOwner, CompatState.freeItem, hw₁, CompatState.setOwner, hc]
    · rw [if_neg hone]
      refine ⟨none, _, ?_, .deleteOther hc ho hone⟩
      simp [CompatState.freeItem, CompatState.setOwner, hc]

/-- **Every call of a careful caller is defined**, and does one of the steps. -/
theorem CompatOk.run_step {w : CompatState D} (h : CompatOk w) (call : CompatCall)
    (harg : ∀ p, call.arg = some p → (w.items p).isSome) :
    ∃ r w', call.run B w = some (r, w') ∧ CompatStep w call r w' := by
  cases call with
  | parse value =>
    cases value with
    | none => exact ⟨none, w, rfl, .nothing w.calls fun p heq => by cases heq⟩
    | some value => exact cJSONParseWithLength_step w ⟨_, .inl rfl⟩ (some value)
  | parseWithLength value => exact cJSONParseWithLength_step w ⟨value, .inr rfl⟩ value
  | getArrayItem array index =>
    have hlooks : (CompatCall.getArrayItem array index).Looks := .inl ⟨array, index, rfl⟩
    have hnothing : CompatStep w (.getArrayItem array index) none w :=
      .nothing w.calls hlooks.ne_delete
    cases array with
    | none => exact ⟨none, w, rfl, hnothing⟩
    | some p =>
      by_cases hneg : index < 0
      · exact ⟨none, w, if_pos hneg, hnothing⟩
      · show ∃ r w', (if index < 0 then _ else _) = _ ∧ _
        rw [if_neg hneg]
        exact wrapFound_step h hlooks (harg p rfl) fun hrep hv => jsonArrGet_finds hrep hv _
  | getObjectItem object string =>
    have hlooks : (CompatCall.getObjectItem object string).Looks := .inr ⟨object, string, rfl⟩
    have hnothing : CompatStep w (.getObjectItem object string) none w :=
      .nothing w.calls hlooks.ne_delete
    cases object with
    | none => exact ⟨none, w, rfl, hnothing⟩
    | some p =>
      cases string with
      | none => exact ⟨none, w, rfl, hnothing⟩
      | some key =>
        exact wrapFound_step h hlooks (harg p rfl) fun hrep hv => jsonObjGetN_finds hrep hv _
  | getStringValue item => exact cJSONGetStringValue_step h harg
  | delete item => exact cJSONDelete_step h harg

/-- **The invariant of runs.** -/
theorem CompatRun.ok {held : Set CAddr} {w : CompatState D} (h : CompatRun B held w) :
    CompatOk w ∧ held = {p | (w.items p).isSome} := by
  induction h with
  | start =>
    refine ⟨.init, ?_⟩
    ext p
    simp [CompatState.init]
  | @call held w w' r c _ harg hcall ih =>
    obtain ⟨hok, rfl⟩ := ih
    obtain ⟨r', w'', hrun, hstep⟩ := hok.run_step (B := B) c harg
    rw [hcall] at hrun
    obtain ⟨rfl, rfl⟩ : r = r' ∧ w' = w'' := by simpa using hrun
    refine ⟨hstep.ok hok, ?_⟩
    ext p
    exact (hstep.items_iff p).symm

/-- Where there was one document only, all the wrappers that callers have are of it. -/
theorem CompatRun.wrappersOf_eq {held : Set CAddr} {w : CompatState D} (h : CompatRun B held w)
    (hone : w.arenas.length = 1) : w.wrappersOf 0 = held := by
  obtain ⟨hok, rfl⟩ := h.ok
  ext p
  constructor
  · rintro ⟨c, hc, -⟩
    exact Option.isSome_iff_exists.mpr ⟨c, hc⟩
  · intro hp
    obtain ⟨c, hc⟩ := Option.isSome_iff_exists.mp hp
    obtain ⟨-, s, hs, -⟩ := hok.points hc
    have hlt := CompatState.lt_of_arenaAt hs
    rw [hone] at hlt
    exact ⟨c, hc, Nat.lt_one_iff.mp hlt⟩

/-- **Shared ownership.**  At every point of a run, whatever allocation failed so far: the
wrappers that are there are those that callers have; a counter is the number of the wrappers
of its document, and not zero; every arena that is not destroyed has one owner; and a wrapper
has an owner and an arena that are there.  Every call of a careful caller is defined, so that
nothing is used or freed that is not there.  It destroys an arena and frees the owner exactly
if it deletes the last wrapper of the document, and for good; a parse that returns `NULL`
leaves nothing.  When callers have no wrapper, nothing is outstanding. -/
theorem cJSON_ownership {held : Set CAddr} {w : CompatState D} (h : CompatRun B held w) :
    (∀ p, (w.items p).isSome ↔ p ∈ held) ∧
    (∀ q o, w.owners q = some o → o.references.toNat = (w.wrappersOf o.arena).ncard ∧
      0 < o.references.toNat ∧ ∃ s, w.arenaAt o.arena = some s) ∧
    (∀ k s, w.arenaAt k = some s → ∃! q, ∃ o, w.owners q = some o ∧ o.arena = k) ∧
    (∀ (k : ArenaPtr) m, w.arenas[k]? = some (ArenaCell.gone m) → m.live = []) ∧
    (∀ p c, w.items p = some c → (∃ o, w.owners c.owner = some o ∧ o.arena = c.arena) ∧
      ∃ s, w.arenaAt c.arena = some s ∧
        ∀ v, c.value = some v → v.arena = c.arena ∧ v.node < s.heap.next) ∧
    (held = ∅ → (∀ p, w.items p = none) ∧ (∀ q, w.owners q = none) ∧
      ∀ cell ∈ w.arenas, ∃ m, cell = ArenaCell.gone m ∧ m.live = []) ∧
    ∀ call : CompatCall, (∀ p, call.arg = some p → p ∈ held) →
      ∃ r w', call.run B w = some (r, w') ∧
        (∀ k s, w.arenaAt k = some s → (w'.arenaAt k = none ↔ w.LastDelete call k)) ∧
        (∀ q o, w.owners q = some o → (w'.owners q = none ↔ w.LastDelete call o.arena)) ∧
        (∀ (k : ArenaPtr) m, w.arenas[k]? = some (ArenaCell.gone m) →
          w'.arenas[k]? = some (ArenaCell.gone m)) ∧
        (call.Parses →
          (r = none → w'.owners = w.owners ∧ w'.items = w.items ∧
            ∀ (k : ArenaPtr) cell, w.arenas.length ≤ k → w'.arenas[k]? = some cell →
              ∃ m, cell = ArenaCell.gone m ∧ m.live = []) ∧
          ∀ p, r = some p → (∃ s, w'.arenaAt w.arenas.length = some s) ∧
            w'.wrappersOf w.arenas.length = {p}) := by
  obtain ⟨hok, rfl⟩ := h.ok
  refine ⟨fun p => Iff.rfl, fun q o hq => hok.counter hq, fun k s hs => ?_, hok.gone,
    fun p c hc => hok.points hc, fun hempty => ?_, fun call harg => ?_⟩
  · obtain ⟨q, hq⟩ := (hok.arena k s hs).2
    refine ⟨q, CompatState.arenaOf_eq_some.mp hq, fun q' hq' => ?_⟩
    exact hok.inj _ _ _ (CompatState.arenaOf_eq_some.mpr hq') hq
  · -- callers without wrappers
    have hitems : ∀ p, w.items p = none := by
      intro p
      have hp : p ∉ ({p | (w.items p).isSome} : Set CAddr) := hempty ▸ Set.notMem_empty p
      simpa using hp
    exact ⟨hitems, hok.nothing_left hitems⟩
  · obtain ⟨r, w', hrun, hstep⟩ := hok.run_step (B := B) call harg
    refine ⟨r, w', hrun, fun k s hs => hstep.arena_ends hok hs,
      fun q o hq => hstep.owner_ends hok hq, fun k m hk => hstep.gone_stays hok hk,
      fun hparses => ⟨?_, ?_⟩⟩
    · rintro rfl
      exact hstep.parse_none hparses
    · rintro p rfl
      exact hstep.parse_some hok hparses

end Runs

/-- The document `[1]` with two wrappers, where a third one was not to be had: deleting the first
one keeps the arena, and deleting the other one destroys it. -/
theorem cJSON_ownership_two :
    ∃ (_ : CDouble Unit) (_ : CDoubleInt Unit) (B : Backing) (w w' w'' : CompatState Unit),
      CompatRun B {2, 3} w ∧ w.wrappersOf 0 = {2, 3} ∧
      (CompatCall.delete (some 2)).run B w = some (none, w') ∧ (w'.arenaAt 0).isSome ∧
      (CompatCall.delete (some 3)).run B w' = some (none, w'') ∧ w''.arenaAt 0 = none := by
  let D : CDouble Unit := { CDouble.unit with strtod := fun t => ((), t.length) }
  let E : CDoubleInt Unit := ⟨(), fun _ => false, fun _ => false, fun _ => 0⟩
  -- the first three requests for memory are granted
  let B : Backing :=
    ⟨fun _ _ _ => true, fun n _ => if n < 3 then some (UInt64.ofNat (n + 1)) else none⟩
  obtain ⟨w₁, w₂, w, w', hparse, hget, hfail, hdelete, hone, hone', hlive⟩ :
      ∃ w₁ w₂ w w' : CompatState Unit,
        (CompatCall.parse (some [0x5B, 0x31, 0x5D])).run B .init = some (some 2, w₁) ∧
        (CompatCall.getArrayItem (some 2) 0).run B w₁ = some (some 3, w₂) ∧
        (CompatCall.getArrayItem (some 2) 0).run B w₂ = some (none, w) ∧
        (CompatCall.delete (some 2)).run B w = some (none, w') ∧
        w.arenas.length = 1 ∧ w'.arenas.length = 1 ∧ (w.arenaAt 0).isSome :=
    ⟨_, _, _, _, rfl, rfl, rfl, rfl, rfl, rfl, rfl⟩
  have hrun₁ : CompatRun B {2} w₁ := by
    have hcall := CompatRun.call _ CompatRun.start (fun p hp => by cases hp) hparse
    simpa [CompatCall.after] using hcall
  have hrun₂ : CompatRun B {2, 3} w₂ := by
    have hcall := CompatRun.call _ hrun₁ (fun p hp => by simpa using (Option.some.inj hp).symm) hget
    simpa [CompatCall.after, Set.pair_comm] using hcall
  have hrun : CompatRun B {2, 3} w := by
    have hcall := CompatRun.call _ hrun₂ (fun p hp => by simp [← Option.some.inj hp]) hfail
    simpa [CompatCall.after] using hcall
  have hset : w.wrappersOf 0 = {2, 3} := hrun.wrappersOf_eq hone
  obtain ⟨s, hs⟩ := Option.isSome_iff_exists.mp hlive
  obtain ⟨-, -, -, -, -, -, hcalls⟩ := cJSON_ownership hrun
  obtain ⟨r, w₃, hcall, harena, -⟩ := hcalls (.delete (some 2))
    fun p hp => by simp [← Option.some.inj hp]
  obtain ⟨rfl, rfl⟩ : none = r ∧ w' = w₃ := by simpa [hdelete] using hcall
  have hstays : (w'.arenaAt 0).isSome := by
    rw [Option.isSome_iff_ne_none, Ne, harena 0 s hs]
    rintro ⟨p, hp, hlast⟩
    have hthree : (3 : CAddr) ∈ ({p} : Set CAddr) := hlast ▸ hset ▸ .inr rfl
    rw [← Set.mem_singleton_iff.mp hthree] at hp
    cases hp
  -- one wrapper is left
  have hrun' : CompatRun B {3} w' := by
    have hafter := CompatRun.call _ hrun (fun p hp => by simp [← Option.some.inj hp]) hdelete
    have hleft : ({2, 3} : Set CAddr) \ {2} = {3} :=
      Set.insert_sdiff_self_of_notMem fun h => by cases h
    simpa [CompatCall.after, hleft] using hafter
  obtain ⟨s', hs'⟩ := Option.isSome_iff_exists.mp hstays
  obtain ⟨-, -, -, -, -, -, hcalls'⟩ := cJSON_ownership hrun'
  obtain ⟨r, w'', hcall', harena', -⟩ := hcalls' (.delete (some 3))
    fun p hp => (Option.some.inj hp).symm
  obtain rfl : none = r := by
    simp only [CompatCall.run, Option.map_eq_map, Option.map_eq_some_iff, Prod.mk.injEq] at hcall'
    obtain ⟨_, -, hr, -⟩ := hcall'
    exact hr
  exact ⟨D, E, B, w, w', w'', hrun, hset, hdelete, hstays, hcall',
    (harena' 0 s' hs').mpr ⟨3, rfl, hrun'.wrappersOf_eq hone'⟩⟩

end SJson
