/-
# The invariant of the C++ layer

Objects are the handles of the storages they share (`RefCount.Counted`), a node is in memory
only of a storage that is not destroyed, and a value whose generation is that of its storage
points into the memory of that storage; where a value points into memory at all, there is a
tree (`CppOk`).  Everything that happens to the objects is made of three steps: a temporary
`std::shared_ptr` is copied from another one, it changes places with that of an object, and it is
given up.
-/
import SJson.Cpp
import SJson.CloneSpec
import SJson.CompatInvariant
import SJson.Equality

namespace SJson

open RefCount Function

variable {D : Type}

/-! ## What is held -/

namespace CppState

/-- The nodes in the memory of a storage. -/
def In (w : CppState D) (k : StoragePtr) (p : JsonPtr) : Prop := w.home p = some k

/-- The storages that the objects hold, and the one that a temporary `std::shared_ptr` holds,
which is the handle `none`. -/
def own (w : CppState D) (t : Option StoragePtr) : Option CppAddr → Option StoragePtr
  | none => t
  | some a => (w.objects a).bind CppObject.owner

/-- The counter of a storage. -/
def count (w : CppState D) (k : StoragePtr) : Option ℕ := (w.storageAt k).map Storage.useCount

end CppState

/-- The tree that a value with a storage stands for, if it is not empty. -/
def CppValue.Means (w : CppState D) (v : CppValue) (j : Json D) : Prop :=
  ∃ k s p, v.owner = some k ∧ w.storageAt k = some s ∧ s.generation = v.generation ∧
    v.value = some p ∧ DenotesIn (w.In k) w.heap j p

/-- The tree at the pointer that a value hands out. -/
def CppValue.Shows (w : CppState D) (v : CppValue) (j : Json D) : Prop :=
  ∃ k p, v.get w = some (some p) ∧ DenotesIn (w.In k) w.heap j p

/-- A value in order: at its pointer there is a tree in the memory of a storage, as long as that
memory is not given up; the value is not newer than its own storage, and points into its memory
if it is as new. -/
structure CppValue.Ok (w : CppState D) (v : CppValue) : Prop where
  tree : ∀ p, v.value = some p → p < w.heap.next ∧
    ∀ k, w.home p = some k → ∃ j : Json D, DenotesIn (w.In k) w.heap j p
  older : ∀ k s, v.owner = some k → w.storageAt k = some s →
    v.generation.toNat ≤ s.generation.toNat
  fresh : ∀ k s p, v.owner = some k → w.storageAt k = some s → s.generation = v.generation →
    v.value = some p → w.home p = some k

/-- **The invariant**, after `n` calls that reset or trimmed an arena, while a temporary holds
`t`. -/
structure CppOk [CDouble D] (w : CppState D) (n : ℕ) (t : Option StoragePtr) : Prop where
  counted : Counted (w.own t) w.count
  heap : ApiHeap w.heap
  home : ∀ p k, w.home p = some k → p < w.heap.next ∧ ∃ s, w.storageAt k = some s
  gone : ∀ (k : StoragePtr) m, w.storages[k]? = some (StorageCell.gone m) → m.live = []
  resets : ∀ k s, w.storageAt k = some s → s.generation.toNat ≤ n
  value : ∀ a v, w.valueAt a = some v → v.Ok w

/-- What a step leaves as it is: storages that are there were there before, and except for
`x` they keep their generation and the trees in their memory.  No node gets into the memory of
a storage again, and one that is still in it has its tree. -/
structure CppState.Keeps (w w' : CppState D) (x : Option StoragePtr) : Prop where
  length : w.storages.length ≤ w'.storages.length
  back : ∀ k s', k < w.storages.length → w'.storageAt k = some s' →
    ∃ s, w.storageAt k = some s ∧ (some k ≠ x → s'.generation = s.generation)
  denotes : ∀ k s' (j : Json D) p, k < w.storages.length → w'.storageAt k = some s' →
    some k ≠ x → DenotesIn (w.In k) w.heap j p → DenotesIn (w'.In k) w'.heap j p
  next : w.heap.next ≤ w'.heap.next
  home : ∀ p k, p < w.heap.next → w'.home p = some k → w.home p = some k
  tree : ∀ k (j : Json D) p, p < w.heap.next → w'.home p = some k →
    DenotesIn (w.In k) w.heap j p → DenotesIn (w'.In k) w'.heap j p

/-! ## Storages -/

namespace CppState

variable {w w' : CppState D} {k : StoragePtr} {s : Storage}

theorem storageAt_eq_some : w.storageAt k = some s ↔ w.storages[k]? = some (.live s) := by
  rw [storageAt, Option.bind_eq_some_iff]
  constructor
  · rintro ⟨cell, hcell, hs⟩
    cases cell with
    | live s' => rw [hcell, Option.some.inj hs]
    | gone m => cases hs
  · exact fun h => ⟨_, h, rfl⟩

theorem lt_of_storageAt (h : w.storageAt k = some s) : k < w.storages.length :=
  (List.getElem?_eq_some_iff.mp (storageAt_eq_some.mp h)).1

/-- A storage that was there is replaced. -/
theorem storageAt_set (h : w.storageAt k = some s) (cell : StorageCell)
    (hw' : w'.storages = w.storages.set k cell) (k' : StoragePtr) :
    w'.storageAt k' = if k' = k then cell.storage else w.storageAt k' := by
  unfold storageAt
  rw [hw']
  by_cases hk : k' = k
  · rw [if_pos hk, hk, List.getElem?_set_self (lt_of_storageAt h), Option.bind_some]
  · rw [if_neg hk, List.getElem?_set_ne (Ne.symm hk)]

/-- One more storage. -/
theorem storageAt_add (cell : StorageCell) (k' : StoragePtr) :
    (w.addStorage cell).storageAt k' =
      if k' = w.storages.length then cell.storage else w.storageAt k' := by
  unfold storageAt addStorage
  by_cases hk : k' = w.storages.length
  · rw [if_pos hk, hk]
    simp
  · rw [if_neg hk]
    rcases Nat.lt_or_ge k' w.storages.length with hlt | hge
    · simp only [List.getElem?_append_left hlt]
    · rw [List.getElem?_eq_none hge, List.getElem?_eq_none]
      rw [List.length_append, List.length_singleton]
      exact Nat.succ_le_of_lt (lt_of_le_of_ne hge (Ne.symm hk))

theorem count_of (h : w.storageAt k = some s) : w.count k = some s.useCount := by
  rw [count, h, Option.map_some]

/-- The counters after a storage was replaced. -/
theorem count_set (h : w.storageAt k = some s) (cell : StorageCell)
    (hw' : w'.storages = w.storages.set k cell) :
    w'.count = update w.count k (cell.storage.map Storage.useCount) := by
  funext k'
  rw [count, storageAt_set h cell hw']
  by_cases hk : k' = k
  · rw [if_pos hk, hk, update_self]
  · rw [if_neg hk, update_of_ne hk, count]

/-! ## Steps that leave the storages alone -/

theorem Keeps.refl (w : CppState D) (x : Option StoragePtr) : w.Keeps w x where
  length := le_rfl
  back := fun _ s' _ hs' => ⟨s', hs', fun _ => rfl⟩
  denotes := fun _ _ _ _ _ _ _ h => h
  next := le_rfl
  home := fun _ _ _ h => h
  tree := fun _ _ _ _ _ h => h

theorem Keeps.trans {w'' : CppState D} {x : Option StoragePtr} (h : w.Keeps w' x)
    (h' : w'.Keeps w'' x) : w.Keeps w'' x where
  length := h.length.trans h'.length
  back k s'' hk hs'' := by
    obtain ⟨s', hs', heq'⟩ := h'.back k s'' (hk.trans_le h.length) hs''
    obtain ⟨s, hs, heq⟩ := h.back k s' hk hs'
    exact ⟨s, hs, fun hx => (heq' hx).trans (heq hx)⟩
  denotes k s'' j p hk hs'' hx hp := by
    obtain ⟨s', hs', -⟩ := h'.back k s'' (hk.trans_le h.length) hs''
    exact h'.denotes k s'' j p (hk.trans_le h.length) hs'' hx (h.denotes k s' j p hk hs' hx hp)
  next := h.next.trans h'.next
  home p k hlt hp := h.home p k hlt (h'.home p k (hlt.trans_le h.next) hp)
  tree k j p hlt hp hj :=
    h'.tree k j p (hlt.trans_le h.next) hp
      (h.tree k j p hlt (h'.home p k (hlt.trans_le h.next) hp) hj)

theorem Keeps.mono {x : Option StoragePtr} (h : w.Keeps w' none) : w.Keeps w' x where
  length := h.length
  back k s' hk hs' := by
    obtain ⟨s, hs, heq⟩ := h.back k s' hk hs'
    exact ⟨s, hs, fun _ => heq (Option.some_ne_none k)⟩
  denotes k s' j p hk hs' _ hp := h.denotes k s' j p hk hs' (Option.some_ne_none k) hp
  next := h.next
  home := h.home
  tree := h.tree

/-- The objects have no part in it. -/
theorem Keeps.of_eq (hheap : w'.heap = w.heap) (hhome : w'.home = w.home)
    (hstorages : w'.storages = w.storages) (x : Option StoragePtr) : w.Keeps w' x := by
  have hat : ∀ k, w'.storageAt k = w.storageAt k := fun k => by
    unfold storageAt
    rw [hstorages]
  have hin : ∀ k, w'.In k = w.In k := fun k => by
    unfold In
    rw [hhome]
  constructor
  · rw [hstorages]
  · intro k s' _ hs'
    exact ⟨s', (hat k).symm.trans hs', fun _ => rfl⟩
  · intro k _ j p _ _ _ hp
    rw [hin, hheap]
    exact hp
  · rw [hheap]
  · intro p k _ hp
    rwa [hhome] at hp
  · intro k j p _ _ hp
    rw [hin, hheap]
    exact hp

theorem Keeps.setObject (a : CppAddr) (o : CppObject) (x : Option StoragePtr) :
    w.Keeps (w.setObject a o) x := .of_eq (by rfl) (by rfl) (by rfl) x

theorem Keeps.dropObject (a : CppAddr) (x : Option StoragePtr) : w.Keeps (w.dropObject a) x :=
  .of_eq (by rfl) (by rfl) (by rfl) x

end CppState

open CppState

/-- An empty value is in order. -/
theorem CppValue.Ok.of_empty {w : CppState D} {v : CppValue} (hval : v.value = none)
    (hown : v.owner = none) : v.Ok w := by
  refine ⟨fun p hp => ?_, fun k s hk => ?_, fun k s p hk => ?_⟩
  · rw [hval] at hp
    cases hp
  · rw [hown] at hk
    cases hk
  · rw [hown] at hk
    cases hk

/-- A value that shares no storage is in order with its tree. -/
theorem CppValue.Ok.of_borrowed {w : CppState D} {v v' : CppValue} (h : v.Ok w)
    (hval : ∀ p, v'.value = some p → v.value = some p) (hown : v'.owner = none) : v'.Ok w := by
  refine ⟨fun p hp => h.tree p (hval p hp), fun k s hk => ?_, fun k s p hk => ?_⟩
  · rw [hown] at hk
    cases hk
  · rw [hown] at hk
    cases hk

/-- What a value points to stays in order. -/
theorem CppValue.Ok.keeps_tree {w w' : CppState D} {v : CppValue} {x : Option StoragePtr}
    (h : v.Ok w) (hk : w.Keeps w' x) {p : JsonPtr} (hp : v.value = some p) :
    p < w'.heap.next ∧ ∀ k, w'.home p = some k →
      ∃ j : Json D, DenotesIn (w'.In k) w'.heap j p := by
  obtain ⟨hlt, htree⟩ := h.tree p hp
  refine ⟨hlt.trans_le hk.next, ?_⟩
  intro k hhome
  obtain ⟨j, hj⟩ := htree k (hk.home p k hlt hhome)
  exact ⟨j, hk.tree k j p hlt hhome hj⟩

/-- A value stays in order. -/
theorem CppValue.Ok.keeps {w w' : CppState D} {v : CppValue} (h : v.Ok w)
    (hlt : ∀ k, v.owner = some k → k < w.storages.length) (hk : w.Keeps w' none) : v.Ok w' := by
  constructor
  · exact fun p hp => h.keeps_tree hk hp
  · intro k s' hown hs'
    obtain ⟨s, hs, heq⟩ := hk.back k s' (hlt k hown) hs'
    rw [heq (Option.some_ne_none k)]
    exact h.older k s hown hs
  · intro k s' p hown hs' hgen hp
    obtain ⟨s, hs, heq⟩ := hk.back k s' (hlt k hown) hs'
    rw [heq (Option.some_ne_none k)] at hgen
    have hhome := h.fresh k s p hown hs hgen hp
    obtain ⟨j, hj⟩ := (h.tree p hp).2 k hhome
    exact (hk.denotes k s' j p (hlt k hown) hs' (Option.some_ne_none k) hj).ok

/-- A value keeps its tree while its storage is there. -/
theorem CppValue.Means.keeps {w w' : CppState D} {x : Option StoragePtr} {v : CppValue} {j : Json D}
    (h : v.Means w j) (hk : w.Keeps w' x) (hx : v.owner ≠ x)
    (hlive : ∀ k, v.owner = some k → ∃ s, w'.storageAt k = some s) : v.Means w' j := by
  obtain ⟨k, s, p, hown, hs, hgen, hp, hj⟩ := h
  obtain ⟨s', hs'⟩ := hlive k hown
  have hlt := lt_of_storageAt hs
  have hne : some k ≠ x := hown ▸ hx
  obtain ⟨s₀, hs₀, heq⟩ := hk.back k s' hlt hs'
  obtain rfl := Option.some.inj (hs.symm.trans hs₀)
  exact ⟨k, s', p, hown, hs', (heq hne).trans hgen, hp, hk.denotes k s' j p hlt hs' hne hj⟩

/-! ## Consequences of the invariant -/

section Steps

variable [CDouble D] {w w' : CppState D} {n : ℕ} {t : Option StoragePtr} {k : StoragePtr}
  {s : Storage}

omit [CDouble D] in
theorem CppState.valueAt_eq_some {a : CppAddr} {v : CppValue} :
    w.valueAt a = some v ↔ w.objects a = some (.value v) := by
  unfold valueAt
  split
  · rename_i x hx
    rw [hx]
    simp
  · rename_i hne
    exact ⟨fun h => (by cases h), fun h => absurd h (hne v)⟩

omit [CDouble D] in
theorem CppState.arenaAt_eq_some {a : CppAddr} {x : CppArena} :
    w.arenaAt a = some x ↔ w.objects a = some (.arena x) := by
  unfold CppState.arenaAt
  split
  · rename_i x' hx
    rw [hx]
    simp
  · rename_i hne
    exact ⟨fun h => (by cases h), fun h => absurd h (hne x)⟩

omit [CDouble D] in
theorem CppState.own_of {a : CppAddr} {o : CppObject} (ha : w.objects a = some o) :
    w.own t (some a) = o.owner := by
  rw [own, ha, Option.bind_some]

/-- What is held is there. -/
theorem CppOk.held (h : CppOk w n t) {a : Option CppAddr} (ha : w.own t a = some k) :
    ∃ s, w.storageAt k = some s := by
  have hsome := h.counted.held ha
  rw [count, Option.isSome_map] at hsome
  exact Option.isSome_iff_exists.mp hsome

theorem CppOk.owner (h : CppOk w n t) {a : CppAddr} {o : CppObject} (ha : w.objects a = some o)
    (hk : o.owner = some k) : ∃ s, w.storageAt k = some s :=
  h.held (a := some a) ((own_of ha).trans hk)

/-- Values stay in order. -/
theorem CppOk.values (h : CppOk w n t) (hk : w.Keeps w' none) {a : CppAddr} {v : CppValue}
    (ha : w.valueAt a = some v) : v.Ok w' := by
  refine (h.value a v ha).keeps ?_ hk
  intro k hown
  obtain ⟨s, hs⟩ := h.owner (valueAt_eq_some.mp ha) hown
  exact lt_of_storageAt hs

/-! ## Temporaries -/

/-- A storage of the same generation takes the place of another one. -/
theorem CppOk.setStorage (h : CppOk w n t) (hs : w.storageAt k = some s) (s' : Storage)
    (hgen : s'.generation = s.generation) {t' : Option StoragePtr}
    (hcounted : Counted (w.own t') (update w.count k (some s'.useCount))) :
    CppOk (w.setStorage k s') n t' ∧ w.Keeps (w.setStorage k s') none := by
  have hat : ∀ k', (w.setStorage k s').storageAt k' = if k' = k then some s' else w.storageAt k' :=
    storageAt_set hs (.live s') rfl
  have hkeeps : w.Keeps (w.setStorage k s') none := by
    constructor
    · simp [CppState.setStorage]
    · intro k' s'' _ hs''
      rw [hat] at hs''
      by_cases hk : k' = k
      · rw [if_pos hk] at hs''
        obtain rfl := Option.some.inj hs''
        exact ⟨s, hk ▸ hs, fun _ => hgen⟩
      · rw [if_neg hk] at hs''
        exact ⟨s'', hs'', fun _ => rfl⟩
    · exact fun _ _ _ _ _ _ _ hp => hp
    · exact le_rfl
    · exact fun _ _ _ hp => hp
    · exact fun _ _ _ _ _ hp => hp
  refine ⟨⟨?_, h.heap, ?_, ?_, ?_, ?_⟩, hkeeps⟩
  · rw [count_set hs (.live s') rfl]
    exact hcounted
  · intro p k' hp
    obtain ⟨hlt, s₀, hs₀⟩ := h.home p k' hp
    refine ⟨hlt, ?_⟩
    rw [hat]
    by_cases hk : k' = k
    · exact ⟨s', if_pos hk⟩
    · exact ⟨s₀, (if_neg hk).trans hs₀⟩
  · intro k' m hm
    by_cases hk : k' = k
    · rw [hk] at hm
      have hself : (w.setStorage k s').storages[k]? = some (.live s') :=
        List.getElem?_set_self (lt_of_storageAt hs)
      rw [hself] at hm
      cases hm
    · exact h.gone k' m ((List.getElem?_set_ne (Ne.symm hk)).symm.trans hm)
  · intro k' s'' hs''
    rw [hat] at hs''
    by_cases hk : k' = k
    · rw [if_pos hk] at hs''
      obtain rfl := Option.some.inj hs''
      rw [hgen]
      exact h.resets k s hs
    · rw [if_neg hk] at hs''
      exact h.resets k' s'' hs''
  · exact fun a v ha => h.values hkeeps ha

omit [CDouble D] in
/-- What a temporary is given. -/
theorem CppState.own_update (w : CppState D) (t t' : Option StoragePtr) :
    update (w.own t) none t' = w.own t' := by
  funext a
  cases a with
  | none => rw [update_self, own]
  | some a => rw [update_of_ne (by simp), own, own]

/-- **A shared pointer is copied.** -/
theorem CppOk.retain (h : CppOk w n none) {o : Option StoragePtr}
    (ho : ∀ k, o = some k → ∃ s, w.storageAt k = some s) :
    ∃ w', w.retain o = some w' ∧ CppOk w' n o ∧ w.Keeps w' none ∧ w'.home = w.home ∧
      w'.objects = w.objects := by
  cases o with
  | none => exact ⟨w, rfl, h, .refl .., rfl, rfl⟩
  | some k =>
    obtain ⟨s, hs⟩ := ho k rfl
    have htake := h.counted.take (a := none) rfl k
    rw [own_update, count_of hs, Option.getD_some] at htake
    obtain ⟨hok, hkeeps⟩ := h.setStorage hs { s with useCount := s.useCount + 1 } rfl htake
    refine ⟨_, ?_, hok, hkeeps, rfl, rfl⟩
    rw [CppState.retain, hs]
    rfl

omit [CDouble D] in
/-- Destroying a storage that is there leaves nothing of its arena. -/
theorem CppState.destroyStorage_eq (hs : w.storageAt k = some s) : ∃ m, m.live = [] ∧
    w.destroyStorage k = some
      (clearHome { w with storages := w.storages.set k (.gone m) } k) := by
  obtain ⟨pre, post, hok⟩ := s.arena.ok
  obtain ⟨m, hdestroy, hidle⟩ := hok.toChainOk.destroy
  refine ⟨m, hidle.live, ?_⟩
  rw [destroyStorage, hs]
  simp [hdestroy]

omit [CDouble D] in
theorem CppState.clearHome_eq_some {p : JsonPtr} {k' : StoragePtr} :
    (w.clearHome k).home p = some k' ↔ w.home p = some k' ∧ k' ≠ k := by
  unfold clearHome
  by_cases hp : w.home p = some k
  · simp only [if_pos hp]
    constructor
    · intro h
      cases h
    · rintro ⟨hk', hne⟩
      exact absurd (Option.some.inj (hk'.symm.trans hp)) hne
  · simp only [if_neg hp]
    constructor
    · intro hk'
      refine ⟨hk', ?_⟩
      rintro rfl
      exact hp hk'
    · exact And.left

/-- A storage whose last pointer is given up is destroyed. -/
theorem CppOk.destroy (h : CppOk w n t) (hs : w.storageAt k = some s) {m : BlockMem}
    (hm : m.live = []) {t' : Option StoragePtr}
    (hcounted : Counted (w.own t') (update w.count k none)) (hw' :
      w' = clearHome { w with storages := w.storages.set k (.gone m) } k) :
    CppOk w' n t' ∧ w.Keeps w' none := by
  subst hw'
  set w' := clearHome { w with storages := w.storages.set k (.gone m) } k with hw'
  have hat : ∀ k', w'.storageAt k' = if k' = k then none else w.storageAt k' :=
    storageAt_set hs (.gone m) rfl
  have hhome : ∀ p k', w'.home p = some k' ↔ w.home p = some k' ∧ k' ≠ k := fun _ _ =>
    clearHome_eq_some
  have hkeeps : w.Keeps w' none := by
    constructor
    · simp [hw', clearHome]
    · intro k' s' _ hs'
      rw [hat] at hs'
      by_cases hk : k' = k
      · rw [if_pos hk] at hs'
        cases hs'
      · rw [if_neg hk] at hs'
        exact ⟨s', hs', fun _ => rfl⟩
    · intro k' s' j p _ hs' _ hp
      rw [hat] at hs'
      by_cases hk : k' = k
      · rw [if_pos hk] at hs'
        cases hs'
      · exact hp.congr fun q hq => ⟨(hhome q k').mpr ⟨hq, hk⟩, rfl⟩
    · exact le_rfl
    · exact fun p k' _ hp => ((hhome p k').mp hp).1
    · exact fun k' _ p _ hp hj =>
        hj.congr fun q hq => ⟨(hhome q k').mpr ⟨hq, ((hhome p k').mp hp).2⟩, rfl⟩
  refine ⟨⟨?_, h.heap, ?_, ?_, ?_, ?_⟩, hkeeps⟩
  · rw [show w'.count = update w.count k none from count_set hs (.gone m) rfl]
    exact hcounted
  · intro p k' hp
    obtain ⟨hp, hne⟩ := (hhome p k').mp hp
    obtain ⟨hlt, hlive⟩ := h.home p k' hp
    refine ⟨hlt, ?_⟩
    rwa [hat, if_neg hne]
  · intro k' m' hm'
    by_cases hk : k' = k
    · rw [hk] at hm'
      have hself : w'.storages[k]? = some (.gone m) := List.getElem?_set_self (lt_of_storageAt hs)
      rw [hself] at hm'
      obtain rfl : m = m' := by simpa using hm'
      exact hm
    · exact h.gone k' m' ((List.getElem?_set_ne (Ne.symm hk)).symm.trans hm')
  · intro k' s' hs'
    rw [hat] at hs'
    by_cases hk : k' = k
    · rw [if_pos hk] at hs'
      cases hs'
    · rw [if_neg hk] at hs'
      exact h.resets k' s' hs'
  · exact fun a v ha => h.values hkeeps ha

/-- **A shared pointer is given up.** -/
theorem CppOk.release (h : CppOk w n t) :
    ∃ w', w.release t = some w' ∧ CppOk w' n none ∧ w.Keeps w' none ∧ w'.objects = w.objects := by
  cases t with
  | none => exact ⟨w, rfl, h, .refl .., rfl⟩
  | some k =>
    obtain ⟨s, hs⟩ := h.held (a := none) rfl
    have hcount := count_of hs
    have hdrop := h.counted.drop (a := none) rfl hcount
    rw [own_update] at hdrop
    have hpos : s.useCount ≠ 0 := fun h0 => h.counted.pos k (h0 ▸ hcount)
    have hrun : w.release (some k) = if s.useCount - 1 = 0 then w.destroyStorage k
        else some (w.setStorage k { s with useCount := s.useCount - 1 }) := by
      rw [CppState.release]
      simp only [hs]
      rfl
    rw [hrun]
    by_cases hlast : s.useCount = 1
    · rw [if_pos hlast] at hdrop
      obtain ⟨m, hm, hdestroy⟩ := destroyStorage_eq hs
      obtain ⟨hok, hkeeps⟩ := h.destroy hs hm hdrop rfl
      rw [if_pos (by omega)]
      exact ⟨_, hdestroy, hok, hkeeps, rfl⟩
    · rw [if_neg hlast] at hdrop
      obtain ⟨hok, hkeeps⟩ := h.setStorage hs { s with useCount := s.useCount - 1 } rfl hdrop
      rw [if_neg (by omega)]
      exact ⟨_, rfl, hok, hkeeps, rfl⟩

/-! ## Objects -/

omit [CDouble D] in
/-- A temporary and the pointer of an object have changed places. -/
theorem CppState.own_swap {a : CppAddr} (hothers : ∀ a', a' ≠ a → w'.objects a' = w.objects a')
    (ha : (w'.objects a).bind CppObject.owner = t) :
    w'.own (w.own t (some a)) = w.own t ∘ Equiv.swap none (some a) := by
  funext a'
  cases a' with
  | none => rw [comp_apply, Equiv.swap_apply_left, own]
  | some a' =>
    by_cases haa : a' = a
    · rw [haa, comp_apply, Equiv.swap_apply_right]
      exact ha
    · rw [comp_apply, Equiv.swap_apply_of_ne_of_ne (by simp) (by simpa using haa), own,
        hothers a' haa, own]

omit [CDouble D] in
theorem CppState.setObject_ne {a a' : CppAddr} (o : CppObject) (h : a' ≠ a) :
    (w.setObject a o).objects a' = w.objects a' := update_of_ne h ..

omit [CDouble D] in
@[simp]
theorem CppState.setObject_self (a : CppAddr) (o : CppObject) :
    (w.setObject a o).objects a = some o := update_self ..

omit [CDouble D] in
@[simp]
theorem CppState.dropObject_self (a : CppAddr) : (w.dropObject a).objects a = none :=
  update_self ..

omit [CDouble D] in
theorem CppState.dropObject_ne {a a' : CppAddr} (h : a' ≠ a) :
    (w.dropObject a).objects a' = w.objects a' := update_of_ne h ..

/-- The objects are other ones, that hold what the old ones held. -/
theorem CppOk.objects (h : CppOk w n t) (hheap : w'.heap = w.heap) (hhome : w'.home = w.home)
    (hstorages : w'.storages = w.storages) {t' : Option StoragePtr}
    (hcounted : Counted (w'.own t') w.count)
    (hvalue : ∀ a v, w'.valueAt a = some v → v.Ok w) : CppOk w' n t' := by
  have hat : w'.storageAt = w.storageAt := by
    funext k
    rw [storageAt, storageAt, hstorages]
  have hkeeps : w.Keeps w' none := .of_eq hheap hhome hstorages none
  constructor
  · rw [show w'.count = w.count by funext k; rw [count, count, hat]]
    exact hcounted
  · rw [hheap]
    exact h.heap
  · rw [hhome, hheap, hat]
    exact h.home
  · rw [hstorages]
    exact h.gone
  · rw [hat]
    exact h.resets
  · intro a v ha
    have hok := hvalue a v ha
    refine ⟨fun p hp => hok.keeps_tree hkeeps hp, ?_, ?_⟩
    · rw [hat]
      exact hok.older
    · rw [hat, hhome]
      exact hok.fresh

/-- **An object takes what the temporary holds**, and the temporary what the object held. -/
theorem CppOk.setObject (h : CppOk w n t) {a : CppAddr} {o : CppObject} (ho : o.owner = t)
    (hv : ∀ v, o = .value v → v.Ok w) :
    CppOk (w.setObject a o) n (w.own t (some a)) := by
  apply h.objects (by rfl) (by rfl) (by rfl)
  · rw [own_swap (t := t) (fun a' haa => setObject_ne o haa)]
    · exact h.counted.perm _
    · rw [setObject_self, Option.bind_some, ho]
  · intro a' v ha'
    rw [valueAt_eq_some] at ha'
    by_cases haa : a' = a
    · rw [haa, setObject_self] at ha'
      exact hv v (Option.some.inj ha')
    · rw [setObject_ne o haa] at ha'
      exact h.value a' v (valueAt_eq_some.mpr ha')

/-- An object that goes leaves what it held to the temporary. -/
theorem CppOk.dropObject (h : CppOk w n none) (a : CppAddr) :
    CppOk (w.dropObject a) n (w.own none (some a)) := by
  apply h.objects (by rfl) (by rfl) (by rfl)
  · rw [own_swap (t := none) fun a' haa => dropObject_ne haa]
    · exact h.counted.perm _
    · rw [dropObject_self, Option.bind_none]
  · intro a' v ha'
    rw [valueAt_eq_some] at ha'
    by_cases haa : a' = a
    · rw [haa, dropObject_self] at ha'
      cases ha'
    · rw [dropObject_ne haa] at ha'
      exact h.value a' v (valueAt_eq_some.mpr ha')

/-- An object changes and holds what it held. -/
theorem CppOk.setSame (h : CppOk w n t) {a : CppAddr} {o o' : CppObject}
    (ha : w.objects a = some o) (hown : o'.owner = o.owner) (hv : ∀ v, o' = .value v → v.Ok w) :
    CppOk (w.setObject a o') n t := by
  apply h.objects (by rfl) (by rfl) (by rfl)
  · have hsame : (w.setObject a o').own t = w.own t := by
      funext a'
      cases a' with
      | none => rw [own, own]
      | some a' =>
        rw [own, own]
        by_cases haa : a' = a
        · rw [haa, setObject_self, ha, Option.bind_some, Option.bind_some, hown]
        · rw [setObject_ne o' haa]
    rw [hsame]
    exact h.counted
  · intro a' v ha'
    rw [valueAt_eq_some] at ha'
    by_cases haa : a' = a
    · rw [haa, setObject_self] at ha'
      exact hv v (Option.some.inj ha')
    · rw [setObject_ne o' haa] at ha'
      exact h.value a' v (valueAt_eq_some.mpr ha')

/-! ## Arenas -/

section Invalidated

variable {f : Arena → Arena}

omit [CDouble D] in
theorem storageAt_invalidated (hs : w.storageAt k = some s) (k' : StoragePtr) :
    (w.invalidated f k s).storageAt k' = if k' = k then
      some { s with arena := f s.arena, generation := s.generation + 1 } else w.storageAt k' :=
  storageAt_set hs (.live { s with arena := f s.arena, generation := s.generation + 1 }) rfl k'

omit [CDouble D] in
/-- The memory of the arena is given up. -/
theorem home_invalidated {p : JsonPtr} {k' : StoragePtr} :
    (w.invalidated f k s).home p = some k' ↔ w.home p = some k' ∧ k' ≠ k := clearHome_eq_some

theorem generation_invalidated (hs : w.storageAt k = some s) (h : CppOk w n t)
    (hn : n + 1 < 2 ^ 64) : (s.generation + 1).toNat = s.generation.toNat + 1 := by
  have hle := h.resets k s hs
  rw [UInt64.toNat_add]
  have hone : (1 : UInt64).toNat = 1 := rfl
  rw [hone]
  omega

omit [CDouble D] in
theorem keeps_invalidated (hs : w.storageAt k = some s) :
    w.Keeps (w.invalidated f k s) (some k) := by
  constructor
  · simp [CppState.invalidated, clearHome, CppState.setStorage]
  · intro k' s'' _ hs''
    rw [storageAt_invalidated hs] at hs''
    by_cases hk : k' = k
    · exact ⟨s, hk ▸ hs, fun hne => absurd (congrArg some hk) hne⟩
    · rw [if_neg hk] at hs''
      exact ⟨s'', hs'', fun _ => rfl⟩
  · intro k' s'' j p _ _ hne hp
    exact hp.congr fun q hq =>
      ⟨home_invalidated.mpr ⟨hq, fun hk => hne (congrArg some hk)⟩, rfl⟩
  · exact le_rfl
  · exact fun p k' _ hp => (home_invalidated.mp hp).1
  · exact fun k' _ p _ hp hj =>
      hj.congr fun q hq => ⟨home_invalidated.mpr ⟨hq, (home_invalidated.mp hp).2⟩, rfl⟩

omit [CDouble D] in
/-- A value of the storage is of an older generation from then on. -/
theorem CppValue.Ok.invalidated {v : CppValue} (hok : v.Ok w) (hs : w.storageAt k = some s)
    (hgen : (s.generation + 1).toNat = s.generation.toNat + 1) :
    v.Ok (w.invalidated f k s) := by
  refine ⟨fun p hp => hok.keeps_tree (keeps_invalidated hs) hp, ?_, ?_⟩
  · intro k' s'' hown hs''
    rw [storageAt_invalidated hs] at hs''
    by_cases hk : k' = k
    · rw [if_pos hk] at hs''
      obtain rfl := Option.some.inj hs''
      have hold := hok.older k s (hk ▸ hown) hs
      show _ ≤ (s.generation + 1).toNat
      omega
    · rw [if_neg hk] at hs''
      exact hok.older k' s'' hown hs''
  · intro k' s'' p hown hs'' hnow hp
    rw [storageAt_invalidated hs] at hs''
    by_cases hk : k' = k
    · rw [if_pos hk] at hs''
      obtain rfl := Option.some.inj hs''
      have hold := hok.older k s (hk ▸ hown) hs
      rw [← hnow] at hold
      exact absurd hold (by show ¬ (s.generation + 1).toNat ≤ _; omega)
    · rw [if_neg hk] at hs''
      exact home_invalidated.mpr ⟨hok.fresh k' s'' p hown hs'' hnow hp, hk⟩

/-- **An arena is reset or trimmed**: the values of its storage are of an older generation
from then on. -/
theorem CppOk.invalidated (h : CppOk w n t) (hs : w.storageAt k = some s) (hn : n + 1 < 2 ^ 64)
    (f : Arena → Arena) :
    CppOk (w.invalidated f k s) (n + 1) t ∧ w.Keeps (w.invalidated f k s) (some k) ∧
      (w.invalidated f k s).objects = w.objects ∧
      ∃ s', (w.invalidated f k s).storageAt k = some s' ∧
        s'.generation.toNat = s.generation.toNat + 1 := by
  have hat := storageAt_invalidated (f := f) hs
  have hgen := generation_invalidated hs h hn
  refine ⟨⟨?_, h.heap, ?_, ?_, ?_, ?_⟩, keeps_invalidated hs, rfl, _, (hat k).trans (if_pos rfl),
    hgen⟩
  · have hcount : (w.invalidated f k s).count = update w.count k (some s.useCount) :=
      count_set hs (.live { s with arena := f s.arena, generation := s.generation + 1 }) rfl
    rw [hcount, ← count_of hs, update_eq_self]
    exact h.counted
  · intro p k' hp
    obtain ⟨hp, hne⟩ := home_invalidated.mp hp
    obtain ⟨hlt, hlive⟩ := h.home p k' hp
    refine ⟨hlt, ?_⟩
    rwa [hat, if_neg hne]
  · intro k' m hm
    by_cases hk : k' = k
    · rw [hk] at hm
      have hself : (w.invalidated f k s).storages[k]? = some (.live
          { s with arena := f s.arena, generation := s.generation + 1 }) :=
        List.getElem?_set_self (lt_of_storageAt hs)
      rw [hself] at hm
      cases hm
    · exact h.gone k' m ((List.getElem?_set_ne (Ne.symm hk)).symm.trans hm)
  · intro k' s'' hs''
    rw [hat] at hs''
    by_cases hk : k' = k
    · rw [if_pos hk] at hs''
      obtain rfl := Option.some.inj hs''
      have hle := h.resets k s hs
      show (s.generation + 1).toNat ≤ n + 1
      omega
    · rw [if_neg hk] at hs''
      exact (h.resets k' s'' hs'').trans (Nat.le_succ n)
  · intro a v ha
    exact (h.value a v ha).invalidated hs hgen

end Invalidated

/-- What a function of the library may do to the nodes: it makes new ones, and changes nothing
of the others but the index of an object. -/
structure Heap.Extends (h h' : Heap D) : Prop where
  next : h.next ≤ h'.next
  node : ∀ p, p < h.next → h'.node p = h.node p ∨
    ∃ o o', h.node p = .object o ∧ h'.node p = .object o' ∧ o'.pairs = o.pairs

omit [CDouble D] in
theorem Heap.Grows.extends {h h' : Heap D} (hg : h.Grows h' none) : h.Extends h' :=
  ⟨hg.next, fun p hp => .inl (hg.node p hp (Option.some_ne_none p))⟩

/-- **The library works on the arena of a storage**, and makes nodes in its memory. -/
theorem CppOk.worked (h : CppOk w n t) (hs : w.storageAt k = some s) {st : St D}
    (hapi : ApiHeap st.heap) (hext : w.heap.Extends st.heap) :
    CppOk (w.worked k s st) n t ∧ w.Keeps (w.worked k s st) none ∧
      (∀ p, w.heap.next ≤ p → p < st.heap.next → (w.worked k s st).In k p) ∧
      ∃ s', (w.worked k s st).storageAt k = some s' ∧ s'.generation = s.generation := by
  set s' : Storage := { s with arena := st.arena } with hs'
  set w' := w.worked k s st with hw'
  have hat : ∀ k', w'.storageAt k' = if k' = k then some s' else w.storageAt k' :=
    storageAt_set hs (.live s') rfl
  have hhome : ∀ p, w'.home p
      = if w.heap.next ≤ p ∧ p < st.heap.next then some k else w.home p := fun _ => rfl
  have hold : ∀ p k', w.home p = some k' → w'.home p = some k' := by
    intro p k' hp
    rw [hhome, if_neg, hp]
    rintro ⟨hge, -⟩
    exact absurd (h.home p k' hp).1 (not_lt.mpr hge)
  have hkeeps : w.Keeps w' none := by
    constructor
    · simp [hw', CppState.worked]
    · intro k' s'' _ hs''
      rw [hat] at hs''
      by_cases hk : k' = k
      · rw [if_pos hk] at hs''
        obtain rfl := Option.some.inj hs''
        exact ⟨s, hk ▸ hs, fun _ => rfl⟩
      · rw [if_neg hk] at hs''
        exact ⟨s'', hs'', fun _ => rfl⟩
    · intro k' s'' j p _ _ _ hp
      exact DenotesIn.congr_pairs (fun q hq => ⟨hold q k' hq, hext.node q (h.home q k' hq).1⟩) hp
    · exact hext.next
    · intro p k' hlt hp
      rwa [hhome, if_neg] at hp
      rintro ⟨hge, -⟩
      exact absurd hlt (not_lt.mpr hge)
    · exact fun k' _ _ _ _ hp =>
        DenotesIn.congr_pairs (fun q hq => ⟨hold q k' hq, hext.node q (h.home q k' hq).1⟩) hp
  have hcount : w'.count = w.count := by
    have hset : w'.count = update w.count k (some s.useCount) := count_set hs (.live s') rfl
    rw [hset, ← count_of hs, update_eq_self]
  refine ⟨⟨?_, hapi, ?_, ?_, ?_, ?_⟩, hkeeps, ?_, s', (hat k).trans (if_pos rfl), rfl⟩
  · rw [hcount]
    exact h.counted
  · intro p k' hp
    rw [hhome] at hp
    rw [hat]
    by_cases hnew : w.heap.next ≤ p ∧ p < st.heap.next
    · rw [if_pos hnew] at hp
      obtain rfl := Option.some.inj hp
      exact ⟨hnew.2, s', if_pos rfl⟩
    · rw [if_neg hnew] at hp
      obtain ⟨hlt, s₀, hs₀⟩ := h.home p k' hp
      refine ⟨hlt.trans_le hext.next, ?_⟩
      by_cases hk : k' = k
      · exact ⟨s', if_pos hk⟩
      · exact ⟨s₀, (if_neg hk).trans hs₀⟩
  · intro k' m hm
    by_cases hk : k' = k
    · rw [hk] at hm
      have hself : w'.storages[k]? = some (.live s') := List.getElem?_set_self (lt_of_storageAt hs)
      rw [hself] at hm
      cases hm
    · exact h.gone k' m ((List.getElem?_set_ne (Ne.symm hk)).symm.trans hm)
  · intro k' s'' hs''
    rw [hat] at hs''
    by_cases hk : k' = k
    · rw [if_pos hk] at hs''
      obtain rfl := Option.some.inj hs''
      exact h.resets k s hs
    · rw [if_neg hk] at hs''
      exact h.resets k' s'' hs''
  · exact fun a v ha => h.values hkeeps ha
  · intro p hge hlt
    show w'.home p = some k
    rw [hhome, if_pos ⟨hge, hlt⟩]

end Steps

end SJson
