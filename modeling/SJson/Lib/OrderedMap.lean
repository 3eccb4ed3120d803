/-
# Finite maps in the order of insertion

A map is the list of its entries in the order in which the keys first came, together with
the proof that no key comes twice (`OrderedMap`).  Storing a value under a key that is there
replaces the value in its place, otherwise the entry is appended (`OrderedMap.insert`).  What
a map returns for a key after a sequence of insertions is the last value stored under it
(`OrderedMap.get?_insertAll`).
-/
import Mathlib.Data.List.Nodup
import Mathlib.Data.List.Induction
import Mathlib.Data.List.Perm.Subperm
import Mathlib.Data.Nat.Notation

/-- A finite map whose entries are ordered. -/
structure OrderedMap (K V : Type) where
  entries : List (K × V)
  nodup : (entries.map Prod.fst).Nodup

namespace OrderedMap

variable {K V : Type} [DecidableEq K]

/-! ## Entries -/

/-- The entries with another value under the key. -/
def replaceAt (k : K) (v : V) (l : List (K × V)) : List (K × V) :=
  l.map fun e => if e.1 = k then (k, v) else e

/-- The entries after storing a value: in the place of the key, or at the end. -/
def store (k : K) (v : V) (l : List (K × V)) : List (K × V) :=
  if k ∈ l.map Prod.fst then replaceAt k v l else l ++ [(k, v)]

theorem keys_replaceAt (k : K) (v : V) (l : List (K × V)) :
    (replaceAt k v l).map Prod.fst = l.map Prod.fst := by
  rw [replaceAt, List.map_map]
  refine List.map_congr_left fun e _ => ?_
  show (if e.1 = k then (k, v) else e).1 = e.1
  split
  · exact (by assumption : e.1 = k).symm
  · rfl

theorem replaceAt_of_not_mem {k : K} {v : V} {l : List (K × V)} (h : k ∉ l.map Prod.fst) :
    replaceAt k v l = l := by
  rw [replaceAt]
  refine (List.map_congr_left fun e he => ?_).trans (List.map_id l)
  rw [if_neg, id]
  rintro rfl
  exact h (List.mem_map_of_mem he)

theorem nodup_store {k : K} {v : V} {l : List (K × V)} (h : (l.map Prod.fst).Nodup) :
    ((store k v l).map Prod.fst).Nodup := by
  unfold store
  split
  · rwa [keys_replaceAt]
  · rename_i hk
    rw [List.map_append]
    refine List.nodup_append.mpr ⟨h, List.nodup_singleton _, ?_⟩
    rintro a ha b hb rfl
    obtain rfl : a = k := List.mem_singleton.mp hb
    exact hk ha

/-- The value under a key in a list of entries. -/
def valueIn (l : List (K × V)) (k : K) : Option V := (l.find? fun e => e.1 = k).map Prod.snd

theorem valueIn_cons (e : K × V) (l : List (K × V)) (k : K) :
    valueIn (e :: l) k = if e.1 = k then some e.2 else valueIn l k := by
  unfold valueIn
  rw [List.find?_cons]
  by_cases h : e.1 = k
  · rw [decide_eq_true h, if_pos h]
    rfl
  · rw [decide_eq_false h, if_neg h]

theorem valueIn_replaceAt_self {k : K} {v : V} {l : List (K × V)} (h : k ∈ l.map Prod.fst) :
    valueIn (replaceAt k v l) k = some v := by
  induction l with
  | nil => simp at h
  | cons e l ih =>
    rw [replaceAt, List.map_cons, valueIn_cons]
    by_cases he : e.1 = k
    · rw [if_pos he, if_pos rfl]
    · rw [if_neg he, if_neg he]
      rw [List.map_cons, List.mem_cons] at h
      exact ih (h.resolve_left (Ne.symm he))

theorem valueIn_replaceAt_ne {k k' : K} (v : V) (l : List (K × V)) (h : k' ≠ k) :
    valueIn (replaceAt k v l) k' = valueIn l k' := by
  induction l with
  | nil => rfl
  | cons e l ih =>
    rw [replaceAt, List.map_cons, valueIn_cons, valueIn_cons]
    rw [replaceAt] at ih
    rw [ih]
    by_cases he : e.1 = k
    · rw [if_pos he, if_neg h.symm, if_neg (he ▸ h.symm)]
    · rw [if_neg he]

theorem valueIn_append_singleton {k : K} {v : V} {l : List (K × V)} (h : k ∉ l.map Prod.fst)
    (k' : K) : valueIn (l ++ [(k, v)]) k' = if k' = k then some v else valueIn l k' := by
  induction l with
  | nil => simp [valueIn, eq_comm]
  | cons e l ih =>
    rw [List.map_cons, List.mem_cons, not_or] at h
    rw [List.cons_append, valueIn_cons, valueIn_cons, ih h.2]
    by_cases hk : k' = k
    · rw [if_neg (fun he => h.1 (hk ▸ he.symm)), if_pos hk, if_pos hk]
    · rw [if_neg hk, if_neg hk]

theorem valueIn_eq_none {l : List (K × V)} {k : K} : valueIn l k = none ↔ k ∉ l.map Prod.fst := by
  induction l with
  | nil => simp [valueIn]
  | cons e l ih =>
    rw [valueIn_cons, List.map_cons, List.mem_cons, not_or, ← ih, eq_comm (a := k)]
    by_cases he : e.1 = k
    · simp [he]
    · simp [he]

theorem mem_of_valueIn {l : List (K × V)} {k : K} {v : V} (h : valueIn l k = some v) :
    (k, v) ∈ l := by
  induction l with
  | nil => simp [valueIn] at h
  | cons e l ih =>
    rw [valueIn_cons] at h
    by_cases he : e.1 = k
    · rw [if_pos he] at h
      rw [← Option.some.inj h, ← he]
      exact List.mem_cons_self
    · rw [if_neg he] at h
      exact List.mem_cons_of_mem _ (ih h)

/-- In a list whose keys are all different, every entry is found. -/
theorem valueIn_iff {l : List (K × V)} (hnodup : (l.map Prod.fst).Nodup) {k : K} {v : V} :
    valueIn l k = some v ↔ (k, v) ∈ l := by
  refine ⟨mem_of_valueIn, fun hmem => ?_⟩
  induction l with
  | nil => simp at hmem
  | cons e l ih =>
    rw [List.map_cons, List.nodup_cons] at hnodup
    rw [valueIn_cons]
    rcases List.mem_cons.mp hmem with rfl | hmem
    · rw [if_pos rfl]
    · have hne : e.1 ≠ k := by
        rintro rfl
        exact hnodup.1 (List.mem_map.mpr ⟨_, hmem, rfl⟩)
      rw [if_neg hne]
      exact ih hnodup.2 hmem

/-- **One-sided comparison of finite maps**: two lists of entries with different keys are the
same map if they are equally long and the entries of the one are found in the other. -/
theorem valueIn_eq_iff {l l' : List (K × V)} (hnodup : (l.map Prod.fst).Nodup)
    (hnodup' : (l'.map Prod.fst).Nodup) :
    valueIn l = valueIn l' ↔ l.length = l'.length ∧ ∀ e ∈ l, valueIn l' e.1 = some e.2 := by
  have hkeys : ∀ {m : List (K × V)} {k : K}, valueIn m k ≠ none ↔ k ∈ m.map Prod.fst := by
    intro m k
    rw [ne_eq, valueIn_eq_none, not_not]
  constructor
  · intro heq
    refine ⟨?_, fun e he => by rw [← heq]; exact (valueIn_iff hnodup).mpr he⟩
    -- the same keys, without repetition
    have hperm : (l.map Prod.fst).Perm (l'.map Prod.fst) :=
      (List.perm_ext_iff_of_nodup hnodup hnodup').mpr fun k => by rw [← hkeys, ← hkeys, heq]
    simpa using hperm.length_eq
  · rintro ⟨hlen, hall⟩
    have hsub : l.map Prod.fst ⊆ l'.map Prod.fst := by
      intro k hk
      obtain ⟨e, he, rfl⟩ := List.mem_map.mp hk
      exact hkeys.mp (by rw [hall e he]; exact Option.some_ne_none _)
    have hperm := (List.subperm_of_subset hnodup hsub).perm_of_length_le
      (by simp [hlen])
    funext k
    cases hk : valueIn l k with
    | none =>
      rw [eq_comm, valueIn_eq_none, ← hperm.mem_iff, ← valueIn_eq_none]
      exact hk
    | some v => exact (hall (k, v) (mem_of_valueIn hk)).symm

/-! ## The map -/

/-- The map without entries. -/
def empty : OrderedMap K V := ⟨[], List.nodup_nil⟩

/-- The value of a key. -/
def get? (m : OrderedMap K V) (k : K) : Option V := valueIn m.entries k

/-- Storing a value under a key. -/
def insert (m : OrderedMap K V) (k : K) (v : V) : OrderedMap K V :=
  ⟨store k v m.entries, nodup_store m.nodup⟩

@[simp] theorem get?_empty (k : K) : (empty : OrderedMap K V).get? k = none := rfl

/-- What was stored last is returned, and the other keys keep their values. -/
theorem get?_insert (m : OrderedMap K V) (k : K) (v : V) (k' : K) :
    (m.insert k v).get? k' = if k' = k then some v else m.get? k' := by
  show valueIn (store k v m.entries) k' = _
  unfold store
  split
  · rename_i hk
    by_cases hk' : k' = k
    · rw [hk', valueIn_replaceAt_self hk, if_pos rfl]
    · rw [valueIn_replaceAt_ne v _ hk', if_neg hk']
      rfl
  · exact valueIn_append_singleton (by assumption) k'

/-- Storing values one after the other. -/
def insertAll (m : OrderedMap K V) (log : List (K × V)) : OrderedMap K V :=
  log.foldl (fun m kv => m.insert kv.1 kv.2) m

/-- The value that was stored last under a key. -/
def lastStored (log : List (K × V)) (k : K) : Option V := valueIn log.reverse k

/-- After a sequence of insertions, a key has the value that was stored last under it. -/
theorem get?_insertAll (m : OrderedMap K V) (log : List (K × V)) (k : K) :
    (m.insertAll log).get? k = (lastStored log k).or (m.get? k) := by
  induction log using List.reverseRecOn with
  | nil => rfl
  | append_singleton log kv ih =>
    rw [insertAll] at ih ⊢
    rw [List.foldl_append, List.foldl_cons, List.foldl_nil, get?_insert, lastStored,
      List.reverse_append, List.reverse_singleton, List.singleton_append, valueIn_cons, ih]
    by_cases hk : k = kv.1
    · rw [if_pos hk, if_pos hk.symm, Option.some_or]
    · rw [if_neg hk, if_neg (Ne.symm hk), lastStored]

end OrderedMap
