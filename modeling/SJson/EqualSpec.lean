/-
# What equality decides

`json_equal` comes to an end on any two values, and says whether they are the same as the
recursion of the source has it (`Heap.Same`, `jsonEqualAt_same`): objects are compared by
their lengths and by looking up the keys of one in the other.

Where no object repeats a key, what is looked up in an object is its entries, each once
(`jsonObjGetN_mem_once`), and values that stand for the same tree are the same
(`Heap.Same.of_denotes`).
-/
import SJson.LookupSpec
import SJson.CloneSpec
import SJson.Lib.OrderedMap

namespace SJson

open ErrState ListRel OrderedMap

variable {D : Type} {h : Heap D}

/-! ## Sameness -/

section

variable [CDouble D]

/-- What `json_equal` looks for, with `room` levels left. -/
def Heap.Same (h : Heap D) : ℕ → JsonPtr → JsonPtr → Prop
  | 0, p, q => p = q
  | room + 1, p, q => p = q ∨
    match h.node p, h.node q with
    | .null, .null => True
    | .bool x, .bool y => x = y
    | .integer i, .integer j => i = j
    | .float f, .float g => CDouble.beq f g = true
    | .integer i, .float g => CDouble.beq (CDouble.ofInt64 i) g = true
    | .float f, .integer j => CDouble.beq f (CDouble.ofInt64 j) = true
    | .string s, .string t => s.data = t.data
    | .array x, .array y => List.Forall₂ (h.Same room) x.items y.items
    | .object x, .object y => x.pairs.length = y.pairs.length ∧
        ∀ pr ∈ x.pairs, ∃ w, jsonObjGetN h q pr.key.data = .ok w ∧ h.Same room pr.val w
    | _, _ => False

end

theorem equalStr_iff {s t : JsonStr} (hs : s.Ok) (ht : t.Ok) :
    equalStr s t = true ↔ s.data = t.data := by
  constructor
  · intro heq
    unfold equalStr at heq
    simp only [Bool.and_eq_true, Bool.or_eq_true, decide_eq_true_eq] at heq
    obtain ⟨⟨hlen, -⟩, hzero | hcmp⟩ := heq
    · rw [List.length_eq_zero_iff.mp hzero, List.length_eq_zero_iff.mp (hlen.symm.trans hzero)]
    · rw [hlen] at hcmp
      exact (memcmp_eq_zero hlen).mp hcmp
  · intro hdata
    obtain rfl : s = t := by rw [hs.eq, ht.eq, hdata]
    have hcmp : memcmp s.data.length s.data s.data = 0 := (memcmp_eq_zero rfl).mpr rfl
    simp [equalStr, hcmp]

/-- The loop over the items compares them one by one. -/
theorem equalItems_iff {equal : JsonPtr → JsonPtr → Scan Bool} {R : JsonPtr → JsonPtr → Prop} :
    ∀ {ps qs : List JsonPtr}, ps.length = qs.length →
      (∀ p ∈ ps, ∀ q ∈ qs, ∃ r, equal p q = .ok r ∧ (r = true ↔ R p q)) →
      ∃ r, equalItems equal ps qs = .ok r ∧ (r = true ↔ List.Forall₂ R ps qs) := by
  intro ps
  induction ps with
  | nil =>
    intro qs hlen _
    obtain rfl := List.length_eq_zero_iff.mp hlen.symm
    exact ⟨true, rfl, by simp⟩
  | cons p ps ih =>
    intro qs hlen hall
    cases qs with
    | nil => simp at hlen
    | cons q qs =>
      obtain ⟨r, hr, hiff⟩ := hall p List.mem_cons_self q List.mem_cons_self
      rw [equalItems, scan_bind_ok hr]
      cases r with
      | true =>
        obtain ⟨r', hr', hiff'⟩ := ih (Nat.succ.inj hlen) fun p' hp' q' hq' =>
          hall p' (List.mem_cons_of_mem _ hp') q' (List.mem_cons_of_mem _ hq')
        exact ⟨r', hr', by rw [hiff', List.forall₂_cons, ← hiff]; simp⟩
      | false =>
        exact ⟨false, rfl, by rw [List.forall₂_cons, ← hiff]; simp⟩

/-- The loop over the pairs looks the keys up, one after the other. -/
theorem equalPairs_iff {equal : JsonPtr → JsonPtr → Scan Bool} {R : JsonPtr → JsonPtr → Prop}
    {q : JsonPtr} : ∀ {pairs : List JsonPair},
      (∀ pr ∈ pairs, (∃ w, jsonObjGetN h q pr.key.data = .ok w ∧
          ∃ r, equal pr.val w = .ok r ∧ (r = true ↔ R pr.val w)) ∨
        ∃ e, jsonObjGetN h q pr.key.data = .error (.err e)) →
      ∃ r, equalPairs h equal q pairs = .ok r ∧ (r = true ↔
        ∀ pr ∈ pairs, ∃ w, jsonObjGetN h q pr.key.data = .ok w ∧ R pr.val w) := by
  intro pairs
  induction pairs with
  | nil => exact fun _ => ⟨true, rfl, by simp⟩
  | cons pr pairs ih =>
    intro hall
    obtain ⟨hpr, hpairs⟩ := List.forall_mem_cons.mp hall
    obtain ⟨r', hr', hiff'⟩ := ih hpairs
    rw [equalPairs]
    rcases hpr with ⟨w, hw, r, hr, hiff⟩ | ⟨e, he⟩
    · rw [hw]
      dsimp only
      rw [scan_bind_ok hr]
      cases r with
      | true => exact ⟨r', hr', by rw [hiff', List.forall_mem_cons, hw]; simp [← hiff]⟩
      | false => exact ⟨false, rfl, by rw [List.forall_mem_cons, hw]; simp [← hiff]⟩
    · rw [he]
      exact ⟨false, rfl, by rw [List.forall_mem_cons, he]; simp⟩

/-- A lookup in an object finds a pair with the key, or no pair has it. -/
theorem jsonObjGetN_cases (hrep : h.RepOk) {q : JsonPtr} (hq : q < h.next) {o : JsonObj}
    (hobj : h.node q = .object o) {key : List UInt8} (hlen : key.length ≤ uint32Max) :
    (∃ pr ∈ o.pairs, pr.key.data = key ∧ jsonObjGetN h q key = .ok pr.val) ∨
      (∀ pr ∈ o.pairs, pr.key.data ≠ key) ∧ jsonObjGetN h q key = .error (.err .notFound) := by
  have hok := hrep q hq
  rw [hobj] at hok
  obtain ⟨-, hpairs, hindexed⟩ := hok
  have hkeys : ∀ pr ∈ o.pairs, pr.key.Ok := fun pr hpr => (hpairs pr hpr).1
  have hnone : occurs o.pairs key = 0 → ∀ pr ∈ o.pairs, pr.key.data ≠ key := fun hzero pr hpr => by
    simpa using List.countP_eq_zero.mp hzero pr hpr
  cases hsorted : o.isSorted with
  | false =>
    rw [jsonObjGetN_unsorted hobj hkeys hsorted hlen]
    cases hfirst : firstPair o.pairs key with
    | none => exact .inr ⟨hnone (firstPair_eq_none.mp hfirst), rfl⟩
    | some pr =>
      obtain ⟨hmem, hkey⟩ := firstPair_some hfirst
      exact .inl ⟨pr, hmem, hkey, rfl⟩
  | true =>
    obtain ⟨idx, hidx, hindex⟩ := hindexed hsorted
    rw [jsonObjGetN_sorted hobj hkeys hsorted hidx hindex hlen]
    obtain ⟨hzero, hpos⟩ := @probe_spec _ _ key hindex hkeys
    rcases Nat.eq_zero_or_pos (occurs o.pairs key) with h0 | h1
    · exact .inr ⟨hnone h0, hzero h0⟩
    · exact .inl (hpos h1)

/-- The keys of nodes in order are short enough to be looked up. -/
theorem JsonStr.Ok.lookable {k : JsonStr} (hk : k.Ok) : k.data.length ≤ uint32Max :=
  hk.len.trans (by decide)

/-- What a lookup returns is the value of a pair with the key. -/
theorem jsonObjGetN_mem (hrep : h.RepOk) {q w : JsonPtr} (hq : q < h.next) {o : JsonObj}
    (hobj : h.node q = .object o) {key : List UInt8} (hlook : key.length ≤ uint32Max)
    (hget : jsonObjGetN h q key = .ok w) : ∃ pr ∈ o.pairs, pr.key.data = key ∧ pr.val = w := by
  rcases jsonObjGetN_cases hrep hq hobj hlook with ⟨pr, hpr, hkey, hfound⟩ | ⟨-, hnone⟩
  · rw [hget] at hfound
    exact ⟨pr, hpr, hkey, (Except.ok.inj hfound).symm⟩
  · rw [hget] at hnone
    cases hnone

/-- **What `json_equal` decides.** -/
theorem jsonEqualAt_same [CDouble D] (hrep : h.RepOk) : ∀ {room : ℕ} {p q : JsonPtr},
    p < h.next → q < h.next →
    ∃ r, jsonEqualAt h room p q = .ok r ∧ (r = true ↔ h.Same room p q) := by
  intro room
  induction room with
  | zero => exact fun {p q} _ _ => ⟨decide (p = q), rfl, by rw [decide_eq_true_eq]; rfl⟩
  | succ room ih =>
    intro p q hp hq
    rw [jsonEqualAt]
    unfold Heap.Same
    by_cases hpq : p = q
    · rw [if_pos hpq]
      exact ⟨true, rfl, by simp [hpq]⟩
    · rw [if_neg hpq]
      simp only [hpq, false_or]
      have hokp := hrep p hp
      have hokq := hrep q hq
      cases hnp : h.node p with
      | array x =>
        cases hnq : h.node q with
        | array y =>
          rw [hnp] at hokp
          rw [hnq] at hokq
          rw [equalNodes]
          by_cases hlen : x.items.length = y.items.length
          · rw [if_neg (not_not.mpr hlen)]
            exact equalItems_iff hlen fun p' hp' q' hq' => ih (hokp.2 p' hp') (hokq.2 q' hq')
          · rw [if_pos hlen]
            exact ⟨false, rfl, by simpa using fun hall => hlen (List.Forall₂.length_eq hall)⟩
        | _ => exact ⟨false, rfl, by simp⟩
      | object x =>
        cases hnq : h.node q with
        | object y =>
          rw [hnp] at hokp
          rw [hnq] at hokq
          rw [equalNodes]
          by_cases hlen : x.pairs.length = y.pairs.length
          · rw [if_neg (not_not.mpr hlen)]
            simp only [hlen, true_and]
            refine equalPairs_iff fun pr hpr => ?_
            obtain ⟨hkey, hval⟩ := hokp.2.1 pr hpr
            rcases jsonObjGetN_cases hrep hq hnq hkey.lookable with
              ⟨pr', hpr', -, hget⟩ | ⟨-, hget⟩
            · exact .inl ⟨pr'.val, hget, ih hval (hokq.2.1 pr' hpr').2⟩
            · exact .inr ⟨_, hget⟩
          · rw [if_pos hlen]
            exact ⟨false, rfl, by simp [hlen]⟩
        | _ => exact ⟨false, rfl, by simp⟩
      | string s =>
        cases hnq : h.node q with
        | string t =>
          rw [hnp] at hokp
          rw [hnq] at hokq
          exact ⟨equalStr s t, rfl, equalStr_iff hokp hokq⟩
        | _ => exact ⟨false, rfl, by simp⟩
      | _ => cases hnq : h.node q <;> exact ⟨_, rfl, by simp⟩

theorem jsonEqual_same [CDouble D] (hrep : h.RepOk) {p q : JsonPtr} (hp : p < h.next)
    (hq : q < h.next) : ∃ r, jsonEqual h p q = .ok r ∧ (r = true ↔ h.Same jsonMaxDepth p q) :=
  jsonEqualAt_same hrep hp hq

/-! ## Objects without repeated keys -/

namespace Json

mutual

/-- No object of a tree repeats a key. -/
def UniqueKeys : Json D → Prop
  | .arr items => UniqueKeysArr items
  | .obj pairs => (pairs.map Prod.fst).Nodup ∧ UniqueKeysObj pairs
  | _ => True
termination_by structural j => j

/-- No object of a list of trees repeats a key. -/
def UniqueKeysArr : List (Json D) → Prop
  | [] => True
  | j :: items => UniqueKeys j ∧ UniqueKeysArr items
termination_by structural items => items

/-- No object of a list of pairs repeats a key. -/
def UniqueKeysObj : List (List UInt8 × Json D) → Prop
  | [] => True
  | (_, j) :: pairs => UniqueKeys j ∧ UniqueKeysObj pairs
termination_by structural pairs => pairs

end

theorem uniqueKeysArr_iff {items : List (Json D)} :
    UniqueKeysArr items ↔ ∀ j ∈ items, j.UniqueKeys := by
  induction items with
  | nil => simp [UniqueKeysArr]
  | cons j items ih => simp [UniqueKeysArr, ih]

theorem uniqueKeysObj_iff {pairs : List (List UInt8 × Json D)} :
    UniqueKeysObj pairs ↔ ∀ kv ∈ pairs, kv.2.UniqueKeys := by
  induction pairs with
  | nil => simp [UniqueKeysObj]
  | cons kv pairs ih => simp [UniqueKeysObj, ih]

mutual

/-- In every object of a tree, pairs with the same key have the same value. -/
def KeysAgree : Json D → Prop
  | .arr items => KeysAgreeArr items
  | .obj pairs => (∀ kv ∈ pairs, ∀ kv' ∈ pairs, kv'.1 = kv.1 → kv'.2 = kv.2) ∧ KeysAgreeObj pairs
  | _ => True
termination_by structural j => j

/-- In every object of a list of trees, pairs with the same key have the same value. -/
def KeysAgreeArr : List (Json D) → Prop
  | [] => True
  | j :: items => KeysAgree j ∧ KeysAgreeArr items
termination_by structural items => items

/-- In every object of a list of pairs, pairs with the same key have the same value. -/
def KeysAgreeObj : List (List UInt8 × Json D) → Prop
  | [] => True
  | (_, j) :: pairs => KeysAgree j ∧ KeysAgreeObj pairs
termination_by structural pairs => pairs

end

theorem keysAgreeArr_iff {items : List (Json D)} :
    KeysAgreeArr items ↔ ∀ j ∈ items, j.KeysAgree := by
  induction items with
  | nil => simp [KeysAgreeArr]
  | cons j items ih => simp [KeysAgreeArr, ih]

theorem keysAgreeObj_iff {pairs : List (List UInt8 × Json D)} :
    KeysAgreeObj pairs ↔ ∀ kv ∈ pairs, kv.2.KeysAgree := by
  induction pairs with
  | nil => simp [KeysAgreeObj]
  | cons kv pairs ih => simp [KeysAgreeObj, ih]

/-- Where no key is repeated, repeated keys agree. -/
theorem UniqueKeys.agree {j : Json D} : j.UniqueKeys → j.KeysAgree := by
  induction j using Json.tree_induction with
  | arr items ih =>
    exact fun hu => keysAgreeArr_iff.mpr fun j hj => ih j hj (uniqueKeysArr_iff.mp hu j hj)
  | obj pairs ih =>
    rintro ⟨hnodup, hu⟩
    refine ⟨fun kv hkv kv' hkv' hkey => ?_, keysAgreeObj_iff.mpr fun kv hkv =>
      ih kv hkv (uniqueKeysObj_iff.mp hu kv hkv)⟩
    rw [List.inj_on_of_nodup_map hnodup hkv' hkv hkey]
  | _ => exact fun _ => trivial

end Json

/-- What a node holds that denotes a tree. -/
def Json.Fits (h : Heap D) : Json D → JsonNode D → Prop
  | .null, .null => True
  | .bool b, .bool b' => b' = b
  | .int i, .integer i' => i' = i
  | .float f, .float f' => f' = f
  | .str data, .string s => s.data = data
  | .arr items, .array a => List.Forall₂ (Denotes h) items a.items
  | .obj pairs, .object o => List.Forall₂ (PairDenotes (fun _ => True) h) pairs o.pairs
  | _, _ => False

theorem Denotes.fits {j : Json D} {p : JsonPtr} (hp : Denotes h j p) : j.Fits h (h.node p) := by
  cases j with
  | arr items =>
    obtain ⟨-, a, ha, hall⟩ := denotesIn_arr.mp hp
    rw [ha]
    exact hall
  | obj pairs =>
    obtain ⟨-, o, ho, hall⟩ := denotesIn_obj.mp hp
    rw [ho]
    exact hall
  | str data =>
    obtain ⟨-, s, hs, hdata⟩ := hp
    rw [hs]
    exact hdata
  | null => rw [hp.2]; trivial
  | bool b => rw [hp.2]; rfl
  | int i => rw [hp.2]; rfl
  | float f => rw [hp.2]; rfl

/-- What an array denotes. -/
theorem Denotes.of_array {j : Json D} {p : JsonPtr} {a : JsonArr} (hp : Denotes h j p)
    (hnode : h.node p = .array a) :
    ∃ items, j = .arr items ∧ List.Forall₂ (Denotes h) items a.items := by
  have hfit := hp.fits
  rw [hnode] at hfit
  cases j with
  | arr items => exact ⟨items, rfl, hfit⟩
  | _ => exact hfit.elim

/-- What an object denotes. -/
theorem Denotes.of_object {j : Json D} {p : JsonPtr} {o : JsonObj} (hp : Denotes h j p)
    (hnode : h.node p = .object o) :
    ∃ pairs, j = .obj pairs ∧ List.Forall₂ (PairDenotes (fun _ => True) h) pairs o.pairs := by
  have hfit := hp.fits
  rw [hnode] at hfit
  cases j with
  | obj pairs => exact ⟨pairs, rfl, hfit⟩
  | _ => exact hfit.elim

theorem keys_of_denotes {pairs : List (List UInt8 × Json D)} {prs : List JsonPair}
    (hall : List.Forall₂ (PairDenotes (fun _ => True) h) pairs prs) :
    prs.map (fun pr => pr.key.data) = pairs.map Prod.fst := by
  induction hall with
  | nil => rfl
  | cons hkv _ ih => rw [List.map_cons, List.map_cons, hkv.1, ih]

/-- A pair whose key occurs once is found. -/
theorem jsonObjGetN_mem_once (hrep : h.RepOk) {q : JsonPtr} (hq : q < h.next) {o : JsonObj}
    (hobj : h.node q = .object o) {pr : JsonPair} (hpr : pr ∈ o.pairs)
    (honce : occurs o.pairs pr.key.data ≤ 1) : jsonObjGetN h q pr.key.data = .ok pr.val := by
  have hok := hrep q hq
  rw [hobj] at hok
  rcases jsonObjGetN_cases hrep hq hobj (hok.2.1 pr hpr).1.lookable with
    ⟨pr', hpr', hkey, hget⟩ | ⟨hnone, -⟩
  · rw [hget, eq_of_occurs_le_one honce hpr' hpr hkey rfl]
  · exact absurd rfl (hnone pr hpr)

/-- In an object that repeats no key, every pair is found. -/
theorem jsonObjGetN_unique (hrep : h.RepOk) {q : JsonPtr} (hq : q < h.next) {o : JsonObj}
    (hobj : h.node q = .object o) (hnodup : (o.pairs.map fun pr => pr.key.data).Nodup)
    {pr : JsonPair} (hpr : pr ∈ o.pairs) : jsonObjGetN h q pr.key.data = .ok pr.val :=
  jsonObjGetN_mem_once hrep hq hobj hpr (occurs_le_one_of_nodup hnodup _)

variable [CDouble D]

/-- What denotes the same tree is the same, if the repeated keys of the tree agree. -/
theorem Heap.Same.of_denotes (hrep : h.RepOk) (hrefl : ∀ f : D, CDouble.beq f f = true)
    {j : Json D} : ∀ {room : ℕ} {p q : JsonPtr}, p < h.next → q < h.next → Denotes h j p →
      Denotes h j q → j.KeysAgree → j.levels ≤ room → h.Same room p q := by
  induction j using Json.tree_induction with
  | arr items ih =>
    intro room p q hp hq hj hj' hu hroom
    obtain ⟨room, rfl⟩ := Nat.exists_eq_succ_of_ne_zero (Nat.ne_zero_of_lt hroom)
    obtain ⟨-, x, hx, hxs⟩ := denotesIn_arr.mp hj
    obtain ⟨-, y, hy, hys⟩ := denotesIn_arr.mp hj'
    have hokp := hrep p hp
    have hokq := hrep q hq
    rw [hx] at hokp
    rw [hy] at hokq
    have hle := Json.levelsArr_le.mp (Nat.le_of_succ_le_succ hroom)
    have hu := Json.keysAgreeArr_iff.mp hu
    unfold Heap.Same
    rw [hx, hy]
    exact .inr (forall₂_trans hxs hys fun j hj p' hp' q' hq' hden hden' =>
      ih j hj (hokp.2 p' hp') (hokq.2 q' hq') hden hden' (hu j hj) (hle j hj))
  | obj pairs ih =>
    intro room p q hp hq hj hj' hu hroom
    obtain ⟨room, rfl⟩ := Nat.exists_eq_succ_of_ne_zero (Nat.ne_zero_of_lt hroom)
    obtain ⟨-, x, hx, hxs⟩ := denotesIn_obj.mp hj
    obtain ⟨-, y, hy, hys⟩ := denotesIn_obj.mp hj'
    have hokp := hrep p hp
    have hokq := hrep q hq
    rw [hx] at hokp
    rw [hy] at hokq
    have hle := Json.levelsObj_le.mp (Nat.le_of_succ_le_succ hroom)
    obtain ⟨hagree, hu⟩ := hu
    have hu := Json.keysAgreeObj_iff.mp hu
    unfold Heap.Same
    rw [hx, hy]
    refine .inr ⟨hxs.length_eq.symm.trans hys.length_eq, fun pr hpr => ?_⟩
    obtain ⟨kv, hkv, hkey, hden⟩ := forall₂_mem_right hxs hpr
    -- the lookup finds a pair with the key, and its value is the same tree
    rcases jsonObjGetN_cases hrep hq hy (hokp.2.1 pr hpr).1.lookable with
      ⟨pr', hpr', hkey', hget⟩ | ⟨hnone, -⟩
    · obtain ⟨kv', hkv', hkey'', hden'⟩ := forall₂_mem_right hys hpr'
      rw [hagree kv hkv kv' hkv' (by rw [← hkey'', hkey', hkey])] at hden'
      exact ⟨pr'.val, hget, ih kv hkv (hokp.2.1 pr hpr).2 (hokq.2.1 pr' hpr').2 hden hden'
        (hu kv hkv) (hle kv hkv)⟩
    · obtain ⟨pr', hpr', hkey', -⟩ := forall₂_mem_left hys hkv
      exact absurd (hkey'.trans hkey.symm) (hnone pr' hpr')
  | str data =>
    intro room p q _ _ hj hj' _ hroom
    obtain ⟨room, rfl⟩ := Nat.exists_eq_succ_of_ne_zero (Nat.ne_zero_of_lt hroom)
    obtain ⟨-, s, hs, hdata⟩ := hj
    obtain ⟨-, t, ht, hdata'⟩ := hj'
    unfold Heap.Same
    rw [hs, ht]
    exact .inr (hdata.trans hdata'.symm)
  | float f =>
    intro room p q _ _ hj hj' _ hroom
    obtain ⟨room, rfl⟩ := Nat.exists_eq_succ_of_ne_zero (Nat.ne_zero_of_lt hroom)
    unfold Heap.Same
    rw [hj.2, hj'.2]
    exact .inr (hrefl f)
  | _ =>
    intro room p q _ _ hj hj' _ hroom
    obtain ⟨room, rfl⟩ := Nat.exists_eq_succ_of_ne_zero (Nat.ne_zero_of_lt hroom)
    unfold Heap.Same
    rw [hj.2, hj'.2]
    simp

end SJson
