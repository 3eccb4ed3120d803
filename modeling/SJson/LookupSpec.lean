/-
# What a lookup finds

`json_obj_get_n` looks a key up in one of two ways.  The linear scan finds the first pair
with the key (`linearGet_eq`).  The binary search over the sorted index finds the pair at
the place that bisection reaches first among those of the key (`bisectGet_eq`).  Both find
the same pair where the key occurs once (`jsonObjGetN_once`).
-/
import SJson.Api
import SJson.Lib.Bisect

namespace SJson

open ErrState Window Bisect

variable {D : Type}

/-! ## Comparing with a key -/

/-- The key that is looked up, with its hash. -/
def keyStr (key : List UInt8) : JsonStr := ⟨key, jsonFnv1a key⟩

theorem JsonStr.Ok.eq {k : JsonStr} (h : k.Ok) : k = keyStr k.data := by
  cases k
  exact congrArg _ h.hash

theorem memcmp_eq_zero {a b : List UInt8} (hlen : a.length = b.length) :
    memcmp b.length a b = 0 ↔ a = b := by
  have heq : cmpBytes a b = memcmp b.length a b := by
    unfold cmpBytes
    rw [hlen, min_self]
    by_cases h : memcmp b.length a b ≠ 0
    · rw [if_pos h]
    · rw [if_neg h, if_neg (lt_irrefl _), if_neg (lt_irrefl _), not_not.mp h]
  rw [← heq, cmpBytes_eq_zero]

theorem keyMatches_iff {key : List UInt8} {k : JsonStr} (hk : k.Ok) :
    keyMatches (jsonFnv1a key) key k = true ↔ k.data = key := by
  unfold keyMatches
  constructor
  · intro h
    simp only [Bool.and_eq_true, Bool.or_eq_true, decide_eq_true_eq] at h
    obtain ⟨⟨-, hlen⟩, hzero | hcmp⟩ := h
    · rw [List.length_eq_zero_iff.mp hzero, List.length_eq_zero_iff.mp (hlen.trans hzero)]
    · exact (memcmp_eq_zero hlen).mp hcmp
  · rintro rfl
    have hcmp : memcmp k.data.length k.data k.data = 0 := (memcmp_eq_zero rfl).mpr rfl
    simp [hk.hash, hcmp]

theorem sortKey_inj {lexical : Bool} {a b : List UInt8} :
    sortKey lexical (keyStr a) = sortKey lexical (keyStr b) ↔ a = b := by
  rw [sortKey, sortKey, toLex_inj, Prod.mk.injEq, map_toNat_inj]
  constructor
  · exact fun h => h.2
  · rintro rfl
    exact ⟨rfl, rfl⟩

/-! ## The linear scan -/

/-- The first pair with the key. -/
def firstPair (pairs : List JsonPair) (key : List UInt8) : Option JsonPair :=
  pairs.find? fun pr => pr.key.data = key

/-- What a lookup returns that found this pair. -/
def found : Option JsonPair → Scan JsonPtr
  | some pr => .ok pr.val
  | none => .error (.err .notFound)

/-- The linear scan finds the first pair with the key. -/
theorem linearGet_eq {key : List UInt8} : ∀ {pairs : List JsonPair}, (∀ pr ∈ pairs, pr.key.Ok) →
    linearGet (jsonFnv1a key) key pairs = found (firstPair pairs key) := by
  intro pairs
  induction pairs with
  | nil => exact fun _ => rfl
  | cons pr pairs ih =>
    intro h
    obtain ⟨hpr, hrest⟩ := List.forall_mem_cons.mp h
    rw [linearGet, firstPair, List.find?_cons]
    by_cases hkey : pr.key.data = key
    · rw [if_pos ((keyMatches_iff hpr).mpr hkey), decide_eq_true hkey]
      rfl
    · rw [if_neg (fun hm => hkey ((keyMatches_iff hpr).mp hm)), decide_eq_false hkey]
      exact ih hrest

/-! ## The binary search -/

/-- How many keys are sorted before this one. -/
def below (pairs : List JsonPair) (key : List UInt8) : ℕ :=
  pairs.countP fun pr => sortKey false pr.key < sortKey false (keyStr key)

/-- How often the key occurs. -/
def occurs (pairs : List JsonPair) (key : List UInt8) : ℕ :=
  pairs.countP fun pr => pr.key.data = key

/-- The value of the pair at this place of the index. -/
def valAt (pairs : List JsonPair) (idx : List ℕ) (m : ℤ) : Scan JsonPtr := do
  let i ← idxAt idx m
  let pair ← pairAt pairs i
  return pair.val

/-- The keys up to a key are those before it and the key itself. -/
theorem upTo_eq {key : List UInt8} : ∀ {pairs : List JsonPair}, (∀ pr ∈ pairs, pr.key.Ok) →
    pairs.countP (fun pr => sortKey false pr.key ≤ sortKey false (keyStr key))
      = below pairs key + occurs pairs key := by
  intro pairs
  induction pairs with
  | nil => exact fun _ => rfl
  | cons pr pairs ih =>
    intro h
    obtain ⟨hpr, hrest⟩ := List.forall_mem_cons.mp h
    have heq : sortKey false pr.key = sortKey false (keyStr key) ↔ pr.key.data = key := by
      rw [hpr.eq, sortKey_inj]
      exact Iff.rfl
    have hih := ih hrest
    unfold below occurs at hih ⊢
    simp only [List.countP_cons, decide_eq_true_eq, hih]
    rcases lt_trichotomy (sortKey false pr.key) (sortKey false (keyStr key)) with hlt | hsame | hgt
    · have hne : ¬ pr.key.data = key := fun hd => hlt.ne (heq.mpr hd)
      rw [if_pos hlt.le, if_pos hlt, if_neg hne]
      omega
    · rw [if_pos hsame.le, if_neg hsame.not_lt, if_pos (heq.mp hsame)]
      omega
    · have hne : ¬ pr.key.data = key := fun hd => hgt.ne' (heq.mpr hd)
      rw [if_neg hgt.not_ge, if_neg hgt.not_gt, if_neg hne]
      omega

theorem IsIndex.length {pairs : List JsonPair} {idx : List ℕ} (h : IsIndex pairs idx) :
    idx.length = pairs.length := by
  rw [h.perm.length_eq, List.length_range]

/-- The indices in the index are indices of pairs. -/
theorem IsIndex.lt {pairs : List JsonPair} {idx : List ℕ} (h : IsIndex pairs idx) {i : ℕ}
    (hi : i ∈ idx) : i < pairs.length := List.mem_range.mp (h.perm.mem_iff.mp hi)

/-- On which side of a threshold a place of the index is. -/
theorem IsIndex.countP_iff {pairs : List JsonPair} {idx : List ℕ} (h : IsIndex pairs idx)
    (p : ℕ ×ₗ List ℕ → Bool) (hp : ∀ a b, a ≤ b → p b = true → p a = true) {m i : ℕ} {pr : JsonPair}
    (hm : idx[m]? = some i) (hpr : pairs[i]? = some pr) :
    p (sortKey false pr.key) = true ↔ m < pairs.countP fun pr => p (sortKey false pr.key) := by
  have hkey : ∀ {i : ℕ} {pr : JsonPair}, pairs[i]? = some pr →
      JsonSortCtx.key ⟨pairs, false⟩ i = pr.key := fun hpr => by
    rw [JsonSortCtx.key, hpr]
  obtain ⟨hlt, hget⟩ := List.getElem?_eq_some_iff.mp hm
  -- counting along the index is counting along the pairs
  have hcount : idx.countP (fun i => p (sortKey false (JsonSortCtx.key ⟨pairs, false⟩ i)))
      = pairs.countP fun pr => p (sortKey false pr.key) := by
    have hmap : pairs = (List.range pairs.length).map fun i => pairs.getD i ⟨⟨[], 0⟩, 0⟩ := by
      refine List.ext_getElem (by simp) fun i h1 h2 => ?_
      simp [h1]
    conv_rhs => rw [hmap]
    rw [h.perm.countP_eq, List.countP_map]
    refine List.countP_congr fun i hi => ?_
    have hi' := List.mem_range.mp hi
    simp [hkey (List.getElem?_eq_getElem hi'), hi']
  have hmono := h.sorted.imp fun {a b} hab => hp _ _ hab
  rw [← hcount, ← countP_lt_iff hmono hlt, hget, hkey hpr]

/-- What is at a place of the index, and on which side of the key it is. -/
theorem IsIndex.sides {pairs : List JsonPair} {idx : List ℕ} (hidx : IsIndex pairs idx)
    (hkeys : ∀ pr ∈ pairs, pr.key.Ok) (key : List UInt8) {m : ℕ} (hm : m < pairs.length) :
    ∃ i pr, idxAt idx m = .ok i ∧ pairAt pairs i = .ok pr ∧ valAt pairs idx m = .ok pr.val ∧
      pr ∈ pairs ∧
      (sortKey false pr.key < sortKey false (keyStr key) ↔ m < below pairs key) ∧
      (sortKey false pr.key ≤ sortKey false (keyStr key) ↔
        m < below pairs key + occurs pairs key) := by
  have hlt : m < idx.length := by rwa [hidx.length]
  have hgetI : idx[m]? = some idx[m] := List.getElem?_eq_getElem hlt
  have hltI : idx[m] < pairs.length := hidx.lt (List.getElem_mem hlt)
  have hgetP : pairs[idx[m]]? = some pairs[idx[m]] := List.getElem?_eq_getElem hltI
  have hidxAt : idxAt idx m = .ok idx[m] := by
    rw [idxAt, if_neg (by omega), Int.toNat_natCast, hgetI]
  have hpairAt : pairAt pairs idx[m] = .ok pairs[idx[m]] := by rw [pairAt, hgetP]
  refine ⟨idx[m], pairs[idx[m]], hidxAt, hpairAt, ?_, List.getElem_mem hltI, ?_, ?_⟩
  · rw [valAt, scan_bind_ok hidxAt, scan_bind_ok hpairAt]
    rfl
  · have hside := hidx.countP_iff (fun a => decide (a < sortKey false (keyStr key)))
      (fun a b hab hb => by simp only [decide_eq_true_eq] at hb ⊢; exact lt_of_le_of_lt hab hb)
      hgetI hgetP
    rwa [decide_eq_true_eq] at hside
  · have hside := hidx.countP_iff (fun a => decide (a ≤ sortKey false (keyStr key)))
      (fun a b hab hb => by simp only [decide_eq_true_eq] at hb ⊢; exact le_trans hab hb)
      hgetI hgetP
    rwa [decide_eq_true_eq, upTo_eq hkeys] at hside

/-- The search over the index is a bisection of the places of the key. -/
theorem bisectGet_eq {pairs : List JsonPair} {idx : List ℕ} {key : List UInt8}
    (hidx : IsIndex pairs idx) (hkeys : ∀ pr ∈ pairs, pr.key.Ok) :
    ∀ {fuel : ℕ} {lo hi : ℤ}, hi - lo < fuel → 0 ≤ lo → hi < pairs.length →
      bisectGet pairs idx (jsonFnv1a key) key fuel lo hi =
        match bisect (splitAt (below pairs key)
          (below pairs key + occurs pairs key)) fuel lo hi with
        | some m => valAt pairs idx m
        | none => .error (.err .notFound) := by
  intro fuel
  induction fuel with
  | zero =>
    intro lo hi hfuel _ _
    rw [bisectGet, if_neg (by omega), bisect]
  | succ fuel ih =>
    intro lo hi hfuel hlo hhi
    rw [bisectGet, bisect]
    by_cases hle : lo ≤ hi
    · rw [if_pos hle, if_pos hle]
      have hmid : 0 ≤ lo + (hi - lo) / 2 ∧ lo + (hi - lo) / 2 ≤ hi := by omega
      obtain ⟨m, hm⟩ : ∃ m : ℕ, lo + (hi - lo) / 2 = m := ⟨_, (Int.toNat_of_nonneg hmid.1).symm⟩
      rw [hm] at hmid ⊢
      obtain ⟨i, pr, hidxAt, hpairAt, hval, -, hlow, hup⟩ :=
        hidx.sides hkeys key (m := m) (by omega)
      have hneg : keyOrd false pr.key ⟨key, jsonFnv1a key⟩ < 0 ↔ m < below pairs key :=
        keyOrd_neg.trans hlow
      have hzero : keyOrd false pr.key ⟨key, jsonFnv1a key⟩ = 0 ↔
          ¬ m < below pairs key ∧ m < below pairs key + occurs pairs key := by
        rw [keyOrd_eq_zero, ← hup, ← hneg, keyOrd_neg, not_lt]
        exact ⟨fun h => ⟨h.ge, h.le⟩, fun h => le_antisymm h.2 h.1⟩
      simp only [scan_bind_ok hidxAt, scan_bind_ok hpairAt]
      by_cases hl : m < below pairs key
      · have hprobe : splitAt (below pairs key) (below pairs key + occurs pairs key) m = .lt :=
          if_pos (by exact_mod_cast hl)
        rw [if_neg fun h0 => (hzero.mp h0).1 hl, if_pos (hneg.mpr hl), hprobe]
        exact ih (by omega) (by omega) hhi
      · by_cases hr : m < below pairs key + occurs pairs key
        · have hprobe : splitAt (below pairs key) (below pairs key + occurs pairs key) m = .eq := by
            rw [splitAt, if_neg (by exact_mod_cast hl), if_pos (by exact_mod_cast hr)]
          rw [if_pos (hzero.mpr ⟨hl, hr⟩), hprobe]
          exact hval.symm
        · have hprobe : splitAt (below pairs key) (below pairs key + occurs pairs key) m = .gt := by
            rw [splitAt, if_neg (by exact_mod_cast hl), if_neg (by exact_mod_cast hr)]
          rw [if_neg fun h0 => hr (hzero.mp h0).2, if_neg fun hn => hl (hneg.mp hn), hprobe]
          exact ih (by omega) hlo (by omega)
    · rw [if_neg hle, if_neg hle]

/-! ## Lookups -/

/-- Where the search over the index ends: at the first place that bisection reaches among
those of the key. -/
def probe (pairs : List JsonPair) (key : List UInt8) : Option ℤ :=
  bisect (splitAt (below pairs key) (below pairs key + occurs pairs key)) pairs.length 0
    (pairs.length - 1)

/-- What the search over the index returns. -/
def foundAt (pairs : List JsonPair) (idx : List ℕ) (key : List UInt8) : Scan JsonPtr :=
  match probe pairs key with
  | some m => valAt pairs idx m
  | none => .error (.err .notFound)

/-- A lookup in an object without a valid index. -/
theorem jsonObjGetN_unsorted {h : Heap D} {v : JsonPtr} {o : JsonObj} {key : List UInt8}
    (hobj : h.node v = .object o) (hkeys : ∀ pr ∈ o.pairs, pr.key.Ok) (hsorted : o.isSorted = false)
    (hlen : key.length ≤ uint32Max) : jsonObjGetN h v key = found (firstPair o.pairs key) := by
  rw [jsonObjGetN, if_neg (not_lt.mpr hlen), hobj]
  simp only
  by_cases hzero : o.pairs.length = 0
  · rw [if_pos hzero, List.length_eq_zero_iff.mp hzero]
    rfl
  · rw [if_neg hzero, objGet, hsorted]
    exact linearGet_eq hkeys

/-- A lookup in an object with a valid index. -/
theorem jsonObjGetN_sorted {h : Heap D} {v : JsonPtr} {o : JsonObj} {key : List UInt8}
    {idx : List ℕ}
    (hobj : h.node v = .object o) (hkeys : ∀ pr ∈ o.pairs, pr.key.Ok) (hsorted : o.isSorted = true)
    (hidx : o.sortedIdx = some idx) (hindex : IsIndex o.pairs idx) (hlen : key.length ≤ uint32Max) :
    jsonObjGetN h v key = foundAt o.pairs idx key := by
  rw [jsonObjGetN, if_neg (not_lt.mpr hlen), hobj]
  simp only
  by_cases hzero : o.pairs.length = 0
  · rw [if_pos hzero, List.length_eq_zero_iff.mp hzero]
    rfl
  · rw [if_neg hzero, objGet, hsorted, hidx]
    exact bisectGet_eq hindex hkeys (by omega) le_rfl (by omega)

/-- Where a key occurs, the search ends at a pair with the key. -/
theorem probe_spec {pairs : List JsonPair} {idx : List ℕ} {key : List UInt8}
    (hidx : IsIndex pairs idx) (hkeys : ∀ pr ∈ pairs, pr.key.Ok) :
    (occurs pairs key = 0 → foundAt pairs idx key = .error (.err .notFound)) ∧
      (0 < occurs pairs key → ∃ pr ∈ pairs, pr.key.data = key ∧
        foundAt pairs idx key = .ok pr.val) := by
  have hle : below pairs key + occurs pairs key ≤ pairs.length := by
    rw [← upTo_eq hkeys]
    exact List.countP_le_length
  obtain ⟨hsome, hnone⟩ := @bisect_splitAt (below pairs key) (below pairs key + occurs pairs key)
    pairs.length 0 (pairs.length - 1) (by omega) (by omega) (by omega)
  unfold foundAt probe
  constructor
  · intro h0
    rw [hnone (by omega)]
  · intro hpos
    obtain ⟨m, hm, hlo, hhi⟩ := hsome (by omega)
    obtain ⟨m, rfl⟩ : ∃ k : ℕ, m = k := ⟨_, (Int.toNat_of_nonneg (by omega)).symm⟩
    rw [hm]
    obtain ⟨i, pr, -, -, hval, hmem, hlow, hup⟩ := hidx.sides hkeys key (m := m) (by omega)
    refine ⟨pr, hmem, ?_, hval⟩
    have hge : ¬ sortKey false pr.key < sortKey false (keyStr key) := fun hc => by
      have := hlow.mp hc
      omega
    have hsame := le_antisymm (hup.mpr (by omega)) (not_lt.mp hge)
    rwa [(hkeys _ hmem).eq, sortKey_inj] at hsame

theorem firstPair_eq_none {pairs : List JsonPair} {key : List UInt8} :
    firstPair pairs key = none ↔ occurs pairs key = 0 := by
  rw [firstPair, occurs, List.find?_eq_none, List.countP_eq_zero]

/-- A pair that was found is one of the pairs, and has the key. -/
theorem firstPair_some {pairs : List JsonPair} {key : List UInt8} {pr : JsonPair}
    (h : firstPair pairs key = some pr) : pr ∈ pairs ∧ pr.key.data = key :=
  ⟨List.mem_of_find?_eq_some h, by simpa using List.find?_some h⟩

/-- No key occurs twice where the keys are different. -/
theorem occurs_le_one_of_nodup {pairs : List JsonPair}
    (hnodup : (pairs.map fun pr => pr.key.data).Nodup) (key : List UInt8) :
    occurs pairs key ≤ 1 := by
  have hcount := List.nodup_iff_count_le_one.mp hnodup key
  rw [List.count, List.countP_map] at hcount
  refine le_trans (le_of_eq ?_) hcount
  rw [occurs]
  refine List.countP_congr fun pr _ => ?_
  simp

/-- Pairs with a key that occurs once are the same pair. -/
theorem eq_of_occurs_le_one {pairs : List JsonPair} {key : List UInt8} (h : occurs pairs key ≤ 1)
    {pr pr' : JsonPair} (hpr : pr ∈ pairs) (hpr' : pr' ∈ pairs) (hkey : pr.key.data = key)
    (hkey' : pr'.key.data = key) : pr = pr' := by
  unfold occurs at h
  rw [List.countP_eq_length_filter] at h
  have hmem : ∀ {x : JsonPair}, x ∈ pairs → x.key.data = key →
      x ∈ pairs.filter fun pr => pr.key.data = key := fun hx hk =>
    List.mem_filter.mpr ⟨hx, by simpa using hk⟩
  have h1 := hmem hpr hkey
  have h2 := hmem hpr' hkey'
  match hl : pairs.filter fun pr => pr.key.data = key with
  | [] => simp [hl] at h1
  | [x] =>
    rw [hl, List.mem_singleton] at h1 h2
    rw [h1, h2]
  | x :: y :: l => simp [hl] at h

/-- **A key that occurs at most once is found in either way.** -/
theorem jsonObjGetN_once {h : Heap D} (hrep : h.RepOk) {v : JsonPtr} (hv : v < h.next) {o : JsonObj}
    (hobj : h.node v = .object o) {key : List UInt8} (honce : occurs o.pairs key ≤ 1)
    (hlen : key.length ≤ uint32Max) : jsonObjGetN h v key = found (firstPair o.pairs key) := by
  have hok := hrep v hv
  rw [hobj] at hok
  obtain ⟨-, hpairs, hindexed⟩ := hok
  have hkeys : ∀ pr ∈ o.pairs, pr.key.Ok := fun pr hpr => (hpairs pr hpr).1
  cases hsorted : o.isSorted with
  | false => exact jsonObjGetN_unsorted hobj hkeys hsorted hlen
  | true =>
    obtain ⟨idx, hidx, hindex⟩ := hindexed hsorted
    rw [jsonObjGetN_sorted hobj hkeys hsorted hidx hindex hlen]
    obtain ⟨hzero, hpos⟩ := @probe_spec _ _ key hindex hkeys
    cases hfirst : firstPair o.pairs key with
    | none => exact hzero (firstPair_eq_none.mp hfirst)
    | some pr =>
      obtain ⟨hmem, hkey⟩ := firstPair_some hfirst
      have hocc : 0 < occurs o.pairs key := by
        rw [Nat.pos_iff_ne_zero]
        intro h0
        simp [firstPair_eq_none.mpr h0] at hfirst
      obtain ⟨pr', hmem', hkey', hfound⟩ := hpos hocc
      rw [hfound, eq_of_occurs_le_one honce hmem' hmem hkey' hkey]
      rfl

/-- A lookup that ends with a node of the heap or an error code. -/
def Heap.Finds (h : Heap D) (x : Scan JsonPtr) : Prop :=
  (∀ f, x ≠ .error (.fault f)) ∧ ∀ out, x = .ok out → out < h.next

theorem Heap.finds_err (h : Heap D) (e : JsonError) : h.Finds (.error (.err e)) :=
  ⟨fun _ heq => (by cases heq), fun _ heq => (by cases heq)⟩

theorem Heap.finds_ok {h : Heap D} {p : JsonPtr} (hp : p < h.next) : h.Finds (.ok p) :=
  ⟨fun _ heq => (by cases heq), fun out heq => by cases heq; exact hp⟩

/-- Looking up a key ends. -/
theorem jsonObjGetN_finds {h : Heap D} (hrep : h.RepOk) {v : JsonPtr} (hv : v < h.next)
    (key : List UInt8) : h.Finds (jsonObjGetN h v key) := by
  by_cases hlen : key.length ≤ uint32Max
  · have hok := hrep v hv
    cases hobj : h.node v with
    | object o =>
      rw [hobj] at hok
      obtain ⟨-, hpairs, hindexed⟩ := hok
      have hkeys : ∀ pr ∈ o.pairs, pr.key.Ok := fun pr hpr => (hpairs pr hpr).1
      cases hsorted : o.isSorted with
      | false =>
        rw [jsonObjGetN_unsorted hobj hkeys hsorted hlen]
        cases hfirst : firstPair o.pairs key with
        | none => exact h.finds_err _
        | some pr => exact Heap.finds_ok (hpairs pr (firstPair_some hfirst).1).2
      | true =>
        obtain ⟨idx, hidx, hindex⟩ := hindexed hsorted
        rw [jsonObjGetN_sorted hobj hkeys hsorted hidx hindex hlen]
        obtain ⟨hzero, hpos⟩ := @probe_spec _ _ key hindex hkeys
        rcases Nat.eq_zero_or_pos (occurs o.pairs key) with h0 | h0
        · rw [hzero h0]
          exact h.finds_err _
        · obtain ⟨pr, hmem, -, hfound⟩ := hpos h0
          rw [hfound]
          exact Heap.finds_ok (hpairs pr hmem).2
    | _ =>
      rw [jsonObjGetN, if_neg (not_lt.mpr hlen), hobj]
      exact h.finds_err _
  · rw [jsonObjGetN, if_pos (not_le.mp hlen)]
    exact h.finds_err _

/-! ## Finalizing an object -/

theorem jsonObjFinalize_eq {s : St D} {v : JsonPtr} {o : JsonObj}
    (hobj : s.heap.node v = .object o) :
    jsonObjFinalize v s = jsonObjSort v o s := by
  have hread : readNode v s = .ok (.object o) s := by rw [readNode, hobj]
  rw [jsonObjFinalize, bind_ok hread]

/-- What the heap is after an object has been finalized, or could not be. -/
theorem jsonObjFinalize_heap {h : Heap D} (hrep : h.RepOk) {v : JsonPtr} (hv : v < h.next)
    {o : JsonObj} (hobj : h.node v = .object o) (A : Arena) :
    ((o.isSorted = true ∨ o.pairs.length = 0 ∨ ∃ s', idxBuffer o ⟨h, A⟩ = .ok false s') ∧
      (stateAfter (jsonObjFinalize v) ⟨h, A⟩).heap = h) ∨
    (o.isSorted = false ∧ (∃ s', idxBuffer o ⟨h, A⟩ = .ok true s') ∧
      ∃ idx, sortIndices ⟨o.pairs, false⟩ = .ok idx ∧ IsIndex o.pairs idx ∧
        (stateAfter (jsonObjFinalize v) ⟨h, A⟩).heap =
          h.set v (.object { o with sortedIdx := some idx, isSorted := true })) := by
  have hok := hrep v hv
  rw [hobj] at hok
  have hcap := hok.1.1
  unfold stateAfter
  rw [jsonObjFinalize_eq (s := ⟨h, A⟩) hobj]
  rcases jsonObjSort_cases ⟨h, A⟩ v o (by omega) with
    ⟨hskip, hsort⟩ | ⟨hsorted, -, A', ⟨hbuf, herr, -⟩ | ⟨hbuf, idx, hidx, hindex, hsort⟩⟩
  · rw [hsort]
    exact .inl ⟨hskip.imp id .inl, rfl⟩
  · rw [herr]
    exact .inl ⟨.inr (.inr ⟨_, hbuf⟩), rfl⟩
  · rw [hsort]
    exact .inr ⟨hsorted, ⟨_, hbuf⟩, idx, hidx, hindex, rfl⟩

/-- The search over the index finds what the linear scan finds if the key does not occur, or
if the pair at the place where the search ends has the value of the first pair with the key. -/
theorem foundAt_eq_found_iff {pairs : List JsonPair} {idx : List ℕ} {key : List UInt8}
    (hindex : IsIndex pairs idx) (hkeys : ∀ pr ∈ pairs, pr.key.Ok) :
    foundAt pairs idx key = found (firstPair pairs key) ↔
      occurs pairs key = 0 ∨ ∃ m pr, probe pairs key = some m ∧ firstPair pairs key = some pr ∧
        valAt pairs idx m = .ok pr.val := by
  obtain ⟨hzero, -⟩ := @probe_spec _ _ key hindex hkeys
  constructor
  · intro hsame
    cases hfirst : firstPair pairs key with
    | none => exact .inl (firstPair_eq_none.mp hfirst)
    | some pr =>
      rw [hfirst] at hsame
      unfold foundAt at hsame
      cases hprobe : probe pairs key with
      | none =>
        rw [hprobe] at hsame
        cases hsame
      | some m =>
        rw [hprobe] at hsame
        exact .inr ⟨m, pr, rfl, rfl, hsame⟩
  · rintro (h0 | ⟨m, pr, hprobe, hfirst, hval⟩)
    · rw [hzero h0, firstPair_eq_none.mpr h0]
      rfl
    · rw [foundAt, hprobe, hfirst]
      exact hval

/-- **When finalizing an object changes what a lookup finds.**  It never does where the key
occurs at most once.  In general it does not if the object has a valid index already, if
there is no memory for one, or if the pair at the place where the search ends has the value
of the first pair with the key. -/
theorem jsonObjFinalize_lookup (h : Heap D) [CDouble D] (hh : ApiHeap h) (v : JsonPtr)
    (hv : v < h.next) (o : JsonObj) (hobj : h.node v = .object o) (key : List UInt8) (A : Arena) :
    (occurs o.pairs key ≤ 1 →
      jsonObjGetN (stateAfter (jsonObjFinalize v) ⟨h, A⟩).heap v key = jsonObjGetN h v key) ∧
    (jsonObjGetN (stateAfter (jsonObjFinalize v) ⟨h, A⟩).heap v key = jsonObjGetN h v key ↔
      key.length > uint32Max ∨ occurs o.pairs key = 0 ∨ o.isSorted = true ∨
        (∃ s', idxBuffer o ⟨h, A⟩ = .ok false s') ∨
        ∃ idx m pr, sortIndices ⟨o.pairs, false⟩ = .ok idx ∧ probe o.pairs key = some m ∧
          firstPair o.pairs key = some pr ∧ valAt o.pairs idx m = .ok pr.val) := by
  have hrep := hh.repOk
  have hok := hrep v hv
  rw [hobj] at hok
  have hkeys : ∀ pr ∈ o.pairs, pr.key.Ok := fun pr hpr => (hok.2.1 pr hpr).1
  by_cases hlen : key.length > uint32Max
  · have hover : ∀ h' : Heap D, jsonObjGetN h' v key = .error (.err .overflow) :=
      fun h' => if_pos hlen
    rw [hover, hover]
    exact ⟨fun _ => rfl, fun _ => .inl hlen, fun _ => rfl⟩
  have hle := not_lt.mp hlen
  rcases jsonObjFinalize_heap hrep hv hobj A with
    ⟨hwhy, hheap⟩ | ⟨hsorted, ⟨s1, hbuf⟩, idx, hidx, hindex, hheap⟩
  · rw [hheap]
    refine ⟨fun _ => rfl, fun _ => .inr ?_, fun _ => rfl⟩
    rcases hwhy with hsorted | hzero | hbuf
    · exact .inr (.inl hsorted)
    · rw [List.length_eq_zero_iff.mp hzero]
      exact .inl rfl
    · exact .inr (.inr (.inl hbuf))
  · have hafter : jsonObjGetN (stateAfter (jsonObjFinalize v) ⟨h, A⟩).heap v key
        = foundAt o.pairs idx key := by
      rw [hheap]
      exact jsonObjGetN_sorted (o := { o with sortedIdx := some idx, isSorted := true })
        (Heap.set_node_self ..) hkeys rfl rfl hindex hle
    have hbefore := jsonObjGetN_unsorted hobj hkeys hsorted hle
    refine ⟨fun honce => ?_, ?_⟩
    · have hset := hrep.set v (n := .object { o with sortedIdx := some idx, isSorted := true })
        ⟨hok.1, hok.2.1, fun _ => ⟨idx, rfl, hindex⟩⟩
      rw [hbefore, hheap]
      exact jsonObjGetN_once hset hv (Heap.set_node_self ..) honce hle
    · rw [hafter, hbefore, foundAt_eq_found_iff hindex hkeys]
      constructor
      · rintro (h0 | ⟨m, pr, hprobe, hfirst, hval⟩)
        · exact .inr (.inl h0)
        · exact .inr (.inr (.inr (.inr ⟨idx, m, pr, hidx, hprobe, hfirst, hval⟩)))
      · rintro (hbig | h0 | hs | ⟨s', hs'⟩ | ⟨idx', m, pr, hidx', hprobe, hfirst, hval⟩)
        · exact absurd hbig hlen
        · exact .inl h0
        · simp [hsorted] at hs
        · rw [hbuf] at hs'
          cases hs'
        · obtain rfl : idx = idx' := Except.ok.inj (hidx.symm.trans hidx')
          exact .inr ⟨m, pr, hprobe, hfirst, hval⟩

/-- The lookup theorem for `{"a":1}` and the key `a`. -/
theorem jsonObjFinalize_lookup_onePair :
    ∃ (_ : CDouble Unit) (A : Arena) (v : JsonPtr) (s : St Unit),
      jsonParse [0x7B, 0x22, 0x61, 0x22, 0x3A, 0x31, 0x7D] ⟨.empty, A⟩ = .ok v s ∧
      jsonObjGetN (stateAfter (jsonObjFinalize v) ⟨s.heap, A⟩).heap v [0x61]
        = jsonObjGetN s.heap v [0x61] := by
  obtain ⟨A, hA⟩ := Arena.exists_fresh
  let _ : CDouble Unit := .unit
  have href : refParse [0x7B, 0x22, 0x61, 0x22, 0x3A, 0x31, 0x7D] 0
      = .ok ((.obj [([0x61], .int 1)] : Json Unit), 2) := by rfl
  obtain ⟨v, s, hparse, hapi, hv, -, hden, -⟩ := ApiHeap.empty.exists_parsed (by decide) href hA
  rw [denotesIn_obj] at hden
  obtain ⟨-, o, hobj, hpairs⟩ := hden
  have honce : occurs o.pairs [0x61] ≤ 1 := List.countP_le_length.trans hpairs.length_eq.ge
  exact ⟨_, A, v, s, hparse, (jsonObjFinalize_lookup s.heap hapi v hv o hobj [0x61] A).1 honce⟩

/-- `{"a":1,"a":2,"a":3}`. -/
def threeKeysText : List UInt8 :=
  [0x7B, 0x22, 0x61, 0x22, 0x3A, 0x31, 0x2C, 0x22, 0x61, 0x22, 0x3A, 0x32, 0x2C,
    0x22, 0x61, 0x22, 0x3A, 0x33, 0x7D]

/-- Three pairs with the key `a`. -/
def threeKeys (p q r : JsonPtr) : List JsonPair :=
  [⟨keyStr [0x61], p⟩, ⟨keyStr [0x61], q⟩, ⟨keyStr [0x61], r⟩]

/-- In `{"a":1,"a":2,"a":3}` the value of `a` is `1` before the object is finalized, and
`2` afterwards. -/
theorem jsonObjFinalize_lookup_threeKeys :
    ∃ (_ : CDouble Unit) (A : Arena) (v p q : JsonPtr) (s s' : St Unit),
      jsonParse threeKeysText ⟨.empty, A⟩ = .ok v s ∧
      jsonObjGetN s.heap v [0x61] = .ok p ∧ s.heap.node p = .integer 1 ∧
      jsonObjFinalize v ⟨s.heap, A⟩ = .ok () s' ∧
      jsonObjGetN s'.heap v [0x61] = .ok q ∧ s'.heap.node q = .integer 2 := by
  obtain ⟨A, hA⟩ := Arena.exists_fresh
  let _ : CDouble Unit := .unit
  have href : refParse threeKeysText 0
      = .ok ((.obj [([0x61], .int 1), ([0x61], .int 2), ([0x61], .int 3)] : Json Unit), 4) := by rfl
  obtain ⟨v, s, hparse, hapi, hv, hplain, hden, -⟩ :=
    ApiHeap.empty.exists_parsed (by decide) href hA
  rw [denotesIn_obj] at hden
  obtain ⟨-, o, hobj, hpairs⟩ := hden
  have hok := hapi.repOk v hv
  rw [hobj] at hok
  obtain ⟨hidx, hsorted⟩ := hplain o hobj
  -- the pairs, one by one
  obtain ⟨p, q, r, hlist, hp, hq⟩ : ∃ p q r, o.pairs = threeKeys p q r ∧
      s.heap.node p = .integer 1 ∧ s.heap.node q = .integer 2 := by
    have hkey : ∀ pr ∈ o.pairs, pr.key.data = [0x61] → pr = ⟨keyStr [0x61], pr.val⟩ :=
      fun pr hpr hd => by
        have heq := (hok.2.1 pr hpr).1.eq
        rw [hd] at heq
        rw [← heq]
    generalize hl : o.pairs = l at hpairs hkey
    match l, hpairs with
    | [a, b, c], .cons ha (.cons hb (.cons hc .nil)) =>
      refine ⟨a.val, b.val, c.val, ?_, ha.2.2, hb.2.2⟩
      rw [threeKeys, ← hkey a (by simp) ha.1, ← hkey b (by simp) hb.1, ← hkey c (by simp) hc.1]
  have hpq : p ≠ q := by
    rintro rfl
    rw [hp] at hq
    cases hq
  have hkeys : ∀ pr ∈ o.pairs, pr.key.Ok := fun pr hpr => (hok.2.1 pr hpr).1
  have hshort : ([0x61] : List UInt8).length ≤ uint32Max := by decide
  have hbefore : jsonObjGetN s.heap v [0x61] = .ok p := by
    rw [jsonObjGetN_unsorted hobj hkeys hsorted hshort, hlist]
    rfl
  have hcap := hok.1.1
  have hlen : o.pairs.length = 3 := by
    rw [hlist]
    rfl
  rcases jsonObjSort_cases ⟨s.heap, A⟩ v o (by omega) with
    ⟨hskip, -⟩ | ⟨-, -, A', ⟨-, -, hroom⟩ | ⟨-, idx, hsort, hindex, hok'⟩⟩
  · rcases hskip with hs | h0
    · simp [hsorted] at hs
    · omega
  · exfalso
    refine hroom 0 ⟨hA.neverFails, ?_⟩
    have hmax := hok.1.2
    show A.totalBytes + _ + 38 ≤ sizeMax
    rw [hA.totalBytes]
    unfold jsonMaxArrayLen at hmax
    unfold sizeofUint32 sizeMax
    omega
  · have hidx' : idx = [0, 1, 2] := by
      rw [hlist] at hsort
      have hconc : sortIndices ⟨threeKeys p q r, false⟩ = .ok [0, 1, 2] := by
        with_unfolding_all rfl
      exact Except.ok.inj (hsort.symm.trans hconc)
    have hcall := (jsonObjFinalize_eq (s := ⟨s.heap, A⟩) hobj).trans hok'
    refine ⟨_, A, v, p, q, s, _, hparse, hbefore, hp, hcall, ?_, ?_⟩
    · rw [jsonObjGetN_sorted (o := { o with sortedIdx := some idx, isSorted := true })
        (Heap.set_node_self ..) hkeys rfl rfl hindex hshort]
      show foundAt o.pairs idx [0x61] = .ok q
      rw [hlist, hidx']
      with_unfolding_all rfl
    · have hqv : q ≠ v := by
        rintro rfl
        rw [hobj] at hq
        cases hq
      show (s.heap.set v _).node q = _
      rw [Heap.set_node_ne _ _ hqv, hq]

end SJson
