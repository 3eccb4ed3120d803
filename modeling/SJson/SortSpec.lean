/-
# The sort sorts

`json__key_cmp` compares the values of a key in a linear order, `sortKey`: the hash and
then the bytes, or the bytes alone.  Under it `json__introsort` terminates for every
depth budget, touches only cells of its window, permutes them and leaves them in order
(`jsonIntrosort_spec`).
-/
import SJson.Sort

namespace SJson

open Window

/-! ## The order of keys -/

/-- What `json__key_cmp` compares. -/
def sortKey (lexical : Bool) (s : JsonStr) : ℕ ×ₗ List ℕ :=
  toLex (if lexical then 0 else s.hash.toNat, s.data.map UInt8.toNat)

/-- `memcmp` up to the shorter length, and then the lengths. -/
def cmpBytes (a b : List UInt8) : ℤ :=
  if memcmp (min a.length b.length) a b ≠ 0 then memcmp (min a.length b.length) a b
  else if a.length < b.length then -1
  else if a.length > b.length then 1
  else 0

theorem cmpBytes_cons (x y : UInt8) (a b : List UInt8) :
    cmpBytes (x :: a) (y :: b) = if x = y then cmpBytes a b else (x.toNat : ℤ) - y.toNat := by
  unfold cmpBytes
  rw [List.length_cons, List.length_cons, Nat.succ_min_succ, memcmp]
  by_cases hxy : x = y
  · simp only [if_pos hxy, Nat.succ_lt_succ_iff, gt_iff_lt]
  · have hne : (x.toNat : ℤ) - y.toNat ≠ 0 := fun h =>
      hxy (UInt8.toNat_inj.mp (by omega))
    rw [if_neg hxy, if_neg hxy, if_pos hne]

theorem cmpBytes_neg {a b : List UInt8} :
    cmpBytes a b < 0 ↔ a.map UInt8.toNat < b.map UInt8.toNat := by
  induction a generalizing b with
  | nil =>
    cases b with
    | nil => simp [cmpBytes, memcmp]
    | cons y b => simp [cmpBytes, memcmp]
  | cons x a ih =>
    cases b with
    | nil => simp [cmpBytes, memcmp]
    | cons y b =>
      rw [cmpBytes_cons, List.map_cons, List.map_cons, List.cons_lt_cons_iff, UInt8.toNat_inj]
      by_cases hxy : x = y
      · rw [if_pos hxy, ih]
        simp [hxy]
      · rw [if_neg hxy]
        simp only [hxy, false_and, or_false]
        omega

theorem cmpBytes_eq_zero {a b : List UInt8} : cmpBytes a b = 0 ↔ a = b := by
  induction a generalizing b with
  | nil =>
    cases b with
    | nil => simp [cmpBytes, memcmp]
    | cons y b => simp [cmpBytes, memcmp]
  | cons x a ih =>
    cases b with
    | nil => simp [cmpBytes, memcmp]
    | cons y b =>
      rw [cmpBytes_cons, List.cons.injEq]
      by_cases hxy : x = y
      · rw [if_pos hxy, ih]
        simp [hxy]
      · have hne : x.toNat ≠ y.toNat := fun h => hxy (UInt8.toNat_inj.mp h)
        rw [if_neg hxy]
        simp only [hxy, false_and, iff_false]
        omega

theorem keyOrd_eq (lexical : Bool) (ka kb : JsonStr) :
    keyOrd lexical ka kb = if lexical = false ∧ ka.hash ≠ kb.hash then
      (if ka.hash < kb.hash then -1 else 1) else cmpBytes ka.data kb.data := rfl

theorem map_toNat_inj {a b : List UInt8} :
    a.map UInt8.toNat = b.map UInt8.toNat ↔ a = b :=
  (List.map_injective_iff.mpr fun _ _ => UInt8.toNat_inj.mp).eq_iff

/-- The sign of the comparison. -/
theorem keyOrd_neg {lexical : Bool} {ka kb : JsonStr} :
    keyOrd lexical ka kb < 0 ↔ sortKey lexical ka < sortKey lexical kb := by
  rw [keyOrd_eq, sortKey, sortKey, Prod.Lex.toLex_lt_toLex]
  cases lexical with
  | true => simp [cmpBytes_neg]
  | false =>
    simp only [true_and, Bool.false_eq_true, if_false, UInt32.toNat_inj]
    by_cases heq : ka.hash = kb.hash
    · simp [heq, cmpBytes_neg]
    · rw [if_pos heq]
      simp only [heq, false_and, or_false, ← UInt32.lt_iff_toNat_lt]
      split_ifs with hlt <;> simp [hlt]

theorem keyOrd_eq_zero {lexical : Bool} {ka kb : JsonStr} :
    keyOrd lexical ka kb = 0 ↔ sortKey lexical ka = sortKey lexical kb := by
  rw [keyOrd_eq, sortKey, sortKey, toLex_inj, Prod.mk.injEq, map_toNat_inj]
  cases lexical with
  | true => simp [cmpBytes_eq_zero]
  | false =>
    simp only [true_and, Bool.false_eq_true, if_false, UInt32.toNat_inj]
    by_cases heq : ka.hash = kb.hash
    · simp [heq, cmpBytes_eq_zero]
    · rw [if_pos heq]
      simp only [heq, false_and, iff_false]
      split_ifs <;> decide

namespace JsonSortCtx

/-- The key of a pair. -/
def key (ctx : JsonSortCtx) (a : ℕ) : JsonStr :=
  match ctx.pairs[a]? with
  | some pair => pair.key
  | none => ⟨[], 0⟩

/-- The order that the sort establishes. -/
def le (ctx : JsonSortCtx) (a b : ℕ) : Prop :=
  sortKey ctx.lexical (ctx.key a) ≤ sortKey ctx.lexical (ctx.key b)

instance (ctx : JsonSortCtx) : IsTrans ℕ ctx.le := ⟨fun _ _ _ => le_trans⟩

instance (ctx : JsonSortCtx) : Std.Total ctx.le := ⟨fun _ _ => le_total _ _⟩

/-- The number of a pair. -/
def Valid (ctx : JsonSortCtx) (a : ℕ) : Prop := a < ctx.pairs.length

end JsonSortCtx

theorem jsonKeyCmp_of_valid {ctx : JsonSortCtx} {a b : ℕ} (ha : ctx.Valid a) (hb : ctx.Valid b) :
    jsonKeyCmp ctx a b = .ok (keyOrd ctx.lexical (ctx.key a) (ctx.key b)) := by
  have hget : ∀ {i : ℕ}, ctx.Valid i → ∃ pair, pairAt ctx.pairs i = .ok pair ∧
    ctx.key i = pair.key := by
    intro i hi
    have hsome := List.getElem?_eq_getElem hi
    exact ⟨ctx.pairs[i], by rw [pairAt, hsome], by rw [JsonSortCtx.key, hsome]⟩
  obtain ⟨pa, hpa, hka⟩ := hget ha
  obtain ⟨pb, hpb, hkb⟩ := hget hb
  rw [jsonKeyCmp, scan_bind_ok hpa, scan_bind_ok hpb, hka, hkb]
  rfl

/-- The comparison of two valid indices, and what its sign says. -/
theorem jsonKeyCmp_spec {ctx : JsonSortCtx} {a b : ℕ} (ha : ctx.Valid a) (hb : ctx.Valid b) :
    ∃ cmp, jsonKeyCmp ctx a b = .ok cmp ∧ (cmp ≤ 0 ↔ ctx.le a b) ∧ (0 ≤ cmp ↔ ctx.le b a) := by
  refine ⟨_, jsonKeyCmp_of_valid ha hb, ?_, ?_⟩
  · rw [JsonSortCtx.le, Int.le_iff_lt_or_eq, keyOrd_neg, keyOrd_eq_zero, le_iff_lt_or_eq]
  · rw [JsonSortCtx.le, ← not_lt, ← not_lt, keyOrd_neg]

/-! ## Cells -/

theorem cell_of_mem {lo hi i : ℕ} (arr : ℕ → ℕ) (hlo : lo ≤ i) (hhi : i ≤ hi) :
    cell lo hi arr i = .ok (arr i) := if_pos ⟨hlo, hhi⟩

theorem setCell_of_mem {lo hi i : ℕ} (arr : ℕ → ℕ) (x : ℕ) (hlo : lo ≤ i) (hhi : i ≤ hi) :
    setCell lo hi arr i x = .ok (Function.update arr i x) := if_pos ⟨hlo, hhi⟩

theorem swapCells_of_mem {lo hi i j : ℕ} (arr : ℕ → ℕ) (h : lo ≤ i ∧ i ≤ hi)
    (h' : lo ≤ j ∧ j ≤ hi) : swapCells lo hi arr i j = .ok (swap arr i j) := by
  rw [swapCells, scan_bind_ok (cell_of_mem arr h.1 h.2), scan_bind_ok (cell_of_mem arr h'.1 h'.2),
    scan_bind_ok (setCell_of_mem arr _ h.1 h.2), setCell_of_mem _ _ h'.1 h'.2]
  rfl

/-- What a sorting function returns from cells whose indices are valid. -/
def Sorts (ctx : JsonSortCtx) (lo hi : ℕ) (arr : ℕ → ℕ) (x : Scan (ℕ → ℕ)) : Prop :=
  ∃ arr', x = .ok arr' ∧ PermOn lo hi arr arr' ∧ SortedOn ctx.le lo hi arr'

variable {ctx : JsonSortCtx} {lo hi : ℕ}

/-! ## Insertion sort -/

/-- The array with the saved key in the hole. -/
def fillHole (arr : ℕ → ℕ) (j key : ℕ) : ℕ → ℕ := Function.update arr j key

theorem fillHole_succ (arr : ℕ → ℕ) (j key : ℕ) :
    fillHole (Function.update arr (j + 1) (arr j)) j key
      = swap (fillHole arr (j + 1) key) (j + 1) j := by
  unfold fillHole swap
  rw [Function.update_self, Function.update_of_ne (by omega), Function.update_idem]

/-- The inner loop moves the hole down to where the key belongs. -/
theorem isortShift_spec {key i : ℕ} (hkey : ctx.Valid key) (hihi : i ≤ hi) :
    ∀ {j : ℕ} {arr : ℕ → ℕ}, lo ≤ j → j ≤ i → AllOn lo hi ctx.Valid (fillHole arr j key) →
      Inserting ctx.le lo i j (fillHole arr j key) →
      ∃ arr' k, isortShift ctx lo hi key j arr = .ok (arr', k) ∧ lo ≤ k ∧ k ≤ i ∧
        PermOn lo hi (fillHole arr j key) (fillHole arr' k key) ∧
        SortedOn ctx.le lo i (fillHole arr' k key) := by
  intro j
  induction j with
  | zero =>
    intro arr hlo _ _ hins
    exact ⟨arr, 0, rfl, hlo, Nat.zero_le _, .refl .., hins.done (Nat.zero_le _) (by omega)⟩
  | succ j ih =>
    intro arr hlo hji hvalid hins
    rw [isortShift]
    have hhole : fillHole arr (j + 1) key (j + 1) = key := Function.update_self ..
    have hcell : fillHole arr (j + 1) key j = arr j := Function.update_of_ne (by omega) ..
    by_cases hgt : j + 1 > lo
    · rw [if_pos hgt, scan_bind_ok (cell_of_mem arr (by omega) (by omega))]
      have hx : ctx.Valid (arr j) := hcell ▸ hvalid j (by omega) (by omega)
      obtain ⟨cmp, hcmp, hle, hge⟩ := jsonKeyCmp_spec hx hkey
      rw [scan_bind_ok hcmp]
      by_cases hpos : cmp > 0
      · rw [if_pos hpos, scan_bind_ok (setCell_of_mem arr _ hlo (by omega))]
        have hswap := fillHole_succ arr j key
        have hperm : PermOn lo hi (fillHole arr (j + 1) key)
            (fillHole (Function.update arr (j + 1) (arr j)) j key) := by
          rw [hswap]
          exact permOn_swap _ ⟨by omega, by omega⟩ ⟨by omega, by omega⟩
        have hins' : Inserting ctx.le lo i j
            (fillHole (Function.update arr (j + 1) (arr j)) j key) := by
          rw [hswap]
          refine hins.shift (by omega) hji ?_
          rw [hhole, hcell]
          exact hge.mp (by omega)
        obtain ⟨arr', k, hok, hk, hki, hperm', hsorted⟩ :=
          ih (by omega) (by omega) (hperm.allOn hvalid) hins'
        exact ⟨arr', k, hok, hk, hki, hperm.trans hperm', hsorted⟩
      · rw [if_neg hpos]
        refine ⟨arr, j + 1, rfl, hlo, hji, .refl .., hins.done hji fun _ => ?_⟩
        rw [Nat.add_sub_cancel, hhole, hcell]
        exact hle.mp (by omega)
    · rw [if_neg hgt]
      exact ⟨arr, j + 1, rfl, hlo, hji, .refl .., hins.done hji (by omega)⟩

theorem isortLoop_spec : ∀ {fuel i : ℕ} {arr : ℕ → ℕ}, hi < i + fuel → lo ≤ i →
    AllOn lo hi ctx.Valid arr → (∀ a b, lo ≤ a → a ≤ b → b < i → ctx.le (arr a) (arr b)) →
    Sorts ctx lo hi arr (isortLoop ctx lo hi fuel i arr) := by
  intro fuel
  induction fuel with
  | zero =>
    intro i arr hfuel _ _ hsorted
    rw [isortLoop, if_neg (by omega)]
    exact ⟨arr, rfl, .refl .., fun a b ha hab hb => hsorted a b ha hab (by omega)⟩
  | succ fuel ih =>
    intro i arr hfuel hlo hvalid hsorted
    rw [isortLoop]
    by_cases hi' : i ≤ hi
    · rw [if_pos hi', scan_bind_ok (cell_of_mem arr hlo hi')]
      have hfill : fillHole arr i (arr i) = arr := Function.update_eq_self ..
      obtain ⟨arr', k, hshift, hk, hki, hperm, hsorted'⟩ :=
        @isortShift_spec ctx lo hi _ i (hvalid i hlo hi') hi' i arr hlo le_rfl (hfill.symm ▸ hvalid)
          (hfill.symm ▸ SortedOn.inserting hsorted)
      rw [hfill] at hperm
      rw [scan_bind_ok hshift]
      simp only
      rw [scan_bind_ok (setCell_of_mem arr' _ hk (by omega))]
      obtain ⟨arr'', hok, hperm', hsorted''⟩ := ih (show hi < i + 1 + fuel by omega) (by omega)
        (hperm.allOn hvalid)
        fun a b ha hab hb => hsorted' a b ha hab (by omega)
      exact ⟨arr'', hok, hperm.trans hperm', hsorted''⟩
    · rw [if_neg hi']
      exact ⟨arr, rfl, .refl .., fun a b ha hab hb => hsorted a b ha hab (by omega)⟩

/-- Insertion sort sorts. -/
theorem jsonIsort_spec {arr : ℕ → ℕ} (hvalid : AllOn lo hi ctx.Valid arr) :
    Sorts ctx lo hi arr (jsonIsort ctx lo hi arr) := by
  refine isortLoop_spec (by omega) (by omega) hvalid fun a b ha hab hb => ?_
  obtain rfl : a = b := by omega
  exact refl_of ctx.le _

/-! ## Heapsort -/

theorem greaterChild_spec {arr : ℕ → ℕ} {last p : ℕ} (hvalid : AllOn lo hi ctx.Valid arr)
    (hlast : lo + last ≤ hi) (hp : 2 * p + 1 ≤ last) :
    ∃ y, greaterChild ctx lo hi arr last (2 * p + 1) = .ok y ∧ IsChild y p ∧ y ≤ last ∧
      ∀ c, IsChild c p → c ≤ last → c ≠ y → ctx.le (arr (lo + c)) (arr (lo + y)) := by
  unfold greaterChild
  by_cases htwo : 2 * p + 1 + 1 ≤ last
  · rw [if_pos htwo, scan_bind_ok (cell_of_mem arr (by omega) (by omega)),
      scan_bind_ok (cell_of_mem arr (by omega) (by omega))]
    obtain ⟨cmp, hcmp, hle, hge⟩ := jsonKeyCmp_spec
      (hvalid (lo + (2 * p + 1)) (by omega) (by omega))
      (hvalid (lo + (2 * p + 1 + 1)) (by omega) (by omega))
    rw [scan_bind_ok hcmp]
    by_cases hneg : cmp < 0
    · rw [if_pos hneg]
      refine ⟨_, rfl, .inr rfl, htwo, fun c hc _ hne => ?_⟩
      obtain rfl : c = 2 * p + 1 := by
        unfold IsChild at hc
        omega
      exact hle.mp hneg.le
    · rw [if_neg hneg]
      refine ⟨_, rfl, .inl rfl, hp, fun c hc _ hne => ?_⟩
      obtain rfl : c = 2 * p + 1 + 1 := by
        unfold IsChild at hc
        omega
      exact hge.mp (not_lt.mp hneg)
  · rw [if_neg htwo]
    refine ⟨_, rfl, .inl rfl, hp, fun c hc hcl hne => ?_⟩
    unfold IsChild at hc
    omega

/-- Sifting down ends with a heap. -/
theorem siftLoop_spec {last k : ℕ} (hlast : lo + last ≤ hi) :
    ∀ {fuel parent : ℕ} {arr : ℕ → ℕ}, last < parent + fuel → AllOn lo hi ctx.Valid arr →
      Sinking ctx.le lo k last parent arr →
      ∃ arr', siftLoop ctx lo hi last fuel parent arr = .ok arr' ∧
        PermOn lo (lo + last) arr arr' ∧ HeapOn ctx.le lo k last arr' := by
  intro fuel
  induction fuel with
  | zero =>
    intro parent arr hfuel _ hsink
    rw [siftLoop, if_pos (by omega)]
    exact ⟨arr, rfl, .refl .., hsink.done fun c hc hcl => by unfold IsChild at hc; omega⟩
  | succ fuel ih =>
    intro parent arr hfuel hvalid hsink
    rw [siftLoop]
    by_cases hleaf : 2 * parent + 1 > last
    · rw [if_pos hleaf]
      exact ⟨arr, rfl, .refl .., hsink.done fun c hc hcl => by unfold IsChild at hc; omega⟩
    obtain ⟨y, hy, hchild, hyl, hmax⟩ := greaterChild_spec hvalid hlast (not_lt.mp hleaf)
    have hlt : parent < y := by
      unfold IsChild at hchild
      omega
    rw [if_neg hleaf, scan_bind_ok hy, scan_bind_ok (cell_of_mem arr (by omega) (by omega)),
      scan_bind_ok (cell_of_mem arr (by omega) (by omega))]
    obtain ⟨cmp, hcmp, hle, hge⟩ := jsonKeyCmp_spec (hvalid (lo + parent) (by omega) (by omega))
      (hvalid (lo + y) (by omega) (by omega))
    rw [scan_bind_ok hcmp]
    by_cases hstop : cmp ≥ 0
    · rw [if_pos hstop]
      refine ⟨arr, rfl, .refl .., hsink.done fun c hc hcl => ?_⟩
      by_cases hcy : c = y
      · subst hcy
        exact hge.mp hstop
      · exact trans_of ctx.le (hmax c hc hcl hcy) (hge.mp hstop)
    · rw [if_neg hstop, scan_bind_ok (swapCells_of_mem arr ⟨by omega, by omega⟩
        ⟨by omega, by omega⟩)]
      have hperm : PermOn lo (lo + last) arr (swap arr (lo + parent) (lo + y)) :=
        permOn_swap arr ⟨by omega, by omega⟩ ⟨by omega, by omega⟩
      obtain ⟨arr', hok, hperm', hheap⟩ := ih (show last < y + fuel by omega)
        (hperm.allOn_of_le le_rfl hlast hvalid)
        (hsink.sink hchild hyl hmax (hle.mp (by omega)))
      exact ⟨arr', hok, hperm.trans hperm', hheap⟩

theorem jsonSiftDown_spec {last root : ℕ} {arr : ℕ → ℕ} (hlast : lo + last ≤ hi)
    (hvalid : AllOn lo hi ctx.Valid arr) (hheap : HeapOn ctx.le lo (root + 1) last arr) :
    ∃ arr', jsonSiftDown ctx lo hi arr root last = .ok arr' ∧ PermOn lo (lo + last) arr arr' ∧
      HeapOn ctx.le lo root last arr' :=
  siftLoop_spec hlast (by omega) hvalid hheap.sinking

/-- The first loop of heapsort builds a heap. -/
theorem heapBuild_spec {n : ℕ} (hn : lo + (n - 1) ≤ hi) :
    ∀ {i : ℕ} {arr : ℕ → ℕ}, AllOn lo hi ctx.Valid arr → HeapOn ctx.le lo i (n - 1) arr →
      ∃ arr', heapBuild ctx lo hi n i arr = .ok arr' ∧ PermOn lo (lo + (n - 1)) arr arr' ∧
        HeapOn ctx.le lo 0 (n - 1) arr' := by
  intro i
  induction i with
  | zero =>
    intro arr _ hheap
    exact ⟨arr, rfl, .refl .., hheap⟩
  | succ i ih =>
    intro arr hvalid hheap
    obtain ⟨arr', hsift, hperm, hheap'⟩ := jsonSiftDown_spec hn hvalid hheap
    obtain ⟨arr'', hok, hperm', hheap''⟩ := ih (hperm.allOn_of_le le_rfl hn hvalid) hheap'
    exact ⟨arr'', by rw [heapBuild, scan_bind_ok hsift, hok], hperm.trans hperm', hheap''⟩

/-- The second loop: the first cells are a heap, the others are in order and not below
the heap. -/
theorem heapExtract_spec : ∀ {i : ℕ} {arr : ℕ → ℕ}, lo + i ≤ hi → AllOn lo hi ctx.Valid arr →
    HeapOn ctx.le lo 0 i arr → SortedOn ctx.le (lo + i + 1) hi arr →
    (∀ a b, lo ≤ a → a ≤ lo + i → lo + i < b → b ≤ hi → ctx.le (arr a) (arr b)) →
    Sorts ctx lo hi arr (heapExtract ctx lo hi i arr) := by
  intro i
  induction i with
  | zero =>
    intro arr hlo hvalid _ hsorted hsep
    refine ⟨arr, rfl, .refl .., SortedOn.join le_rfl hlo (by omega) hsorted (by omega) ?_⟩
    exact fun b hb hbhi => hsep lo b le_rfl (by omega) (by omega) hbhi
  | succ i ih =>
    intro arr hlo hvalid hheap hsorted hsep
    rw [heapExtract,
      scan_bind_ok (swapCells_of_mem arr ⟨le_rfl, by omega⟩ ⟨by omega, hlo⟩)]
    have hroot := hheap.root
    have hperm : PermOn lo (lo + (i + 1)) arr (swap arr lo (lo + (i + 1))) :=
      permOn_swap arr ⟨le_rfl, by omega⟩ ⟨by omega, le_rfl⟩
    have hheap' : HeapOn ctx.le lo 1 i (swap arr lo (lo + (i + 1))) := by
      intro p c hp hc hci
      have hpc : p < c := by
        unfold IsChild at hc
        omega
      rw [swap_of_ne arr (by omega) (by omega), swap_of_ne arr (by omega) (by omega)]
      exact hheap p c (Nat.zero_le _) hc (by omega)
    obtain ⟨arr', hsift, hperm', hheap''⟩ := jsonSiftDown_spec (by omega)
      (hperm.allOn_of_le le_rfl hlo hvalid) hheap'
    rw [scan_bind_ok hsift]
    -- the maximum is behind the heap now
    have hmax : arr' (lo + (i + 1)) = arr lo := by
      rw [hperm'.outside (.inr (by omega)), swap_right]
    have hbelow : ∀ a, lo ≤ a → a ≤ lo + i → ctx.le (arr' a) (arr lo) := by
      have hall : AllOn lo (lo + i) (fun x => ctx.le x (arr lo)) (swap arr lo (lo + (i + 1))) := by
        intro a ha hai
        obtain ⟨k, hk, hki, heq⟩ := hperm.inside ha (by omega)
        rw [heq, show k = lo + (k - lo) by omega]
        exact hroot _ (by omega)
      exact fun a ha hai => hperm'.allOn hall a ha hai
    have hbehind : ∀ b, lo + (i + 1) < b → arr' b = arr b := by
      intro b hb
      rw [hperm'.outside (.inr (by omega)), swap_of_ne arr (by omega) (by omega)]
    have hperm'' : PermOn lo hi arr arr' :=
      (hperm.mono le_rfl hlo).trans (hperm'.mono le_rfl (by omega))
    have hsorted' : SortedOn ctx.le (lo + i + 1) hi arr' := by
      intro a b ha hab hb
      rcases Nat.eq_or_lt_of_le ha with rfl | ha'
      · rcases Nat.eq_or_lt_of_le hab with rfl | hlt
        · exact refl_of ctx.le _
        · rw [show lo + i + 1 = lo + (i + 1) by omega, hmax, hbehind b (by omega)]
          exact hsep lo b le_rfl (by omega) (by omega) hb
      · rw [hbehind a (by omega), hbehind b (by omega)]
        exact hsorted a b (by omega) hab hb
    have hsep' : ∀ a b, lo ≤ a → a ≤ lo + i → lo + i < b → b ≤ hi → ctx.le (arr' a) (arr' b) := by
      intro a b ha hai hb hbhi
      rcases Nat.eq_or_lt_of_le (show lo + (i + 1) ≤ b by omega) with rfl | hlt
      · rw [hmax]
        exact hbelow a ha hai
      · refine trans_of ctx.le (hbelow a ha hai) ?_
        rw [hbehind b hlt]
        exact hsep lo b le_rfl (by omega) (by omega) hbhi
    obtain ⟨arr'', hok, hperm3, hsorted''⟩ :=
      ih (by omega) (hperm''.allOn hvalid) hheap'' hsorted' hsep'
    exact ⟨arr'', hok, hperm''.trans hperm3, hsorted''⟩

/-- Heapsort sorts. -/
theorem jsonHeapsort_spec {arr : ℕ → ℕ} (hle : lo ≤ hi) (hvalid : AllOn lo hi ctx.Valid arr) :
    Sorts ctx lo hi arr (jsonHeapsort ctx lo hi arr) := by
  unfold jsonHeapsort
  simp only
  by_cases hn : hi - lo + 1 < 2
  · rw [if_pos hn]
    exact ⟨arr, rfl, .refl .., sortedOn_of_le (by omega) arr⟩
  · rw [if_neg hn]
    have hlast : lo + (hi - lo + 1 - 1) = hi := by omega
    have hleaves : HeapOn ctx.le lo ((hi - lo + 1) / 2) (hi - lo + 1 - 1) arr := by
      intro p c hp hc hcl
      unfold IsChild at hc
      omega
    obtain ⟨arr', hbuild, hperm, hheap⟩ := heapBuild_spec hlast.le hvalid hleaves
    rw [hlast] at hperm
    obtain ⟨arr'', hok, hperm', hsorted⟩ := heapExtract_spec hlast.le (hperm.allOn hvalid) hheap
      (sortedOn_of_le (by omega) arr') (by omega)
    exact ⟨arr'', by rw [scan_bind_ok hbuild, hok], hperm.trans hperm', hsorted⟩

/-! ## Introsort -/

theorem orderCells_spec {arr : ℕ → ℕ} {i j : ℕ} (hvalid : AllOn lo hi ctx.Valid arr)
    (h : lo ≤ i ∧ i ≤ hi) (h' : lo ≤ j ∧ j ≤ hi) :
    ∃ arr', orderCells ctx lo hi arr i j = .ok arr' ∧
      (arr' = arr ∧ ctx.le (arr i) (arr j) ∨ arr' = swap arr i j ∧ ctx.le (arr j) (arr i)) := by
  obtain ⟨cmp, hcmp, hle, hge⟩ := jsonKeyCmp_spec (hvalid i h.1 h.2) (hvalid j h'.1 h'.2)
  rw [orderCells, scan_bind_ok (cell_of_mem arr h.1 h.2), scan_bind_ok (cell_of_mem arr h'.1 h'.2),
    scan_bind_ok hcmp]
  by_cases hpos : cmp > 0
  · rw [if_pos hpos]
    exact ⟨_, swapCells_of_mem arr h h', .inr ⟨rfl, hge.mp hpos.le⟩⟩
  · rw [if_neg hpos]
    exact ⟨arr, rfl, .inl ⟨rfl, hle.mp (not_lt.mp hpos)⟩⟩

/-- The first index behind `i` whose cell is not below the pivot. -/
theorem scanUp_spec {arr : ℕ → ℕ} {pivot : ℕ} (hvalid : AllOn lo hi ctx.Valid arr)
    (hpivot : ctx.Valid pivot) (hlast : arr (hi - 1) = pivot) :
    ∀ {fuel i : ℕ}, lo ≤ i → i < hi - 1 → hi ≤ i + fuel →
      ∃ i', scanUp ctx lo hi pivot arr fuel i = .ok i' ∧ i < i' ∧ i' ≤ hi - 1 ∧
        (∀ k, i < k → k < i' → ctx.le (arr k) pivot) ∧ ctx.le pivot (arr i') := by
  intro fuel
  induction fuel with
  | zero =>
    intro i _ hi' hfuel
    omega
  | succ fuel ih =>
    intro i hlo hi' hfuel
    obtain ⟨cmp, hcmp, hle, hge⟩ := jsonKeyCmp_spec (hvalid (i + 1) (by omega) (by omega)) hpivot
    rw [scanUp, scan_bind_ok (cell_of_mem arr (by omega) (by omega)), scan_bind_ok hcmp]
    by_cases hneg : cmp < 0 ∧ i + 1 < hi
    · rw [if_pos hneg]
      have hne : i + 1 ≠ hi - 1 := by
        intro heq
        have := hge.mpr (by rw [heq, hlast]; exact refl_of ctx.le pivot)
        omega
      obtain ⟨i', hok, hlt, hle', hall, hup⟩ :=
        ih (by omega) (show i + 1 < hi - 1 by omega) (by omega)
      refine ⟨i', hok, by omega, hle', fun k hk hk' => ?_, hup⟩
      rcases Nat.eq_or_lt_of_le (show i + 1 ≤ k by omega) with rfl | hlt'
      · exact hle.mp hneg.1.le
      · exact hall k hlt' hk'
    · rw [if_neg hneg]
      exact ⟨i + 1, rfl, by omega, by omega, by omega, hge.mp (by omega)⟩

/-- The first index before `j` whose cell is not above the pivot. -/
theorem scanDown_spec {arr : ℕ → ℕ} {pivot : ℕ} (hvalid : AllOn lo hi ctx.Valid arr)
    (hpivot : ctx.Valid pivot) (hfirst : ctx.le (arr lo) pivot) :
    ∀ {j : ℕ}, lo < j → j ≤ hi →
      ∃ j', scanDown ctx lo hi pivot arr j = .ok j' ∧ lo ≤ j' ∧ j' < j ∧
        (∀ k, j' < k → k < j → ctx.le pivot (arr k)) ∧ ctx.le (arr j') pivot := by
  intro j
  induction j with
  | zero =>
    intro hj _
    omega
  | succ j ih =>
    intro hj hjhi
    obtain ⟨cmp, hcmp, hle, hge⟩ := jsonKeyCmp_spec (hvalid j (by omega) (by omega)) hpivot
    rw [scanDown, scan_bind_ok (cell_of_mem arr (by omega) (by omega)), scan_bind_ok hcmp]
    by_cases hpos : cmp > 0 ∧ j > lo
    · rw [if_pos hpos]
      obtain ⟨j', hok, hlo, hlt, hall, hdown⟩ := ih hpos.2 (by omega)
      refine ⟨j', hok, hlo, by omega, fun k hk hk' => ?_, hdown⟩
      rcases Nat.eq_or_lt_of_le (show k ≤ j by omega) with rfl | hlt'
      · exact hge.mp hpos.1.le
      · exact hall k hk hlt'
    · rw [if_neg hpos]
      refine ⟨j, rfl, by omega, by omega, by omega, ?_⟩
      rcases Nat.eq_or_lt_of_le (show lo ≤ j by omega) with rfl | hlt
      · exact hfirst
      · exact hle.mp (by omega)

/-- What is known between two rounds of the partition. -/
structure Parting (ctx : JsonSortCtx) (lo hi pivot i j : ℕ) (arr : ℕ → ℕ) : Prop where
  lo_le : lo ≤ i
  lt : i < j
  le_hi : j ≤ hi - 1
  left : AllOn lo i (fun x => ctx.le x pivot) arr
  right : AllOn j hi (ctx.le pivot) arr
  last : arr (hi - 1) = pivot

theorem partitionLoop_spec {pivot : ℕ} (hpivot : ctx.Valid pivot) :
    ∀ {fuel i j : ℕ} {arr : ℕ → ℕ}, j < i + fuel → AllOn lo hi ctx.Valid arr →
      Parting ctx lo hi pivot i j arr →
      ∃ arr' m, partitionLoop ctx lo hi pivot fuel i j arr = .ok (arr', m) ∧
        PermOn lo hi arr arr' ∧ lo < m ∧ m ≤ hi - 1 ∧
          AllOn lo (m - 1) (fun x => ctx.le x pivot) arr' ∧
        AllOn m hi (ctx.le pivot) arr' ∧ arr' (hi - 1) = pivot := by
  intro fuel
  induction fuel with
  | zero =>
    intro i j arr hfuel _ hparting
    have := hparting.lt
    omega
  | succ fuel ih =>
    intro i j arr hfuel hvalid hparting
    have hlo := hparting.lo_le
    have hij := hparting.lt
    have hjhi := hparting.le_hi
    obtain ⟨i', hup, hii', hi'hi, hleft, hi'le⟩ :=
      scanUp_spec hvalid hpivot hparting.last hlo (by omega) (show hi ≤ i + (hi + 1) by omega)
    obtain ⟨j', hdown, hlo', hj'j, hright, hj'le⟩ :=
      scanDown_spec hvalid hpivot (hparting.left lo le_rfl hlo) (by omega) (show j ≤ hi by omega)
    rw [partitionLoop, scan_bind_ok hup, scan_bind_ok hdown]
    have hall : ∀ k, lo ≤ k → k < i' → ctx.le (arr k) pivot := fun k hk hki => by
      rcases Nat.lt_or_ge i k with hlt | hge
      · exact hleft k hlt hki
      · exact hparting.left k hk hge
    have hall' : ∀ k, j' < k → k ≤ hi → ctx.le pivot (arr k) := fun k hk hkhi => by
      rcases Nat.lt_or_ge k j with hlt | hge
      · exact hright k hk hlt
      · exact hparting.right k hge hkhi
    by_cases hmet : i' ≥ j'
    · rw [if_pos hmet]
      refine ⟨arr, i', rfl, .refl .., by omega, hi'hi, fun k hk hki => hall k hk (by omega), ?_,
        hparting.last⟩
      intro k hk hkhi
      rcases Nat.eq_or_lt_of_le hk with rfl | hlt
      · exact hi'le
      · exact hall' k (by omega) hkhi
    · rw [if_neg hmet, scan_bind_ok (swapCells_of_mem arr ⟨by omega, by omega⟩
        ⟨by omega, by omega⟩)]
      have hperm : PermOn lo hi arr (swap arr i' j') :=
        permOn_swap arr ⟨by omega, by omega⟩ ⟨by omega, by omega⟩
      have hparting' : Parting ctx lo hi pivot i' j' (swap arr i' j') := by
        refine ⟨by omega, by omega, by omega, ?_, ?_, ?_⟩
        · intro k hk hki
          rcases Nat.eq_or_lt_of_le hki with rfl | hlt
          · rwa [swap_left]
          · rw [swap_of_ne arr (by omega) (by omega)]
            exact hall k hk hlt
        · intro k hk hkhi
          rcases Nat.eq_or_lt_of_le hk with rfl | hlt
          · rwa [swap_right]
          · rw [swap_of_ne arr (by omega) (by omega)]
            exact hall' k hlt hkhi
        · rw [swap_of_ne arr (by omega) (by omega), hparting.last]
      obtain ⟨arr', m, hok, hperm', hrest⟩ :=
        ih (show j' < i' + fuel by omega) (hperm.allOn hvalid) hparting'
      exact ⟨arr', m, hok, hperm.trans hperm', hrest⟩

/-- The median of three is put between the other two. -/
theorem orderThree_spec {arr : ℕ → ℕ} {mid : ℕ} (hvalid : AllOn lo hi ctx.Valid arr)
    (hlo : lo < mid) (hhi : mid < hi) :
    ∃ arr1 arr2 arr3, orderCells ctx lo hi arr lo mid = .ok arr1 ∧
      orderCells ctx lo hi arr1 lo hi = .ok arr2 ∧ orderCells ctx lo hi arr2 mid hi = .ok arr3 ∧
      PermOn lo hi arr arr3 ∧ ctx.le (arr3 lo) (arr3 mid) ∧ ctx.le (arr3 mid) (arr3 hi) := by
  have hstep : ∀ {a a' : ℕ → ℕ} {i j : ℕ}, lo ≤ i ∧ i ≤ hi → lo ≤ j ∧ j ≤ hi →
      (a' = a ∧ ctx.le (a i) (a j) ∨ a' = swap a i j ∧ ctx.le (a j) (a i)) →
      PermOn lo hi a a' := by
    rintro a a' i j h h' (⟨rfl, -⟩ | ⟨rfl, -⟩)
    · exact .refl ..
    · exact permOn_swap a h h'
  have hl : lo ≤ lo ∧ lo ≤ hi := ⟨le_rfl, by omega⟩
  have hm : lo ≤ mid ∧ mid ≤ hi := ⟨hlo.le, hhi.le⟩
  have hh : lo ≤ hi ∧ hi ≤ hi := ⟨by omega, le_rfl⟩
  obtain ⟨arr1, hok1, hres1⟩ := orderCells_spec hvalid hl hm
  have hperm1 := hstep hl hm hres1
  obtain ⟨arr2, hok2, hres2⟩ := orderCells_spec (hperm1.allOn hvalid) hl hh
  have hperm2 := hstep hl hh hres2
  obtain ⟨arr3, hok3, hres3⟩ := orderCells_spec ((hperm1.trans hperm2).allOn hvalid) hm hh
  have hperm3 := hstep hm hh hres3
  refine ⟨arr1, arr2, arr3, hok1, hok2, hok3, (hperm1.trans hperm2).trans hperm3, ?_⟩
  have h1 : ctx.le (arr1 lo) (arr1 mid) := by
    rcases hres1 with ⟨rfl, hle⟩ | ⟨rfl, hle⟩
    · exact hle
    · rwa [swap_left, swap_right]
  have h2 : ctx.le (arr2 lo) (arr2 mid) ∧ ctx.le (arr2 lo) (arr2 hi) := by
    rcases hres2 with ⟨rfl, hle⟩ | ⟨rfl, hle⟩
    · exact ⟨h1, hle⟩
    · rw [swap_left, swap_right, swap_of_ne arr1 (by omega) (by omega)]
      exact ⟨trans_of ctx.le hle h1, hle⟩
  rcases hres3 with ⟨rfl, hle⟩ | ⟨rfl, hle⟩
  · exact ⟨h2.1, hle⟩
  · rw [swap_left, swap_right, swap_of_ne arr2 (by omega) (by omega)]
    exact ⟨h2.2, hle⟩

/-- A round of introsort splits the window at the pivot. -/
theorem partitionCells_spec {arr : ℕ → ℕ} (hvalid : AllOn lo hi ctx.Valid arr)
    (hspan : lo + 2 ≤ hi) :
    ∃ arr' m, partitionCells ctx lo hi arr = .ok (arr', m) ∧ PermOn lo hi arr arr' ∧
      Parted ctx.le lo m hi arr' := by
  unfold partitionCells
  simp only
  set mid := lo + (hi - lo + 1) / 2 with hmid
  have hlm : lo < mid := by omega
  have hmh : mid < hi := by omega
  obtain ⟨arr1, arr2, arr3, hok1, hok2, hok3, hperm, hfirst, hlast⟩ :=
    orderThree_spec hvalid hlm hmh
  rw [scan_bind_ok hok1, scan_bind_ok hok2, scan_bind_ok hok3,
    scan_bind_ok (cell_of_mem arr3 hlm.le hmh.le),
    scan_bind_ok (swapCells_of_mem arr3 ⟨hlm.le, hmh.le⟩ ⟨by omega, by omega⟩)]
  have hpivot : ctx.Valid (arr3 mid) := hperm.allOn hvalid mid hlm.le hmh.le
  have hperm' : PermOn lo hi arr3 (swap arr3 mid (hi - 1)) :=
    permOn_swap arr3 ⟨hlm.le, hmh.le⟩ ⟨by omega, by omega⟩
  have hparting : Parting ctx lo hi (arr3 mid) lo (hi - 1) (swap arr3 mid (hi - 1)) := by
    refine ⟨le_rfl, by omega, le_rfl, ?_, ?_, swap_right ..⟩
    · intro k hk hkl
      obtain rfl : k = lo := by omega
      rwa [swap_of_ne arr3 (by omega) (by omega)]
    · intro k hk hkhi
      rcases Nat.eq_or_lt_of_le hk with rfl | hlt
      · rw [swap_right]
        exact refl_of ctx.le _
      · obtain rfl : k = hi := by omega
        rwa [swap_of_ne arr3 (by omega) (by omega)]
  obtain ⟨arr4, m, hloop, hperm4, hlom, hmhi, hbelow, habove, hcell⟩ :=
    partitionLoop_spec hpivot (show hi - 1 < lo + (hi + 1) by omega)
      ((hperm.trans hperm').allOn hvalid) hparting
  rw [scan_bind_ok hloop]
  simp only
  rw [scan_bind_ok (swapCells_of_mem arr4 ⟨by omega, by omega⟩ ⟨by omega, by omega⟩)]
  refine ⟨_, m, rfl, ((hperm.trans hperm').trans hperm4).trans
    (permOn_swap arr4 ⟨by omega, by omega⟩ ⟨by omega, by omega⟩), by omega, by omega, ?_, ?_⟩
  · intro k hk hkm
    rw [swap_left, hcell, swap_of_ne arr4 (by omega) (by omega)]
    exact hbelow k hk hkm
  · intro k hk hkhi
    rw [swap_left, hcell]
    by_cases hkl : k = hi - 1
    · rw [hkl, swap_right]
      exact habove m le_rfl (by omega)
    · rw [swap_of_ne arr4 (by omega) hkl]
      exact habove k (by omega) hkhi

/-- **Introsort sorts**: for every budget `depth` it terminates, touches only cells from
`lo` to `hi`, permutes them and leaves them in order. -/
theorem jsonIntrosort_spec (ctx : JsonSortCtx) : ∀ (depth lo hi : ℕ) {arr : ℕ → ℕ},
    AllOn lo hi ctx.Valid arr → Sorts ctx lo hi arr (jsonIntrosort ctx depth lo hi arr) := by
  intro depth
  induction depth with
  | zero =>
    intro lo hi arr hvalid
    rw [jsonIntrosort]
    split_ifs with hlt hsmall
    · exact jsonIsort_spec hvalid
    · exact jsonHeapsort_spec hlt.le hvalid
    · exact ⟨arr, rfl, .refl .., sortedOn_of_le (not_lt.mp hlt) arr⟩
  | succ depth ih =>
    intro lo hi arr hvalid
    rw [jsonIntrosort]
    split_ifs with hlt hsmall
    · exact jsonIsort_spec hvalid
    · have hthresh : jsonIntrosortThresh = 16 := rfl
      obtain ⟨arr', m, hpart, hperm, hparted⟩ := partitionCells_spec hvalid (by omega)
      rw [scan_bind_ok hpart]
      simp only
      have hlom := hparted.lt
      have hmhi := hparted.le
      have hvalid' := hperm.allOn hvalid
      split_ifs with hsmaller hzero
      · -- the left part first
        obtain ⟨arr1, hok1, hperm1, hsorted1⟩ := @ih lo (m - 1) arr'
          fun k hk hkm => hvalid' k hk (by omega)
        have hvalid1 := (hperm1.mono le_rfl (by omega)).allOn hvalid'
        obtain ⟨arr2, hok2, hperm2, hsorted2⟩ := @ih (m + 1) hi arr1
          fun k hk hkm => hvalid1 k (by omega) hkm
        refine ⟨arr2, by rw [scan_bind_ok hok1, hok2], ?_, ?_⟩
        · exact (hperm.trans (hperm1.mono le_rfl (by omega))).trans (hperm2.mono (by omega) le_rfl)
        · exact ((hparted.left hperm1).right hperm2).sorted
            (hperm2.sortedOn_beside (.inl (by omega)) hsorted1) hsorted2
      · omega
      · obtain ⟨arr1, hok1, hperm1, hsorted1⟩ := @ih (m + 1) hi arr'
          fun k hk hkm => hvalid' k (by omega) hkm
        have hvalid1 := (hperm1.mono (by omega) le_rfl).allOn hvalid'
        obtain ⟨arr2, hok2, hperm2, hsorted2⟩ := @ih lo (m - 1) arr1
          fun k hk hkm => hvalid1 k hk (by omega)
        refine ⟨arr2, by rw [scan_bind_ok hok1, hok2], ?_, ?_⟩
        · exact (hperm.trans (hperm1.mono (by omega) le_rfl)).trans (hperm2.mono le_rfl (by omega))
        · exact ((hparted.right hperm1).left hperm2).sorted hsorted2
            (hperm2.sortedOn_beside (.inr (by omega)) hsorted1)
    · exact ⟨arr, rfl, .refl .., sortedOn_of_le (not_lt.mp hlt) arr⟩

/-- **The sorted window.**  Whatever the keys, the mode and the depth budget are, the
sort of a window of valid indices ends; it has then kept to the cells from `lo` to `hi`,
which hold their old contents in an order that `json__key_cmp` does not find decreasing. -/
theorem jsonIntrosort_sorts (ctx : JsonSortCtx) (depth lo hi : ℕ) (arr : ℕ → ℕ)
    (hvalid : ∀ i, lo ≤ i → i ≤ hi → arr i < ctx.pairs.length) :
    ∃ arr', jsonIntrosort ctx depth lo hi arr = .ok arr' ∧
      ((List.range' lo (hi + 1 - lo)).map arr').Perm ((List.range' lo (hi + 1 - lo)).map arr) ∧
      (∀ i j, lo ≤ i → i ≤ j → j ≤ hi →
        ∃ cmp, jsonKeyCmp ctx (arr' i) (arr' j) = .ok cmp ∧ cmp ≤ 0) ∧
      ∀ i, i < lo ∨ hi < i → arr' i = arr i := by
  obtain ⟨arr', hok, hperm, hsorted⟩ := jsonIntrosort_spec ctx depth lo hi hvalid
  refine ⟨arr', hok, ?_, ?_, fun i hi' => hperm.outside hi'⟩
  · apply hperm.map_perm List.nodup_range'
    intro i hlo hhi
    rw [List.mem_range'_1]
    omega
  · intro i j hlo hij hhi
    have hvalid' : AllOn lo hi ctx.Valid arr' := hperm.allOn hvalid
    obtain ⟨cmp, hcmp, hle, -⟩ := jsonKeyCmp_spec (hvalid' i hlo (hij.trans hhi))
      (hvalid' j (hlo.trans hij) hhi)
    exact ⟨cmp, hcmp, hle.mpr (hsorted i j hlo hij hhi)⟩

/-- Forty keys in reverse order, of which the cells from 2 to 37 are sorted: they are partitioned
once, and both parts are left to heapsort. -/
theorem jsonIntrosort_sorts_reversed :
    ∃ (ctx : JsonSortCtx) (arr : ℕ → ℕ),
      ctx = ⟨(List.range 40).map fun i => ⟨⟨[.ofNat (39 - i)], 0⟩, i⟩, true⟩ ∧
      jsonIntrosort ctx 1 2 37 id = .ok arr ∧
      ((List.range' 2 36).map arr).Perm (List.range' 2 36) ∧
      (∀ i j, 2 ≤ i → i ≤ j → j ≤ 37 →
        ∃ cmp, jsonKeyCmp ctx (arr i) (arr j) = .ok cmp ∧ cmp ≤ 0) ∧
      arr 1 = 1 ∧ arr 38 = 38 := by
  let ctx : JsonSortCtx := ⟨(List.range 40).map fun i => ⟨⟨[.ofNat (39 - i)], 0⟩, i⟩, true⟩
  have hlen : ctx.pairs.length = 40 := by simp [ctx]
  obtain ⟨arr, hok, hperm, hsorted, hout⟩ := jsonIntrosort_sorts ctx 1 2 37 id fun i _ hi => by
    rw [hlen]
    exact hi.trans_lt (by decide)
  rw [List.map_id] at hperm
  exact ⟨ctx, arr, rfl, hok, hperm, hsorted, hout 1 (by decide), hout 38 (by decide)⟩

end SJson
