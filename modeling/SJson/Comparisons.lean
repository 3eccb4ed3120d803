/-
# Comparisons of keys

How often the sort and the lookup compare keys.  The functions of `SJson.Sort` and of
`SJson.Lookup` are written down a second time with a counter that `json__key_cmp` advances;
each of them returns what the function without the counter returns, after so many
comparisons (`Within`).

No keys make introsort quadratic: within the depth budget every level compares a cell at most
twice, and what is left over goes to heapsort, where it is `O(n log n)`
(`jsonIntrosort_comparisons`).  A lookup in a finalized object is logarithmic
(`jsonObjGetN_comparisons`).
-/
import SJson.LookupSpec
import SJson.Lib.Count

namespace SJson

open Count Window

/-! ## The sort with a counter -/

/-- `json__key_cmp`, counted. -/
def jsonKeyCmpCounted (ctx : JsonSortCtx) (a b : ℕ) : Counting Fail ℤ := do
  tick
  free (jsonKeyCmp ctx a b)

/-- `isortShift`, counted. -/
def isortShiftCounted (ctx : JsonSortCtx) (lo hi key : ℕ) :
    ℕ → (ℕ → ℕ) → Counting Fail ((ℕ → ℕ) × ℕ)
  | 0, arr => return (arr, 0)
  | j + 1, arr =>
    if j + 1 > lo then do
      let x ← free (cell lo hi arr j)
      let cmp ← jsonKeyCmpCounted ctx x key
      if cmp > 0 then do
        let arr ← free (setCell lo hi arr (j + 1) x)
        isortShiftCounted ctx lo hi key j arr
      else return (arr, j + 1)
    else return (arr, j + 1)

/-- `isortLoop`, counted. -/
def isortLoopCounted (ctx : JsonSortCtx) (lo hi : ℕ) : ℕ → ℕ → (ℕ → ℕ) → Counting Fail (ℕ → ℕ)
  | 0, i, arr => free (if i ≤ hi then .error (.fault .fuel) else .ok arr)
  | fuel + 1, i, arr =>
    if i ≤ hi then do
      let key ← free (cell lo hi arr i)
      let r ← isortShiftCounted ctx lo hi key i arr
      let arr ← free (setCell lo hi r.1 r.2 key)
      isortLoopCounted ctx lo hi fuel (i + 1) arr
    else return arr

/-- `json__isort`, counted. -/
def jsonIsortCounted (ctx : JsonSortCtx) (lo hi : ℕ) (arr : ℕ → ℕ) : Counting Fail (ℕ → ℕ) :=
  isortLoopCounted ctx lo hi (hi - lo) (lo + 1) arr

/-- `greaterChild`, counted. -/
def greaterChildCounted (ctx : JsonSortCtx) (lo hi : ℕ) (arr : ℕ → ℕ) (last child : ℕ) :
    Counting Fail ℕ :=
  if child + 1 ≤ last then do
    let x ← free (cell lo hi arr (lo + child))
    let y ← free (cell lo hi arr (lo + (child + 1)))
    let cmp ← jsonKeyCmpCounted ctx x y
    if cmp < 0 then return child + 1 else return child
  else return child

/-- `siftLoop`, counted. -/
def siftLoopCounted (ctx : JsonSortCtx) (lo hi last : ℕ) :
    ℕ → ℕ → (ℕ → ℕ) → Counting Fail (ℕ → ℕ)
  | 0, parent, arr => free (if 2 * parent + 1 > last then .ok arr else .error (.fault .fuel))
  | fuel + 1, parent, arr =>
    if 2 * parent + 1 > last then return arr
    else do
      let child ← greaterChildCounted ctx lo hi arr last (2 * parent + 1)
      let x ← free (cell lo hi arr (lo + parent))
      let y ← free (cell lo hi arr (lo + child))
      let cmp ← jsonKeyCmpCounted ctx x y
      if cmp ≥ 0 then return arr
      else do
        let arr ← free (swapCells lo hi arr (lo + parent) (lo + child))
        siftLoopCounted ctx lo hi last fuel child arr

/-- `json__sift_down`, counted. -/
def jsonSiftDownCounted (ctx : JsonSortCtx) (lo hi : ℕ) (arr : ℕ → ℕ) (root last : ℕ) :
    Counting Fail (ℕ → ℕ) := siftLoopCounted ctx lo hi last (last + 1) root arr

/-- `heapBuild`, counted. -/
def heapBuildCounted (ctx : JsonSortCtx) (lo hi n : ℕ) : ℕ → (ℕ → ℕ) → Counting Fail (ℕ → ℕ)
  | 0, arr => return arr
  | i + 1, arr => do
    let arr ← jsonSiftDownCounted ctx lo hi arr i (n - 1)
    heapBuildCounted ctx lo hi n i arr

/-- `heapExtract`, counted. -/
def heapExtractCounted (ctx : JsonSortCtx) (lo hi : ℕ) : ℕ → (ℕ → ℕ) → Counting Fail (ℕ → ℕ)
  | 0, arr => return arr
  | i + 1, arr => do
    let arr ← free (swapCells lo hi arr lo (lo + (i + 1)))
    let arr ← jsonSiftDownCounted ctx lo hi arr 0 i
    heapExtractCounted ctx lo hi i arr

/-- `json__heapsort`, counted. -/
def jsonHeapsortCounted (ctx : JsonSortCtx) (lo hi : ℕ) (arr : ℕ → ℕ) :
    Counting Fail (ℕ → ℕ) :=
  let n := hi - lo + 1
  if n < 2 then return arr
  else do
    let arr ← heapBuildCounted ctx lo hi n (n / 2) arr
    heapExtractCounted ctx lo hi (n - 1) arr

/-- `orderCells`, counted. -/
def orderCellsCounted (ctx : JsonSortCtx) (lo hi : ℕ) (arr : ℕ → ℕ) (i j : ℕ) :
    Counting Fail (ℕ → ℕ) := do
  let x ← free (cell lo hi arr i)
  let y ← free (cell lo hi arr j)
  let cmp ← jsonKeyCmpCounted ctx x y
  if cmp > 0 then free (swapCells lo hi arr i j) else return arr

/-- `scanUp`, counted. -/
def scanUpCounted (ctx : JsonSortCtx) (lo hi pivot : ℕ) (arr : ℕ → ℕ) :
    ℕ → ℕ → Counting Fail ℕ
  | 0, _ => free (.error (.fault .fuel))
  | fuel + 1, i => do
    let x ← free (cell lo hi arr (i + 1))
    let cmp ← jsonKeyCmpCounted ctx x pivot
    if cmp < 0 ∧ i + 1 < hi then scanUpCounted ctx lo hi pivot arr fuel (i + 1)
    else return i + 1

/-- `scanDown`, counted. -/
def scanDownCounted (ctx : JsonSortCtx) (lo hi pivot : ℕ) (arr : ℕ → ℕ) : ℕ → Counting Fail ℕ
  | 0 => free (.error (.fault .oobRead))
  | j + 1 => do
    let x ← free (cell lo hi arr j)
    let cmp ← jsonKeyCmpCounted ctx x pivot
    if cmp > 0 ∧ j > lo then scanDownCounted ctx lo hi pivot arr j else return j

/-- `partitionLoop`, counted. -/
def partitionLoopCounted (ctx : JsonSortCtx) (lo hi pivot : ℕ) :
    ℕ → ℕ → ℕ → (ℕ → ℕ) → Counting Fail ((ℕ → ℕ) × ℕ)
  | 0, _, _, _ => free (.error (.fault .fuel))
  | fuel + 1, i, j, arr => do
    let i ← scanUpCounted ctx lo hi pivot arr (hi + 1) i
    let j ← scanDownCounted ctx lo hi pivot arr j
    if i ≥ j then return (arr, i)
    else do
      let arr ← free (swapCells lo hi arr i j)
      partitionLoopCounted ctx lo hi pivot fuel i j arr

/-- `partitionCells`, counted. -/
def partitionCellsCounted (ctx : JsonSortCtx) (lo hi : ℕ) (arr : ℕ → ℕ) :
    Counting Fail ((ℕ → ℕ) × ℕ) := do
  let mid := lo + (hi - lo + 1) / 2
  let arr ← orderCellsCounted ctx lo hi arr lo mid
  let arr ← orderCellsCounted ctx lo hi arr lo hi
  let arr ← orderCellsCounted ctx lo hi arr mid hi
  let pivot ← free (cell lo hi arr mid)
  let arr ← free (swapCells lo hi arr mid (hi - 1))
  let r ← partitionLoopCounted ctx lo hi pivot (hi + 1) lo (hi - 1) arr
  let arr ← free (swapCells lo hi r.1 r.2 (hi - 1))
  return (arr, r.2)

/-- `json__introsort`, counted. -/
def jsonIntrosortCounted (ctx : JsonSortCtx) : ℕ → ℕ → ℕ → (ℕ → ℕ) → Counting Fail (ℕ → ℕ)
  | depth, lo, hi, arr =>
    if lo < hi then
      if hi - lo + 1 ≤ jsonIntrosortThresh then jsonIsortCounted ctx lo hi arr
      else
        match depth with
        | 0 => jsonHeapsortCounted ctx lo hi arr
        | depth + 1 => do
          let r ← partitionCellsCounted ctx lo hi arr
          if r.2 - lo < hi - r.2 then do
            let arr ← jsonIntrosortCounted ctx depth lo (r.2 - 1) r.1
            jsonIntrosortCounted ctx depth (r.2 + 1) hi arr
          else do
            let arr ← jsonIntrosortCounted ctx depth (r.2 + 1) hi r.1
            if r.2 = 0 then return arr else jsonIntrosortCounted ctx depth lo (r.2 - 1) arr
    else return arr

/-- `sortIndices`, the sort of `json__obj_sort` and of the writer, counted. -/
def sortIndicesCounted (ctx : JsonSortCtx) : Counting Fail (List ℕ) :=
  if ctx.pairs.length > 1 then do
    let arr ← jsonIntrosortCounted ctx (2 * jsonIlog2 ctx.pairs.length) 0
      (ctx.pairs.length - 1) fun i => i
    return (List.range ctx.pairs.length).map arr
  else return List.range ctx.pairs.length

variable {ctx : JsonSortCtx} {lo hi : ℕ}

/-! ## Insertion sort -/

theorem within_keyCmp (a b : ℕ) :
    Within (jsonKeyCmpCounted ctx a b) (jsonKeyCmp ctx a b) fun _ => 1 :=
  within_tick_bind (n := 0) (within_free _ _)

/-- The inner loop compares once for each cell that the hole passes, and once more. -/
theorem within_isortShift (key : ℕ) : ∀ (j : ℕ) (arr : ℕ → ℕ),
    Within (isortShiftCounted ctx lo hi key j arr) (isortShift ctx lo hi key j arr)
      fun _ => j - lo := by
  intro j
  induction j with
  | zero =>
    intro arr
    exact within_pure _ _
  | succ j ih =>
    intro arr
    rw [isortShiftCounted, isortShift]
    apply within_ite
    · intro hlt
      apply within_free_bind
      intro x _
      refine ((within_keyCmp x key).seq (n := j - lo) fun cmp _ => ?_).mono (by omega)
      apply within_ite
      · exact fun _ => within_free_bind fun arr' _ => ih arr'
      · exact fun _ => within_pure _ _
    · exact fun _ => within_pure _ _

theorem within_isortLoop : ∀ (fuel i : ℕ) (arr : ℕ → ℕ),
    Within (isortLoopCounted ctx lo hi fuel i arr) (isortLoop ctx lo hi fuel i arr)
      fun _ => fuel * (hi - lo) := by
  intro fuel
  induction fuel with
  | zero =>
    intro i arr
    exact within_free _ _
  | succ fuel ih =>
    intro i arr
    rw [isortLoopCounted, isortLoop]
    apply within_ite
    · intro hi'
      apply within_free_bind
      intro key _
      refine ((within_isortShift key i arr).seq (n := fuel * (hi - lo)) fun r _ => ?_).mono ?_
      · exact within_free_bind fun arr' _ => ih (i + 1) arr'
      · rw [Nat.succ_mul]
        omega
    · exact fun _ => within_pure _ _

/-- Insertion sort is quadratic. -/
theorem within_isort (arr : ℕ → ℕ) :
    Within (jsonIsortCounted ctx lo hi arr) (jsonIsort ctx lo hi arr)
      fun _ => (hi - lo) * (hi - lo) := within_isortLoop (hi - lo) (lo + 1) arr

/-! ## Heapsort -/

/-- The larger child is one of the two. -/
theorem greaterChild_le {arr : ℕ → ℕ} {last child c : ℕ}
    (h : greaterChild ctx lo hi arr last child = .ok c) : child ≤ c := by
  unfold greaterChild at h
  split at h
  · obtain ⟨x, -, h⟩ := scan_bind_eq_ok.mp h
    obtain ⟨y, -, h⟩ := scan_bind_eq_ok.mp h
    obtain ⟨cmp, -, h⟩ := scan_bind_eq_ok.mp h
    split at h
    · cases h
      exact Nat.le_succ _
    · cases h
      exact le_rfl
  · cases h
    exact le_rfl

theorem within_greaterChild (arr : ℕ → ℕ) (last child : ℕ) :
    Within (greaterChildCounted ctx lo hi arr last child) (greaterChild ctx lo hi arr last child)
      fun _ => 1 := by
  unfold greaterChildCounted greaterChild
  apply within_ite
  · intro _
    apply within_free_bind
    intro x _
    apply within_free_bind
    intro y _
    refine (within_keyCmp x y).seq (n := 0) fun cmp _ => ?_
    exact within_ite (fun _ => within_pure _ _) fun _ => within_pure _ _
  · exact fun _ => within_pure _ _

/-- A node and its greater child: from the child on there is one level less. -/
theorem log_child {last parent child : ℕ} (hchild : 2 * parent + 1 ≤ child)
    (hin : 2 * parent + 1 ≤ last) :
    Nat.log 2 ((last + 1) / (child + 1)) + 1 ≤ Nat.log 2 ((last + 1) / (parent + 1)) := by
  have hhalf : (last + 1) / (child + 1) ≤ (last + 1) / (parent + 1) / 2 := by
    rw [Nat.div_div_eq_div_mul]
    exact Nat.div_le_div_left (by omega) (by omega)
  have htwo : 2 ≤ (last + 1) / (parent + 1) := by
    rw [Nat.le_div_iff_mul_le (by omega)]
    omega
  calc Nat.log 2 ((last + 1) / (child + 1)) + 1
      ≤ Nat.log 2 ((last + 1) / (parent + 1) / 2) + 1 :=
        Nat.add_le_add_right (Nat.log_mono_right hhalf) 1
    _ = Nat.log 2 ((last + 1) / (parent + 1)) :=
        (Nat.log_of_one_lt_of_le (by decide) htwo).symm

/-- Sifting down compares twice on each level. -/
theorem within_siftLoop (last : ℕ) : ∀ (fuel parent : ℕ) (arr : ℕ → ℕ),
    Within (siftLoopCounted ctx lo hi last fuel parent arr)
      (siftLoop ctx lo hi last fuel parent arr)
      fun _ => 2 * Nat.log 2 ((last + 1) / (parent + 1)) := by
  intro fuel
  induction fuel with
  | zero =>
    intro parent arr
    exact within_free _ _
  | succ fuel ih =>
    intro parent arr
    rw [siftLoopCounted, siftLoop]
    apply within_ite
    · exact fun _ => within_pure _ _
    · intro hin
      refine (within_greaterChild arr last _).bind
        (c := fun child _ => 1 + 2 * Nat.log 2 ((last + 1) / (child + 1))) (fun child _ => ?_)
        (fun child hchild => ?_) fun _ _ => ?_
      · apply within_free_bind
        intro x _
        apply within_free_bind
        intro y _
        refine (within_keyCmp x y).seq fun cmp _ => ?_
        apply within_ite
        · exact fun _ => within_pure _ _
        · exact fun _ => within_free_bind fun arr' _ => ih child arr'
      · have hlog := log_child (greaterChild_le hchild) (not_lt.mp hin)
        omega
      · have hlog := log_child le_rfl (not_lt.mp hin)
        omega

theorem within_siftDown (arr : ℕ → ℕ) (root last : ℕ) :
    Within (jsonSiftDownCounted ctx lo hi arr root last) (jsonSiftDown ctx lo hi arr root last)
      fun _ => 2 * Nat.log 2 (last + 1) :=
  (within_siftLoop last _ root arr).mono
    (Nat.mul_le_mul_left 2 (Nat.log_mono_right (Nat.div_le_self _ _)))

theorem within_heapBuild (n : ℕ) : ∀ (i : ℕ) (arr : ℕ → ℕ),
    Within (heapBuildCounted ctx lo hi n i arr) (heapBuild ctx lo hi n i arr)
      fun _ => i * (2 * Nat.log 2 (n - 1 + 1)) := by
  intro i
  induction i with
  | zero =>
    intro arr
    exact within_pure _ _
  | succ i ih =>
    intro arr
    rw [heapBuildCounted, heapBuild]
    refine ((within_siftDown arr i (n - 1)).seq fun arr' _ => ih arr').mono ?_
    rw [Nat.add_one_mul i, Nat.add_comm]

theorem within_heapExtract : ∀ (i : ℕ) (arr : ℕ → ℕ),
    Within (heapExtractCounted ctx lo hi i arr) (heapExtract ctx lo hi i arr)
      fun _ => i * (2 * Nat.log 2 (i + 1)) := by
  intro i
  induction i with
  | zero =>
    intro arr
    exact within_pure _ _
  | succ i ih =>
    intro arr
    rw [heapExtractCounted, heapExtract]
    apply within_free_bind
    intro arr' _
    refine ((within_siftDown arr' 0 i).seq fun arr'' _ => ih arr'').mono ?_
    have hlog : Nat.log 2 (i + 1) ≤ Nat.log 2 (i + 1 + 1) := Nat.log_mono_right (Nat.le_succ _)
    have hmul := Nat.mul_le_mul_left (i + 1) (Nat.mul_le_mul_left 2 hlog)
    rw [Nat.add_one_mul i (2 * Nat.log 2 (i + 1))] at hmul
    omega

/-- **Heapsort** compares at most `3 n log n` times. -/
theorem within_heapsort (arr : ℕ → ℕ) :
    Within (jsonHeapsortCounted ctx lo hi arr) (jsonHeapsort ctx lo hi arr)
      fun _ => (hi - lo + 1) * (3 * Nat.log 2 (hi - lo + 1)) := by
  unfold jsonHeapsortCounted jsonHeapsort
  simp only
  set n := hi - lo + 1
  apply within_ite
  · exact fun _ => within_pure _ _
  · intro hn
    refine ((within_heapBuild n (n / 2) arr).seq fun arr' _ =>
      within_heapExtract (n - 1) arr').mono ?_
    rw [Nat.sub_add_cancel (by omega : 1 ≤ n), ← Nat.add_mul]
    calc (n / 2 + (n - 1)) * (2 * Nat.log 2 n)
        = 2 * (n / 2 + (n - 1)) * Nat.log 2 n := by ring
      _ ≤ 3 * n * Nat.log 2 n := Nat.mul_le_mul_right _ (by omega)
      _ = n * (3 * Nat.log 2 n) := by ring

/-! ## Introsort -/

theorem within_orderCells (arr : ℕ → ℕ) (i j : ℕ) :
    Within (orderCellsCounted ctx lo hi arr i j) (orderCells ctx lo hi arr i j) fun _ => 1 := by
  unfold orderCellsCounted orderCells
  apply within_free_bind
  intro x _
  apply within_free_bind
  intro y _
  refine (within_keyCmp x y).seq (n := 0) fun cmp _ => ?_
  exact within_ite (fun _ => within_free _ _) fun _ => within_pure _ _

theorem scanUp_bounds {pivot : ℕ} {arr : ℕ → ℕ} : ∀ {fuel i i' : ℕ}, i < hi →
    scanUp ctx lo hi pivot arr fuel i = .ok i' → i < i' ∧ i' ≤ hi := by
  intro fuel
  induction fuel with
  | zero =>
    intro i i' _ h
    cases h
  | succ fuel ih =>
    intro i i' hi' h
    rw [scanUp] at h
    obtain ⟨x, -, h⟩ := scan_bind_eq_ok.mp h
    obtain ⟨cmp, -, h⟩ := scan_bind_eq_ok.mp h
    split at h
    · rename_i hgo
      obtain ⟨hlt, hle⟩ := ih hgo.2 h
      exact ⟨by omega, hle⟩
    · cases h
      exact ⟨Nat.lt_succ_self _, hi'⟩

/-- Scanning compares once for each cell it passes. -/
theorem within_scanUp (pivot : ℕ) (arr : ℕ → ℕ) : ∀ (fuel i : ℕ), i < hi →
    Within (scanUpCounted ctx lo hi pivot arr fuel i) (scanUp ctx lo hi pivot arr fuel i)
      (perValue (fun i' => i' - i) (hi - i)) := by
  intro fuel
  induction fuel with
  | zero => exact fun _ _ => within_free _ _
  | succ fuel ih =>
    intro i hi'
    rw [scanUpCounted, scanUp]
    apply within_free_bind
    intro x _
    refine (within_keyCmp x pivot).bind
      (c := fun _ => perValue (fun i' => i' - (i + 1)) (hi - (i + 1))) (fun cmp _ => ?_)
      (fun cmp _ => ?_) fun _ _ => Nat.sub_pos_of_lt hi'
    · apply within_ite
      · exact fun hgo => ih (i + 1) hgo.2
      · exact fun _ => within_pure _ _
    · split
      · rename_i hgo
        cases hup : scanUp ctx lo hi pivot arr fuel (i + 1) with
        | ok i' =>
          have hb := scanUp_bounds hgo.2 hup
          show 1 + (i' - (i + 1)) ≤ i' - i
          omega
        | error e =>
          show 1 + (hi - (i + 1)) ≤ hi - i
          omega
      · show 1 + (i + 1 - (i + 1)) ≤ i + 1 - i
        omega

theorem scanDown_bounds {pivot : ℕ} {arr : ℕ → ℕ} : ∀ {j j' : ℕ}, lo < j →
    scanDown ctx lo hi pivot arr j = .ok j' → lo ≤ j' ∧ j' < j := by
  intro j
  induction j with
  | zero =>
    intro j' hlo _
    omega
  | succ j ih =>
    intro j' hlo h
    rw [scanDown] at h
    obtain ⟨x, -, h⟩ := scan_bind_eq_ok.mp h
    obtain ⟨cmp, -, h⟩ := scan_bind_eq_ok.mp h
    split at h
    · rename_i hgo
      obtain ⟨hle, hlt⟩ := ih hgo.2 h
      exact ⟨hle, by omega⟩
    · cases h
      exact ⟨by omega, Nat.lt_succ_self _⟩

theorem within_scanDown (pivot : ℕ) (arr : ℕ → ℕ) : ∀ j : ℕ, lo < j →
    Within (scanDownCounted ctx lo hi pivot arr j) (scanDown ctx lo hi pivot arr j)
      (perValue (fun j' => j - j') (j - lo)) := by
  intro j
  induction j with
  | zero =>
    intro hlo
    omega
  | succ j ih =>
    intro hlo
    rw [scanDownCounted, scanDown]
    apply within_free_bind
    intro x _
    refine (within_keyCmp x pivot).bind (c := fun _ => perValue (fun j' => j - j') (j - lo))
      (fun cmp _ => ?_) (fun cmp _ => ?_) fun _ _ => Nat.sub_pos_of_lt hlo
    · apply within_ite
      · exact fun hgo => ih hgo.2
      · exact fun _ => within_pure _ _
    · split
      · rename_i hgo
        cases hdown : scanDown ctx lo hi pivot arr j with
        | ok j' =>
          have hb := scanDown_bounds hgo.2 hdown
          show 1 + (j - j') ≤ j + 1 - j'
          omega
        | error e =>
          show 1 + (j - lo) ≤ j + 1 - lo
          omega
      · show 1 + (j - j) ≤ j + 1 - j
        omega

/-- The two indices of the partition approach each other, so that every cell is compared at
most twice. -/
theorem within_partitionLoop (pivot : ℕ) : ∀ (fuel i j : ℕ) (arr : ℕ → ℕ), lo ≤ i → i < hi →
    lo < j → j ≤ hi → Within (partitionLoopCounted ctx lo hi pivot fuel i j arr)
      (partitionLoop ctx lo hi pivot fuel i j arr) fun _ => (hi - i) + (j - lo) := by
  intro fuel
  induction fuel with
  | zero =>
    intro i j arr _ _ _ _
    exact within_free _ _
  | succ fuel ih =>
    intro i j arr hlo' hi' hlo hj
    rw [partitionLoopCounted, partitionLoop]
    refine (within_scanUp pivot arr (hi + 1) i hi').bind
      (c := fun i' _ => (j - lo) + (hi - i')) (fun i' hup => ?_) (fun i' hup => ?_)
      fun _ _ => Nat.le_add_right _ _
    · have hbi := scanUp_bounds hi' hup
      refine (within_scanDown pivot arr j hlo).bind
        (c := fun j' _ => (hi - i') + (j' - lo)) (fun j' hdown => ?_) (fun j' hdown => ?_)
        fun _ _ => Nat.le_add_right _ _
      · have hbj := scanDown_bounds hlo hdown
        apply within_ite
        · exact fun _ => within_pure _ _
        · intro hgo
          apply within_free_bind
          intro arr' _
          have hlt : i' < j' := not_le.mp hgo
          exact ih i' j' arr' (by omega) (by omega) (by omega) (by omega)
      · have hbj := scanDown_bounds hlo hdown
        show j - j' + ((hi - i') + (j' - lo)) ≤ (j - lo) + (hi - i')
        omega
    · have hbi := scanUp_bounds hi' hup
      show i' - i + ((j - lo) + (hi - i')) ≤ (hi - i) + (j - lo)
      omega

theorem partitionLoop_bounds {pivot : ℕ} : ∀ {fuel i j : ℕ} {arr : ℕ → ℕ} {r : (ℕ → ℕ) × ℕ},
    lo ≤ i → i < hi → lo < j → j ≤ hi →
    partitionLoop ctx lo hi pivot fuel i j arr = .ok r → lo < r.2 ∧ r.2 ≤ hi := by
  intro fuel
  induction fuel with
  | zero =>
    intro i j arr r _ _ _ _ h
    cases h
  | succ fuel ih =>
    intro i j arr r hlo' hi' hlo hj h
    rw [partitionLoop] at h
    obtain ⟨i', hup, h⟩ := scan_bind_eq_ok.mp h
    obtain ⟨j', hdown, h⟩ := scan_bind_eq_ok.mp h
    have hbi := scanUp_bounds hi' hup
    have hbj := scanDown_bounds hlo hdown
    split at h
    · cases h
      exact ⟨by show lo < i'; omega, hbi.2⟩
    · rename_i hgo
      obtain ⟨arr', -, h⟩ := scan_bind_eq_ok.mp h
      have hlt : i' < j' := not_le.mp hgo
      exact ih (by omega) (by omega) (by omega) (by omega) h

theorem partitionCells_bounds {arr : ℕ → ℕ} {r : (ℕ → ℕ) × ℕ} (hspan : lo + 2 ≤ hi)
    (h : partitionCells ctx lo hi arr = .ok r) : lo < r.2 ∧ r.2 ≤ hi := by
  unfold partitionCells at h
  simp only at h
  obtain ⟨arr1, -, h⟩ := scan_bind_eq_ok.mp h
  obtain ⟨arr2, -, h⟩ := scan_bind_eq_ok.mp h
  obtain ⟨arr3, -, h⟩ := scan_bind_eq_ok.mp h
  obtain ⟨pivot, -, h⟩ := scan_bind_eq_ok.mp h
  obtain ⟨arr4, -, h⟩ := scan_bind_eq_ok.mp h
  obtain ⟨r', hloop, h⟩ := scan_bind_eq_ok.mp h
  obtain ⟨arr5, -, h⟩ := scan_bind_eq_ok.mp h
  cases h
  have hb := partitionLoop_bounds le_rfl (by omega) (by omega) (by omega) hloop
  exact hb

theorem within_partitionCells (arr : ℕ → ℕ) (hspan : lo + 2 ≤ hi) :
    Within (partitionCellsCounted ctx lo hi arr) (partitionCells ctx lo hi arr)
      fun _ => 2 * (hi - lo + 1) := by
  have hrest : ∀ arr' : ℕ → ℕ, Within (do
        let pivot ← free (cell lo hi arr' (lo + (hi - lo + 1) / 2))
        let arr ← free (swapCells lo hi arr' (lo + (hi - lo + 1) / 2) (hi - 1))
        let r ← partitionLoopCounted ctx lo hi pivot (hi + 1) lo (hi - 1) arr
        let arr ← free (swapCells lo hi r.1 r.2 (hi - 1))
        return (arr, r.2))
      (do
        let pivot ← cell lo hi arr' (lo + (hi - lo + 1) / 2)
        let arr ← swapCells lo hi arr' (lo + (hi - lo + 1) / 2) (hi - 1)
        let r ← partitionLoop ctx lo hi pivot (hi + 1) lo (hi - 1) arr
        let arr ← swapCells lo hi r.1 r.2 (hi - 1)
        return (arr, r.2))
      fun _ => (hi - lo) + (hi - 1 - lo) + 0 := by
    intro arr'
    apply within_free_bind
    intro pivot _
    apply within_free_bind
    intro arr'' _
    refine (within_partitionLoop pivot (hi + 1) lo (hi - 1) arr'' le_rfl (by omega) (by omega)
      (by omega)).seq fun r _ => ?_
    exact within_free_bind fun arr _ => within_pure _ _
  refine ((within_orderCells arr _ _).seq fun arr1 _ => (within_orderCells arr1 _ _).seq
    fun arr2 _ => (within_orderCells arr2 _ _).seq fun arr3 _ => hrest arr3).mono (by omega)

/-- How many comparisons the sort of `n` cells makes at most, with a depth budget. -/
def sortBound (depth n : ℕ) : ℕ := n * (2 * depth + 3 * Nat.log 2 n + 15)

theorem sortBound_split {depth a b n : ℕ} (hsum : a + b < n) :
    2 * n + (sortBound depth a + sortBound depth b) ≤ sortBound (depth + 1) n := by
  unfold sortBound
  have hlog : ∀ k, k ≤ n → k * (2 * depth + 3 * Nat.log 2 k + 15)
      ≤ k * (2 * depth + 3 * Nat.log 2 n + 15) := fun k hk => by
    have := Nat.log_mono_right (b := 2) hk
    exact Nat.mul_le_mul_left k (by omega)
  have ha := hlog a (by omega)
  have hb := hlog b (by omega)
  calc 2 * n + (_ + _)
      ≤ 2 * n + (a * (2 * depth + 3 * Nat.log 2 n + 15)
          + b * (2 * depth + 3 * Nat.log 2 n + 15)) := by omega
    _ = 2 * n + (a + b) * (2 * depth + 3 * Nat.log 2 n + 15) := by ring
    _ ≤ 2 * n + n * (2 * depth + 3 * Nat.log 2 n + 15) :=
        Nat.add_le_add_left (Nat.mul_le_mul_right _ hsum.le) _
    _ = n * (2 * (depth + 1) + 3 * Nat.log 2 n + 15) := by ring

theorem within_introsort (ctx : JsonSortCtx) : ∀ (depth lo hi : ℕ) (arr : ℕ → ℕ),
    Within (jsonIntrosortCounted ctx depth lo hi arr) (jsonIntrosort ctx depth lo hi arr)
      fun _ => sortBound depth (hi + 1 - lo) := by
  -- a short window goes to insertion sort, whatever the budget is
  have hshort : ∀ (depth lo hi : ℕ) (arr : ℕ → ℕ), hi - lo + 1 ≤ jsonIntrosortThresh →
      Within (jsonIsortCounted ctx lo hi arr) (jsonIsort ctx lo hi arr)
        fun _ => sortBound depth (hi + 1 - lo) := by
    intro depth lo hi arr hle
    refine (within_isort arr).mono ?_
    have hthresh : jsonIntrosortThresh = 16 := rfl
    unfold sortBound
    exact Nat.mul_le_mul (by omega) (by omega)
  intro depth
  induction depth with
  | zero =>
    intro lo hi arr
    rw [jsonIntrosortCounted, jsonIntrosort]
    apply within_ite
    · intro hlt
      apply within_ite
      · exact hshort 0 lo hi arr
      · intro _
        refine (within_heapsort arr).mono ?_
        rw [show hi - lo + 1 = hi + 1 - lo by omega, sortBound]
        exact Nat.mul_le_mul_left _ (by omega)
    · exact fun _ => within_pure _ _
  | succ depth ih =>
    intro lo hi arr
    rw [jsonIntrosortCounted, jsonIntrosort]
    apply within_ite
    · intro hlt
      apply within_ite
      · exact hshort (depth + 1) lo hi arr
      · intro hlong
        have hthresh : jsonIntrosortThresh = 16 := rfl
        refine (within_partitionCells arr (by omega)).bind
          (c := fun r _ => sortBound depth (r.2 - lo) + sortBound depth (hi - r.2))
          (fun r hr => ?_) (fun r hr => ?_) fun _ _ => ?_
        · have hb := partitionCells_bounds (by omega) hr
          have hleft : r.2 - 1 + 1 - lo = r.2 - lo := by omega
          have hright : hi + 1 - (r.2 + 1) = hi - r.2 := by omega
          apply within_ite
          · intro _
            refine ((ih lo (r.2 - 1) r.1).seq fun arr' _ => ih (r.2 + 1) hi arr').mono ?_
            rw [hleft, hright]
          · intro _
            refine ((ih (r.2 + 1) hi r.1).seq (n := sortBound depth (r.2 - lo))
              fun arr' _ => ?_).mono ?_
            · apply within_ite
              · exact fun _ => within_pure _ _
              · intro _
                rw [← hleft]
                exact ih lo (r.2 - 1) arr'
            · rw [hright, Nat.add_comm]
        · have hb := partitionCells_bounds (by omega) hr
          rw [show hi - lo + 1 = hi + 1 - lo by omega]
          exact sortBound_split (by omega)
        · rw [show hi - lo + 1 = hi + 1 - lo by omega]
          exact (Nat.le_add_right _ _).trans (sortBound_split (a := 0) (b := 0) (by omega))
    · exact fun _ => within_pure _ _

/-! ## Sorting the pairs of an object -/

theorem ilog2Loop_eq : ∀ {fuel n r : ℕ}, n ≤ fuel → ilog2Loop fuel n r = r + Nat.log 2 n := by
  intro fuel
  induction fuel with
  | zero =>
    intro n r hn
    obtain rfl : n = 0 := by omega
    rfl
  | succ fuel ih =>
    intro n r hn
    rw [ilog2Loop]
    by_cases hone : n > 1
    · have hlog : Nat.log 2 n = Nat.log 2 (n / 2) + 1 :=
        Nat.log_of_one_lt_of_le (by decide) hone
      rw [if_pos hone, ih (by omega), hlog]
      omega
    · rw [if_neg hone, Nat.log_of_lt (by omega), Nat.add_zero]

/-- `json__ilog2` is the logarithm, rounded down. -/
theorem jsonIlog2_eq (n : ℕ) : jsonIlog2 n = Nat.log 2 n := by
  rw [jsonIlog2, ilog2Loop_eq le_rfl, Nat.zero_add]

theorem within_sortIndices (ctx : JsonSortCtx) :
    Within (sortIndicesCounted ctx) (sortIndices ctx)
      fun _ => ctx.pairs.length * (7 * Nat.log 2 ctx.pairs.length + 15) := by
  unfold sortIndicesCounted sortIndices
  apply within_ite
  · intro hlen
    refine ((within_introsort ctx _ 0 _ _).seq (n := 0) fun arr _ => within_pure _ _).mono ?_
    rw [jsonIlog2_eq, Nat.sub_add_cancel hlen.le, sortBound, Nat.sub_zero, Nat.add_zero]
    exact Nat.mul_le_mul_left _ (by omega)
  · exact fun _ => within_pure _ _

/-- **No keys make the sort quadratic.**  Whatever the keys, the mode, the window and the depth
budget are, `json__introsort` sorts `n` cells as it does without the counter, and compares at
most `n (2 depth + 3 log n + 15)` times; so that the pairs of an object are put in order with
`n (7 log n + 15)` comparisons. -/
theorem jsonIntrosort_comparisons (ctx : JsonSortCtx) :
    (∀ (depth lo hi : ℕ) (arr : ℕ → ℕ), (∀ i, lo ≤ i → i ≤ hi → arr i < ctx.pairs.length) →
      ∃ arr' n, jsonIntrosortCounted ctx depth lo hi arr 0 = (.ok arr', n) ∧
        jsonIntrosort ctx depth lo hi arr = .ok arr' ∧
        n ≤ (hi + 1 - lo) * (2 * depth + 3 * Nat.log 2 (hi + 1 - lo) + 15)) ∧
    ∃ idx n, sortIndicesCounted ctx 0 = (.ok idx, n) ∧ sortIndices ctx = .ok idx ∧
      n ≤ ctx.pairs.length * (7 * Nat.log 2 ctx.pairs.length + 15) := by
  constructor
  · intro depth lo hi arr hvalid
    obtain ⟨arr', hok, -⟩ := jsonIntrosort_spec ctx depth lo hi hvalid
    obtain ⟨n, hn, hcount⟩ := within_introsort ctx depth lo hi arr 0
    refine ⟨arr', n, ?_, hok, hn⟩
    rw [hcount, hok, Nat.zero_add]
  · obtain ⟨idx, hok, -⟩ := sortIndices_spec ctx
    obtain ⟨n, hn, hcount⟩ := within_sortIndices ctx 0
    refine ⟨idx, n, ?_, hok, hn⟩
    rw [hcount, hok, Nat.zero_add]

/-- Forty keys in reverse order, and a window of thirty-six of them. -/
theorem jsonIntrosort_comparisons_reversed :
    ∃ ctx : JsonSortCtx,
      ctx = ⟨(List.range 40).map fun i => ⟨⟨[.ofNat (39 - i)], 0⟩, i⟩, true⟩ ∧
      (∃ idx n, sortIndicesCounted ctx 0 = (.ok idx, n) ∧ n ≤ 2000) ∧
      ∃ arr m, jsonIntrosortCounted ctx 1 2 37 id 0 = (.ok arr, m) ∧ m ≤ 1152 := by
  let ctx : JsonSortCtx := ⟨(List.range 40).map fun i => ⟨⟨[.ofNat (39 - i)], 0⟩, i⟩, true⟩
  have hlen : ctx.pairs.length = 40 := by simp [ctx]
  have hlog : Nat.log 2 40 = 5 := by decide
  have hlog' : Nat.log 2 36 = 5 := by decide
  obtain ⟨hwindow, idx, n, hcount, -, hn⟩ := jsonIntrosort_comparisons ctx
  obtain ⟨arr, m, hcount', -, hm⟩ := hwindow 1 2 37 id fun i _ hi => by
    rw [hlen]
    exact hi.trans_lt (by decide)
  rw [hlen, hlog] at hn
  rw [hlog'] at hm
  exact ⟨ctx, rfl, ⟨idx, n, hcount, hn⟩, arr, m, hcount', hm⟩

/-! ## Looking up a key -/

/-- `linearGet`, with a step for each pair. -/
def linearGetCounted (hash : UInt32) (key : List UInt8) : List JsonPair → Counting Fail JsonPtr
  | [] => free (.error (.err .notFound))
  | pair :: pairs => do
    tick
    if keyMatches hash key pair.key then return pair.val else linearGetCounted hash key pairs

/-- `bisectGet`, with a step for each comparison. -/
def bisectGetCounted (pairs : List JsonPair) (idx : List ℕ) (hash : UInt32) (key : List UInt8) :
    ℕ → ℤ → ℤ → Counting Fail JsonPtr
  | 0, lo, hi =>
    free (if lo ≤ hi then .error (.fault .fuel) else .error (.err .notFound))
  | fuel + 1, lo, hi =>
    if lo ≤ hi then do
      let i ← free (idxAt idx (lo + (hi - lo) / 2))
      let pair ← free (pairAt pairs i)
      tick
      if keyOrd false pair.key ⟨key, hash⟩ = 0 then return pair.val
      else if keyOrd false pair.key ⟨key, hash⟩ < 0 then
        bisectGetCounted pairs idx hash key fuel (lo + (hi - lo) / 2 + 1) hi
      else bisectGetCounted pairs idx hash key fuel lo (lo + (hi - lo) / 2 - 1)
    else free (.error (.err .notFound))

/-- `objGet`, counted. -/
def objGetCounted (o : JsonObj) (key : List UInt8) : Counting Fail JsonPtr :=
  match o.isSorted, o.sortedIdx with
  | true, some idx =>
    bisectGetCounted o.pairs idx (jsonFnv1a key) key o.pairs.length 0 (o.pairs.length - 1)
  | _, _ => linearGetCounted (jsonFnv1a key) key o.pairs

variable {D : Type}

/-- `json_obj_get_n`, with a step for each key that the one looked up is compared with. -/
def jsonObjGetNCounted (h : Heap D) (v : JsonPtr) (key : List UInt8) : Counting Fail JsonPtr :=
  if key.length > uint32Max then free (.error (.err .overflow))
  else
    match h.node v with
    | .object o =>
      if o.pairs.length = 0 then free (.error (.err .notFound)) else objGetCounted o key
    | _ => free (.error (.err .typeMismatch))

theorem within_linearGet (hash : UInt32) (key : List UInt8) : ∀ pairs : List JsonPair,
    Within (linearGetCounted hash key pairs) (linearGet hash key pairs) fun _ => pairs.length := by
  intro pairs
  induction pairs with
  | nil => exact within_free _ _
  | cons pair pairs ih =>
    rw [linearGetCounted, linearGet, List.length_cons]
    apply within_tick_bind
    exact within_ite (fun _ => within_pure _ _) fun _ => ih

/-- Bisection halves what is left. -/
theorem within_bisectGet (pairs : List JsonPair) (idx : List ℕ) (hash : UInt32)
    (key : List UInt8) : ∀ (fuel b : ℕ) (lo hi : ℤ), hi - lo + 1 < 2 ^ b →
    Within (bisectGetCounted pairs idx hash key fuel lo hi)
      (bisectGet pairs idx hash key fuel lo hi) fun _ => b := by
  intro fuel
  induction fuel with
  | zero => exact fun _ _ _ _ => within_free _ _
  | succ fuel ih =>
    intro b lo hi hb
    rw [bisectGetCounted, bisectGet]
    apply within_ite
    · intro hle
      cases b with
      | zero =>
        rw [pow_zero] at hb
        omega
      | succ b =>
        rw [pow_succ] at hb
        apply within_free_bind
        intro i _
        apply within_free_bind
        intro pair _
        apply within_tick_bind
        apply within_ite
        · exact fun _ => within_pure _ _
        · intro _
          apply within_ite
          · exact fun _ => ih b _ _ (by omega)
          · exact fun _ => ih b _ _ (by omega)
    · exact fun _ => within_free _ _

/-- **Lookups** find what they find without the counter.  With a sorted index the key is compared
with at most `log n + 1` others, and without one with each pair at most once. -/
theorem jsonObjGetN_comparisons (h : Heap D) (v : JsonPtr) (o : JsonObj)
    (hobj : h.node v = .object o) (key : List UInt8) :
    ∃ n, jsonObjGetNCounted h v key 0 = (jsonObjGetN h v key, n) ∧ n ≤ o.pairs.length ∧
      (o.isSorted = true → o.sortedIdx.isSome → n ≤ Nat.log 2 o.pairs.length + 1) := by
  unfold jsonObjGetNCounted jsonObjGetN
  simp only [hobj]
  by_cases hlong : key.length > uint32Max
  · exact ⟨0, by rw [if_pos hlong, if_pos hlong]; rfl, Nat.zero_le _, fun _ _ => Nat.zero_le _⟩
  rw [if_neg hlong, if_neg hlong]
  by_cases hempty : o.pairs.length = 0
  · exact ⟨0, by rw [if_pos hempty, if_pos hempty]; rfl, Nat.zero_le _, fun _ _ => Nat.zero_le _⟩
  rw [if_neg hempty, if_neg hempty]
  obtain ⟨n, hn, hcount⟩ := within_linearGet (jsonFnv1a key) key o.pairs 0
  rw [Nat.zero_add] at hcount
  rw [objGetCounted, objGet]
  rcases hsorted : o.isSorted with _ | _
  · refine ⟨n, ?_, hn, fun hfalse => Bool.noConfusion hfalse⟩
    cases o.sortedIdx <;> exact hcount
  · rcases hidx : o.sortedIdx with _ | idx
    · exact ⟨n, hcount, hn, fun _ hfalse => Bool.noConfusion hfalse⟩
    · have hpow : ((o.pairs.length - 1 : ℤ) - 0) + 1 < 2 ^ (Nat.log 2 o.pairs.length + 1) := by
        have hlt := Nat.lt_pow_succ_log_self (b := 2) (by decide) o.pairs.length
        have hcast : ((o.pairs.length : ℕ) : ℤ) < ((2 ^ (Nat.log 2 o.pairs.length + 1) : ℕ) : ℤ) :=
          Int.ofNat_lt.mpr hlt
        push_cast at hcast
        omega
      obtain ⟨m, hm, hbisect⟩ := within_bisectGet o.pairs idx (jsonFnv1a key) key o.pairs.length
        (Nat.log 2 o.pairs.length + 1) 0 (o.pairs.length - 1) hpow 0
      rw [Nat.zero_add] at hbisect
      have hlog : Nat.log 2 o.pairs.length < o.pairs.length := Nat.log_lt_self 2 hempty
      exact ⟨m, hbisect, hm.trans hlog, fun _ _ => hm⟩

/-- Three pairs with an index in the order of the hashes: two comparisons at most. -/
theorem jsonObjGetN_comparisons_indexed :
    ∃ (h : Heap Unit) (o : JsonObj) (n : ℕ), h.node 0 = .object o ∧ o.pairs.length = 3 ∧
      jsonObjGetNCounted h 0 [0x62] 0 = (.ok 2, n) ∧ n ≤ 2 := by
  let o : JsonObj := ⟨[⟨⟨[0x61], jsonFnv1a [0x61]⟩, 1⟩, ⟨⟨[0x62], jsonFnv1a [0x62]⟩, 2⟩,
    ⟨⟨[0x63], jsonFnv1a [0x63]⟩, 3⟩], some [0, 2, 1], 8, true⟩
  let h : Heap Unit := (Heap.new .empty).set 0 (.object o)
  obtain ⟨n, hcount, -, hn⟩ :=
    jsonObjGetN_comparisons h 0 o (Heap.set_node_self ..) [0x62]
  have hfound : jsonObjGetN h 0 [0x62] = .ok 2 := by decide
  rw [hfound] at hcount
  exact ⟨h, o, n, Heap.set_node_self .., rfl, hcount, hn rfl rfl⟩

end SJson
