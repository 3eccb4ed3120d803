/-
# Sorting looks at keys only

The sort compares keys and moves indices, so that two lists of pairs with the same keys are
sorted by the same moves: `json__introsort` is the same function for both, whether or not
keys are repeated (`jsonIntrosort_congr`).
-/
import SJson.Lookup

namespace SJson

open ListRel

variable {ctx ctx' : JsonSortCtx}

/-! ## Insertion sort -/

theorem isortShift_congr (hcmp : jsonKeyCmp ctx = jsonKeyCmp ctx') (lo hi key : ℕ) :
    isortShift ctx lo hi key = isortShift ctx' lo hi key := by
  funext j
  induction j with
  | zero => rfl
  | succ j ih =>
    funext arr
    simp only [isortShift, hcmp, ih]

theorem isortLoop_congr (hcmp : jsonKeyCmp ctx = jsonKeyCmp ctx') (lo hi : ℕ) :
    isortLoop ctx lo hi = isortLoop ctx' lo hi := by
  funext fuel
  induction fuel with
  | zero => rfl
  | succ fuel ih =>
    funext i arr
    simp only [isortLoop, isortShift_congr hcmp, ih]

theorem jsonIsort_congr (hcmp : jsonKeyCmp ctx = jsonKeyCmp ctx') :
    jsonIsort ctx = jsonIsort ctx' := by
  funext lo hi arr
  rw [jsonIsort, jsonIsort, isortLoop_congr hcmp]

/-! ## Heapsort -/

theorem greaterChild_congr (hcmp : jsonKeyCmp ctx = jsonKeyCmp ctx') :
    greaterChild ctx = greaterChild ctx' := by
  funext lo hi arr last child
  simp only [greaterChild, hcmp]

theorem siftLoop_congr (hcmp : jsonKeyCmp ctx = jsonKeyCmp ctx') (lo hi last : ℕ) :
    siftLoop ctx lo hi last = siftLoop ctx' lo hi last := by
  funext fuel
  induction fuel with
  | zero => rfl
  | succ fuel ih =>
    funext parent arr
    simp only [siftLoop, hcmp, greaterChild_congr hcmp, ih]

theorem jsonSiftDown_congr (hcmp : jsonKeyCmp ctx = jsonKeyCmp ctx') :
    jsonSiftDown ctx = jsonSiftDown ctx' := by
  funext lo hi arr root last
  rw [jsonSiftDown, jsonSiftDown, siftLoop_congr hcmp]

theorem heapBuild_congr (hcmp : jsonKeyCmp ctx = jsonKeyCmp ctx') (lo hi n : ℕ) :
    heapBuild ctx lo hi n = heapBuild ctx' lo hi n := by
  funext i
  induction i with
  | zero => rfl
  | succ i ih =>
    funext arr
    simp only [heapBuild, jsonSiftDown_congr hcmp, ih]

theorem heapExtract_congr (hcmp : jsonKeyCmp ctx = jsonKeyCmp ctx') (lo hi : ℕ) :
    heapExtract ctx lo hi = heapExtract ctx' lo hi := by
  funext i
  induction i with
  | zero => rfl
  | succ i ih =>
    funext arr
    simp only [heapExtract, jsonSiftDown_congr hcmp, ih]

theorem jsonHeapsort_congr (hcmp : jsonKeyCmp ctx = jsonKeyCmp ctx') :
    jsonHeapsort ctx = jsonHeapsort ctx' := by
  funext lo hi arr
  simp only [jsonHeapsort, heapBuild_congr hcmp, heapExtract_congr hcmp]

/-! ## Introsort -/

theorem orderCells_congr (hcmp : jsonKeyCmp ctx = jsonKeyCmp ctx') :
    orderCells ctx = orderCells ctx' := by
  funext lo hi arr i j
  simp only [orderCells, hcmp]

theorem scanUp_congr (hcmp : jsonKeyCmp ctx = jsonKeyCmp ctx') (lo hi pivot : ℕ) (arr : ℕ → ℕ) :
    scanUp ctx lo hi pivot arr = scanUp ctx' lo hi pivot arr := by
  funext fuel
  induction fuel with
  | zero => rfl
  | succ fuel ih =>
    funext i
    simp only [scanUp, hcmp, ih]

theorem scanDown_congr (hcmp : jsonKeyCmp ctx = jsonKeyCmp ctx') (lo hi pivot : ℕ)
    (arr : ℕ → ℕ) : scanDown ctx lo hi pivot arr = scanDown ctx' lo hi pivot arr := by
  funext j
  induction j with
  | zero => rfl
  | succ j ih => simp only [scanDown, hcmp, ih]

theorem partitionLoop_congr (hcmp : jsonKeyCmp ctx = jsonKeyCmp ctx') (lo hi pivot : ℕ) :
    partitionLoop ctx lo hi pivot = partitionLoop ctx' lo hi pivot := by
  funext fuel
  induction fuel with
  | zero => rfl
  | succ fuel ih =>
    funext i j arr
    simp only [partitionLoop, scanUp_congr hcmp, scanDown_congr hcmp, ih]

theorem partitionCells_congr (hcmp : jsonKeyCmp ctx = jsonKeyCmp ctx') :
    partitionCells ctx = partitionCells ctx' := by
  funext lo hi arr
  simp only [partitionCells, orderCells_congr hcmp, partitionLoop_congr hcmp]

/-- **Introsort makes the same moves for the same comparisons.** -/
theorem jsonIntrosort_congr (hcmp : jsonKeyCmp ctx = jsonKeyCmp ctx') :
    jsonIntrosort ctx = jsonIntrosort ctx' := by
  funext depth
  induction depth with
  | zero =>
    funext lo hi arr
    simp only [jsonIntrosort, jsonIsort_congr hcmp, jsonHeapsort_congr hcmp]
  | succ depth ih =>
    funext lo hi arr
    simp only [jsonIntrosort, jsonIsort_congr hcmp, partitionCells_congr hcmp, ih]

/-! ## Pairs with the same keys -/

/-- The comparison that ignores hashes sees the bytes of the keys only. -/
theorem keyOrd_lexical {ka kb ka' kb' : JsonStr} (ha : ka.data = ka'.data)
    (hb : kb.data = kb'.data) : keyOrd true ka kb = keyOrd true ka' kb' := by
  simp only [keyOrd, JsonStr.len, ha, hb, Bool.true_eq_false, false_and, if_false]

/-- The pairs at one place of two related lists. -/
theorem pairAt_rel {R : JsonPair → JsonPair → Prop} {pairs pairs' : List JsonPair}
    (h : List.Forall₂ R pairs pairs') (i : ℕ) :
    (∃ a b, pairAt pairs i = .ok a ∧ pairAt pairs' i = .ok b ∧ R a b) ∨
      pairAt pairs i = .error (.fault .oobRead) ∧ pairAt pairs' i = .error (.fault .oobRead) := by
  unfold pairAt
  rcases getElem?_rel h i with ⟨a, b, ha, hb, hab⟩ | ⟨ha, hb⟩
  · rw [ha, hb]
    exact .inl ⟨a, b, rfl, rfl, hab⟩
  · rw [ha, hb]
    exact .inr ⟨rfl, rfl⟩

/-- Lists of pairs with the same keys are sorted alike. -/
theorem sortIndices_congr {R : JsonPair → JsonPair → Prop} {pairs pairs' : List JsonPair}
    (hkey : ∀ {a b}, R a b → a.key.data = b.key.data) (h : List.Forall₂ R pairs pairs') :
    sortIndices ⟨pairs, true⟩ = sortIndices ⟨pairs', true⟩ := by
  have hcmp : jsonKeyCmp ⟨pairs, true⟩ = jsonKeyCmp ⟨pairs', true⟩ := by
    funext a b
    unfold jsonKeyCmp
    rcases pairAt_rel h a with ⟨pa, pa', hpa, hpa', hra⟩ | ⟨hpa, hpa'⟩
    · rw [scan_bind_ok hpa, scan_bind_ok hpa']
      rcases pairAt_rel h b with ⟨pb, pb', hpb, hpb', hrb⟩ | ⟨hpb, hpb'⟩
      · rw [scan_bind_ok hpb, scan_bind_ok hpb', keyOrd_lexical (hkey hra) (hkey hrb)]
      · rw [scan_bind_error hpb, scan_bind_error hpb']
    · rw [scan_bind_error hpa, scan_bind_error hpa']
  simp only [sortIndices, jsonIntrosort_congr hcmp, h.length_eq]

end SJson
