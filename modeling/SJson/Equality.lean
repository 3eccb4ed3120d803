/-
# Equality of values

What a document means is its value: arrays are lists, and objects are finite maps, whatever
the order of their pairs (`Value`).  Where no object repeats a key, `json_equal` decides
whether two trees without doubles have the same value (`jsonEqual_value`), and a copy is equal
to what it was copied from (`jsonClone_equal`).

An object that repeats a key has entries that are never looked up, and all this fails.
-/
import SJson.EqualSpec
import SJson.ParserAppend

namespace SJson

open ErrState ListRel OrderedMap

variable {D : Type} {h : Heap D}

/-! ## Values -/

/-- **What a document means.** -/
inductive Value (D : Type) where
  | null
  | bool (b : Bool)
  | int (i : Int64)
  | float (f : D)
  | str (data : List UInt8)
  | arr (items : List (Value D))
  | obj (get : List UInt8 → Option (Value D))

namespace Json

mutual

/-- The value of a tree. -/
def value : Json D → Value D
  | .null => .null
  | .bool b => .bool b
  | .int i => .int i
  | .float f => .float f
  | .str data => .str data
  | .arr items => .arr (valueArr items)
  | .obj pairs => .obj (valueObj pairs)
termination_by structural j => j

/-- The values of a list of trees. -/
def valueArr : List (Json D) → List (Value D)
  | [] => []
  | j :: items => value j :: valueArr items
termination_by structural items => items

/-- The map of a list of pairs; the first pair with a key counts. -/
def valueObj : List (List UInt8 × Json D) → List UInt8 → Option (Value D)
  | [], _ => none
  | (k, j) :: pairs, key => if k = key then some (value j) else valueObj pairs key
termination_by structural pairs => pairs

end

theorem valueArr_eq (items : List (Json D)) : valueArr items = items.map value := by
  induction items with
  | nil => rfl
  | cons j items ih => rw [valueArr, ih, List.map_cons]

theorem valueObj_eq (pairs : List (List UInt8 × Json D)) :
    valueObj pairs = valueIn (pairs.map fun kv => (kv.1, kv.2.value)) := by
  funext key
  induction pairs with
  | nil => rfl
  | cons kv pairs ih => rw [valueObj, List.map_cons, valueIn_cons, ih]

end Json

/-! ## Sameness of values -/

/-- The lookups of `json__equal` compare the maps that two lists of pairs stand for. -/
theorem pairs_same_iff (hrep : h.RepOk) {q : JsonPtr} (hq : q < h.next) {x y : JsonObj}
    (hnode : h.node q = .object y) {pairs pairs' : List (List UInt8 × Json D)}
    (hpairs : List.Forall₂ (PairDenotes (fun _ => True) h) pairs x.pairs)
    (hpairs' : List.Forall₂ (PairDenotes (fun _ => True) h) pairs' y.pairs)
    (hlook : ∀ pr ∈ x.pairs, pr.key.Ok)
    (hnodup : (pairs.map Prod.fst).Nodup) (hnodup' : (pairs'.map Prod.fst).Nodup)
    {same : JsonPtr → JsonPtr → Prop}
    (hsame : ∀ kv ∈ pairs, ∀ kv' ∈ pairs', ∀ pr ∈ x.pairs, ∀ pr' ∈ y.pairs,
      PairDenotes (fun _ => True) h kv pr → PairDenotes (fun _ => True) h kv' pr' →
      (same pr.val pr'.val ↔ kv.2.value = kv'.2.value)) :
    (x.pairs.length = y.pairs.length ∧
        ∀ pr ∈ x.pairs, ∃ w, jsonObjGetN h q pr.key.data = .ok w ∧ same pr.val w) ↔
      Json.valueObj pairs = Json.valueObj pairs' := by
  have hfst : ∀ l : List (List UInt8 × Json D),
      (l.map fun kv => (kv.1, kv.2.value)).map Prod.fst = l.map Prod.fst := fun l => by
    rw [List.map_map]
    rfl
  have hnodup_y : (y.pairs.map fun pr => pr.key.data).Nodup := by
    rwa [keys_of_denotes hpairs']
  rw [Json.valueObj_eq, Json.valueObj_eq,
    valueIn_eq_iff (by rwa [hfst]) (by rwa [hfst]), List.length_map, List.length_map,
    hpairs.length_eq, hpairs'.length_eq]
  refine and_congr_right fun _ => ⟨fun hall => ?_, fun hall pr hpr => ?_⟩
  · refine List.forall_mem_map.mpr fun kv hkv => (valueIn_iff (by rwa [hfst])).mpr ?_
    obtain ⟨pr, hpr, hden⟩ := forall₂_mem_left hpairs hkv
    obtain ⟨w, hw, hsame'⟩ := hall pr hpr
    -- the lookup returns the value of a pair with the key
    obtain ⟨pr', hpr', hkey, rfl⟩ := jsonObjGetN_mem hrep hq hnode (hlook pr hpr).lookable hw
    obtain ⟨kv', hkv', hden'⟩ := forall₂_mem_right hpairs' hpr'
    refine List.mem_map.mpr ⟨kv', hkv', Prod.ext ?_ ?_⟩
    · show kv'.1 = kv.1
      rw [← hden'.1, ← hden.1, hkey]
    · exact ((hsame kv hkv kv' hkv' pr hpr pr' hpr' hden hden').mp hsame').symm
  · obtain ⟨kv, hkv, hden⟩ := forall₂_mem_right hpairs hpr
    have hmem := (valueIn_iff (by rwa [hfst])).mp
      (hall (kv.1, kv.2.value) (List.mem_map.mpr ⟨kv, hkv, rfl⟩))
    obtain ⟨kv', hkv', heq⟩ := List.mem_map.mp hmem
    obtain ⟨hkey, hvalue⟩ := Prod.mk.inj heq
    obtain ⟨pr', hpr', hden'⟩ := forall₂_mem_left hpairs' hkv'
    refine ⟨pr'.val, ?_, (hsame kv hkv kv' hkv' pr hpr pr' hpr' hden hden').mpr hvalue.symm⟩
    rw [hden.1, ← hkey, ← hden'.1]
    exact jsonObjGetN_unique hrep hq hnode hnodup_y hpr'

variable [CDouble D]

/-- **Sameness is sameness of values**, down to `room` levels. -/
theorem Heap.same_iff_value (hrep : h.RepOk) : ∀ {room : ℕ} {j j' : Json D} {p q : JsonPtr},
    p < h.next → q < h.next → Denotes h j p → Denotes h j' q → j.FloatFree → j'.FloatFree →
    j.UniqueKeys → j'.UniqueKeys → j.levels ≤ room → j'.levels ≤ room →
    (h.Same room p q ↔ j.value = j'.value) := by
  intro room
  induction room with
  | zero =>
    intro j _ _ _ _ _ _ _ _ _ _ _ hroom _
    have := j.levels_pos
    omega
  | succ room ih =>
    intro j j' p q hp hq hj hj' hf hf' hu hu' hroom hroom'
    by_cases hpq : p = q
    · subst hpq
      rw [hj.unique hj']
      exact iff_of_true (.inl rfl) rfl
    · have hfit := hj.fits
      have hfit' := hj'.fits
      have hokp := hrep p hp
      have hokq := hrep q hq
      unfold Heap.Same
      simp only [hpq, false_or]
      cases hnp : h.node p with
      | array x =>
        rw [hnp] at hfit hokp
        obtain ⟨items, rfl, hitems⟩ := hj.of_array hnp
        have hle := Json.levelsArr_le.mp (Nat.le_of_succ_le_succ hroom)
        cases hnq : h.node q with
        | array y =>
          rw [hnq] at hokq
          obtain ⟨items', rfl, hitems'⟩ := hj'.of_array hnq
          have hle' := Json.levelsArr_le.mp (Nat.le_of_succ_le_succ hroom')
          simp only [Json.value, Json.valueArr_eq, Value.arr.injEq]
          exact forall₂_iff_map_eq hitems hitems' fun j hmem j' hmem' p' hp' q' hq' hden hden' =>
            ih (hokp.2 p' hp') (hokq.2 q' hq') hden hden' (Json.floatsArr_iff.mp hf j hmem)
              (Json.floatsArr_iff.mp hf' j' hmem') (Json.uniqueKeysArr_iff.mp hu j hmem)
              (Json.uniqueKeysArr_iff.mp hu' j' hmem') (hle j hmem) (hle' j' hmem')
        | _ =>
          -- the tree at `q` is of another kind, and the values differ in their constructors
          rw [hnq] at hfit'
          cases j' <;> first | exact hfit'.elim | exact iff_of_false id (by simp [Json.value])
      | object x =>
        rw [hnp] at hfit hokp
        obtain ⟨pairs, rfl, hpairs⟩ := hj.of_object hnp
        have hle := Json.levelsObj_le.mp (Nat.le_of_succ_le_succ hroom)
        cases hnq : h.node q with
        | object y =>
          rw [hnq] at hokq
          obtain ⟨pairs', rfl, hpairs'⟩ := hj'.of_object hnq
          have hle' := Json.levelsObj_le.mp (Nat.le_of_succ_le_succ hroom')
          simp only [Json.value, Value.obj.injEq]
          exact pairs_same_iff hrep hq hnq hpairs hpairs' (fun pr hpr => (hokp.2.1 pr hpr).1)
            hu.1 hu'.1 fun kv hmem kv' hmem' pr hpr pr' hpr' hden hden' =>
            ih (hokp.2.1 pr hpr).2 (hokq.2.1 pr' hpr').2 hden.2 hden'.2
              (Json.floatsObj_iff.mp hf kv hmem) (Json.floatsObj_iff.mp hf' kv' hmem')
              (Json.uniqueKeysObj_iff.mp hu.2 kv hmem) (Json.uniqueKeysObj_iff.mp hu'.2 kv' hmem')
              (hle kv hmem) (hle' kv' hmem')
        | _ =>
          rw [hnq] at hfit'
          cases j' <;> first | exact hfit'.elim | exact iff_of_false id (by simp [Json.value])
      | _ =>
        rw [hnp] at hfit
        cases j <;> first | exact hfit.elim | exact hf.elim | skip
        all_goals
          cases hnq : h.node q <;> rw [hnq] at hfit' <;> cases j' <;>
            first
            | exact hfit'.elim
            | exact hf'.elim
            | simp only [Json.Fits] at hfit hfit'
              subst_vars
              simp [Json.value]

/-- **Equality decides sameness of values.**  On two trees without doubles in which no object
repeats a key, of at most `JSON_MAX_DEPTH` levels, whichever of their objects have been
finalized. -/
theorem jsonEqual_value (hh : ApiHeap h) {a b : JsonPtr} (ha : a < h.next) (hb : b < h.next)
    {j j' : Json D} (hden : Denotes h j a) (hden' : Denotes h j' b) (hfree : j.FloatFree)
    (hfree' : j'.FloatFree) (hkeys : j.UniqueKeys) (hkeys' : j'.UniqueKeys)
    (hlevels : j.levels ≤ jsonMaxDepth) (hlevels' : j'.levels ≤ jsonMaxDepth) :
    ∃ r, jsonEqual h a b = .ok r ∧ (r = true ↔ j.value = j'.value) := by
  obtain ⟨r, hr, hiff⟩ := jsonEqual_same hh.repOk ha hb
  refine ⟨r, hr, hiff.trans ?_⟩
  exact Heap.same_iff_value hh.repOk ha hb hden hden' hfree hfree' hkeys hkeys' hlevels hlevels'

/-- Two texts, parsed one after the other. -/
theorem exists_parsed_two {A : Arena} (hA : A.Fresh) {src src' : List UInt8} {j j' : Json D}
    {n n' : ℕ} (hlen : src.length ≤ ptrdiffMax) (hlen' : src'.length ≤ ptrdiffMax)
    (href : refParse src 0 = .ok (j, n)) (href' : refParse src' 0 = .ok (j', n')) :
    ∃ v s w t, jsonParse src ⟨.empty, A⟩ = .ok v s ∧ jsonParse src' ⟨s.heap, A⟩ = .ok w t ∧
      ApiHeap t.heap ∧ v < t.heap.next ∧ w < t.heap.next ∧ Denotes t.heap j v ∧
      Denotes t.heap j' w := by
  obtain ⟨v, s, hparse, hapi, hv, -, hden, -⟩ := ApiHeap.empty.exists_parsed hlen href hA
  obtain ⟨w, t, hparse', hapi', hw, -, hden', hgrows⟩ := hapi.exists_parsed hlen' href' hA
  exact ⟨v, s, w, t, hparse, hparse', hapi', hv.trans_le hgrows.next, hw,
    hden.denotes.grows hapi.repOk hv hgrows, hden'.denotes⟩

/-- The texts `{"a":1,"b":2}` and `{"b":2,"a":1}` have equal values. -/
theorem jsonEqual_value_swapped :
    ∃ (_ : CDouble Unit) (h : Heap Unit) (a b : JsonPtr), ApiHeap h ∧
      jsonEqual h a b = .ok true := by
  obtain ⟨A, hA⟩ := Arena.exists_fresh
  let _ : CDouble Unit := .unit
  have href : refParse [0x7B, 0x22, 0x61, 0x22, 0x3A, 0x31, 0x2C, 0x22, 0x62, 0x22, 0x3A,
    0x32, 0x7D]
      0 = .ok ((.obj [([0x61], .int 1), ([0x62], .int 2)] : Json Unit), 3) := by rfl
  have href' : refParse [0x7B, 0x22, 0x62, 0x22, 0x3A, 0x32, 0x2C, 0x22, 0x61, 0x22, 0x3A,
    0x31, 0x7D]
      0 = .ok ((.obj [([0x62], .int 2), ([0x61], .int 1)] : Json Unit), 3) := by rfl
  obtain ⟨v, s, w, t, -, -, hapi, hv, hw, hden, hden'⟩ :=
    exists_parsed_two hA (by decide) (by decide) href href'
  have hunique : ∀ k k' i i', k ≠ k' →
      (Json.obj [(k, .int i), (k', .int i')] : Json Unit).UniqueKeys := fun k k' i i' hne =>
    ⟨by simpa using hne, trivial, trivial, trivial⟩
  have hfree : ∀ k k' i i', (Json.obj [(k, .int i), (k', .int i')] : Json Unit).FloatFree :=
    fun _ _ _ _ => ⟨trivial, trivial, trivial⟩
  obtain ⟨r, hr, hiff⟩ := jsonEqual_value hapi hv hw hden hden' (hfree ..) (hfree ..)
    (hunique _ _ _ _ (by decide)) (hunique _ _ _ _ (by decide)) (by decide) (by decide)
  refine ⟨_, t.heap, v, w, hapi, ?_⟩
  rw [hr, hiff.mpr]
  simp only [Json.value, Value.obj.injEq, Json.valueObj_eq]
  exact (valueIn_eq_iff (by decide) (by decide)).mpr ⟨rfl, by simp [valueIn_cons]⟩

/-! ## Finalized objects -/

/-- The second heap comes from the first by finalizing objects. -/
inductive Heap.Finalizes (h : Heap D) : Heap D → Prop
  | refl : h.Finalizes h
  | call {h' : Heap D} (v : JsonPtr) (A : Arena) (hfin : h.Finalizes h') (hv : v < h'.next) :
      h.Finalizes (stateAfter (jsonObjFinalize v) ⟨h', A⟩).heap

theorem Heap.Finalizes.apiHeap {h' : Heap D} (hfin : h.Finalizes h') (hh : ApiHeap h) :
    ApiHeap h' := by
  induction hfin with
  | refl => exact hh
  | call v A _ hv ih =>
    have hcall := ApiHeap.call (.objFinalize v) A ih (by simpa [ApiCall.args] using hv)
    rwa [ApiCall.run, stateAfter_map] at hcall

omit [CDouble D] in
/-- What a value denotes is in the pairs of its objects, not in their indices. -/
theorem DenotesIn.congr_pairs {ok ok' : JsonPtr → Prop} {h' : Heap D}
    (hsame : ∀ p, ok p → ok' p ∧ (h'.node p = h.node p ∨
      ∃ o o', h.node p = .object o ∧ h'.node p = .object o' ∧ o'.pairs = o.pairs))
    {j : Json D} : ∀ {p : JsonPtr}, DenotesIn ok h j p → DenotesIn ok' h' j p := by
  induction j using Json.tree_induction with
  | arr items ih =>
    intro p hp
    obtain ⟨hok, a, ha, hall⟩ := denotesIn_arr.mp hp
    obtain ⟨hok', hp'⟩ := hsame p hok
    have ha' : h'.node p = .array a := by
      rcases hp' with heq | ⟨o, -, ho, -⟩
      · rw [heq, ha]
      · rw [ha] at ho
        cases ho
    exact denotesIn_arr.mpr ⟨hok', a, ha', forall₂_imp_mem hall fun j hj q hq => ih j hj hq⟩
  | obj pairs ih =>
    intro p hp
    obtain ⟨hok, o, ho, hall⟩ := denotesIn_obj.mp hp
    obtain ⟨hok', hp'⟩ := hsame p hok
    have hall' := forall₂_imp_mem hall fun kv hkv pr hpr =>
      (⟨hpr.1, ih kv hkv hpr.2⟩ : PairDenotes ok' h' kv pr)
    rcases hp' with heq | ⟨o₁, o', ho₁, ho', hpairs⟩
    · exact denotesIn_obj.mpr ⟨hok', o, by rw [heq, ho], hall'⟩
    · rw [ho] at ho₁
      obtain rfl := JsonNode.object.inj ho₁
      exact denotesIn_obj.mpr ⟨hok', o', ho', hpairs ▸ hall'⟩
  | str data =>
    rintro p ⟨hok, s, hs, hdata⟩
    obtain ⟨hok', hp'⟩ := hsame p hok
    rcases hp' with heq | ⟨o, -, ho, -⟩
    · exact ⟨hok', s, by rw [heq, hs], hdata⟩
    · rw [hs] at ho
      cases ho
  | _ =>
    rintro p ⟨hok, hp⟩
    obtain ⟨hok', hp'⟩ := hsame p hok
    rcases hp' with heq | ⟨o, -, ho, -⟩
    · exact ⟨hok', by rw [heq, hp]⟩
    · rw [hp] at ho
      cases ho

omit [CDouble D] in
/-- The same, wherever the nodes are. -/
theorem Denotes.congr_pairs {h' : Heap D}
    (hsame : ∀ p, h'.node p = h.node p ∨
      ∃ o o', h.node p = .object o ∧ h'.node p = .object o' ∧ o'.pairs = o.pairs)
    {j : Json D} {p : JsonPtr} (hp : Denotes h j p) : Denotes h' j p :=
  DenotesIn.congr_pairs (fun q _ => ⟨trivial, hsame q⟩) hp

omit [CDouble D] in
/-- Finalizing gives at most one object an index. -/
theorem finalize_cases (hrep : h.RepOk) {v : JsonPtr} (hv : v < h.next) (A : Arena) :
    (stateAfter (jsonObjFinalize v) ⟨h, A⟩).heap = h ∨ ∃ o idx, h.node v = .object o ∧
      (stateAfter (jsonObjFinalize v) ⟨h, A⟩).heap =
        h.set v (.object { o with sortedIdx := some idx, isSorted := true }) := by
  cases hnode : h.node v with
  | object o =>
    rcases jsonObjFinalize_heap hrep hv hnode A with ⟨-, hheap⟩ | ⟨-, -, idx, -, -, hheap⟩
    · exact .inl hheap
    · exact .inr ⟨o, idx, rfl, hheap⟩
  | _ =>
    have hread : (readNode v : M D _) ⟨h, A⟩ = .ok (h.node v) ⟨h, A⟩ := rfl
    rw [hnode] at hread
    unfold stateAfter
    rw [jsonObjFinalize, bind_ok hread]
    exact .inl rfl

/-- Finalizing objects allocates no value. -/
theorem Heap.Finalizes.next {h' : Heap D} (hfin : h.Finalizes h') (hh : ApiHeap h) :
    h'.next = h.next := by
  induction hfin with
  | refl => rfl
  | call v A hfin hv ih =>
    rcases finalize_cases (hfin.apiHeap hh).repOk hv A with hheap | ⟨o, idx, -, hheap⟩
    · rwa [hheap]
    · rw [hheap]
      exact ih

/-- Finalizing objects changes nothing of what a value denotes. -/
theorem Denotes.finalizes {h' : Heap D} (hfin : h.Finalizes h') (hh : ApiHeap h) {j : Json D}
    {p : JsonPtr} (hp : Denotes h j p) : Denotes h' j p := by
  induction hfin with
  | refl => exact hp
  | call v A hfin hv ih =>
    rcases finalize_cases (hfin.apiHeap hh).repOk hv A with hheap | ⟨o, idx, hnode, hheap⟩
    · rwa [hheap]
    · rw [hheap]
      refine ih.congr_pairs fun p => ?_
      by_cases hpv : p = v
      · subst hpv
        exact .inr ⟨o, _, hnode, Heap.set_node_self .., rfl⟩
      · exact .inl (Heap.set_node_ne _ _ hpv)

/-! ## Objects and integers -/

theorem Heap.same_object {room : ℕ} {p q : JsonPtr} (hpq : p ≠ q) {x y : JsonObj}
    (hx : h.node p = .object x) (hy : h.node q = .object y) :
    h.Same (room + 1) p q ↔ x.pairs.length = y.pairs.length ∧
      ∀ pr ∈ x.pairs, ∃ w, jsonObjGetN h q pr.key.data = .ok w ∧ h.Same room pr.val w := by
  rw [Heap.Same]
  simp only [hpq, false_or, hx, hy]

/-- Integers are the same exactly if they are equal. -/
theorem Heap.same_int (hrep : h.RepOk) {room : ℕ} (hroom : 1 ≤ room) {p q : JsonPtr}
    (hp : p < h.next) (hq : q < h.next) {i i' : Int64} (hden : Denotes h (.int i) p)
    (hden' : Denotes h (.int i') q) : h.Same room p q ↔ i = i' := by
  rw [Heap.same_iff_value hrep hp hq hden hden' trivial trivial trivial trivial hroom hroom]
  simp [Json.value]

/-! ## Copies -/

/-- What a text was parsed to has as many levels as equality, the writer and copies follow. -/
theorem jsonParse_levels {src : List UInt8} (hlen : src.length ≤ ptrdiffMax) {s s' : St D}
    {v : JsonPtr} (hparse : jsonParse src s = .ok v s') :
    ∃ j : Json D, Denotes s'.heap j v ∧ j.levels ≤ jsonMaxDepth := by
  obtain ⟨j, href, hden⟩ := jsonParse_ref_or_oom hlen hparse
  have hnest := (refParse_from_iff.mp href).2.1
  exact ⟨j, hden.denotes, Json.levels_le_maxDepth hnest⟩

/-- **A copy equals its original**, in both orders, where pairs of one object with the same
key have the same value. -/
theorem jsonClone_equal (hbeq : ∀ f : D, CDouble.beq f f = true) (hh : ApiHeap h)
    {src : List UInt8} (hlen : src.length ≤ ptrdiffMax) {A : Arena} {v : JsonPtr} {s : St D}
    (hparse : jsonParse src ⟨h, A⟩ = .ok v s) {h' : Heap D} (hfin : s.heap.Finalizes h')
    {j : Json D} (hden : Denotes s.heap j v) (hkeys : j.KeysAgree) {B : Arena}
    (hroom : B.Roomy j.copyCost) (hcount : B.nodeCount + j.nodes ≤ jsonMaxNodes) :
    ∃ c s', jsonClone v ⟨h', B⟩ = .ok (some c) s' ∧ jsonEqual s'.heap v c = .ok true ∧
      jsonEqual s'.heap c v = .ok true := by
  obtain ⟨hapi, hv, -⟩ := hh.parse hparse
  obtain ⟨j', hden', hlevels⟩ := jsonParse_levels hlen hparse
  obtain rfl := hden.unique hden'
  have hapi' := hfin.apiHeap hapi
  have hv' : v < h'.next := by rwa [hfin.next hapi]
  have hden' : Denotes h' j v := hden.finalizes hfin hapi
  obtain ⟨c, s', hclone, hgrows, hcopy, -⟩ :=
    jsonClone_denotes hapi'.repOk hv' hden' hlevels hroom hcount
  have hrep := (hapi'.clone hv' hclone).repOk
  have hv'' : v < s'.heap.next := hv'.trans_le hgrows.next
  have hc : c < s'.heap.next := hcopy.ok.2
  have hden'' : Denotes s'.heap j v := hden'.grows hapi'.repOk hv' hgrows
  refine ⟨c, s', hclone, ?_, ?_⟩
  · obtain ⟨r, hr, hiff⟩ := jsonEqual_same hrep hv'' hc
    rwa [hiff.mpr (.of_denotes hrep hbeq hv'' hc hden'' hcopy.denotes hkeys hlevels)] at hr
  · obtain ⟨r, hr, hiff⟩ := jsonEqual_same hrep hc hv''
    rwa [hiff.mpr (.of_denotes hrep hbeq hc hv'' hcopy.denotes hden'' hkeys hlevels)] at hr

/-- Neither comparison of `{"a":1,"a":2}` with its copy succeeds: the second value is compared
with what the lookup finds for its key, and so is the first. -/
theorem jsonClone_unequal :
    ∃ (_ : CDouble Unit) (A : Arena) (v c : JsonPtr) (s t : St Unit), A.Fresh ∧
      jsonParse [0x7B, 0x22, 0x61, 0x22, 0x3A, 0x31, 0x2C, 0x22, 0x61, 0x22, 0x3A, 0x32, 0x7D]
        ⟨.empty, A⟩ = .ok v s ∧ jsonClone v ⟨s.heap, A⟩ = .ok (some c) t ∧
      jsonEqual t.heap v c = .ok false ∧ jsonEqual t.heap c v = .ok false := by
  obtain ⟨A, hA⟩ := Arena.exists_fresh
  let _ : CDouble Unit := .unit
  have href : refParse [0x7B, 0x22, 0x61, 0x22, 0x3A, 0x31, 0x2C, 0x22, 0x61, 0x22, 0x3A,
    0x32, 0x7D]
      0 = .ok ((.obj [([0x61], .int 1), ([0x61], .int 2)] : Json Unit), 3) := by rfl
  obtain ⟨v, s, hparse, hapi, hv, -, hden, -⟩ := ApiHeap.empty.exists_parsed (by decide) href hA
  obtain ⟨c, t, hclone, hgrows, hcopy, -⟩ := jsonClone_denotes hapi.repOk hv hden.denotes
    (by decide) (hA.roomy (by decide)) (by rw [hA.nodeCount]; decide)
  have hrep := (hapi.clone hv hclone).repOk
  have hv' : v < t.heap.next := hv.trans_le hgrows.next
  have hc : c < t.heap.next := hcopy.ok.2
  have hne : v ≠ c := Nat.ne_of_lt (hv.trans_le hcopy.ok.1)
  have hden' := hden.denotes.grows hapi.repOk hv hgrows
  have hfalse : ∀ p q, p ≠ q → p < t.heap.next → q < t.heap.next →
      Denotes t.heap (.obj [([0x61], .int 1), ([0x61], .int 2)]) p →
      Denotes t.heap (.obj [([0x61], .int 1), ([0x61], .int 2)]) q →
      jsonEqual t.heap p q = .ok false := by
    intro p q hpq hp hq hjp hjq
    obtain ⟨-, x, hx, hxs⟩ := denotesIn_obj.mp hjp
    obtain ⟨-, y, hy, hys⟩ := denotesIn_obj.mp hjq
    have hokx := hrep p hp
    have hoky := hrep q hq
    rw [hx] at hokx
    rw [hy] at hoky
    obtain ⟨r, hr, hiff⟩ := jsonEqual_same hrep hp hq
    suffices hfalse : r = false from hfalse ▸ hr
    rw [← Bool.not_eq_true, hiff]
    intro hsame
    obtain ⟨-, hall⟩ := (Heap.same_object hpq hx hy).mp hsame
    obtain ⟨pr₁, hpr₁, hkey₁, hval₁⟩ := forall₂_mem_left hxs List.mem_cons_self
    obtain ⟨pr₂, hpr₂, hkey₂, hval₂⟩ :=
      forall₂_mem_left hxs (List.mem_cons_of_mem _ List.mem_cons_self)
    obtain ⟨w, hw, hsame₁⟩ := hall pr₁ hpr₁
    obtain ⟨w', hw', hsame₂⟩ := hall pr₂ hpr₂
    rw [hkey₁] at hw
    rw [hkey₂, hw] at hw'
    obtain rfl := Except.ok.inj hw'
    -- what is found for the key is an integer, equal to both
    obtain ⟨i, hi, hwlt⟩ : ∃ i, Denotes t.heap (.int i) w ∧ w < t.heap.next := by
      obtain ⟨pr, hpr, -, rfl⟩ := jsonObjGetN_mem hrep hq hy (by decide) hw
      obtain ⟨kv, hkv, -, hval⟩ := forall₂_mem_right hys hpr
      simp only [List.mem_cons, List.not_mem_nil, or_false] at hkv
      rcases hkv with rfl | rfl <;> exact ⟨_, hval, (hoky.2.1 pr hpr).2⟩
    have h₁ := (Heap.same_int hrep (by decide) (hokx.2.1 pr₁ hpr₁).2 hwlt hval₁ hi).mp hsame₁
    have h₂ := (Heap.same_int hrep (by decide) (hokx.2.1 pr₂ hpr₂).2 hwlt hval₂ hi).mp hsame₂
    exact absurd (h₁.trans h₂.symm) (by decide)
  exact ⟨_, A, v, c, s, t, hA, hparse, hclone, hfalse v c hne hv' hc hden' hcopy.denotes,
    hfalse c v hne.symm hc hv' hcopy.denotes hden'⟩

/-- The value of `{"a":1}` equals its copy. -/
theorem jsonClone_equal_one :
    ∃ (_ : CDouble Unit) (A : Arena) (v c : JsonPtr) (s t : St Unit),
      jsonParse [0x7B, 0x22, 0x61, 0x22, 0x3A, 0x31, 0x7D] ⟨.empty, A⟩ = .ok v s ∧
      jsonClone v ⟨s.heap, A⟩ = .ok (some c) t ∧ jsonEqual t.heap v c = .ok true ∧
      jsonEqual t.heap c v = .ok true := by
  obtain ⟨A, hA⟩ := Arena.exists_fresh
  let _ : CDouble Unit := .unit
  have href : refParse [0x7B, 0x22, 0x61, 0x22, 0x3A, 0x31, 0x7D] 0
      = .ok ((.obj [([0x61], .int 1)] : Json Unit), 2) := by rfl
  obtain ⟨v, s, hparse, -, -, -, hden, -⟩ := ApiHeap.empty.exists_parsed (by decide) href hA
  obtain ⟨c, t, hclone, heq⟩ := jsonClone_equal (fun _ => rfl) .empty (by decide) hparse .refl
    hden.denotes (Json.UniqueKeys.agree ⟨by decide, trivial, trivial⟩) (hA.roomy (by decide))
    (by rw [hA.nodeCount]; decide)
  exact ⟨_, A, v, c, s, t, hparse, hclone, heq⟩

end SJson
