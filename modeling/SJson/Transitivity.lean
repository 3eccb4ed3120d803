/-
# Transitivity of equality

`json_equal` compares two integers, and two doubles, as they are, and an integer and a double
by converting the integer.  Below `2^53` the conversion is exact; above, a double is equal to
several integers that are not equal to one another.

So equality is transitive but for this: a double in the middle, facing a different integer on
either side (`Heap.Clash`, `jsonEqual_trans_iff`), at any depth of arrays and objects.
-/
import SJson.EqualSpec
import SJson.Traversal
import SJson.Double

namespace SJson

open ErrState ListRel

variable {D : Type} {h : Heap D}

/-! ## Corresponding places -/

/-- No object that is reached from `p` repeats a key. -/
def Heap.UniqueKeys (h : Heap D) (p : JsonPtr) : Prop :=
  ∀ q o, Relation.ReflTransGen h.Child p q → h.node q = .object o →
    (o.pairs.map fun pr => pr.key.data).Nodup

/-- At one place of three values, the same in each, there are an integer, a double and another
integer. -/
inductive Heap.Clash (h : Heap D) : JsonPtr → JsonPtr → JsonPtr → Prop
  | integers {p q r : JsonPtr} {i k : Int64} {f : D} (hp : h.node p = .integer i)
      (hq : h.node q = .float f) (hr : h.node r = .integer k) (hne : i ≠ k) : h.Clash p q r
  | item {p q r p' q' r' : JsonPtr} {x y z : JsonArr} {n : ℕ} (hp : h.node p = .array x)
      (hq : h.node q = .array y) (hr : h.node r = .array z) (hp' : x.items[n]? = some p')
      (hq' : y.items[n]? = some q') (hr' : z.items[n]? = some r') (hclash : h.Clash p' q' r') :
      h.Clash p q r
  | member {p q r : JsonPtr} {x y z : JsonObj} {pr pr' pr'' : JsonPair}
      (hp : h.node p = .object x) (hq : h.node q = .object y) (hr : h.node r = .object z)
      (hpr : pr ∈ x.pairs) (hpr' : pr' ∈ y.pairs) (hpr'' : pr'' ∈ z.pairs)
      (hkey : pr'.key.data = pr.key.data) (hkey' : pr''.key.data = pr.key.data)
      (hclash : h.Clash pr.val pr'.val pr''.val) : h.Clash p q r

theorem Heap.UniqueKeys.child {p q : JsonPtr} (hp : h.UniqueKeys p) (hpq : h.Child p q) :
    h.UniqueKeys q :=
  fun q' o hreach => hp q' o (.head hpq hreach)

theorem Heap.UniqueKeys.item {p q : JsonPtr} {x : JsonArr} (hp : h.UniqueKeys p)
    (hnode : h.node p = .array x) (hq : q ∈ x.items) : h.UniqueKeys q := by
  apply hp.child
  rw [Heap.Child, hnode]
  exact hq

theorem Heap.UniqueKeys.member {p : JsonPtr} {x : JsonObj} {pr : JsonPair} (hp : h.UniqueKeys p)
    (hnode : h.node p = .object x) (hpr : pr ∈ x.pairs) : h.UniqueKeys pr.val := by
  apply hp.child
  rw [Heap.Child, hnode]
  exact ⟨pr, hpr, rfl⟩

/-- No value clashes with itself: there is one value at each place. -/
theorem Heap.Clash.ne {p q r : JsonPtr} (hclash : h.Clash p q r) (hkeys : h.UniqueKeys p) :
    p ≠ r := by
  induction hclash with
  | integers hp hq hr hne =>
    rintro rfl
    rw [hp] at hr
    cases hr
    exact hne rfl
  | item hp hq hr hp' hq' hr' _ ih =>
    rintro rfl
    rw [hp] at hr
    cases hr
    rw [hp'] at hr'
    exact ih (hkeys.item hp (List.mem_of_getElem? hp')) (Option.some.inj hr')
  | member hp hq hr hpr hpr' hpr'' hkey hkey' _ ih =>
    rintro rfl
    rw [hp] at hr
    cases hr
    refine ih (hkeys.member hp hpr) ?_
    rw [List.inj_on_of_nodup_map (hkeys _ _ .refl hp) hpr'' hpr hkey']

/-! ## Composing comparisons -/

variable [CDouble D]

/-- **Sameness is transitive but for clashes.** -/
theorem Heap.Same.trans (hrep : h.RepOk) (hbeq : ∀ f g k : D, CDouble.beq f g = true →
    CDouble.beq g k = true → CDouble.beq f k = true) : ∀ {room : ℕ} {p q r : JsonPtr},
    p < h.next → q < h.next → r < h.next → h.Same room p q → h.Same room q r →
    ¬ h.Clash p q r → h.Same room p r := by
  intro room
  induction room with
  | zero => exact fun _ _ _ hpq hqr _ => Eq.trans hpq hqr
  | succ room ih =>
    intro p q r hp hq hr hpq hqr hclash
    have hokp := hrep p hp
    have hokq := hrep q hq
    have hokr := hrep r hr
    -- a pointer that is compared with itself drops out
    rcases eq_or_ne p q with rfl | hne
    · exact hqr
    rcases eq_or_ne q r with rfl | hne'
    · exact hpq
    unfold Heap.Same at hpq hqr ⊢
    refine .inr ?_
    replace hpq := hpq.resolve_left hne
    replace hqr := hqr.resolve_left hne'
    cases hnq : h.node q with
    | array y =>
      cases hnp : h.node p with
      | array x =>
        cases hnr : h.node r with
        | array z =>
          simp only [hnp, hnq, hnr] at hpq hqr hokp hokq hokr ⊢
          refine forall₂_trans_of hpq hqr fun i p' q' r' hp' hq' hr' => ?_
          exact fun hpq' hqr' => ih (hokp.2 p' (List.mem_of_getElem? hp'))
            (hokq.2 q' (List.mem_of_getElem? hq')) (hokr.2 r' (List.mem_of_getElem? hr')) hpq' hqr'
            fun hclash' => hclash (.item hnp hnq hnr hp' hq' hr' hclash')
        | _ => simp [hnq, hnr] at hqr
      | _ => simp [hnp, hnq] at hpq
    | object y =>
      cases hnp : h.node p with
      | object x =>
        cases hnr : h.node r with
        | object z =>
          simp only [hnp, hnq, hnr] at hpq hqr hokp hokq hokr ⊢
          obtain ⟨hlen, hall⟩ := hpq
          obtain ⟨hlen', hall'⟩ := hqr
          refine ⟨hlen.trans hlen', fun pr hpr => ?_⟩
          -- the pair that is found in the second object has its key looked up in the third
          obtain ⟨hkeyOk, hval⟩ := hokp.2.1 pr hpr
          obtain ⟨w, hget, hsame⟩ := hall pr hpr
          obtain ⟨pr', hpr', hkey, rfl⟩ := jsonObjGetN_mem hrep hq hnq hkeyOk.lookable hget
          obtain ⟨w', hget', hsame'⟩ := hall' pr' hpr'
          rw [hkey] at hget'
          obtain ⟨pr'', hpr'', hkey', rfl⟩ := jsonObjGetN_mem hrep hr hnr hkeyOk.lookable hget'
          exact ⟨_, hget', ih hval (hokq.2.1 pr' hpr').2 (hokr.2.1 pr'' hpr'').2 hsame hsame'
            fun hclash' => hclash (.member hnp hnq hnr hpr hpr' hpr'' hkey hkey' hclash')⟩
        | _ => simp [hnq, hnr] at hqr
      | _ => simp [hnp, hnq] at hpq
    | float g =>
      cases hnp : h.node p with
      | integer i =>
        cases hnr : h.node r with
        | integer k =>
          by_contra hne''
          exact hclash (.integers hnp hnq hnr hne'')
        | float k =>
          simp only [hnp, hnq, hnr] at hpq hqr ⊢
          exact hbeq _ _ _ hpq hqr
        | _ => simp [hnq, hnr] at hqr
      | float f =>
        cases hnr : h.node r <;> simp only [hnp, hnq, hnr] at hpq hqr ⊢
        · exact hbeq _ _ _ hpq hqr
        · exact hbeq _ _ _ hpq hqr
      | _ => simp [hnp, hnq] at hpq
    | integer j =>
      cases hnp : h.node p with
      | integer i =>
        cases hnr : h.node r <;> simp only [hnp, hnq, hnr] at hpq hqr ⊢
        · exact hpq.trans hqr
        · rwa [hpq]
      | float f =>
        cases hnr : h.node r <;> simp only [hnp, hnq, hnr] at hpq hqr ⊢
        · rwa [← hqr]
        · exact hbeq _ _ _ hpq hqr
      | _ => simp [hnp, hnq] at hpq
    | null =>
      cases hnp : h.node p <;> simp only [hnp, hnq] at hpq
      cases hnr : h.node r <;> simp only [hnq, hnr] at hqr ⊢
    | _ =>
      cases hnp : h.node p <;> simp only [hnp, hnq] at hpq
      cases hnr : h.node r <;> simp only [hnq, hnr] at hqr ⊢
      exact hpq.trans hqr

/-- The outer values of a clash are not the same. -/
theorem Heap.Clash.not_same (hrep : h.RepOk) {p q r : JsonPtr} (hclash : h.Clash p q r) :
    ∀ {room : ℕ}, p < h.next → r < h.next → h.UniqueKeys p → h.UniqueKeys r →
      ¬ h.Same room p r := by
  induction hclash with
  | integers hp hq hr hne =>
    intro room _ _ hkeys _ hsame
    have hpr := (Heap.Clash.integers hp hq hr hne).ne hkeys
    cases room with
    | zero => exact hpr hsame
    | succ room =>
      unfold Heap.Same at hsame
      rw [hp, hr] at hsame
      exact hne (hsame.resolve_left hpr)
  | item hp hq hr hp' hq' hr' hclash ih =>
    intro room hlt hlt' hkeys hkeys' hsame
    have hpr := (Heap.Clash.item hp hq hr hp' hq' hr' hclash).ne hkeys
    cases room with
    | zero => exact hpr hsame
    | succ room =>
      have hokp := hrep _ hlt
      have hokr := hrep _ hlt'
      unfold Heap.Same at hsame
      rw [hp, hr] at hsame
      rw [hp] at hokp
      rw [hr] at hokr
      have hmem := List.mem_of_getElem? hp'
      have hmem' := List.mem_of_getElem? hr'
      exact ih (hokp.2 _ hmem) (hokr.2 _ hmem') (hkeys.item hp hmem) (hkeys'.item hr hmem')
        (forall₂_getElem? (hsame.resolve_left hpr) hp' hr')
  | member hp hq hr hpr hpr' hpr'' hkey hkey' hclash ih =>
    intro room hlt hlt' hkeys hkeys' hsame
    have hne := (Heap.Clash.member hp hq hr hpr hpr' hpr'' hkey hkey' hclash).ne hkeys
    cases room with
    | zero => exact hne hsame
    | succ room =>
      have hokp := hrep _ hlt
      have hokr := hrep _ hlt'
      unfold Heap.Same at hsame
      rw [hp, hr] at hsame
      rw [hp] at hokp
      rw [hr] at hokr
      obtain ⟨w, hget, hsame'⟩ := (hsame.resolve_left hne).2 _ hpr
      -- the lookup finds the pair of the clash, as no other has its key
      rw [← hkey', jsonObjGetN_unique hrep hlt' hr (hkeys' _ _ .refl hr) hpr''] at hget
      obtain rfl := Except.ok.inj hget
      exact ih (hokp.2.1 _ hpr).2 (hokr.2.1 _ hpr'').2 (hkeys.member hp hpr)
        (hkeys'.member hr hpr'') hsame'

/-! ## Numbers -/

omit [CDouble D]

/-- What holds no other value repeats no key. -/
theorem Heap.UniqueKeys.of_leaf {p : JsonPtr} (hleaf : ∀ q, ¬ h.Child p q)
    (hnode : ∀ o, h.node p ≠ .object o) : h.UniqueKeys p := by
  intro q o hreach ho
  cases hreach using Relation.ReflTransGen.head_induction_on with
  | refl => exact absurd ho (hnode o)
  | head hchild _ _ => exact absurd hchild (hleaf _)

theorem Heap.UniqueKeys.of_integer {p : JsonPtr} {i : Int64} (hp : h.node p = .integer i) :
    h.UniqueKeys p := by
  refine .of_leaf (fun q => ?_) fun o ho => ?_
  · rw [Heap.Child, hp]
    exact not_false
  · rw [hp] at ho
    cases ho

theorem Heap.UniqueKeys.of_float {p : JsonPtr} {f : D} (hp : h.node p = .float f) :
    h.UniqueKeys p := by
  refine .of_leaf (fun q => ?_) fun o ho => ?_
  · rw [Heap.Child, hp]
    exact not_false
  · rw [hp] at ho
    cases ho

/-- Clients can make a node with any contents but storage. -/
theorem ApiHeap.exists_made [CDouble D] (hh : ApiHeap h) {c : ApiCall D} {n : JsonNode D}
    (hrun : c.run = makeNode n) (hargs : c.args = []) :
    ∃ h', ApiHeap h' ∧ h'.next = h.next + 1 ∧ h'.node h.next = n ∧
      ∀ p, p < h.next → h'.node p = h.node p := by
  obtain ⟨A, hA⟩ := Arena.exists_fresh
  have hapi := hh.call c A (by rw [hargs]; exact fun _ hp => absurd hp List.not_mem_nil)
  rcases makeNode_cases n h A with ⟨A', hmake⟩ | ⟨hno, -⟩
  · rw [hrun, stateAfter_ok hmake] at hapi
    refine ⟨_, hapi, rfl, Heap.set_node_self .., fun p hp => ?_⟩
    exact (h.new.set_node_ne n (Nat.ne_of_lt hp)).trans (h.new_node_lt hp)
  · exact absurd hA hno

/-- Clients can make an integer, a double and an integer. -/
theorem ApiHeap.exists_numbers [CDouble D] (i k : Int64) {f : D}
    (hf : CDouble.nonFinite f = false) :
    ∃ (h : Heap D) (a b c : JsonPtr), ApiHeap h ∧ a < b ∧ b < c ∧ c < h.next ∧
      h.node a = .integer i ∧ h.node b = .float f ∧ h.node c = .integer k := by
  obtain ⟨h₁, hapi₁, hnext₁, ha, -⟩ :=
    (ApiHeap.empty (D := D)).exists_made (c := .makeInt i) (n := .integer i) rfl rfl
  have hmake : (ApiCall.makeFloat f).run = makeNode (.float f) := by
    rw [ApiCall.run, jsonMakeFloat, hf]
    rfl
  obtain ⟨h₂, hapi₂, hnext₂, hb, hold₂⟩ := hapi₁.exists_made hmake rfl
  obtain ⟨h₃, hapi₃, hnext₃, hc, hold₃⟩ :=
    hapi₂.exists_made (c := .makeInt k) (n := .integer k) rfl rfl
  have hab : (.empty : Heap D).next < h₁.next := hnext₁ ▸ Nat.lt_succ_self _
  have hbc : h₁.next < h₂.next := hnext₂ ▸ Nat.lt_succ_self _
  have hlt : h₂.next < h₃.next := hnext₃ ▸ Nat.lt_succ_self _
  refine ⟨h₃, (.empty : Heap D).next, h₁.next, h₂.next, hapi₃, hab, hbc, hlt, ?_, ?_, hc⟩
  · rw [hold₃ _ (hab.trans hbc), hold₂ _ hab, ha]
  · rw [hold₃ _ hbc, hb]

theorem jsonEqual_of_ne [CDouble D] {p q : JsonPtr} (hne : p ≠ q) :
    ∃ equal, jsonEqual h p q = equalNodes h equal q (h.node p) (h.node q) :=
  ⟨_, if_neg hne⟩

/-- `2 ^ 53` and the integer above it are converted to one double. -/
theorem ofInt64_succ : (CDouble.ofInt64 9007199254740993 : Double)
    = CDouble.ofInt64 9007199254740992 := by
  have hnat : ∀ n : ℕ, (((n : ℤ) : ℚ)) = n := fun n => Int.cast_natCast n
  have heven : Int64.toInt 9007199254740992 = ((9007199254740992 : ℕ) : ℤ) := by decide
  have hodd : Int64.toInt 9007199254740993 = ((9007199254740993 : ℕ) : ℤ) := by decide
  rw [Double.ofInt64_eq, Double.ofInt64_eq, heven, hodd, hnat, hnat]
  have hunits : unitsOf ((9007199254740993 : ℕ) : ℚ) = unitsOf ((9007199254740992 : ℕ) : ℚ) := by
    rw [unitsOf_nat, unitsOf_nat]
    decide +kernel
  have hfin : unitsOf ((9007199254740993 : ℕ) : ℚ) < topUnits :=
    unitsOf_lt (k := 54) (by positivity) (by norm_num) (by decide)
  exact (Double.round_eq_iff false hfin).mpr hunits

/-- `json_equal` on an integer and a double, in either order. -/
theorem jsonEqual_integer_float [CDouble D] {p q : JsonPtr} {i : Int64} {f : D}
    (hp : h.node p = .integer i) (hq : h.node q = .float f) :
    jsonEqual h p q = .ok (CDouble.beq (CDouble.ofInt64 i) f) ∧
      jsonEqual h q p = .ok (CDouble.beq f (CDouble.ofInt64 i)) := by
  have hne : p ≠ q := by
    rintro rfl
    rw [hp] at hq
    cases hq
  obtain ⟨equal, heq⟩ := jsonEqual_of_ne (h := h) hne
  obtain ⟨equal', heq'⟩ := jsonEqual_of_ne (h := h) hne.symm
  rw [heq, heq', hp, hq]
  exact ⟨rfl, rfl⟩

/-- A finite double equals itself. -/
theorem Double.beq_self {f : Double} (hf : CDouble.nonFinite f = false) :
    CDouble.beq f f = true := by
  cases f with
  | finite a x =>
    change Double.beq (.finite a x) (.finite a x) = true
    simp [Double.beq]
  | inf a => cases hf
  | nan => cases hf

/-- Conversions of integers are finite. -/
theorem Double.nonFinite_ofInt64 (i : Int64) :
    CDouble.nonFinite (CDouble.ofInt64 i : Double) = false := by
  have hlt : |((i.toInt : ℤ) : ℚ)| < 2 ^ 64 := by
    rw [← Int.cast_abs]
    have habs : |i.toInt| < 2 ^ 64 := by
      have := i.toInt_lt
      have := i.le_toInt
      rw [abs_lt]
      constructor <;> omega
    exact_mod_cast habs
  have hfin := unitsOf_lt (abs_nonneg _) hlt (by decide)
  rw [unitsOf_abs] at hfin
  rw [Double.ofInt64_eq, Double.round_of_lt _ hfin]
  rfl

/-! ## Transitivity -/

/-- **Equality is transitive, across integers and doubles, but for clashes.**  For values that
clients can build, without repeated keys: two comparisons that succeed compose, unless at some
place the outer values hold different integers and the middle one a double. -/
theorem jsonEqual_trans_iff {h : Heap Double} (hh : ApiHeap h) {a b c : JsonPtr}
    (ha : a < h.next) (hb : b < h.next) (hc : c < h.next) (hkeys : h.UniqueKeys a)
    (hkeys' : h.UniqueKeys c) (hab : jsonEqual h a b = .ok true)
    (hbc : jsonEqual h b c = .ok true) :
    jsonEqual h a c = .ok true ↔ ¬ h.Clash a b c := by
  have hrep := hh.repOk
  have hsame : ∀ {p q}, p < h.next → q < h.next →
      (jsonEqual h p q = .ok true ↔ h.Same jsonMaxDepth p q) := by
    intro p q hp hq
    obtain ⟨r, hr, hiff⟩ := jsonEqual_same hrep hp hq
    rw [hr, ← hiff, Except.ok.injEq]
  rw [hsame ha hc]
  constructor
  · exact fun hac hclash => hclash.not_same hrep ha hc hkeys hkeys' hac
  · exact ((hsame ha hb).mp hab).trans hrep Double.beq_trans ha hb hc ((hsame hb hc).mp hbc)

/-- The integers `2 ^ 53 + 1` and `2 ^ 53` are both equal to the double `2 ^ 53`, and not to
each other. -/
theorem jsonEqual_not_trans : ∃ (h : Heap Double) (a b c : JsonPtr), ApiHeap h ∧
    a < h.next ∧ b < h.next ∧ c < h.next ∧ h.UniqueKeys a ∧ h.UniqueKeys b ∧ h.UniqueKeys c ∧
    h.node a = .integer 9007199254740993 ∧ h.node c = .integer 9007199254740992 ∧
    h.node b = .float (CDouble.ofInt64 9007199254740992) ∧
    jsonEqual h a b = .ok true ∧ jsonEqual h b c = .ok true ∧ jsonEqual h a c = .ok false := by
  have hfin := Double.nonFinite_ofInt64 9007199254740992
  obtain ⟨h, a, b, c, hapi, hab, hbc, hc, hnode, hnode', hnode''⟩ :=
    ApiHeap.exists_numbers 9007199254740993 9007199254740992 hfin
  obtain ⟨equal, heq⟩ := jsonEqual_of_ne (h := h) (Nat.ne_of_lt (hab.trans hbc))
  refine ⟨h, a, b, c, hapi, hab.trans (hbc.trans hc), hbc.trans hc, hc, .of_integer hnode,
    .of_float hnode', .of_integer hnode'', hnode, hnode'', hnode', ?_, ?_, ?_⟩
  · rw [(jsonEqual_integer_float hnode hnode').1, ofInt64_succ, Double.beq_self hfin]
  · rw [(jsonEqual_integer_float hnode'' hnode').2, Double.beq_self hfin]
  · rw [heq, hnode, hnode'']
    rfl

/-- Two nodes with the integer one and a node with the double one. -/
theorem jsonEqual_trans_one : ∃ (h : Heap Double) (a b c : JsonPtr), a < b ∧ b < c ∧
    h.node b = .float (CDouble.ofInt64 1) ∧ jsonEqual h a c = .ok true := by
  have hfin := Double.nonFinite_ofInt64 1
  obtain ⟨h, a, b, c, hapi, hab, hbc, hc, hnode, hnode', hnode''⟩ :=
    ApiHeap.exists_numbers 1 1 hfin
  refine ⟨h, a, b, c, hab, hbc, hnode', ?_⟩
  refine (@jsonEqual_trans_iff h hapi a b c (hab.trans (hbc.trans hc)) (hbc.trans hc) hc
    (.of_integer hnode) (.of_integer hnode'') ?_ ?_).mpr ?_
  · rw [(jsonEqual_integer_float hnode hnode').1, Double.beq_self hfin]
  · rw [(jsonEqual_integer_float hnode'' hnode').2, Double.beq_self hfin]
  · rintro (⟨hi, -, hk, hne⟩ | ⟨hp, -⟩ | ⟨hp, -⟩)
    · rw [hnode] at hi
      rw [hnode''] at hk
      cases hi
      cases hk
      exact hne rfl
    · rw [hnode] at hp
      cases hp
    · rw [hnode] at hp
      cases hp

end SJson
