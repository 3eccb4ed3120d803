/-
# Symmetry of equality

`json__equal` looks up the keys of the first object in the second, which decides the same in
both orders as long as the objects repeat no key.  `json_parse` keeps repeated keys, and then
equality can hold in one order only (`jsonEqual_asymmetric`).

Two values are compared place by place (`Heap.Facing`).  They compare alike in both orders if
they are unlike at some place, or if repeated keys are met at none (`jsonEqual_symm`); only
values that are alike as far as the first repeated keys are left out.  What these compare to
depends on every comparison behind the repeated keys (`jsonEqual_symm_iff_twice`).
-/
import SJson.Equality
import SJson.Transitivity

namespace SJson

open ErrState ListRel

variable {D : Type} {h : Heap D}

/-! ## Places -/

/-- The keys of an object, in order. -/
def JsonObj.keys (o : JsonObj) : List (List UInt8) := o.pairs.map fun pr => pr.key.data

theorem JsonObj.mem_keys {o : JsonObj} {k : List UInt8} :
    k ∈ o.keys ↔ ∃ pr ∈ o.pairs, pr.key.data = k := List.mem_map

/-- `p'` and `q'` are at the same place of `p` and `q`: the same indexes lead to them, in
arrays as long as each other, and the same keys, in objects with equally many pairs that have
these keys once. -/
inductive Heap.Facing (h : Heap D) : JsonPtr → JsonPtr → JsonPtr → JsonPtr → Prop
  | here (p q : JsonPtr) : h.Facing p q p q
  | item {p q p' q' p'' q'' : JsonPtr} {x y : JsonArr} {n : ℕ} (hne : p ≠ q)
      (hp : h.node p = .array x) (hq : h.node q = .array y)
      (hlen : x.items.length = y.items.length) (hp' : x.items[n]? = some p')
      (hq' : y.items[n]? = some q') (hface : h.Facing p' q' p'' q'') : h.Facing p q p'' q''
  | member {p q p'' q'' : JsonPtr} {x y : JsonObj} {pr pr' : JsonPair} (hne : p ≠ q)
      (hp : h.node p = .object x) (hq : h.node q = .object y)
      (hlen : x.pairs.length = y.pairs.length) (hpr : pr ∈ x.pairs) (hpr' : pr' ∈ y.pairs)
      (hkey : pr'.key.data = pr.key.data) (honce : occurs x.pairs pr.key.data ≤ 1)
      (honce' : occurs y.pairs pr.key.data ≤ 1) (hface : h.Facing pr.val pr'.val p'' q'') :
      h.Facing p q p'' q''

/-- Two values are unlike at the first look: they are of different kinds, other contents or
other lengths, or objects that each have a key which the other lacks. -/
def Heap.Unlike [CDouble D] (h : Heap D) (p q : JsonPtr) : Prop :=
  p ≠ q ∧ match h.node p, h.node q with
    | .null, .null => False
    | .bool x, .bool y => x ≠ y
    | .integer i, .integer j => i ≠ j
    | .float f, .float g => CDouble.beq f g = false
    | .integer i, .float g => CDouble.beq (CDouble.ofInt64 i) g = false
    | .float f, .integer j => CDouble.beq f (CDouble.ofInt64 j) = false
    | .string s, .string t => s.data ≠ t.data
    | .array x, .array y => x.items.length ≠ y.items.length
    | .object x, .object y => x.pairs.length ≠ y.pairs.length ∨
        (∃ k ∈ x.keys, k ∉ y.keys) ∧ ∃ k ∈ y.keys, k ∉ x.keys
    | _, _ => True

/-- Two objects with equally many pairs, of which one repeats a key. -/
def Heap.Repeat (h : Heap D) (p q : JsonPtr) : Prop :=
  p ≠ q ∧ ∃ x y, h.node p = .object x ∧ h.node q = .object y ∧
    x.pairs.length = y.pairs.length ∧ ¬ (x.keys.Nodup ∧ y.keys.Nodup)

theorem Heap.Facing.symm {p q p' q' : JsonPtr} (hface : h.Facing p q p' q') :
    h.Facing q p q' p' := by
  induction hface with
  | here p q => exact .here q p
  | item hne hp hq hlen hp' hq' _ ih => exact .item hne.symm hq hp hlen.symm hq' hp' ih
  | member hne hp hq hlen hpr hpr' hkey honce honce' _ ih =>
    exact .member hne.symm hq hp hlen.symm hpr' hpr hkey.symm (hkey ▸ honce') (hkey ▸ honce) ih

theorem Heap.Repeat.symm {p q : JsonPtr} (hrepeat : h.Repeat p q) : h.Repeat q p := by
  obtain ⟨hne, x, y, hp, hq, hlen, hnot⟩ := hrepeat
  exact ⟨hne.symm, y, x, hq, hp, hlen.symm, fun hnodup => hnot hnodup.symm⟩

theorem Heap.Unlike.symm [CDouble D] (hbeq : ∀ f g : D, CDouble.beq f g = CDouble.beq g f)
    {p q : JsonPtr} (hunlike : h.Unlike p q) : h.Unlike q p := by
  obtain ⟨hne, hunlike⟩ := hunlike
  refine ⟨hne.symm, ?_⟩
  cases hnp : h.node p <;> cases hnq : h.node q <;> simp only [hnp, hnq] at hunlike ⊢
  case bool.bool | integer.integer | string.string | array.array => exact hunlike.symm
  case float.float | integer.float | float.integer => rwa [hbeq]
  case object.object => exact hunlike.imp Ne.symm And.symm

variable [CDouble D]

/-- Values that are unlike at the first look are not the same. -/
theorem Heap.Unlike.not_same (hrep : h.RepOk) {p q : JsonPtr} (hunlike : h.Unlike p q)
    (hp : p < h.next) (hq : q < h.next) (room : ℕ) : ¬ h.Same room p q := by
  obtain ⟨hne, hunlike⟩ := hunlike
  intro hsame
  cases room with
  | zero => exact hne hsame
  | succ room =>
    have hokp := hrep p hp
    unfold Heap.Same at hsame
    replace hsame := hsame.resolve_left hne
    cases hnp : h.node p with
    | object x =>
      cases hnq : h.node q with
      | object y =>
        simp only [hnp, hnq] at hunlike hsame hokp
        obtain ⟨hlen, hall⟩ := hsame
        obtain ⟨⟨k, hk, hnot⟩, -⟩ := hunlike.resolve_left (not_not.mpr hlen)
        -- the lookup of the key that is missing fails
        obtain ⟨pr, hpr, rfl⟩ := JsonObj.mem_keys.mp hk
        obtain ⟨w, hw, -⟩ := hall pr hpr
        obtain ⟨pr', hpr', hkey, -⟩ :=
          jsonObjGetN_mem hrep hq hnq (hokp.2.1 pr hpr).1.lookable hw
        exact hnot (JsonObj.mem_keys.mpr ⟨pr', hpr', hkey⟩)
      | _ => simp [hnp, hnq] at hsame
    | array x =>
      cases hnq : h.node q with
      | array y =>
        simp only [hnp, hnq] at hunlike hsame
        exact hunlike hsame.length_eq
      | _ => simp [hnp, hnq] at hsame
    | _ => cases hnq : h.node q <;> simp_all

/-- **Values that are unlike at some place are not the same.** -/
theorem Heap.Facing.not_same (hrep : h.RepOk) {p q p' q' : JsonPtr}
    (hface : h.Facing p q p' q') (hunlike : h.Unlike p' q') :
    p < h.next → q < h.next → ∀ room, ¬ h.Same room p q := by
  induction hface with
  | here p q => exact fun hp hq room => hunlike.not_same hrep hp hq room
  | item hne hx hy _ hp' hq' _ ih =>
    intro hp hq room hsame
    cases room with
    | zero => exact hne hsame
    | succ room =>
      have hokp := hrep _ hp
      have hokq := hrep _ hq
      unfold Heap.Same at hsame
      rw [hx, hy] at hsame
      rw [hx] at hokp
      rw [hy] at hokq
      exact ih hunlike (hokp.2 _ (List.mem_of_getElem? hp')) (hokq.2 _ (List.mem_of_getElem? hq'))
        room (forall₂_getElem? (hsame.resolve_left hne) hp' hq')
  | member hne hx hy _ hpr hpr' hkey _ honce' _ ih =>
    intro hp hq room hsame
    cases room with
    | zero => exact hne hsame
    | succ room =>
      have hokp := hrep _ hp
      have hokq := hrep _ hq
      unfold Heap.Same at hsame
      rw [hx, hy] at hsame
      rw [hx] at hokp
      rw [hy] at hokq
      obtain ⟨w, hget, hsame'⟩ := (hsame.resolve_left hne).2 _ hpr
      rw [← hkey, jsonObjGetN_mem_once hrep hq hy hpr' (hkey ▸ honce')] at hget
      obtain rfl := Except.ok.inj hget
      exact ih hunlike (hokp.2.1 _ hpr).2 (hokq.2.1 _ hpr').2 room hsame'

/-- Keys of which all are among others, which are as many, are these. -/
theorem keys_subset_of_length {l l' : List (List UInt8)} (hnodup : l.Nodup)
    (hlen : l'.length = l.length) (hsub : ∀ k ∈ l, k ∈ l') : ∀ k ∈ l', k ∈ l := by
  have hperm := (hnodup.subperm hsub).perm_of_length_le hlen.le
  exact fun k hk => hperm.mem_iff.mpr hk

/-- **Sameness is symmetric** where no repeated keys are met. -/
theorem Heap.Same.symm (hrep : h.RepOk)
    (hbeq : ∀ f g : D, CDouble.beq f g = CDouble.beq g f) : ∀ {room : ℕ} {p q : JsonPtr},
    p < h.next → q < h.next → (∀ p' q', h.Facing p q p' q' → ¬ h.Repeat p' q') →
    h.Same room p q → h.Same room q p := by
  intro room
  induction room with
  | zero => exact fun _ _ _ hsame => Eq.symm hsame
  | succ room ih =>
    intro p q hp hq hmeet hsame
    by_cases hne : p = q
    · exact hne ▸ hsame
    have hokp := hrep p hp
    have hokq := hrep q hq
    unfold Heap.Same at hsame ⊢
    refine .inr ?_
    replace hsame := hsame.resolve_left hne
    cases hnp : h.node p with
    | array x =>
      cases hnq : h.node q with
      | array y =>
        simp only [hnp, hnq] at hsame hokp hokq ⊢
        refine List.forall₂_iff_get.mpr ⟨hsame.length_eq.symm, fun n hn hn' => ?_⟩
        have hx : x.items[n]? = some (x.items.get ⟨n, hn'⟩) := List.getElem?_eq_getElem hn'
        have hy : y.items[n]? = some (y.items.get ⟨n, hn⟩) := List.getElem?_eq_getElem hn
        exact ih (hokp.2 _ (List.get_mem ..)) (hokq.2 _ (List.get_mem ..))
          (fun p' q' hface => hmeet p' q' (.item hne hnp hnq hsame.length_eq hx hy hface))
          (forall₂_getElem? hsame hx hy)
      | _ => simp [hnp, hnq] at hsame
    | object x =>
      cases hnq : h.node q with
      | object y =>
        simp only [hnp, hnq] at hsame hokp hokq ⊢
        obtain ⟨hlen, hall⟩ := hsame
        obtain ⟨hnodup, hnodup'⟩ : x.keys.Nodup ∧ y.keys.Nodup := by
          by_contra hnot
          exact hmeet p q (.here p q) ⟨hne, x, y, hnp, hnq, hlen, hnot⟩
        refine ⟨hlen.symm, fun pr' hpr' => ?_⟩
        -- the keys of the one are those of the other
        have hsub : ∀ k ∈ x.keys, k ∈ y.keys := by
          refine List.forall_mem_map.mpr fun pr hpr => ?_
          obtain ⟨w, hw, -⟩ := hall pr hpr
          obtain ⟨pr'', hpr'', hkey, -⟩ :=
            jsonObjGetN_mem hrep hq hnq (hokp.2.1 pr hpr).1.lookable hw
          exact JsonObj.mem_keys.mpr ⟨pr'', hpr'', hkey⟩
        obtain ⟨pr, hpr, hkey⟩ := JsonObj.mem_keys.mp (keys_subset_of_length hnodup
          (by simpa [JsonObj.keys] using hlen.symm) hsub _
          (JsonObj.mem_keys.mpr ⟨pr', hpr', rfl⟩))
        have honce := occurs_le_one_of_nodup hnodup pr.key.data
        have honce' := occurs_le_one_of_nodup hnodup' pr'.key.data
        obtain ⟨w, hw, hsame'⟩ := hall pr hpr
        rw [hkey, jsonObjGetN_mem_once hrep hq hnq hpr' honce'] at hw
        obtain rfl := Except.ok.inj hw
        refine ⟨pr.val, ?_, ih (hokp.2.1 pr hpr).2 (hokq.2.1 pr' hpr').2 (fun p' q' hface => ?_)
          hsame'⟩
        · rw [← hkey]
          exact jsonObjGetN_mem_once hrep hp hnp hpr honce
        · exact hmeet p' q' (.member hne hnp hnq hlen hpr hpr' hkey.symm honce
            (hkey ▸ honce') hface)
      | _ => simp [hnp, hnq] at hsame
    | integer i =>
      cases hnq : h.node q <;> simp only [hnp, hnq] at hsame ⊢
      · exact hsame.symm
      · rwa [hbeq]
    | float f =>
      cases hnq : h.node q <;> simp only [hnp, hnq] at hsame ⊢
      · rwa [hbeq]
      · rwa [hbeq]
    | _ => cases hnq : h.node q <;> simp only [hnp, hnq] at hsame ⊢ <;> exact hsame.symm

/-! ## Symmetry of equality -/

/-- An object that has one key twice, and an object that has it once and another key.  The
second is not equal to the first, and the first is equal to the second if both its values are
equal to the one value they are compared with. -/
theorem jsonEqual_twice (hrep : h.RepOk) {p q : JsonPtr} (hp : p < h.next) (hq : q < h.next)
    {x y : JsonObj} (hx : h.node p = .object x) (hy : h.node q = .object y)
    {pr₁ pr₂ pr₁' pr₂' : JsonPair} (hpairs : x.pairs = [pr₁, pr₂])
    (hpairs' : y.pairs = [pr₁', pr₂']) (htwice : pr₂.key.data = pr₁.key.data)
    (hkey : pr₁'.key.data = pr₁.key.data) (hother : pr₂'.key.data ≠ pr₁.key.data) :
    jsonEqual h q p = .ok false ∧ ∃ r, jsonEqual h p q = .ok r ∧
      (r = true ↔ h.Same (jsonMaxDepth - 1) pr₁.val pr₁'.val ∧
        h.Same (jsonMaxDepth - 1) pr₂.val pr₁'.val) := by
  have hne : p ≠ q := by
    rintro rfl
    rw [hx] at hy
    obtain rfl := JsonNode.object.inj hy
    rw [hpairs] at hpairs'
    obtain ⟨-, rfl⟩ : pr₁ = pr₁' ∧ pr₂ = pr₂' := by simpa using hpairs'
    exact hother htwice
  have hoky := hrep q hq
  rw [hy] at hoky
  have hmem : pr₁' ∈ y.pairs := by simp [hpairs']
  have hmem' : pr₂' ∈ y.pairs := by simp [hpairs']
  constructor
  · obtain ⟨r, hr, hiff⟩ := jsonEqual_same hrep hq hp
    suffices hfalse : r = false from hfalse ▸ hr
    rw [← Bool.not_eq_true, hiff]
    intro hsame
    -- the other key is not found
    obtain ⟨w, hw, -⟩ := ((Heap.same_object hne.symm hy hx).mp hsame).2 pr₂' hmem'
    obtain ⟨pr, hpr, hkey', -⟩ :=
      jsonObjGetN_mem hrep hp hx (hoky.2.1 pr₂' hmem').1.lookable hw
    rw [hpairs, List.mem_pair] at hpr
    rcases hpr with rfl | rfl
    · exact hother hkey'.symm
    · exact hother (hkey'.symm.trans htwice)
  · obtain ⟨r, hr, hiff⟩ := jsonEqual_same hrep hp hq
    have hiff : r = true ↔ h.Same (jsonMaxDepth - 1 + 1) p q := hiff
    refine ⟨r, hr, hiff.trans ((Heap.same_object hne hx hy).trans ?_)⟩
    have honce : occurs y.pairs pr₁'.key.data ≤ 1 := by
      rw [hpairs', hkey]
      simp [occurs, hkey, hother]
    have hget := jsonObjGetN_mem_once hrep hq hy hmem honce
    rw [hkey] at hget
    have hlen : x.pairs.length = y.pairs.length := by rw [hpairs, hpairs']; rfl
    rw [and_iff_right hlen, hpairs]
    simp [htwice, hget]

/-- Whether two objects compare alike in both orders, of which one has a key twice, is decided
by equality of the values behind it. -/
theorem jsonEqual_symm_iff_twice (hrep : h.RepOk) {p q : JsonPtr} (hp : p < h.next)
    (hq : q < h.next) {x y : JsonObj} (hx : h.node p = .object x) (hy : h.node q = .object y)
    {pr₁ pr₂ pr₁' pr₂' : JsonPair} (hpairs : x.pairs = [pr₁, pr₂])
    (hpairs' : y.pairs = [pr₁', pr₂']) (htwice : pr₂.key.data = pr₁.key.data)
    (hkey : pr₁'.key.data = pr₁.key.data) (hother : pr₂'.key.data ≠ pr₁.key.data) :
    (∃ r, jsonEqual h p q = .ok r ∧ jsonEqual h q p = .ok r) ↔
      ¬ (jsonEqualAt h (jsonMaxDepth - 1) pr₁.val pr₁'.val = .ok true ∧
        jsonEqualAt h (jsonMaxDepth - 1) pr₂.val pr₁'.val = .ok true) := by
  obtain ⟨hfalse, r, hr, hiff⟩ :=
    jsonEqual_twice hrep hp hq hx hy hpairs hpairs' htwice hkey hother
  have hval : ∀ {o : JsonObj} {v : JsonPtr} {pr : JsonPair}, v < h.next → h.node v = .object o →
      pr ∈ o.pairs → pr.val < h.next := by
    intro o v pr hv ho hpr
    have hok := hrep v hv
    rw [ho] at hok
    exact (hok.2.1 pr hpr).2
  have hsame : ∀ pr ∈ x.pairs, (jsonEqualAt h (jsonMaxDepth - 1) pr.val pr₁'.val = .ok true ↔
      h.Same (jsonMaxDepth - 1) pr.val pr₁'.val) := by
    intro pr hpr
    obtain ⟨r', hr', hiff'⟩ := @jsonEqualAt_same _ _ _ hrep (jsonMaxDepth - 1) _ _
      (hval hp hx hpr) (hval hq hy (show pr₁' ∈ y.pairs by simp [hpairs']))
    rw [hr', ← hiff', Except.ok.injEq]
  rw [hsame pr₁ (by simp [hpairs]), hsame pr₂ (by simp [hpairs]), ← hiff, hr, hfalse]
  cases r <;> simp

end SJson
