/-
# Windows of an array

An array is a function from indices to cells, and the algorithms of a sort work on the
cells from `lo` to `hi`.

* `PermOn lo hi f g`: `g` is `f` with the cells of the window permuted;
* `AllOn`, `SortedOn`: what holds of the cells of a window, one by one and in order;
* `HeapOn r b k n f`: the cells from `b` on are a heap of the nodes `0, …, n`, as far as
  the parents from `k` on are concerned (`Sinking.sink` is the step of sifting down,
  `HeapOn.root` the maximum).

The order is a relation that is transitive and total.
-/
import Mathlib

namespace Window

universe u

variable {α : Type u} {lo hi : ℕ} {f g h : ℕ → α}

/-! ## Permuted windows -/

/-- `g` is `f` with the cells from `lo` to `hi` permuted. -/
def PermOn (lo hi : ℕ) (f g : ℕ → α) : Prop :=
  ∃ σ : Equiv.Perm ℕ, (∀ i, i < lo ∨ hi < i → σ i = i) ∧ g = f ∘ σ

theorem PermOn.refl (lo hi : ℕ) (f : ℕ → α) : PermOn lo hi f f := ⟨1, fun _ _ => rfl, rfl⟩

theorem PermOn.trans (hfg : PermOn lo hi f g) (hgh : PermOn lo hi g h) : PermOn lo hi f h := by
  obtain ⟨σ, hσ, rfl⟩ := hfg
  obtain ⟨τ, hτ, rfl⟩ := hgh
  refine ⟨σ * τ, fun i hi => ?_, rfl⟩
  rw [Equiv.Perm.mul_apply, hτ i hi, hσ i hi]

theorem PermOn.mono {lo' hi' : ℕ} (hp : PermOn lo hi f g) (hlo : lo' ≤ lo) (hhi : hi ≤ hi') :
    PermOn lo' hi' f g := by
  obtain ⟨σ, hσ, hg⟩ := hp
  exact ⟨σ, fun i hi => hσ i (by omega), hg⟩

/-- Two cells exchanged. -/
def swap (f : ℕ → α) (i j : ℕ) : ℕ → α := Function.update (Function.update f i (f j)) j (f i)

theorem swap_eq (f : ℕ → α) (i j : ℕ) : swap f i j = f ∘ Equiv.swap i j := by
  funext k
  unfold swap
  rw [Function.comp_apply, Equiv.swap_apply_def, Function.update_apply, Function.update_apply]
  by_cases hj : k = j
  · subst hj
    by_cases hi : k = i
    · rw [if_pos rfl, if_pos hi, hi]
    · rw [if_pos rfl, if_neg hi, if_pos rfl]
  · rw [if_neg hj, if_neg hj]
    exact (apply_ite f (k = i) j k).symm

@[simp] theorem swap_right (f : ℕ → α) (i j : ℕ) : swap f i j j = f i := by
  rw [swap_eq, Function.comp_apply, Equiv.swap_apply_right]

@[simp] theorem swap_left (f : ℕ → α) (i j : ℕ) : swap f i j i = f j := by
  rw [swap_eq, Function.comp_apply, Equiv.swap_apply_left]

theorem swap_of_ne {i j k : ℕ} (f : ℕ → α) (hi : k ≠ i) (hj : k ≠ j) : swap f i j k = f k := by
  rw [swap_eq, Function.comp_apply, Equiv.swap_apply_of_ne_of_ne hi hj]

theorem permOn_swap {i j : ℕ} (f : ℕ → α) (h : lo ≤ i ∧ i ≤ hi) (h' : lo ≤ j ∧ j ≤ hi) :
    PermOn lo hi f (swap f i j) := by
  refine ⟨Equiv.swap i j, fun k hk => ?_, swap_eq f i j⟩
  exact Equiv.swap_apply_of_ne_of_ne (by omega) (by omega)

/-- Outside the window nothing changes. -/
theorem PermOn.outside {i : ℕ} (hp : PermOn lo hi f g) (h : i < lo ∨ hi < i) : g i = f i := by
  obtain ⟨σ, hσ, rfl⟩ := hp
  rw [Function.comp_apply, hσ i h]

/-- A cell of the window comes from the window. -/
theorem PermOn.inside {i : ℕ} (hp : PermOn lo hi f g) (hlo : lo ≤ i) (hhi : i ≤ hi) :
    ∃ k, lo ≤ k ∧ k ≤ hi ∧ g i = f k := by
  obtain ⟨σ, hσ, rfl⟩ := hp
  refine ⟨σ i, ?_, ?_, rfl⟩
  · by_contra hc
    have := σ.injective (hσ (σ i) (.inl (not_le.mp hc)))
    omega
  · by_contra hc
    have := σ.injective (hσ (σ i) (.inr (not_le.mp hc)))
    omega

/-- Cells of a list that holds each number of the window once are permuted as a list. -/
theorem PermOn.map_perm {l : List ℕ} (hp : PermOn lo hi f g) (hnodup : l.Nodup)
    (hl : ∀ i, lo ≤ i → i ≤ hi → i ∈ l) : (l.map g).Perm (l.map f) := by
  obtain ⟨σ, hσ, rfl⟩ := hp
  have hmem : ∀ i ∈ l, σ i ∈ l := by
    intro i hi'
    by_cases hout : σ i < lo ∨ hi < σ i
    · rwa [σ.injective (hσ (σ i) hout)]
    · exact hl (σ i) (by omega) (by omega)
  have hsub : (l.map σ).Subperm l :=
    List.Nodup.subperm (hnodup.map σ.injective) fun i hi' => by
      obtain ⟨k, hk, rfl⟩ := List.mem_map.mp hi'
      exact hmem k hk
  have hperm := hsub.perm_of_length_le (by simp)
  rw [← List.map_map]
  exact hperm.map f

/-- The first cells are permuted as a list. -/
theorem PermOn.map_range {n : ℕ} (hp : PermOn lo hi f g) (hn : hi < n) :
    ((List.range n).map g).Perm ((List.range n).map f) :=
  hp.map_perm List.nodup_range fun i _ hi' => List.mem_range.mpr (by omega)

/-! ## Properties of the cells of a window -/

/-- All cells from `lo` to `hi` satisfy `P`. -/
def AllOn (lo hi : ℕ) (P : α → Prop) (f : ℕ → α) : Prop := ∀ i, lo ≤ i → i ≤ hi → P (f i)

theorem PermOn.allOn {P : α → Prop} (hp : PermOn lo hi f g) (h : AllOn lo hi P f) :
    AllOn lo hi P g := by
  intro i hlo hhi
  obtain ⟨k, hklo, hkhi, heq⟩ := hp.inside hlo hhi
  rw [heq]
  exact h k hklo hkhi

/-- A window around the permuted one keeps what holds of all its cells. -/
theorem PermOn.allOn_of_le {lo' hi' : ℕ} {P : α → Prop} (hp : PermOn lo hi f g) (hlo : lo' ≤ lo)
    (hhi : hi ≤ hi') (h : AllOn lo' hi' P f) : AllOn lo' hi' P g :=
  (hp.mono hlo hhi).allOn h

/-- A window beside the permuted one is not touched. -/
theorem PermOn.allOn_beside {lo' hi' : ℕ} {P : α → Prop} (hp : PermOn lo hi f g)
    (hside : hi' < lo ∨ hi < lo') (h : AllOn lo' hi' P f) : AllOn lo' hi' P g := by
  intro i hlo hhi
  rw [hp.outside (by omega)]
  exact h i hlo hhi

/-- The cells from `lo` to `hi` are in order. -/
def SortedOn (r : α → α → Prop) (lo hi : ℕ) (f : ℕ → α) : Prop :=
  ∀ i j, lo ≤ i → i ≤ j → j ≤ hi → r (f i) (f j)

theorem PermOn.sortedOn_beside {r : α → α → Prop} {lo' hi' : ℕ} (hp : PermOn lo hi f g)
    (hside : hi' < lo ∨ hi < lo') (h : SortedOn r lo' hi' f) : SortedOn r lo' hi' g := by
  intro i j hlo hij hhi
  rw [hp.outside (show i < lo ∨ hi < i by omega), hp.outside (show j < lo ∨ hi < j by omega)]
  exact h i j hlo hij hhi

variable {r : α → α → Prop} [IsTrans α r] [Std.Total r]

omit [IsTrans α r] in
theorem sortedOn_of_le (hle : hi ≤ lo) (f : ℕ → α) : SortedOn r lo hi f := by
  intro i j hlo hij hhi
  obtain rfl : i = j := by omega
  exact refl_of r (f i)

/-- Two sorted windows beside a cell that separates them. -/
theorem SortedOn.join {m : ℕ} (hlo : lo ≤ m) (hhi : m ≤ hi)
    (hleft : ∀ i j, lo ≤ i → i ≤ j → j < m → r (f i) (f j)) (hright : SortedOn r (m + 1) hi f)
    (hbelow : ∀ i, lo ≤ i → i < m → r (f i) (f m)) (habove : AllOn (m + 1) hi (r (f m)) f) :
    SortedOn r lo hi f := by
  intro i j hi hij hj
  rcases Nat.lt_trichotomy j m with hjm | rfl | hjm
  · exact hleft i j hi hij hjm
  · rcases Nat.eq_or_lt_of_le hij with rfl | hlt
    · exact refl_of r (f i)
    · exact hbelow i hi hlt
  · rcases Nat.lt_trichotomy i m with him | rfl | him
    · exact trans_of r (hbelow i hi him) (habove j hjm hj)
    · exact habove j hjm hj
    · exact hright i j him hij hj

/-! ## Partitions -/

/-- The cells below `m` are not above the one at `m`, and those behind it not below. -/
structure Parted (r : α → α → Prop) (lo m hi : ℕ) (f : ℕ → α) : Prop where
  lt : lo < m
  le : m ≤ hi
  below : AllOn lo (m - 1) (fun x => r x (f m)) f
  above : AllOn (m + 1) hi (r (f m)) f

omit [IsTrans α r] [Std.Total r] in
/-- Permuting the left part keeps the partition. -/
theorem Parted.left {m : ℕ} (hm : Parted r lo m hi f) (hp : PermOn lo (m - 1) f g) :
    Parted r lo m hi g := by
  have hlt := hm.lt
  have hpivot : g m = f m := hp.outside (.inr (by omega))
  refine ⟨hlt, hm.le, ?_, ?_⟩
  · rw [hpivot]
    exact hp.allOn hm.below
  · rw [hpivot]
    exact hp.allOn_beside (.inr (by omega)) hm.above

omit [IsTrans α r] [Std.Total r] in
/-- Permuting the right part keeps the partition. -/
theorem Parted.right {m : ℕ} (hm : Parted r lo m hi f) (hp : PermOn (m + 1) hi f g) :
    Parted r lo m hi g := by
  have hlt := hm.lt
  have hpivot : g m = f m := hp.outside (.inl (by omega))
  refine ⟨hlt, hm.le, ?_, ?_⟩
  · rw [hpivot]
    exact hp.allOn_beside (.inl (by omega)) hm.below
  · rw [hpivot]
    exact hp.allOn hm.above

/-- A partition with both parts in order is in order. -/
theorem Parted.sorted {m : ℕ} (hm : Parted r lo m hi f) (hl : SortedOn r lo (m - 1) f)
    (hr : SortedOn r (m + 1) hi f) : SortedOn r lo hi f := by
  have hlt := hm.lt
  refine SortedOn.join hlt.le hm.le ?_ hr ?_ hm.above
  · intro i j hi hij hj
    exact hl i j hi hij (by omega)
  · intro i hi hj
    exact hm.below i hi (by omega)

/-! ## Insertion -/

/-- The cells from `lo` to `i` are in order but for the one at `j`, which is not above
the cells behind it. -/
structure Inserting (r : α → α → Prop) (lo i j : ℕ) (f : ℕ → α) : Prop where
  others : ∀ a b, lo ≤ a → a ≤ b → b ≤ i → a ≠ j → b ≠ j → r (f a) (f b)
  above : ∀ b, j < b → b ≤ i → r (f j) (f b)

omit [IsTrans α r] [Std.Total r] in
theorem SortedOn.inserting {i : ℕ} (hs : ∀ a b, lo ≤ a → a ≤ b → b < i → r (f a) (f b)) :
    Inserting r lo i i f where
  others := fun a b ha hab hb _ hne => hs a b ha hab (by omega)
  above := fun b hb hbi => absurd hbi (by omega)

/-- The cell is in its place when it is not below the cell before it. -/
theorem Inserting.done {i j : ℕ} (hs : Inserting r lo i j f) (hj : j ≤ i)
    (hbelow : lo < j → r (f (j - 1)) (f j)) : SortedOn r lo i f := by
  intro a b ha hab hb
  by_cases haj : a = j
  · subst haj
    rcases Nat.eq_or_lt_of_le hab with rfl | hlt
    · exact refl_of r _
    · exact hs.above b hlt hb
  by_cases hbj : b = j
  · subst hbj
    refine trans_of r (hs.others a (b - 1) ha (by omega) (by omega) haj (by omega)) ?_
    exact hbelow (by omega)
  · exact hs.others a b ha hab hb haj hbj

omit [IsTrans α r] [Std.Total r] in
/-- The cell moves down past one that is above it. -/
theorem Inserting.shift {i j : ℕ} (hs : Inserting r lo i (j + 1) f) (hlo : lo ≤ j) (hj : j + 1 ≤ i)
    (hle : r (f (j + 1)) (f j)) : Inserting r lo i j (swap f (j + 1) j) := by
  have hcell : ∀ a, a ≠ j → swap f (j + 1) j a = f (if a = j + 1 then j else a) := by
    intro a ha
    by_cases ha' : a = j + 1
    · rw [if_pos ha', ha', swap_left]
    · rw [if_neg ha', swap_of_ne f ha' ha]
  constructor
  · intro a b ha hab hb haj hbj
    rw [hcell a haj, hcell b hbj]
    split_ifs
    · exact hs.others j j hlo le_rfl (by omega) (by omega) (by omega)
    · exact hs.others j b hlo (by omega) hb (by omega) (by omega)
    · exact hs.others a j ha (by omega) (by omega) (by omega) (by omega)
    · exact hs.others a b ha hab hb (by omega) (by omega)
  · intro b hjb hb
    rw [swap_right, hcell b (by omega)]
    split_ifs
    · exact hle
    · exact hs.above b (by omega) hb

/-! ## Heaps -/

/-- `c` is a child of `p`. -/
def IsChild (c p : ℕ) : Prop := c = 2 * p + 1 ∨ c = 2 * p + 2

/-- The parents from `k` on are not below their children among the nodes up to `n`; the
nodes are the cells from `b` on. -/
def HeapOn (r : α → α → Prop) (b k n : ℕ) (f : ℕ → α) : Prop :=
  ∀ p c, k ≤ p → IsChild c p → c ≤ n → r (f (b + c)) (f (b + p))

/-- A heap from `k` on, except at the parent `x`, where the children of `x` are not
above the parent of `x`. -/
structure Sinking (r : α → α → Prop) (b k n x : ℕ) (f : ℕ → α) : Prop where
  le : k ≤ x
  other : ∀ p c, k ≤ p → p ≠ x → IsChild c p → c ≤ n → r (f (b + c)) (f (b + p))
  grand : ∀ p c, k ≤ p → IsChild x p → IsChild c x → c ≤ n → r (f (b + c)) (f (b + p))

omit [IsTrans α r] [Std.Total r] in
theorem HeapOn.sinking {b k n : ℕ} (hheap : HeapOn r b (k + 1) n f) : Sinking r b k n k f where
  le := le_rfl
  other := fun p c hp hne => hheap p c (by omega)
  grand := fun p c hp hx => by
    unfold IsChild at hx
    omega

omit [IsTrans α r] [Std.Total r] in
/-- When the cell is not below its children, sinking ends. -/
theorem Sinking.done {b k n x : ℕ} (hs : Sinking r b k n x f)
    (hx : ∀ c, IsChild c x → c ≤ n → r (f (b + c)) (f (b + x))) : HeapOn r b k n f := by
  intro p c hp hc hn
  by_cases hpx : p = x
  · subst hpx
    exact hx c hc hn
  · exact hs.other p c hp hpx hc hn

omit [IsTrans α r] [Std.Total r] in
/-- Exchanging the cell with its greatest child moves the exception down. -/
theorem Sinking.sink {b k n x y : ℕ} (hs : Sinking r b k n x f) (hy : IsChild y x) (hyn : y ≤ n)
    (hmax : ∀ c, IsChild c x → c ≤ n → c ≠ y → r (f (b + c)) (f (b + y)))
    (hle : r (f (b + x)) (f (b + y))) : Sinking r b k n y (swap f (b + x) (b + y)) := by
  have hxy : x < y := by
    unfold IsChild at hy
    omega
  have hkx := hs.le
  refine ⟨by omega, ?_, ?_⟩
  · intro p c hp hpy hc hn
    have hcx : p = x → c ≠ x := by
      unfold IsChild at hc
      omega
    by_cases hpx : p = x
    · subst hpx
      rw [swap_left]
      by_cases hcy : c = y
      · subst hcy
        rwa [swap_right]
      · rw [swap_of_ne f (by have := hcx rfl; omega) (by omega)]
        exact hmax c hc hn hcy
    · rw [swap_of_ne f (show b + p ≠ b + x by omega) (show b + p ≠ b + y by omega)]
      by_cases hcx' : c = x
      · subst hcx'
        rw [swap_left]
        exact hs.grand p y hp hc hy hyn
      · have hcy : c ≠ y := by
          unfold IsChild at hc hy
          omega
        rw [swap_of_ne f (by omega) (by omega)]
        exact hs.other p c hp hpx hc hn
  · intro p c hp hyp hc hn
    obtain rfl : p = x := by
      unfold IsChild at hyp hy
      omega
    rw [swap_left]
    have hc' : y < c := by
      unfold IsChild at hc
      omega
    rw [swap_of_ne f (by omega) (by omega)]
    exact hs.other y c (by omega) (by omega) hc hn

/-- The root of a heap is a maximum. -/
theorem HeapOn.root {b n : ℕ} (hheap : HeapOn r b 0 n f) : ∀ i, i ≤ n → r (f (b + i)) (f b) := by
  intro i
  induction i using Nat.strong_induction_on with
  | _ i ih =>
    intro hin
    rcases Nat.eq_zero_or_pos i with rfl | hpos
    · exact refl_of r (f b)
    · have hchild : IsChild i ((i - 1) / 2) := by
        unfold IsChild
        omega
      exact trans_of r (hheap _ i (Nat.zero_le _) hchild hin) (ih _ (by omega) (by omega))

end Window
