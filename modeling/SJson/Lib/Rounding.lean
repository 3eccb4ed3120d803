/-
# Rounding

Nonnegative fractions `n / d` of natural numbers, rounded to the nearest number of a kind, ties
to even: to an integer (`halfEven`), to a number of `p` binary places (`toBits`), and to a number
of `k` decimal places (`toDecimal`).

* `toBits_nearest`: no number of `p` binary places is nearer;
* `toBits_eq_iff`: two fractions are rounded alike exactly if no midpoint lies between them;
* `toBits_toDecimal`: a number of `p` binary places is found again from its decimal places, where
  these are more than enough.
-/
import Mathlib.Data.Nat.Log
import Mathlib.Data.Nat.Dist
import Mathlib.Tactic.Ring
import Mathlib.Tactic.Linarith

namespace Rounding

/-! ## Integers -/

/-- The integer that is nearest to `n / d`, the even one of two. -/
def halfEven (n d : ℕ) : ℕ :=
  if 2 * (n % d) < d ∨ (2 * (n % d) = d ∧ n / d % 2 = 0) then n / d else n / d + 1

/-- What is rounded is at most half a unit away. -/
theorem halfEven_near (n : ℕ) {d : ℕ} (hd : 0 < d) :
    2 * n ≤ 2 * (halfEven n d * d) + d ∧ 2 * (halfEven n d * d) ≤ 2 * n + d := by
  have hdiv : n / d * d + n % d = n := Nat.div_add_mod' n d
  have hmod := Nat.mod_lt n hd
  unfold halfEven
  split
  · omega
  · rw [Nat.add_mul, Nat.one_mul]
    omega

/-- An integer less than half a unit away is the nearest one. -/
theorem halfEven_eq {n d q : ℕ} (hlo : 2 * n < 2 * (q * d) + d) (hhi : 2 * (q * d) < 2 * n + d) :
    halfEven n d = q := by
  have hd : 0 < d := by
    rcases Nat.eq_zero_or_pos d with rfl | hd
    · simp only [Nat.mul_zero, Nat.add_zero] at hlo hhi
      omega
    · exact hd
  obtain ⟨h1, h2⟩ := halfEven_near n hd
  rcases Nat.lt_trichotomy (halfEven n d) q with hlt | heq | hgt
  · have hmul := Nat.mul_le_mul_right d (Nat.succ_le_of_lt hlt)
    rw [Nat.succ_mul] at hmul
    omega
  · exact heq
  · have hmul := Nat.mul_le_mul_right d (Nat.succ_le_of_lt hgt)
    rw [Nat.succ_mul] at hmul
    omega

theorem halfEven_le {n d b : ℕ} (hd : 0 < d) (h : n ≤ b * d) : halfEven n d ≤ b := by
  obtain ⟨-, hnear⟩ := halfEven_near n hd
  by_contra hlt
  have hmul := Nat.mul_le_mul_right d (Nat.succ_le_of_lt (not_le.mp hlt))
  rw [Nat.succ_mul] at hmul
  omega

theorem le_halfEven {n d a : ℕ} (hd : 0 < d) (h : a * d ≤ n) : a ≤ halfEven n d := by
  obtain ⟨hnear, -⟩ := halfEven_near n hd
  by_contra hlt
  have hmul := Nat.mul_le_mul_right d (Nat.succ_le_of_lt (not_le.mp hlt))
  rw [Nat.succ_mul] at hmul
  omega

/-- No integer is nearer, and the even one is taken of two that are as near. -/
theorem halfEven_nearest (n : ℕ) {d : ℕ} (hd : 0 < d) (k : ℕ) :
    Nat.dist (halfEven n d * d) n ≤ Nat.dist (k * d) n ∧
      (Nat.dist (k * d) n = Nat.dist (halfEven n d * d) n → k = halfEven n d ∨
        halfEven n d % 2 = 0) := by
  have hdiv : n / d * d + n % d = n := Nat.div_add_mod' n d
  have hmod := Nat.mod_lt n hd
  have hnext : (n / d + 1) * d = n / d * d + d := by ring
  -- the multiples of `d` on the two sides of `n`
  have hside : k * d ≤ n / d * d ∨ (n / d + 1) * d ≤ k * d := by
    rcases Nat.lt_or_ge (n / d) k with hlt | hge
    · exact .inr (Nat.mul_le_mul_right d hlt)
    · exact .inl (Nat.mul_le_mul_right d hge)
  have hsame : ∀ q, k * d = q * d → k = q := fun q h => Nat.eq_of_mul_eq_mul_right hd h
  have hodd : n / d % 2 = 1 → (n / d + 1) % 2 = 0 := by omega
  unfold halfEven Nat.dist
  split
  · rename_i hdown
    refine ⟨by omega, fun heq => ?_⟩
    by_cases h : k * d = n / d * d
    · exact .inl (hsame _ h)
    · exact .inr (by omega)
  · rename_i hup
    refine ⟨by omega, fun heq => ?_⟩
    by_cases h : k * d = (n / d + 1) * d
    · exact .inl (hsame _ h)
    · exact .inr (hodd (by omega))

/-- What is rounded to at most `k` is below the midpoint behind `k`, or is the midpoint and `k` is
even. -/
theorem halfEven_le_iff {n d k : ℕ} (hd : 0 < d) :
    halfEven n d ≤ k ↔ 2 * n < (2 * k + 1) * d ∨ (2 * n = (2 * k + 1) * d ∧ k % 2 = 0) := by
  have hdiv : n / d * d + n % d = n := Nat.div_add_mod' n d
  have hmod := Nat.mod_lt n hd
  have hmid : (2 * k + 1) * d = 2 * (k * d) + d := by ring
  have hnext : (n / d + 1) * d = n / d * d + d := by ring
  rw [hmid]
  rcases Nat.lt_trichotomy (n / d) k with hlt | rfl | hgt
  · -- the next integer is not behind `k` either
    have hmul := Nat.mul_le_mul_right d (Nat.succ_le_of_lt hlt)
    rw [Nat.succ_eq_add_one, hnext] at hmul
    have hle : halfEven n d ≤ k := by
      unfold halfEven
      split <;> omega
    exact ⟨fun _ => .inl (by omega), fun _ => hle⟩
  · unfold halfEven
    split
    · rename_i hdown
      rcases hdown with hlow | ⟨htie, heven⟩
      · exact ⟨fun _ => .inl (by omega), fun _ => le_rfl⟩
      · exact ⟨fun _ => .inr ⟨by omega, heven⟩, fun _ => le_rfl⟩
    · rename_i hup
      constructor
      · intro hle
        omega
      · rintro (hlow | ⟨htie, heven⟩)
        · exact absurd (.inl (by omega)) hup
        · exact absurd (.inr ⟨by omega, heven⟩) hup
  · have hmul := Nat.mul_le_mul_right d (Nat.succ_le_of_lt hgt)
    have hsucc : (k + 1) * d = k * d + d := by ring
    rw [Nat.succ_eq_add_one, hsucc] at hmul
    have hge : n / d ≤ halfEven n d := by
      unfold halfEven
      split <;> omega
    constructor
    · intro hle
      omega
    · rintro (hlow | ⟨htie, -⟩) <;> omega

/-- Rounding does not depend on how the fraction is written. -/
theorem halfEven_mul_right (n d : ℕ) {c : ℕ} (hc : 0 < c) :
    halfEven (n * c) (d * c) = halfEven n d := by
  have hdouble : 2 * (n % d * c) = 2 * (n % d) * c := (Nat.mul_assoc 2 (n % d) c).symm
  unfold halfEven
  simp only [Nat.mul_div_mul_right _ _ hc, Nat.mul_mod_mul_right, hdouble,
    Nat.mul_lt_mul_right hc, Nat.mul_left_inj (Nat.pos_iff_ne_zero.mp hc)]

/-! ## Binary places -/

/-- The number has at most `p` binary places. -/
def Fits (p N : ℕ) : Prop := ∃ m e, m < 2 ^ p ∧ N = m * 2 ^ e

/-- The place of the last of `p` bits of `n / d`, or the place of the units. -/
def lastBit (p n d : ℕ) : ℕ := Nat.log2 (n / d) + 1 - p

/-- The number of `p` binary places that is nearest to `n / d`. -/
def toBits (p n d : ℕ) : ℕ := halfEven n (d * 2 ^ lastBit p n d) * 2 ^ lastBit p n d

theorem fits_zero (p : ℕ) : Fits p 0 := ⟨0, 0, Nat.two_pow_pos p, by simp⟩

variable {p n d : ℕ}

/-- The fraction has no bit in front of its `p` bits. -/
theorem lt_lastBit (hd : 0 < d) : n < 2 ^ (p + lastBit p n d) * d := by
  have hfloor : n / d < 2 ^ (Nat.log2 (n / d) + 1) := Nat.lt_log2_self
  have hle : 2 ^ (Nat.log2 (n / d) + 1) ≤ 2 ^ (p + lastBit p n d) :=
    Nat.pow_le_pow_right (by decide) (by unfold lastBit; omega)
  exact (Nat.div_lt_iff_lt_mul hd).mp (lt_of_lt_of_le hfloor hle)

/-- Unless the last place is that of the units, there is a bit in the first of the `p` places. -/
theorem lastBit_le (hd : 0 < d) (hp : 0 < p) (hpos : 0 < lastBit p n d) :
    2 ^ (p + lastBit p n d - 1) * d ≤ n := by
  have hlog : p + lastBit p n d - 1 = Nat.log2 (n / d) := by
    unfold lastBit at hpos ⊢
    omega
  have hne : n / d ≠ 0 := by
    intro hzero
    rw [lastBit, hzero, Nat.log2_zero] at hpos
    omega
  rw [hlog]
  exact (Nat.le_div_iff_mul_le hd).mp (Nat.log2_self_le hne)

theorem fits_toBits (hd : 0 < d) (hp : 0 < p) : Fits p (toBits p n d) := by
  have hlt := lt_lastBit (p := p) (n := n) hd
  have hle : halfEven n (d * 2 ^ lastBit p n d) ≤ 2 ^ p := by
    refine halfEven_le (Nat.mul_pos hd (Nat.two_pow_pos _)) (le_of_lt ?_)
    calc n < 2 ^ (p + lastBit p n d) * d := hlt
      _ = 2 ^ p * (d * 2 ^ lastBit p n d) := by rw [Nat.pow_add]; ring
  rcases Nat.lt_or_eq_of_le hle with hlt | heq
  · exact ⟨_, _, hlt, rfl⟩
  · refine ⟨1, p + lastBit p n d, Nat.one_lt_two_pow (Nat.pos_iff_ne_zero.mp hp), ?_⟩
    rw [toBits, heq, Nat.pow_add, Nat.one_mul]

/-- A number of `p` binary places that is no multiple of the last place of the fraction is below
it, by more than the fraction's own first place. -/
theorem lt_of_not_dvd (hd : 0 < d) (hp : 0 < p) {N : ℕ} (hN : Fits p N)
    (hdvd : ¬ 2 ^ lastBit p n d ∣ N) :
    N < 2 ^ (p - 1) * 2 ^ lastBit p n d ∧ 2 ^ (p - 1) * 2 ^ lastBit p n d * d ≤ n := by
  obtain ⟨m, e, hm, rfl⟩ := hN
  have he : e < lastBit p n d := by
    by_contra hge
    exact hdvd (Dvd.dvd.mul_left (Nat.pow_dvd_pow 2 (not_lt.mp hge)) m)
  have hsplit : 2 ^ (p - 1) * 2 ^ lastBit p n d = 2 ^ (p + lastBit p n d - 1) := by
    rw [← Nat.pow_add]
    congr 1
    omega
  rw [hsplit]
  refine ⟨?_, lastBit_le hd hp (Nat.zero_lt_of_lt he)⟩
  calc m * 2 ^ e < 2 ^ p * 2 ^ e := Nat.mul_lt_mul_of_pos_right hm (Nat.two_pow_pos e)
    _ = 2 ^ (p + e) := (Nat.pow_add ..).symm
    _ ≤ 2 ^ (p + lastBit p n d - 1) := Nat.pow_le_pow_right (by decide) (by omega)

/-- **Nearest, ties to even.**  No number of `p` binary places is nearer to the fraction, and of
two that are as near the one with an even last place is taken. -/
theorem toBits_nearest (hd : 0 < d) (hp : 0 < p) {N : ℕ} (hN : Fits p N) :
    Nat.dist (toBits p n d * d) n ≤ Nat.dist (N * d) n ∧
      (Nat.dist (N * d) n = Nat.dist (toBits p n d * d) n →
        N = toBits p n d ∨ 2 ^ (lastBit p n d + 1) ∣ toBits p n d) := by
  have hunit : 0 < d * 2 ^ lastBit p n d := Nat.mul_pos hd (Nat.two_pow_pos _)
  have hbits : toBits p n d * d
      = halfEven n (d * 2 ^ lastBit p n d) * (d * 2 ^ lastBit p n d) := by
    unfold toBits
    ring
  by_cases hdvd : 2 ^ lastBit p n d ∣ N
  · obtain ⟨k, rfl⟩ := hdvd
    have hk : 2 ^ lastBit p n d * k * d = k * (d * 2 ^ lastBit p n d) := by ring
    obtain ⟨hle, htie⟩ := halfEven_nearest n hunit k
    rw [hbits, hk]
    refine ⟨hle, fun heq => ?_⟩
    rcases htie heq with rfl | heven
    · exact .inl (Nat.mul_comm ..)
    · rw [Nat.pow_succ, Nat.mul_comm (2 ^ lastBit p n d) 2]
      exact .inr (Nat.mul_dvd_mul_right (Nat.dvd_of_mod_eq_zero heven) _)
  · obtain ⟨hlt, hle⟩ := lt_of_not_dvd hd hp hN hdvd
    obtain ⟨hnear, -⟩ := halfEven_nearest n hunit (2 ^ (p - 1))
    have hplace : 2 ^ (p - 1) * (d * 2 ^ lastBit p n d)
        = 2 ^ (p - 1) * 2 ^ lastBit p n d * d := by ring
    have hbelow := Nat.mul_lt_mul_of_pos_right hlt hd
    rw [hplace] at hnear
    rw [hbits]
    have hstrict : Nat.dist (halfEven n (d * 2 ^ lastBit p n d) * (d * 2 ^ lastBit p n d)) n
        < Nat.dist (N * d) n := by
      unfold Nat.dist at hnear ⊢
      omega
    exact ⟨hstrict.le, fun heq => absurd heq hstrict.ne'⟩

/-- A number of `p` binary places that is near enough to the fraction has the last place of the
fraction, or a higher one. -/
theorem two_pow_dvd (hd : 0 < d) (hp : 0 < p) {N : ℕ} (hN : Fits p N)
    (hhi : n * 2 ^ (p + 1) < N * d * 2 ^ (p + 1) + N * d) : 2 ^ lastBit p n d ∣ N := by
  obtain ⟨m, e, hm, rfl⟩ := hN
  rcases Nat.lt_or_ge e (lastBit p n d) with hlt | hge
  · exfalso
    have hlow := lastBit_le hd hp (Nat.zero_lt_of_lt hlt)
    -- the number lies a place of its own below the fraction
    have hstep : m * 2 ^ e + 2 ^ e ≤ 2 ^ (p + e) := by
      calc m * 2 ^ e + 2 ^ e = (m + 1) * 2 ^ e := by ring
        _ ≤ 2 ^ p * 2 ^ e := Nat.mul_le_mul_right _ hm
        _ = 2 ^ (p + e) := (Nat.pow_add ..).symm
    have hpow : 2 ^ (p + e) ≤ 2 ^ (p + lastBit p n d - 1) :=
      Nat.pow_le_pow_right (by decide) (by omega)
    have hn : (m * 2 ^ e + 2 ^ e) * d ≤ n :=
      (Nat.mul_le_mul_right d (hstep.trans hpow)).trans hlow
    have hsmall : m * 2 ^ e * d ≤ 2 ^ (p + 1) * (2 ^ e * d) := by
      have hme : m * 2 ^ e ≤ 2 ^ (p + 1) * 2 ^ e :=
        Nat.mul_le_mul_right _ (hm.le.trans (Nat.pow_le_pow_right (by decide) (Nat.le_succ p)))
      calc m * 2 ^ e * d ≤ 2 ^ (p + 1) * 2 ^ e * d := Nat.mul_le_mul_right d hme
        _ = 2 ^ (p + 1) * (2 ^ e * d) := by ring
    have hmul := Nat.mul_le_mul_right (2 ^ (p + 1)) hn
    have hexp : (m * 2 ^ e + 2 ^ e) * d * 2 ^ (p + 1)
        = m * 2 ^ e * d * 2 ^ (p + 1) + 2 ^ (p + 1) * (2 ^ e * d) := by ring
    omega
  · exact Dvd.dvd.mul_left (Nat.pow_dvd_pow 2 hge) m

/-- **Nearest.**  A number of `p` binary places that is less than the `2 ^ (p + 1)`-th part of
itself away from a fraction is what the fraction is rounded to. -/
theorem toBits_eq (hd : 0 < d) (hp : 0 < p) {N : ℕ} (hN : Fits p N)
    (hhi : n * 2 ^ (p + 1) < N * d * 2 ^ (p + 1) + N * d)
    (hlo : N * d * 2 ^ (p + 1) < n * 2 ^ (p + 1) + N * d) : toBits p n d = N := by
  have hlt := lt_lastBit (p := p) (n := n) hd
  obtain ⟨k, hk⟩ := two_pow_dvd hd hp hN hhi
  unfold toBits
  generalize lastBit p n d = E at hlt hk ⊢
  -- the number is not above the `p` places of the fraction
  have hle : k ≤ 2 ^ p := by
    by_contra hgt
    have hk' : (2 ^ p + 1) * (2 ^ E * d) ≤ k * (2 ^ E * d) :=
      Nat.mul_le_mul_right _ (not_le.mp hgt)
    have hNd : N * d = k * (2 ^ E * d) := by rw [hk]; ring
    have hn : n < 2 ^ p * (2 ^ E * d) := by
      calc n < 2 ^ (p + E) * d := hlt
        _ = 2 ^ p * (2 ^ E * d) := by rw [Nat.pow_add]; ring
    have hpow : 0 < 2 ^ p := Nat.two_pow_pos p
    rw [hNd] at hlo
    rw [Nat.pow_succ] at hlo
    generalize 2 ^ E * d = u at hk' hn hlo
    generalize hP : 2 ^ p = P at hk' hn hlo hpow
    nlinarith
  have hunit : N * d ≤ 2 ^ p * (d * 2 ^ E) := by
    calc N * d = k * (d * 2 ^ E) := by rw [hk]; ring
      _ ≤ 2 ^ p * (d * 2 ^ E) := Nat.mul_le_mul_right _ hle
  have hNd : N * d = k * (d * 2 ^ E) := by rw [hk]; ring
  have hhalf : halfEven n (d * 2 ^ E) = k := by
    have hpow : 0 < 2 ^ p := Nat.two_pow_pos p
    rw [hNd, Nat.pow_succ] at hhi hlo
    rw [hNd] at hunit
    generalize d * 2 ^ E = u at hhi hlo hunit ⊢
    generalize 2 ^ p = P at hhi hlo hunit hpow
    apply halfEven_eq
    · by_contra hge
      nlinarith
    · by_contra hge
      nlinarith
  rw [hhalf, hk, Nat.mul_comm]

/-- Rounding is a matter of the value. -/
theorem toBits_congr {n' d' : ℕ} (hd : 0 < d) (hd' : 0 < d') (h : n * d' = n' * d) :
    toBits p n d = toBits p n' d' := by
  have hscale : ∀ (n d : ℕ) {c : ℕ}, 0 < c → toBits p (n * c) (d * c) = toBits p n d := by
    intro n d c hc
    have hlast : lastBit p (n * c) (d * c) = lastBit p n d := by
      rw [lastBit, lastBit, Nat.mul_div_mul_right _ _ hc]
    rw [toBits, toBits, hlast, Nat.mul_right_comm, halfEven_mul_right _ _ hc]
  rw [← hscale n d hd', ← hscale n' d' hd, h, Nat.mul_comm d d']

/-- Rounding does not go beyond a power of two. -/
theorem toBits_le (hd : 0 < d) (hp : 0 < p) {k : ℕ} (h : n < 2 ^ k * d) : toBits p n d ≤ 2 ^ k := by
  have hE : lastBit p n d ≤ k := by
    have hlog : n / d = 0 ∨ Nat.log2 (n / d) < k := by
      rcases Nat.eq_zero_or_pos (n / d) with hzero | hpos
      · exact .inl hzero
      · exact .inr ((Nat.log2_lt (Nat.pos_iff_ne_zero.mp hpos)).mpr
          ((Nat.div_lt_iff_lt_mul hd).mpr h))
    unfold lastBit
    rcases hlog with hzero | hlt
    · rw [hzero, Nat.log2_zero]
      omega
    · omega
  have hsplit : 2 ^ k = 2 ^ (k - lastBit p n d) * 2 ^ lastBit p n d := by
    rw [← Nat.pow_add]
    congr 1
    omega
  have hle : halfEven n (d * 2 ^ lastBit p n d) ≤ 2 ^ (k - lastBit p n d) := by
    refine halfEven_le (Nat.mul_pos hd (Nat.two_pow_pos _)) (le_of_lt ?_)
    calc n < 2 ^ k * d := h
      _ = 2 ^ (k - lastBit p n d) * (d * 2 ^ lastBit p n d) := by
        nth_rewrite 1 [hsplit]
        ring
  calc toBits p n d ≤ 2 ^ (k - lastBit p n d) * 2 ^ lastBit p n d := Nat.mul_le_mul_right _ hle
    _ = 2 ^ k := hsplit.symm

/-! ## Midpoints -/

/-- The fraction is below the midpoint of `m * 2 ^ e` and the next number of as many binary
places, or it is the midpoint and `m` is even. -/
def Under (m e n d : ℕ) : Prop :=
  2 * n < (2 * m + 1) * (d * 2 ^ e) ∨ (2 * n = (2 * m + 1) * (d * 2 ^ e) ∧ m % 2 = 0)

/-- No midpoint of neighbouring numbers of `p` binary places lies between the fractions.  A
midpoint belongs to the even one of its neighbours. -/
def Together (p n d n' d' : ℕ) : Prop :=
  ∀ m e, m < 2 ^ p → (e = 0 ∨ 2 ^ (p - 1) ≤ m) → (Under m e n d ↔ Under m e n' d')

/-- What is rounded to at most some number of `p` binary places is on this side of the midpoint
behind it. -/
theorem toBits_le_iff (hd : 0 < d) (hp : 0 < p) {m e : ℕ} (hm : m < 2 ^ p)
    (hfull : e = 0 ∨ 2 ^ (p - 1) ≤ m) : toBits p n d ≤ m * 2 ^ e ↔ Under m e n d := by
  have hlt := lt_lastBit (p := p) (n := n) hd
  have hunit : 0 < d * 2 ^ lastBit p n d := Nat.mul_pos hd (Nat.two_pow_pos _)
  have hmid : (2 * m + 1) * (d * 2 ^ e) = 2 * (m * 2 ^ e * d) + 2 ^ e * d := by ring
  have hpos : 0 < 2 ^ e * d := Nat.mul_pos (Nat.two_pow_pos e) hd
  rcases Nat.lt_trichotomy (lastBit p n d) e with hE | hE | hE
  · -- the fraction has fewer places in front of the point
    have hhalf : 2 ^ (p - 1) ≤ m := hfull.resolve_left (by omega)
    have hpow : 2 ^ (p + lastBit p n d) ≤ m * 2 ^ e := by
      calc 2 ^ (p + lastBit p n d) ≤ 2 ^ (p - 1 + e) := Nat.pow_le_pow_right (by decide) (by omega)
        _ = 2 ^ (p - 1) * 2 ^ e := Nat.pow_add ..
        _ ≤ m * 2 ^ e := Nat.mul_le_mul_right _ hhalf
    have hn : n < m * 2 ^ e * d := lt_of_lt_of_le hlt (Nat.mul_le_mul_right d hpow)
    have hle : toBits p n d ≤ m * 2 ^ e := (toBits_le hd hp hlt).trans hpow
    refine ⟨fun _ => .inl ?_, fun _ => hle⟩
    rw [hmid]
    omega
  · rw [toBits, hE, Nat.mul_le_mul_right_iff (Nat.two_pow_pos e)]
    exact halfEven_le_iff (hE ▸ hunit)
  · have hlow := lastBit_le hd hp (Nat.zero_lt_of_lt hE)
    have hpow : (m + 1) * 2 ^ e ≤ 2 ^ (p + lastBit p n d - 1) := by
      calc (m + 1) * 2 ^ e ≤ 2 ^ p * 2 ^ e := Nat.mul_le_mul_right _ hm
        _ = 2 ^ (p + e) := (Nat.pow_add ..).symm
        _ ≤ 2 ^ (p + lastBit p n d - 1) := Nat.pow_le_pow_right (by decide) (by omega)
    have hn : (m + 1) * 2 ^ e * d ≤ n := (Nat.mul_le_mul_right d hpow).trans hlow
    have hsucc : (m + 1) * 2 ^ e * d = m * 2 ^ e * d + 2 ^ e * d := by ring
    have hgt : m * 2 ^ e < toBits p n d := by
      have hge : 2 ^ (p - 1) ≤ halfEven n (d * 2 ^ lastBit p n d) := by
        refine le_halfEven hunit ?_
        calc 2 ^ (p - 1) * (d * 2 ^ lastBit p n d)
            = 2 ^ (p - 1 + lastBit p n d) * d := by rw [Nat.pow_add]; ring
          _ = 2 ^ (p + lastBit p n d - 1) * d := by congr 2; omega
          _ ≤ n := hlow
      calc m * 2 ^ e < (m + 1) * 2 ^ e := Nat.mul_lt_mul_of_pos_right (by omega) (Nat.two_pow_pos e)
        _ ≤ 2 ^ (p + lastBit p n d - 1) := hpow
        _ = 2 ^ (p - 1) * 2 ^ lastBit p n d := by rw [← Nat.pow_add]; congr 1; omega
        _ ≤ toBits p n d := Nat.mul_le_mul_right _ hge
    constructor
    · intro hle
      omega
    · unfold Under
      rw [hmid]
      rintro (h | ⟨h, -⟩) <;> omega

/-- Every number of `p` binary places uses all of them, or is an integer of fewer. -/
theorem Fits.full (hp : 0 < p) {N : ℕ} (h : Fits p N) :
    ∃ m e, m < 2 ^ p ∧ (e = 0 ∨ 2 ^ (p - 1) ≤ m) ∧ N = m * 2 ^ e := by
  obtain ⟨m, e, hm, rfl⟩ := h
  induction e generalizing m with
  | zero => exact ⟨m, 0, hm, .inl rfl, rfl⟩
  | succ e ih =>
    by_cases hfull : 2 ^ (p - 1) ≤ m
    · exact ⟨m, e + 1, hm, .inr hfull, rfl⟩
    · have hdouble : 2 * m < 2 ^ p := by
        have hsplit : 2 ^ p = 2 ^ (p - 1) * 2 := by rw [← Nat.pow_succ]; congr 1; omega
        omega
      obtain ⟨m', e', hm', hfull', heq⟩ := ih (2 * m) hdouble
      exact ⟨m', e', hm', hfull', by rw [← heq, Nat.pow_succ]; ring⟩

/-- **Two fractions are rounded alike** exactly if no midpoint lies between them. -/
theorem toBits_eq_iff {n' d' : ℕ} (hd : 0 < d) (hd' : 0 < d') (hp : 0 < p) :
    toBits p n d = toBits p n' d' ↔ Together p n d n' d' := by
  constructor
  · intro heq m e hm hfull
    rw [← toBits_le_iff hd hp hm hfull, ← toBits_le_iff hd' hp hm hfull, heq]
  · intro h
    apply le_antisymm
    · obtain ⟨m, e, hm, hfull, heq⟩ := (fits_toBits (n := n') hd' hp).full hp
      rw [heq, toBits_le_iff hd hp hm hfull]
      exact (h m e hm hfull).mpr ((toBits_le_iff hd' hp hm hfull).mp heq.le)
    · obtain ⟨m, e, hm, hfull, heq⟩ := (fits_toBits (n := n) hd hp).full hp
      rw [heq, toBits_le_iff hd' hp hm hfull]
      exact (h m e hm hfull).mp ((toBits_le_iff hd hp hm hfull).mp heq.le)

/-- A number of `p` binary places is not rounded. -/
theorem toBits_self (hp : 0 < p) {N : ℕ} (h : Fits p N) : toBits p N 1 = N := by
  rcases Nat.eq_zero_or_pos N with rfl | hpos
  · simp [toBits, lastBit, halfEven]
  · exact toBits_eq Nat.one_pos hp h (by rw [Nat.mul_one]; omega)
      (by rw [Nat.mul_one]; omega)

/-! ## Decimal places -/

/-- The number of `k` decimal places that is nearest to `n / d`, as a number of `k` digits and
the power of ten to multiply it with. -/
@[irreducible]
def toDecimal (k n d : ℕ) : ℕ × ℕ :=
  let t := Nat.log 10 (n / d) + 1 - k
  if halfEven n (d * 10 ^ t) = 10 ^ k then (10 ^ (k - 1), t + 1)
  else (halfEven n (d * 10 ^ t), t)

variable {k : ℕ}

/-- The digits are `k`, and stand for a number that is at most half a unit of the last one of
them away. -/
theorem toDecimal_spec (hd : 0 < d) (hk : 0 < k) (hbig : 10 ^ (k - 1) * d ≤ n) :
    10 ^ (k - 1) ≤ (toDecimal k n d).1 ∧ (toDecimal k n d).1 < 10 ^ k ∧
      ∃ u, 10 ^ (k - 1) * u ≤ (toDecimal k n d).1 * (d * 10 ^ (toDecimal k n d).2) ∧ 0 < u ∧
        2 * n ≤ 2 * ((toDecimal k n d).1 * (d * 10 ^ (toDecimal k n d).2)) + u ∧
        2 * ((toDecimal k n d).1 * (d * 10 ^ (toDecimal k n d).2)) ≤ 2 * n + u := by
  have hfloor : 10 ^ (k - 1) ≤ n / d := (Nat.le_div_iff_mul_le hd).mpr hbig
  have hne : n / d ≠ 0 := Nat.pos_iff_ne_zero.mp (lt_of_lt_of_le (Nat.pow_pos (by decide)) hfloor)
  have hlog : k - 1 ≤ Nat.log 10 (n / d) := Nat.le_log_of_pow_le (by decide) hfloor
  have ht : Nat.log 10 (n / d) = (k - 1) + (Nat.log 10 (n / d) + 1 - k) := by omega
  have hlow : 10 ^ Nat.log 10 (n / d) * d ≤ n :=
    (Nat.le_div_iff_mul_le hd).mp (Nat.pow_log_le_self 10 hne)
  have hhigh : n < 10 ^ (Nat.log 10 (n / d) + 1) * d :=
    (Nat.div_lt_iff_lt_mul hd).mp (Nat.lt_pow_succ_log_self (by decide) _)
  have hten : 10 ^ k = 10 ^ (k - 1) * 10 := by
    rw [← Nat.pow_succ]
    congr 1
    omega
  rw [ht] at hlow hhigh
  unfold toDecimal
  dsimp only
  generalize Nat.log 10 (n / d) + 1 - k = t at hlow hhigh ⊢
  have hu : 0 < d * 10 ^ t := Nat.mul_pos hd (Nat.pow_pos (by decide))
  have hge : 10 ^ (k - 1) ≤ halfEven n (d * 10 ^ t) := by
    refine le_halfEven hu ?_
    calc 10 ^ (k - 1) * (d * 10 ^ t) = 10 ^ (k - 1 + t) * d := by rw [Nat.pow_add]; ring
      _ ≤ n := hlow
  have hle : halfEven n (d * 10 ^ t) ≤ 10 ^ k := by
    refine halfEven_le hu (le_of_lt ?_)
    calc n < 10 ^ (k - 1 + t + 1) * d := hhigh
      _ = 10 ^ k * (d * 10 ^ t) := by rw [hten, Nat.pow_add, Nat.pow_add]; ring
  obtain ⟨hnear, hnear'⟩ := halfEven_near n hu
  split
  · rename_i hcarry
    -- the digits are a one and zeros
    have hval : 10 ^ (k - 1) * (d * 10 ^ (t + 1)) = 10 ^ k * (d * 10 ^ t) := by
      rw [hten, Nat.pow_succ]
      ring
    rw [hcarry] at hnear hnear'
    have hpos : 0 < 10 ^ (k - 1) := Nat.pow_pos (by decide)
    refine ⟨le_rfl, by show 10 ^ (k - 1) < 10 ^ k; omega, d * 10 ^ t, ?_, hu, ?_, ?_⟩
    · rw [hval]
      exact Nat.mul_le_mul_right _ (by omega)
    · rwa [hval]
    · rwa [hval]
  · rename_i hcarry
    exact ⟨hge, lt_of_le_of_ne hle hcarry, d * 10 ^ t, Nat.mul_le_mul_right _ hge, hu, hnear,
      hnear'⟩

theorem toDecimal_exp_le (k n d : ℕ) : (toDecimal k n d).2 ≤ Nat.log 10 (n / d) + 2 := by
  unfold toDecimal
  dsimp only
  split_ifs
  · show _ + 1 ≤ _
    omega
  · show _ ≤ _
    omega

/-- **Enough decimal places** to find a number of `p` binary places again. -/
theorem toBits_toDecimal (hd : 0 < d) (hp : 0 < p) (hk : 0 < k)
    (henough : 2 ^ (p + 1) < 2 * 10 ^ (k - 1) - 1) {N : ℕ} (hN : Fits p N) {s : ℕ}
    (hbig : 10 ^ (k - 1) * d ≤ N * s) (hs : 0 < s) :
    toBits p ((toDecimal k (N * s) d).1 * (d * 10 ^ (toDecimal k (N * s) d).2)) s = N := by
  obtain ⟨-, -, u, hu, hpos, hnear, hnear'⟩ := toDecimal_spec hd hk hbig
  generalize (toDecimal k (N * s) d).1 * (d * 10 ^ (toDecimal k (N * s) d).2) = y at *
  have hsmall : 2 ^ (p + 1) * u < 2 * (N * s) := by
    have hmul : 2 ^ (p + 1) * u + u < 2 * (10 ^ (k - 1) * u) := by
      calc 2 ^ (p + 1) * u + u = (2 ^ (p + 1) + 1) * u := by ring
        _ < 2 * 10 ^ (k - 1) * u := Nat.mul_lt_mul_of_pos_right (by omega) hpos
        _ = 2 * (10 ^ (k - 1) * u) := by ring
    omega
  refine toBits_eq hs hp hN ?_ ?_
  · have hmul := Nat.mul_le_mul_right (2 ^ (p + 1)) hnear'
    nlinarith
  · have hmul := Nat.mul_le_mul_right (2 ^ (p + 1)) hnear
    nlinarith

end Rounding
