/-
# Programs with state and errors

Rules for computations in `EStateM ε σ`: what a computation does from one state
(`Ensures`), with a condition for the normal and one for the error exit, and machines
that repeat a step function until it delivers a result (`Leads`, `runFuel`).

* `Ensures` is closed under sequencing (`ensures_bind`), weakening (`Ensures.mono`)
  and choice;
* `Leads` is the fuel-free meaning of a machine, and `runFuel` computes it whenever a
  measure decreases at every step (`leads_runFuel`);
* an invariant kept by the step function holds at the machine's exit
  (`ensures_runFuel`).
-/
import Mathlib.Logic.Basic
import Mathlib.Data.Nat.Notation

namespace ErrState

universe u

variable {ε σ α β : Type u}

/-! ## One computation -/

/-- From `s`, the computation `x` returns with `Q` or fails with `E`. -/
def Ensures (x : EStateM ε σ α) (s : σ) (Q : α → σ → Prop) (E : ε → σ → Prop) : Prop :=
  match x s with
  | .ok a s' => Q a s'
  | .error e s' => E e s'

theorem Ensures.of_ok {x : EStateM ε σ α} {s s' : σ} {a : α} {Q : α → σ → Prop}
    {E : ε → σ → Prop} (h : x s = .ok a s') (hq : Q a s') : Ensures x s Q E := by
  rw [Ensures, h]
  exact hq

theorem Ensures.of_error {x : EStateM ε σ α} {s s' : σ} {e : ε} {Q : α → σ → Prop}
    {E : ε → σ → Prop} (h : x s = .error e s') (he : E e s') : Ensures x s Q E := by
  rw [Ensures, h]
  exact he

/-- What is ensured holds at the normal exit. -/
theorem Ensures.ok {x : EStateM ε σ α} {s s' : σ} {a : α} {Q : α → σ → Prop}
    {E : ε → σ → Prop} (h : Ensures x s Q E) (hx : x s = .ok a s') : Q a s' := by
  rwa [Ensures, hx] at h

/-- What is ensured holds at the error exit. -/
theorem Ensures.error {x : EStateM ε σ α} {s s' : σ} {e : ε} {Q : α → σ → Prop}
    {E : ε → σ → Prop} (h : Ensures x s Q E) (hx : x s = .error e s') : E e s' := by
  rwa [Ensures, hx] at h

theorem Ensures.mono {x : EStateM ε σ α} {s : σ} {Q Q' : α → σ → Prop} {E E' : ε → σ → Prop}
    (h : Ensures x s Q E) (hQ : ∀ a s', Q a s' → Q' a s') (hE : ∀ e s', E e s' → E' e s') :
    Ensures x s Q' E' := by
  unfold Ensures at *
  split
  · rename_i a s' hx
    rw [hx] at h
    exact hQ a s' h
  · rename_i e s' hx
    rw [hx] at h
    exact hE e s' h

theorem Ensures.and {x : EStateM ε σ α} {s : σ} {Q Q' : α → σ → Prop} {E E' : ε → σ → Prop}
    (h : Ensures x s Q E) (h' : Ensures x s Q' E') :
    Ensures x s (fun a s' => Q a s' ∧ Q' a s') (fun e s' => E e s' ∧ E' e s') := by
  unfold Ensures at *
  split <;> simp_all

theorem ensures_pure {s : σ} {a : α} {Q : α → σ → Prop} {E : ε → σ → Prop} (h : Q a s) :
    Ensures (pure a : EStateM ε σ α) s Q E := h

theorem ensures_throw {s : σ} {e : ε} {Q : α → σ → Prop} {E : ε → σ → Prop} (h : E e s) :
    Ensures (throw e : EStateM ε σ α) s Q E := h

/-- Sequencing: the second computation runs from the state the first one leaves. -/
theorem ensures_bind {x : EStateM ε σ α} {k : α → EStateM ε σ β} {s : σ} {Q : β → σ → Prop}
    {E : ε → σ → Prop} (h : Ensures x s (fun a s' => Ensures (k a) s' Q E) E) :
    Ensures (x >>= k) s Q E := by
  unfold Ensures at *
  simp only [bind, EStateM.bind]
  cases hx : x s with
  | ok a s' => simpa [hx] using h
  | error e s' => simpa [hx] using h

theorem ensures_ite {c : Prop} [Decidable c] {x y : EStateM ε σ α} {s : σ} {Q : α → σ → Prop}
    {E : ε → σ → Prop} (hx : c → Ensures x s Q E) (hy : ¬ c → Ensures y s Q E) :
    Ensures (if c then x else y) s Q E := by
  split
  · exact hx ‹_›
  · exact hy ‹_›

theorem bind_ok {x : EStateM ε σ α} {k : α → EStateM ε σ β} {s s' : σ} {a : α}
    (h : x s = .ok a s') : (x >>= k) s = k a s' := by
  simp [bind, EStateM.bind, h]

theorem bind_error {x : EStateM ε σ α} {k : α → EStateM ε σ β} {s s' : σ} {e : ε}
    (h : x s = .error e s') : (x >>= k) s = .error e s' := by
  simp [bind, EStateM.bind, h]

/-- A sequence that succeeded: both its computations did. -/
theorem bind_eq_ok {x : EStateM ε σ α} {k : α → EStateM ε σ β} {s s' : σ} {b : β} :
    (x >>= k) s = .ok b s' ↔ ∃ a s₁, x s = .ok a s₁ ∧ k a s₁ = .ok b s' := by
  cases hx : x s with
  | ok a s₁ =>
    rw [bind_ok hx]
    constructor
    · exact fun h => ⟨a, s₁, rfl, h⟩
    · rintro ⟨a', s₁', heq, h⟩
      cases heq
      exact h
  | error e s₁ =>
    rw [bind_error hx]
    simp

/-! ## Machines -/

variable {C R : Type u} (step : C → EStateM ε σ (C ⊕ R))

/-- How a machine ends whose last step ended like this. -/
inductive Leads : EStateM.Result ε σ (C ⊕ R) → EStateM.Result ε σ R → Prop
  | done (r : R) (s : σ) : Leads (.ok (.inr r) s) (.ok r s)
  | error (e : ε) (s : σ) : Leads (.error e s) (.error e s)
  | next {c : C} {s : σ} {out : EStateM.Result ε σ R} (h : Leads (step c s) out) :
      Leads (.ok (.inl c) s) out

/-- The configurations a machine passes through. -/
inductive Reaches : C → σ → C → σ → Prop
  | refl (c : C) (s : σ) : Reaches c s c s
  | step {c c' c'' : C} {s s' s'' : σ} (h : Reaches c s c' s')
      (hstep : step c' s' = .ok (.inl c'') s'') : Reaches c s c'' s''

/-- At most `fuel` steps of the machine, failing with `stuck` if they do not suffice. -/
def runFuel (stuck : ε) : ℕ → C → EStateM ε σ R
  | 0, _ => throw stuck
  | fuel + 1, c => do
    match ← step c with
    | .inl c' => runFuel stuck fuel c'
    | .inr r => pure r

variable {step}

theorem runFuel_succ_of_next {stuck : ε} {fuel : ℕ} {c c' : C} {s s' : σ}
    (h : step c s = .ok (.inl c') s') :
    runFuel step stuck (fuel + 1) c s = runFuel step stuck fuel c' s' := by
  rw [runFuel, bind_ok h]

theorem runFuel_succ_of_done {stuck : ε} {fuel : ℕ} {c : C} {r : R} {s s' : σ}
    (h : step c s = .ok (.inr r) s') : runFuel step stuck (fuel + 1) c s = .ok r s' := by
  rw [runFuel, bind_ok h]
  rfl

theorem runFuel_succ_of_error {stuck : ε} {fuel : ℕ} {c : C} {e : ε} {s s' : σ}
    (h : step c s = .error e s') : runFuel step stuck (fuel + 1) c s = .error e s' := by
  rw [runFuel, bind_error h]

/-- A machine leads to one end only. -/
theorem Leads.eq {x : EStateM.Result ε σ (C ⊕ R)} {out out' : EStateM.Result ε σ R}
    (h : Leads step x out) (h' : Leads step x out') : out = out' := by
  induction h with
  | done r s => cases h'; rfl
  | error e s => cases h'; rfl
  | next _ ih =>
    cases h' with
    | next h' => exact ih h'

/-- An invariant of the machine holds in every configuration it reaches. -/
theorem Reaches.invariant {I : C → σ → Prop} {c c' : C} {s s' : σ} (h : Reaches step c s c' s')
    (h0 : I c s) (hI : ∀ c s c' s', I c s → step c s = .ok (.inl c') s' → I c' s') : I c' s' := by
  induction h with
  | refl => exact h0
  | step _ hstep ih => exact hI _ _ _ _ (ih h0) hstep

/-- With an invariant under which every step decreases a measure, enough fuel leads
to the end of the machine. -/
theorem leads_runFuel {I : C → σ → Prop} {μ : C → ℕ} {stuck : ε}
    (hI : ∀ c s c' s', I c s → step c s = .ok (.inl c') s' → I c' s' ∧ μ c' < μ c) :
    ∀ {fuel : ℕ} {c : C} {s : σ}, I c s → μ c < fuel →
      Leads step (step c s) (runFuel step stuck fuel c s) := by
  intro fuel
  induction fuel with
  | zero => intro c s _ hfuel; omega
  | succ fuel ih =>
    intro c s hc hfuel
    cases hstep : step c s with
    | error e s' =>
      rw [runFuel_succ_of_error hstep]
      exact .error e s'
    | ok x s' =>
      cases x with
      | inr r =>
        rw [runFuel_succ_of_done hstep]
        exact .done r s'
      | inl c' =>
        rw [runFuel_succ_of_next hstep]
        obtain ⟨hc', hμ⟩ := hI c s c' s' hc hstep
        exact .next (ih hc' (by omega))

/-- What every step ensures is ensured of the whole run, given enough fuel. -/
theorem ensures_runFuel {I : C → σ → Prop} {μ : C → ℕ} {stuck : ε} {Q : R → σ → Prop}
    {E : ε → σ → Prop}
    (hI : ∀ c s, I c s → Ensures (step c) s
      (fun x s' => Sum.elim (fun c' => I c' s' ∧ μ c' < μ c) (fun r => Q r s') x) E) :
    ∀ {fuel : ℕ} {c : C} {s : σ}, I c s → μ c < fuel →
      Ensures (runFuel step stuck fuel c) s Q E := by
  intro fuel
  induction fuel with
  | zero => intro c s _ hfuel; omega
  | succ fuel ih =>
    intro c s hc hfuel
    refine ensures_bind ((hI c s hc).mono ?_ fun _ _ he => he)
    intro x s' hx
    cases x with
    | inl c' => exact ih hx.1 (by have := hx.2; omega)
    | inr r => exact hx

end ErrState
