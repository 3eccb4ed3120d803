/-
# Lists related one by one

What `List.Forall₂ R l m` says about the members of the two lists, and how such relations are
weakened and composed.  The hypotheses may use that what is related are members of the lists.
-/
import Mathlib.Data.List.Forall2

namespace ListRel

variable {α β γ : Type} {R : α → β → Prop} {l : List α} {m : List β}

/-! ## Members -/

/-- What follows for the members of the second list. -/
theorem forall₂_right {Q : β → Prop} (hR : List.Forall₂ R l m)
    (himp : ∀ a ∈ l, ∀ b, R a b → Q b) : ∀ b ∈ m, Q b := by
  induction hR with
  | nil => exact fun b hb => absurd hb List.not_mem_nil
  | cons hab _ ih =>
    obtain ⟨hhead, htail⟩ := List.forall_mem_cons.mp himp
    exact List.forall_mem_cons.mpr ⟨hhead _ hab, ih htail⟩

/-- Every member of the second list is related to one of the first. -/
theorem forall₂_mem_right (hR : List.Forall₂ R l m) {b : β} (hb : b ∈ m) : ∃ a ∈ l, R a b :=
  forall₂_right (Q := fun b => ∃ a ∈ l, R a b) hR (fun a ha _ hab => ⟨a, ha, hab⟩) b hb

/-- Every member of the first list is related to one of the second. -/
theorem forall₂_mem_left (hR : List.Forall₂ R l m) {a : α} (ha : a ∈ l) : ∃ b ∈ m, R a b :=
  forall₂_mem_right hR.flip ha

/-- At every place there are related members, or none. -/
theorem getElem?_rel (hR : List.Forall₂ R l m) (i : ℕ) :
    (∃ a b, l[i]? = some a ∧ m[i]? = some b ∧ R a b) ∨ (l[i]? = none ∧ m[i]? = none) := by
  induction hR generalizing i with
  | nil => exact .inr ⟨rfl, rfl⟩
  | cons hab _ ih =>
    cases i with
    | zero => exact .inl ⟨_, _, rfl, rfl, hab⟩
    | succ i => exact ih i

theorem forall₂_getElem? (hR : List.Forall₂ R l m) {i : ℕ} {a : α} {b : β} (ha : l[i]? = some a)
    (hb : m[i]? = some b) : R a b := by
  rcases getElem?_rel hR i with ⟨a', b', ha', hb', hab⟩ | ⟨hnone, -⟩
  · obtain rfl := Option.some_inj.mp (ha.symm.trans ha')
    obtain rfl := Option.some_inj.mp (hb.symm.trans hb')
    exact hab
  · rw [ha] at hnone
    cases hnone

/-! ## Weakening -/

/-- Weakening along the members of both lists. -/
theorem forall₂_imp_mems {S : α → β → Prop} (hR : List.Forall₂ R l m)
    (himp : ∀ a ∈ l, ∀ b ∈ m, R a b → S a b) : List.Forall₂ S l m := by
  induction hR with
  | nil => exact .nil
  | cons hab _ ih =>
    exact .cons (himp _ List.mem_cons_self _ List.mem_cons_self hab)
      (ih fun a ha b hb => himp a (List.mem_cons_of_mem _ ha) b (List.mem_cons_of_mem _ hb))

/-- Weakening along the members of the first list. -/
theorem forall₂_imp_mem {S : α → β → Prop} (hR : List.Forall₂ R l m)
    (himp : ∀ a ∈ l, ∀ b, R a b → S a b) : List.Forall₂ S l m :=
  forall₂_imp_mems hR fun a ha b _ => himp a ha b

/-! ## Composition -/

/-- Two relations with one list on the left. -/
theorem forall₂_trans {S : α → γ → Prop} {T : β → γ → Prop} {n : List γ}
    (hR : List.Forall₂ R l m) (hS : List.Forall₂ S l n)
    (himp : ∀ a ∈ l, ∀ b ∈ m, ∀ c ∈ n, R a b → S a c → T b c) : List.Forall₂ T m n := by
  induction hR generalizing n with
  | nil =>
    cases hS
    exact .nil
  | cons hab _ ih =>
    cases hS with
    | cons hac hrest =>
      exact .cons (himp _ List.mem_cons_self _ List.mem_cons_self _ List.mem_cons_self hab hac)
        (ih hrest fun a ha b hb c hc => himp a (List.mem_cons_of_mem _ ha) b
          (List.mem_cons_of_mem _ hb) c (List.mem_cons_of_mem _ hc))

/-- Three lists compared one by one; the hypothesis may use the place. -/
theorem forall₂_trans_of {S : β → γ → Prop} {T : α → γ → Prop} {n : List γ}
    (hR : List.Forall₂ R l m) (hS : List.Forall₂ S m n)
    (himp : ∀ (i : ℕ) (a : α) (b : β) (c : γ), l[i]? = some a → m[i]? = some b →
      n[i]? = some c → R a b → S b c → T a c) : List.Forall₂ T l n := by
  induction hR generalizing n with
  | nil =>
    cases hS
    exact .nil
  | cons hab _ ih =>
    cases hS with
    | cons hbc hrest =>
      refine .cons (himp 0 _ _ _ rfl rfl rfl hab hbc) (ih hrest fun i a b c ha hb hc => ?_)
      exact himp (i + 1) a b c (by simpa using ha) (by simpa using hb) (by simpa using hc)

/-! ## Images -/

theorem forall₂_map_map {f : γ → α} {g : γ → β} {n : List γ} (hR : ∀ c ∈ n, R (f c) (g c)) :
    List.Forall₂ R (n.map f) (n.map g) :=
  List.forall₂_map_left_iff.mpr (List.forall₂_map_right_iff.mpr (List.forall₂_same.mpr hR))

theorem forall₂_map_eq {f : β → α} (hR : List.Forall₂ R l m)
    (heq : ∀ a ∈ l, ∀ b, R a b → f b = a) : m.map f = l := by
  induction hR with
  | nil => rfl
  | cons hab _ ih =>
    rw [List.map_cons, heq _ List.mem_cons_self _ hab,
      ih fun a ha => heq a (List.mem_cons_of_mem _ ha)]

/-- Lists are related one by one exactly if they have the same images. -/
theorem forall₂_iff_map_eq {T : β → β → Prop} {f : α → γ} {l' : List α} {m' : List β}
    (hR : List.Forall₂ R l m) (hR' : List.Forall₂ R l' m')
    (hiff : ∀ a ∈ l, ∀ a' ∈ l', ∀ b ∈ m, ∀ b' ∈ m', R a b → R a' b' → (T b b' ↔ f a = f a')) :
    List.Forall₂ T m m' ↔ l.map f = l'.map f := by
  induction hR generalizing l' m' with
  | nil => cases hR' <;> simp
  | cons hab _ ih =>
    cases hR' with
    | nil => simp
    | cons hab' hrest =>
      rw [List.forall₂_cons, List.map_cons, List.map_cons, List.cons.injEq,
        hiff _ List.mem_cons_self _ List.mem_cons_self _ List.mem_cons_self _ List.mem_cons_self
          hab hab',
        ih hrest fun a ha a' ha' b hb b' hb' => hiff a (List.mem_cons_of_mem _ ha) a'
          (List.mem_cons_of_mem _ ha') b (List.mem_cons_of_mem _ hb) b'
          (List.mem_cons_of_mem _ hb')]

end ListRel
