/-
# Singly linked chains

A linked structure is a partial successor function `nx : α → Option α`: `nx a`
is the cell that `a` points to, `none` the null pointer.  `Linked nx l` says that
the list `l` is the whole chain hanging off its first cell.

* a chain is determined by its first cell (`Linked.eq_of_head`), hence acyclic
  (`Linked.nodup`);
* chains only look at the successors of their own cells (`Linked.congr`);
* linking a fresh cell behind the last one extends the chain by it
  (`Linked.append_fresh`);
* the total weight of a chain changes by what one cell changes (`sum_map_update`).
-/
import Mathlib.Data.List.Nodup
import Mathlib.Algebra.BigOperators.Group.List.Basic
import Mathlib.Algebra.GroupWithZero.Nat
import Mathlib.Logic.Function.Basic

namespace LinkedChain

variable {α : Type*}

/-- `l` lists the cells from its first one to the end of the chain. -/
def Linked (nx : α → Option α) : List α → Prop
  | [] => True
  | a :: l => nx a = l.head? ∧ Linked nx l

@[simp] theorem linked_nil (nx : α → Option α) : Linked nx [] := trivial

theorem linked_singleton {nx : α → Option α} {a : α} :
    Linked nx [a] ↔ nx a = none := by
  simp [Linked]

/-- The rest of a chain is a chain. -/
theorem Linked.suffix {nx : α → Option α} {l m : List α} (h : Linked nx (l ++ m)) :
    Linked nx m := by
  induction l with
  | nil => exact h
  | cons a l ih => exact ih h.2

/-- A chain only depends on the successors of its own cells. -/
theorem Linked.congr {nx nx' : α → Option α} {l : List α} (h : Linked nx l)
    (heq : ∀ a ∈ l, nx' a = nx a) : Linked nx' l := by
  induction l with
  | nil => trivial
  | cons a l ih =>
    refine ⟨?_, ih h.2 fun b hb => heq b (List.mem_cons_of_mem a hb)⟩
    rw [heq a List.mem_cons_self]
    exact h.1

/-- Two chains from the same cell are the same chain. -/
theorem Linked.eq_of_head {nx : α → Option α} {l m : List α} (hl : Linked nx l)
    (hm : Linked nx m) (hhead : l.head? = m.head?) : l = m := by
  induction l generalizing m with
  | nil =>
    cases m with
    | nil => rfl
    | cons b m => simp at hhead
  | cons a l ih =>
    cases m with
    | nil => simp at hhead
    | cons b m =>
      obtain rfl : a = b := by simpa using hhead
      rw [ih hl.2 hm.2 (hl.1.symm.trans hm.1)]

/-- A chain that ends is acyclic. -/
theorem Linked.nodup {nx : α → Option α} {l : List α} (h : Linked nx l) : l.Nodup := by
  induction l with
  | nil => exact List.nodup_nil
  | cons a l ih =>
    refine List.nodup_cons.mpr ⟨fun hmem => ?_, ih h.2⟩
    obtain ⟨s, t, rfl⟩ := List.append_of_mem hmem
    -- the same cell at two places would make the tail its own proper suffix
    have hsame : a :: (s ++ a :: t) = a :: t :=
      Linked.eq_of_head h (h.2.suffix) (by simp)
    have hlen := congrArg List.length hsame
    simp only [List.length_cons, List.length_append] at hlen
    omega

/-- Linking a cell that ends a chain behind the last cell appends it. -/
theorem Linked.append_fresh [DecidableEq α] {nx : α → Option α} {l : List α} {last a : α}
    (h : Linked nx (l ++ [last])) (ha : a ∉ l ++ [last]) :
    Linked (Function.update (Function.update nx a none) last (some a)) (l ++ [last, a]) := by
  have hne : a ≠ last := by
    rintro rfl
    simp at ha
  have hnd := h.nodup
  induction l with
  | nil =>
    refine ⟨by simp, ?_⟩
    rw [linked_singleton, Function.update_of_ne hne, Function.update_self]
  | cons b l ih =>
    have hb : b ≠ last := by
      rintro rfl
      simp at hnd
    have hba : b ≠ a := by
      rintro rfl
      simp at ha
    refine ⟨?_, ih h.2 (fun hmem => ha (List.mem_cons_of_mem b hmem)) (List.nodup_cons.mp hnd).2⟩
    rw [Function.update_of_ne hb, Function.update_of_ne hba, h.1]
    cases l <;> rfl

/-! ## Weights along a chain -/

/-- Changing the weight of one cell changes the total weight by as much. -/
theorem sum_map_update [DecidableEq α] (f : α → ℕ) {l : List α} (hl : l.Nodup) {a : α}
    (ha : a ∈ l) (w : ℕ) :
    (l.map (Function.update f a w)).sum + f a = (l.map f).sum + w := by
  induction l with
  | nil => simp at ha
  | cons b l ih =>
    obtain ⟨hb, hl'⟩ := List.nodup_cons.mp hl
    by_cases hba : b = a
    · subst hba
      have hrest : l.map (Function.update f b w) = l.map f :=
        List.map_congr_left fun c hc => Function.update_of_ne (ne_of_mem_of_not_mem hc hb) ..
      rw [List.map_cons, List.map_cons, List.sum_cons, List.sum_cons, hrest,
        Function.update_self]
      omega
    · have ha' : a ∈ l := (List.mem_cons.mp ha).resolve_left (Ne.symm hba)
      rw [List.map_cons, List.map_cons, List.sum_cons, List.sum_cons,
        Function.update_of_ne hba]
      have := ih hl' ha'
      omega

end LinkedChain
