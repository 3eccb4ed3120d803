/-
# Trees and the heaps that hold them

A heap that denotes a tree unfolds to it, given as many levels as the tree has
(`Denotes.unfold`), and the writer gets through it exactly if it has the levels and every
double a text (`Denotes.ends_iff`).
-/
import SJson.Layout

namespace SJson

open ListRel

namespace Json

variable {D : Type}

/-! ## Levels and doubles -/

mutual

/-- The levels of values in a tree. -/
def levels : Json D → ℕ
  | .arr items => levelsArr items + 1
  | .obj pairs => levelsObj pairs + 1
  | _ => 1
termination_by structural j => j

/-- The levels of values in a list of trees. -/
def levelsArr : List (Json D) → ℕ
  | [] => 0
  | j :: items => max (levels j) (levelsArr items)
termination_by structural items => items

/-- The levels of values in a list of pairs. -/
def levelsObj : List (List UInt8 × Json D) → ℕ
  | [] => 0
  | (_, j) :: pairs => max (levels j) (levelsObj pairs)
termination_by structural pairs => pairs

end

mutual

/-- Every double of a tree satisfies `P`. -/
def Floats (P : D → Prop) : Json D → Prop
  | .float f => P f
  | .arr items => FloatsArr P items
  | .obj pairs => FloatsObj P pairs
  | _ => True
termination_by structural j => j

/-- Every double of a list of trees satisfies `P`. -/
def FloatsArr (P : D → Prop) : List (Json D) → Prop
  | [] => True
  | j :: items => Floats P j ∧ FloatsArr P items
termination_by structural items => items

/-- Every double of a list of pairs satisfies `P`. -/
def FloatsObj (P : D → Prop) : List (List UInt8 × Json D) → Prop
  | [] => True
  | (_, j) :: pairs => Floats P j ∧ FloatsObj P pairs
termination_by structural pairs => pairs

end

/-- A tree without doubles. -/
def FloatFree (j : Json D) : Prop := j.Floats fun _ => False

/-- A tree whose doubles have a text. -/
def Printable [CDouble D] (j : Json D) : Prop := j.Floats HasText

theorem levelsArr_le {n : ℕ} {items : List (Json D)} :
    levelsArr items ≤ n ↔ ∀ j ∈ items, j.levels ≤ n := by
  induction items with
  | nil => simp [levelsArr]
  | cons j items ih => simp [levelsArr, ih]

theorem levelsObj_le {n : ℕ} {pairs : List (List UInt8 × Json D)} :
    levelsObj pairs ≤ n ↔ ∀ kv ∈ pairs, kv.2.levels ≤ n := by
  induction pairs with
  | nil => simp [levelsObj]
  | cons kv pairs ih => simp [levelsObj, ih]

theorem floatsArr_iff {P : D → Prop} {items : List (Json D)} :
    FloatsArr P items ↔ ∀ j ∈ items, j.Floats P := by
  induction items with
  | nil => simp [FloatsArr]
  | cons j items ih => simp [FloatsArr, ih]

theorem floatsObj_iff {P : D → Prop} {pairs : List (List UInt8 × Json D)} :
    FloatsObj P pairs ↔ ∀ kv ∈ pairs, kv.2.Floats P := by
  induction pairs with
  | nil => simp [FloatsObj]
  | cons kv pairs ih => simp [FloatsObj, ih]

theorem levels_pos (j : Json D) : 0 < j.levels := by
  cases j <;> simp [levels]

theorem Floats.mono {P Q : D → Prop} (himp : ∀ f, P f → Q f) {j : Json D} :
    j.Floats P → j.Floats Q := by
  induction j using Json.tree_induction with
  | float f => exact himp f
  | arr items ih =>
    unfold Floats
    rw [floatsArr_iff, floatsArr_iff]
    exact fun h j hj => ih j hj (h j hj)
  | obj pairs ih =>
    unfold Floats
    rw [floatsObj_iff, floatsObj_iff]
    exact fun h kv hkv => ih kv hkv (h kv hkv)
  | _ => exact fun h => h

theorem floats_true (j : Json D) : j.Floats fun _ => True := by
  induction j using Json.tree_induction with
  | arr items ih => exact floatsArr_iff.mpr ih
  | obj pairs ih => exact floatsObj_iff.mpr ih
  | _ => trivial

theorem FloatFree.printable [CDouble D] {j : Json D} (h : j.FloatFree) : j.Printable :=
  Floats.mono (fun _ hf => hf.elim) h

theorem nestingArr_le {n : ℕ} {items : List (Json D)} :
    nestingArr items ≤ n ↔ ∀ j ∈ items, j.nesting ≤ n := by
  induction items with
  | nil => simp [nestingArr]
  | cons j items ih => simp [nestingArr, ih]

theorem nestingObj_le {n : ℕ} {pairs : List (List UInt8 × Json D)} :
    nestingObj pairs ≤ n ↔ ∀ kv ∈ pairs, kv.2.nesting ≤ n := by
  induction pairs with
  | nil => simp [nestingObj]
  | cons kv pairs ih => simp [nestingObj, ih]

theorem widthArr_le {n : ℕ} {items : List (Json D)} :
    widthArr items ≤ n ↔ ∀ j ∈ items, j.width ≤ n := by
  induction items with
  | nil => simp [widthArr]
  | cons j items ih => simp [widthArr, ih]

theorem widthObj_le {n : ℕ} {pairs : List (List UInt8 × Json D)} :
    widthObj pairs ≤ n ↔ ∀ kv ∈ pairs, kv.2.width ≤ n := by
  induction pairs with
  | nil => simp [widthObj]
  | cons kv pairs ih => simp [widthObj, ih]

theorem nodesArr_eq (items : List (Json D)) : nodesArr items = (items.map nodes).sum := by
  induction items with
  | nil => rfl
  | cons j items ih => rw [nodesArr, ih, List.map_cons, List.sum_cons]

theorem nodesObj_eq (pairs : List (List UInt8 × Json D)) :
    nodesObj pairs = (pairs.map fun kv => kv.2.nodes).sum := by
  induction pairs with
  | nil => rfl
  | cons kv pairs ih => rw [nodesObj, ih, List.map_cons, List.sum_cons]

/-- A container is a level, and a scalar in the innermost one is another. -/
theorem levels_le_nesting (j : Json D) : j.levels ≤ j.nesting + 1 := by
  induction j using Json.tree_induction with
  | arr items ih =>
    rw [levels, nesting]
    have hle : levelsArr items ≤ nestingArr items + 1 := levelsArr_le.mpr fun j hj =>
      (ih j hj).trans (Nat.succ_le_succ (nestingArr_le.mp le_rfl j hj))
    omega
  | obj pairs ih =>
    rw [levels, nesting]
    have hle : levelsObj pairs ≤ nestingObj pairs + 1 := levelsObj_le.mpr fun kv hkv =>
      (ih kv hkv).trans (Nat.succ_le_succ (nestingObj_le.mp le_rfl kv hkv))
    omega
  | _ => simp [levels]

/-- What the parser accepts is followed to its scalars. -/
theorem levels_le_maxDepth {j : Json D} (hnest : j.nesting ≤ jsonMaxDepth - 1) :
    j.levels ≤ jsonMaxDepth :=
  j.levels_le_nesting.trans (Nat.succ_le_succ hnest)

end Json

/-! ## Unfolding -/

variable {D : Type} {h : Heap D}

/-- What is denoted is what is seen from the root, with enough levels. -/
theorem Denotes.unfold {j : Json D} : ∀ {room : ℕ} {p : JsonPtr}, Denotes h j p →
    j.levels ≤ room → h.unfold false room p = j := by
  induction j using Json.tree_induction with
  | arr items ih =>
    intro room p hp hroom
    obtain ⟨-, a, ha, hall⟩ := denotesIn_arr.mp hp
    rw [Json.levels] at hroom
    obtain ⟨room, rfl⟩ := Nat.exists_eq_succ_of_ne_zero (show room ≠ 0 by omega)
    have hle := Json.levelsArr_le.mp (Nat.le_of_succ_le_succ hroom)
    unfold Heap.unfold
    rw [ha]
    exact congrArg Json.arr (forall₂_map_eq hall fun j hj p hp => ih j hj hp (hle j hj))
  | obj pairs ih =>
    intro room p hp hroom
    obtain ⟨-, o, ho, hall⟩ := denotesIn_obj.mp hp
    rw [Json.levels] at hroom
    obtain ⟨room, rfl⟩ := Nat.exists_eq_succ_of_ne_zero (show room ≠ 0 by omega)
    have hle := Json.levelsObj_le.mp (Nat.le_of_succ_le_succ hroom)
    unfold Heap.unfold
    rw [ho]
    dsimp only
    rw [arrange_false]
    exact congrArg Json.obj (forall₂_map_eq hall fun kv hkv pr hpr =>
      Prod.ext hpr.1 (ih kv hkv hpr.2 (hle kv hkv)))
  | str data =>
    intro room p hp hroom
    obtain ⟨room, rfl⟩ := Nat.exists_eq_succ_of_ne_zero (Nat.ne_zero_of_lt hroom)
    obtain ⟨-, s, hs, rfl⟩ := hp
    unfold Heap.unfold
    rw [hs]
  | _ =>
    intro room p hp hroom
    obtain ⟨room, rfl⟩ := Nat.exists_eq_succ_of_ne_zero (Nat.ne_zero_of_lt hroom)
    unfold Heap.unfold
    rw [hp.2]

/-- The levels and doubles that are seen from the root of a graph that ends. -/
theorem Heap.Ends.unfold {P : D → Prop} (sort : Bool) : ∀ {room : ℕ} {p : JsonPtr},
    h.Ends P room p → (h.unfold sort room p).levels ≤ room ∧ (h.unfold sort room p).Floats P := by
  intro room
  induction room with
  | zero => exact fun hends => hends.elim
  | succ room ih =>
    intro p hends
    unfold Heap.Ends at hends
    unfold Heap.unfold
    cases hnode : h.node p with
    | array a =>
      rw [hnode] at hends
      refine ⟨Nat.succ_le_succ (Json.levelsArr_le.mpr ?_), Json.floatsArr_iff.mpr ?_⟩
      · exact List.forall_mem_map.mpr fun q hq => (ih (hends q hq)).1
      · exact List.forall_mem_map.mpr fun q hq => (ih (hends q hq)).2
    | object o =>
      rw [hnode] at hends
      have hends := fun pr hpr => hends pr ((arrange_perm sort o.pairs).mem_iff.mp hpr)
      refine ⟨Nat.succ_le_succ (Json.levelsObj_le.mpr ?_), Json.floatsObj_iff.mpr ?_⟩
      · exact List.forall_mem_map.mpr fun pr hpr => (ih (hends pr hpr)).1
      · exact List.forall_mem_map.mpr fun pr hpr => (ih (hends pr hpr)).2
    | float f =>
      rw [hnode] at hends
      exact ⟨Nat.le_add_left .., hends⟩
    | _ => exact ⟨Nat.le_add_left .., trivial⟩

/-- A graph that ends denotes what is seen from the root. -/
theorem Heap.Ends.denotes {P : D → Prop} : ∀ {room : ℕ} {p : JsonPtr}, h.Ends P room p →
    Denotes h (h.unfold false room p) p := by
  intro room
  induction room with
  | zero => exact fun hends => hends.elim
  | succ room ih =>
    intro p hends
    unfold Heap.Ends at hends
    unfold Heap.unfold
    cases hnode : h.node p with
    | array a =>
      rw [hnode] at hends
      refine denotesIn_arr.mpr ⟨trivial, a, hnode, ?_⟩
      exact List.forall₂_map_left_iff.mpr (List.forall₂_same.mpr fun q hq => ih (hends q hq))
    | object o =>
      rw [hnode] at hends
      dsimp only
      rw [arrange_false]
      refine denotesIn_obj.mpr ⟨trivial, o, hnode, ?_⟩
      exact List.forall₂_map_left_iff.mpr
        (List.forall₂_same.mpr fun pr hpr => ⟨rfl, ih (hends pr hpr)⟩)
    | string s => exact ⟨trivial, s, hnode, rfl⟩
    | _ => exact ⟨trivial, hnode⟩

/-- A pointer denotes one tree at most. -/
theorem Denotes.unique {j j' : Json D} {p : JsonPtr} (hp : Denotes h j p) (hp' : Denotes h j' p) :
    j = j' := by
  have hj := hp.unfold (le_max_left j.levels j'.levels)
  rw [← hj, hp'.unfold (le_max_right j.levels j'.levels)]

theorem Denotes.ends {P : D → Prop} {j : Json D} : ∀ {room : ℕ} {p : JsonPtr}, Denotes h j p →
    j.levels ≤ room → j.Floats P → h.Ends P room p := by
  induction j using Json.tree_induction with
  | arr items ih =>
    intro room p hp hroom hfloats
    obtain ⟨-, a, ha, hall⟩ := denotesIn_arr.mp hp
    rw [Json.levels] at hroom
    obtain ⟨room, rfl⟩ := Nat.exists_eq_succ_of_ne_zero (show room ≠ 0 by omega)
    have hle := Json.levelsArr_le.mp (Nat.le_of_succ_le_succ hroom)
    have hfloats := Json.floatsArr_iff.mp hfloats
    unfold Heap.Ends
    rw [ha]
    exact forall₂_right hall fun j hj p hp => ih j hj hp (hle j hj) (hfloats j hj)
  | obj pairs ih =>
    intro room p hp hroom hfloats
    obtain ⟨-, o, ho, hall⟩ := denotesIn_obj.mp hp
    rw [Json.levels] at hroom
    obtain ⟨room, rfl⟩ := Nat.exists_eq_succ_of_ne_zero (show room ≠ 0 by omega)
    have hle := Json.levelsObj_le.mp (Nat.le_of_succ_le_succ hroom)
    have hfloats := Json.floatsObj_iff.mp hfloats
    unfold Heap.Ends
    rw [ho]
    exact forall₂_right hall fun kv hkv pr hpr => ih kv hkv hpr.2 (hle kv hkv) (hfloats kv hkv)
  | str data =>
    intro room p hp hroom _
    obtain ⟨room, rfl⟩ := Nat.exists_eq_succ_of_ne_zero (Nat.ne_zero_of_lt hroom)
    obtain ⟨-, s, hs, -⟩ := hp
    unfold Heap.Ends
    rw [hs]
    trivial
  | float f =>
    intro room p hp hroom hfloats
    obtain ⟨room, rfl⟩ := Nat.exists_eq_succ_of_ne_zero (Nat.ne_zero_of_lt hroom)
    unfold Heap.Ends
    rw [hp.2]
    exact hfloats
  | _ =>
    intro room p hp hroom _
    obtain ⟨room, rfl⟩ := Nat.exists_eq_succ_of_ne_zero (Nat.ne_zero_of_lt hroom)
    unfold Heap.Ends
    rw [hp.2]
    trivial

/-- **A tree ends** at its last level. -/
theorem Denotes.ends_iff {P : D → Prop} {j : Json D} {p : JsonPtr} (hp : Denotes h j p) {room : ℕ} :
    h.Ends P room p ↔ j.levels ≤ room ∧ j.Floats P := by
  constructor
  · intro hends
    rw [hp.unique hends.denotes]
    exact hends.unfold false
  · exact fun ⟨hlevels, hfloats⟩ => hp.ends hlevels hfloats

end SJson
