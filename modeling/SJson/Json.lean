/-
# Abstract JSON values

What a value means, apart from the pointers, capacities, hashes and indices of its
representation: a finite tree (`Json`).  `Denotes h j p` says that the graph of nodes
from `p` unfolds to the tree `j`; it is stated with a condition on the pointers that
are met, so that a change elsewhere in the heap is seen not to matter
(`DenotesIn.congr`).
-/
import SJson.Memory
import SJson.Lib.ListRel

namespace SJson

open ListRel

/-- A JSON value. -/
inductive Json (D : Type) where
  | null
  | bool (b : Bool)
  | int (i : Int64)
  | float (f : D)
  | str (data : List UInt8)
  | arr (items : List (Json D))
  | obj (pairs : List (List UInt8 × Json D))

variable {D : Type}

namespace Json

/-! ## Measures -/

mutual

/-- The number of values in a tree. -/
def nodes : Json D → ℕ
  | .arr items => nodesArr items + 1
  | .obj pairs => nodesObj pairs + 1
  | _ => 1
termination_by structural j => j

/-- The number of values in a list of trees. -/
def nodesArr : List (Json D) → ℕ
  | [] => 0
  | j :: items => nodes j + nodesArr items
termination_by structural items => items

/-- The number of values in a list of pairs. -/
def nodesObj : List (List UInt8 × Json D) → ℕ
  | [] => 0
  | (_, j) :: pairs => nodes j + nodesObj pairs
termination_by structural pairs => pairs

end

mutual

/-- How deep containers nest in a tree; an empty container counts. -/
def nesting : Json D → ℕ
  | .arr items => nestingArr items + 1
  | .obj pairs => nestingObj pairs + 1
  | _ => 0
termination_by structural j => j

/-- How deep containers nest in a list of trees. -/
def nestingArr : List (Json D) → ℕ
  | [] => 0
  | j :: items => max (nesting j) (nestingArr items)
termination_by structural items => items

/-- How deep containers nest in a list of pairs. -/
def nestingObj : List (List UInt8 × Json D) → ℕ
  | [] => 0
  | (_, j) :: pairs => max (nesting j) (nestingObj pairs)
termination_by structural pairs => pairs

end

mutual

/-- The number of entries of the longest container of a tree. -/
def width : Json D → ℕ
  | .arr items => max items.length (widthArr items)
  | .obj pairs => max pairs.length (widthObj pairs)
  | _ => 0
termination_by structural j => j

/-- The number of entries of the longest container in a list of trees. -/
def widthArr : List (Json D) → ℕ
  | [] => 0
  | j :: items => max (width j) (widthArr items)
termination_by structural items => items

/-- The number of entries of the longest container in a list of pairs. -/
def widthObj : List (List UInt8 × Json D) → ℕ
  | [] => 0
  | (_, j) :: pairs => max (width j) (widthObj pairs)
termination_by structural pairs => pairs

end

theorem nodes_pos (j : Json D) : 0 < j.nodes := by
  cases j <;> simp [nodes]

/-- Induction over trees, with the hypothesis for every child. -/
theorem tree_induction {P : Json D → Prop} (null : P .null) (bool : ∀ b, P (.bool b))
    (int : ∀ i, P (.int i)) (float : ∀ f, P (.float f)) (str : ∀ s, P (.str s))
    (arr : ∀ items, (∀ j ∈ items, P j) → P (.arr items))
    (obj : ∀ pairs : List (List UInt8 × Json D), (∀ kv ∈ pairs, P kv.2) → P (.obj pairs))
    (j : Json D) : P j :=
  @Json.rec D P (fun items => ∀ j ∈ items, P j) (fun pairs => ∀ kv ∈ pairs, P kv.2)
    (fun kv => P kv.2)
    null bool int float str arr obj (by simp) (fun _ _ h t => List.forall_mem_cons.mpr ⟨h, t⟩)
    (by simp) (fun _ _ h t => List.forall_mem_cons.mpr ⟨h, t⟩) (fun _ _ h => h) j

end Json

/-! ## What a heap denotes -/

mutual

/-- The nodes from `p` on unfold to the tree, and all pointers met satisfy `ok`. -/
def DenotesIn (ok : JsonPtr → Prop) (h : Heap D) : Json D → JsonPtr → Prop
  | .null, p => ok p ∧ h.node p = .null
  | .bool b, p => ok p ∧ h.node p = .bool b
  | .int i, p => ok p ∧ h.node p = .integer i
  | .float f, p => ok p ∧ h.node p = .float f
  | .str data, p => ok p ∧ ∃ s, h.node p = .string s ∧ s.data = data
  | .arr items, p => ok p ∧ ∃ a, h.node p = .array a ∧ DenotesArr ok h items a.items
  | .obj pairs, p => ok p ∧ ∃ o, h.node p = .object o ∧ DenotesObj ok h pairs o.pairs
termination_by structural j => j

/-- The pointers denote the trees, one by one. -/
def DenotesArr (ok : JsonPtr → Prop) (h : Heap D) : List (Json D) → List JsonPtr → Prop
  | [], [] => True
  | j :: items, p :: ps => DenotesIn ok h j p ∧ DenotesArr ok h items ps
  | _, _ => False
termination_by structural items => items

/-- The pairs denote the keys and trees, one by one. -/
def DenotesObj (ok : JsonPtr → Prop) (h : Heap D) :
    List (List UInt8 × Json D) → List JsonPair → Prop
  | [], [] => True
  | (k, j) :: pairs, pr :: prs =>
    pr.key.data = k ∧ DenotesIn ok h j pr.val ∧ DenotesObj ok h pairs prs
  | _, _ => False
termination_by structural pairs => pairs

end

/-- The nodes from `p` on unfold to the tree. -/
def Denotes (h : Heap D) (j : Json D) (p : JsonPtr) : Prop := DenotesIn (fun _ => True) h j p

theorem denotesArr_iff {ok : JsonPtr → Prop} {h : Heap D} {items : List (Json D)}
    {ps : List JsonPtr} :
    DenotesArr ok h items ps ↔ List.Forall₂ (DenotesIn ok h) items ps := by
  induction items generalizing ps with
  | nil => cases ps <;> simp [DenotesArr]
  | cons j items ih => cases ps <;> simp [DenotesArr, ih]

/-- A pair denotes a key and a tree. -/
def PairDenotes (ok : JsonPtr → Prop) (h : Heap D) (kv : List UInt8 × Json D) (pr : JsonPair) :
    Prop :=
  pr.key.data = kv.1 ∧ DenotesIn ok h kv.2 pr.val

theorem denotesObj_iff {ok : JsonPtr → Prop} {h : Heap D} {pairs : List (List UInt8 × Json D)}
    {prs : List JsonPair} :
    DenotesObj ok h pairs prs ↔ List.Forall₂ (PairDenotes ok h) pairs prs := by
  induction pairs generalizing prs with
  | nil => cases prs <;> simp [DenotesObj]
  | cons kv pairs ih => cases prs <;> simp [DenotesObj, PairDenotes, ih, and_assoc]

theorem denotesIn_arr {ok : JsonPtr → Prop} {h : Heap D} {items : List (Json D)} {p : JsonPtr} :
    DenotesIn ok h (.arr items) p ↔
      ok p ∧ ∃ a, h.node p = .array a ∧ List.Forall₂ (DenotesIn ok h) items a.items := by
  rw [DenotesIn]
  simp only [denotesArr_iff]

theorem denotesIn_obj {ok : JsonPtr → Prop} {h : Heap D} {pairs : List (List UInt8 × Json D)}
    {p : JsonPtr} :
    DenotesIn ok h (.obj pairs) p ↔
      ok p ∧ ∃ o, h.node p = .object o ∧ List.Forall₂ (PairDenotes ok h) pairs o.pairs := by
  rw [DenotesIn]
  simp only [denotesObj_iff]

/-- The nodes met stay what they were: so does what they denote. -/
theorem DenotesIn.congr {ok ok' : JsonPtr → Prop} {h h' : Heap D}
    (hsame : ∀ q, ok q → ok' q ∧ h'.node q = h.node q) {j : Json D} :
    ∀ {p : JsonPtr}, DenotesIn ok h j p → DenotesIn ok' h' j p := by
  induction j using Json.tree_induction with
  | arr items ih =>
    intro p hp
    rw [denotesIn_arr] at hp ⊢
    obtain ⟨hok, a, ha, hall⟩ := hp
    exact ⟨(hsame p hok).1, a, by rw [(hsame p hok).2, ha],
      forall₂_imp_mem hall fun j hj p hp => ih j hj hp⟩
  | obj pairs ih =>
    intro p hp
    rw [denotesIn_obj] at hp ⊢
    obtain ⟨hok, o, ho, hall⟩ := hp
    exact ⟨(hsame p hok).1, o, by rw [(hsame p hok).2, ho],
      forall₂_imp_mem hall fun kv hkv pr hpr => ⟨hpr.1, ih kv hkv hpr.2⟩⟩
  | str data =>
    rintro p ⟨hok, s, hs⟩
    exact ⟨(hsame p hok).1, s, by rw [(hsame p hok).2]; exact hs⟩
  | _ =>
    rintro p ⟨hok, hp⟩
    exact ⟨(hsame p hok).1, by rw [(hsame p hok).2, hp]⟩

theorem DenotesIn.ok {ok : JsonPtr → Prop} {h : Heap D} {j : Json D} {p : JsonPtr}
    (hp : DenotesIn ok h j p) : ok p := by
  cases j <;> exact hp.1

/-- A tree is denoted, wherever its nodes are. -/
theorem DenotesIn.denotes {ok : JsonPtr → Prop} {h : Heap D} {j : Json D} {p : JsonPtr}
    (hp : DenotesIn ok h j p) : Denotes h j p :=
  hp.congr fun _ _ => ⟨trivial, rfl⟩

end SJson
