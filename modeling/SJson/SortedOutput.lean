/-
# Sorted output

With `sort_keys` the writer writes another tree: the one in which the pairs of every object
stand in the lexical order of their keys (`Json.Arranged`).  It is written exactly when the
tree itself is, and what is written is what writing it without sorting gives
(`jsonWrite_sorted`).
-/
import SJson.Output

namespace SJson

open ListRel

variable {D : Type}

/-! ## Sorted trees -/

/-- The keys in the lexical order of their unsigned bytes, a proper prefix first. -/
def keysAscend (pairs : List (List UInt8 × Json D)) : Prop :=
  pairs.Pairwise fun a b => a.1.map UInt8.toNat ≤ b.1.map UInt8.toNat

/-- The second tree is the first one with the pairs of every object, at every depth, permuted
into the lexical order of the keys. -/
inductive Json.Arranged : Json D → Json D → Prop
  | null : Arranged .null .null
  | bool (b : Bool) : Arranged (.bool b) (.bool b)
  | int (i : Int64) : Arranged (.int i) (.int i)
  | float (f : D) : Arranged (.float f) (.float f)
  | str (s : List UInt8) : Arranged (.str s) (.str s)
  | arr {items items' : List (Json D)} (h : List.Forall₂ Arranged items items') :
      Arranged (.arr items) (.arr items')
  | obj {pairs perm pairs' : List (List UInt8 × Json D)} (hperm : perm.Perm pairs)
      (hkeys : perm.map Prod.fst = pairs'.map Prod.fst)
      (h : List.Forall₂ Arranged (perm.map Prod.snd) (pairs'.map Prod.snd))
      (hsorted : keysAscend pairs') : Arranged (.obj pairs) (.obj pairs')

theorem sortKey_lexical {a b : JsonStr} (h : sortKey true a ≤ sortKey true b) :
    a.data.map UInt8.toNat ≤ b.data.map UInt8.toNat := by
  unfold sortKey at h
  rw [if_pos rfl, if_pos rfl, Prod.Lex.toLex_le_toLex] at h
  rcases h with hlt | ⟨-, hle⟩
  · exact absurd hlt (lt_irrefl 0)
  · exact hle

theorem arrange_sorted (pairs : List JsonPair) :
    (arrange true pairs).Pairwise fun a b =>
      a.key.data.map UInt8.toNat ≤ b.key.data.map UInt8.toNat := by
  unfold arrange
  by_cases hlen : pairs.length > 1
  · rw [if_pos ⟨rfl, hlen⟩]
    exact (sortedPairs_spec pairs).2.2.imp sortKey_lexical
  · rw [if_neg fun h => hlen h.2]
    rcases pairs with _ | ⟨pr, _ | ⟨pr', pairs⟩⟩
    · exact List.Pairwise.nil
    · exact List.pairwise_singleton ..
    · exact absurd hlen (by simp)

/-- **What is written with `sort_keys`** is the sorted tree. -/
theorem arranged_unfold (h : Heap D) : ∀ (room : ℕ) (p : JsonPtr),
    (h.unfold false room p).Arranged (h.unfold true room p) := by
  intro room
  induction room with
  | zero => exact fun _ => .null
  | succ room ih =>
    intro p
    unfold Heap.unfold
    cases h.node p with
    | null => exact .null
    | bool b => exact .bool b
    | integer i => exact .int i
    | float f => exact .float f
    | string s => exact .str s.data
    | array a => exact .arr (forall₂_map_map fun q _ => ih q)
    | object o =>
      dsimp only
      rw [arrange_false]
      refine .obj ((arrange_perm true o.pairs).map _) ?_ ?_ ?_
      · rw [List.map_map, List.map_map]
        rfl
      · rw [List.map_map, List.map_map]
        exact forall₂_map_map fun pr _ => ih pr.val
      · exact List.pairwise_map.mpr (arrange_sorted o.pairs)

/-! ## Options -/

variable [CDouble D]

/-- The pieces do not depend on whether the keys are sorted. -/
theorem pieces_sortKeys (opts : JsonWriteOpts) (b : Bool) (j : Json D) : ∀ depth : ℕ,
    j.pieces { opts with sortKeys := b } depth = j.pieces opts depth := by
  induction j using Json.tree_induction with
  | arr items ih =>
    intro depth
    have hitems : Json.piecesArr { opts with sortKeys := b } items depth
        = Json.piecesArr opts items depth := by
      induction items with
      | nil => rfl
      | cons j items ihs =>
        obtain ⟨hj, hitems⟩ := List.forall_mem_cons.mp ih
        rw [Json.piecesArr, Json.piecesArr, hj, ihs hitems]
        rfl
    rw [Json.pieces, Json.pieces, hitems]
    rfl
  | obj pairs ih =>
    intro depth
    have hpairs : Json.piecesObj { opts with sortKeys := b } pairs depth
        = Json.piecesObj opts pairs depth := by
      induction pairs with
      | nil => rfl
      | cons kv pairs ihs =>
        obtain ⟨hkv, hpairs⟩ := List.forall_mem_cons.mp ih
        obtain ⟨key, j⟩ := kv
        rw [Json.piecesObj, Json.piecesObj, hkv, ihs hpairs]
        rfl
    rw [Json.pieces, Json.pieces, hpairs]
    rfl
  | _ => exact fun _ => rfl

theorem render_sortKeys (opts : JsonWriteOpts) (b : Bool) (j : Json D) :
    j.render { opts with sortKeys := b } = j.render opts := by
  unfold Json.render Json.layout
  rw [pieces_sortKeys]

/-! ## Writing -/

omit [CDouble D] in
theorem Written.Holds.unique {r r' : Written} {buf : ℕ → UInt8} {text : List UInt8}
    (h : r.Holds buf text) (h' : r'.Holds buf text) : r = r' := by
  obtain ⟨status, written, mem⟩ := r
  obtain ⟨status', written', mem'⟩ := r'
  obtain rfl : status = status' := h.status.trans h'.status.symm
  obtain rfl : written = written' := h.written.trans h'.written.symm
  obtain rfl : mem = mem' := h.buf.trans h'.buf.symm
  rfl

/-- Writing into a buffer that is long enough: it succeeds on what can be written. -/
theorem jsonWrite_status (opts : JsonWriteOpts) {h : Heap D} (hrep : h.RepOk) {v : JsonPtr}
    (hv : v < h.next) {c : ℕ} (hfit : (h.rendering opts v).length < c) (hc : c ≤ sizeMax)
    (buf : ℕ → UInt8) {sortMem : ℕ → Bool} (hmem : ∀ k, sortMem k = true) :
    ∃ r, jsonWrite h v buf c opts sortMem = .ok r ∧
      (r.status = .ok ↔ h.Writable jsonMaxDepth v) ∧
      (r.status = .ok → r.Holds buf (h.rendering opts v)) := by
  obtain ⟨r, hr, -⟩ := jsonWrite_safe hrep hv buf c opts sortMem
  have hholds : h.Writable jsonMaxDepth v → r.Holds buf (h.rendering opts v) := by
    intro hw
    obtain ⟨r', hr', hholds⟩ := jsonWrite_of_writable opts hrep hv hw hfit hc buf hmem
    cases hr.symm.trans hr'
    exact hholds
  exact ⟨r, hr, ⟨jsonWrite_ok hr, fun hw => (hholds hw).status⟩,
    fun hok => hholds (jsonWrite_ok hr hok)⟩

/-- **Sorted output is a rendering in lexical order and nothing else.**  In a buffer that is
long enough a value is written with sorted keys exactly if it is written without; what is
written then is what writing the sorted tree without sorting gives. -/
theorem jsonWrite_sorted {h : Heap D} (hh : ApiHeap h) {v : JsonPtr} (hv : v < h.next) {j : Json D}
    (hj : Denotes h j v) (opts : JsonWriteOpts) {c : ℕ} (hfit : (j.render opts).length < c)
    (hc : c ≤ sizeMax) (buf : ℕ → UInt8) {sortMem : ℕ → Bool} (hmem : ∀ k, sortMem k = true) :
    ∃ r r', jsonWrite h v buf c { opts with sortKeys := true } sortMem = .ok r ∧
      jsonWrite h v buf c { opts with sortKeys := false } sortMem = .ok r' ∧
      (r.status = .ok ↔ r'.status = .ok) ∧
      (r.status = .ok → ∃ j' : Json D, j.Arranged j' ∧
        (j'.render opts).length = (j.render opts).length ∧
        r.Holds buf (j'.render opts) ∧ r'.Holds buf (j.render opts) ∧
        ∀ (g : Heap D) (u : JsonPtr), ApiHeap g → u < g.next → Denotes g j' u →
          jsonWrite g u buf c { opts with sortKeys := false } sortMem = .ok r) := by
  have hrep := hh.repOk
  by_cases hlevels : j.levels ≤ jsonMaxDepth
  · -- both runs have room for their texts, and these are equally long
    have hplain : h.rendering { opts with sortKeys := false } v = j.render opts := by
      rw [hj.rendering hlevels rfl, render_sortKeys]
    have hsorted : h.rendering { opts with sortKeys := true } v
        = (h.unfold true jsonMaxDepth v).render opts := by
      rw [Heap.rendering, render_sortKeys]
    have hlen : ((h.unfold true jsonMaxDepth v).render opts).length = (j.render opts).length := by
      rw [← hsorted, length_rendering h false, render_sortKeys, hj.unfold hlevels]
    obtain ⟨r, hr, hstatus, hholds⟩ := jsonWrite_status { opts with sortKeys := true }
      hrep hv (by rw [hsorted, hlen]; exact hfit) hc buf hmem
    obtain ⟨r', hr', hstatus', hholds'⟩ := jsonWrite_status { opts with sortKeys := false }
      hrep hv (by rw [hplain]; exact hfit) hc buf hmem
    rw [hsorted] at hholds
    rw [hplain] at hholds'
    refine ⟨r, r', hr, hr', hstatus.trans hstatus'.symm, fun hok => ?_⟩
    have hw := hstatus.mp hok
    have harranged := arranged_unfold h jsonMaxDepth v
    rw [hj.unfold hlevels] at harranged
    refine ⟨_, harranged, hlen, hholds hok, hholds' (hstatus'.mpr hw), fun g u hg hu hden => ?_⟩
    -- the sorted tree, wherever it is, is written as it stands
    obtain ⟨hlevels', hfloats⟩ := Heap.Ends.unfold true hw
    have hrender : g.rendering { opts with sortKeys := false } u
        = (h.unfold true jsonMaxDepth v).render opts := by
      rw [hden.rendering hlevels' rfl, render_sortKeys]
    obtain ⟨r'', hr'', hstatus'', hholds''⟩ :=
      jsonWrite_status { opts with sortKeys := false } hg.repOk hu
        (by rw [hrender, hlen]; exact hfit) hc buf hmem
    rw [hrender] at hholds''
    have hok'' := hholds'' (hstatus''.mpr (hden.ends hlevels' hfloats))
    rw [hr'', hok''.unique (hholds hok)]
  · -- a tree with too many levels is not written at all
    have hno : ¬ h.Writable jsonMaxDepth v := fun hw => hlevels (hj.ends_iff.mp hw).1
    obtain ⟨r, hr, -⟩ := jsonWrite_safe hrep hv buf c { opts with sortKeys := true } sortMem
    obtain ⟨r', hr', -⟩ := jsonWrite_safe hrep hv buf c { opts with sortKeys := false } sortMem
    exact ⟨r, r', hr, hr', iff_of_false (fun hok => hno (jsonWrite_ok hr hok))
      (fun hok => hno (jsonWrite_ok hr' hok)), fun hok => absurd (jsonWrite_ok hr hok) hno⟩

/-- The value of the text `{"b":true,"a":null}`, written with sorted keys. -/
theorem jsonWrite_sorted_two :
    ∃ (_ : CDouble Unit) (h : Heap Unit) (v : JsonPtr) (r : Written), ApiHeap h ∧ v < h.next ∧
      jsonWrite h v (fun _ => 0) 20 { kDefaultOpts with sortKeys := true } (fun _ => true)
        = .ok r ∧ r.status = .ok ∧ r.written = 19 := by
  obtain ⟨A, hA⟩ := Arena.exists_fresh
  let _ : CDouble Unit := .unit
  have href : refParse [0x7B, 0x22, 0x62, 0x22, 0x3A, 0x74, 0x72, 0x75, 0x65, 0x2C, 0x22, 0x61,
      0x22, 0x3A, 0x6E, 0x75, 0x6C, 0x6C, 0x7D] 0
      = .ok ((.obj [([0x62], .bool true), ([0x61], .null)] : Json Unit), 3) := by rfl
  obtain ⟨v, s, -, hapi, hv, -, hden, -⟩ := ApiHeap.empty.exists_parsed (by decide) href hA
  have hlen : ((.obj [([0x62], .bool true), ([0x61], .null)] : Json Unit).render
    kDefaultOpts).length = 19 := by rfl
  obtain ⟨r, r', hr, hr', hiff, hsorted⟩ := jsonWrite_sorted hapi hv hden.denotes kDefaultOpts
    (c := 20) (by rw [hlen]; decide) (by decide) (fun _ => 0) (fun _ => rfl)
  have hw : s.heap.Writable jsonMaxDepth v :=
    hden.denotes.ends (by decide) ⟨trivial, trivial, trivial⟩
  obtain ⟨r₁, hr₁, hholds⟩ := jsonWrite_of_writable (c := 20) kDefaultOpts hapi.repOk hv hw
    (by rw [hden.denotes.rendering (by decide) rfl, hlen]; decide) (by decide) (fun _ => 0)
    (fun _ => rfl)
  have hok : r.status = .ok := by
    have heq : r' = r₁ := Except.ok.inj (hr'.symm.trans hr₁)
    rw [hiff, heq]
    exact hholds.status
  obtain ⟨j', -, hlen', hholds', -⟩ := hsorted hok
  exact ⟨_, s.heap, v, r, hapi, hv, hr, hok, by rw [hholds'.written, hlen', hlen]⟩

end SJson
