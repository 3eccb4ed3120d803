/-
# Reading back what is written: documents

What the writer stores for a tree is a text of the grammar that stands for the tree, in every
layout (`jsonText_render`): so the parser returns it, up to what becomes of the doubles.  What
the parser does with the output of `json_write` follows for trees without doubles
(`jsonParse_jsonWrite`), also where the output is ASCII only (`jsonWrite_asciiOnly`).
-/
import SJson.ReadBack
import SJson.SortedOutput

namespace SJson

open ErrState Segment Overlay

variable {D : Type}

/-! ## Trees that are read back -/

namespace Json

mutual

/-- The strings and keys of a tree are well-formed and short enough. -/
def TextsOk : Json D → Prop
  | .str s => IsUtf8 s ∧ s.length ≤ jsonMaxStringLen
  | .arr items => TextsOkArr items
  | .obj pairs => TextsOkObj pairs
  | _ => True
termination_by structural j => j

/-- The strings and keys of a list of trees are in order. -/
def TextsOkArr : List (Json D) → Prop
  | [] => True
  | j :: items => TextsOk j ∧ TextsOkArr items
termination_by structural items => items

/-- The strings and keys of a list of pairs are in order. -/
def TextsOkObj : List (List UInt8 × Json D) → Prop
  | [] => True
  | (key, j) :: pairs =>
    (IsUtf8 key ∧ key.length ≤ jsonMaxStringLen) ∧ TextsOk j ∧ TextsOkObj pairs
termination_by structural pairs => pairs

end

theorem textsOkArr_iff {items : List (Json D)} : TextsOkArr items ↔ ∀ j ∈ items, j.TextsOk := by
  induction items with
  | nil => simp [TextsOkArr]
  | cons j items ih => simp [TextsOkArr, ih]

theorem textsOkObj_iff {pairs : List (List UInt8 × Json D)} :
    TextsOkObj pairs ↔
      ∀ kv ∈ pairs, (IsUtf8 kv.1 ∧ kv.1.length ≤ jsonMaxStringLen) ∧ kv.2.TextsOk := by
  induction pairs with
  | nil => simp [TextsOkObj]
  | cons kv pairs ih => simp [TextsOkObj, ih, and_assoc]

mutual

/-- The tree with other doubles. -/
def mapFloats (g : D → D) : Json D → Json D
  | .null => .null
  | .bool b => .bool b
  | .int i => .int i
  | .float f => .float (g f)
  | .str s => .str s
  | .arr items => .arr (mapFloatsArr g items)
  | .obj pairs => .obj (mapFloatsObj g pairs)
termination_by structural j => j

/-- The items with other doubles. -/
def mapFloatsArr (g : D → D) : List (Json D) → List (Json D)
  | [] => []
  | j :: items => mapFloats g j :: mapFloatsArr g items
termination_by structural items => items

/-- The pairs with other doubles. -/
def mapFloatsObj (g : D → D) : List (List UInt8 × Json D) → List (List UInt8 × Json D)
  | [] => []
  | (key, j) :: pairs => (key, mapFloats g j) :: mapFloatsObj g pairs
termination_by structural pairs => pairs

end

theorem mapFloatsArr_eq (g : D → D) (items : List (Json D)) :
    mapFloatsArr g items = items.map (mapFloats g) := by
  induction items with
  | nil => rfl
  | cons j items ih => rw [mapFloatsArr, ih, List.map_cons]

theorem mapFloatsObj_eq (g : D → D) (pairs : List (List UInt8 × Json D)) :
    mapFloatsObj g pairs = pairs.map fun kv => (kv.1, kv.2.mapFloats g) := by
  induction pairs with
  | nil => rfl
  | cons kv pairs ih => rw [mapFloatsObj, ih, List.map_cons]

/-- The doubles that occur are all that matters. -/
theorem mapFloats_congr {g g' : D → D} {j : Json D} :
    j.Floats (fun f => g f = g' f) → j.mapFloats g = j.mapFloats g' := by
  induction j using Json.tree_induction with
  | float f =>
    intro hf
    rw [mapFloats, mapFloats, show g f = g' f from hf]
  | arr items ih =>
    intro hf
    rw [mapFloats, mapFloats, mapFloatsArr_eq, mapFloatsArr_eq]
    exact congrArg _ (List.map_congr_left fun j hj => ih j hj (floatsArr_iff.mp hf j hj))
  | obj pairs ih =>
    intro hf
    rw [mapFloats, mapFloats, mapFloatsObj_eq, mapFloatsObj_eq]
    refine congrArg _ (List.map_congr_left fun kv hkv => ?_)
    rw [ih kv hkv (floatsObj_iff.mp hf kv hkv)]
  | _ => exact fun _ => rfl

@[simp] theorem mapFloats_id (j : Json D) : j.mapFloats (fun f => f) = j := by
  induction j using Json.tree_induction with
  | arr items ih =>
    rw [mapFloats, mapFloatsArr_eq]
    exact congrArg _ ((List.map_congr_left ih).trans (List.map_id' items))
  | obj pairs ih =>
    rw [mapFloats, mapFloatsObj_eq]
    refine congrArg _ ((List.map_congr_left fun kv hkv => ?_).trans (List.map_id' pairs))
    rw [ih kv hkv]
  | _ => rfl

end Json

variable {src : List UInt8}

theorem isWs_newLine (opts : JsonWriteOpts) (depth : ℕ) :
    ∀ c ∈ bytesOf (newLine opts depth), isWs c = true := by
  unfold newLine
  split
  · intro c hc
    simp only [bytesOf_cons, bytesOf_nil, Piece.bytes, List.append_nil, List.cons_append,
      List.nil_append, List.mem_cons, List.mem_replicate] at hc
    rcases hc with rfl | ⟨-, rfl⟩ <;> rfl
  · simp

/-- White space that was written is white space of the grammar. -/
theorem ws_of_spells : ∀ {b : List UInt8} {p q : ℕ}, (∀ c ∈ b, isWs c = true) →
    Spells src p b q → Ws src p q := by
  intro b
  induction b with
  | nil =>
    intro p q _ h
    rw [spells_nil.mp h]
    exact .nil p
  | cons c b ih =>
    intro p q hall h
    obtain ⟨hc, hall⟩ := List.forall_mem_cons.mp hall
    obtain ⟨hget, h⟩ := spells_cons.mp h
    exact .cons hget hc (ih hall h)

theorem stops_of_spells {p q : ℕ} {c : UInt8} {b : List UInt8} (h : Spells src p (c :: b) q)
    (hdigit : isDigit c = false) (hmark : isFloatMark c = false) : Stops src p := by
  intro c' hc'
  rw [(spells_cons.mp h).1] at hc'
  obtain rfl := Option.some.inj hc'
  exact ⟨hdigit, hmark⟩

/-- Nothing of a number follows at the end of a container. -/
theorem stops_close (opts : JsonWriteOpts) {depth len p q : ℕ} {bracket : UInt8}
    (hdigit : isDigit bracket = false) (hmark : isFloatMark bracket = false)
    (h : Spells src p (bytesOf (closePieces opts depth len bracket)) q) : Stops src p := by
  unfold closePieces newLine at h
  split_ifs at h
  · exact stops_of_spells h rfl rfl
  · exact stops_of_spells h hdigit hmark
  · exact stops_of_spells h hdigit hmark

/-- Nothing of a number follows at the end of an output. -/
theorem stops_trailing (opts : JsonWriteOpts) {q : ℕ}
    (h : Spells src q (bytesOf (if opts.trailingNl then [.text [0x0A]] else [])) src.length) :
    Stops src q := by
  split at h
  · exact stops_of_spells h rfl rfl
  · intro c hc
    rw [← spells_nil.mp h, List.getElem?_eq_none le_rfl] at hc
    cases hc

theorem spells_close (opts : JsonWriteOpts) {depth len p q : ℕ} {bracket : UInt8}
    (h : Spells src p (bytesOf (closePieces opts depth len bracket)) q) :
    ∃ r, Ws src p r ∧ src[r]? = some bracket ∧ q = r + 1 := by
  rw [closePieces, bytesOf_append] at h
  obtain ⟨r, hws, hend⟩ := spells_append.mp h
  obtain ⟨hget, hend⟩ := spells_cons.mp hend
  refine ⟨r, ws_of_spells (fun c hc => ?_) hws, hget, spells_nil.mp hend⟩
  split at hc
  · exact isWs_newLine opts depth c hc
  · exact absurd hc List.not_mem_nil

variable [CDouble D]

/-- What is written for the tree `j` is read as the tree `j'`. -/
def ReadsBack (src : List UInt8) (opts : JsonWriteOpts) (j j' : Json D) : Prop :=
  ∀ depth p q, Spells src p (bytesOf (j.pieces opts depth)) q → Stops src q →
    Derives src (.value j') p q

/-- The items of an array are read back. -/
theorem derives_items (opts : JsonWriteOpts) (f : Json D → Json D) {depth len : ℕ} :
    ∀ {items : List (Json D)} {p q : ℕ}, items ≠ [] →
    (∀ j ∈ items, ReadsBack src opts j (f j)) →
    Spells src p (bytesOf (Json.piecesArr opts items depth ++ closePieces opts depth len 0x5D)) q →
    ∃ r, Ws src p r ∧ Derives src (.items (items.map f)) r q := by
  intro items
  induction items with
  | nil => exact fun hne => absurd rfl hne
  | cons j items ih =>
    intro p q _ hall h
    obtain ⟨hj, hall⟩ := List.forall_mem_cons.mp hall
    rw [Json.piecesArr, bytesOf_append, bytesOf_append, bytesOf_append, bytesOf_append,
      List.append_assoc, List.append_assoc, List.append_assoc] at h
    obtain ⟨r, hws, h⟩ := spells_append.mp h
    obtain ⟨s, hvalue, h⟩ := spells_append.mp h
    obtain ⟨t, hcomma, h⟩ := spells_append.mp h
    refine ⟨r, ws_of_spells (isWs_newLine opts _) hws, ?_⟩
    cases items with
    | nil =>
      obtain rfl := spells_nil.mp hcomma
      obtain ⟨u, hws', hclose, rfl⟩ := spells_close opts h
      exact .itemsLast (hj _ _ _ hvalue (stops_close opts rfl rfl h)) hws' hclose
    | cons j' items =>
      have hstop := stops_of_spells hcomma rfl rfl
      obtain ⟨hget, hcomma⟩ := spells_cons.mp hcomma
      obtain rfl := spells_nil.mp hcomma
      obtain ⟨u, hws', hrest⟩ := ih (List.cons_ne_nil _ _) hall (by rwa [bytesOf_append])
      exact .itemsCons (hj _ _ _ hvalue hstop) (.nil s) hget hws' hrest

/-- A key is read back, with its colon. -/
theorem stringAt_keyText (opts : JsonWriteOpts) {key : List UInt8} (hkey : IsUtf8 key)
    (hlen : key.length ≤ jsonMaxStringLen) {p q : ℕ} (h : Spells src p (keyText opts key) q) :
    src[p]? = some 0x22 ∧ ∃ r, StringAt src (p + 1) key r ∧ src[r]? = some 0x3A ∧
      Ws src (r + 1) q := by
  unfold keyText at h
  rw [List.cons_append, List.cons_append] at h
  obtain ⟨hquote, h⟩ := spells_cons.mp h
  rw [show contentText opts.asciiOnly key ++ [0x22, 0x3A] ++ (if opts.pretty then [0x20] else [])
    = (contentText opts.asciiOnly key ++ [0x22]) ++ 0x3A :: if opts.pretty then [0x20] else []
    by simp] at h
  obtain ⟨r, hstring, h⟩ := spells_append.mp h
  obtain ⟨hcolon, h⟩ := spells_cons.mp h
  refine ⟨hquote, r, stringAt_contentText _ hkey hlen hstring, hcolon, ws_of_spells ?_ h⟩
  intro c hc
  split at hc
  · rw [List.mem_singleton.mp hc]
    rfl
  · exact absurd hc List.not_mem_nil

/-- The pairs of an object are read back. -/
theorem derives_pairs (opts : JsonWriteOpts) (f : Json D → Json D) {depth len : ℕ} :
    ∀ {pairs : List (List UInt8 × Json D)} {p q : ℕ}, pairs ≠ [] →
    (∀ kv ∈ pairs, (IsUtf8 kv.1 ∧ kv.1.length ≤ jsonMaxStringLen) ∧
      ReadsBack src opts kv.2 (f kv.2)) →
    Spells src p (bytesOf (Json.piecesObj opts pairs depth ++ closePieces opts depth len 0x7D)) q →
    ∃ r, Ws src p r ∧ Derives src (.pairs (pairs.map fun kv => (kv.1, f kv.2))) r q := by
  intro pairs
  induction pairs with
  | nil => exact fun hne => absurd rfl hne
  | cons kv pairs ih =>
    obtain ⟨key, j⟩ := kv
    intro p q _ hall h
    obtain ⟨⟨⟨hkey, hlen⟩, hj⟩, hall⟩ := List.forall_mem_cons.mp hall
    rw [Json.piecesObj, bytesOf_append, bytesOf_append, bytesOf_append, bytesOf_append,
      bytesOf_cons, List.append_assoc, List.append_assoc, List.append_assoc,
      List.append_assoc] at h
    obtain ⟨r, hws, h⟩ := spells_append.mp h
    obtain ⟨r', hkeyText, h⟩ := spells_append.mp h
    obtain ⟨s, hvalue, h⟩ := spells_append.mp h
    obtain ⟨t, hcomma, h⟩ := spells_append.mp h
    obtain ⟨hquote, u, hstring, hcolon, hspace⟩ := stringAt_keyText opts hkey hlen hkeyText
    refine ⟨r, ws_of_spells (isWs_newLine opts _) hws, ?_⟩
    cases pairs with
    | nil =>
      obtain rfl := spells_nil.mp hcomma
      obtain ⟨w, hws', hclose, rfl⟩ := spells_close opts h
      exact .pairsLast hquote hstring (.nil u) hcolon hspace
        (hj _ _ _ hvalue (stops_close opts rfl rfl h)) hws' hclose
    | cons kv' pairs =>
      have hstop := stops_of_spells hcomma rfl rfl
      obtain ⟨hget, hcomma⟩ := spells_cons.mp hcomma
      obtain rfl := spells_nil.mp hcomma
      obtain ⟨w, hws', hrest⟩ := ih (List.cons_ne_nil _ _) hall (by rwa [bytesOf_append])
      exact .pairsCons hquote hstring (.nil u) hcolon hspace (hj _ _ _ hvalue hstop) (.nil s)
        hget hws' hrest

/-- What is written for the double `f` is read as the double `f'`. -/
def ReadsAs (src : List UInt8) (f f' : D) : Prop :=
  ∀ p q, Spells src p (floatBytes f) q → Stops src q → numberToken src p = .ok (.float f', q)

omit [CDouble D] in
theorem literalAt_of_spells {lit : List UInt8} {p q : ℕ} (h : Spells src p lit q) :
    LiteralAt src p lit ∧ q = p + lit.length := by
  obtain ⟨hq, t, ht⟩ := h
  refine ⟨?_, hq⟩
  rw [LiteralAt, ← ht, List.take_left]

/-- **Every tree is read back**, whatever the options, up to what becomes of its doubles. -/
theorem readsBack_mapFloats (opts : JsonWriteOpts) {g : D → D} {j : Json D} :
    j.TextsOk → j.Floats (fun f => ReadsAs src f (g f)) → ReadsBack src opts j (j.mapFloats g) := by
  induction j using Json.tree_induction with
  | null =>
    intro _ _ depth p q h _
    rw [Json.pieces, bytesOf_cons, bytesOf_nil, List.append_nil] at h
    obtain ⟨hlit, rfl⟩ := literalAt_of_spells h
    exact .litNull hlit
  | bool b =>
    intro _ _ depth p q h _
    rw [Json.pieces, bytesOf_cons, bytesOf_nil, List.append_nil] at h
    obtain ⟨hlit, rfl⟩ := literalAt_of_spells h
    cases b with
    | true => exact .litTrue hlit
    | false => exact .litFalse hlit
  | int i =>
    intro _ _ depth p q h hstop
    rw [Json.pieces, bytesOf_cons, bytesOf_nil, List.append_nil] at h
    exact .number (numberToken_intText i h hstop)
  | float f =>
    intro _ hf depth p q h hstop
    rw [Json.pieces, bytesOf_cons, bytesOf_nil, List.append_nil] at h
    exact .number (hf p q h hstop)
  | str s =>
    rintro ⟨hs, hlen⟩ _ depth p q h _
    have hbytes : bytesOf ((Json.str s : Json D).pieces opts depth)
        = 0x22 :: (contentText opts.asciiOnly s ++ [0x22]) := by
      simp [Json.pieces, Piece.bytes]
    rw [hbytes] at h
    obtain ⟨hquote, h⟩ := spells_cons.mp h
    exact .string hquote (stringAt_contentText _ hs hlen h)
  | arr items ih =>
    intro htexts hfloats depth p q h _
    rw [Json.pieces, bytesOf_cons, Piece.bytes, List.singleton_append] at h
    obtain ⟨hopen, h⟩ := spells_cons.mp h
    rw [Json.mapFloats, Json.mapFloatsArr_eq]
    by_cases hnil : items = []
    · subst hnil
      obtain ⟨r, hws, hclose, rfl⟩ := spells_close opts (by simpa [Json.piecesArr] using h)
      exact .arrNil hopen hws hclose
    · obtain ⟨r, hws, hitems⟩ := derives_items opts (Json.mapFloats g) hnil
        (fun j hj => ih j hj (Json.textsOkArr_iff.mp htexts j hj)
          (Json.floatsArr_iff.mp hfloats j hj)) h
      exact .arr hopen hws hitems
  | obj pairs ih =>
    intro htexts hfloats depth p q h _
    rw [Json.pieces, bytesOf_cons, Piece.bytes, List.singleton_append] at h
    obtain ⟨hopen, h⟩ := spells_cons.mp h
    rw [Json.mapFloats, Json.mapFloatsObj_eq]
    by_cases hnil : pairs = []
    · subst hnil
      obtain ⟨r, hws, hclose, rfl⟩ := spells_close opts (by simpa [Json.piecesObj] using h)
      exact .objNil hopen hws hclose
    · have htexts := Json.textsOkObj_iff.mp htexts
      obtain ⟨r, hws, hpairs⟩ := derives_pairs opts (Json.mapFloats g) hnil
        (fun kv hkv => ⟨(htexts kv hkv).1, ih kv hkv (htexts kv hkv).2
          (Json.floatsObj_iff.mp hfloats kv hkv)⟩) h
      exact .obj hopen hws hpairs

/-- **What is written is a text of the grammar**, and stands for the tree. -/
theorem jsonText_render (opts : JsonWriteOpts) {g : D → D} {j : Json D} (htexts : j.TextsOk)
    (hfloats : j.Floats fun f => ReadsAs (j.render opts) f (g f)) :
    JsonText (j.render opts) (j.mapFloats g) := by
  generalize hsrc : j.render opts = src at hfloats ⊢
  have h : Spells src 0 (j.render opts) src.length := by
    rw [hsrc]
    exact spells_self src
  rw [Json.render, Json.layout, bytesOf_append] at h
  obtain ⟨q, hvalue, hend⟩ := spells_append.mp h
  have hws : Ws src q src.length := by
    refine ws_of_spells (fun c hc => ?_) hend
    split at hc
    · rw [List.mem_singleton.mp hc]
      rfl
    · exact absurd hc List.not_mem_nil
  exact ⟨0, q, .nil 0, readsBack_mapFloats opts htexts hfloats 0 0 q hvalue
    (stops_trailing opts hend), hws⟩

/-! ## Trees on the heap -/

omit [CDouble D] in
/-- What is written of a heap in order is within the limits on strings and containers. -/
theorem unfold_inOrder {h : Heap D} (hrep : h.RepOk) (sort : Bool) : ∀ (room : ℕ) {p : JsonPtr},
    p < h.next →
    (h.unfold sort room p).TextsOk ∧ (h.unfold sort room p).width ≤ jsonMaxArrayLen := by
  intro room
  induction room with
  | zero => exact fun _ => ⟨trivial, Nat.zero_le _⟩
  | succ room ih =>
    intro p hp
    have hok := hrep p hp
    unfold Heap.unfold
    cases hnode : h.node p with
    | string s =>
      rw [hnode] at hok
      exact ⟨⟨hok.utf8, hok.len⟩, Nat.zero_le _⟩
    | array a =>
      rw [hnode] at hok
      obtain ⟨⟨hlen, hcap⟩, hitems⟩ := hok
      refine ⟨Json.textsOkArr_iff.mpr (List.forall_mem_map.mpr fun q hq => (ih (hitems q hq)).1),
        max_le ?_ (Json.widthArr_le.mpr (List.forall_mem_map.mpr fun q hq => (ih (hitems q hq)).2))⟩
      rw [List.length_map]
      exact hlen.trans hcap
    | object o =>
      rw [hnode] at hok
      obtain ⟨⟨hlen, hcap⟩, hpairs, -⟩ := hok
      have hperm := arrange_perm sort o.pairs
      have hpairs : ∀ pr ∈ arrange sort o.pairs, pr.key.Ok ∧ pr.val < h.next := fun pr hpr =>
        hpairs pr (hperm.mem_iff.mp hpr)
      refine ⟨Json.textsOkObj_iff.mpr (List.forall_mem_map.mpr fun pr hpr =>
          ⟨⟨(hpairs pr hpr).1.utf8, (hpairs pr hpr).1.len⟩, (ih (hpairs pr hpr).2).1⟩),
        max_le ?_ (Json.widthObj_le.mpr (List.forall_mem_map.mpr fun pr hpr =>
          (ih (hpairs pr hpr).2).2))⟩
      rw [List.length_map, hperm.length_eq]
      exact hlen.trans hcap
    | _ => exact ⟨trivial, Nat.zero_le _⟩

omit [CDouble D] in
/-- Sorting changes neither the number of values nor the nesting. -/
theorem nodes_unfold (h : Heap D) (sort : Bool) : ∀ (room : ℕ) (p : JsonPtr),
    (h.unfold sort room p).nodes = (h.unfold false room p).nodes := by
  intro room
  induction room with
  | zero => exact fun _ => rfl
  | succ room ih =>
    intro p
    unfold Heap.unfold
    cases h.node p with
    | array a =>
      simp only [Json.nodes, Json.nodesArr_eq, List.map_map, Function.comp_def, ih]
    | object o =>
      have hperm := (arrange_perm sort o.pairs).map fun pr => (h.unfold false room pr.val).nodes
      simp only [Json.nodes, Json.nodesObj_eq, List.map_map, Function.comp_def, ih, arrange_false,
        hperm.sum_eq]
    | _ => rfl

omit [CDouble D] in
theorem nesting_unfold_le (h : Heap D) (sort sort' : Bool) : ∀ (room : ℕ) (p : JsonPtr),
    (h.unfold sort room p).nesting ≤ (h.unfold sort' room p).nesting := by
  intro room
  induction room with
  | zero => exact fun _ => le_rfl
  | succ room ih =>
    intro p
    unfold Heap.unfold
    cases h.node p with
    | array a =>
      refine Nat.succ_le_succ (Json.nestingArr_le.mpr (List.forall_mem_map.mpr fun q hq => ?_))
      exact (ih q).trans (Json.nestingArr_le.mp le_rfl _ (List.mem_map_of_mem hq))
    | object o =>
      refine Nat.succ_le_succ (Json.nestingObj_le.mpr (List.forall_mem_map.mpr fun pr hpr => ?_))
      have hmem : pr ∈ arrange sort' o.pairs :=
        (arrange_perm sort' o.pairs).mem_iff.mpr ((arrange_perm sort o.pairs).mem_iff.mp hpr)
      exact (ih pr.val).trans (Json.nestingObj_le.mp le_rfl
        (pr.key.data, h.unfold sort' room pr.val) (List.mem_map.mpr ⟨pr, hmem, rfl⟩))
    | _ => exact le_rfl

/-! ## Documents -/

/-- The text of a tree without doubles stands for the tree. -/
theorem jsonText_floatFree (opts : JsonWriteOpts) {j : Json D} (htexts : j.TextsOk)
    (hfree : j.FloatFree) : JsonText (j.render opts) j := by
  have h := jsonText_render opts (g := fun f => f) htexts
    (Json.Floats.mono (fun _ hf => hf.elim) hfree)
  rwa [Json.mapFloats_id] at h

/-- The text of a tree within the limits, parsed into a fresh arena. -/
theorem jsonParse_text {src : List UInt8} {j : Json D} (htext : JsonText src j)
    (hlim : j.InLimits) (hlen : src.length ≤ ptrdiffMax) (g : Heap D) {A : Arena} (hA : A.Fresh) :
    ∃ w t, jsonParse src ⟨g, A⟩ = .ok w t ∧ Denotes t.heap j w := by
  obtain ⟨w, t, hparse, hden, -⟩ :=
    jsonParse_fresh (h := g) hA hlen (refParse_iff.mpr ⟨htext, hlim, rfl⟩)
  exact ⟨w, t, hparse, hden.denotes⟩

omit [CDouble D] in
theorem Written.Holds.bytes_eq {r : Written} {buf : ℕ → UInt8} {text : List UInt8}
    (h : r.Holds buf text) : r.bytes = text := by
  unfold Written.bytes
  rw [h.written, h.buf]
  refine List.ext_getElem (by simp) fun k h1 h2 => ?_
  have hk : k < (text ++ [0]).length := by
    rw [List.length_append]
    omega
  have hget := overlay_get (f := buf) (i := 0) hk
  rw [List.getElem_map, List.getElem_range]
  rw [Nat.zero_add] at hget
  rw [hget, List.getElem_append_left h2]

/-- What is written of a value without doubles, within the limits of the parser. -/
theorem jsonWrite_readBack {h : Heap D} (hh : ApiHeap h) {v : JsonPtr} (hv : v < h.next)
    {j : Json D} (hden : Denotes h j v) (hfree : j.FloatFree) (hnodes : j.nodes ≤ jsonMaxNodes)
    (hnest : j.nesting ≤ jsonMaxDepth - 1) (opts : JsonWriteOpts) {c : ℕ} (hc : c ≤ ptrdiffMax)
    (hfit : (h.rendering opts v).length < c) (buf : ℕ → UInt8) {sortMem : ℕ → Bool}
    (hmem : ∀ k, sortMem k = true) :
    ∃ r, jsonWrite h v buf c opts sortMem = .ok r ∧ r.Holds buf (h.rendering opts v) ∧
      ∀ (g : Heap D) (A : Arena), A.Fresh → ∃ w t, jsonParse r.bytes ⟨g, A⟩ = .ok w t ∧
        Denotes t.heap (h.unfold opts.sortKeys jsonMaxDepth v) w := by
  have hrep := hh.repOk
  have hlevels : j.levels ≤ jsonMaxDepth := Json.levels_le_maxDepth hnest
  have hw : h.Writable jsonMaxDepth v := hden.ends hlevels hfree.printable
  have hsize : c ≤ sizeMax := hc.trans (by decide)
  obtain ⟨r, hr, hholds⟩ := jsonWrite_of_writable opts hrep hv hw hfit hsize buf hmem
  refine ⟨r, hr, hholds, fun g A hA => ?_⟩
  rw [hholds.bytes_eq]
  -- the tree that is written is within the limits
  obtain ⟨htexts, hwidth⟩ := unfold_inOrder hrep opts.sortKeys jsonMaxDepth hv
  have hunfold : h.unfold false jsonMaxDepth v = j := hden.unfold hlevels
  have hfree' : (h.unfold opts.sortKeys jsonMaxDepth v).FloatFree :=
    (Heap.Ends.unfold opts.sortKeys (hden.ends hlevels hfree)).2
  have hnest' := nesting_unfold_le h opts.sortKeys false jsonMaxDepth v
  have hnodes' := nodes_unfold h opts.sortKeys jsonMaxDepth v
  rw [hunfold] at hnest' hnodes'
  exact jsonParse_text (jsonText_floatFree opts htexts hfree')
    ⟨hnest'.trans hnest, hwidth, hnodes'.trans_le hnodes⟩ (hfit.le.trans hc) g hA

/-- **Encode, then decode.**  What `json_write` stores for a value without doubles that is
within the limits of the parser is parsed to the same tree: the same types, integers, bytes,
items and pairs, in the same order, whatever the layout and the escapes. -/
theorem jsonParse_jsonWrite {h : Heap D} (hh : ApiHeap h) {v : JsonPtr} (hv : v < h.next)
    {j : Json D} (hden : Denotes h j v) (hfree : j.FloatFree) (hnodes : j.nodes ≤ jsonMaxNodes)
    (hnest : j.nesting ≤ jsonMaxDepth - 1) (opts : JsonWriteOpts) (hsort : opts.sortKeys = false)
    {c : ℕ} (hc : c ≤ ptrdiffMax) (hfit : (j.render opts).length < c) (buf : ℕ → UInt8)
    {sortMem : ℕ → Bool} (hmem : ∀ k, sortMem k = true) :
    ∃ r, jsonWrite h v buf c opts sortMem = .ok r ∧ r.status = .ok ∧
      ∀ (g : Heap D) (A : Arena), A.Fresh → ∃ w t, jsonParse r.bytes ⟨g, A⟩ = .ok w t ∧
        Denotes t.heap j w := by
  have hlevels : j.levels ≤ jsonMaxDepth := Json.levels_le_maxDepth hnest
  obtain ⟨r, hr, hholds, hparse⟩ := jsonWrite_readBack hh hv hden hfree hnodes hnest opts hc
    (by rwa [hden.rendering hlevels hsort]) buf hmem
  rw [hsort, hden.unfold hlevels] at hparse
  exact ⟨r, hr, hholds.status, hparse⟩

/-- The value of the text `["a\n",-5]`, written with an indentation and parsed again. -/
theorem jsonParse_jsonWrite_two :
    ∃ (_ : CDouble Unit) (h : Heap Unit) (v w : JsonPtr) (r : Written) (A : Arena) (t : St Unit),
      ApiHeap h ∧ jsonWrite h v (fun _ => 0) 30 { kDefaultOpts with pretty := true }
        (fun _ => true) = .ok r ∧ jsonParse r.bytes ⟨.empty, A⟩ = .ok w t ∧
      Denotes t.heap (.arr [.str [0x61, 0x0A], .int (-5)]) w := by
  obtain ⟨A, hA⟩ := Arena.exists_fresh
  let _ : CDouble Unit := .unit
  have href : refParse [0x5B, 0x22, 0x61, 0x5C, 0x6E, 0x22, 0x2C, 0x2D, 0x35, 0x5D] 0
      = .ok ((.arr [.str [0x61, 0x0A], .int (-5)] : Json Unit), 3) := by rfl
  obtain ⟨v, s, -, hapi, hv, -, hden, -⟩ := ApiHeap.empty.exists_parsed (by decide) href hA
  have hlen : ((.arr [.str [0x61, 0x0A], .int (-5)] : Json Unit).render
      { kDefaultOpts with pretty := true }).length = 17 := by rfl
  obtain ⟨r, hr, -, hparse⟩ := jsonParse_jsonWrite hapi hv hden.denotes ⟨trivial, trivial, trivial⟩
    (by decide) (by decide) { kDefaultOpts with pretty := true } rfl (c := 30) (by decide)
    (by rw [hlen]; decide) (fun _ => 0) (fun _ => rfl)
  obtain ⟨w, t, hok, hw⟩ := hparse .empty A hA
  exact ⟨_, s.heap, v, w, r, A, t, hapi, hr, hok, hw⟩

/-! ## ASCII output -/

/-- All bytes are ASCII. -/
def IsAscii (b : List UInt8) : Prop := ∀ c ∈ b, c.toNat < 0x80

theorem isAscii_append {a b : List UInt8} : IsAscii (a ++ b) ↔ IsAscii a ∧ IsAscii b :=
  List.forall_mem_append

theorem isAscii_hexDigit (n : ℕ) : (hexDigit n).toNat < 0x80 := by
  have hlt : n % 16 < 16 := Nat.mod_lt _ (by decide)
  unfold hexDigit
  split
  · rw [toNat_ofNat (by omega)]
    omega
  · rw [toNat_ofNat (by omega)]
    omega

theorem isAscii_u16Text (code : ℕ) : IsAscii (u16Text code) := by
  simp [IsAscii, u16Text, isAscii_hexDigit]

theorem isAscii_escapeText (c : UInt8) : IsAscii (escapeText c) := by
  unfold escapeText
  split_ifs <;> simp [IsAscii, isAscii_hexDigit]

theorem isAscii_charText (cp : ℕ) : IsAscii (charText true cp) := by
  unfold charText
  split
  · rename_i hlo
    split
    · exact isAscii_escapeText _
    · simpa [IsAscii, toNat_ofNat (show cp < 256 by omega)] using hlo
  · rw [if_neg (by decide)]
    split
    · exact isAscii_u16Text _
    · exact isAscii_append.mpr ⟨isAscii_u16Text _, isAscii_u16Text _⟩

theorem isAscii_contentText (s : List UInt8) : IsAscii (contentText true s) := by
  intro c hc
  obtain ⟨cp, -, hcp⟩ := List.mem_flatMap.mp hc
  exact isAscii_charText cp c hcp

theorem isAscii_intText (i : Int64) : IsAscii (intText i) := by
  unfold intText
  refine isAscii_append.mpr ⟨?_, ?_⟩
  · split <;> simp [IsAscii]
  · split
    · simp [IsAscii]
    · intro c hc
      obtain ⟨d, hd, rfl⟩ := List.mem_map.mp hc
      have hlt := Nat.digits_lt_base (b := 10) (by decide) (List.mem_reverse.mp hd)
      rw [toNat_ofNat (by omega)]
      omega

theorem isAscii_newLine (opts : JsonWriteOpts) (depth : ℕ) :
    IsAscii (bytesOf (newLine opts depth)) := by
  intro c hc
  have hws := isWs_newLine opts depth c hc
  unfold isWs at hws
  rcases of_decide_eq_true hws with rfl | rfl | rfl | rfl <;> decide

theorem isAscii_close (opts : JsonWriteOpts) (depth len : ℕ) {bracket : UInt8}
    (hbracket : bracket.toNat < 0x80) :
    IsAscii (bytesOf (closePieces opts depth len bracket)) := by
  rw [closePieces, bytesOf_append]
  refine isAscii_append.mpr ⟨?_, by simpa [IsAscii, Piece.bytes] using hbracket⟩
  split
  · exact isAscii_newLine opts depth
  · simp [IsAscii]

theorem isAscii_comma (last : Bool) : IsAscii (bytesOf (commaPieces last)) := by
  cases last <;> simp [IsAscii, commaPieces, Piece.bytes]

/-- **Only ASCII is written for a tree without doubles** with `ascii_only`. -/
theorem isAscii_pieces {opts : JsonWriteOpts} (hascii : opts.asciiOnly = true) {j : Json D} :
    j.FloatFree → ∀ depth, IsAscii (bytesOf (j.pieces opts depth)) := by
  induction j using Json.tree_induction with
  | null => exact fun _ _ => by simp [Json.pieces, IsAscii, Piece.bytes, litNull]
  | bool b =>
    intro _ _
    cases b <;> simp [Json.pieces, IsAscii, Piece.bytes, litTrue, litFalse]
  | int i =>
    intro _ _
    simpa [Json.pieces, Piece.bytes] using isAscii_intText i
  | float f => exact fun hf => hf.elim
  | str s =>
    intro _ _
    have h := isAscii_contentText s
    have hbytes : bytesOf ((Json.str s : Json D).pieces opts 0)
        = [0x22] ++ (contentText true s ++ [0x22]) := by
      simp [Json.pieces, Piece.bytes, hascii]
    rw [Json.pieces] at hbytes ⊢
    rw [hbytes]
    exact isAscii_append.mpr ⟨by simp [IsAscii], isAscii_append.mpr ⟨h, by simp [IsAscii]⟩⟩
  | arr items ih =>
    intro hf depth
    have hf := Json.floatsArr_iff.mp hf
    have hitems : ∀ l : List (Json D), (∀ j ∈ l, j ∈ items) →
        IsAscii (bytesOf (Json.piecesArr opts l depth)) := by
      intro l
      induction l with
      | nil => exact fun _ => by simp [Json.piecesArr, IsAscii]
      | cons j l ihl =>
        intro hsub
        obtain ⟨hj, hl⟩ := List.forall_mem_cons.mp hsub
        simp only [Json.piecesArr, bytesOf_append, isAscii_append]
        exact ⟨⟨⟨isAscii_newLine _ _, ih j hj (hf j hj) _⟩, isAscii_comma _⟩, ihl hl⟩
    rw [Json.pieces, bytesOf_cons, bytesOf_append]
    exact isAscii_append.mpr ⟨by simp [IsAscii, Piece.bytes], isAscii_append.mpr
      ⟨hitems items fun _ hj => hj, isAscii_close opts depth _ (by decide)⟩⟩
  | obj pairs ih =>
    intro hf depth
    have hf := Json.floatsObj_iff.mp hf
    have hkey : ∀ key, IsAscii (keyText opts key) := by
      intro key
      unfold keyText
      rw [hascii, ← List.singleton_append]
      refine isAscii_append.mpr ⟨isAscii_append.mpr ⟨isAscii_append.mpr ⟨by simp [IsAscii],
        isAscii_contentText key⟩, by simp [IsAscii]⟩, ?_⟩
      split <;> simp [IsAscii]
    have hpairs : ∀ l : List (List UInt8 × Json D), (∀ kv ∈ l, kv ∈ pairs) →
        IsAscii (bytesOf (Json.piecesObj opts l depth)) := by
      intro l
      induction l with
      | nil => exact fun _ => by simp [Json.piecesObj, IsAscii]
      | cons kv l ihl =>
        intro hsub
        obtain ⟨hkv, hl⟩ := List.forall_mem_cons.mp hsub
        obtain ⟨key, j⟩ := kv
        simp only [Json.piecesObj, bytesOf_append, bytesOf_cons, isAscii_append]
        exact ⟨⟨⟨isAscii_newLine _ _, hkey key, ih _ hkv (hf _ hkv) _⟩, isAscii_comma _⟩, ihl hl⟩
    rw [Json.pieces, bytesOf_cons, bytesOf_append]
    exact isAscii_append.mpr ⟨by simp [IsAscii, Piece.bytes], isAscii_append.mpr
      ⟨hpairs pairs fun _ hkv => hkv, isAscii_close opts depth _ (by decide)⟩⟩

theorem isAscii_render {opts : JsonWriteOpts} (hascii : opts.asciiOnly = true) {j : Json D}
    (hfree : j.FloatFree) : IsAscii (j.render opts) := by
  rw [Json.render, Json.layout, bytesOf_append]
  refine isAscii_append.mpr ⟨isAscii_pieces hascii hfree 0, ?_⟩
  split <;> simp [IsAscii, Piece.bytes]

/-- **ASCII output means the same document.**  With `ascii_only` only bytes below `0x80` are
written, and they are parsed to the same tree as what is written without it: every string and
key has its original bytes. -/
theorem jsonWrite_asciiOnly {h : Heap D} (hh : ApiHeap h) {v : JsonPtr} (hv : v < h.next)
    {j : Json D} (hden : Denotes h j v) (hfree : j.FloatFree) (hnodes : j.nodes ≤ jsonMaxNodes)
    (hnest : j.nesting ≤ jsonMaxDepth - 1) (opts : JsonWriteOpts) {c : ℕ} (hc : c ≤ ptrdiffMax)
    (hfit : (h.rendering { opts with asciiOnly := true } v).length < c)
    (hfit' : (h.rendering { opts with asciiOnly := false } v).length < c) (buf : ℕ → UInt8)
    {sortMem : ℕ → Bool} (hmem : ∀ k, sortMem k = true) :
    ∃ r r', jsonWrite h v buf c { opts with asciiOnly := true } sortMem = .ok r ∧
      jsonWrite h v buf c { opts with asciiOnly := false } sortMem = .ok r' ∧
      r.status = .ok ∧ r'.status = .ok ∧ (∀ b ∈ r.bytes, b.toNat < 0x80) ∧
      ∃ j' : Json D, (opts.sortKeys = false → j' = j) ∧ (opts.sortKeys = true → j.Arranged j') ∧
        ∀ (g : Heap D) (A : Arena), A.Fresh → ∃ w t w' t',
          jsonParse r.bytes ⟨g, A⟩ = .ok w t ∧ jsonParse r'.bytes ⟨g, A⟩ = .ok w' t' ∧
          Denotes t.heap j' w ∧ Denotes t'.heap j' w' := by
  have hlevels : j.levels ≤ jsonMaxDepth := Json.levels_le_maxDepth hnest
  obtain ⟨r, hr, hholds, hparse⟩ := jsonWrite_readBack hh hv hden hfree hnodes hnest
    { opts with asciiOnly := true } hc hfit buf hmem
  obtain ⟨r', hr', hholds', hparse'⟩ := jsonWrite_readBack hh hv hden hfree hnodes hnest
    { opts with asciiOnly := false } hc hfit' buf hmem
  have hfree' : (h.unfold opts.sortKeys jsonMaxDepth v).FloatFree :=
    (Heap.Ends.unfold opts.sortKeys (hden.ends hlevels hfree)).2
  refine ⟨r, r', hr, hr', hholds.status, hholds'.status, ?_,
    h.unfold opts.sortKeys jsonMaxDepth v, fun hsort => ?_, fun hsort => ?_, fun g A hA => ?_⟩
  · rw [hholds.bytes_eq]
    exact isAscii_render rfl hfree'
  · rw [hsort, hden.unfold hlevels]
  · have harranged := arranged_unfold h jsonMaxDepth v
    rwa [hden.unfold hlevels, ← hsort] at harranged
  · obtain ⟨w, t, hok, hw⟩ := hparse g A hA
    obtain ⟨w', t', hok', hw'⟩ := hparse' g A hA
    exact ⟨w, t, w', t', hok, hok', hw, hw'⟩

/-- The value of the text `"é"`, written in ASCII. -/
theorem jsonWrite_asciiOnly_one :
    ∃ (_ : CDouble Unit) (h : Heap Unit) (v : JsonPtr) (r : Written), ApiHeap h ∧ v < h.next ∧
      jsonWrite h v (fun _ => 0) 20 { kDefaultOpts with asciiOnly := true } (fun _ => true)
        = .ok r ∧ r.status = .ok ∧ ∀ b ∈ r.bytes, b.toNat < 0x80 := by
  obtain ⟨A, hA⟩ := Arena.exists_fresh
  let _ : CDouble Unit := .unit
  have href : refParse [0x22, 0xC3, 0xA9, 0x22] 0
      = .ok ((.str [0xC3, 0xA9] : Json Unit), 1) := by rfl
  obtain ⟨v, s, -, hapi, hv, -, hden, -⟩ := ApiHeap.empty.exists_parsed (by decide) href hA
  have hrender : ∀ ascii, s.heap.rendering { kDefaultOpts with asciiOnly := ascii } v
      = (.str [0xC3, 0xA9] : Json Unit).render { kDefaultOpts with asciiOnly := ascii } :=
    fun _ => hden.denotes.rendering (by decide) rfl
  obtain ⟨r, r', hr, -, hok, -, hascii, -⟩ := jsonWrite_asciiOnly hapi hv hden.denotes trivial
    (by decide) (by decide) kDefaultOpts (c := 20) (by decide) (by rw [hrender]; decide)
    (by rw [hrender]; decide) (fun _ => 0) (fun _ => rfl)
  exact ⟨_, s.heap, v, r, hapi, hv, hr, hok, hascii⟩

end SJson
