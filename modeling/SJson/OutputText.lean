/-
# What an output consists of, and how long it is

A property of texts that is kept by concatenation and that the parts of an output have is one
of the whole output (`Closed.render`).  With it: what is written is well-formed UTF-8 in which
new lines are the only control characters (`isText_render`), so that a C string ends where the
output does; and a value within the limits of the parser has an output of less than 2^60 bytes
(`length_render_le`), so that it can always be measured (`jsonWrite_text`).
-/
import SJson.Stability

namespace SJson

open Decimal Overlay

/-! ## Texts -/

/-- Well-formed UTF-8 without control characters, but for new lines. -/
structure IsText (b : List UInt8) : Prop where
  utf8 : IsUtf8 b
  shown : ∀ c ∈ b, 0x20 ≤ c.toNat ∨ c = 0x0A

theorem IsUtf8.append {a b : List UInt8} (ha : IsUtf8 a) (hb : IsUtf8 b) : IsUtf8 (a ++ b) := by
  obtain ⟨cps, hcps, rfl⟩ := ha
  obtain ⟨cps', hcps', rfl⟩ := hb
  refine ⟨cps ++ cps', ?_, List.flatMap_append.symm⟩
  intro cp hcp
  rcases List.mem_append.mp hcp with h | h
  · exact hcps cp h
  · exact hcps' cp h

theorem IsAscii.isUtf8 {b : List UInt8} (h : IsAscii b) : IsUtf8 b := by
  induction b with
  | nil => exact isUtf8_nil
  | cons c b ih =>
    obtain ⟨hc, hb⟩ := List.forall_mem_cons.mp h
    have hone : jsonEncodeUtf8 c.toNat = [c] := jsonEncodeUtf8_one hc rfl
    have hscalar : IsScalar c.toNat := by
      unfold IsScalar
      omega
    rw [← List.singleton_append, ← hone]
    exact (IsUtf8.encode_append hscalar).mpr (ih hb)

theorem isText_nil : IsText [] := ⟨isUtf8_nil, by simp⟩

theorem IsText.append {a b : List UInt8} (ha : IsText a) (hb : IsText b) : IsText (a ++ b) where
  utf8 := ha.utf8.append hb.utf8
  shown := List.forall_mem_append.mpr ⟨ha.shown, hb.shown⟩

theorem IsAscii.isText {b : List UInt8} (h : IsAscii b)
    (hshown : ∀ c ∈ b, 0x20 ≤ c.toNat ∨ c = 0x0A) : IsText b := ⟨h.isUtf8, hshown⟩

/-- A text has no NUL. -/
theorem IsText.no_nul {b : List UInt8} (h : IsText b) : ∀ c ∈ b, c ≠ 0 := by
  rintro c hc rfl
  rcases h.shown 0 hc with hle | heq
  · exact absurd hle (by decide)
  · exact absurd heq (by decide)

/-! ## Parts of an output -/

/-- The bytes that stand alone in an output. -/
def marks : List UInt8 := [0x5B, 0x5D, 0x7B, 0x7D, 0x2C, 0x3A, 0x22, 0x20, 0x0A]

/-- A property of texts that the parts of an output have, and that concatenation keeps. -/
structure Closed (opts : JsonWriteOpts) (P : List UInt8 → Prop) : Prop where
  nil : P []
  append : ∀ a b, P a → P b → P (a ++ b)
  mark : ∀ c ∈ marks, P [c]
  literal : ∀ lit ∈ [litNull, litTrue, litFalse], P lit
  int : ∀ i, P (intText i)
  content : ∀ s, IsUtf8 s → P (contentText opts.asciiOnly s)

namespace Closed

variable {D : Type} [CDouble D] {opts : JsonWriteOpts} {P : List UInt8 → Prop}

theorem pads (hP : Closed opts P) (n : ℕ) : P (List.replicate n 0x20) := by
  induction n with
  | zero => exact hP.nil
  | succ n ih =>
    rw [List.replicate_succ, ← List.singleton_append]
    exact hP.append _ _ (hP.mark _ (by decide)) ih

theorem newLine (hP : Closed opts P) (depth : ℕ) : P (bytesOf (newLine opts depth)) := by
  unfold SJson.newLine
  split
  · rw [bytesOf_cons, bytesOf_cons, bytesOf_nil, List.append_nil]
    exact hP.append _ _ (hP.mark _ (by decide)) (hP.pads _)
  · exact hP.nil

theorem comma (hP : Closed opts P) (last : Bool) : P (bytesOf (commaPieces last)) := by
  cases last with
  | true => exact hP.nil
  | false => exact hP.mark _ (by decide)

theorem close (hP : Closed opts P) (depth len : ℕ) {bracket : UInt8} (hbracket : bracket ∈ marks) :
    P (bytesOf (closePieces opts depth len bracket)) := by
  unfold closePieces
  rw [bytesOf_append]
  refine hP.append _ _ ?_ (hP.mark _ hbracket)
  split
  · exact hP.newLine depth
  · exact hP.nil

theorem quoted (hP : Closed opts P) {s : List UInt8} (hs : IsUtf8 s) :
    P (0x22 :: contentText opts.asciiOnly s) := by
  rw [← List.singleton_append]
  exact hP.append _ _ (hP.mark _ (by decide)) (hP.content s hs)

theorem key (hP : Closed opts P) {key : List UInt8} (hkey : IsUtf8 key) :
    P (keyText opts key) := by
  unfold keyText
  refine hP.append _ _ (hP.append _ _ (hP.quoted hkey) ?_) ?_
  · exact hP.append [0x22] [0x3A] (hP.mark _ (by decide)) (hP.mark _ (by decide))
  · split
    · exact hP.mark _ (by decide)
    · exact hP.nil

/-- The pieces of the items, where those of each item have the property. -/
theorem items (hP : Closed opts P) {depth : ℕ} : ∀ {items : List (Json D)},
    (∀ j ∈ items, P (bytesOf (j.pieces opts (depth + 1)))) →
      P (bytesOf (Json.piecesArr opts items depth)) := by
  intro items
  induction items with
  | nil => exact fun _ => hP.nil
  | cons j items ih =>
    intro h
    obtain ⟨hj, hitems⟩ := List.forall_mem_cons.mp h
    simp only [Json.piecesArr, bytesOf_append]
    apply hP.append
    · exact hP.append _ _ (hP.append _ _ (hP.newLine _) hj) (hP.comma _)
    · exact ih hitems

/-- The pieces of the pairs, where those of each value have the property. -/
theorem pairs (hP : Closed opts P) {depth : ℕ} : ∀ {pairs : List (List UInt8 × Json D)},
    (∀ kv ∈ pairs, IsUtf8 kv.1 ∧ P (bytesOf (kv.2.pieces opts (depth + 1)))) →
      P (bytesOf (Json.piecesObj opts pairs depth)) := by
  intro pairs
  induction pairs with
  | nil => exact fun _ => hP.nil
  | cons kv pairs ih =>
    obtain ⟨key, j⟩ := kv
    intro h
    obtain ⟨hj, hpairs⟩ := List.forall_mem_cons.mp h
    simp only [Json.piecesObj, bytesOf_append, bytesOf_cons]
    apply hP.append
    · exact hP.append _ _ (hP.append _ _ (hP.newLine _)
        (hP.append _ _ (hP.key hj.1) hj.2)) (hP.comma _)
    · exact ih hpairs

/-- **The property of the parts is one of the whole.** -/
theorem pieces (hP : Closed opts P) {j : Json D} : j.TextsOk →
    (j.Floats fun f => P (floatBytes f)) → ∀ depth, P (bytesOf (j.pieces opts depth)) := by
  have hone : ∀ b, P b → P (bytesOf [.text b]) := by
    intro b hb
    rwa [bytesOf_cons, bytesOf_nil, List.append_nil]
  induction j using Json.tree_induction with
  | null => exact fun _ _ _ => hone _ (hP.literal _ (by simp))
  | bool b =>
    intro _ _ _
    cases b with
    | false => exact hone _ (hP.literal _ (by simp))
    | true => exact hone _ (hP.literal _ (by simp))
  | int i => exact fun _ _ _ => hone _ (hP.int i)
  | float f => exact fun _ hf _ => hone _ hf
  | str s =>
    intro htexts _ depth
    rw [Json.pieces, bytesOf_cons]
    exact hP.append _ _ (hP.quoted htexts.1) (hone [0x22] (hP.mark _ (by decide)))
  | arr items ih =>
    intro htexts hfloats depth
    have htexts := Json.textsOkArr_iff.mp htexts
    have hfloats := Json.floatsArr_iff.mp hfloats
    rw [Json.pieces, bytesOf_cons, bytesOf_append]
    apply hP.append
    · exact hP.mark _ (by decide)
    · exact hP.append _ _ (hP.items fun j hj => ih j hj (htexts j hj) (hfloats j hj) _)
        (hP.close depth _ (by decide))
  | obj pairs ih =>
    intro htexts hfloats depth
    have htexts := Json.textsOkObj_iff.mp htexts
    have hfloats := Json.floatsObj_iff.mp hfloats
    rw [Json.pieces, bytesOf_cons, bytesOf_append]
    apply hP.append
    · exact hP.mark _ (by decide)
    · refine hP.append _ _ (hP.pairs ?_) (hP.close depth _ (by decide))
      intro kv hkv
      exact ⟨(htexts kv hkv).1.1, ih kv hkv (htexts kv hkv).2 (hfloats kv hkv) _⟩

theorem render (hP : Closed opts P) {j : Json D} (htexts : j.TextsOk)
    (hfloats : j.Floats fun f => P (floatBytes f)) : P (j.render opts) := by
  rw [Json.render, Json.layout, bytesOf_append]
  refine hP.append _ _ (hP.pieces htexts hfloats 0) ?_
  split
  · exact hP.mark _ (by decide)
  · exact hP.nil

end Closed

/-! ## Outputs are texts -/

theorem isText_escape {b : List UInt8} (h : ∀ c ∈ b, 0x20 ≤ c.toNat ∧ c.toNat < 0x80) :
    IsText b :=
  IsAscii.isText (fun c hc => (h c hc).2) fun c hc => .inl (h c hc).1

theorem hexDigit_range (n : ℕ) : 0x20 ≤ (hexDigit n).toNat ∧ (hexDigit n).toNat < 0x80 := by
  refine ⟨?_, isAscii_hexDigit n⟩
  have hlt : n % 16 < 16 := Nat.mod_lt _ (by decide)
  unfold hexDigit
  split
  · rw [toNat_ofNat (by omega)]
    omega
  · rw [toNat_ofNat (by omega)]
    omega

theorem isText_u16Text (code : ℕ) : IsText (u16Text code) :=
  isText_escape (by simp [u16Text, hexDigit_range])

theorem isText_escapeText (c : UInt8) : IsText (escapeText c) := by
  apply isText_escape
  unfold escapeText
  split_ifs <;> simp [hexDigit_range]

/-- The bytes of a code point from `0x80` on are no control characters. -/
theorem encode_shown {cp : ℕ} (hscalar : IsScalar cp) (hcp : ¬ cp < 0x80) :
    ∀ c ∈ jsonEncodeUtf8 cp, 0x20 ≤ c.toNat := by
  rcases jsonEncodeUtf8_cases hscalar.1 with ⟨hlt, -⟩ | ⟨-, -, b0, b1, henc, h0, h1⟩ |
    ⟨-, -, b0, b1, b2, henc, h0, h1, h2⟩ | ⟨-, b0, b1, b2, b3, henc, h0, h1, h2, h3⟩
  · exact absurd hlt hcp
  · rw [henc]
    simp only [List.forall_mem_cons]
    refine ⟨by omega, by omega, by simp⟩
  · rw [henc]
    simp only [List.forall_mem_cons]
    refine ⟨by omega, by omega, by omega, by simp⟩
  · rw [henc]
    simp only [List.forall_mem_cons]
    refine ⟨by omega, by omega, by omega, by omega, by simp⟩

theorem isText_charText (asciiOnly : Bool) {cp : ℕ} (hscalar : IsScalar cp) :
    IsText (charText asciiOnly cp) := by
  unfold charText
  by_cases hlo : cp < 0x80
  · rw [if_pos hlo]
    split
    · exact isText_escapeText _
    · rename_i hplain
      have htoNat : (UInt8.ofNat cp).toNat = cp := toNat_ofNat (by omega)
      have hshown : 0x20 ≤ cp := by
        by_contra hlt
        apply hplain
        simp [needsEscape, htoNat, not_le.mp hlt]
      apply isText_escape
      simpa [htoNat] using ⟨hshown, hlo⟩
  · rw [if_neg hlo]
    split
    · refine ⟨⟨[cp], by simpa using hscalar, by simp⟩, ?_⟩
      exact fun c hc => .inl (encode_shown hscalar hlo c hc)
    · split
      · exact isText_u16Text _
      · exact (isText_u16Text _).append (isText_u16Text _)

theorem isText_contentText (asciiOnly : Bool) {s : List UInt8} (hs : IsUtf8 s) :
    IsText (contentText asciiOnly s) := by
  obtain ⟨cps, hall, rfl⟩ := hs
  rw [contentText_encode asciiOnly hall]
  induction cps with
  | nil => exact isText_nil
  | cons cp cps ih =>
    obtain ⟨hcp, hcps⟩ := List.forall_mem_cons.mp hall
    rw [List.flatMap_cons]
    exact (isText_charText asciiOnly hcp).append (ih hcps)

theorem isText_intText (i : Int64) : IsText (intText i) := by
  refine (isAscii_intText i).isText ?_
  unfold intText
  refine List.forall_mem_append.mpr ⟨?_, ?_⟩
  · split <;> simp
  · split
    · simp
    · intro c hc
      obtain ⟨d, hd, rfl⟩ := List.mem_map.mp hc
      have hlt := Nat.digits_lt_base (b := 10) (by decide) (List.mem_reverse.mp hd)
      rw [toNat_ofNat (by omega)]
      omega

theorem closed_isText (opts : JsonWriteOpts) : Closed opts IsText where
  nil := isText_nil
  append _ _ ha hb := ha.append hb
  mark := by
    intro c hc
    apply IsAscii.isText <;> revert c <;> simp [marks, IsAscii]
  literal := by
    intro lit hlit
    apply isText_escape
    revert lit
    simp [litNull, litTrue, litFalse]
  int := isText_intText
  content _ hs := isText_contentText _ hs

/-- **What is written is text.** -/
theorem isText_render {D : Type} [CDouble D] (opts : JsonWriteOpts) {j : Json D}
    (htexts : j.TextsOk) (hfloats : j.Floats fun f => IsText (floatBytes f)) :
    IsText (j.render opts) := (closed_isText opts).render htexts hfloats

/-! ## Doubles -/

/-- The text of a literal is ASCII. -/
theorem Literal.isText (l : Literal) : IsText l.text := by
  apply isText_escape
  have hdigits : ∀ ds : Digits, ∀ c ∈ ds.bytes, 0x20 ≤ c.toNat ∧ c.toNat < 0x80 := by
    intro ds c hc
    have hdigit := ds.digits c hc
    unfold IsDigit at hdigit
    omega
  have hfrac : ∀ c ∈ l.fracText, 0x20 ≤ c.toNat ∧ c.toNat < 0x80 := by
    unfold Literal.fracText
    cases l.frac with
    | none => simp
    | some ds => simpa using hdigits ds
  have hexp : ∀ c ∈ l.expText, 0x20 ≤ c.toNat ∧ c.toNat < 0x80 := by
    unfold Literal.expText
    cases l.exp with
    | none => simp
    | some e =>
      refine List.forall_mem_cons.mpr ⟨?_, List.forall_mem_append.mpr ⟨?_, hdigits _⟩⟩
      · rcases e.isMark with h | h <;> rw [h] <;> decide
      · intro c hc
        rcases e.isSign c (Option.mem_toList.mp hc) with rfl | rfl <;> decide
  refine List.forall_mem_append.mpr ⟨?_, List.forall_mem_append.mpr ⟨hdigits _,
    List.forall_mem_append.mpr ⟨hfrac, hexp⟩⟩⟩
  unfold minusText
  split <;> simp

theorem isText_floatBytes {f : Double} (hf : CDouble.nonFinite f = false) :
    IsText (floatBytes f) := by
  obtain ⟨l, -, htext, -⟩ := floatBytes_literal hf
  rw [htext]
  exact l.isText

/-! ## How long an output is -/

/-- More than a new line in an indented output, a key and a comma take. -/
def entryMax : ℕ := 2 ^ 39

theorem length_decodeAll_le : ∀ (fuel : ℕ) (s : List UInt8), (decodeAll fuel s).length ≤ fuel := by
  intro fuel
  induction fuel with
  | zero =>
    intro s
    cases s <;> simp [decodeAll]
  | succ fuel ih =>
    intro s
    cases s with
    | nil => simp [decodeAll]
    | cons c s =>
      rw [decodeAll]
      split
      · exact Nat.succ_le_succ (ih _)
      · exact Nat.zero_le _

theorem length_charText_le (asciiOnly : Bool) (cp : ℕ) :
    (charText asciiOnly cp).length ≤ 12 := by
  have hescape : (escapeText (.ofNat cp)).length ≤ 6 := by
    unfold escapeText
    split_ifs <;> simp
  have hencode := jsonEncodeUtf8_length_le cp
  unfold charText
  split_ifs
  · omega
  · simp
  · omega
  · simp [u16Text]
  · simp [u16Text]

theorem length_contentText_le (asciiOnly : Bool) (s : List UInt8) :
    (contentText asciiOnly s).length ≤ 12 * s.length := by
  unfold contentText
  rw [List.length_flatMap]
  calc ((decodeAll s.length s).map fun cp => (charText asciiOnly cp).length).sum
      ≤ (decodeAll s.length s).length * 12 := by
        rw [← List.length_map (fun cp => (charText asciiOnly cp).length), ← smul_eq_mul]
        apply List.sum_le_card_nsmul
        intro n hn
        obtain ⟨cp, -, rfl⟩ := List.mem_map.mp hn
        exact length_charText_le asciiOnly cp
    _ ≤ 12 * s.length := by
        have := length_decodeAll_le s.length s
        omega

theorem length_intText_le (i : Int64) : (intText i).length ≤ 32 := by
  have hdigits : (Nat.digits 10 (int64Abs i)).length ≤ sizeofIntBuf :=
    Nat.digits_length_le_iff (by decide) _ |>.mpr (int64Abs_lt i)
  unfold sizeofIntBuf at hdigits
  unfold intText
  rw [List.length_append]
  have hsign : (if i.toInt < 0 then [0x2D] else ([] : List UInt8)).length ≤ 1 := by
    split <;> simp
  have habs : (if int64Abs i = 0 then [0x30] else
      (Nat.digits 10 (int64Abs i)).reverse.map fun d => UInt8.ofNat (0x30 + d)).length ≤ 22 := by
    split
    · simp
    · simpa using hdigits
  omega

section Lengths

variable {D : Type} [CDouble D] (opts : JsonWriteOpts)

theorem length_floatBytes_le (f : D) : (floatBytes f).length ≤ 32 := by
  unfold floatBytes
  split
  · rename_i b hb
    exact (floatText_length hb).2.le
  · exact Nat.zero_le _

theorem length_newLine_le {depth : ℕ} (hdepth : depth ≤ jsonMaxDepth) :
    (bytesOf (newLine opts depth)).length ≤ 2 ^ 38 + 1 := by
  have hindent := opts.indent.toNat_lt
  unfold jsonMaxDepth at hdepth
  unfold newLine
  split
  · simp only [bytesOf_cons, bytesOf_nil, Piece.bytes, List.length_append, List.length_replicate,
      List.length_singleton, List.length_nil]
    have hmul : depth * opts.indent.toNat ≤ 64 * 2 ^ 32 := Nat.mul_le_mul hdepth hindent.le
    omega
  · simp

theorem length_keyText_le {key : List UInt8} (hkey : key.length ≤ jsonMaxStringLen) :
    (keyText opts key).length ≤ 2 ^ 24 := by
  have hcontent := length_contentText_le opts.asciiOnly key
  unfold jsonMaxStringLen at hkey
  unfold keyText
  simp only [List.length_append, List.length_cons, List.length_nil]
  split
  · simp only [List.length_singleton]
    omega
  · simp only [List.length_nil]
    omega

theorem length_close_le {depth : ℕ} (hdepth : depth ≤ jsonMaxDepth) (len : ℕ) (bracket : UInt8) :
    (bytesOf (closePieces opts depth len bracket)).length ≤ 2 ^ 38 + 2 := by
  have hline := length_newLine_le opts hdepth
  unfold closePieces
  rw [bytesOf_append, List.length_append]
  split
  · simp only [bytesOf_cons, bytesOf_nil, Piece.bytes, List.append_nil, List.length_singleton]
    omega
  · simp [Piece.bytes]

theorem sum_itemLength_le {depth : ℕ} (hdepth : depth + 1 ≤ jsonMaxDepth) :
    ∀ {items : List (Json D)}, (∀ j ∈ items,
      (bytesOf (j.pieces opts (depth + 1))).length + entryMax ≤ j.nodes * (2 * entryMax)) →
    (items.map (itemLength opts depth)).sum ≤ Json.nodesArr items * (2 * entryMax) := by
  intro items
  induction items with
  | nil => exact fun _ => Nat.zero_le _
  | cons j items ih =>
    intro h
    obtain ⟨hj, hitems⟩ := List.forall_mem_cons.mp h
    have hrest := ih hitems
    have hline := length_newLine_le opts hdepth
    rw [List.map_cons, List.sum_cons, Json.nodesArr, Nat.add_mul, itemLength]
    unfold entryMax at *
    omega

theorem sum_pairLength_le {depth : ℕ} (hdepth : depth + 1 ≤ jsonMaxDepth) :
    ∀ {pairs : List (List UInt8 × Json D)}, (∀ kv ∈ pairs, kv.1.length ≤ jsonMaxStringLen ∧
      (bytesOf (kv.2.pieces opts (depth + 1))).length + entryMax ≤ kv.2.nodes * (2 * entryMax)) →
    (pairs.map (pairLength opts depth)).sum ≤ Json.nodesObj pairs * (2 * entryMax) := by
  intro pairs
  induction pairs with
  | nil => exact fun _ => Nat.zero_le _
  | cons kv pairs ih =>
    obtain ⟨key, j⟩ := kv
    intro h
    obtain ⟨⟨hkey, hj⟩, hpairs⟩ := List.forall_mem_cons.mp h
    have hrest := ih hpairs
    have hline := length_newLine_le opts hdepth
    have hkey := length_keyText_le opts hkey
    rw [List.map_cons, List.sum_cons, Json.nodesObj, Nat.add_mul, pairLength]
    unfold entryMax at *
    dsimp only at hj hkey ⊢
    omega

/-- **Each value takes its share of the output.** -/
theorem length_pieces_le {j : Json D} : j.TextsOk → ∀ depth, depth + j.levels ≤ jsonMaxDepth →
    (bytesOf (j.pieces opts depth)).length + entryMax ≤ j.nodes * (2 * entryMax) := by
  have hleaf : ∀ n, n ≤ 2 ^ 24 → n + entryMax ≤ 1 * (2 * entryMax) := by
    intro n hn
    unfold entryMax
    omega
  induction j using Json.tree_induction with
  | null =>
    intro _ _ _
    exact hleaf _ (by simp [Json.pieces, Piece.bytes, litNull])
  | bool b =>
    intro _ _ _
    exact hleaf _ (by cases b <;> simp [Json.pieces, Piece.bytes, litTrue, litFalse])
  | int i =>
    intro _ _ _
    have hi := length_intText_le i
    apply hleaf
    simp only [Json.pieces, bytesOf_cons, bytesOf_nil, Piece.bytes, List.append_nil]
    omega
  | float f =>
    intro _ _ _
    have hf := length_floatBytes_le f
    apply hleaf
    simp only [Json.pieces, bytesOf_cons, bytesOf_nil, Piece.bytes, List.append_nil]
    omega
  | str s =>
    intro htexts _ _
    have hs := length_contentText_le opts.asciiOnly s
    have hlen : s.length ≤ jsonMaxStringLen := htexts.2
    unfold jsonMaxStringLen at hlen
    apply hleaf
    simp only [Json.pieces, bytesOf_cons, bytesOf_nil, Piece.bytes, List.length_append,
      List.length_cons, List.length_nil]
    omega
  | arr items ih =>
    intro htexts depth hlevels
    have htexts := Json.textsOkArr_iff.mp htexts
    rw [Json.levels] at hlevels
    have hclose := length_close_le opts (show depth ≤ jsonMaxDepth by omega) items.length 0x5D
    have hsum : (items.map (itemLength opts depth)).sum ≤ Json.nodesArr items * (2 * entryMax) := by
      cases items with
      | nil => exact Nat.zero_le _
      | cons j₀ items =>
        have hpos := j₀.levels_pos
        have hle : j₀.levels ≤ Json.levelsArr (j₀ :: items) :=
          Json.levelsArr_le.mp le_rfl j₀ List.mem_cons_self
        refine sum_itemLength_le opts (by omega) ?_
        intro j hj
        have hle := Json.levelsArr_le.mp (le_refl (Json.levelsArr (j₀ :: items))) j hj
        exact ih j hj (htexts j hj) _ (by omega)
    rw [Json.pieces, bytesOf_cons, bytesOf_append, List.length_append, List.length_append,
      length_piecesArr, Json.nodes, Nat.add_mul]
    simp only [Piece.bytes, List.length_singleton]
    unfold entryMax at *
    omega
  | obj pairs ih =>
    intro htexts depth hlevels
    have htexts := Json.textsOkObj_iff.mp htexts
    rw [Json.levels] at hlevels
    have hclose := length_close_le opts (show depth ≤ jsonMaxDepth by omega) pairs.length 0x7D
    have hsum : (pairs.map (pairLength opts depth)).sum
        ≤ Json.nodesObj pairs * (2 * entryMax) := by
      cases pairs with
      | nil => exact Nat.zero_le _
      | cons kv₀ pairs =>
        have hpos := kv₀.2.levels_pos
        have hle : kv₀.2.levels ≤ Json.levelsObj (kv₀ :: pairs) :=
          Json.levelsObj_le.mp le_rfl kv₀ List.mem_cons_self
        refine sum_pairLength_le opts (by omega) ?_
        intro kv hkv
        have hle := Json.levelsObj_le.mp (le_refl (Json.levelsObj (kv₀ :: pairs))) kv hkv
        exact ⟨(htexts kv hkv).1.2, ih kv hkv (htexts kv hkv).2 _ (by omega)⟩
    rw [Json.pieces, bytesOf_cons, bytesOf_append, List.length_append, List.length_append,
      length_piecesObj, Json.nodes, Nat.add_mul]
    simp only [Piece.bytes, List.length_singleton]
    unfold entryMax at *
    omega

/-- **An output of a value within the limits is not too long** to be measured. -/
theorem length_render_le {j : Json D} (htexts : j.TextsOk) (hlevels : j.levels ≤ jsonMaxDepth)
    (hnodes : j.nodes ≤ jsonMaxNodes) : (j.render opts).length ≤ 2 ^ 60 := by
  have hpieces := length_pieces_le opts htexts 0 (by omega)
  have hmul : j.nodes * (2 * entryMax) ≤ jsonMaxNodes * (2 * entryMax) :=
    Nat.mul_le_mul_right _ hnodes
  rw [Json.render, Json.layout, bytesOf_append, List.length_append]
  have hend : (bytesOf (if opts.trailingNl then [Piece.text [0x0A]] else [])).length ≤ 1 := by
    split <;> simp [Piece.bytes]
  unfold entryMax jsonMaxNodes at *
  omega

end Lengths

/-! ## Documents -/

/-- The doubles of a tree are finite. -/
def Json.Finite (j : Json Double) : Prop := j.Floats fun f => CDouble.nonFinite f = false

/-- A tree that `json_parse` can return. -/
structure Json.Parsed (j : Json Double) : Prop where
  texts : j.TextsOk
  finite : j.Finite
  limits : j.InLimits

theorem jsonParse_parsed {src : List UInt8} (hlen : src.length ≤ ptrdiffMax) {s s' : St Double}
    {u : JsonPtr} (hapi : ApiHeap s.heap) (hparse : jsonParse src s = .ok u s') :
    ∃ j : Json Double, JsonText src j ∧ Denotes s'.heap j u ∧ j.Parsed := by
  obtain ⟨hapi', hu, -⟩ := hapi.parse hparse
  obtain ⟨j, href, hden⟩ := jsonParse_ref_or_oom hlen hparse
  obtain ⟨htext, hnest, hwidth, hnodes, -⟩ := refParse_from_iff.mp href
  have hlim : j.InLimits := ⟨hnest, hwidth, by omega⟩
  refine ⟨j, htext, hden.denotes, ?_, ?_, hlim⟩
  · have hunfold := (unfold_inOrder hapi'.repOk false jsonMaxDepth hu).1
    rwa [hden.denotes.unfold hlim.levels] at hunfold
  · obtain ⟨p, q, -, hder, -⟩ := htext
    exact hder.finite

theorem Json.Finite.writable {h : Heap Double} {v : JsonPtr} {j : Json Double}
    (hfin : j.Finite) (hden : Denotes h j v) (hlevels : j.levels ≤ jsonMaxDepth) :
    h.Writable jsonMaxDepth v :=
  hden.ends hlevels (hfin.mono fun _ => hasText_of_finite)

/-- The rendering of a value within the limits is text, and not too long. -/
theorem rendering_inOrder {h : Heap Double} (hrep : h.RepOk) {v : JsonPtr} (hv : v < h.next)
    {j : Json Double} (hden : Denotes h j v) (hfin : j.Finite) (hlevels : j.levels ≤ jsonMaxDepth)
    (hnodes : j.nodes ≤ jsonMaxNodes) (opts : JsonWriteOpts) :
    IsText (h.rendering opts v) ∧ (h.rendering opts v).length ≤ 2 ^ 60 := by
  obtain ⟨htexts, -⟩ := unfold_inOrder hrep opts.sortKeys jsonMaxDepth hv
  have hends : h.Ends (fun f => CDouble.nonFinite f = false) jsonMaxDepth v :=
    hden.ends hlevels hfin
  obtain ⟨hlevels', hfin'⟩ := Heap.Ends.unfold opts.sortKeys hends
  have hnodes' := nodes_unfold h opts.sortKeys jsonMaxDepth v
  rw [hden.unfold hlevels] at hnodes'
  constructor
  · exact isText_render opts htexts (hfin'.mono fun _ => isText_floatBytes)
  · exact length_render_le opts htexts hlevels' (hnodes'.trans_le hnodes)

/-- What a buffer holds behind which the terminator was stored. -/
theorem Written.Holds.cString {r : Written} {buf : ℕ → UInt8} {text : List UInt8}
    (h : r.Holds buf text) (htext : IsText text) :
    r.buf r.written = 0 ∧ ∀ i < r.written, r.buf i ≠ 0 := by
  have hget : ∀ i, (hi : i < (text ++ [0]).length) → r.buf i = (text ++ [0])[i] := by
    intro i hi
    have hover := overlay_get (f := buf) (i := 0) hi
    rwa [Nat.zero_add, ← h.buf] at hover
  rw [h.written]
  constructor
  · rw [hget text.length (by simp)]
    simp
  · intro i hi
    rw [hget i (by simp; omega), List.getElem_append_left hi]
    exact htext.no_nul _ (List.getElem_mem hi)

/-- **Every output is a C string of text.**  A value within the limits of the parser is measured
with any options, and a buffer of one byte more is enough.  What is stored there is well-formed
UTF-8 without control characters other than new lines; its length as a C string is the one that
is reported. -/
theorem jsonWrite_text {h : Heap Double} (hh : ApiHeap h) {v : JsonPtr} (hv : v < h.next)
    {j : Json Double} (hden : Denotes h j v) (hfin : j.Finite) (hlevels : j.levels ≤ jsonMaxDepth)
    (hnodes : j.nodes ≤ jsonMaxNodes) (opts : JsonWriteOpts) :
    ∃ n ≤ 2 ^ 60, jsonMeasure h v opts = .ok (.ok, n) ∧
      ∀ (buf : ℕ → UInt8) (c : ℕ) (sortMem : ℕ → Bool), n < c → c ≤ sizeMax →
        (∀ k, sortMem k = true) ∨ opts.sortKeys = false →
        ∃ r, jsonWrite h v buf c opts sortMem = .ok r ∧ r.status = .ok ∧ r.written = n ∧
          IsText r.bytes ∧ r.buf n = 0 ∧ ∀ i < n, r.buf i ≠ 0 := by
  have hrep := hh.repOk
  have hw := hfin.writable hden hlevels
  obtain ⟨htext, hlen⟩ := rendering_inOrder hrep hv hden hfin hlevels hnodes opts
  refine ⟨(h.rendering opts v).length, hlen, ?_, ?_⟩
  · exact jsonMeasure_of_writable hrep hv hw (hlen.trans (by decide))
  · intro buf c sortMem hfit hc hmem
    obtain ⟨r, hr, hholds⟩ := jsonWrite_of_writable opts hrep hv hw hfit hc buf
      (fun _ => rfl : ∀ k, (fun _ => true) k = true)
    have hsame : jsonWrite h v buf c opts sortMem = jsonWrite h v buf c opts fun _ => true := by
      rcases hmem with hall | hsort
      · rw [show sortMem = fun _ => true from funext hall]
      · exact jsonWrite_sortMem hsort ..
    obtain ⟨hend, hnul⟩ := hholds.cString htext
    rw [hholds.written] at hend hnul
    exact ⟨r, hsame.trans hr, hholds.status, hholds.written, hholds.bytes_eq ▸ htext, hend, hnul⟩

/-- The value of the text `[true]`, written in a buffer of seven bytes. -/
theorem jsonWrite_text_true : ∃ (h : Heap Double) (v : JsonPtr) (r : Written),
    jsonWrite h v (fun _ => 0) 7 kDefaultOpts (fun _ => true) = .ok r ∧ r.written = 6 ∧
      IsText r.bytes ∧ r.buf 6 = 0 ∧ ∀ i < 6, r.buf i ≠ 0 := by
  obtain ⟨A, hA⟩ := Arena.exists_fresh
  have href : refParse [0x5B, 0x74, 0x72, 0x75, 0x65, 0x5D] 0
      = .ok ((.arr [.bool true] : Json Double), 2) := by rfl
  obtain ⟨v, s, -, hapi, hv, -, hden, -⟩ := ApiHeap.empty.exists_parsed (by decide) href hA
  have hfin : (.arr [.bool true] : Json Double).Finite := ⟨trivial, trivial⟩
  obtain ⟨n, -, hmeasure, hwrite⟩ := jsonWrite_text hapi hv hden.denotes hfin (by decide)
    (by decide) kDefaultOpts
  have hlen : (s.heap.rendering kDefaultOpts v).length = 6 := by
    rw [hden.denotes.rendering (by decide) rfl]
    rfl
  obtain rfl : 6 = n := by
    rw [jsonMeasure_of_writable hapi.repOk hv (hfin.writable hden.denotes (by decide))
      (by rw [hlen]; decide), hlen] at hmeasure
    simpa using hmeasure
  obtain ⟨r, hr, -, hwritten, htext, hend, hnul⟩ :=
    hwrite (fun _ => 0) 7 (fun _ => true) (by decide) (by decide) (.inl fun _ => rfl)
  exact ⟨s.heap, v, r, hr, hwritten, htext, hend, hnul⟩

end SJson
