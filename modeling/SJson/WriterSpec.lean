/-
# The writer writes the layout

Where there is room, a function of the writer emits its bytes and succeeds (`Emits`): when
measuring it counts them, when writing it stores them behind what is there.  This is shown
of every function, and by induction on the levels of the whole writer
(`jsonWriteValue_emits`).

A writer that succeeds, with whatever room, has met only trees that can be written
(`jsonWriteValue_writable`).
-/
import SJson.Layout
import SJson.Lib.Overlay

namespace SJson

open ErrState Overlay

/-! ## Emitting -/

namespace JsonWriter

/-- The writer after the bytes have been emitted. -/
def emit (w : JsonWriter) (b : List UInt8) : JsonWriter :=
  { w with
    buf := if w.measureOnly then w.buf else overlay w.buf w.used b
    used := w.used + b.length }

/-- Nothing has failed, there is memory to sort, and there is room for `n` bytes. -/
structure Ready (w : JsonWriter) (n : ℕ) : Prop where
  err : w.err = .ok
  sortMem : w.measureOnly = false → ∀ k, w.sortMem k = true
  room : if w.measureOnly then w.used + n ≤ sizeMax else w.used + n < w.cap ∧ w.cap ≤ sizeMax

@[simp] theorem emit_measureOnly (w : JsonWriter) (b : List UInt8) :
    (w.emit b).measureOnly = w.measureOnly := rfl

@[simp] theorem emit_used (w : JsonWriter) (b : List UInt8) :
    (w.emit b).used = w.used + b.length := rfl

@[simp] theorem emit_nil (w : JsonWriter) : w.emit [] = w := by
  unfold emit
  simp

theorem emit_emit (w : JsonWriter) (b b' : List UInt8) :
    (w.emit b).emit b' = w.emit (b ++ b') := by
  unfold emit
  by_cases hm : w.measureOnly = true
  · simp [hm, Nat.add_assoc]
  · simp [hm, overlay_append, Nat.add_assoc]

theorem Ready.left {w : JsonWriter} {n m : ℕ} (h : w.Ready (n + m)) : w.Ready n := by
  refine ⟨h.err, h.sortMem, ?_⟩
  have hroom := h.room
  split at hroom <;> rename_i hm
  · rw [if_pos hm]
    omega
  · rw [if_neg hm]
    omega

theorem Ready.right {w : JsonWriter} {b : List UInt8} {m : ℕ} (h : w.Ready (b.length + m)) :
    (w.emit b).Ready m := by
  refine ⟨h.err, h.sortMem, ?_⟩
  have hroom := h.room
  rw [emit_measureOnly, emit_used]
  split at hroom <;> rename_i hm
  · rw [if_pos hm]
    omega
  · rw [if_neg hm]
    show w.used + b.length + m < w.cap ∧ w.cap ≤ sizeMax
    omega

theorem Ready.used_le {w : JsonWriter} {n : ℕ} (h : w.Ready n) : w.used + n ≤ sizeMax := by
  have hroom := h.room
  split at hroom <;> omega

end JsonWriter

open JsonWriter

/-- In the mode `m`, and where there is room, the function emits `b` and returns `a`. -/
def Emits {α : Type} (m : Bool) (x : WM α) (a : α) (b : List UInt8) : Prop :=
  ∀ w : JsonWriter, w.measureOnly = m → w.Ready b.length → x w = .ok a (w.emit b)

variable {m : Bool}

theorem emits_pure {α : Type} (a : α) : Emits m (pure a) a [] := fun w _ _ => by
  rw [emit_nil]
  rfl

/-- Sequencing: the bytes stand one behind the other. -/
theorem Emits.bind {α β : Type} {x : WM α} {k : α → WM β} {a : α} {c : β} {b b' : List UInt8}
    (hx : Emits m x a b) (hk : Emits m (k a) c b') : Emits m (x >>= k) c (b ++ b') := by
  intro w hm hready
  rw [List.length_append] at hready
  rw [bind_ok (hx w hm hready.left), hk (w.emit b) hm hready.right, emit_emit]

/-- A step whose code is dropped. -/
theorem Emits.skip {α β : Type} {x : WM α} {k : WM β} {a : α} {c : β} {b b' : List UInt8}
    (hx : Emits m x a b) (hk : Emits m k c b') : Emits m (x >>= fun _ => k) c (b ++ b') :=
  hx.bind hk

/-- A step whose code is looked at. -/
theorem Emits.check {α : Type} {x : WM JsonError} {k : WM α} {e : JsonError → WM α} {c : α}
    {b b' : List UInt8} (hx : Emits m x .ok b) (hk : Emits m k c b') :
    Emits m (x >>= fun err => if err ≠ .ok then e err else k) c (b ++ b') := by
  refine hx.bind ?_
  show Emits m (if JsonError.ok ≠ .ok then e .ok else k) c b'
  rw [if_neg (not_not.mpr rfl)]
  exact hk

theorem emits_getErr : Emits m getErr .ok [] := fun w _ hready => by
  rw [emit_nil, getErr, hready.err]

theorem emits_put (c : UInt8) : Emits m (jwPut c) .ok [c] := by
  intro w hm hready
  have hmax := hready.used_le
  have hroom := hready.room
  rw [List.length_singleton] at hmax hroom
  unfold jwPut
  rw [if_neg (by omega)]
  cases m with
  | true =>
    rw [if_pos hm]
    simp [emit, hm]
  | false =>
    rw [if_neg (by simp [hm])] at hroom ⊢
    have hstore : storeByte c w = .ok () (w.emit [c]) := by
      rw [storeByte, if_pos (by omega)]
      simp [emit, hm, overlay_singleton]
    rw [if_neg (by omega), bind_ok hstore]
    rfl

theorem emits_putLoop : ∀ s : List UInt8, Emits m (putLoop s) .ok s := by
  intro s
  induction s with
  | nil => exact emits_pure _
  | cons c s ih =>
    rw [putLoop]
    exact (emits_put c).check ih

theorem emits_puts (s : List UInt8) : Emits m (jwPuts s) .ok s := by
  intro w hm hready
  have hmax := hready.used_le
  unfold jwPuts
  rw [if_neg (by omega)]
  cases m with
  | true =>
    rw [if_pos hm]
    simp [emit, hm]
  | false =>
    rw [if_neg (by simp [hm])]
    exact emits_putLoop s w hm hready

/-- The indentation of a value does not wrap. -/
theorem indent_lt {depth : ℕ} (hdepth : depth ≤ jsonMaxDepth) (indent : UInt32) :
    depth * indent.toNat < 2 ^ 64 := by
  have hle : depth * indent.toNat ≤ jsonMaxDepth * 2 ^ 32 :=
    Nat.mul_le_mul hdepth (le_of_lt indent.toNat_lt)
  refine lt_of_le_of_lt hle ?_
  decide

/-- Neither of the checks on the indentation fails. -/
theorem indent_checked {depth : ℕ} (hdepth : depth ≤ jsonMaxDepth) (indent : UInt32) {used : ℕ}
    (hroom : used + depth * indent.toNat ≤ sizeMax) :
    depth * indent.toNat % 2 ^ 64 = depth * indent.toNat ∧
      ¬ ((depth ≠ 0 ∧ depth * indent.toNat / depth ≠ indent.toNat) ∨
        depth * indent.toNat > sizeMax - used) := by
  refine ⟨Nat.mod_eq_of_lt (indent_lt hdepth indent), ?_⟩
  rintro (⟨h0, hdiv⟩ | hbig)
  · exact hdiv (Nat.mul_div_cancel_left _ (Nat.pos_of_ne_zero h0))
  · omega

theorem emits_indent {depth : ℕ} (hdepth : depth ≤ jsonMaxDepth) (indent : UInt32) :
    Emits m (jwIndent depth indent) .ok (List.replicate (depth * indent.toNat) 0x20) := by
  intro w hm hready
  have hmax := hready.used_le
  have hroom := hready.room
  rw [List.length_replicate] at hmax hroom
  obtain ⟨hmod, hno⟩ := indent_checked hdepth indent (by omega)
  unfold jwIndent
  simp only [hmod]
  rw [if_neg hno]
  cases m with
  | true =>
    rw [if_pos hm]
    simp [emit, hm]
  | false =>
    rw [if_neg (by simp [hm])] at hroom ⊢
    have hfill : fillSpaces (depth * indent.toNat) w
        = .ok () (w.emit (List.replicate (depth * indent.toNat) 0x20)) := by
      rw [fillSpaces, if_pos (by omega)]
      simp [emit, hm, overlay_replicate]
    rw [if_neg (by omega), bind_ok hfill]
    rfl

/-! ## Scalars -/

/-- The digits are taken off from the last one on. -/
theorem digitLoop_eq (w : JsonWriter) : ∀ {room n : ℕ} (tmp : List UInt8), n < 10 ^ room →
    digitLoop room n tmp w
      = .ok (((Nat.digits 10 n).reverse.map fun d => UInt8.ofNat (0x30 + d)) ++ tmp) w := by
  intro room
  induction room with
  | zero =>
    intro n tmp h
    obtain rfl : n = 0 := by simpa using h
    rw [digitLoop, if_neg (lt_irrefl 0)]
    rfl
  | succ room ih =>
    intro n tmp h
    rw [digitLoop]
    by_cases hn : n > 0
    · rw [if_pos hn, ih _ (by rw [Nat.pow_succ] at h; omega),
        Nat.digits_def' (by decide) hn]
      simp
    · rw [if_neg hn, show n = 0 by omega]
      simp
      rfl

/-- The buffer of the digits is long enough. -/
theorem int64Abs_lt (i : Int64) : int64Abs i < 10 ^ sizeofIntBuf := by
  have hle := i.le_toInt
  have hlt := i.toInt_lt
  unfold int64Abs sizeofIntBuf
  omega

theorem emits_digits (i : Int64) : Emits m
    (if int64Abs i = 0 then jwPut 0x30
      else digitLoop sizeofIntBuf (int64Abs i) [] >>= putLoop) .ok
    (if int64Abs i = 0 then [0x30]
      else (Nat.digits 10 (int64Abs i)).reverse.map fun d => .ofNat (0x30 + d)) := by
  by_cases hzero : int64Abs i = 0
  · rw [if_pos hzero, if_pos hzero]
    exact emits_put _
  · rw [if_neg hzero, if_neg hzero]
    intro w hm hready
    rw [bind_ok (digitLoop_eq w [] (int64Abs_lt i)), List.append_nil]
    exact emits_putLoop _ w hm hready

theorem emits_int64 (i : Int64) : Emits m (jwInt64 i) .ok (intText i) := by
  unfold jwInt64 intText
  by_cases hneg : i.toInt < 0
  · rw [if_pos hneg, if_pos hneg]
    exact (emits_put _).check (emits_digits i)
  · rw [if_neg hneg, if_neg hneg]
    exact emits_digits i

theorem emits_double {D : Type} [CDouble D] {f : D} {b : List UInt8} (hb : floatText f = .ok b) :
    Emits m (jwDouble f) .ok b := by
  unfold jwDouble
  rw [hb]
  exact emits_puts b

/-! ## Strings -/

/-- An ASCII character in a string. -/
def jwAscii (c : UInt8) : WM JsonError :=
  if needsEscape c then jwPuts (escapeText c) else jwPut c

/-- The loop of `jw_string_content` on the code points of a string. -/
def charsLoop (asciiOnly : Bool) : List ℕ → WM JsonError
  | [] => getErr
  | cp :: cps =>
    if cp < 0x80 then do
      let _ ← jwAscii (.ofNat cp)
      charsLoop asciiOnly cps
    else do
      let status ← jwMultibyte asciiOnly cp (jsonEncodeUtf8 cp)
      if status ≠ .ok then return status else charsLoop asciiOnly cps

/-- Decoding takes the code points off one by one. -/
theorem decodeAll_encode : ∀ {cps : List ℕ} {fuel : ℕ}, (∀ cp ∈ cps, IsScalar cp) →
    (cps.flatMap jsonEncodeUtf8).length ≤ fuel →
    decodeAll fuel (cps.flatMap jsonEncodeUtf8) = cps := by
  intro cps
  induction cps with
  | nil =>
    intro fuel _ _
    cases fuel <;> rfl
  | cons cp cps ih =>
    intro fuel hall hfuel
    obtain ⟨hcp, hrest⟩ := List.forall_mem_cons.mp hall
    have hpos := jsonEncodeUtf8_length_pos hcp
    rw [List.flatMap_cons] at hfuel ⊢
    obtain ⟨c, s, hs⟩ := List.exists_cons_of_length_pos hpos
    rw [List.length_append] at hfuel
    obtain ⟨fuel, rfl⟩ := Nat.exists_eq_succ_of_ne_zero (show fuel ≠ 0 by omega)
    have hdec := jsonUtf8Decode_encode hcp (cps.flatMap jsonEncodeUtf8)
      (show (jsonEncodeUtf8 cp).length ≤ (jsonEncodeUtf8 cp ++ cps.flatMap jsonEncodeUtf8).length by
        rw [List.length_append]
        omega)
    have hdrop : (jsonEncodeUtf8 cp ++ cps.flatMap jsonEncodeUtf8).drop (jsonEncodeUtf8 cp).length
        = cps.flatMap jsonEncodeUtf8 := List.drop_left ..
    rw [hs, List.cons_append] at hdec hdrop ⊢
    rw [decodeAll, hdec]
    dsimp only
    rw [hdrop, ih hrest (by omega)]

theorem contentText_encode {cps : List ℕ} (asciiOnly : Bool) (hall : ∀ cp ∈ cps, IsScalar cp) :
    contentText asciiOnly (cps.flatMap jsonEncodeUtf8) = cps.flatMap (charText asciiOnly) := by
  rw [contentText, decodeAll_encode hall le_rfl]

/-- On a well-formed string the loop runs over the code points. -/
theorem stringLoop_encode (asciiOnly : Bool) : ∀ {cps : List ℕ} {fuel : ℕ},
    (∀ cp ∈ cps, IsScalar cp) → (cps.flatMap jsonEncodeUtf8).length ≤ fuel →
    stringLoop asciiOnly fuel (cps.flatMap jsonEncodeUtf8) = charsLoop asciiOnly cps := by
  intro cps
  induction cps with
  | nil =>
    intro fuel _ _
    cases fuel <;> rfl
  | cons cp cps ih =>
    intro fuel hall hfuel
    obtain ⟨hcp, hrest⟩ := List.forall_mem_cons.mp hall
    rw [List.flatMap_cons] at hfuel ⊢
    rw [List.length_append] at hfuel
    have hpos := jsonEncodeUtf8_length_pos hcp
    obtain ⟨fuel, rfl⟩ := Nat.exists_eq_succ_of_ne_zero (show fuel ≠ 0 by omega)
    have ih := ih hrest (show _ ≤ fuel by omega)
    by_cases hlo : cp < 0x80
    · have hnat : (UInt8.ofNat cp).toNat = cp := toNat_ofNat (by omega)
      rw [jsonEncodeUtf8_one hlo hnat, List.singleton_append, stringLoop, if_neg (by omega),
        charsLoop,
        if_pos hlo, jwAscii, ih]
      split <;> rfl
    · obtain ⟨b, s, hb, hbge, -⟩ := jsonEncodeUtf8_head hcp (not_lt.mp hlo)
      have hdec := jsonUtf8Decode_encode hcp (cps.flatMap jsonEncodeUtf8)
        (show _ ≤ (jsonEncodeUtf8 cp ++ cps.flatMap jsonEncodeUtf8).length by
          rw [List.length_append]
          omega)
      have hdrop : (jsonEncodeUtf8 cp ++ cps.flatMap jsonEncodeUtf8).drop
          (jsonEncodeUtf8 cp).length = cps.flatMap jsonEncodeUtf8 := List.drop_left ..
      have htake : (jsonEncodeUtf8 cp ++ cps.flatMap jsonEncodeUtf8).take
          (jsonEncodeUtf8 cp).length = jsonEncodeUtf8 cp := List.take_left ..
      generalize hn : (jsonEncodeUtf8 cp).length = n at hdec hdrop htake
      rw [charsLoop, if_neg hlo]
      rw [hb, List.cons_append] at hdec hdrop htake ⊢
      rw [stringLoop, if_pos hbge, hdec]
      dsimp only
      rw [hdrop, htake, ih]

theorem jwStringContent_encode {cps : List ℕ} (asciiOnly : Bool) (hall : ∀ cp ∈ cps, IsScalar cp) :
    jwStringContent asciiOnly (cps.flatMap jsonEncodeUtf8) = charsLoop asciiOnly cps :=
  stringLoop_encode asciiOnly hall le_rfl

theorem emits_ascii (c : UInt8) :
    Emits m (jwAscii c) .ok (if needsEscape c then escapeText c else [c]) := by
  unfold jwAscii
  split
  · exact emits_puts _
  · exact emits_put c

theorem emits_multibyte (asciiOnly : Bool) {cp : ℕ} (hcp : ¬ cp < 0x80) :
    Emits m (jwMultibyte asciiOnly cp (jsonEncodeUtf8 cp)) .ok (charText asciiOnly cp) := by
  unfold jwMultibyte charText
  rw [if_neg hcp]
  split
  · exact emits_puts _
  split
  · exact emits_puts _
  · refine (emits_puts _).bind ?_
    rw [if_pos rfl]
    exact emits_puts _

theorem emits_charsLoop (asciiOnly : Bool) : ∀ cps : List ℕ,
    Emits m (charsLoop asciiOnly cps) .ok (cps.flatMap (charText asciiOnly)) := by
  intro cps
  induction cps with
  | nil => exact emits_getErr
  | cons cp cps ih =>
    rw [charsLoop, List.flatMap_cons]
    by_cases hcp : cp < 0x80
    · rw [if_pos hcp, charText, if_pos hcp]
      exact (emits_ascii _).skip ih
    · rw [if_neg hcp]
      exact (emits_multibyte asciiOnly hcp).check ih

theorem emits_stringContent (asciiOnly : Bool) {s : List UInt8} (hs : IsUtf8 s) :
    Emits m (jwStringContent asciiOnly s) .ok (contentText asciiOnly s) := by
  obtain ⟨cps, hall, rfl⟩ := hs
  rw [jwStringContent_encode asciiOnly hall, contentText_encode asciiOnly hall]
  exact emits_charsLoop asciiOnly cps

theorem emits_writeString (opts : JsonWriteOpts) {s : List UInt8} (hs : IsUtf8 s) :
    Emits m (writeString opts s) .ok
      (bytesOf [.text (0x22 :: contentText opts.asciiOnly s), .gate, .text [0x22]]) := by
  have h := (emits_put 0x22).check (e := pure) (((emits_stringContent opts.asciiOnly hs).check
    (e := pure) (emits_put 0x22)) : Emits m _ _ _)
  exact h

/-! ## Containers -/

theorem emits_newLine (opts : JsonWriteOpts) {depth : ℕ} (hdepth : depth ≤ jsonMaxDepth) :
    Emits m (jwNewLine opts depth) () (bytesOf (newLine opts depth)) := by
  unfold jwNewLine newLine
  split
  · have h := (emits_put 0x0A).skip ((emits_indent hdepth opts.indent).skip
      (emits_pure (m := m) ()))
    rw [List.append_nil] at h
    simpa [Piece.bytes] using h
  · exact emits_pure ()

theorem emits_close (opts : JsonWriteOpts) {depth : ℕ} (hdepth : depth ≤ jsonMaxDepth) (len : ℕ)
    (bracket : UInt8) :
    Emits m (writeClose opts depth len bracket) .ok
      (bytesOf (closePieces opts depth len bracket)) := by
  unfold writeClose closePieces
  rw [bytesOf_append]
  by_cases hlen : len > 0
  · rw [if_pos hlen, if_pos hlen]
    exact (emits_newLine opts hdepth).skip (emits_put bracket)
  · rw [if_neg hlen, if_neg hlen]
    exact emits_put bracket

theorem emits_key (opts : JsonWriteOpts) {key : List UInt8} (hkey : IsUtf8 key) :
    Emits m (writeKey opts key) () (keyText opts key) := by
  unfold writeKey keyText
  have hspace : Emits m
      (if opts.pretty then (do let _ ← jwPut 0x20; pure () : WM Unit) else pure ())
      () (if opts.pretty then [0x20] else []) := by
    split
    · exact (emits_put 0x20).skip (emits_pure ())
    · exact emits_pure ()
  have h := (emits_put 0x22).skip ((emits_stringContent opts.asciiOnly hkey).skip
    ((emits_put 0x22).skip ((emits_put 0x3A).skip hspace)))
  simpa using h

/-- The comma behind an entry. -/
theorem Emits.comma {α β : Type} (rest : List α) {k : WM β} {c : β} {b : List UInt8}
    (hk : Emits m k c b) :
    Emits m (do
      if rest ≠ [] then
        let _ ← jwPut 0x2C
      k) c (bytesOf (commaPieces rest.isEmpty) ++ b) := by
  cases rest with
  | nil => exact hk
  | cons a rest =>
    rw [if_pos (by simp)]
    exact (emits_put 0x2C).skip hk

variable {D : Type} [CDouble D] {opts : JsonWriteOpts}

/-- The items of an array, which are written as the trees `tree p`. -/
theorem emits_items (opts : JsonWriteOpts) {depth : ℕ} (hdepth : depth < jsonMaxDepth)
    {write : JsonPtr → WM JsonError} (tree : JsonPtr → Json D) : ∀ {ps : List JsonPtr},
    (∀ p ∈ ps, Emits m (write p) .ok (bytesOf ((tree p).pieces opts (depth + 1)))) →
    Emits m (writeItems opts depth write ps) .ok
      (bytesOf (Json.piecesArr opts (ps.map tree) depth)) := by
  intro ps
  induction ps with
  | nil => exact fun _ => emits_pure _
  | cons p ps ih =>
    intro h
    obtain ⟨hp, hps⟩ := List.forall_mem_cons.mp h
    have hrest := (emits_newLine opts hdepth).skip (hp.check (e := pure) ((ih hps).comma ps))
    rw [writeItems, List.map_cons, Json.piecesArr, List.isEmpty_map]
    simpa using hrest

/-- The pairs of an object. -/
theorem emits_pairs (opts : JsonWriteOpts) {depth : ℕ} (hdepth : depth < jsonMaxDepth)
    {write : JsonPtr → WM JsonError} (tree : JsonPtr → Json D) : ∀ {pairs : List JsonPair},
    (∀ pr ∈ pairs, IsUtf8 pr.key.data ∧
      Emits m (write pr.val) .ok (bytesOf ((tree pr.val).pieces opts (depth + 1)))) →
    Emits m (writePairs opts depth write pairs) .ok
      (bytesOf (Json.piecesObj opts (pairs.map fun pr => (pr.key.data, tree pr.val)) depth)) := by
  intro pairs
  induction pairs with
  | nil => exact fun _ => emits_pure _
  | cons pr pairs ih =>
    intro h
    obtain ⟨⟨hkey, hval⟩, hpairs⟩ := List.forall_mem_cons.mp h
    have hrest := (emits_newLine opts hdepth).skip ((emits_key opts hkey).skip
      (hval.check (e := pure) ((ih hpairs).comma pairs)))
    rw [writePairs, List.map_cons, Json.piecesObj, List.isEmpty_map]
    simpa [Piece.bytes] using hrest

/-- The pairs are written in the order of `arrange`. -/
theorem emits_order (opts : JsonWriteOpts) (pairs : List JsonPair) :
    Emits m (orderPairs opts pairs) (some (arrange (opts.sortKeys && !m) pairs)) [] := by
  intro w hm hready
  rw [emit_nil, orderPairs_granted opts pairs hready.sortMem, hm]

/-! ## Values -/

/-- **The writer writes the layout**: down to `room` levels, where there is room for it and
the tree can be written. -/
theorem jsonWriteValue_emits (opts : JsonWriteOpts) {h : Heap D} (hrep : h.RepOk) :
    ∀ {room : ℕ} {p : JsonPtr}, room ≤ jsonMaxDepth → p < h.next → h.Writable room p →
    Emits m (jsonWriteValue h opts room p) .ok
      (bytesOf ((h.unfold (opts.sortKeys && !m) room p).pieces opts (jsonMaxDepth - room))) := by
  intro room
  induction room with
  | zero => exact fun _ _ hw => hw.elim
  | succ room ih =>
    intro p hroom hp hw
    have hok := hrep p hp
    have hdepth : jsonMaxDepth - 1 - room < jsonMaxDepth := by omega
    have hin : jsonMaxDepth - 1 - room + 1 = jsonMaxDepth - room := by omega
    rw [jsonWriteValue, show jsonMaxDepth - (room + 1) = jsonMaxDepth - 1 - room by omega]
    unfold Heap.Writable Heap.Ends at hw
    unfold Heap.unfold
    cases hnode : h.node p with
    | null => simpa [writeNodeAt, Json.pieces, Piece.bytes] using emits_puts litNull
    | bool b =>
      cases b
      · simpa [writeNodeAt, Json.pieces, Piece.bytes] using emits_puts litFalse
      · simpa [writeNodeAt, Json.pieces, Piece.bytes] using emits_puts litTrue
    | integer i => simpa [writeNodeAt, Json.pieces, Piece.bytes] using emits_int64 i
    | float f =>
      rw [hnode] at hw
      obtain ⟨b, hb⟩ := hw
      simpa [writeNodeAt, Json.pieces, Piece.bytes, floatBytes, hb] using emits_double hb
    | string s =>
      rw [hnode] at hok
      exact emits_writeString opts hok.utf8
    | array a =>
      rw [hnode] at hok hw
      have hitems := emits_items (m := m) opts hdepth
        (h.unfold (opts.sortKeys && !m) room) fun q hq => by
          rw [hin]
          exact ih (by omega) (hok.2 q hq) (hw q hq)
      have hall := (emits_put 0x5B).check (e := pure) (hitems.check (e := pure)
        (emits_close opts hdepth.le a.items.length 0x5D))
      simpa [writeNodeAt, Json.pieces, Piece.bytes] using hall
    | object o =>
      rw [hnode] at hok hw
      have hperm := arrange_perm (opts.sortKeys && !m) o.pairs
      have hpairs := emits_pairs (m := m) opts hdepth
        (h.unfold (opts.sortKeys && !m) room) fun pr hpr => by
          have hmem := hperm.mem_iff.mp hpr
          rw [hin]
          exact ⟨(hok.2.1 pr hmem).1.utf8, ih (by omega) (hok.2.1 pr hmem).2 (hw pr hmem)⟩
      have hall := (emits_put 0x7B).check (e := pure) (hpairs.check (e := pure)
        (emits_close opts hdepth.le o.pairs.length 0x7D))
      rw [writeNodeAt, ← List.nil_append (bytesOf _)]
      refine (emits_order opts o.pairs).bind ?_
      simpa [Json.pieces, Piece.bytes, hperm.length_eq] using hall

/-! ## The length -/

/-- How long an entry of an object is, with a comma. -/
def pairLength (opts : JsonWriteOpts) (depth : ℕ) (kv : List UInt8 × Json D) : ℕ :=
  (bytesOf (newLine opts (depth + 1))).length + (keyText opts kv.1).length +
    (bytesOf (kv.2.pieces opts (depth + 1))).length + 1

/-- How long an item of an array is, with a comma. -/
def itemLength (opts : JsonWriteOpts) (depth : ℕ) (j : Json D) : ℕ :=
  (bytesOf (newLine opts (depth + 1))).length + (bytesOf (j.pieces opts (depth + 1))).length + 1

/-- All the entries have a comma, but the last one. -/
theorem length_piecesObj (depth : ℕ) : ∀ pairs : List (List UInt8 × Json D),
    (bytesOf (Json.piecesObj opts pairs depth)).length
      = (pairs.map (pairLength opts depth)).sum - 1 := by
  intro pairs
  induction pairs with
  | nil => rfl
  | cons kv pairs ih =>
    obtain ⟨key, j⟩ := kv
    cases pairs with
    | nil =>
      simp [Json.piecesObj, pairLength, commaPieces, Piece.bytes]
      omega
    | cons kv' pairs =>
      have hpos : 0 < ((kv' :: pairs).map (pairLength opts depth)).sum := by
        simp [pairLength]
      rw [Json.piecesObj]
      simp only [bytesOf_append, bytesOf_cons, List.length_append, ih, Piece.bytes]
      rw [List.map_cons (l := kv' :: pairs), List.sum_cons, pairLength]
      simp [commaPieces, Piece.bytes] at hpos ⊢
      omega

theorem length_piecesArr (depth : ℕ) : ∀ items : List (Json D),
    (bytesOf (Json.piecesArr opts items depth)).length
      = (items.map (itemLength opts depth)).sum - 1 := by
  intro items
  induction items with
  | nil => rfl
  | cons j items ih =>
    cases items with
    | nil => simp [Json.piecesArr, itemLength, commaPieces]
    | cons j' items =>
      have hpos : 0 < ((j' :: items).map (itemLength opts depth)).sum := by
        simp [itemLength]
      rw [Json.piecesArr]
      simp only [bytesOf_append, List.length_append, ih]
      rw [List.map_cons (l := j' :: items), List.sum_cons, itemLength]
      simp [commaPieces, Piece.bytes] at hpos ⊢
      omega

/-- **Sorting does not change the length.** -/
theorem length_unfold (h : Heap D) (sort : Bool) : ∀ (room : ℕ) (p : JsonPtr) (depth : ℕ),
    (bytesOf ((h.unfold sort room p).pieces opts depth)).length
      = (bytesOf ((h.unfold false room p).pieces opts depth)).length := by
  intro room
  induction room with
  | zero => exact fun _ _ => rfl
  | succ room ih =>
    intro p depth
    unfold Heap.unfold
    cases h.node p with
    | array a =>
      have hitems : (a.items.map (h.unfold sort room)).map (itemLength opts depth)
          = (a.items.map (h.unfold false room)).map (itemLength opts depth) := by
        simp [itemLength, Function.comp_def, ih]
      simp only [Json.pieces, bytesOf_cons, bytesOf_append, List.length_append, length_piecesArr,
        List.length_map, hitems]
    | object o =>
      have hperm := (arrange_perm sort o.pairs).map fun pr =>
        pairLength opts depth (pr.key.data, h.unfold sort room pr.val)
      have hpairs : (((arrange sort o.pairs).map fun pr =>
            (pr.key.data, h.unfold sort room pr.val)).map (pairLength opts depth)).sum
          = (((arrange false o.pairs).map fun pr =>
            (pr.key.data, h.unfold false room pr.val)).map (pairLength opts depth)).sum := by
        rw [List.map_map, List.map_map, arrange_false]
        refine hperm.sum_eq.trans ?_
        simp [pairLength, Function.comp_def, ih]
      simp only [Json.pieces, bytesOf_cons, bytesOf_append, List.length_append, length_piecesObj,
        List.length_map, hpairs, (arrange_perm sort o.pairs).length_eq,
        (arrange_perm false o.pairs).length_eq]
    | _ => rfl

/-! ## What can be written -/

/-- A checked step that did not end the function. -/
theorem check_eq_ok {α : Type} {x : WM JsonError} {k : WM α} {e : JsonError → WM α} {a : α}
    {w w' : JsonWriter} (h : (x >>= fun err => if err ≠ .ok then e err else k) w = .ok a w') :
    (∃ w₁, x w = .ok .ok w₁ ∧ k w₁ = .ok a w') ∨
      ∃ err w₁, err ≠ .ok ∧ x w = .ok err w₁ ∧ e err w₁ = .ok a w' := by
  obtain ⟨err, w₁, hx, hk⟩ := bind_eq_ok.mp h
  by_cases herr : err = .ok
  · rw [if_neg (not_not.mpr herr)] at hk
    exact .inl ⟨w₁, herr ▸ hx, hk⟩
  · rw [if_pos herr] at hk
    exact .inr ⟨err, w₁, herr, hx, hk⟩

/-- A checked step of a function that succeeded. -/
theorem check_ok {x k : WM JsonError} {w w' : JsonWriter}
    (h : (x >>= fun err => if err ≠ .ok then pure err else k) w = .ok .ok w') :
    ∃ w₁, x w = .ok .ok w₁ ∧ k w₁ = .ok .ok w' := by
  rcases check_eq_ok h with hok | ⟨err, w₁, hne, -, he⟩
  · exact hok
  · cases he
    exact absurd rfl hne

/-- Loops over entries that succeeded have written every entry. -/
theorem writeItems_ok {depth : ℕ} {write : JsonPtr → WM JsonError} : ∀ {ps : List JsonPtr}
    {w w' : JsonWriter}, writeItems opts depth write ps w = .ok .ok w' →
    ∀ p ∈ ps, ∃ w₁ w₂, write p w₁ = .ok .ok w₂ := by
  intro ps
  induction ps with
  | nil => simp
  | cons p ps ih =>
    intro w w' h
    rw [writeItems] at h
    obtain ⟨_, w₁, -, h⟩ := bind_eq_ok.mp h
    obtain ⟨w₂, hp, h⟩ := check_ok h
    refine List.forall_mem_cons.mpr ⟨⟨w₁, w₂, hp⟩, ?_⟩
    split at h
    · obtain ⟨_, w₃, -, h⟩ := bind_eq_ok.mp h
      exact ih h
    · exact ih h

theorem writePairs_ok {depth : ℕ} {write : JsonPtr → WM JsonError} : ∀ {pairs : List JsonPair}
    {w w' : JsonWriter}, writePairs opts depth write pairs w = .ok .ok w' →
    ∀ pr ∈ pairs, ∃ w₁ w₂, write pr.val w₁ = .ok .ok w₂ := by
  intro pairs
  induction pairs with
  | nil => simp
  | cons pr pairs ih =>
    intro w w' h
    rw [writePairs] at h
    obtain ⟨_, _, -, h⟩ := bind_eq_ok.mp h
    obtain ⟨_, w₁, -, h⟩ := bind_eq_ok.mp h
    obtain ⟨w₂, hpr, h⟩ := check_ok h
    refine List.forall_mem_cons.mpr ⟨⟨w₁, w₂, hpr⟩, ?_⟩
    split at h
    · obtain ⟨_, w₃, -, h⟩ := bind_eq_ok.mp h
      exact ih h
    · exact ih h

theorem floatText_error {f : D} {e : JsonError} (h : floatText f = .error e) :
    e = .invalidNumber ∨ e = .overflow := by
  unfold floatText at h
  split at h
  · cases h
    exact .inl rfl
  · split at h
    · cases h
      exact .inr rfl
    · split_ifs at h
      cases h
      exact .inr rfl

/-- The pairs that are written are those of the object. -/
theorem orderPairs_some {pairs pairs' : List JsonPair} {w w' : JsonWriter}
    (h : orderPairs opts pairs w = .ok (some pairs') w') : pairs'.Perm pairs := by
  rcases orderPairs_cases opts pairs w with ⟨-, heq⟩ | ⟨-, heq⟩
  · rw [heq] at h
    cases hmem : w.sortMem 0 with
    | false => rw [hmem] at h; cases h
    | true =>
      rw [hmem] at h
      cases h
      exact (sortedPairs_spec pairs).2.1
  · rw [heq] at h
    cases h
    exact .refl _

/-- **What has been written** could be written: the tree ends, and its doubles have a text. -/
theorem jsonWriteValue_writable {h : Heap D} : ∀ {room : ℕ} {p : JsonPtr} {w w' : JsonWriter},
    jsonWriteValue h opts room p w = .ok .ok w' → h.Writable room p := by
  intro room
  induction room with
  | zero =>
    intro p w w' hok
    cases hok
  | succ room ih =>
    intro p w w' hok
    rw [jsonWriteValue] at hok
    unfold Heap.Writable Heap.Ends
    cases hnode : h.node p with
    | float f =>
      rw [hnode, writeNodeAt, jwDouble] at hok
      cases hf : floatText f with
      | ok b => exact ⟨b, hf⟩
      | error e =>
        rw [hf] at hok
        cases hok
        rcases floatText_error hf with h | h <;> cases h
    | array a =>
      rw [hnode, writeNodeAt] at hok
      obtain ⟨_, -, hok⟩ := check_ok hok
      obtain ⟨_, hitems, -⟩ := check_ok hok
      intro q hq
      obtain ⟨w₁, w₂, hw⟩ := writeItems_ok hitems q hq
      exact ih hw
    | object o =>
      rw [hnode, writeNodeAt] at hok
      obtain ⟨ordered, w₁, horder, hok⟩ := bind_eq_ok.mp hok
      cases ordered with
      | none => cases hok
      | some pairs =>
        obtain ⟨_, -, hok⟩ := check_ok hok
        obtain ⟨_, hpairs, -⟩ := check_ok hok
        intro pr hpr
        obtain ⟨w₁, w₂, hw⟩ := writePairs_ok hpairs pr
          ((orderPairs_some horder).mem_iff.mpr hpr)
        exact ih hw
    | _ => trivial

/-! ## The whole output -/

/-- The text that is written for `v`. -/
def Heap.rendering (h : Heap D) (opts : JsonWriteOpts) (v : JsonPtr) : List UInt8 :=
  (h.unfold opts.sortKeys jsonMaxDepth v).render opts

theorem length_rendering (h : Heap D) (sort : Bool) (v : JsonPtr) :
    (h.rendering opts v).length = ((h.unfold sort jsonMaxDepth v).render opts).length := by
  unfold Heap.rendering Json.render Json.layout
  rw [bytesOf_append, bytesOf_append, List.length_append, List.length_append,
    length_unfold h opts.sortKeys, length_unfold h sort]

/-- The value and the new line behind it. -/
def writeBody (h : Heap D) (opts : JsonWriteOpts) (v : JsonPtr) : WM JsonError := do
  let err ← jsonWriteValue h opts jsonMaxDepth v
  if err = .ok ∧ opts.trailingNl then jwPut 0x0A else pure err

theorem emits_body (opts : JsonWriteOpts) {h : Heap D} (hrep : h.RepOk) {v : JsonPtr}
    (hv : v < h.next) (hw : h.Writable jsonMaxDepth v) :
    Emits m (writeBody h opts v) .ok
      ((h.unfold (opts.sortKeys && !m) jsonMaxDepth v).render opts) := by
  rw [Json.render, Json.layout, bytesOf_append]
  have hvalue := jsonWriteValue_emits (m := m) opts hrep le_rfl hv hw
  rw [Nat.sub_self] at hvalue
  refine hvalue.bind ?_
  cases hnl : opts.trailingNl with
  | true => exact emits_put 0x0A
  | false => exact emits_pure _

/-- The end of `json_write`. -/
def writeEnd (err : JsonError) : WM JsonError := fun w =>
  if err = .ok ∧ w.measureOnly = false then terminate w else .ok err w

theorem writeAll_eq (h : Heap D) (opts : JsonWriteOpts) (v : JsonPtr) :
    writeAll h opts v = writeBody h opts v >>= writeEnd := by
  unfold writeAll writeBody
  rw [bind_assoc]
  refine bind_congr fun err => ?_
  have hend : ∀ err : JsonError, (do
      let w ← get
      if err = .ok ∧ w.measureOnly = false then terminate else return err : WM JsonError)
      = writeEnd err := by
    intro err
    funext w
    show (if _ then _ else _ : WM JsonError) w = _
    unfold writeEnd
    split <;> rfl
  by_cases hnl : err = .ok ∧ opts.trailingNl = true
  · rw [if_pos hnl, if_pos hnl]
    exact bind_congr hend
  · rw [if_neg hnl, if_neg hnl]
    exact hend err

/-- The body succeeded where the whole writer did. -/
theorem writeAll_ok {h : Heap D} {v : JsonPtr} {w w' : JsonWriter}
    (hok : writeAll h opts v w = .ok .ok w') :
    h.Writable jsonMaxDepth v ∧ ∃ w₁, writeBody h opts v w = .ok .ok w₁ ∧
      writeEnd .ok w₁ = .ok .ok w' := by
  rw [writeAll_eq] at hok
  obtain ⟨err, w₁, hbody, hend⟩ := bind_eq_ok.mp hok
  have herr : err = .ok := by
    unfold writeEnd at hend
    split at hend
    · rename_i h
      exact h.1
    · cases hend
      rfl
  subst herr
  refine ⟨?_, w₁, hbody, hend⟩
  obtain ⟨err, w₂, hvalue, hnl⟩ := bind_eq_ok.mp hbody
  split at hnl
  · rename_i h
    exact jsonWriteValue_writable (h.1 ▸ hvalue)
  · cases hnl
    exact jsonWriteValue_writable hvalue

/-! ## Measuring and writing -/

/-- `r` is a success: `text` and a terminator are stored from the beginning of the buffer on,
and nothing else is. -/
structure Written.Holds (r : Written) (buf : ℕ → UInt8) (text : List UInt8) : Prop where
  status : r.status = .ok
  written : r.written = text.length
  buf : r.buf = overlay buf 0 (text ++ [0])

/-- A value that can be written has the length that is measured. -/
theorem jsonMeasure_of_writable {h : Heap D} (hrep : h.RepOk) {v : JsonPtr} (hv : v < h.next)
    (hw : h.Writable jsonMaxDepth v) (hfit : (h.rendering opts v).length ≤ sizeMax) :
    jsonMeasure h v opts = .ok (.ok, (h.rendering opts v).length) := by
  rw [length_rendering h false] at hfit ⊢
  have hemits := emits_body (m := true) opts hrep hv hw
    ⟨fun _ => 0, 0, 0, true, .ok, fun _ => false⟩ rfl
    ⟨rfl, fun hf => absurd hf (by decide), by simpa using hfit⟩
  rw [Bool.not_true, Bool.and_false] at hemits
  rw [jsonMeasure, writeAll_eq, bind_ok hemits]
  simp [writeEnd, outcome, emit]

/-- Measuring succeeds only on what can be written. -/
theorem jsonMeasure_ok {h : Heap D} {v : JsonPtr} {n : ℕ}
    (hok : jsonMeasure h v opts = .ok (.ok, n)) :
    h.Writable jsonMaxDepth v := by
  unfold jsonMeasure at hok
  cases hrun : writeAll h opts v ⟨fun _ => 0, 0, 0, true, .ok, fun _ => false⟩ with
  | error f w =>
    rw [hrun] at hok
    cases hok
  | ok e w =>
    rw [hrun] at hok
    cases hok
    exact (writeAll_ok hrun).1

/-- A buffer that is longer than the text takes it, with the terminator. -/
theorem jsonWrite_of_writable (opts : JsonWriteOpts) {h : Heap D} (hrep : h.RepOk) {v : JsonPtr}
    (hv : v < h.next) (hw : h.Writable jsonMaxDepth v) {c : ℕ}
    (hfit : (h.rendering opts v).length < c)
    (hc : c ≤ sizeMax) (buf : ℕ → UInt8) {sortMem : ℕ → Bool} (hmem : ∀ k, sortMem k = true) :
    ∃ r, jsonWrite h v buf c opts sortMem = .ok r ∧ r.Holds buf (h.rendering opts v) := by
  have hemits := emits_body (m := false) opts hrep hv hw
    ⟨buf, c, 0, false, .ok, sortMem⟩ rfl
  rw [Bool.not_false, Bool.and_true] at hemits
  have hready : JsonWriter.Ready ⟨buf, c, 0, false, .ok, sortMem⟩ (h.rendering opts v).length :=
    ⟨rfl, fun _ => hmem, by simpa using ⟨hfit, hc⟩⟩
  have hend : writeEnd .ok (emit ⟨buf, c, 0, false, .ok, sortMem⟩ (h.rendering opts v))
      = .ok .ok ⟨overlay buf 0 (h.rendering opts v ++ [0]), c, (h.rendering opts v).length, false,
        .ok, sortMem⟩ := by
    unfold writeEnd terminate emit
    rw [if_pos ⟨rfl, rfl⟩, if_pos (by simpa using hfit)]
    simp [← overlay_append, overlay_singleton]
  refine ⟨⟨.ok, (h.rendering opts v).length, overlay buf 0 (h.rendering opts v ++ [0])⟩, ?_,
    rfl, rfl, rfl⟩
  rw [jsonWrite, writeAll_eq, bind_ok (hemits hready)]
  exact congrArg outcome hend

/-- Writing succeeds only on what can be written. -/
theorem jsonWrite_ok {h : Heap D} {v : JsonPtr} {buf : ℕ → UInt8} {c : ℕ} {sortMem : ℕ → Bool}
    {r : Written} (hok : jsonWrite h v buf c opts sortMem = .ok r) (hr : r.status = .ok) :
    h.Writable jsonMaxDepth v := by
  unfold jsonWrite at hok
  cases hrun : writeAll h opts v ⟨buf, c, 0, false, .ok, sortMem⟩ with
  | error f w =>
    rw [hrun] at hok
    cases hok
  | ok e w =>
    rw [hrun] at hok
    cases hok
    obtain rfl : e = .ok := hr
    exact (writeAll_ok hrun).1

end SJson
