/-
# Output that does not fit

What the writer does in a buffer of any size.  A text that does not fit is noticed, since no
later text fits either, and the last thing written is a text.  An indentation that does not fit
is left out, and the code that says so is dropped; only a string value behind it returns
`w->err`.  `fill` follows the pieces of the output in this way (`jsonWriteValue_presses`), and
`Squeezed` says of a buffer that the output passes with an indentation left out: the one way in
which `json_write` reports success for less than the whole text (`jsonWrite_complete`).
-/
import SJson.Output

namespace SJson

open ErrState Overlay

/-! ## Filling a buffer -/

/-- How far a writer has come: the bytes it has stored, and whether something is left out. -/
structure Gauge where
  used : ℕ
  marked : Bool
  deriving DecidableEq, Repr

/-- One piece into a buffer of `c` bytes, the last of them for the terminator.  `none` stands
for a buffer that is full, or for an error that was returned. -/
def press (c : ℕ) : Option Gauge → Piece → Option Gauge
  | none, _ => none
  | some g, .text b =>
    if g.used + b.length < c then some { g with used := g.used + b.length } else none
  | some g, .pad n =>
    -- the code of `jw_indent` is dropped
    if g.used + n < c then some { g with used := g.used + n } else some { g with marked := true }
  | some g, .gate => if g.marked then none else some g

/-- The pieces one after the other. -/
def fill (c : ℕ) (ps : List Piece) (o : Option Gauge) : Option Gauge := ps.foldl (press c) o

/-- The pieces pass through a buffer of `c` bytes with an indentation left out. -/
def Squeezed (c : ℕ) (ps : List Piece) : Prop :=
  ∃ used, fill c ps (some ⟨0, false⟩) = some ⟨used, true⟩

variable {c : ℕ}

@[simp] theorem fill_nil (o : Option Gauge) : fill c [] o = o := rfl

@[simp] theorem fill_cons (p : Piece) (ps : List Piece) (o : Option Gauge) :
    fill c (p :: ps) o = fill c ps (press c o p) := rfl

theorem fill_append (ps qs : List Piece) (o : Option Gauge) :
    fill c (ps ++ qs) o = fill c qs (fill c ps o) := List.foldl_append

@[simp] theorem fill_none (ps : List Piece) : fill c ps none = none := by
  induction ps with
  | nil => rfl
  | cons p ps ih => exact ih

/-- Texts that stand one behind the other are one text. -/
theorem press_text_append (a b : List UInt8) (o : Option Gauge) :
    press c (press c o (.text a)) (.text b) = press c o (.text (a ++ b)) := by
  cases o with
  | none => rfl
  | some g =>
    simp only [press, List.length_append, ← Nat.add_assoc]
    by_cases ha : g.used + a.length < c
    · rw [if_pos ha]
    · rw [if_neg ha, if_neg (by omega)]

/-- From `g` to `g'` with pieces of `n` bytes: all of them are stored, or something is left out
and marked. -/
structure Gauge.Passes (c : ℕ) (g g' : Gauge) (n : ℕ) : Prop where
  lt : g'.used < c
  le : g'.used ≤ g.used + n
  clear : g'.marked = false → g.marked = false ∧ g'.used = g.used + n
  short : g'.marked = true → g.marked = false → g'.used < g.used + n

theorem Gauge.Passes.trans {g g' g'' : Gauge} {n m : ℕ} (h : g.Passes c g' n)
    (h' : g'.Passes c g'' m) : g.Passes c g'' (n + m) where
  lt := h'.lt
  le := by
    have hle := h.le
    have hle' := h'.le
    omega
  clear hg := by
    obtain ⟨hg', hused⟩ := h'.clear hg
    obtain ⟨hg, hused'⟩ := h.clear hg'
    exact ⟨hg, by omega⟩
  short hg'' hg := by
    have hle := h.le
    have hle' := h'.le
    cases hg' : g'.marked with
    | true =>
      have hlt := h.short hg' hg
      omega
    | false =>
      have hlt := h'.short hg'' hg'
      omega

/-- What one piece does. -/
theorem press_eq_some {p : Piece} {g g' : Gauge} (hlt : g.used < c)
    (h : press c (some g) p = some g') : g.Passes c g' p.bytes.length := by
  cases p with
  | text b =>
    simp only [press] at h
    split at h
    · obtain rfl := Option.some.inj h
      exact ⟨‹_›, le_rfl, fun hm => ⟨hm, rfl⟩, fun hm hg => by simp_all⟩
    · cases h
  | pad n =>
    simp only [press] at h
    split at h
    · obtain rfl := Option.some.inj h
      have hn : (Piece.pad n).bytes.length = n := List.length_replicate
      rw [hn]
      exact ⟨‹_›, le_rfl, fun hm => ⟨hm, rfl⟩, fun hm hg => by simp_all⟩
    · rename_i hfit
      obtain rfl := Option.some.inj h
      have hn : (Piece.pad n).bytes.length = n := List.length_replicate
      rw [hn]
      refine ⟨hlt, Nat.le_add_right .., fun hm => Bool.noConfusion hm, fun _ _ => ?_⟩
      show g.used < g.used + n
      omega
  | gate =>
    simp only [press] at h
    split at h
    · cases h
    · obtain rfl := Option.some.inj h
      exact ⟨hlt, le_rfl, fun hm => ⟨hm, rfl⟩, fun hm _ => absurd hm ‹_›⟩

/-- What has passed has been stored, but for what is left out. -/
theorem fill_eq_some : ∀ {ps : List Piece} {g g' : Gauge}, g.used < c →
    fill c ps (some g) = some g' → g.Passes c g' (bytesOf ps).length := by
  intro ps
  induction ps with
  | nil =>
    rintro g g' hlt h
    obtain rfl := Option.some.inj h
    exact ⟨hlt, le_rfl, fun hm => ⟨hm, rfl⟩, fun hm hg => by simp_all⟩
  | cons p ps ih =>
    intro g g' hlt h
    rw [fill_cons] at h
    rw [bytesOf_cons, List.length_append]
    cases hp : press c (some g) p with
    | none =>
      rw [hp, fill_none] at h
      cases h
    | some g₁ =>
      rw [hp] at h
      have hpass := press_eq_some hlt hp
      exact hpass.trans (ih hpass.lt h)

/-- No piece is an indentation, but for empty ones. -/
def PadFree (ps : List Piece) : Prop := ∀ n, .pad n ∈ ps → n = 0

theorem padFree_append {ps qs : List Piece} : PadFree (ps ++ qs) ↔ PadFree ps ∧ PadFree qs := by
  simp only [PadFree, List.mem_append, or_imp, forall_and]

theorem padFree_text_cons {b : List UInt8} {ps : List Piece} :
    PadFree (.text b :: ps) ↔ PadFree ps := by
  simp [PadFree]

/-- Without an indentation nothing is left out. -/
theorem PadFree.marked : ∀ {ps : List Piece} {g g' : Gauge}, PadFree ps → g.used < c →
    fill c ps (some g) = some g' → g'.marked = g.marked := by
  intro ps
  induction ps with
  | nil => exact fun _ _ h => congrArg Gauge.marked (Option.some.inj h).symm
  | cons p ps ih =>
    intro g g' hps hlt h
    rw [fill_cons] at h
    cases hp : press c (some g) p with
    | none =>
      rw [hp, fill_none] at h
      cases h
    | some g₁ =>
      rw [hp] at h
      rw [ih (fun n hn => hps n (List.mem_cons_of_mem p hn)) (press_eq_some hlt hp).lt h]
      cases p with
      | text b =>
        simp only [press] at hp
        split at hp <;> cases hp
        rfl
      | pad n =>
        obtain rfl := hps n List.mem_cons_self
        simp only [press, Nat.add_zero, if_pos hlt] at hp
        exact congrArg Gauge.marked (Option.some.inj hp).symm
      | gate =>
        simp only [press] at hp
        split at hp <;> cases hp
        rfl

/-! ## The writer in a buffer -/

namespace JsonWriter

/-- Where the writer stands in a buffer of `c` bytes. -/
def At (w : JsonWriter) (c : ℕ) : Option Gauge → Prop
  | some g => w.used = g.used ∧ w.used < c ∧ (w.err = .ok ↔ g.marked = false)
  | none => c ≤ w.used + 1

/-- The writer writes into a buffer of `c` bytes, has memory to sort, and stands at `o`. -/
structure Stands (w : JsonWriter) (c : ℕ) (o : Option Gauge) : Prop where
  cap : w.cap = c
  mode : w.measureOnly = false
  sortMem : ∀ k, w.sortMem k = true
  err : w.err = .ok ∨ w.err = .bufferTooSmall
  used_le : w.used ≤ c
  place : w.At c o

/-- Counting `n` more bytes does not overflow. -/
def Spare (w : JsonWriter) (c n : ℕ) : Prop := c ≤ ptrdiffMax ∨ w.used + n ≤ sizeMax

theorem Spare.left {w : JsonWriter} {n m : ℕ} (h : w.Spare c (n + m)) : w.Spare c n := by
  unfold Spare at h ⊢
  omega

theorem Spare.right {w w' : JsonWriter} {n m : ℕ} (h : w.Spare c (n + m))
    (hused : w'.used ≤ w.used + n) : w'.Spare c m := by
  unfold Spare at h ⊢
  omega

theorem Stands.le_sizeMax {w : JsonWriter} {o : Option Gauge} {n : ℕ} (hw : w.Stands c o)
    (h : w.Spare c n) (hn : n ≤ ptrdiffMax) : w.used + n ≤ sizeMax := by
  have hused := hw.used_le
  have hmax : ptrdiffMax + ptrdiffMax ≤ sizeMax := by decide
  unfold Spare at h
  omega

end JsonWriter

open JsonWriter

/-- From wherever the writer stands, the function emits the pieces as `fill` does, with a
result in `Q`. -/
def Presses (c : ℕ) {α : Type} (x : WM α) (ps : List Piece)
    (Q : Option Gauge → α → JsonWriter → Prop) : Prop :=
  ∀ (o : Option Gauge) (w : JsonWriter), w.Stands c o → w.Spare c (bytesOf ps).length →
    ∃ a w', x w = .ok a w' ∧ w'.used ≤ w.used + (bytesOf ps).length ∧ Q (fill c ps o) a w'

/-- The result of a function whose code is dropped. -/
def Placed (c : ℕ) {α : Type} (o : Option Gauge) (_ : α) (w : JsonWriter) : Prop := w.Stands c o

/-- The result of a function that says what became of its last piece. -/
def Told (c : ℕ) (o : Option Gauge) (e : JsonError) (w : JsonWriter) : Prop :=
  w.Stands c o ∧ (e = .ok ∧ o ≠ none ∨ e = .bufferTooSmall ∧ o = none)

/-- The result of a function that reports what did not pass. -/
def Reported (c : ℕ) (o : Option Gauge) (e : JsonError) (w : JsonWriter) : Prop :=
  e = .ok ∧ o ≠ none ∧ w.Stands c o ∨ e = .bufferTooSmall ∧ o = none

/-- The result of a function that reports what did not pass, or leaves the buffer full. -/
def Checked (c : ℕ) (o : Option Gauge) (e : JsonError) (w : JsonWriter) : Prop :=
  e = .ok ∧ w.Stands c o ∨ e = .bufferTooSmall ∧ o = none

section Rules

variable {α β : Type} {ps qs : List Piece} {Q R : Option Gauge → α → JsonWriter → Prop}

theorem Presses.mono {x : WM α} (h : Presses c x ps Q) (hQ : ∀ o a w, Q o a w → R o a w) :
    Presses c x ps R := by
  intro o w hw hspare
  obtain ⟨a, w', hx, hused, hq⟩ := h o w hw hspare
  exact ⟨a, w', hx, hused, hQ _ _ _ hq⟩

theorem Told.placed {o : Option Gauge} {e : JsonError} {w : JsonWriter} (h : Told c o e w) :
    Placed c o e w := h.1

theorem Told.reported {o : Option Gauge} {e : JsonError} {w : JsonWriter} (h : Told c o e w) :
    Reported c o e w := by
  obtain ⟨hw, ⟨he, ho⟩ | h⟩ := h
  · exact .inl ⟨he, ho, hw⟩
  · exact .inr h

theorem Reported.checked {o : Option Gauge} {e : JsonError} {w : JsonWriter}
    (h : Reported c o e w) : Checked c o e w := by
  obtain ⟨he, -, hw⟩ | h := h
  · exact .inl ⟨he, hw⟩
  · exact .inr h

/-- Sequencing, with what the second function does behind each result of the first one. -/
theorem Presses.bind {x : WM β} {k : β → WM α} {S : Option Gauge → β → JsonWriter → Prop}
    (hx : Presses c x ps S)
    (hk : ∀ o b w, S o b w → w.Spare c (bytesOf qs).length →
      ∃ a w', k b w = .ok a w' ∧ w'.used ≤ w.used + (bytesOf qs).length ∧ Q (fill c qs o) a w') :
    Presses c (x >>= k) (ps ++ qs) Q := by
  intro o w hw hspare
  rw [bytesOf_append, List.length_append] at hspare ⊢
  obtain ⟨b, w₁, hx, hused, hs⟩ := hx o w hw hspare.left
  obtain ⟨a, w₂, hk, hused', hq⟩ := hk _ b w₁ hs (hspare.right hused)
  rw [fill_append]
  exact ⟨a, w₂, (bind_ok hx).trans hk, by omega, hq⟩

/-- A step whose code is dropped. -/
theorem Presses.skip {x : WM β} {k : WM α} (hx : Presses c x ps (Placed c))
    (hk : Presses c k qs Q) : Presses c (x >>= fun _ => k) (ps ++ qs) Q :=
  hx.bind fun o _ w hs hspare => hk o w hs hspare

/-- A step whose code is looked at. -/
theorem Presses.check {x : WM JsonError} {k : WM α} {e : JsonError → WM α} {a : α}
    (hx : Presses c x ps (Checked c)) (hk : Presses c k qs Q)
    (he : ∀ w, e .bufferTooSmall w = .ok a w) (hQ : ∀ w, Q none a w) :
    Presses c (x >>= fun err => if err ≠ .ok then e err else k) (ps ++ qs) Q := by
  refine hx.bind fun o err w hs hspare => ?_
  rcases hs with ⟨rfl, hw⟩ | ⟨rfl, rfl⟩
  · rw [if_neg (not_not.mpr rfl)]
    exact hk o w hw hspare
  · rw [if_pos (by decide), fill_none]
    exact ⟨a, w, he w, Nat.le_add_right .., hQ w⟩

/-- Two texts as one. -/
theorem Presses.text {x : WM α} {a b : List UInt8}
    (h : Presses c x (.text a :: .text b :: ps) Q) : Presses c x (.text (a ++ b) :: ps) Q := by
  intro o w hw hspare
  have hlen : (bytesOf (.text a :: .text b :: ps)).length
      = (bytesOf (.text (a ++ b) :: ps)).length := by simp [Piece.bytes]
  have hfill : fill c (.text a :: .text b :: ps) o = fill c (.text (a ++ b) :: ps) o := by
    rw [fill_cons, fill_cons, fill_cons, press_text_append]
  rw [← hlen, ← hfill]
  exact h o w hw (hlen ▸ hspare)

theorem presses_pure (a : α) : Presses c (pure a) [] (Placed c) := fun _ w hw _ =>
  ⟨a, w, rfl, Nat.le_add_right .., hw⟩

theorem presses_ok : Presses c (pure .ok) [] (Checked c) := fun _ w hw _ =>
  ⟨.ok, w, rfl, Nat.le_add_right .., .inl ⟨rfl, hw⟩⟩

end Rules

/-! ## Bytes -/

/-- An error of the buffer, where the piece does not pass. -/
theorem JsonWriter.Stands.full {w : JsonWriter} {o : Option Gauge} (hw : w.Stands c o)
    (hfull : c ≤ w.used + 1) : Told c none .bufferTooSmall { w with err := .bufferTooSmall } :=
  ⟨⟨hw.cap, hw.mode, hw.sortMem, .inr rfl, hw.used_le, hfull⟩, .inr ⟨rfl, rfl⟩⟩

theorem presses_put (b : UInt8) : Presses c (jwPut b) [.text [b]] (Told c) := by
  intro o w hw hspare
  have hmax : w.used + 1 ≤ sizeMax := hw.le_sizeMax hspare (by decide)
  have hcap := hw.cap
  unfold jwPut
  rw [if_neg (by omega), if_neg (by simp [hw.mode]), fill_cons, fill_nil]
  cases o with
  | none =>
    have hfull : c ≤ w.used + 1 := hw.place
    rw [if_pos (by omega)]
    exact ⟨_, _, rfl, Nat.le_add_right .., hw.full hfull⟩
  | some g =>
    obtain ⟨hused, hlt, herr⟩ := hw.place
    rw [press, List.length_singleton]
    by_cases hfit : g.used + 1 < c
    · rw [if_pos hfit, if_neg (by omega)]
      have hstore : storeByte b w = .ok ()
          { w with buf := Function.update w.buf w.used b, used := w.used + 1 } :=
        if_pos (by omega)
      rw [bind_ok hstore]
      refine ⟨.ok, _, rfl, le_rfl, ⟨hw.cap, hw.mode, hw.sortMem, hw.err, ?_, ?_⟩,
        .inl ⟨rfl, by simp⟩⟩
      · show w.used + 1 ≤ c
        omega
      · exact ⟨congrArg (· + 1) hused, by show w.used + 1 < c; omega, herr⟩
    · rw [if_neg hfit, if_pos (by omega)]
      exact ⟨_, _, rfl, Nat.le_add_right .., hw.full (by omega)⟩

/-- Behind a text that passed, the loop goes on with the rest of it. -/
theorem putLoop_some : ∀ {s : List UInt8} {g : Gauge} {w : JsonWriter}, w.Stands c (some g) →
    w.Spare c s.length → ∃ e w', putLoop s w = .ok e w' ∧ w'.used ≤ w.used + s.length ∧
      Told c (press c (some g) (.text s)) e w' := by
  intro s
  induction s with
  | nil =>
    intro g w hw _
    have hlt : g.used + 0 < c := by
      obtain ⟨hused, hlt, -⟩ := hw.place
      omega
    rw [press, List.length_nil, if_pos hlt]
    exact ⟨.ok, w, rfl, le_rfl, hw, .inl ⟨rfl, by simp⟩⟩
  | cons b s ih =>
    intro g w hw hspare
    rw [List.length_cons, Nat.add_comm] at hspare
    obtain ⟨e, w₁, hput, hused, hstands, htold⟩ := presses_put b (some g) w hw hspare.left
    rw [putLoop, ← List.singleton_append, ← press_text_append, List.length_append]
    rw [fill_cons, fill_nil] at hstands htold
    rcases htold with ⟨rfl, hne⟩ | ⟨rfl, hnone⟩
    · obtain ⟨g₁, hg₁⟩ := Option.ne_none_iff_exists'.mp hne
      rw [hg₁] at hstands ⊢
      obtain ⟨e', w₂, hloop, hused', htold'⟩ := ih hstands (hspare.right hused)
      refine ⟨e', w₂, ?_, by have : w₁.used ≤ w.used + 1 := hused; simp; omega, htold'⟩
      rw [bind_ok hput, if_neg (not_not.mpr rfl)]
      exact hloop
    · rw [hnone] at hstands ⊢
      refine ⟨.bufferTooSmall, w₁, ?_, hused.trans (by simp [Piece.bytes]), hstands,
        .inr ⟨rfl, rfl⟩⟩
      rw [bind_ok hput, if_pos (by decide)]
      rfl

theorem presses_putLoop {s : List UInt8} (hs : s ≠ []) :
    Presses c (putLoop s) [.text s] (Told c) := by
  intro o w hw hspare
  have hlen : (bytesOf [.text s]).length = s.length := by simp [Piece.bytes]
  rw [hlen] at hspare ⊢
  cases o with
  | some g => exact putLoop_some hw hspare
  | none =>
    -- the first byte is refused
    obtain ⟨b, s, rfl⟩ := List.exists_cons_of_ne_nil hs
    rw [List.length_cons, Nat.add_comm] at hspare
    obtain ⟨e, w₁, hput, hused, hstands, htold⟩ := presses_put b none w hw hspare.left
    obtain ⟨rfl, -⟩ : e = .bufferTooSmall ∧ _ := htold.resolve_left fun h => h.2 rfl
    refine ⟨.bufferTooSmall, w₁, ?_, hused.trans (by simp [Piece.bytes]), hstands, .inr ⟨rfl, rfl⟩⟩
    rw [putLoop, bind_ok hput, if_pos (by decide)]
    rfl

theorem presses_puts {s : List UInt8} (hs : s ≠ []) (hlen : s.length ≤ ptrdiffMax) :
    Presses c (jwPuts s) [.text s] (Told c) := by
  intro o w hw hspare
  have hbytes : (bytesOf [.text s]).length = s.length := by simp [Piece.bytes]
  have hmax := hw.le_sizeMax (hbytes ▸ hspare) hlen
  unfold jwPuts
  rw [if_neg (by omega), if_neg (by simp [hw.mode])]
  exact presses_putLoop hs o w hw hspare

/-- The widest indentation does not overflow. -/
theorem indent_le {depth : ℕ} (hdepth : depth ≤ jsonMaxDepth) (indent : UInt32) :
    depth * indent.toNat ≤ ptrdiffMax :=
  (Nat.mul_le_mul hdepth (le_of_lt indent.toNat_lt)).trans (by decide)

theorem presses_indent {depth : ℕ} (hdepth : depth ≤ jsonMaxDepth) (indent : UInt32) :
    Presses c (jwIndent depth indent) [.pad (depth * indent.toNat)] (Placed c) := by
  intro o w hw hspare
  have hbytes : (bytesOf [.pad (depth * indent.toNat)]).length = depth * indent.toNat := by
    simp [Piece.bytes]
  rw [hbytes] at hspare ⊢
  have hmax := hw.le_sizeMax hspare (indent_le hdepth indent)
  have hcap := hw.cap
  obtain ⟨hmod, hno⟩ := indent_checked hdepth indent hmax
  unfold jwIndent
  simp only [hmod]
  rw [if_neg hno, if_neg (by simp [hw.mode]), fill_cons, fill_nil]
  generalize depth * indent.toNat = count at hspare hmax
  by_cases hfit : w.cap = 0 ∨ w.used ≥ w.cap ∨ count ≥ w.cap - w.used
  · rw [if_pos hfit]
    refine ⟨_, _, rfl, Nat.le_add_right .., hw.cap, hw.mode, hw.sortMem, .inr rfl, hw.used_le, ?_⟩
    cases o with
    | none => exact hw.place
    | some g =>
      obtain ⟨hused, hlt, -⟩ := hw.place
      rw [press, if_neg (by omega)]
      exact ⟨hused, hlt, by simp⟩
  · rw [if_neg hfit]
    have hfill : fillSpaces count w = .ok () { w with
        buf := fun i => if w.used ≤ i ∧ i < w.used + count then 0x20 else w.buf i
        used := w.used + count } := if_pos (by omega)
    rw [bind_ok hfill]
    refine ⟨_, _, rfl, le_rfl, hw.cap, hw.mode, hw.sortMem, hw.err, ?_, ?_⟩
    · show w.used + count ≤ c
      omega
    · cases o with
      | none =>
        have hfull : c ≤ w.used + 1 := hw.place
        show c ≤ w.used + count + 1
        omega
      | some g =>
        obtain ⟨hused, hlt, herr⟩ := hw.place
        rw [press, if_pos (by omega)]
        exact ⟨congrArg (· + count) hused, by show w.used + count < c; omega, herr⟩

/-! ## Scalars -/

theorem presses_digits (i : Int64) : Presses c
    (if int64Abs i = 0 then jwPut 0x30
      else digitLoop sizeofIntBuf (int64Abs i) [] >>= putLoop)
    [.text (if int64Abs i = 0 then [0x30]
      else (Nat.digits 10 (int64Abs i)).reverse.map fun d => .ofNat (0x30 + d))] (Told c) := by
  by_cases hzero : int64Abs i = 0
  · rw [if_pos hzero, if_pos hzero]
    exact presses_put _
  · rw [if_neg hzero, if_neg hzero]
    intro o w hw hspare
    rw [bind_ok (digitLoop_eq w [] (int64Abs_lt i)), List.append_nil]
    refine presses_putLoop ?_ o w hw hspare
    simpa [Nat.digits_ne_nil_iff_ne_zero] using hzero

theorem presses_int64 (i : Int64) : Presses c (jwInt64 i) [.text (intText i)] (Reported c) := by
  have hdigits := (presses_digits (c := c) i).mono fun _ _ _ => Told.reported
  unfold jwInt64 intText
  by_cases hneg : i.toInt < 0
  · rw [if_pos hneg, if_pos hneg]
    refine Presses.text ?_
    exact ((presses_put 0x2D).mono fun _ _ _ h => h.reported.checked).check hdigits
      (fun _ => rfl) fun _ => .inr ⟨rfl, rfl⟩
  · rw [if_neg hneg, if_neg hneg]
    exact hdigits

theorem presses_double {D : Type} [CDouble D] {f : D} {b : List UInt8}
    (hb : floatText f = .ok b) : Presses c (jwDouble f) [.text b] (Told c) := by
  obtain ⟨hne, hlen⟩ := floatText_length hb
  have hmax : sizeofFloatBuf ≤ ptrdiffMax := by decide
  unfold jwDouble
  rw [hb]
  exact presses_puts hne (by omega)

/-! ## Strings -/

/-- The result of the loop over a string: `w->err`, or that its last text did not pass. -/
def Scanned (c : ℕ) (o : Option Gauge) (e : JsonError) (w : JsonWriter) : Prop :=
  w.Stands c o ∧ (e = w.err ∨ e = .bufferTooSmall ∧ o = none)

theorem Scanned.placed {o : Option Gauge} {e : JsonError} {w : JsonWriter}
    (h : Scanned c o e w) : Placed c o e w := h.1

theorem presses_ascii (b : UInt8) : Presses c (jwAscii b)
    [.text (if needsEscape b then escapeText b else [b])] (Told c) := by
  unfold jwAscii
  split
  · have hlen : escapeText b ≠ [] ∧ (escapeText b).length ≤ ptrdiffMax := by
      unfold escapeText
      split_ifs <;> exact ⟨by simp, by simp only [List.length_cons, List.length_nil]; decide⟩
    exact presses_puts hlen.1 hlen.2
  · exact presses_put b

theorem presses_u16 (code : ℕ) : Presses c (jwU16 code) [.text (u16Text code)] (Told c) :=
  presses_puts (by simp [u16Text])
    (by simp only [u16Text, List.length_cons, List.length_nil]; decide)

theorem presses_multibyte (asciiOnly : Bool) {cp : ℕ} (hcp : IsScalar cp) (hge : ¬ cp < 0x80) :
    Presses c (jwMultibyte asciiOnly cp (jsonEncodeUtf8 cp))
      [.text (charText asciiOnly cp)] (Told c) := by
  unfold jwMultibyte charText
  rw [if_neg hge]
  split
  · have hpos := jsonEncodeUtf8_length_pos hcp
    exact presses_puts (List.ne_nil_of_length_pos hpos)
      ((jsonEncodeUtf8_length_le cp).trans (by decide))
  split
  · exact presses_u16 _
  · refine Presses.text ((presses_u16 _).bind fun o e w hs hspare => ?_)
    obtain ⟨hw, ⟨rfl, -⟩ | ⟨rfl, rfl⟩⟩ := hs
    · rw [if_pos rfl]
      exact presses_u16 _ o w hw hspare
    · rw [if_neg (by decide), fill_none]
      exact ⟨_, w, rfl, Nat.le_add_right .., hw, .inr ⟨rfl, rfl⟩⟩

theorem presses_charsLoop (asciiOnly : Bool) : ∀ {cps : List ℕ}, (∀ cp ∈ cps, IsScalar cp) →
    Presses c (charsLoop asciiOnly cps) [.text (cps.flatMap (charText asciiOnly))] (Scanned c) := by
  intro cps
  induction cps with
  | nil =>
    intro _ o w hw _
    refine ⟨w.err, w, rfl, le_rfl, ?_, .inl rfl⟩
    cases o with
    | none => exact hw
    | some g =>
      obtain ⟨hused, hlt, -⟩ := hw.place
      rw [fill_cons, fill_nil, press, List.flatMap_nil, List.length_nil, if_pos (by omega)]
      exact hw
  | cons cp cps ih =>
    intro hall
    obtain ⟨hcp, hrest⟩ := List.forall_mem_cons.mp hall
    rw [charsLoop, List.flatMap_cons]
    by_cases hlt : cp < 0x80
    · rw [if_pos hlt, charText, if_pos hlt]
      -- the code of `jw_puts` is dropped
      exact Presses.text (((presses_ascii _).mono fun _ _ _ => Told.placed).skip (ih hrest))
    · rw [if_neg hlt]
      refine Presses.text ((presses_multibyte asciiOnly hcp hlt).bind fun o e w hs hspare => ?_)
      obtain ⟨hw, ⟨rfl, -⟩ | ⟨rfl, rfl⟩⟩ := hs
      · rw [if_neg (not_not.mpr rfl)]
        exact ih hrest o w hw hspare
      · rw [if_pos (by decide), fill_none]
        exact ⟨_, w, rfl, Nat.le_add_right .., hw, .inr ⟨rfl, rfl⟩⟩

theorem presses_stringContent (asciiOnly : Bool) {s : List UInt8} (hs : IsUtf8 s) :
    Presses c (jwStringContent asciiOnly s) [.text (contentText asciiOnly s)] (Scanned c) := by
  obtain ⟨cps, hall, rfl⟩ := hs
  rw [jwStringContent_encode asciiOnly hall, contentText_encode asciiOnly hall]
  exact presses_charsLoop asciiOnly hall

/-- A string value returns `w->err`. -/
theorem presses_gate {x : WM JsonError} {b : List UInt8} (hx : Presses c x [.text b] (Scanned c)) :
    Presses c x [.text b, .gate] (Checked c) := by
  intro o w hw hspare
  obtain ⟨e, w', hok, hused, hs⟩ := hx o w hw hspare
  refine ⟨e, w', hok, hused, ?_⟩
  rw [fill_cons, fill_nil] at hs
  rw [fill_cons, fill_cons, fill_nil]
  obtain ⟨hstands, he⟩ := hs
  cases ho : press c o (.text b) with
  | none =>
    rw [ho] at hstands
    rcases he with rfl | ⟨rfl, -⟩
    · exact hstands.err.imp (fun he => ⟨he, hstands⟩) fun he => ⟨he, rfl⟩
    · exact .inr ⟨rfl, rfl⟩
  | some g =>
    rw [ho] at hstands he
    obtain rfl : e = w'.err := he.resolve_right (by simp)
    obtain ⟨-, -, hmark⟩ := hstands.place
    cases hg : g.marked with
    | false =>
      rw [press, hg]
      exact .inl ⟨hmark.mpr hg, hstands⟩
    | true =>
      rw [press, hg]
      refine .inr ⟨hstands.err.resolve_left fun hok => ?_, rfl⟩
      exact Bool.noConfusion ((hmark.mp hok).symm.trans hg)

theorem presses_writeString (opts : JsonWriteOpts) {s : List UInt8} (hs : IsUtf8 s) :
    Presses c (writeString opts s)
      [.text (0x22 :: contentText opts.asciiOnly s), .gate, .text [0x22]] (Reported c) := by
  have hquote := (presses_put (c := c) 0x22).mono fun _ _ _ => Told.reported
  have hcontent := presses_gate (presses_stringContent (c := c) opts.asciiOnly hs)
  refine Presses.text (a := [0x22]) ?_
  exact (hquote.mono fun _ _ _ => Reported.checked).check
    (hcontent.check hquote (fun _ => rfl) fun _ => .inr ⟨rfl, rfl⟩)
    (fun _ => rfl) fun _ => .inr ⟨rfl, rfl⟩

/-! ## Containers -/

theorem presses_newLine (opts : JsonWriteOpts) {depth : ℕ} (hdepth : depth ≤ jsonMaxDepth) :
    Presses c (jwNewLine opts depth) (newLine opts depth) (Placed c) := by
  unfold jwNewLine newLine
  split
  · exact ((presses_put 0x0A).mono fun _ _ _ => Told.placed).skip
      ((presses_indent hdepth opts.indent).skip (presses_pure ()))
  · exact presses_pure ()

theorem presses_close (opts : JsonWriteOpts) {depth : ℕ} (hdepth : depth ≤ jsonMaxDepth) (len : ℕ)
    (bracket : UInt8) :
    Presses c (writeClose opts depth len bracket) (closePieces opts depth len bracket)
      (Reported c) := by
  have hput := (presses_put (c := c) bracket).mono fun _ _ _ => Told.reported
  unfold writeClose closePieces
  by_cases hlen : len > 0
  · rw [if_pos hlen, if_pos hlen]
    exact (presses_newLine opts hdepth).skip hput
  · rw [if_neg hlen, if_neg hlen]
    exact hput

theorem presses_key (opts : JsonWriteOpts) {key : List UInt8} (hkey : IsUtf8 key) :
    Presses c (writeKey opts key) [.text (keyText opts key)] (Placed c) := by
  have hput : ∀ b, Presses c (jwPut b) [.text [b]] (Placed c) := fun b =>
    (presses_put b).mono fun _ _ _ => Told.placed
  have hcontent := (presses_stringContent (c := c) opts.asciiOnly hkey).mono fun _ _ _ =>
    Scanned.placed
  unfold writeKey keyText
  cases opts.pretty with
  | true =>
    have h := (hput 0x22).skip (hcontent.skip ((hput 0x22).skip ((hput 0x3A).skip
      ((hput 0x20).skip (presses_pure ())))))
    have h' := Presses.text (Presses.text (Presses.text (Presses.text h)))
    simpa using h'
  | false =>
    have h := (hput 0x22).skip (hcontent.skip ((hput 0x22).skip ((hput 0x3A).skip
      (presses_pure ()))))
    have h' := Presses.text (Presses.text (Presses.text h))
    simpa using h'

/-- The comma behind an entry. -/
theorem Presses.comma {α β : Type} (rest : List α) {k : WM β} {qs : List Piece}
    {Q : Option Gauge → β → JsonWriter → Prop} (hk : Presses c k qs Q) :
    Presses c (do
      if rest ≠ [] then
        let _ ← jwPut 0x2C
      k) (commaPieces rest.isEmpty ++ qs) Q := by
  cases rest with
  | nil => exact hk
  | cons a rest =>
    rw [if_pos (by simp)]
    exact ((presses_put 0x2C).mono fun _ _ _ => Told.placed).skip hk

variable {D : Type} [CDouble D]

theorem presses_items (opts : JsonWriteOpts) {depth : ℕ} (hdepth : depth < jsonMaxDepth)
    {write : JsonPtr → WM JsonError} (tree : JsonPtr → Json D) : ∀ {ps : List JsonPtr},
    (∀ p ∈ ps, Presses c (write p) ((tree p).pieces opts (depth + 1)) (Reported c)) →
    Presses c (writeItems opts depth write ps) (Json.piecesArr opts (ps.map tree) depth)
      (Checked c) := by
  intro ps
  induction ps with
  | nil => exact fun _ => presses_ok
  | cons p ps ih =>
    intro h
    obtain ⟨hp, hps⟩ := List.forall_mem_cons.mp h
    have hrest := (presses_newLine opts hdepth).skip
      ((hp.mono fun _ _ _ => Reported.checked).check (e := pure) ((ih hps).comma ps)
        (fun _ => rfl) fun _ => .inr ⟨rfl, rfl⟩)
    rw [writeItems, List.map_cons, Json.piecesArr, List.isEmpty_map]
    simpa using hrest

theorem presses_pairs (opts : JsonWriteOpts) {depth : ℕ} (hdepth : depth < jsonMaxDepth)
    {write : JsonPtr → WM JsonError} (tree : JsonPtr → Json D) : ∀ {pairs : List JsonPair},
    (∀ pr ∈ pairs, IsUtf8 pr.key.data ∧
      Presses c (write pr.val) ((tree pr.val).pieces opts (depth + 1)) (Reported c)) →
    Presses c (writePairs opts depth write pairs)
      (Json.piecesObj opts (pairs.map fun pr => (pr.key.data, tree pr.val)) depth)
      (Checked c) := by
  intro pairs
  induction pairs with
  | nil => exact fun _ => presses_ok
  | cons pr pairs ih =>
    intro h
    obtain ⟨⟨hkey, hval⟩, hpairs⟩ := List.forall_mem_cons.mp h
    have hrest := (presses_newLine opts hdepth).skip ((presses_key opts hkey).skip
      ((hval.mono fun _ _ _ => Reported.checked).check (e := pure) ((ih hpairs).comma pairs)
        (fun _ => rfl) fun _ => .inr ⟨rfl, rfl⟩))
    rw [writePairs, List.map_cons, Json.piecesObj, List.isEmpty_map]
    simpa using hrest

/-- Sorting is granted wherever the writer stands. -/
theorem JsonWriter.Stands.orderPairs {w : JsonWriter} {o : Option Gauge} (hw : w.Stands c o)
    (opts : JsonWriteOpts) (pairs : List JsonPair) :
    orderPairs opts pairs w = .ok (some (arrange opts.sortKeys pairs)) w := by
  rw [orderPairs_granted opts pairs fun _ => hw.sortMem, hw.mode, Bool.not_false, Bool.and_true]

/-! ## Values -/

/-- **The writer in a buffer of any size** follows `fill`, and reports what does not pass. -/
theorem jsonWriteValue_presses (opts : JsonWriteOpts) {h : Heap D} (hrep : h.RepOk) :
    ∀ {room : ℕ} {p : JsonPtr}, room ≤ jsonMaxDepth → p < h.next → h.Writable room p →
    Presses c (jsonWriteValue h opts room p)
      ((h.unfold opts.sortKeys room p).pieces opts (jsonMaxDepth - room)) (Reported c) := by
  intro room
  induction room with
  | zero => exact fun _ _ hw => hw.elim
  | succ room ih =>
    intro p hroom hp hw
    have hok := hrep p hp
    have hdepth : jsonMaxDepth - 1 - room < jsonMaxDepth := by omega
    have hin : jsonMaxDepth - 1 - room + 1 = jsonMaxDepth - room := by omega
    have hput : ∀ b, Presses c (jwPut b) [.text [b]] (Checked c) := fun b =>
      (presses_put b).mono fun _ _ _ h => h.reported.checked
    have hlit : ∀ s : List UInt8, s ≠ [] → s.length ≤ ptrdiffMax →
        Presses c (jwPuts s) [.text s] (Reported c) := fun s hs hlen =>
      (presses_puts hs hlen).mono fun _ _ _ => Told.reported
    rw [jsonWriteValue, show jsonMaxDepth - (room + 1) = jsonMaxDepth - 1 - room by omega]
    unfold Heap.Writable Heap.Ends at hw
    unfold Heap.unfold
    cases hnode : h.node p with
    | null => exact hlit litNull (by decide) (by decide)
    | bool b =>
      cases b with
      | true => exact hlit litTrue (by decide) (by decide)
      | false => exact hlit litFalse (by decide) (by decide)
    | integer i => exact presses_int64 i
    | float f =>
      rw [hnode] at hw
      obtain ⟨b, hb⟩ := hw
      have h := (presses_double (c := c) hb).mono fun _ _ _ => Told.reported
      simpa [writeNodeAt, Json.pieces, floatBytes, hb] using h
    | string s =>
      rw [hnode] at hok
      exact presses_writeString opts hok.utf8
    | array a =>
      rw [hnode] at hok hw
      have hitems := presses_items (c := c) opts hdepth (h.unfold opts.sortKeys room)
        fun q hq => by
          rw [hin]
          exact ih (by omega) (hok.2 q hq) (hw q hq)
      have hclose := presses_close (c := c) opts hdepth.le a.items.length 0x5D
      have hall := (hput 0x5B).check (e := pure) (hitems.check (e := pure) hclose
        (fun _ => rfl) fun _ => .inr ⟨rfl, rfl⟩) (fun _ => rfl) fun _ => .inr ⟨rfl, rfl⟩
      simpa [writeNodeAt, Json.pieces] using hall
    | object o =>
      rw [hnode] at hok hw
      have hperm := arrange_perm opts.sortKeys o.pairs
      have hpairs := presses_pairs (c := c) opts hdepth (h.unfold opts.sortKeys room)
        fun pr hpr => by
          have hmem := hperm.mem_iff.mp hpr
          rw [hin]
          exact ⟨(hok.2.1 pr hmem).1.utf8, ih (by omega) (hok.2.1 pr hmem).2 (hw pr hmem)⟩
      have hclose := presses_close (c := c) opts hdepth.le o.pairs.length 0x7D
      have hall := (hput 0x7B).check (e := pure) (hpairs.check (e := pure) hclose
        (fun _ => rfl) fun _ => .inr ⟨rfl, rfl⟩) (fun _ => rfl) fun _ => .inr ⟨rfl, rfl⟩
      intro g w hstands hspare
      rw [writeNodeAt, bind_ok (hstands.orderPairs opts o.pairs)]
      rw [Json.pieces, List.length_map, hperm.length_eq] at hspare ⊢
      exact hall g w hstands hspare

theorem presses_body (opts : JsonWriteOpts) {h : Heap D} (hrep : h.RepOk) {v : JsonPtr}
    (hv : v < h.next) (hw : h.Writable jsonMaxDepth v) :
    Presses c (writeBody h opts v) ((h.unfold opts.sortKeys jsonMaxDepth v).layout opts)
      (Reported c) := by
  have hvalue := jsonWriteValue_presses (c := c) opts hrep le_rfl hv hw
  rw [Nat.sub_self] at hvalue
  refine hvalue.bind fun o e w hs hspare => ?_
  rcases hs with ⟨rfl, ho, hstands⟩ | ⟨rfl, rfl⟩
  · cases hnl : opts.trailingNl with
    | true =>
      rw [hnl] at hspare
      rw [if_pos ⟨rfl, rfl⟩]
      obtain ⟨e, w', hput, hused, htold⟩ := presses_put 0x0A o w hstands hspare
      exact ⟨e, w', hput, hused, htold.reported⟩
    | false =>
      rw [if_neg fun h => Bool.noConfusion h.2]
      exact ⟨.ok, w, rfl, Nat.le_add_right .., .inl ⟨rfl, ho, hstands⟩⟩
  · rw [if_neg fun h => JsonError.noConfusion h.1, fill_none]
    exact ⟨.bufferTooSmall, w, rfl, Nat.le_add_right .., .inr ⟨rfl, rfl⟩⟩

/-! ## The whole output -/

/-- Every output begins with a text, so that nothing passes without a buffer. -/
theorem fill_layout_zero (opts : JsonWriteOpts) (j : Json D) (g : Gauge) :
    fill 0 (j.layout opts) (some g) = none := by
  obtain ⟨b, ps, hlayout⟩ : ∃ b ps, j.layout opts = .text b :: ps := by
    cases j <;> exact ⟨_, _, rfl⟩
  rw [hlayout, fill_cons, press, if_neg (Nat.not_lt_zero _), fill_none]

/-- Which code is returned, and how much is written. -/
theorem jsonWrite_fill (opts : JsonWriteOpts) {h : Heap D} (hrep : h.RepOk) {v : JsonPtr}
    (hv : v < h.next) (hw : h.Writable jsonMaxDepth v)
    (hmax : c ≤ ptrdiffMax ∨ (h.rendering opts v).length ≤ sizeMax) (buf : ℕ → UInt8)
    {sortMem : ℕ → Bool} (hmem : ∀ k, sortMem k = true) :
    ∃ r, jsonWrite h v buf c opts sortMem = .ok r ∧
      match fill c ((h.unfold opts.sortKeys jsonMaxDepth v).layout opts) (some ⟨0, false⟩) with
      | some g => r.status = .ok ∧ r.written = g.used
      | none => r.status = .bufferTooSmall := by
  obtain ⟨o, hstands, hfill⟩ : ∃ o, JsonWriter.Stands ⟨buf, c, 0, false, .ok, sortMem⟩ c o ∧
      fill c ((h.unfold opts.sortKeys jsonMaxDepth v).layout opts) o
        = fill c ((h.unfold opts.sortKeys jsonMaxDepth v).layout opts) (some ⟨0, false⟩) := by
    rcases Nat.eq_zero_or_pos c with rfl | hpos
    · exact ⟨none, ⟨rfl, rfl, hmem, .inl rfl, le_rfl, Nat.zero_le _⟩,
        by rw [fill_layout_zero, fill_none]⟩
    · exact ⟨some ⟨0, false⟩, ⟨rfl, rfl, hmem, .inl rfl, Nat.zero_le c, rfl, hpos, by simp⟩, rfl⟩
  have hspare : JsonWriter.Spare ⟨buf, c, 0, false, .ok, sortMem⟩ c
      (bytesOf ((h.unfold opts.sortKeys jsonMaxDepth v).layout opts)).length := by
    simpa [Spare, Heap.rendering, Json.render] using hmax
  obtain ⟨e, w, hbody, -, hreport⟩ := presses_body opts hrep hv hw o _ hstands hspare
  rw [jsonWrite, writeAll_eq, bind_ok hbody, ← hfill]
  rcases hreport with ⟨rfl, ho, hend⟩ | ⟨rfl, hnone⟩
  · obtain ⟨g, hg⟩ := Option.ne_none_iff_exists'.mp ho
    rw [hg] at hend ⊢
    obtain ⟨hused, hlt, -⟩ := hend.place
    rw [writeEnd, if_pos ⟨rfl, hend.mode⟩, terminate, if_pos (hend.cap.symm ▸ hlt)]
    exact ⟨_, rfl, rfl, hused⟩
  · rw [hnone, writeEnd, if_neg fun h => JsonError.noConfusion h.1]
    exact ⟨_, rfl, rfl⟩

section Compact

variable {opts : JsonWriteOpts} (hflat : opts.pretty = false ∨ opts.indent = 0)
include hflat

theorem padFree_newLine (depth : ℕ) : PadFree (newLine opts depth) := by
  unfold newLine
  split
  · have hzero : opts.indent = 0 := hflat.resolve_left (by simp [*])
    intro n hn
    have hpad : n = depth * opts.indent.toNat := by simpa using hn
    rw [hpad, hzero]
    rfl
  · simp [PadFree]

theorem padFree_close (depth len : ℕ) (bracket : UInt8) :
    PadFree (closePieces opts depth len bracket) := by
  unfold closePieces
  refine padFree_append.mpr ⟨?_, by simp [PadFree]⟩
  split
  · exact padFree_newLine hflat depth
  · simp [PadFree]

theorem padFree_pieces (j : Json D) : ∀ depth : ℕ, PadFree (j.pieces opts depth) := by
  have hcomma : ∀ last : Bool, PadFree (commaPieces last) := by
    rintro (_ | _) <;> simp [commaPieces, PadFree]
  induction j using Json.tree_induction with
  | arr items ih =>
    intro depth
    refine padFree_text_cons.mpr (padFree_append.mpr ⟨?_, padFree_close hflat _ _ _⟩)
    induction items with
    | nil => simp [PadFree, Json.piecesArr]
    | cons j items ih' =>
      obtain ⟨hj, hitems⟩ := List.forall_mem_cons.mp ih
      rw [Json.piecesArr]
      simp only [padFree_append]
      exact ⟨⟨⟨padFree_newLine hflat _, hj _⟩, hcomma _⟩, ih' hitems⟩
  | obj pairs ih =>
    intro depth
    refine padFree_text_cons.mpr (padFree_append.mpr ⟨?_, padFree_close hflat _ _ _⟩)
    induction pairs with
    | nil => simp [PadFree, Json.piecesObj]
    | cons kv pairs ih' =>
      obtain ⟨hj, hpairs⟩ := List.forall_mem_cons.mp ih
      rw [Json.piecesObj]
      simp only [padFree_append, padFree_text_cons]
      exact ⟨⟨⟨padFree_newLine hflat _, hj _⟩, hcomma _⟩, ih' hpairs⟩
  | _ => simp [PadFree, Json.pieces]

/-- Output in one line, or without indentation, is never squeezed. -/
theorem not_squeezed (j : Json D) (c : ℕ) : ¬ Squeezed c (j.layout opts) := by
  rintro ⟨used, h⟩
  rcases Nat.eq_zero_or_pos c with rfl | hpos
  · rw [fill_layout_zero] at h
    cases h
  · have hpad : PadFree (j.layout opts) :=
      padFree_append.mpr ⟨padFree_pieces hflat j 0, by split <;> simp [PadFree]⟩
    exact Bool.noConfusion (hpad.marked hpos h)

/-- What succeeds in a buffer is the whole text, if there is no indentation to leave out. -/
theorem jsonWrite_fits {h : Heap D} (hrep : h.RepOk) {v : JsonPtr} (hv : v < h.next) {c : ℕ}
    (hc : c ≤ ptrdiffMax) (buf : ℕ → UInt8) {sortMem : ℕ → Bool} (hmem : ∀ k, sortMem k = true)
    {r : Written} (hr : jsonWrite h v buf c opts sortMem = .ok r) (hok : r.status = .ok) :
    r.Holds buf (h.rendering opts v) := by
  have hw := jsonWrite_ok hr hok
  obtain ⟨r', hr', hfill⟩ := jsonWrite_fill opts hrep hv hw (.inl hc) buf hmem
  obtain rfl : r = r' := Except.ok.inj (hr.symm.trans hr')
  cases hout : fill c ((h.unfold opts.sortKeys jsonMaxDepth v).layout opts) (some ⟨0, false⟩) with
  | none =>
    rw [hout] at hfill
    exact JsonError.noConfusion (hok.symm.trans hfill)
  | some g =>
    have hpos : 0 < c := by
      rcases Nat.eq_zero_or_pos c with rfl | hpos
      · rw [fill_layout_zero] at hout
        cases hout
      · exact hpos
    have hpass : (⟨0, false⟩ : Gauge).Passes c g (h.rendering opts v).length :=
      fill_eq_some hpos hout
    have hclear : g.marked = false := by
      cases hg : g.marked with
      | false => rfl
      | true =>
        refine absurd ⟨g.used, ?_⟩ (not_squeezed hflat (h.unfold opts.sortKeys jsonMaxDepth v) c)
        rw [hout, ← hg]
    have hused : g.used = 0 + (h.rendering opts v).length := (hpass.clear hclear).2
    have hlt := hpass.lt
    obtain ⟨r', hr', hholds⟩ := jsonWrite_of_writable opts hrep hv hw (c := c) (by omega)
      (hc.trans (by decide)) buf hmem
    obtain rfl : r = r' := Except.ok.inj (hr.symm.trans hr')
    exact hholds

end Compact

/-- **No silent truncation**, unless the output is squeezed.  Nothing is stored behind the
buffer; what succeeds in a longer buffer than the text holds the text; and a success in this
buffer holds the text, with `JSON_ERR_BUFFER_TOO_SMALL` in a buffer that is not longer than what
`json_measure` reports, exactly if no indentation is left out of an output that passes. -/
theorem jsonWrite_complete {h : Heap D} (hh : ApiHeap h) {v : JsonPtr} (hv : v < h.next)
    (opts : JsonWriteOpts) {c : ℕ} (hc : c ≤ sizeMax)
    (hmax : c ≤ ptrdiffMax ∨ (h.rendering opts v).length ≤ sizeMax) (buf : ℕ → UInt8)
    {sortMem : ℕ → Bool} (hmem : ∀ k, sortMem k = true) :
    ∃ r, jsonWrite h v buf c opts sortMem = .ok r ∧ (∀ i, c ≤ i → r.buf i = buf i) ∧
      (∀ (c' : ℕ) (buf' : ℕ → UInt8) (r' : Written), (h.rendering opts v).length < c' →
        c' ≤ sizeMax → jsonWrite h v buf' c' opts sortMem = .ok r' → r'.status = .ok →
        r'.Holds buf' (h.rendering opts v)) ∧
      (((r.status = .ok → r.Holds buf (h.rendering opts v)) ∧
          ∀ n, jsonMeasure h v opts = .ok (.ok, n) → c ≤ n → r.status = .bufferTooSmall) ↔
        ¬ (h.Writable jsonMaxDepth v ∧
          Squeezed c ((h.unfold opts.sortKeys jsonMaxDepth v).layout opts))) := by
  have hrep := hh.repOk
  have hlarge : ∀ (c' : ℕ) (buf' : ℕ → UInt8) (r' : Written), (h.rendering opts v).length < c' →
      c' ≤ sizeMax → jsonWrite h v buf' c' opts sortMem = .ok r' → r'.status = .ok →
      r'.Holds buf' (h.rendering opts v) := by
    intro c' buf' r' hfit hc' hr' hstatus
    obtain ⟨r, hr, hholds⟩ := jsonWrite_of_writable opts hrep hv (jsonWrite_ok hr' hstatus) hfit
      hc' buf' hmem
    obtain rfl : r = r' := Except.ok.inj (hr.symm.trans hr')
    exact hholds
  obtain ⟨r, hr, -, hbehind⟩ := jsonWrite_safe hrep hv buf c opts sortMem
  refine ⟨r, hr, hbehind, hlarge, ?_⟩
  by_cases hw : h.Writable jsonMaxDepth v
  swap
  -- what cannot be written is neither written nor measured
  · exact iff_of_true ⟨fun hok => absurd (jsonWrite_ok hr hok) hw,
      fun n hn => absurd (jsonMeasure_ok hn) hw⟩ fun hs => hw hs.1
  obtain ⟨r', hr', hfill⟩ := jsonWrite_fill opts hrep hv hw hmax buf hmem
  obtain rfl : r = r' := Except.ok.inj (hr.symm.trans hr')
  cases hout : fill c ((h.unfold opts.sortKeys jsonMaxDepth v).layout opts) (some ⟨0, false⟩) with
  | none =>
    rw [hout] at hfill
    refine iff_of_true ⟨fun hok => ?_, fun _ _ _ => hfill⟩ ?_
    · exact JsonError.noConfusion (hok.symm.trans hfill)
    · rintro ⟨-, used, hsq⟩
      cases hout.symm.trans hsq
  | some g =>
    rw [hout] at hfill
    obtain ⟨hstatus, hwritten⟩ := hfill
    have hpos : 0 < c := by
      rcases Nat.eq_zero_or_pos c with rfl | hpos
      · rw [fill_layout_zero] at hout
        cases hout
      · exact hpos
    have hpass : (⟨0, false⟩ : Gauge).Passes c g (h.rendering opts v).length :=
      fill_eq_some hpos hout
    cases hg : g.marked with
    | false =>
      -- everything has passed, so that there was room for it
      have hused : g.used = 0 + (h.rendering opts v).length := (hpass.clear hg).2
      have hlt := hpass.lt
      have hfit : (h.rendering opts v).length < c := by omega
      refine iff_of_true ⟨fun _ => hlarge c buf r hfit hc hr hstatus, fun n hn hle => ?_⟩ ?_
      · rw [jsonMeasure_of_writable hrep hv hw (by omega)] at hn
        simp only [Except.ok.injEq, Prod.mk.injEq, true_and] at hn
        omega
      · rintro ⟨-, used, hsq⟩
        cases hout.symm.trans hsq
        cases hg
    | true =>
      refine iff_of_false (fun hno => ?_) (not_not.mpr ⟨hw, g.used, ?_⟩)
      · have hshort : g.used < 0 + (h.rendering opts v).length := hpass.short hg rfl
        have hfull := (hno.1 hstatus).written
        omega
      · rw [hout, ← hg]

/-- The array `[1]` with four spaces of indentation has nine bytes; a buffer of six takes five
of them. -/
theorem jsonWrite_truncated :
    ∃ (_ : CDouble Unit) (h : Heap Unit) (v : JsonPtr) (opts : JsonWriteOpts) (r : Written),
      ApiHeap h ∧ v < h.next ∧ jsonMeasure h v opts = .ok (.ok, 9) ∧
      jsonWrite h v (fun _ => 0) 6 opts (fun _ => true) = .ok r ∧ r.status = .ok ∧
      r.written = 5 := by
  obtain ⟨A, hA⟩ := Arena.exists_fresh
  let _ : CDouble Unit := .unit
  have href : refParse [0x5B, 0x31, 0x5D] 0 = .ok ((.arr [.int 1] : Json Unit), 2) := by rfl
  obtain ⟨v, s, -, hapi, hv, -, hden, -⟩ := ApiHeap.empty.exists_parsed (by decide) href hA
  have hrender : s.heap.rendering ⟨true, 4, false, false, false⟩ v
      = (.arr [.int 1] : Json Unit).render ⟨true, 4, false, false, false⟩ :=
    hden.denotes.rendering (by decide) rfl
  have hlen : (s.heap.rendering ⟨true, 4, false, false, false⟩ v).length = 9 := by
    rw [hrender]
    rfl
  have hw : s.heap.Writable jsonMaxDepth v := hden.denotes.ends (by decide) ⟨trivial, trivial⟩
  have hmeasure : jsonMeasure s.heap v ⟨true, 4, false, false, false⟩ = .ok (.ok, 9) := by
    rw [jsonMeasure_of_writable hapi.repOk hv hw (by rw [hlen]; decide), hlen]
  obtain ⟨r, hr, hfill⟩ := jsonWrite_fill (c := 6) ⟨true, 4, false, false, false⟩ hapi.repOk hv hw
    (.inl (by decide)) (fun _ => 0) (fun _ => rfl)
  rw [hden.denotes.unfold (by decide)] at hfill
  exact ⟨_, s.heap, v, _, r, hapi, hv, hmeasure, hr, hfill.1, hfill.2⟩

/-- In a line of its own, `[1]` is not squeezed into two bytes. -/
theorem jsonWrite_complete_two :
    ∃ (_ : CDouble Unit) (h : Heap Unit) (v : JsonPtr) (r : Written), ApiHeap h ∧
      jsonMeasure h v kDefaultOpts = .ok (.ok, 3) ∧
      jsonWrite h v (fun _ => 0) 2 kDefaultOpts (fun _ => true) = .ok r ∧
      r.status = .bufferTooSmall := by
  obtain ⟨A, hA⟩ := Arena.exists_fresh
  let _ : CDouble Unit := .unit
  have href : refParse [0x5B, 0x31, 0x5D] 0 = .ok ((.arr [.int 1] : Json Unit), 2) := by rfl
  obtain ⟨v, s, -, hapi, hv, -, hden, -⟩ := ApiHeap.empty.exists_parsed (by decide) href hA
  have hlen : (s.heap.rendering kDefaultOpts v).length = 3 := by
    rw [hden.denotes.rendering (by decide) rfl]
    rfl
  have hw : s.heap.Writable jsonMaxDepth v := hden.denotes.ends (by decide) ⟨trivial, trivial⟩
  have hmeasure : jsonMeasure s.heap v kDefaultOpts = .ok (.ok, 3) := by
    rw [jsonMeasure_of_writable hapi.repOk hv hw (by rw [hlen]; decide), hlen]
  obtain ⟨r, hr, -, -, hiff⟩ := jsonWrite_complete hapi hv kDefaultOpts (c := 2) (by decide)
    (.inl (by decide)) (fun _ => 0) (fun _ => rfl)
  have hstatus := (hiff.mpr fun hs => not_squeezed (.inl rfl) _ 2 hs.2).2 3 hmeasure (by decide)
  exact ⟨_, s.heap, v, r, hapi, hmeasure, hr, hstatus⟩

end SJson
