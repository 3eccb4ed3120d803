/-
# The writer stays in its buffer

Whatever room there is, no function of the writer reaches a fault, stores anything behind the
end of the buffer, or reports `JSON_ERR_INVALID_UTF8` on values in order (`jsonWrite_safe`).
It reports `JSON_ERR_DEPTH_EXCEEDED` only on values of too many levels (`jsonWrite_codes`).
-/
import SJson.WriterSpec

namespace SJson

open ErrState

/-! ## Steps -/

/-- The codes that the functions of the writer return on values in order; only if the value is
too deep, `JSON_ERR_DEPTH_EXCEEDED` is one of them. -/
def WriteCode (deep : Prop) : JsonError → Prop
  | .ok | .bufferTooSmall | .overflow | .invalidNumber | .oom => True
  | .depthExceeded => deep
  | _ => False

theorem WriteCode.ne_invalidUtf8 {deep : Prop} {e : JsonError} (h : WriteCode deep e) :
    e ≠ .invalidUtf8 := by
  rintro rfl
  exact h

variable {deep : Prop}

/-- What the functions of the writer leave as it is. -/
structure JsonWriter.Leads (deep : Prop) (w w' : JsonWriter) : Prop where
  cap : w'.cap = w.cap
  mode : w'.measureOnly = w.measureOnly
  behind : ∀ i, w.cap ≤ i → w'.buf i = w.buf i
  err : WriteCode deep w'.err

/-- The function comes to an end, within the buffer, with a result in `Q`. -/
def Safe (deep : Prop) {α : Type} (x : WM α) (Q : α → Prop) : Prop :=
  ∀ w : JsonWriter, WriteCode deep w.err → ∃ a w', x w = .ok a w' ∧ w.Leads deep w' ∧ Q a

theorem JsonWriter.Leads.refl {w : JsonWriter} (h : WriteCode deep w.err) : w.Leads deep w :=
  ⟨rfl, rfl, fun _ _ => rfl, h⟩

theorem JsonWriter.Leads.trans {w w' w'' : JsonWriter} (h : w.Leads deep w')
    (h' : w'.Leads deep w'') : w.Leads deep w'' where
  cap := h'.cap.trans h.cap
  mode := h'.mode.trans h.mode
  behind i hi := (h'.behind i (h.cap.symm ▸ hi)).trans (h.behind i hi)
  err := h'.err

theorem safe_pure {α : Type} {a : α} {Q : α → Prop} (h : Q a) : Safe deep (pure a) Q := fun w hw =>
  ⟨a, w, rfl, .refl hw, h⟩

theorem Safe.bind {α β : Type} {x : WM α} {k : α → WM β} {Q : α → Prop} {R : β → Prop}
    (hx : Safe deep x Q) (hk : ∀ a, Q a → Safe deep (k a) R) : Safe deep (x >>= k) R := by
  intro w hw
  obtain ⟨a, w₁, hok, hleads, ha⟩ := hx w hw
  obtain ⟨b, w₂, hok', hleads', hb⟩ := hk a ha w₁ hleads.err
  exact ⟨b, w₂, (bind_ok hok).trans hok', hleads.trans hleads', hb⟩

theorem safe_ite {α : Type} {c : Prop} [Decidable c] {x y : WM α} {Q : α → Prop}
    (hx : Safe deep x Q) (hy : Safe deep y Q) : Safe deep (if c then x else y) Q := by
  split
  · exact hx
  · exact hy

/-- A checked step. -/
theorem Safe.check {x k : WM JsonError} (hx : Safe deep x (WriteCode deep))
    (hk : Safe deep k (WriteCode deep)) :
    Safe deep (x >>= fun err => if err ≠ .ok then pure err else k) (WriteCode deep) :=
  hx.bind fun _ he => safe_ite (safe_pure he) hk

/-- A checked step of a function that reports `JSON_ERR_BUFFER_TOO_SMALL`. -/
theorem Safe.guard {x k : WM JsonError} (hx : Safe deep x (WriteCode deep))
    (hk : Safe deep k (WriteCode deep)) :
    Safe deep (x >>= fun err => if err ≠ .ok then pure .bufferTooSmall else k) (WriteCode deep) :=
  hx.bind fun _ _ => safe_ite (safe_pure trivial) hk

/-! ## Emitting -/

theorem safe_setErr {e : JsonError} (he : WriteCode deep e) {w : JsonWriter} :
    ∃ a w', setErr e w = .ok a w' ∧ w.Leads deep w' ∧ WriteCode deep a :=
  ⟨e, { w with err := e }, rfl, ⟨rfl, rfl, fun _ _ => rfl, he⟩, he⟩

theorem safe_getErr : Safe deep getErr (WriteCode deep) := fun w hw => ⟨w.err, w, rfl, .refl hw, hw⟩

/-- Counting is safe. -/
theorem safe_count {w : JsonWriter} (hw : WriteCode deep w.err) (n : ℕ) :
    ∃ a w', (.ok .ok { w with used := n } : EStateM.Result Fault JsonWriter JsonError) = .ok a w' ∧
      w.Leads deep w' ∧ WriteCode deep a :=
  ⟨.ok, { w with used := n }, rfl, ⟨rfl, rfl, fun _ _ => rfl, hw⟩, trivial⟩

theorem safe_put (c : UInt8) : Safe deep (jwPut c) (WriteCode deep) := by
  intro w hw
  unfold jwPut
  split
  · exact safe_setErr (by trivial)
  split
  · exact safe_count hw _
  split
  · exact safe_setErr (by trivial)
  · rename_i hroom
    have hlt : w.used < w.cap := by omega
    have hstore : storeByte c w = .ok ()
        { w with buf := Function.update w.buf w.used c, used := w.used + 1 } := if_pos hlt
    rw [bind_ok hstore]
    refine ⟨.ok, _, rfl, ⟨rfl, rfl, fun i hi => ?_, hw⟩, trivial⟩
    exact Function.update_of_ne (by omega) ..

theorem safe_putLoop : ∀ s : List UInt8, Safe deep (putLoop s) (WriteCode deep) := by
  intro s
  induction s with
  | nil => exact safe_pure trivial
  | cons c s ih =>
    rw [putLoop]
    exact (safe_put c).guard ih

theorem safe_puts (s : List UInt8) : Safe deep (jwPuts s) (WriteCode deep) := by
  intro w hw
  unfold jwPuts
  split
  · exact safe_setErr (by trivial)
  split
  · exact safe_count hw _
  · exact safe_putLoop s w hw

theorem safe_indent (depth : ℕ) (indent : UInt32) :
    Safe deep (jwIndent depth indent) (WriteCode deep) := by
  intro w hw
  unfold jwIndent
  dsimp only
  split
  · exact safe_setErr (by trivial)
  split
  · exact safe_count hw _
  split
  · exact safe_setErr (by trivial)
  · rename_i hroom
    have hle : w.used + depth * indent.toNat % 2 ^ 64 ≤ w.cap := by omega
    generalize depth * indent.toNat % 2 ^ 64 = count at hle
    have hfill : fillSpaces count w = .ok () { w with
        buf := fun i => if w.used ≤ i ∧ i < w.used + count then 0x20 else w.buf i
        used := w.used + count } := if_pos hle
    rw [bind_ok hfill]
    refine ⟨.ok, _, rfl, ⟨rfl, rfl, fun i hi => if_neg ?_, hw⟩, trivial⟩
    omega

theorem safe_int64 (i : Int64) : Safe deep (jwInt64 i) (WriteCode deep) := by
  have hdigits : Safe deep (if int64Abs i = 0 then jwPut 0x30
      else digitLoop sizeofIntBuf (int64Abs i) [] >>= putLoop) (WriteCode deep) := by
    refine safe_ite (safe_put _) fun w hw => ?_
    rw [bind_ok (digitLoop_eq w [] (int64Abs_lt i))]
    exact safe_putLoop _ w hw
  unfold jwInt64
  by_cases hneg : i.toInt < 0
  · rw [if_pos hneg]
    exact (safe_put 0x2D).guard hdigits
  · rw [if_neg hneg]
    exact hdigits

theorem safe_double {D : Type} [CDouble D] (f : D) : Safe deep (jwDouble f) (WriteCode deep) := by
  unfold jwDouble
  split
  · exact safe_puts _
  · rcases floatText_error ‹_› with rfl | rfl <;> exact safe_pure trivial

/-! ## Strings -/

theorem safe_ascii (c : UInt8) : Safe deep (jwAscii c) (WriteCode deep) :=
  safe_ite (safe_puts _) (safe_put c)

theorem safe_multibyte (asciiOnly : Bool) (cp : ℕ) (s : List UInt8) :
    Safe deep (jwMultibyte asciiOnly cp s) (WriteCode deep) :=
  safe_ite (safe_puts _) (safe_ite (safe_puts _)
    ((safe_puts _).bind fun _ he => safe_ite (safe_puts _) (safe_pure he)))

theorem safe_charsLoop (asciiOnly : Bool) : ∀ cps : List ℕ,
    Safe deep (charsLoop asciiOnly cps) (WriteCode deep) := by
  intro cps
  induction cps with
  | nil => exact safe_getErr
  | cons cp cps ih =>
    rw [charsLoop]
    exact safe_ite ((safe_ascii _).bind fun _ _ => ih) ((safe_multibyte _ _ _).check ih)

/-- Strings in order are decoded to the end. -/
theorem safe_stringContent (asciiOnly : Bool) {s : List UInt8} (hs : IsUtf8 s) :
    Safe deep (jwStringContent asciiOnly s) (WriteCode deep) := by
  obtain ⟨cps, hall, rfl⟩ := hs
  rw [jwStringContent_encode asciiOnly hall]
  exact safe_charsLoop asciiOnly cps

theorem safe_writeString (opts : JsonWriteOpts) {s : List UInt8} (hs : IsUtf8 s) :
    Safe deep (writeString opts s) (WriteCode deep) :=
  (safe_put _).check ((safe_stringContent _ hs).check (safe_put _))

theorem safe_key (opts : JsonWriteOpts) {key : List UInt8} (hkey : IsUtf8 key) :
    Safe deep (writeKey opts key) fun _ => True :=
  (safe_put _).bind fun _ _ => (safe_stringContent _ hkey).bind fun _ _ =>
    (safe_put _).bind fun _ _ => (safe_put _).bind fun _ _ =>
      safe_ite ((safe_put _).bind fun _ _ => safe_pure trivial) (safe_pure trivial)

/-! ## Containers -/

theorem safe_newLine (opts : JsonWriteOpts) (depth : ℕ) :
    Safe deep (jwNewLine opts depth) fun _ => True :=
  safe_ite ((safe_put _).bind fun _ _ => (safe_indent _ _).bind fun _ _ => safe_pure trivial)
    (safe_pure trivial)

theorem safe_close (opts : JsonWriteOpts) (depth len : ℕ) (bracket : UInt8) :
    Safe deep (writeClose opts depth len bracket) (WriteCode deep) := by
  unfold writeClose
  split
  · exact (safe_newLine _ _).bind fun _ _ => safe_put _
  · exact safe_put _

/-- The comma behind an entry. -/
theorem Safe.comma {α : Type} {rest : List α} {k : WM JsonError}
    (hk : Safe deep k (WriteCode deep)) :
    Safe deep (do
      if rest ≠ [] then
        let _ ← jwPut 0x2C
      k) (WriteCode deep) := by
  split
  · exact (safe_put _).bind fun _ _ => hk
  · exact hk

theorem safe_items (opts : JsonWriteOpts) (depth : ℕ) {write : JsonPtr → WM JsonError} :
    ∀ {ps : List JsonPtr}, (∀ p ∈ ps, Safe deep (write p) (WriteCode deep)) →
      Safe deep (writeItems opts depth write ps) (WriteCode deep) := by
  intro ps
  induction ps with
  | nil => exact fun _ => safe_pure trivial
  | cons p ps ih =>
    intro h
    obtain ⟨hp, hps⟩ := List.forall_mem_cons.mp h
    rw [writeItems]
    exact (safe_newLine _ _).bind fun _ _ => hp.check (ih hps).comma

theorem safe_pairs (opts : JsonWriteOpts) (depth : ℕ) {write : JsonPtr → WM JsonError} :
    ∀ {pairs : List JsonPair}, (∀ pr ∈ pairs, IsUtf8 pr.key.data ∧
      Safe deep (write pr.val) (WriteCode deep)) →
      Safe deep (writePairs opts depth write pairs) (WriteCode deep) := by
  intro pairs
  induction pairs with
  | nil => exact fun _ => safe_pure trivial
  | cons pr pairs ih =>
    intro h
    obtain ⟨⟨hkey, hval⟩, hpairs⟩ := List.forall_mem_cons.mp h
    rw [writePairs]
    exact (safe_newLine _ _).bind fun _ _ => (safe_key _ hkey).bind fun _ _ =>
      hval.check (ih hpairs).comma

theorem safe_order (opts : JsonWriteOpts) (pairs : List JsonPair) :
    Safe deep (orderPairs opts pairs) fun ordered => ∀ pairs', ordered = some pairs' →
      pairs'.Perm pairs := by
  intro w hw
  rcases orderPairs_cases opts pairs w with ⟨-, heq⟩ | ⟨-, heq⟩
  · refine ⟨_, _, heq, ⟨rfl, rfl, fun _ _ => rfl, hw⟩, fun pairs' h => ?_⟩
    cases hmem : w.sortMem 0 with
    | false => rw [hmem] at h; cases h
    | true =>
      rw [hmem] at h
      obtain rfl := Option.some.inj h
      exact (sortedPairs_spec pairs).2.1
  · refine ⟨_, w, heq, .refl hw, fun pairs' h => ?_⟩
    obtain rfl := Option.some.inj h
    exact .refl _

/-! ## Values -/

variable {D : Type} [CDouble D]

/-- The levels that the writer follows are all it asks of the depth. -/
theorem safe_writeValue {h : Heap D} (hrep : h.RepOk) (opts : JsonWriteOpts) :
    ∀ {room : ℕ} {p : JsonPtr}, p < h.next → (¬ h.Ends (fun _ => True) room p → deep) →
      Safe deep (jsonWriteValue h opts room p) (WriteCode deep) := by
  intro room
  induction room with
  | zero => exact fun _ hdeep => safe_pure (hdeep id)
  | succ room ih =>
    intro p hp hdeep
    have hok := hrep p hp
    rw [jsonWriteValue]
    unfold Heap.Ends at hdeep
    cases hnode : h.node p with
    | null => exact safe_puts _
    | bool b => exact safe_ite (safe_puts _) (safe_puts _)
    | integer i => exact safe_int64 i
    | float f => exact safe_double f
    | string s =>
      rw [hnode] at hok
      exact safe_writeString opts hok.utf8
    | array a =>
      rw [hnode] at hok hdeep
      exact (safe_put _).check ((safe_items opts _ fun q hq =>
        ih (hok.2 q hq) fun hno => hdeep fun hall => hno (hall q hq)).check (safe_close _ _ _ _))
    | object o =>
      rw [hnode] at hok hdeep
      refine (safe_order opts o.pairs).bind fun ordered hordered => ?_
      cases ordered with
      | none => exact safe_pure trivial
      | some pairs =>
        have hperm := hordered pairs rfl
        refine (safe_put _).check ((safe_pairs opts _ fun pr hpr => ?_).check (safe_close _ _ _ _))
        have hpr' := hperm.mem_iff.mp hpr
        have hmem := hok.2.1 pr hpr'
        exact ⟨hmem.1.utf8, ih hmem.2 fun hno => hdeep fun hall => hno (hall pr hpr')⟩

theorem safe_writeAll {h : Heap D} (hrep : h.RepOk) (opts : JsonWriteOpts) {v : JsonPtr}
    (hv : v < h.next) (hdeep : ¬ h.Ends (fun _ => True) jsonMaxDepth v → deep) :
    Safe deep (writeAll h opts v) (WriteCode deep) := by
  rw [writeAll_eq]
  have hbody : Safe deep (writeBody h opts v) (WriteCode deep) :=
    (safe_writeValue hrep opts hv hdeep).bind fun _ he => safe_ite (safe_put _) (safe_pure he)
  refine hbody.bind fun err herr w hw => ?_
  unfold writeEnd terminate
  split
  · split
    · rename_i hlt
      refine ⟨.ok, _, rfl, ⟨rfl, rfl, fun i hi => ?_, hw⟩, trivial⟩
      exact Function.update_of_ne (by omega) ..
    · exact ⟨_, w, rfl, .refl hw, trivial⟩
  · exact ⟨err, w, rfl, .refl hw, herr⟩

/-- **What writing returns**: it comes to an end, with a code that says it is too deep only for
a value that is, and what lies behind the buffer is as before. -/
theorem jsonWrite_codes {h : Heap D} (hrep : h.RepOk) {v : JsonPtr} (hv : v < h.next)
    (buf : ℕ → UInt8) (c : ℕ) (opts : JsonWriteOpts) (sortMem : ℕ → Bool) :
    ∃ r, jsonWrite h v buf c opts sortMem = .ok r ∧
      WriteCode (¬ h.Ends (fun _ => True) jsonMaxDepth v) r.status ∧
      ∀ i, c ≤ i → r.buf i = buf i := by
  obtain ⟨e, w, hok, hleads, he⟩ :=
    safe_writeAll hrep opts hv id ⟨buf, c, 0, false, .ok, sortMem⟩ trivial
  exact ⟨⟨e, w.used, w.buf⟩, congrArg outcome hok, he, hleads.behind⟩

/-- **Writing stays in the buffer**: it comes to an end, with a code other than
`JSON_ERR_INVALID_UTF8`, and what lies behind the buffer is as before. -/
theorem jsonWrite_safe {h : Heap D} (hrep : h.RepOk) {v : JsonPtr} (hv : v < h.next)
    (buf : ℕ → UInt8) (c : ℕ) (opts : JsonWriteOpts) (sortMem : ℕ → Bool) :
    ∃ r, jsonWrite h v buf c opts sortMem = .ok r ∧ r.status ≠ .invalidUtf8 ∧
      ∀ i, c ≤ i → r.buf i = buf i := by
  obtain ⟨r, hok, hcode, hbehind⟩ := jsonWrite_codes hrep hv buf c opts sortMem
  exact ⟨r, hok, hcode.ne_invalidUtf8, hbehind⟩

/-- What measuring returns. -/
theorem jsonMeasure_codes {h : Heap D} (hrep : h.RepOk) {v : JsonPtr} (hv : v < h.next)
    (opts : JsonWriteOpts) : ∃ e n, jsonMeasure h v opts = .ok (e, n) ∧
      WriteCode (¬ h.Ends (fun _ => True) jsonMaxDepth v) e := by
  obtain ⟨e, w, hok, -, he⟩ :=
    safe_writeAll hrep opts hv id ⟨fun _ => 0, 0, 0, true, .ok, fun _ => false⟩ trivial
  refine ⟨e, w.used, ?_, he⟩
  rw [jsonMeasure, hok]
  rfl

theorem jsonMeasure_safe {h : Heap D} (hrep : h.RepOk) {v : JsonPtr} (hv : v < h.next)
    (opts : JsonWriteOpts) :
    ∃ e n, jsonMeasure h v opts = .ok (e, n) ∧ e ≠ .invalidUtf8 := by
  obtain ⟨e, n, hok, hcode⟩ := jsonMeasure_codes hrep hv opts
  exact ⟨e, n, hok, hcode.ne_invalidUtf8⟩

end SJson
