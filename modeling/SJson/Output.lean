/-
# Measuring, writing and sorting

What `json_measure`, `json_write` and `json_write_arena` have to do with each other, for any
value the library has handed out.  Such a value is in order (`apiHeap_represents`), and the
measured size is exactly sufficient (`jsonMeasure_suffices`).  Without `sort_keys` the temporary
arena does not matter (`jsonWrite_sortMem`), and what is in the buffer never does
(`jsonWrite_same`).
-/
import SJson.WriterSafety
import SJson.Unfold
import SJson.Api

namespace SJson

open ErrState Overlay

variable {D : Type} [CDouble D]

/-! ## Values in order -/

/-- **Every value in order.**  Whatever calls have been made: a string or key is well-formed
UTF-8 within the limit and carries its hash; a container stays within its storage and the
limit, and all its entries are values; a sorted object has an index of its pairs that is
ascending for `json__key_cmp`.  So the writer never meets a string it cannot decode. -/
theorem apiHeap_represents {h : Heap D} (hh : ApiHeap h) {v : JsonPtr} (hv : v < h.next) :
    (∀ s, h.node v = .string s → s.Ok) ∧
    (∀ a, h.node v = .array a → a.items.length ≤ a.cap ∧ a.cap ≤ jsonMaxArrayLen ∧
      ∀ p ∈ a.items, p < h.next) ∧
    (∀ o, h.node v = .object o → o.pairs.length ≤ o.cap ∧ o.cap ≤ jsonMaxArrayLen ∧
      (∀ pr ∈ o.pairs, pr.key.Ok ∧ pr.val < h.next) ∧
      (o.isSorted = true → ∃ idx, o.sortedIdx = some idx ∧
        idx.Perm (List.range o.pairs.length) ∧
        idx.Pairwise fun a b => ∃ cmp, jsonKeyCmp ⟨o.pairs, false⟩ a b = .ok cmp ∧ cmp ≤ 0)) ∧
    ∀ (buf : ℕ → UInt8) (c : ℕ) (opts : JsonWriteOpts) (sortMem : ℕ → Bool),
      ∃ r, jsonWrite h v buf c opts sortMem = .ok r ∧ r.status ≠ .invalidUtf8 := by
  have hok := hh.repOk v hv
  refine ⟨fun s hs => ?_, fun a ha => ?_, fun o ho => ?_, fun buf c opts sortMem => ?_⟩
  · rwa [hs] at hok
  · rw [ha] at hok
    exact ⟨hok.1.1, hok.1.2, hok.2⟩
  · rw [ho] at hok
    refine ⟨hok.1.1, hok.1.2, hok.2.1, fun hsorted => ?_⟩
    obtain ⟨idx, hidx, hperm, hpair⟩ := hok.2.2 hsorted
    refine ⟨idx, hidx, hperm, hpair.imp_of_mem fun {a b} ha hb hle => ?_⟩
    have hvalid : ∀ i ∈ idx, JsonSortCtx.Valid ⟨o.pairs, false⟩ i := fun i hi =>
      List.mem_range.mp (hperm.mem_iff.mp hi)
    obtain ⟨cmp, hcmp, hiff, -⟩ := jsonKeyCmp_spec (hvalid a ha) (hvalid b hb)
    exact ⟨cmp, hcmp, hiff.mpr hle⟩
  · obtain ⟨r, hr, hstatus, -⟩ := jsonWrite_safe hh.repOk hv buf c opts sortMem
    exact ⟨r, hr, hstatus⟩

/-- The value of the text `{"a":true}`: its pair fits into its storage. -/
theorem apiHeap_represents_pair :
    ∃ (_ : CDouble Unit) (h : Heap Unit) (v : JsonPtr) (o : JsonObj), ApiHeap h ∧ v < h.next ∧
      h.node v = .object o ∧ o.pairs.length = 1 ∧ 1 ≤ o.cap := by
  obtain ⟨A, hA⟩ := Arena.exists_fresh
  let _ : CDouble Unit := .unit
  have href : refParse [0x7B, 0x22, 0x61, 0x22, 0x3A, 0x74, 0x72, 0x75, 0x65, 0x7D] 0
      = .ok ((.obj [([0x61], .bool true)] : Json Unit), 2) := by rfl
  obtain ⟨v, s, -, hapi, hv, -, hden, -⟩ := ApiHeap.empty.exists_parsed (by decide) href hA
  obtain ⟨-, o, ho, hpairs⟩ := denotesIn_obj.mp hden
  have hlen : o.pairs.length = 1 := hpairs.length_eq.symm
  refine ⟨_, s.heap, v, o, hapi, hv, ho, hlen, ?_⟩
  rw [← hlen]
  exact ((apiHeap_represents hapi hv).2.2.1 o ho).1

/-! ## The measured size -/

/-- **The measured size suffices**, and nothing but the text and its terminator is stored. -/
theorem jsonMeasure_suffices {h : Heap D} (hh : ApiHeap h) {v : JsonPtr} (hv : v < h.next)
    (opts : JsonWriteOpts) {n : ℕ} (hmeasure : jsonMeasure h v opts = .ok (.ok, n))
    (hfit : (h.rendering opts v).length < sizeMax) :
    (h.rendering opts v).length = n ∧
    (∀ (c : ℕ) (buf : ℕ → UInt8) (sortMem : ℕ → Bool), n + 1 ≤ c → c ≤ sizeMax →
      (∀ k, sortMem k = true) →
      ∃ r, jsonWrite h v buf c opts sortMem = .ok r ∧ r.Holds buf (h.rendering opts v)) ∧
    ∀ (A : Arena) (mem : ℕ → UInt8) (sortMem : ℕ → Bool), (A.alloc (n + 1)).1.isSome →
      (∀ k, sortMem k = true) →
      ∃ r A', jsonWriteArena h v A mem opts sortMem = .ok (.ok, some r, A') ∧
        r.Holds mem (h.rendering opts v) := by
  have hrep := hh.repOk
  have hw := jsonMeasure_ok hmeasure
  have hlen : (h.rendering opts v).length = n := by
    rw [jsonMeasure_of_writable hrep hv hw hfit.le] at hmeasure
    simpa using hmeasure
  refine ⟨hlen, fun c buf sortMem hc hmax hmem => ?_, fun A mem sortMem halloc hmem => ?_⟩
  · exact jsonWrite_of_writable opts hrep hv hw (by omega) hmax buf hmem
  · obtain ⟨r, hr, hholds⟩ := jsonWrite_of_writable (c := n + 1) opts hrep hv hw
      (by omega) (by omega) mem hmem
    refine ⟨r, (A.alloc (n + 1)).2, ?_, hholds⟩
    have hne : n ≠ sizeMax := by omega
    unfold jsonWriteArena
    rw [hmeasure]
    simp only [bind, Except.bind, hr]
    rw [if_neg (not_not.mpr rfl), if_neg hne, if_pos halloc, if_neg (not_not.mpr hholds.status)]
    rfl

/-- The text of a tree that is written as it stands. -/
theorem Denotes.rendering {h : Heap D} {j : Json D} {v : JsonPtr} (hv : Denotes h j v)
    (hlevels : j.levels ≤ jsonMaxDepth) {opts : JsonWriteOpts} (hsort : opts.sortKeys = false) :
    h.rendering opts v = j.render opts := by
  rw [Heap.rendering, hsort, hv.unfold hlevels]

/-- The value of the text `[true]`, measured and written into a buffer of seven bytes. -/
theorem jsonMeasure_suffices_true :
    ∃ (_ : CDouble Unit) (h : Heap Unit) (v : JsonPtr), ApiHeap h ∧ v < h.next ∧
      jsonMeasure h v kDefaultOpts = .ok (.ok, 6) ∧
      ∃ r, jsonWrite h v (fun _ => 0) 7 kDefaultOpts (fun _ => true) = .ok r ∧
        r.Holds (fun _ => 0) [0x5B, 0x74, 0x72, 0x75, 0x65, 0x5D] := by
  obtain ⟨A, hA⟩ := Arena.exists_fresh
  let _ : CDouble Unit := .unit
  have href : refParse [0x5B, 0x74, 0x72, 0x75, 0x65, 0x5D] 0
      = .ok ((.arr [.bool true] : Json Unit), 2) := by rfl
  obtain ⟨v, s, -, hapi, hv, -, hden, -⟩ := ApiHeap.empty.exists_parsed (by decide) href hA
  have hrender : s.heap.rendering kDefaultOpts v = [0x5B, 0x74, 0x72, 0x75, 0x65, 0x5D] := by
    rw [hden.denotes.rendering (by decide) rfl]
    rfl
  have hw : s.heap.Writable jsonMaxDepth v := hden.denotes.ends (by decide) ⟨trivial, trivial⟩
  have hmeasure : jsonMeasure s.heap v kDefaultOpts = .ok (.ok, 6) := by
    rw [jsonMeasure_of_writable hapi.repOk hv hw (by rw [hrender]; decide), hrender]
    rfl
  have h := (jsonMeasure_suffices hapi hv kDefaultOpts hmeasure (by rw [hrender]; decide)).2.1 7
    (fun _ => 0) (fun _ => true) (by decide) (by decide) fun _ => rfl
  rw [hrender] at h
  exact ⟨_, s.heap, v, hapi, hv, hmeasure, h⟩

/-! ## What does not matter -/

/-- Writers that have written the same, in buffers that held `buf` and `buf'`; where `sorts` holds
they have the same memory for sorting. -/
structure Alike (sorts : Prop) (buf buf' : ℕ → UInt8) (w w' : JsonWriter) : Prop where
  cap : w'.cap = w.cap
  used : w'.used = w.used
  writes : w.measureOnly = false
  writes' : w'.measureOnly = false
  err : w'.err = w.err
  sortMem : sorts → w'.sortMem = w.sortMem
  front : ∀ i, i < w.used → w'.buf i = w.buf i
  rest : ∀ i, w.used ≤ i → w.buf i = buf i ∧ w'.buf i = buf' i

/-- The same end, on writers that are alike. -/
def AlikeEnds {α : Type} (sorts : Prop) (buf buf' : ℕ → UInt8) :
    EStateM.Result Fault JsonWriter α → EStateM.Result Fault JsonWriter α → Prop
  | .ok a w, .ok a' w' => a' = a ∧ Alike sorts buf buf' w w'
  | .error f _, .error f' _ => f' = f
  | _, _ => False

/-- The function does the same on writers that are alike. -/
def Oblivious {α : Type} (sorts : Prop) (buf buf' : ℕ → UInt8) (x : WM α) : Prop :=
  ∀ w w' : JsonWriter, Alike sorts buf buf' w w' → AlikeEnds sorts buf buf' (x w) (x w')

section Oblivious

variable {sorts : Prop} {buf buf' : ℕ → UInt8}

theorem oblivious_pure {α : Type} (a : α) : Oblivious sorts buf buf' (pure a) :=
  fun _ _ h => ⟨rfl, h⟩

theorem oblivious_throw {α : Type} (f : Fault) : Oblivious sorts buf buf' (throw f : WM α) :=
  fun _ _ _ => rfl

theorem oblivious_setErr (e : JsonError) : Oblivious sorts buf buf' (setErr e) := fun _ _ h =>
  ⟨rfl, h.cap, h.used, h.writes, h.writes', rfl, h.sortMem, h.front, h.rest⟩

theorem oblivious_getErr : Oblivious sorts buf buf' getErr := fun _ _ h => ⟨h.err, h⟩

theorem Oblivious.bind {α β : Type} {x : WM α} {k : α → WM β} (hx : Oblivious sorts buf buf' x)
    (hk : ∀ a, Oblivious sorts buf buf' (k a)) : Oblivious sorts buf buf' (x >>= k) := by
  intro w w' h
  have hends := hx w w' h
  cases hres : x w with
  | ok a v =>
    cases hres' : x w' with
    | ok a' v' =>
      rw [hres, hres'] at hends
      obtain ⟨rfl, hv⟩ := hends
      rw [bind_ok hres, bind_ok hres']
      exact hk a' v v' hv
    | error f v' =>
      rw [hres, hres'] at hends
      exact hends.elim
  | error f v =>
    cases hres' : x w' with
    | ok a' v' =>
      rw [hres, hres'] at hends
      exact hends.elim
    | error f' v' =>
      rw [hres, hres'] at hends
      rw [bind_error hres, bind_error hres']
      exact hends

theorem Oblivious.ite {α : Type} {c : Prop} [Decidable c] {x y : WM α}
    (hx : Oblivious sorts buf buf' x) (hy : Oblivious sorts buf buf' y) :
    Oblivious sorts buf buf' (if c then x else y) := by
  split
  · exact hx
  · exact hy

/-- A choice by what writers that are alike have in common. -/
theorem Oblivious.when {α : Type} {p : JsonWriter → Prop} [DecidablePred p] {x y : WM α}
    (hp : ∀ {w w'}, Alike sorts buf buf' w w' → (p w' ↔ p w))
    (hx : ∀ {w w'}, Alike sorts buf buf' w w' → p w → AlikeEnds sorts buf buf' (x w) (x w'))
    (hy : Oblivious sorts buf buf' y) :
    Oblivious sorts buf buf' fun w => if p w then x w else y w := by
  intro w w' h
  by_cases hw : p w
  · simp only [if_pos hw, if_pos ((hp h).mpr hw)]
    exact hx h hw
  · simp only [if_neg hw, if_neg (mt (hp h).mp hw)]
    exact hy w w' h

/-- Nothing is only measured. -/
theorem Alike.not_measuring {w w' : JsonWriter} (h : Alike sorts buf buf' w w') :
    ¬ w.measureOnly = true := by
  rw [h.writes]
  exact Bool.false_ne_true

/-- Bytes that are stored behind those that are there. -/
theorem Alike.store {w w' : JsonWriter} (h : Alike sorts buf buf' w w') (n : ℕ)
    (text : ℕ → UInt8) : Alike sorts buf buf'
      { w with
        buf := fun i => if w.used ≤ i ∧ i < w.used + n then text i else w.buf i
        used := w.used + n }
      { w' with
        buf := fun i => if w'.used ≤ i ∧ i < w'.used + n then text i else w'.buf i
        used := w'.used + n } := by
  have hused := h.used
  refine ⟨h.cap, congrArg (· + n) hused, h.writes, h.writes', h.err, h.sortMem, ?_, ?_⟩
  · intro i hi
    simp only [hused]
    by_cases hin : w.used ≤ i ∧ i < w.used + n
    · rw [if_pos hin, if_pos hin]
    · rw [if_neg hin, if_neg hin]
      apply h.front
      have : i < w.used + n := hi
      omega
  · intro i hi
    have hle : w.used + n ≤ i := hi
    simp only [hused]
    rw [if_neg (by omega), if_neg (by omega)]
    exact h.rest i (by omega)

theorem storeByte_eq {c : UInt8} {w : JsonWriter} (hroom : w.used < w.cap) :
    storeByte c w = .ok () { w with
      buf := fun i => if w.used ≤ i ∧ i < w.used + 1 then c else w.buf i
      used := w.used + 1 } := by
  rw [storeByte, if_pos hroom]
  congr 2
  funext i
  rw [Function.update_apply]
  exact if_congr (by omega) rfl rfl

theorem oblivious_put (c : UInt8) : Oblivious sorts buf buf' (jwPut c) := by
  have hstore : Oblivious sorts buf buf' (storeByte c) := by
    intro w w' h
    by_cases hroom : w.used < w.cap
    · rw [storeByte_eq hroom, storeByte_eq (by rwa [h.used, h.cap])]
      exact ⟨rfl, h.store 1 fun _ => c⟩
    · rw [storeByte, storeByte, if_neg hroom, if_neg (by rwa [h.used, h.cap])]
      rfl
  refine .when (fun h => by rw [h.used]) (fun h _ => oblivious_setErr _ _ _ h) ?_
  refine .when (fun h => by rw [h.writes, h.writes']) (fun h hm => absurd hm h.not_measuring) ?_
  refine .when (fun h => by rw [h.used, h.cap]) (fun h _ => oblivious_setErr _ _ _ h) ?_
  exact hstore.bind fun _ => oblivious_pure _

theorem oblivious_putLoop : ∀ s : List UInt8, Oblivious sorts buf buf' (putLoop s) := by
  intro s
  induction s with
  | nil => exact oblivious_pure _
  | cons c s ih => exact (oblivious_put c).bind fun _ => .ite (oblivious_pure _) ih

theorem oblivious_puts (s : List UInt8) : Oblivious sorts buf buf' (jwPuts s) := by
  refine .when (fun h => by rw [h.used]) (fun h _ => oblivious_setErr _ _ _ h) ?_
  exact .when (fun h => by rw [h.writes, h.writes']) (fun h hm => absurd hm h.not_measuring)
    (oblivious_putLoop s)

theorem oblivious_indent (depth : ℕ) (indentSz : UInt32) :
    Oblivious sorts buf buf' (jwIndent depth indentSz) := by
  have hfill : ∀ count, Oblivious sorts buf buf' (fillSpaces count) := by
    intro count
    refine .when (fun h => by rw [h.used, h.cap]) (fun h _ => ?_) fun _ _ _ => rfl
    exact ⟨rfl, h.store count fun _ => 0x20⟩
  refine .when (fun h => by rw [h.used]) (fun h _ => oblivious_setErr _ _ _ h) ?_
  refine .when (fun h => by rw [h.writes, h.writes']) (fun h hm => absurd hm h.not_measuring) ?_
  refine .when (fun h => by rw [h.used, h.cap]) (fun h _ => oblivious_setErr _ _ _ h) ?_
  exact (hfill _).bind fun _ => oblivious_pure _

theorem oblivious_digitLoop : ∀ (room absV : ℕ) (tmp : List UInt8),
    Oblivious sorts buf buf' (digitLoop room absV tmp) := by
  intro room
  induction room with
  | zero => exact fun _ _ => .ite (oblivious_throw _) (oblivious_pure _)
  | succ room ih => exact fun _ _ => .ite (ih _ _) (oblivious_pure _)

theorem oblivious_int64 (i : Int64) : Oblivious sorts buf buf' (jwInt64 i) := by
  have hrest : ∀ err : JsonError, Oblivious sorts buf buf' (do
      if err ≠ .ok then return .bufferTooSmall
      else if int64Abs i = 0 then jwPut 0x30
      else
        let tmp ← digitLoop sizeofIntBuf (int64Abs i) []
        putLoop tmp) := by
    intro err
    refine .ite (oblivious_pure _) (.ite (oblivious_put _) ?_)
    exact (oblivious_digitLoop _ _ _).bind fun _ => oblivious_putLoop _
  exact .ite ((oblivious_put _).bind hrest) ((oblivious_pure _).bind hrest)

theorem oblivious_double (f : D) : Oblivious sorts buf buf' (jwDouble f) := by
  unfold jwDouble
  split
  · exact oblivious_puts _
  · exact oblivious_pure _

theorem oblivious_multibyte (asciiOnly : Bool) (code : ℕ) (s : List UInt8) :
    Oblivious sorts buf buf' (jwMultibyte asciiOnly code s) := by
  refine .ite (oblivious_puts s) (.ite (oblivious_puts _) ?_)
  exact (oblivious_puts _).bind fun _ => .ite (oblivious_puts _) (oblivious_pure _)

theorem oblivious_stringLoop (asciiOnly : Bool) : ∀ (fuel : ℕ) (s : List UInt8),
    Oblivious sorts buf buf' (stringLoop asciiOnly fuel s) := by
  intro fuel
  induction fuel with
  | zero =>
    intro s
    cases s with
    | nil => exact oblivious_getErr
    | cons c s => exact oblivious_throw _
  | succ fuel ih =>
    intro s
    cases s with
    | nil => exact oblivious_getErr
    | cons c s =>
      rw [stringLoop]
      refine .ite ?_ (.ite ((oblivious_puts _).bind fun _ => ih s)
        ((oblivious_put c).bind fun _ => ih s))
      split
      · exact oblivious_throw _
      · exact oblivious_setErr _
      · exact (oblivious_multibyte _ _ _).bind fun _ => .ite (oblivious_pure _) (ih _)

theorem oblivious_stringContent (asciiOnly : Bool) (s : List UInt8) :
    Oblivious sorts buf buf' (jwStringContent asciiOnly s) :=
  oblivious_stringLoop asciiOnly s.length s

theorem oblivious_writeString (opts : JsonWriteOpts) (s : List UInt8) :
    Oblivious sorts buf buf' (writeString opts s) := by
  refine (oblivious_put _).bind fun _ => .ite (oblivious_pure _) ?_
  exact (oblivious_stringContent _ s).bind fun _ => .ite (oblivious_pure _) (oblivious_put _)

theorem oblivious_newLine (opts : JsonWriteOpts) (depth : ℕ) :
    Oblivious sorts buf buf' (jwNewLine opts depth) := by
  refine .ite ?_ (oblivious_pure _)
  exact (oblivious_put _).bind fun _ => (oblivious_indent _ _).bind fun _ => oblivious_pure _

theorem oblivious_close (opts : JsonWriteOpts) (depth len : ℕ) (bracket : UInt8) :
    Oblivious sorts buf buf' (writeClose opts depth len bracket) := by
  exact .ite ((oblivious_newLine _ _).bind fun _ => oblivious_put _) (oblivious_put _)

theorem oblivious_key (opts : JsonWriteOpts) (key : List UInt8) :
    Oblivious sorts buf buf' (writeKey opts key) := by
  refine (oblivious_put _).bind fun _ => (oblivious_stringContent _ key).bind fun _ => ?_
  refine (oblivious_put _).bind fun _ => (oblivious_put _).bind fun _ => ?_
  exact .ite ((oblivious_put _).bind fun _ => oblivious_pure _) (oblivious_pure _)

/-- The comma behind an entry that others follow. -/
theorem oblivious_comma {α β : Type} (rest : List β) {k : WM α}
    (hk : Oblivious sorts buf buf' k) : Oblivious sorts buf buf' (do
      if rest ≠ [] then
        let _ ← jwPut 0x2C
      k) := by
  exact .ite ((oblivious_put _).bind fun _ => hk) hk

theorem oblivious_items (opts : JsonWriteOpts) (depth : ℕ) {write : JsonPtr → WM JsonError}
    (hwrite : ∀ p, Oblivious sorts buf buf' (write p)) : ∀ ps : List JsonPtr,
    Oblivious sorts buf buf' (writeItems opts depth write ps) := by
  intro ps
  induction ps with
  | nil => exact oblivious_pure _
  | cons p ps ih =>
    refine (oblivious_newLine _ _).bind fun _ => (hwrite p).bind fun _ => ?_
    exact .ite (oblivious_pure _) (oblivious_comma ps ih)

theorem oblivious_pairs (opts : JsonWriteOpts) (depth : ℕ) {write : JsonPtr → WM JsonError}
    (hwrite : ∀ p, Oblivious sorts buf buf' (write p)) : ∀ pairs : List JsonPair,
    Oblivious sorts buf buf' (writePairs opts depth write pairs) := by
  intro pairs
  induction pairs with
  | nil => exact oblivious_pure _
  | cons pr pairs ih =>
    refine (oblivious_newLine _ _).bind fun _ => (oblivious_key _ _).bind fun _ => ?_
    refine (hwrite pr.val).bind fun _ => ?_
    exact .ite (oblivious_pure _) (oblivious_comma pairs ih)

/-- Memory for sorting is asked for only with `sort_keys`. -/
theorem oblivious_order {opts : JsonWriteOpts} (hsorts : opts.sortKeys = true → sorts)
    (pairs : List JsonPair) : Oblivious sorts buf buf' (orderPairs opts pairs) := by
  refine .when (fun h => by rw [h.writes, h.writes']) (fun h hkeys => ?_) fun _ _ h => ⟨rfl, h⟩
  have halloc : Oblivious sorts buf buf' sortAlloc := by
    intro w w' h
    have hmem := h.sortMem (hsorts hkeys.1)
    exact ⟨congrFun hmem 0, h.cap, h.used, h.writes, h.writes', h.err,
      fun _ => by simp only [hmem], h.front, h.rest⟩
  refine Oblivious.bind halloc (fun granted => .ite ?_ (oblivious_pure _)) _ _ h
  split
  · exact oblivious_pure _
  · exact oblivious_throw _
  · exact oblivious_throw _

/-- Values are written alike. -/
theorem oblivious_value {opts : JsonWriteOpts} (hsorts : opts.sortKeys = true → sorts)
    (h : Heap D) : ∀ (room : ℕ) (p : JsonPtr),
    Oblivious sorts buf buf' (jsonWriteValue h opts room p) := by
  intro room
  induction room with
  | zero => exact fun _ => oblivious_pure _
  | succ room ih =>
    intro p
    rw [jsonWriteValue]
    cases h.node p with
    | null => exact oblivious_puts _
    | bool b => exact .ite (oblivious_puts _) (oblivious_puts _)
    | integer i => exact oblivious_int64 i
    | float f => exact oblivious_double f
    | string s => exact oblivious_writeString _ _
    | array a =>
      refine (oblivious_put _).bind fun _ => .ite (oblivious_pure _) ?_
      refine (oblivious_items _ _ ih _).bind fun _ => ?_
      exact .ite (oblivious_pure _) (oblivious_close _ _ _ _)
    | object o =>
      refine (oblivious_order hsorts o.pairs).bind fun pairs => ?_
      cases pairs with
      | none => exact oblivious_pure _
      | some pairs =>
        refine (oblivious_put _).bind fun _ => .ite (oblivious_pure _) ?_
        refine (oblivious_pairs _ _ ih _).bind fun _ => ?_
        exact .ite (oblivious_pure _) (oblivious_close _ _ _ _)

theorem oblivious_body {opts : JsonWriteOpts} (hsorts : opts.sortKeys = true → sorts) (h : Heap D)
    (v : JsonPtr) : Oblivious sorts buf buf' (writeBody h opts v) :=
  (oblivious_value hsorts h _ v).bind fun _ => .ite (oblivious_put _) (oblivious_pure _)

end Oblivious

/-- Outputs that are the same, in buffers that held `buf` and `buf'`. -/
structure Written.Same (r r' : Written) (buf buf' : ℕ → UInt8) : Prop where
  status : r'.status = r.status
  bytes : r'.bytes = r.bytes
  written : r'.written = r.written
  buf : buf' = buf → r'.buf = r.buf

theorem Alike.same {sorts : Prop} {buf buf' : ℕ → UInt8} {w w' : JsonWriter}
    (h : Alike sorts buf buf' w w') (e : JsonError) :
    Written.Same ⟨e, w.used, w.buf⟩ ⟨e, w'.used, w'.buf⟩ buf buf' where
  status := rfl
  written := h.used
  bytes := by
    unfold Written.bytes
    rw [h.used]
    exact List.map_congr_left fun i hi => h.front i (List.mem_range.mp hi)
  buf := by
    rintro rfl
    funext i
    by_cases hi : i < w.used
    · exact h.front i hi
    · obtain ⟨hb, hb'⟩ := h.rest i (not_lt.mp hi)
      exact hb'.trans hb.symm

/-- The terminator is behind the output. -/
theorem Written.Same.terminated {e e' : JsonError} {n n' : ℕ} {b b' buf buf' : ℕ → UInt8}
    (h : Written.Same ⟨e, n, b⟩ ⟨e', n', b'⟩ buf buf') :
    Written.Same ⟨e, n, Function.update b n 0⟩ ⟨e', n', Function.update b' n' 0⟩ buf buf' where
  status := h.status
  written := h.written
  bytes := by
    have hfront : ∀ (k : ℕ) (f : ℕ → UInt8),
        (List.range k).map (Function.update f k 0) = (List.range k).map f := fun k f =>
      List.map_congr_left fun i hi => Function.update_of_ne (List.mem_range.mp hi).ne _ _
    show (List.range n').map (Function.update b' n' 0) = (List.range n).map (Function.update b n 0)
    rw [hfront, hfront]
    exact h.bytes
  buf := by
    intro hbuf
    show Function.update b' n' 0 = Function.update b n 0
    rw [show b' = b from h.buf hbuf, show n' = n from h.written]

/-- **What is in the buffer does not matter**, and without `sort_keys` the temporary arena does
not: the same is written, or the same fault occurs. -/
theorem jsonWrite_same {opts : JsonWriteOpts} (h : Heap D) (v : JsonPtr) (buf buf' : ℕ → UInt8)
    (c : ℕ) (mem mem' : ℕ → Bool) (hmem : opts.sortKeys = true → mem' = mem) :
    (∃ f, jsonWrite h v buf c opts mem = .error f ∧ jsonWrite h v buf' c opts mem' = .error f) ∨
    ∃ r r', jsonWrite h v buf c opts mem = .ok r ∧ jsonWrite h v buf' c opts mem' = .ok r' ∧
      r.Same r' buf buf' := by
  have hstart : Alike (opts.sortKeys = true) buf buf' ⟨buf, c, 0, false, .ok, mem⟩
      ⟨buf', c, 0, false, .ok, mem'⟩ :=
    ⟨rfl, rfl, rfl, rfl, rfl, hmem, fun i hi => absurd hi (Nat.not_lt_zero i),
      fun _ _ => ⟨rfl, rfl⟩⟩
  have hends := oblivious_body id h v _ _ hstart
  unfold jsonWrite
  rw [writeAll_eq]
  cases hbody : writeBody h opts v ⟨buf, c, 0, false, .ok, mem⟩ with
  | error f w =>
    cases hbody' : writeBody h opts v ⟨buf', c, 0, false, .ok, mem'⟩ with
    | ok e' w' =>
      rw [hbody, hbody'] at hends
      exact hends.elim
    | error f' w' =>
      rw [hbody, hbody'] at hends
      obtain rfl : f' = f := hends
      rw [bind_error hbody, bind_error hbody']
      exact .inl ⟨f', rfl, rfl⟩
  | ok e w =>
    cases hbody' : writeBody h opts v ⟨buf', c, 0, false, .ok, mem'⟩ with
    | error f' w' =>
      rw [hbody, hbody'] at hends
      exact hends.elim
    | ok e' w' =>
      rw [hbody, hbody'] at hends
      obtain ⟨rfl, halike⟩ := hends
      rw [bind_ok hbody, bind_ok hbody']
      right
      unfold writeEnd
      by_cases hok : e' = .ok
      swap
      · rw [if_neg fun hyes => hok hyes.1, if_neg fun hyes => hok hyes.1]
        exact ⟨_, _, rfl, rfl, halike.same e'⟩
      rw [if_pos ⟨hok, halike.writes⟩, if_pos ⟨hok, halike.writes'⟩, terminate, terminate]
      by_cases hroom : w.used < w.cap
      · rw [if_pos hroom, if_pos (by rwa [halike.used, halike.cap])]
        exact ⟨_, _, rfl, rfl, (halike.same .ok).terminated⟩
      · rw [if_neg hroom, if_neg (by rwa [halike.used, halike.cap])]
        exact ⟨_, _, rfl, rfl, halike.same .bufferTooSmall⟩

/-- **Without `sort_keys` the temporary arena does not matter.** -/
theorem jsonWrite_sortMem {opts : JsonWriteOpts} (hsort : opts.sortKeys = false) (h : Heap D)
    (v : JsonPtr) (buf : ℕ → UInt8) (c : ℕ) (mem mem' : ℕ → Bool) :
    jsonWrite h v buf c opts mem = jsonWrite h v buf c opts mem' := by
  rcases jsonWrite_same h v buf buf c mem mem'
    (fun hkeys => absurd hkeys (by rw [hsort]; exact Bool.false_ne_true)) with
    ⟨f, hf, hf'⟩ | ⟨r, r', hr, hr', hsame⟩
  · rw [hf, hf']
  · obtain ⟨e, n, b⟩ := r
    obtain ⟨e', n', b'⟩ := r'
    obtain ⟨rfl, -, rfl, hbuf⟩ := hsame
    obtain rfl := hbuf rfl
    rw [hr, hr']

end SJson
