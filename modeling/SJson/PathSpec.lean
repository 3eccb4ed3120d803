/-
# What path queries find

`json_path` reads one part of the path at a time and follows it at once.  A part ends at its
closing bracket, or in front of a dot, a bracket or the NUL, so that what follows a path does
not change how it is read:

* a list of indices and keys in bracket notation is followed step by step (`jsonPath_steps`);
* dot notation is bracket notation for short identifiers (`jsonPath_dot`);
* a path can be cut wherever the rest starts with a dot or a bracket (`jsonPath_append`).

The parts are what one round of the loop can read: `pathPart_cases` says so once, and the
lemmas in front of it say how each of them is followed.
-/
import SJson.Path
import SJson.LexerSpec
import SJson.LookupSpec

namespace SJson

open Decimal

variable {D : Type} {h : Heap D} {cur : JsonPtr}

/-! ## Scanning -/

/-- No byte of `ks` ends the scan. -/
def Passes (stop : UInt8 → Bool) (ks : List UInt8) : Prop := ∀ c ∈ ks, c ≠ 0 ∧ stop c = false

/-- A scan passes over the bytes in front of the first one that ends it. -/
theorem scanTo_eq {stop : UInt8 → Bool} {c : UInt8} (hc : c = 0 ∨ stop c = true)
    (t : List UInt8) : ∀ {ks : List UInt8}, Passes stop ks →
      scanTo stop (ks ++ c :: t) = .ok (ks, c :: t) := by
  intro ks
  induction ks with
  | nil =>
    intro _
    rw [List.nil_append, scanTo, if_neg]
    rintro ⟨hne, hstop⟩
    rcases hc with rfl | hc
    · exact hne rfl
    · rw [hc] at hstop
      cases hstop
  | cons k ks ih =>
    intro hks
    obtain ⟨hk, hks⟩ := List.forall_mem_cons.mp hks
    rw [List.cons_append, scanTo, if_pos hk, scan_bind_ok (ih hks)]
    rfl

/-- What a scan of a string passes over, and where it stops. -/
theorem scanTo_ok {stop : UInt8 → Bool} : ∀ {p ks r : List UInt8}, 0 ∉ p →
    scanTo stop (p ++ [0]) = .ok (ks, r) →
    ∃ p', p = ks ++ p' ∧ r = p' ++ [0] ∧ Passes stop ks ∧
      ∀ c t, p' = c :: t → stop c = true := by
  intro p
  induction p with
  | nil =>
    intro ks r _ hscan
    rw [List.nil_append, scanTo, if_neg (by simp)] at hscan
    cases hscan
    exact ⟨[], rfl, rfl, fun c hc => (by cases hc), fun c t ht => (by cases ht)⟩
  | cons c p ih =>
    intro ks r hp hscan
    have hc := List.ne_of_not_mem_cons hp
    have hp := List.not_mem_of_not_mem_cons hp
    rw [List.cons_append, scanTo] at hscan
    by_cases hstop : stop c = false
    · rw [if_pos ⟨hc.symm, hstop⟩] at hscan
      obtain ⟨⟨ks', r'⟩, hrest, hscan⟩ := scan_bind_eq_ok.mp hscan
      cases hscan
      obtain ⟨p', rfl, rfl, hpass, hend⟩ := ih hp hrest
      exact ⟨p', rfl, rfl, List.forall_mem_cons.mpr ⟨⟨hc.symm, hstop⟩, hpass⟩, hend⟩
    · rw [if_neg fun hand => hstop hand.2] at hscan
      cases hscan
      refine ⟨c :: p, rfl, rfl, fun c hc => (by cases hc), ?_⟩
      rintro _ _ ⟨⟩
      simpa using hstop

/-- The digits of an index that fits are read. -/
theorem indexLoop_extend {t : List UInt8} : ∀ {ds : List UInt8} {idx : ℕ},
    (∀ c ∈ ds, IsDigit c) → extend idx ds ≤ uint32Max →
    indexLoop idx (ds ++ t) = indexLoop (extend idx ds) t := by
  intro ds
  induction ds with
  | nil => intro idx _ _; rfl
  | cons c ds ih =>
    intro idx hds hmax
    obtain ⟨hc, hds⟩ := List.forall_mem_cons.mp hds
    rw [extend_cons] at hmax ⊢
    have hle := (le_extend (idx * 10 + digit c) ds).trans hmax
    have hnine := hc.digit_lt
    rw [List.cons_append, indexLoop, if_pos (isDigit_iff.mpr hc), if_neg]
    · exact ih hds hmax
    · show ¬ idx > (uint32Max - digit c) / 10
      unfold uint32Max at *
      omega

/-- The digits of an index that does not fit are not read to the end. -/
theorem indexLoop_overflow {t : List UInt8} : ∀ {ds : List UInt8} {idx : ℕ},
    (∀ c ∈ ds, IsDigit c) → idx ≤ uint32Max → uint32Max < extend idx ds →
    indexLoop idx (ds ++ t) = .error (.err .overflow) := by
  intro ds
  induction ds with
  | nil =>
    intro idx _ hle hmax
    exact absurd hmax (not_lt.mpr hle)
  | cons c ds ih =>
    intro idx hds hle hmax
    obtain ⟨hc, hds⟩ := List.forall_mem_cons.mp hds
    have hnine := hc.digit_lt
    rw [List.cons_append, indexLoop, if_pos (isDigit_iff.mpr hc)]
    -- the guard fails for the first prefix that is too large
    show (if idx > (uint32Max - digit c) / 10 then _ else indexLoop (idx * 10 + digit c) _) = _
    by_cases hnext : idx * 10 + digit c ≤ uint32Max
    · rw [if_neg (by unfold uint32Max at *; omega)]
      exact ih hds hnext hmax
    · rw [if_pos (by unfold uint32Max at *; omega)]

theorem indexLoop_stop {idx : ℕ} {c : UInt8} {t : List UInt8} (hc : ¬ IsDigit c) :
    indexLoop idx (c :: t) = .ok (idx, c :: t) := by
  rw [indexLoop, if_neg (mt isDigit_iff.mp hc)]

/-- What the loop over the digits of an index has read when it succeeds. -/
theorem indexLoop_ok : ∀ {p r : List UInt8} {idx n : ℕ}, idx ≤ uint32Max →
    indexLoop idx (p ++ [0]) = .ok (n, r) →
    ∃ ds p', p = ds ++ p' ∧ r = p' ++ [0] ∧ (∀ c ∈ ds, IsDigit c) ∧ n = extend idx ds ∧
      n ≤ uint32Max ∧ (∀ c t, p = c :: t → IsDigit c → ds ≠ []) := by
  intro p
  induction p with
  | nil =>
    intro r idx n hidx hloop
    rw [List.nil_append, indexLoop_stop (by decide)] at hloop
    cases hloop
    exact ⟨[], [], rfl, rfl, fun c hc => (by cases hc), rfl, hidx, fun c t ht => (by cases ht)⟩
  | cons c p ih =>
    intro r idx n hidx hloop
    by_cases hc : IsDigit c
    · have hnine := hc.digit_lt
      rw [List.cons_append, indexLoop, if_pos (isDigit_iff.mpr hc)] at hloop
      change (if idx > (uint32Max - digit c) / 10 then _ else indexLoop (idx * 10 + digit c) _) = _
        at hloop
      by_cases hguard : idx > (uint32Max - digit c) / 10
      · rw [if_pos hguard] at hloop
        cases hloop
      · rw [if_neg hguard] at hloop
        obtain ⟨ds, p', rfl, rfl, hds, rfl, hle, -⟩ :=
          ih (by unfold uint32Max at *; omega) hloop
        exact ⟨c :: ds, p', rfl, rfl, List.forall_mem_cons.mpr ⟨hc, hds⟩, rfl, hle,
          fun _ _ _ _ => List.cons_ne_nil _ _⟩
    · rw [List.cons_append, indexLoop_stop hc] at hloop
      cases hloop
      refine ⟨[], c :: p, rfl, rfl, fun c hc => (by cases hc), rfl, hidx, ?_⟩
      rintro _ _ ⟨⟩ hd
      exact absurd hd hc

theorem closeBracket_ok {p r : List UInt8} (hclose : closeBracket (p ++ [0]) = .ok r) :
    ∃ p', p = 0x5D :: p' ∧ r = p' ++ [0] := by
  cases p with
  | nil => cases hclose
  | cons c p =>
    rw [List.cons_append, closeBracket] at hclose
    split_ifs at hclose with hc
    cases hclose
    exact ⟨p, by rw [not_not.mp hc], rfl⟩

theorem closeQuote_ok {p r : List UInt8} (hclose : closeQuote (p ++ [0]) = .ok r) :
    ∃ c p', p = c :: p' ∧ r = p' ++ [0] := by
  cases p with
  | nil => cases hclose
  | cons c p =>
    rw [List.cons_append, closeQuote] at hclose
    split_ifs at hclose
    cases hclose
    exact ⟨c, p, rfl, rfl⟩

/-! ## One part of a path -/

/-- A key in brackets. -/
def bracketKey (key : List UInt8) : List UInt8 := 0x5B :: 0x22 :: key ++ [0x22, 0x5D]

/-- An index in brackets. -/
def bracketIndex (ds : List UInt8) : List UInt8 := 0x5B :: ds ++ [0x5D]

/-- An identifier: what dot notation reads as one key. -/
structure Ident (key : List UInt8) : Prop where
  start : ∃ c t, key = c :: t ∧ isIdentStart c = true
  passes : Passes endsIdent key

/-- What can follow a part of a path: the NUL, a dot or a bracket. -/
def PathEnds (t : List UInt8) : Prop := ∃ c t', t = c :: t' ∧ (c = 0 ∨ endsIdent c = true)

theorem pathPart_key {key : List UInt8} (hkey : Passes isQuote key) (t : List UInt8) :
    pathPart h cur (bracketKey key ++ t) = jsonObjGetN h cur key >>= fun out => .ok (out, t) := by
  have hscan : scanTo isQuote (key ++ 0x22 :: (0x5D :: t)) = .ok (key, 0x22 :: 0x5D :: t) :=
    scanTo_eq (.inr (by decide)) _ hkey
  have happ : bracketKey key ++ t = 0x5B :: 0x22 :: (key ++ 0x22 :: 0x5D :: t) := by
    simp [bracketKey]
  rw [happ, pathPart, if_pos rfl, pathBracket, if_pos rfl, scan_bind_ok hscan]
  rfl

/-- An index that does not fit is refused before the bracket is looked for. -/
theorem pathPart_index {ds : List UInt8} (hds : ∀ c ∈ ds, IsDigit c) (hne : ds ≠ [])
    (t : List UInt8) :
    pathPart h cur (bracketIndex ds ++ t) =
      if value ds ≤ uint32Max then jsonArrGet h cur (value ds) >>= fun out => .ok (out, t)
      else .error (.err .overflow) := by
  obtain ⟨c, ds', rfl⟩ := List.exists_cons_of_ne_nil hne
  have hc := hds c (List.mem_cons_self ..)
  have hquote : c ≠ 0x22 := by
    rintro rfl
    exact absurd hc (by decide)
  have happ : bracketIndex (c :: ds') ++ t = 0x5B :: c :: (ds' ++ 0x5D :: t) := by
    simp [bracketIndex]
  rw [happ, pathPart, if_pos rfl, pathBracket, if_neg hquote, if_pos (isDigit_iff.mpr hc),
    ← List.cons_append]
  by_cases hmax : value (c :: ds') ≤ uint32Max
  · rw [if_pos hmax, indexLoop_extend hds hmax, indexLoop_stop (by decide)]
    rfl
  · rw [if_neg hmax, indexLoop_overflow hds (Nat.zero_le _) (not_le.mp hmax)]
    rfl

theorem endsIdent_of_identStart {c : UInt8} (h : isIdentStart c = true) :
    c ≠ 0 ∧ c ≠ 0x5B ∧ endsIdent c = false := by
  refine ⟨?_, ?_, ?_⟩
  · rintro rfl
    revert h
    decide
  · rintro rfl
    revert h
    decide
  · by_contra hends
    rw [Bool.not_eq_false] at hends
    rcases decide_eq_true_iff.mp hends with rfl | rfl
    · revert h
      decide
    · revert h
      decide

theorem pathPart_ident {key t : List UInt8} (hkey : Ident key) (ht : PathEnds t) :
    pathPart h cur (key ++ t) =
      if key.length ≥ sizeofKeyBuf then .error (.err .overflow)
      else jsonObjGetN h cur key >>= fun out => .ok (out, t) := by
  obtain ⟨c, t, rfl, hc⟩ := ht
  obtain ⟨b, key', rfl, hb⟩ := hkey.start
  have hbracket := (endsIdent_of_identStart hb).2.1
  rw [List.cons_append, pathPart, if_neg hbracket, if_pos hb, pathIdent, ← List.cons_append,
    scan_bind_ok (scanTo_eq hc t hkey.passes)]
  rfl

/-- A part at the front of `p`, with `r` behind it, that is followed to `out` in the same way
whatever comes behind `p`, as long as it cannot belong to the part. -/
def PartRead (h : Heap D) (cur : JsonPtr) (p : List UInt8) (out : JsonPtr) (r : List UInt8) :
    Prop :=
  ∃ part p', p = part ++ p' ∧ part ≠ [] ∧ r = p' ++ [0] ∧
    ∀ t, PathEnds t → pathPart h cur (p ++ t) = .ok (out, p' ++ t)

/-- A key in brackets. -/
theorem partRead_key {p r : List UInt8} {out : JsonPtr} (hp : 0 ∉ p)
    (hpart : pathPart h cur (0x5B :: 0x22 :: (p ++ [0])) = .ok (out, r)) :
    PartRead h cur (0x5B :: 0x22 :: p) out r := by
  rw [pathPart, if_pos rfl, pathBracket, if_pos rfl] at hpart
  obtain ⟨⟨key, r1⟩, hscan, hpart⟩ := scan_bind_eq_ok.mp hpart
  obtain ⟨p1, rfl, rfl, hpass, hend⟩ := scanTo_ok hp hscan
  obtain ⟨r2, hclose, hpart⟩ := scan_bind_eq_ok.mp hpart
  obtain ⟨q, p2, rfl, rfl⟩ := closeQuote_ok hclose
  obtain ⟨r3, hclose', hpart⟩ := scan_bind_eq_ok.mp hpart
  obtain ⟨p3, rfl, rfl⟩ := closeBracket_ok hclose'
  obtain ⟨out', hget, hpart⟩ := scan_bind_eq_ok.mp hpart
  cases hpart
  obtain rfl : q = 0x22 := by simpa [isQuote] using hend q _ rfl
  have happ : ∀ t, 0x5B :: 0x22 :: (key ++ 0x22 :: 0x5D :: p3) ++ t =
      bracketKey key ++ (p3 ++ t) := fun t => by simp [bracketKey]
  refine ⟨bracketKey key, p3, by simpa using happ [], List.cons_ne_nil _ _, rfl, fun t _ => ?_⟩
  rw [happ, pathPart_key hpass, scan_bind_ok hget]

/-- An index in brackets. -/
theorem partRead_index {b : UInt8} {p r : List UInt8} {out : JsonPtr} (hquote : b ≠ 0x22)
    (hpart : pathPart h cur (0x5B :: b :: (p ++ [0])) = .ok (out, r)) :
    PartRead h cur (0x5B :: b :: p) out r := by
  rw [pathPart, if_pos rfl, pathBracket, if_neg hquote] at hpart
  split_ifs at hpart with hdigit
  obtain ⟨⟨idx, r1⟩, hloop, hpart⟩ := scan_bind_eq_ok.mp hpart
  rw [← List.cons_append] at hloop
  obtain ⟨ds, p1, hsrc, rfl, hds, rfl, hmax, hne⟩ := indexLoop_ok (Nat.zero_le _) hloop
  obtain ⟨r2, hclose, hpart⟩ := scan_bind_eq_ok.mp hpart
  obtain ⟨p2, rfl, rfl⟩ := closeBracket_ok hclose
  obtain ⟨out', hget, hpart⟩ := scan_bind_eq_ok.mp hpart
  cases hpart
  have happ : ∀ t, 0x5B :: b :: p ++ t = bracketIndex ds ++ (p2 ++ t) := fun t => by
    rw [hsrc]
    simp [bracketIndex]
  refine ⟨bracketIndex ds, p2, by simpa using happ [], List.cons_ne_nil _ _, rfl, fun t _ => ?_⟩
  have hfits : value ds ≤ uint32Max := hmax
  rw [happ, pathPart_index hds (hne b p rfl (isDigit_iff.mp hdigit)), if_pos hfits]
  exact scan_bind_ok hget

/-- An identifier. -/
theorem partRead_ident {c : UInt8} {p r : List UInt8} {out : JsonPtr} (hp : 0 ∉ c :: p)
    (hident : isIdentStart c = true) (hpart : pathIdent h cur (c :: p ++ [0]) = .ok (out, r)) :
    PartRead h cur (c :: p) out r := by
  obtain ⟨⟨key, r1⟩, hscan, hpart⟩ := scan_bind_eq_ok.mp hpart
  obtain ⟨p1, hsrc, rfl, hpass, hend⟩ := scanTo_ok hp hscan
  change (if key.length ≥ sizeofKeyBuf then _ else _) = _ at hpart
  split_ifs at hpart with hlen
  obtain ⟨out', hget, hpart⟩ := scan_bind_eq_ok.mp hpart
  cases hpart
  have hkey : Ident key := by
    refine ⟨?_, hpass⟩
    cases key with
    | nil =>
      have hstart := (endsIdent_of_identStart hident).2.2
      rw [hend c p hsrc.symm] at hstart
      cases hstart
    | cons k key =>
      rw [List.cons_append, List.cons.injEq] at hsrc
      exact ⟨k, key, rfl, hsrc.1 ▸ hident⟩
  have hne : key ≠ [] := by
    obtain ⟨k, t, rfl, -⟩ := hkey.start
    exact List.cons_ne_nil _ _
  refine ⟨key, p1, hsrc, hne, rfl, fun t ht => ?_⟩
  have hends : PathEnds (p1 ++ t) := by
    cases p1 with
    | nil => exact ht
    | cons k p1 => exact ⟨k, p1 ++ t, rfl, .inr (hend k p1 rfl)⟩
  rw [hsrc, List.append_assoc, pathPart_ident hkey hends, if_neg hlen, scan_bind_ok hget]

/-- **What a round of the loop has read.** -/
theorem pathPart_cases {p r : List UInt8} {out : JsonPtr} (hp : 0 ∉ p)
    (hpart : pathPart h cur (p ++ [0]) = .ok (out, r)) : PartRead h cur p out r := by
  cases p with
  | nil => cases hpart
  | cons c p =>
    have hp' := List.not_mem_of_not_mem_cons hp
    by_cases hbracket : c = 0x5B
    · subst hbracket
      cases p with
      | nil => cases hpart
      | cons b p =>
        by_cases hquote : b = 0x22
        · exact hquote ▸ partRead_key (List.not_mem_of_not_mem_cons hp') (hquote ▸ hpart)
        · exact partRead_index hquote hpart
    · rw [List.cons_append, pathPart, if_neg hbracket] at hpart
      split_ifs at hpart with hident
      exact partRead_ident hp hident hpart

/-! ## Whole paths -/

theorem skipDot_append {p : List UInt8} (hp : p ≠ []) (t : List UInt8) :
    skipDot (p ++ t) = skipDot p ++ t := by
  obtain ⟨c, p, rfl⟩ := List.exists_cons_of_ne_nil hp
  rw [List.cons_append, skipDot, skipDot]
  split_ifs <;> rfl

theorem skipDot_of_ne {c : UInt8} (hc : c ≠ 0x2E) (p : List UInt8) : skipDot (c :: p) = c :: p :=
  if_neg hc

theorem skipDot_suffix (p : List UInt8) : skipDot p <:+ p := by
  cases p with
  | nil => exact List.suffix_refl _
  | cons c p =>
    rw [skipDot]
    split_ifs
    · exact List.suffix_cons c p
    · exact List.suffix_refl _

/-- One round leaves a shorter path. -/
theorem pathPart_rest {p r : List UInt8} {out : JsonPtr} (hp : 0 ∉ p)
    (hpart : pathPart h cur (skipDot p ++ [0]) = .ok (out, r)) :
    ∃ p', r = p' ++ [0] ∧ 0 ∉ p' ∧ p'.length < p.length ∧
      ∀ t, PathEnds t → pathPart h cur (skipDot p ++ t) = .ok (out, p' ++ t) := by
  have hsuffix := skipDot_suffix p
  obtain ⟨part, p', hsrc, hne, rfl, happ⟩ := pathPart_cases (fun h0 => hp (hsuffix.mem h0)) hpart
  refine ⟨p', rfl, ?_, ?_, happ⟩
  · intro h0
    apply hp
    apply hsuffix.mem
    rw [hsrc]
    exact List.mem_append_right _ h0
  · have hlen := hsuffix.length_le
    have hpos := List.length_pos_iff.mpr hne
    rw [hsrc, List.length_append] at hlen
    omega

/-- The bound on the rounds of the loop is never reached. -/
theorem pathLoop_fuel : ∀ {fuel fuel' : ℕ} {cur : JsonPtr} {p : List UInt8}, 0 ∉ p →
    p.length + 1 < fuel → p.length + 1 < fuel' →
    pathLoop h fuel cur (p ++ [0]) = pathLoop h fuel' cur (p ++ [0]) := by
  intro fuel
  induction fuel with
  | zero => intro fuel' cur p _ hfuel; omega
  | succ fuel ih =>
    intro fuel' cur p hp hfuel hfuel'
    obtain ⟨fuel', rfl⟩ : ∃ k, fuel' = k + 1 := ⟨fuel' - 1, by omega⟩
    cases p with
    | nil => rfl
    | cons c p =>
      have hc : c ≠ 0 := (List.ne_of_not_mem_cons hp).symm
      rw [List.cons_append, pathLoop, pathLoop, if_neg hc, if_neg hc, ← List.cons_append,
        skipDot_append (List.cons_ne_nil _ _)]
      cases hpart : pathPart h cur (skipDot (c :: p) ++ [0]) with
      | error e => rfl
      | ok res =>
        obtain ⟨p', hr, hp', hlt, -⟩ := pathPart_rest hp hpart
        obtain ⟨out, r⟩ := res
        subst hr
        exact ih hp' (by omega) (by omega)

@[simp]
theorem jsonPath_nil (h : Heap D) (cur : JsonPtr) : jsonPath h cur [] = .ok cur := rfl

/-- **One round**: the part at the front is followed, and then the rest of the path. -/
theorem jsonPath_step {p q : List UInt8} {x : Scan JsonPtr} (hp : 0 ∉ p) (hne : p ≠ [])
    (hq : 0 ∉ q) (hlt : q.length < p.length)
    (hpart : pathPart h cur (skipDot p ++ [0]) = x >>= fun out => .ok (out, q ++ [0])) :
    jsonPath h cur p = x >>= fun out => jsonPath h out q := by
  obtain ⟨c, p', rfl⟩ := List.exists_cons_of_ne_nil hne
  have hc : c ≠ 0 := (List.ne_of_not_mem_cons hp).symm
  rw [jsonPath, List.cons_append, pathLoop, if_neg hc, ← List.cons_append, skipDot_append hne,
    hpart]
  cases x with
  | error e => rfl
  | ok out => exact pathLoop_fuel hq (by omega) (by omega)

theorem pathEnds_append {q : List UInt8} (hq : q = [] ∨ ∃ c t, q = c :: t ∧ endsIdent c = true) :
    PathEnds (q ++ [0]) := by
  rcases hq with rfl | ⟨c, t, rfl, hc⟩
  · exact ⟨0, [], rfl, .inl rfl⟩
  · exact ⟨c, t ++ [0], rfl, .inr hc⟩

theorem not_mem_append {p q : List UInt8} (hp : 0 ∉ p) (hq : 0 ∉ q) : 0 ∉ p ++ q := fun h0 =>
  (List.mem_append.mp h0).elim hp hq

/-- A path that is followed, and what comes behind it. -/
theorem jsonPath_prefix {q : List UInt8} (hq : 0 ∉ q)
    (hends : q = [] ∨ ∃ c t, q = c :: t ∧ endsIdent c = true) {v : JsonPtr} :
    ∀ {n : ℕ} {p : List UInt8} {cur : JsonPtr}, p.length ≤ n → 0 ∉ p →
      jsonPath h cur p = .ok v → jsonPath h cur (p ++ q) = jsonPath h v q := by
  intro n
  induction n with
  | zero =>
    intro p cur hn _ hok
    obtain rfl := List.length_eq_zero_iff.mp (Nat.le_zero.mp hn)
    cases hok
    rfl
  | succ n ih =>
    intro p cur hn hp hok
    by_cases hne : p = []
    · subst hne
      cases hok
      rfl
    cases hpart : pathPart h cur (skipDot p ++ [0]) with
    | error e =>
      -- the first part cannot fail
      obtain ⟨c, p', rfl⟩ := List.exists_cons_of_ne_nil hne
      have hc : c ≠ 0 := (List.ne_of_not_mem_cons hp).symm
      rw [jsonPath, List.cons_append, pathLoop, if_neg hc, ← List.cons_append,
        skipDot_append hne, hpart] at hok
      cases hok
    | ok res =>
      obtain ⟨out, r⟩ := res
      obtain ⟨p', rfl, hp', hlt, happ⟩ := pathPart_rest hp hpart
      have hfirst : jsonPath h cur p = jsonPath h out p' :=
        jsonPath_step (x := .ok out) hp hne hp' hlt hpart
      have hboth : jsonPath h cur (p ++ q) = jsonPath h out (p' ++ q) := by
        apply jsonPath_step (x := .ok out) (not_mem_append hp hq) (by simp [hne])
          (not_mem_append hp' hq)
        · rw [List.length_append, List.length_append]
          omega
        · rw [skipDot_append hne, List.append_assoc, happ _ (pathEnds_append hends),
            List.append_assoc]
          rfl
      rw [hboth]
      exact ih (by omega) hp' (hfirst ▸ hok)

/-- **Path queries compose.**  Behind a path that leads to `v`, every tail that is empty or
starts with a dot or a bracket, well-formed or not, is followed as it is from `v`. -/
theorem jsonPath_append {p q : List UInt8} {root v : JsonPtr} (hp : 0 ∉ p) (hq : 0 ∉ q)
    (hok : jsonPath h root p = .ok v)
    (hends : q = [] ∨ ∃ c t, q = c :: t ∧ (c = 0x2E ∨ c = 0x5B)) :
    jsonPath h root (p ++ q) = jsonPath h v q := by
  apply jsonPath_prefix hq _ le_rfl hp hok
  apply hends.imp id
  rintro ⟨c, t, rfl, hc⟩
  exact ⟨c, t, rfl, decide_eq_true hc⟩

/-- The path `[0]` in front of a tail that is not well-formed. -/
theorem jsonPath_append_zero :
    ∃ h : Heap Unit,
      jsonPath h 0 ([0x5B, 0x30, 0x5D] ++ [0x2E, 0x2E]) = jsonPath h 1 [0x2E, 0x2E] := by
  let h : Heap Unit := ⟨fun p => if p = 0 then .array ⟨[1], 4⟩ else .null, 2⟩
  exact ⟨h, jsonPath_append (by decide) (by decide)
    (show jsonPath h 0 [0x5B, 0x30, 0x5D] = .ok 1 from rfl)
    (.inr ⟨0x2E, [0x2E], rfl, .inl rfl⟩)⟩

/-! ## Bracket notation -/

theorem not_mem_bracketKey {key : List UInt8} (hkey : 0 ∉ key) : 0 ∉ bracketKey key := by
  simp [bracketKey, hkey]

theorem not_mem_bracketIndex {ds : List UInt8} (hds : ∀ c ∈ ds, IsDigit c) :
    0 ∉ bracketIndex ds := by
  have hzero : 0 ∉ ds := fun h0 => absurd (hds 0 h0) (by decide)
  simp [bracketIndex, hzero]

theorem jsonPath_key {key q : List UInt8} (hkey : Passes isQuote key) (hq : 0 ∉ q) :
    jsonPath h cur (bracketKey key ++ q) =
      jsonObjGetN h cur key >>= fun out => jsonPath h out q := by
  have hzero : 0 ∉ key := fun h0 => (hkey 0 h0).1 rfl
  apply jsonPath_step (not_mem_append (not_mem_bracketKey hzero) hq) (by simp [bracketKey]) hq
  · simp only [bracketKey, List.length_append, List.length_cons]
    omega
  · rw [← pathPart_key hkey, ← List.append_assoc]
    rfl

theorem jsonPath_index {ds q : List UInt8} (hds : ∀ c ∈ ds, IsDigit c) (hne : ds ≠ [])
    (hq : 0 ∉ q) :
    jsonPath h cur (bracketIndex ds ++ q) =
      if value ds ≤ uint32Max then jsonArrGet h cur (value ds) >>= fun out => jsonPath h out q
      else .error (.err .overflow) := by
  have hround : ∀ {x : Scan JsonPtr}, pathPart h cur (bracketIndex ds ++ (q ++ [0])) =
      x >>= (fun out => .ok (out, q ++ [0])) →
      jsonPath h cur (bracketIndex ds ++ q) = x >>= fun out => jsonPath h out q := by
    intro x hpart
    apply jsonPath_step (not_mem_append (not_mem_bracketIndex hds) hq) (by simp [bracketIndex]) hq
    · simp only [bracketIndex, List.length_append, List.length_cons]
      omega
    · rw [← hpart, ← List.append_assoc]
      rfl
  have hpart := @pathPart_index _ h cur _ hds hne (q ++ [0])
  by_cases hmax : value ds ≤ uint32Max
  · rw [if_pos hmax] at hpart ⊢
    exact hround hpart
  · rw [if_neg hmax] at hpart ⊢
    exact hround (x := .error (.err .overflow)) hpart

/-- A step from a node to one of its entries. -/
inductive PathStep where
  | index (n : ℕ)
  | key (k : List UInt8)

namespace PathStep

/-- An index that an `uint32_t` holds, or a key that quotation marks can enclose. -/
def Ok : PathStep → Prop
  | index n => n ≤ uint32Max
  | key k => 0x22 ∉ k ∧ 0 ∉ k

/-- A step in bracket notation. -/
def text : PathStep → List UInt8
  | index n => bracketIndex (Decimal.text n)
  | key k => bracketKey k

/-- `json_arr_get` or `json_obj_get_n`. -/
def follow (h : Heap D) (cur : JsonPtr) : PathStep → Scan JsonPtr
  | index n => jsonArrGet h cur n
  | key k => jsonObjGetN h cur k

theorem not_mem_text {st : PathStep} (hst : st.Ok) : 0 ∉ st.text := by
  cases st with
  | index n => exact not_mem_bracketIndex text_isDigit
  | key k => exact not_mem_bracketKey hst.2

end PathStep

theorem passes_isQuote {key : List UInt8} (hquote : 0x22 ∉ key) (hzero : 0 ∉ key) :
    Passes isQuote key := by
  intro c hc
  constructor
  · rintro rfl
    exact hzero hc
  · apply decide_eq_false
    rintro rfl
    exact hquote hc

theorem jsonPath_cons_step {st : PathStep} (hst : st.Ok) {q : List UInt8} (hq : 0 ∉ q) :
    jsonPath h cur (st.text ++ q) = st.follow h cur >>= fun out => jsonPath h out q := by
  cases st with
  | index n =>
    have hn : n ≤ uint32Max := hst
    rw [PathStep.text, jsonPath_index text_isDigit (text_ne_nil n) hq, value_text, if_pos hn]
    rfl
  | key k => exact jsonPath_key (passes_isQuote hst.1 hst.2) hq

theorem not_mem_flatMap_text {steps : List PathStep} (hok : ∀ st ∈ steps, st.Ok) :
    0 ∉ steps.flatMap PathStep.text := by
  intro h0
  obtain ⟨st, hst, h0⟩ := List.mem_flatMap.mp h0
  exact PathStep.not_mem_text (hok st hst) h0

/-- Steps in front of any path. -/
theorem jsonPath_steps_append {q : List UInt8} (hq : 0 ∉ q) : ∀ {steps : List PathStep}
    {cur : JsonPtr}, (∀ st ∈ steps, st.Ok) →
    jsonPath h cur (steps.flatMap PathStep.text ++ q) =
      steps.foldlM (PathStep.follow h) cur >>= fun out => jsonPath h out q := by
  intro steps
  induction steps with
  | nil => intro cur _; rfl
  | cons st steps ih =>
    intro cur hok
    obtain ⟨hst, hsteps⟩ := List.forall_mem_cons.mp hok
    rw [List.flatMap_cons, List.append_assoc,
      jsonPath_cons_step hst (not_mem_append (not_mem_flatMap_text hsteps) hq), List.foldlM_cons,
      bind_assoc]
    congr 1
    funext out
    exact ih hsteps

/-- **Every node is addressable.**  On the bracket notation of a list of steps `json_path`
returns what `json_arr_get` and `json_obj_get_n` return step by step, up to the first error;
and behind steps that succeed, an index that `uint32_t` does not hold is an overflow, however
many digits it has and whatever follows it. -/
theorem jsonPath_steps (h : Heap D) (root : JsonPtr) (steps : List PathStep)
    (hok : ∀ st ∈ steps, st.Ok) :
    jsonPath h root (steps.flatMap PathStep.text) = steps.foldlM (PathStep.follow h) root ∧
    ∀ v ds q, steps.foldlM (PathStep.follow h) root = .ok v → ds ≠ [] → (∀ c ∈ ds, IsDigit c) →
      uint32Max < value ds → 0 ∉ q →
      jsonPath h root (steps.flatMap PathStep.text ++ (bracketIndex ds ++ q)) =
        .error (.err .overflow) := by
  constructor
  · have happ := @jsonPath_steps_append _ h _ (List.not_mem_nil) _ root hok
    rw [List.append_nil] at happ
    rw [happ]
    cases steps.foldlM (PathStep.follow h) root with
    | error e => rfl
    | ok v => rfl
  · intro v ds q hv hne hds hmax hq
    rw [jsonPath_steps_append (not_mem_append (not_mem_bracketIndex hds) hq) hok, scan_bind_ok hv,
      jsonPath_index hds hne hq, if_neg (not_le.mpr hmax)]

/-- The second entry of the array behind the key `a`, and the index 2^32 of it. -/
theorem jsonPath_steps_two :
    ∃ h : Heap Unit, jsonPath h 0 [0x5B, 0x22, 0x61, 0x22, 0x5D, 0x5B, 0x31, 0x5D] = .ok 3 ∧
      jsonPath h 0 ([0x5B, 0x22, 0x61, 0x22, 0x5D, 0x5B, 0x31, 0x5D] ++ [0x5B, 0x34, 0x32, 0x39,
        0x34, 0x39, 0x36, 0x37, 0x32, 0x39, 0x36, 0x5D]) = .error (.err .overflow) := by
  let o : JsonObj := ⟨[⟨⟨[0x61], jsonFnv1a [0x61]⟩, 1⟩], none, 4, false⟩
  let h : Heap Unit :=
    ⟨fun p => if p = 0 then .object o else if p = 1 then .array ⟨[2, 3], 4⟩ else .null, 4⟩
  have htext : [PathStep.key [0x61], .index 1].flatMap PathStep.text =
      [0x5B, 0x22, 0x61, 0x22, 0x5D, 0x5B, 0x31, 0x5D] := by
    simp [PathStep.text, bracketKey, bracketIndex, Decimal.text]
  obtain ⟨hpath, hover⟩ := jsonPath_steps h 0 [.key [0x61], .index 1] (by
    intro st hst
    rcases List.mem_pair.mp hst with rfl | rfl
    · exact ⟨by decide, by decide⟩
    · show (1 : ℕ) ≤ uint32Max
      decide)
  rw [htext] at hpath hover
  refine ⟨h, hpath.trans rfl, ?_⟩
  have hbig := hover 3 [0x34, 0x32, 0x39, 0x34, 0x39, 0x36, 0x37, 0x32, 0x39, 0x36] [] rfl
    (by decide) (by decide +kernel) (by decide +kernel) (by decide)
  simpa only [bracketIndex, List.append_nil, List.cons_append, List.nil_append] using hbig

/-! ## Dot notation -/

/-- A key that looks like an identifier: a letter, an underscore or a byte above ASCII, and
then no dot, opening bracket or quotation mark. -/
structure IdentKey (key : List UInt8) : Prop where
  start : ∃ c t, key = c :: t ∧ isIdentStart c = true
  dot : 0x2E ∉ key
  bracket : 0x5B ∉ key
  quote : 0x22 ∉ key
  zero : 0 ∉ key

theorem IdentKey.ident {key : List UInt8} (hkey : IdentKey key) : Ident key := by
  refine ⟨hkey.start, fun c hc => ⟨?_, ?_⟩⟩
  · rintro rfl
    exact hkey.zero hc
  · apply decide_eq_false
    rintro (rfl | rfl)
    · exact hkey.dot hc
    · exact hkey.bracket hc

theorem Ident.zero {key : List UInt8} (hkey : Ident key) : 0 ∉ key := fun h0 =>
  (hkey.passes 0 h0).1 rfl

/-- A key in dot notation, with or without the dot. -/
theorem jsonPath_ident {key q : List UInt8} (hkey : Ident key) (hq : 0 ∉ q)
    (hends : q = [] ∨ ∃ c t, q = c :: t ∧ endsIdent c = true) {w : List UInt8}
    (hw : w = key ∨ w = 0x2E :: key) :
    jsonPath h cur (w ++ q) =
      if key.length ≥ sizeofKeyBuf then .error (.err .overflow)
      else jsonObjGetN h cur key >>= fun out => jsonPath h out q := by
  obtain ⟨c, t, hcons, hc⟩ := hkey.start
  have hdot : skipDot (w ++ q) = key ++ q := by
    rcases hw with rfl | rfl
    · rw [hcons]
      refine skipDot_of_ne ?_ _
      rintro rfl
      revert hc
      decide
    · rw [List.cons_append, skipDot, if_pos rfl]
  have hzero : 0 ∉ w := by
    rcases hw with rfl | rfl
    · exact hkey.zero
    · exact List.not_mem_cons_of_ne_of_not_mem (by decide) hkey.zero
  have hlen : 0 < w.length := by
    rcases hw with rfl | rfl
    · rw [hcons]
      exact Nat.succ_pos _
    · exact Nat.succ_pos _
  have hround : ∀ {x : Scan JsonPtr}, pathPart h cur (key ++ (q ++ [0])) =
      x >>= (fun out => .ok (out, q ++ [0])) →
      jsonPath h cur (w ++ q) = x >>= fun out => jsonPath h out q := by
    intro x hpart
    apply jsonPath_step (not_mem_append hzero hq) _ hq
    · rw [List.length_append]
      omega
    · rw [hdot, List.append_assoc, hpart]
    · exact List.append_ne_nil_of_left_ne_nil (List.ne_nil_of_length_pos hlen) _
  have hpart := @pathPart_ident _ h cur _ _ hkey (pathEnds_append hends)
  by_cases hmax : key.length ≥ sizeofKeyBuf
  · rw [if_pos hmax] at hpart ⊢
    exact hround (x := .error (.err .overflow)) hpart
  · rw [if_neg hmax] at hpart ⊢
    exact hround hpart

/-- **Dot and bracket notation agree** on every key that looks like an identifier and is
shorter than the buffer `key_buf`: at the start of a path, with or without the dot, and
behind a path that leads to the object, whatever tail comes next.  On longer keys the guard
of the dot notation reports an overflow, which bracket notation does not. -/
theorem jsonPath_dot (h : Heap D) (v : JsonPtr) {key : List UInt8} (hkey : IdentKey key) :
    (key.length < sizeofKeyBuf →
      jsonPath h v key = jsonPath h v (bracketKey key) ∧
      jsonPath h v (0x2E :: key) = jsonPath h v (bracketKey key) ∧
      ∀ root p q, 0 ∉ p → 0 ∉ q → (q = [] ∨ ∃ c t, q = c :: t ∧ (c = 0x2E ∨ c = 0x5B)) →
        jsonPath h root p = .ok v →
        jsonPath h v (key ++ q) = jsonPath h v (bracketKey key ++ q) ∧
        jsonPath h root (p ++ (0x2E :: key ++ q)) = jsonPath h root (p ++ (bracketKey key ++ q))) ∧
    (sizeofKeyBuf ≤ key.length →
      ∀ root p q, 0 ∉ p → 0 ∉ q → (q = [] ∨ ∃ c t, q = c :: t ∧ (c = 0x2E ∨ c = 0x5B)) →
        jsonPath h root p = .ok v →
        jsonPath h v (key ++ q) = .error (.err .overflow) ∧
        jsonPath h root (p ++ (0x2E :: key ++ q)) = .error (.err .overflow)) := by
  have hident := hkey.ident
  have hpasses : Passes isQuote key := passes_isQuote hkey.quote hkey.zero
  -- the three notations, in front of a tail
  have hforms : ∀ q, 0 ∉ q → (q = [] ∨ ∃ c t, q = c :: t ∧ (c = 0x2E ∨ c = 0x5B)) →
      ∀ w, w = key ∨ w = 0x2E :: key → jsonPath h v (w ++ q) =
        if key.length ≥ sizeofKeyBuf then .error (.err .overflow)
        else jsonPath h v (bracketKey key ++ q) := by
    intro q hq hends w hw
    have hends' : q = [] ∨ ∃ c t, q = c :: t ∧ endsIdent c = true := by
      apply hends.imp id
      rintro ⟨c, t, rfl, hc⟩
      exact ⟨c, t, rfl, decide_eq_true hc⟩
    rw [jsonPath_ident hident hq hends' hw, jsonPath_key hpasses hq]
  -- and behind a path
  have hbehind : ∀ root p q, 0 ∉ p → 0 ∉ q → jsonPath h root p = .ok v → ∀ w c t,
      w = c :: t → (c = 0x2E ∨ c = 0x5B) → 0 ∉ w →
      jsonPath h root (p ++ (w ++ q)) = jsonPath h v (w ++ q) := by
    intro root p q hp hq hok w c t hw hc hzero
    apply jsonPath_prefix (not_mem_append hzero hq) _ le_rfl hp hok
    exact .inr ⟨c, t ++ q, by rw [hw, List.cons_append], decide_eq_true hc⟩
  have hdotzero : 0 ∉ (0x2E :: key : List UInt8) :=
    List.not_mem_cons_of_ne_of_not_mem (by decide) hkey.zero
  constructor
  · intro hlen
    have hshort : ¬ key.length ≥ sizeofKeyBuf := not_le.mpr hlen
    simp only [if_neg hshort] at hforms
    have hnil := hforms [] List.not_mem_nil (.inl rfl)
    simp only [List.append_nil] at hnil
    refine ⟨hnil _ (.inl rfl), hnil _ (.inr rfl), ?_⟩
    intro root p q hp hq hends hok
    refine ⟨hforms q hq hends _ (.inl rfl), ?_⟩
    rw [hbehind root p q hp hq hok _ _ _ rfl (.inl rfl) hdotzero, hforms q hq hends _ (.inr rfl),
      hbehind root p q hp hq hok (bracketKey key) _ _ rfl (.inr rfl) (not_mem_bracketKey hkey.zero)]
  · intro hlen
    simp only [if_pos hlen] at hforms
    intro root p q hp hq hends hok
    refine ⟨hforms q hq hends _ (.inl rfl), ?_⟩
    rw [hbehind root p q hp hq hok _ _ _ rfl (.inl rfl) hdotzero, hforms q hq hends _ (.inr rfl)]

theorem identKey_replicate {n : ℕ} (hn : 0 < n) : IdentKey (List.replicate n 0x61) := by
  have hmem : ∀ c : UInt8, c ≠ 0x61 → c ∉ List.replicate n (0x61 : UInt8) := fun c hc hin =>
    hc (List.eq_of_mem_replicate hin)
  obtain ⟨m, rfl⟩ : ∃ m, n = m + 1 := ⟨n - 1, by omega⟩
  exact ⟨⟨0x61, _, List.replicate_succ, by decide⟩, hmem _ (by decide), hmem _ (by decide),
    hmem _ (by decide), hmem _ (by decide)⟩

/-- The member `a` of an object that has it. -/
theorem jsonPath_dot_short :
    let o : JsonObj := ⟨[⟨⟨[0x61], jsonFnv1a [0x61]⟩, 1⟩], none, 4, false⟩
    let h : Heap Unit := ⟨fun p => if p = 0 then .object o else .null, 2⟩
    jsonPath h 0 [0x61] = jsonPath h 0 [0x5B, 0x22, 0x61, 0x22, 0x5D] :=
  ((jsonPath_dot _ 0 (identKey_replicate (n := 1) (by decide))).1 (by decide)).1

/-- An object with a key of 512 letters: bracket notation finds the value, dot notation does
not. -/
theorem jsonPath_dot_long :
    ¬ ∀ (h : Heap Unit) (v : JsonPtr) (key : List UInt8), IdentKey key →
      jsonPath h v key = jsonPath h v (bracketKey key) := by
  intro hall
  have hutf8 : ∀ n, IsUtf8 (List.replicate n (0x61 : UInt8)) := by
    intro n
    induction n with
    | zero => exact isUtf8_nil
    | succ n ih => exact (@IsUtf8.encode_append 0x61 (by decide) _).mpr ih
  obtain ⟨key, hkey, hlen, hutf8⟩ : ∃ key, IdentKey key ∧ key.length = 512 ∧ IsUtf8 key :=
    ⟨_, identKey_replicate (by decide), List.length_replicate, hutf8 512⟩
  let o : JsonObj := ⟨[⟨⟨key, jsonFnv1a key⟩, 1⟩], none, 4, false⟩
  let h : Heap Unit := ⟨fun p => if p = 0 then .object o else .null, 2⟩
  have hdot : jsonPath h 0 key = .error (.err .overflow) := by
    have hident := @jsonPath_ident _ h 0 _ _ hkey.ident List.not_mem_nil (.inl rfl) _ (.inl rfl)
    rwa [List.append_nil, if_pos (by rw [hlen, sizeofKeyBuf])] at hident
  have hbracket : jsonPath h 0 (bracketKey key) = .ok 1 := by
    have hget : jsonObjGetN h 0 key = .ok 1 := by
      rw [jsonObjGetN_unsorted (o := o) rfl _ rfl (by rw [hlen]; decide), firstPair,
        List.find?_cons_of_pos (by exact decide_eq_true rfl)]
      · rfl
      · intro pr hpr
        rw [List.mem_singleton.mp hpr]
        exact ⟨rfl, hutf8, by show key.length ≤ _; rw [hlen]; decide⟩
    have hpath := @jsonPath_key _ h 0 _ _ (passes_isQuote hkey.quote hkey.zero) List.not_mem_nil
    rw [List.append_nil, hget] at hpath
    exact hpath
  have hsame := hall h 0 key hkey
  rw [hdot, hbracket] at hsame
  cases hsame

end SJson
