/-
# The language of `json_parse`

The grammar of RFC 8259, over positions of a text: `Derives src phrase p q` says that
the bytes from `p` to `q` form the phrase.  A phrase carries what it stands for, so a
derivation is also the meaning of its text; the tokens are those of the lexer.

The reference parser accepts exactly the texts of the grammar whose trees respect the
limits on nesting, container length and number of values (`refParse_iff`), so this is
what `json_parse` accepts (`jsonParse_language`).
-/
import SJson.ParserRefine

namespace SJson

open ErrState

variable {D : Type}

/-! ## Phrases -/

/-- White space from `p` to `q`. -/
inductive Ws (src : List UInt8) : ℕ → ℕ → Prop
  | nil (p : ℕ) : Ws src p p
  | cons {p q : ℕ} {c : UInt8} (hc : src[p]? = some c) (hws : isWs c = true)
      (t : Ws src (p + 1) q) : Ws src p q

/-- The literal starts at `p`. -/
def LiteralAt (src : List UInt8) (p : ℕ) (lit : List UInt8) : Prop :=
  (src.drop p).take lit.length = lit

/-- A phrase of the grammar and what it stands for. -/
inductive Phrase (D : Type) where
  /-- A value. -/
  | value (j : Json D)
  /-- The inside of an array that is not empty, with the closing bracket. -/
  | items (items : List (Json D))
  /-- The inside of an object that is not empty, with the closing brace. -/
  | pairs (pairs : List (List UInt8 × Json D))

variable [CDouble D]

/-- The bytes from `p` to `q` form the phrase. -/
inductive Derives (src : List UInt8) : Phrase D → ℕ → ℕ → Prop
  | litNull {p : ℕ} (h : LiteralAt src p (0x6E :: litUll)) : Derives src (.value .null) p (p + 4)
  | litTrue {p : ℕ} (h : LiteralAt src p (0x74 :: litRue)) :
      Derives src (.value (.bool true)) p (p + 4)
  | litFalse {p : ℕ} (h : LiteralAt src p (0x66 :: litAlse)) :
      Derives src (.value (.bool false)) p (p + 5)
  | string {p q : ℕ} {out : List UInt8} (hquote : src[p]? = some 0x22)
      (h : StringAt src (p + 1) out q) : Derives src (.value (.str out)) p q
  | number {p q : ℕ} {n : JsonNode D} (h : numberToken src p = .ok (n, q)) :
      Derives src (.value n.toJson) p q
  | arrNil {p q : ℕ} (hopen : src[p]? = some 0x5B) (hws : Ws src (p + 1) q)
      (hclose : src[q]? = some 0x5D) : Derives src (.value (.arr [])) p (q + 1)
  | arr {p q r : ℕ} {items : List (Json D)} (hopen : src[p]? = some 0x5B)
      (hws : Ws src (p + 1) q) (h : Derives src (.items items) q r) :
      Derives src (.value (.arr items)) p r
  | objNil {p q : ℕ} (hopen : src[p]? = some 0x7B) (hws : Ws src (p + 1) q)
      (hclose : src[q]? = some 0x7D) : Derives src (.value (.obj [])) p (q + 1)
  | obj {p q r : ℕ} {pairs : List (List UInt8 × Json D)} (hopen : src[p]? = some 0x7B)
      (hws : Ws src (p + 1) q) (h : Derives src (.pairs pairs) q r) :
      Derives src (.value (.obj pairs)) p r
  | itemsLast {p q r : ℕ} {j : Json D} (h : Derives src (.value j) p q) (hws : Ws src q r)
      (hclose : src[r]? = some 0x5D) : Derives src (.items [j]) p (r + 1)
  | itemsCons {p q r t u : ℕ} {j : Json D} {items : List (Json D)}
      (h : Derives src (.value j) p q) (hws : Ws src q r) (hcomma : src[r]? = some 0x2C)
      (hws' : Ws src (r + 1) t) (h' : Derives src (.items items) t u) :
      Derives src (.items (j :: items)) p u
  | pairsLast {p q r t u v : ℕ} {key : List UInt8} {j : Json D} (hquote : src[p]? = some 0x22)
      (hkey : StringAt src (p + 1) key q) (hws : Ws src q r) (hcolon : src[r]? = some 0x3A)
      (hws' : Ws src (r + 1) t) (h : Derives src (.value j) t u) (hws2 : Ws src u v)
      (hclose : src[v]? = some 0x7D) : Derives src (.pairs [(key, j)]) p (v + 1)
  | pairsCons {p q r t u v w x : ℕ} {key : List UInt8} {j : Json D}
      {pairs : List (List UInt8 × Json D)} (hquote : src[p]? = some 0x22)
      (hkey : StringAt src (p + 1) key q) (hws : Ws src q r) (hcolon : src[r]? = some 0x3A)
      (hws' : Ws src (r + 1) t) (h : Derives src (.value j) t u) (hws2 : Ws src u v)
      (hcomma : src[v]? = some 0x2C) (hws3 : Ws src (v + 1) w)
      (h' : Derives src (.pairs pairs) w x) : Derives src (.pairs ((key, j) :: pairs)) p x

/-- `JSON-text = ws value ws`. -/
def JsonText (src : List UInt8) (j : Json D) : Prop :=
  ∃ p q, Ws src 0 p ∧ Derives src (.value j) p q ∧ Ws src q src.length

/-- The tree respects the limits of the parser. -/
structure Json.InLimits (j : Json D) : Prop where
  nesting : j.nesting ≤ jsonMaxDepth - 1
  width : j.width ≤ jsonMaxArrayLen
  nodes : j.nodes ≤ jsonMaxNodes

/-! ## White space and tokens -/

theorem Ws.wsEnd_eq {src : List UInt8} {p q : ℕ} (h : Ws src p q) :
    wsEnd src p = wsEnd src q := by
  induction h with
  | nil p => rfl
  | cons hc hws _ ih => rw [wsEnd_of_ws hc hws, ih]

/-- White space that cannot be extended. -/
theorem Ws.wsEnd_of_not_ws {src : List UInt8} {p q : ℕ} {c : UInt8} (h : Ws src p q)
    (hc : src[q]? = some c) (hws : isWs c = false) : wsEnd src p = q := by
  rw [h.wsEnd_eq, SJson.wsEnd_of_not_ws hc hws]

theorem ws_wsEnd (src : List UInt8) : ∀ p : ℕ, Ws src p (wsEnd src p) := by
  suffices h : ∀ n p, src.length - p = n → Ws src p (wsEnd src p) from fun p => h _ p rfl
  intro n
  induction n with
  | zero =>
    intro p hn
    rw [wsEnd_of_ge (by omega)]
    exact .nil p
  | succ n ih =>
    intro p hn
    have hp : p < src.length := by omega
    have hc : src[p]? = some src[p] := List.getElem?_eq_getElem hp
    cases hws : isWs src[p] with
    | true =>
      rw [wsEnd_of_ws hc hws]
      exact .cons hc hws (ih (p + 1) (by omega))
    | false =>
      rw [wsEnd_of_not_ws hc hws]
      exact .nil p

theorem wsEnd_idem (src : List UInt8) (p : ℕ) : wsEnd src (wsEnd src p) = wsEnd src p :=
  (ws_wsEnd src p).wsEnd_eq.symm

theorem literalAt_cons {src lit : List UInt8} {p : ℕ} {c : UInt8} :
    LiteralAt src p (c :: lit) ↔ src[p]? = some c ∧ LiteralAt src (p + 1) lit := by
  unfold LiteralAt
  by_cases hp : p < src.length
  · rw [List.drop_eq_getElem_cons hp, List.length_cons, List.take_succ_cons, List.cons.injEq,
      List.getElem?_eq_getElem hp, Option.some.injEq]
  · simp [List.drop_of_length_le (not_lt.mp hp), List.getElem?_eq_none (not_lt.mp hp)]

theorem lexExpectLiteral_ok {src lit : List UInt8} {p q : ℕ} (hp : p ≤ src.length) :
    lexExpectLiteral src p lit = .ok q ↔ LiteralAt src p lit ∧ q = p + lit.length := by
  rw [lexExpectLiteral_eq hp, LiteralAt]
  split_ifs with h
  · simp [h, eq_comm]
  · simp [h]

theorem LiteralAt.le {src lit : List UInt8} {p : ℕ} (h : LiteralAt src p lit) (hlit : lit ≠ []) :
    p + lit.length ≤ src.length := by
  have hlen := congrArg List.length h
  rw [List.length_take, List.length_drop] at hlen
  have := List.length_pos_iff.mpr hlit
  omega

theorem stringToken_ok {src : List UInt8} {p q : ℕ} {key : JsonStr} (hp : p ≤ src.length) :
    stringToken src p = .ok (key, q) ↔
      StringAt src p key.data q ∧ key.hash = jsonFnv1a key.data := by
  rcases stringToken_cases hp with ⟨e, herr, -, hno⟩ | ⟨out, r, hat, hok⟩
  · rw [herr]
    exact ⟨fun h => by simp at h, fun h => absurd h.1 (hno _ _)⟩
  · rw [hok]
    constructor
    · intro h
      obtain ⟨rfl, rfl⟩ : (⟨out, jsonFnv1a out⟩ : JsonStr) = key ∧ r = q := by simpa using h
      exact ⟨hat, rfl⟩
    · rintro ⟨hat', hhash⟩
      obtain ⟨rfl, rfl⟩ := hat.unique hat'
      rw [← hhash]

theorem StringAt.token {src out : List UInt8} {p q : ℕ} (h : StringAt src p out q) :
    stringToken src p = .ok (⟨out, jsonFnv1a out⟩, q) := by
  have hp := h.pos
  exact (stringToken_ok (by omega)).mpr ⟨h, rfl⟩

/-- A number token is a scanned number, and is stored as one. -/
theorem numberToken_ok {src : List UInt8} {p q : ℕ} {n : JsonNode D}
    (h : numberToken src p = .ok (n, q)) :
    n.IsNumber ∧ ∃ t, scanNumber src p = .ok t ∧ q = t.scan.pos := by
  obtain ⟨t, hscan, h⟩ := scan_bind_eq_ok.mp h
  suffices hn : n.IsNumber ∧ t.scan.pos = q from ⟨hn.1, t, hscan, hn.2.symm⟩
  by_cases hfloat : t.isFloat = true
  · rw [if_pos hfloat] at h
    cases hfast : (fastFloat t : Option D) with
    | some f =>
      rw [hfast] at h
      cases h
      exact ⟨trivial, rfl⟩
    | none =>
      rw [hfast] at h
      obtain ⟨token, -, h⟩ := scan_bind_eq_ok.mp h
      obtain ⟨node, hslow, h⟩ := scan_bind_eq_ok.mp h
      cases h
      rcases slowFloat_cases (D := D) token with ⟨e, herr, -⟩ | ⟨f, hf⟩
      · rw [herr] at hslow
        cases hslow
      · rw [hf] at hslow
        cases hslow
        exact ⟨trivial, rfl⟩
  · rw [if_neg hfloat] at h
    obtain ⟨i, -, h⟩ := scan_bind_eq_ok.mp h
    cases h
    exact ⟨trivial, rfl⟩

theorem numberToken_pos {src : List UInt8} {p q : ℕ} {n : JsonNode D}
    (h : numberToken src p = .ok (n, q)) : p < q ∧ q ≤ src.length := by
  obtain ⟨-, t, hscan, rfl⟩ := numberToken_ok h
  rcases scanNumber_ok src p with ⟨e, herr, -⟩ | ⟨t', hok, hlt, hle⟩
  · rw [herr] at hscan
    cases hscan
  · rw [hok] at hscan
    cases hscan
    exact ⟨hlt, hle⟩

omit [CDouble D] in
theorem intPart_head {src : List UInt8} {n n' : NumScan} (h : intPart src n = .ok n') :
    src[n.pos]?.any isDigit = true := by
  obtain ⟨c, hc, h⟩ := scan_bind_eq_ok.mp h
  have hget : src[n.pos]? = some c := by
    unfold rd at hc
    split at hc
    · cases hc
      assumption
    · cases hc
  rw [hget, Option.any_some]
  by_cases h0 : c = 0x30
  · rw [h0]
    rfl
  · rw [if_neg h0] at h
    by_cases hd : isDigit c = true
    · exact hd
    · rw [if_neg hd] at h
      cases h

/-- A number token starts with a digit or a minus sign. -/
theorem numberToken_head {src : List UInt8} {p q : ℕ} {n : JsonNode D}
    (h : numberToken src p = .ok (n, q)) : ∃ c, src[p]? = some c ∧ startsNumber c = true := by
  obtain ⟨-, t, hscan, -⟩ := numberToken_ok h
  rw [scanNumber, scan_bind_ok (byteAt_eq ..)] at hscan
  cases hc : src[p]? with
  | none =>
    rw [hc] at hscan
    have hp := List.getElem?_eq_none_iff.mp hc
    rw [if_pos (by simpa using hp)] at hscan
    cases hscan
  | some c =>
    refine ⟨c, rfl, ?_⟩
    by_cases hminus : c = 0x2D
    · rw [hminus]
      rfl
    · have hany : (some c : Option UInt8).any (List.contains [0x2D]) = false := by simp [hminus]
      have hp := (List.getElem?_eq_some_iff.mp hc).1
      rw [hc, hany] at hscan
      rw [if_neg (by simpa using hp)] at hscan
      obtain ⟨n, hint, -⟩ := scan_bind_eq_ok.mp hscan
      have hd := intPart_head hint
      rw [show (if false = true then p + 1 else p) = p from rfl, hc] at hd
      unfold startsNumber
      simpa [hminus] using hd

omit [CDouble D] in
/-- A scalar counts as one value and has no entries. -/
theorem JsonNode.toJson_measures {n : JsonNode D} (h : ∀ a, n ≠ .array a)
    (h' : ∀ o, n ≠ .object o) :
    n.toJson.nodes = 1 ∧ n.toJson.nesting = 0 ∧ n.toJson.width = 0 := by
  cases n with
  | array a => exact absurd rfl (h a)
  | object o => exact absurd rfl (h' o)
  | _ => exact ⟨rfl, rfl, rfl⟩

/-- The tokens of scalars are phrases of the grammar. -/
theorem scalarToken_sound {src : List UInt8} {p q : ℕ} {c : UInt8} {n : JsonNode D}
    (hc : src[p]? = some c) (h : scalarToken src p c = .ok (n, q)) :
    Derives src (.value n.toJson) p q ∧ (∀ a, n ≠ .array a) ∧ ∀ o, n ≠ .object o := by
  have hp := (List.getElem?_eq_some_iff.mp hc).1
  have hlit : ∀ {lit : List UInt8} {m : JsonNode D}, (do
      let pos ← lexExpectLiteral src (p + 1) lit
      return (m, pos)) = (.ok (n, q) : Scan (JsonNode D × ℕ)) →
      n = m ∧ LiteralAt src p (c :: lit) ∧ q = p + 1 + lit.length := by
    intro lit m h
    obtain ⟨pos, hlit, h⟩ := scan_bind_eq_ok.mp h
    cases h
    obtain ⟨hat, hq⟩ := (lexExpectLiteral_ok hp).mp hlit
    exact ⟨rfl, literalAt_cons.mpr ⟨hc, hat⟩, hq⟩
  unfold scalarToken at h
  split_ifs at h with hn ht hf hquote hnum
  · obtain ⟨rfl, hat, rfl⟩ := hlit h
    exact ⟨.litNull (hn ▸ hat), by simp, by simp⟩
  · obtain ⟨rfl, hat, rfl⟩ := hlit h
    exact ⟨.litTrue (ht ▸ hat), by simp, by simp⟩
  · obtain ⟨rfl, hat, rfl⟩ := hlit h
    exact ⟨.litFalse (hf ▸ hat), by simp, by simp⟩
  · obtain ⟨⟨key, pos⟩, hstr, h⟩ := scan_bind_eq_ok.mp h
    cases h
    exact ⟨.string (hquote ▸ hc) ((stringToken_ok hp).mp hstr).1, by simp, by simp⟩
  · have hisnum := (numberToken_ok h).1
    exact ⟨.number h, fun a ha => by simp [ha, JsonNode.IsNumber] at hisnum,
      fun o ho => by simp [ho, JsonNode.IsNumber] at hisnum⟩

/-! ## Soundness -/

/-- Values that are read are phrases within the limits. -/
def ValueSound (D : Type) [CDouble D] (src : List UInt8) (fuel : ℕ) : Prop :=
  ∀ (depth nodes pos : ℕ) (j : Json D) (q n : ℕ), depth ≤ jsonMaxDepth →
    refValue src fuel depth nodes pos = .ok (j, q, n) →
    Derives src (.value j) (wsEnd src pos) q ∧ n = nodes + j.nodes ∧ n ≤ jsonMaxNodes ∧
      depth + j.nesting ≤ jsonMaxDepth ∧ j.width ≤ jsonMaxArrayLen

/-- The rest of an array that is read. -/
def ItemsSound (D : Type) [CDouble D] (src : List UInt8) (fuel : ℕ) : Prop :=
  ∀ (depth nodes pos : ℕ) (acc : List (Json D)) (j : Json D) (q n : ℕ), depth < jsonMaxDepth →
    refItems src fuel depth nodes pos acc = .ok (j, q, n) →
    ∃ items, j = .arr (acc ++ items) ∧ Derives src (.items items) (wsEnd src pos) q ∧
      n = nodes + Json.nodesArr items ∧ n ≤ jsonMaxNodes ∧
      depth + 1 + Json.nestingArr items ≤ jsonMaxDepth ∧
      acc.length + items.length ≤ jsonMaxArrayLen ∧ Json.widthArr items ≤ jsonMaxArrayLen

/-- The rest of an object that is read. -/
def PairsSound (D : Type) [CDouble D] (src : List UInt8) (fuel : ℕ) : Prop :=
  ∀ (depth nodes pos : ℕ) (acc : List (List UInt8 × Json D)) (j : Json D) (q n : ℕ),
    depth < jsonMaxDepth → refPairs src fuel depth nodes pos acc = .ok (j, q, n) →
    ∃ pairs, j = .obj (acc ++ pairs) ∧ Derives src (.pairs pairs) (wsEnd src pos) q ∧
      n = nodes + Json.nodesObj pairs ∧ n ≤ jsonMaxNodes ∧
      depth + 1 + Json.nestingObj pairs ≤ jsonMaxDepth ∧
      acc.length + pairs.length ≤ jsonMaxArrayLen ∧ Json.widthObj pairs ≤ jsonMaxArrayLen

theorem valueSound_succ {src : List UInt8} {fuel : ℕ} (hitems : ItemsSound D src fuel)
    (hpairs : PairsSound D src fuel) : ValueSound D src (fuel + 1) := by
  intro depth nodes pos j q n hdepth h
  rw [refValue] at h
  cases hpeek : peek src pos with
  | none => rw [hpeek] at h; cases h
  | some c =>
  rw [hpeek] at h
  simp only at h
  have hc : src[wsEnd src pos]? = some c := hpeek
  have hws := ws_wsEnd src (wsEnd src pos + 1)
  split_ifs at h with hmax harr hd hclose hobj hd' hclose'
  · cases h
    refine ⟨.arrNil (harr ▸ hc) hws hclose, rfl, ?_, ?_, Nat.zero_le _⟩
    · show nodes + 1 ≤ jsonMaxNodes
      omega
    · show depth + 1 ≤ jsonMaxDepth
      omega
  · obtain ⟨items, rfl, hder, hn, hle, hnest, hlen, hwidth⟩ :=
      hitems depth _ _ [] j q n (not_le.mp hd) h
    rw [wsEnd_idem] at hder
    refine ⟨.arr (harr ▸ hc) hws hder, ?_, hle, ?_, ?_⟩
    · rw [List.nil_append, Json.nodes, hn]
      omega
    · rw [List.nil_append, Json.nesting]
      omega
    · rw [List.nil_append, Json.width]
      exact max_le (by simpa using hlen) hwidth
  · cases h
    refine ⟨.objNil (hobj ▸ hc) hws hclose', rfl, ?_, ?_, Nat.zero_le _⟩
    · show nodes + 1 ≤ jsonMaxNodes
      omega
    · show depth + 1 ≤ jsonMaxDepth
      omega
  · obtain ⟨pairs, rfl, hder, hn, hle, hnest, hlen, hwidth⟩ :=
      hpairs depth _ _ [] j q n (not_le.mp hd') h
    rw [wsEnd_idem] at hder
    refine ⟨.obj (hobj ▸ hc) hws hder, ?_, hle, ?_, ?_⟩
    · rw [List.nil_append, Json.nodes, hn]
      omega
    · rw [List.nil_append, Json.nesting]
      omega
    · rw [List.nil_append, Json.width]
      exact max_le (by simpa using hlen) hwidth
  · obtain ⟨⟨m, r⟩, htok, h⟩ := scan_bind_eq_ok.mp h
    cases h
    obtain ⟨hder, harr, hobj⟩ := scalarToken_sound hc htok
    obtain ⟨hnodes, hnest, hwidth⟩ := JsonNode.toJson_measures harr hobj
    refine ⟨hder, ?_, Nat.lt_of_not_le hmax, ?_, ?_⟩
    · rw [hnodes]
    · rw [hnest]
      exact hdepth
    · rw [hwidth]
      exact Nat.zero_le _

theorem itemsSound_succ {src : List UInt8} {fuel : ℕ} (hvalue : ValueSound D src fuel)
    (hitems : ItemsSound D src fuel) : ItemsSound D src (fuel + 1) := by
  intro depth nodes pos acc j q n hdepth h
  rw [refItems] at h
  obtain ⟨⟨v, r, m⟩, hv, h⟩ := scan_bind_eq_ok.mp h
  obtain ⟨hder, hm, hle, hnest, hwidth⟩ := hvalue (depth + 1) _ _ v r m hdepth hv
  simp only at h
  by_cases hfull : acc.length ≥ jsonMaxArrayLen
  · rw [if_pos hfull] at h
    cases h
  rw [if_neg hfull] at h
  have hws := ws_wsEnd src r
  cases hpeek : peek src r with
  | none => rw [hpeek] at h; cases h
  | some c =>
  rw [hpeek] at h
  simp only at h
  have hc : src[wsEnd src r]? = some c := hpeek
  split_ifs at h with hclose hcomma
  · cases h
    refine ⟨[v], rfl, .itemsLast hder hws (hclose ▸ hc), ?_, hle, ?_, ?_, ?_⟩
    · simp only [Json.nodesArr, hm, Nat.add_zero]
    · simpa [Json.nestingArr] using hnest
    · simpa using hfull
    · simpa [Json.widthArr] using hwidth
  · obtain ⟨items, rfl, hder', hn, hle', hnest', hlen, hwidth'⟩ :=
      hitems depth _ _ _ j q n hdepth h
    refine ⟨v :: items, by simp, .itemsCons hder hws (hcomma ▸ hc) (ws_wsEnd ..) hder', ?_, hle',
      ?_, ?_, ?_⟩
    · rw [Json.nodesArr, hn, hm, Nat.add_assoc]
    · rw [Json.nestingArr, ← max_add_add_left]
      exact max_le hnest hnest'
    · rw [List.length_append, List.length_singleton] at hlen
      rw [List.length_cons]
      omega
    · rw [Json.widthArr]
      exact max_le hwidth hwidth'

theorem pairsSound_succ {src : List UInt8} {fuel : ℕ} (hvalue : ValueSound D src fuel)
    (hpairs : PairsSound D src fuel) : PairsSound D src (fuel + 1) := by
  intro depth nodes pos acc j q n hdepth h
  rw [refPairs] at h
  cases hpeek0 : peek src pos with
  | none => rw [hpeek0] at h; cases h
  | some c0 =>
  rw [hpeek0] at h
  simp only at h
  have hc0 : src[wsEnd src pos]? = some c0 := hpeek0
  by_cases hquote : c0 = 0x22
  swap
  · rw [if_neg hquote] at h
    cases h
  rw [if_pos hquote] at h
  obtain ⟨⟨key, k⟩, hkey, h⟩ := scan_bind_eq_ok.mp h
  have hat := ((stringToken_ok (peek_lt hpeek0).2).mp hkey).1
  simp only at h
  cases hpeek1 : peek src k with
  | none => rw [hpeek1] at h; cases h
  | some c1 =>
  rw [hpeek1] at h
  simp only at h
  have hc1 : src[wsEnd src k]? = some c1 := hpeek1
  by_cases hcolon : c1 ≠ 0x3A
  · rw [if_pos hcolon] at h
    cases h
  rw [if_neg hcolon] at h
  obtain ⟨⟨v, r, m⟩, hv, h⟩ := scan_bind_eq_ok.mp h
  obtain ⟨hder, hm, hle, hnest, hwidth⟩ := hvalue (depth + 1) _ _ v r m hdepth hv
  simp only at h
  by_cases hfull : acc.length ≥ jsonMaxArrayLen
  · rw [if_pos hfull] at h
    cases h
  rw [if_neg hfull] at h
  have hws := ws_wsEnd src r
  cases hpeek : peek src r with
  | none => rw [hpeek] at h; cases h
  | some c =>
  rw [hpeek] at h
  simp only at h
  have hc : src[wsEnd src r]? = some c := hpeek
  have hcolon' : src[wsEnd src k]? = some 0x3A := not_not.mp hcolon ▸ hc1
  split_ifs at h with hclose hcomma
  · cases h
    refine ⟨[(key.data, v)], rfl, .pairsLast (hquote ▸ hc0) hat (ws_wsEnd ..) hcolon' (ws_wsEnd ..)
      hder hws (hclose ▸ hc), ?_, hle, ?_, ?_, ?_⟩
    · simp only [Json.nodesObj, hm, Nat.add_zero]
    · simpa [Json.nestingObj] using hnest
    · simpa using hfull
    · simpa [Json.widthObj] using hwidth
  · obtain ⟨pairs, rfl, hder', hn, hle', hnest', hlen, hwidth'⟩ :=
      hpairs depth _ _ _ j q n hdepth h
    refine ⟨(key.data, v) :: pairs, by simp, .pairsCons (hquote ▸ hc0) hat (ws_wsEnd ..) hcolon'
      (ws_wsEnd ..) hder hws (hcomma ▸ hc) (ws_wsEnd ..) hder', ?_, hle', ?_, ?_, ?_⟩
    · rw [Json.nodesObj, hn, hm, Nat.add_assoc]
    · rw [Json.nestingObj, ← max_add_add_left]
      exact max_le hnest hnest'
    · rw [List.length_append, List.length_singleton] at hlen
      rw [List.length_cons]
      omega
    · rw [Json.widthObj]
      exact max_le hwidth hwidth'

/-- What the reference parser reads are phrases within the limits. -/
theorem ref_sound (src : List UInt8) (fuel : ℕ) :
    ValueSound D src fuel ∧ ItemsSound D src fuel ∧ PairsSound D src fuel := by
  induction fuel with
  | zero =>
    refine ⟨?_, ?_, ?_⟩
    · intro _ _ _ _ _ _ _ h
      cases h
    · intro _ _ _ _ _ _ _ _ h
      cases h
    · intro _ _ _ _ _ _ _ _ h
      cases h
  | succ fuel ih =>
    exact ⟨valueSound_succ ih.2.1 ih.2.2, itemsSound_succ ih.1 ih.2.1, pairsSound_succ ih.1 ih.2.2⟩

/-! ## Completeness -/

/-- No phrase begins with white space or a closing bracket. -/
theorem Derives.head {src : List UInt8} {ph : Phrase D} {p q : ℕ} (h : Derives src ph p q) :
    ∃ c, src[p]? = some c ∧ isWs c = false ∧ c ≠ 0x5D ∧ c ≠ 0x7D := by
  induction h with
  | litNull h => exact ⟨_, (literalAt_cons.mp h).1, rfl, by decide, by decide⟩
  | litTrue h => exact ⟨_, (literalAt_cons.mp h).1, rfl, by decide, by decide⟩
  | litFalse h => exact ⟨_, (literalAt_cons.mp h).1, rfl, by decide, by decide⟩
  | string hquote => exact ⟨_, hquote, rfl, by decide, by decide⟩
  | number h =>
    obtain ⟨c, hc, hnum⟩ := numberToken_head h
    refine ⟨c, hc, ?_, ?_, ?_⟩
    · cases hws : isWs c with
      | false => rfl
      | true =>
        simp only [isWs, decide_eq_true_eq] at hws
        rcases hws with rfl | rfl | rfl | rfl <;> cases hnum
    · rintro rfl
      cases hnum
    · rintro rfl
      cases hnum
  | arrNil hopen => exact ⟨_, hopen, rfl, by decide, by decide⟩
  | arr hopen => exact ⟨_, hopen, rfl, by decide, by decide⟩
  | objNil hopen => exact ⟨_, hopen, rfl, by decide, by decide⟩
  | obj hopen => exact ⟨_, hopen, rfl, by decide, by decide⟩
  | itemsLast _ _ _ ih => exact ih
  | itemsCons _ _ _ _ _ ih => exact ih
  | pairsLast hquote => exact ⟨_, hquote, rfl, by decide, by decide⟩
  | pairsCons hquote => exact ⟨_, hquote, rfl, by decide, by decide⟩

omit [CDouble D] in
theorem Ws.le {src : List UInt8} {p q : ℕ} (h : Ws src p q) : p ≤ q := by
  induction h with
  | nil => rfl
  | cons _ _ _ ih => omega

theorem Derives.pos {src : List UInt8} {ph : Phrase D} {p q : ℕ} (h : Derives src ph p q) :
    p < q ∧ q ≤ src.length := by
  induction h with
  | litNull h => exact ⟨by omega, LiteralAt.le h (by simp)⟩
  | litTrue h => exact ⟨by omega, LiteralAt.le h (by simp)⟩
  | litFalse h => exact ⟨by omega, LiteralAt.le h (by simp)⟩
  | string _ h => exact ⟨by have := h.pos; omega, h.pos.2.1⟩
  | number h => exact numberToken_pos h
  | arrNil _ hws hclose =>
    have := hws.le
    exact ⟨by omega, (List.getElem?_eq_some_iff.mp hclose).1⟩
  | arr _ hws _ ih =>
    have := hws.le
    exact ⟨by omega, ih.2⟩
  | objNil _ hws hclose =>
    have := hws.le
    exact ⟨by omega, (List.getElem?_eq_some_iff.mp hclose).1⟩
  | obj _ hws _ ih =>
    have := hws.le
    exact ⟨by omega, ih.2⟩
  | itemsLast _ hws hclose ih =>
    have := hws.le
    exact ⟨by omega, (List.getElem?_eq_some_iff.mp hclose).1⟩
  | itemsCons _ hws _ hws' _ ih ih' =>
    have := hws.le
    have := hws'.le
    exact ⟨by omega, ih'.2⟩
  | pairsLast _ hkey hws _ hws' _ hws2 hclose ih =>
    have := hkey.pos
    have := hws.le
    have := hws'.le
    have := hws2.le
    exact ⟨by omega, (List.getElem?_eq_some_iff.mp hclose).1⟩
  | pairsCons _ hkey hws _ hws' _ hws2 _ hws3 _ ih ih' =>
    have := hkey.pos
    have := hws.le
    have := hws'.le
    have := hws2.le
    have := hws3.le
    exact ⟨by omega, ih'.2⟩

omit [CDouble D] in
/-- Behind white space, the reference parser sees the first byte of what follows. -/
theorem peek_of_ws {src : List UInt8} {p q : ℕ} {c : UInt8} (hws : Ws src p q)
    (hc : src[q]? = some c) (hnot : isWs c = false) : wsEnd src p = q ∧ peek src p = some c := by
  have heq := hws.wsEnd_of_not_ws hc hnot
  exact ⟨heq, by rw [peek, heq, hc]⟩

/-! ### Steps of the reference parser -/

/-- What the reference parser does behind the bracket at `p`. -/
def refInner (src : List UInt8) (fuel depth nodes p : ℕ) (c : UInt8) : Scan (Json D × ℕ × ℕ) :=
  if c = 0x5B then
    if peek src (p + 1) = some 0x5D then .ok (.arr [], wsEnd src (p + 1) + 1, nodes + 1)
    else refItems src fuel depth (nodes + 1) (wsEnd src (p + 1)) []
  else
    if peek src (p + 1) = some 0x7D then .ok (.obj [], wsEnd src (p + 1) + 1, nodes + 1)
    else refPairs src fuel depth (nodes + 1) (wsEnd src (p + 1)) []

/-- A container is refused where it is opened, or is what stands in it. -/
theorem refValue_open {src : List UInt8} {pos p : ℕ} {c : UInt8} (hpos : wsEnd src pos = p)
    (hc : src[p]? = some c) (hbracket : c = 0x5B ∨ c = 0x7B) {nodes : ℕ}
    (hnodes : nodes < jsonMaxNodes) (fuel depth : ℕ) :
    refValue src (fuel + 1) depth nodes pos =
      if depth ≥ jsonMaxDepth then .error (.err .depthExceeded)
      else (refInner src fuel depth nodes p c : Scan (Json D × ℕ × ℕ)) := by
  have hpeek : peek src pos = some c := by rw [peek, hpos, hc]
  rw [refValue, hpeek]
  simp only
  rw [if_neg (not_le.mpr hnodes), hpos]
  rcases hbracket with rfl | rfl <;> rfl

/-- What follows an item. -/
theorem refItems_value {src : List UInt8} {fuel depth nodes pos q r n : ℕ} {c : UInt8}
    {acc : List (Json D)} {j : Json D}
    (h : refValue src fuel (depth + 1) nodes pos = .ok (j, q, n))
    (hlen : acc.length < jsonMaxArrayLen) (hws : Ws src q r) (hc : src[r]? = some c)
    (hnot : isWs c = false) :
    refItems src (fuel + 1) depth nodes pos acc =
      if c = 0x5D then .ok (.arr (acc ++ [j]), r + 1, n)
      else if c = 0x2C then refItems src fuel depth n (r + 1) (acc ++ [j])
      else .error (.err .invalidJson) := by
  obtain ⟨hend, hpeek⟩ := peek_of_ws hws hc hnot
  rw [refItems_succ, scan_bind_ok h, if_neg (not_le.mpr hlen), hpeek, Option.elim_some, hend]

/-- Behind a key and its colon, a value is read; what follows it is looked at then. -/
theorem refPairs_colon {src key : List UInt8} {depth nodes pos p q r : ℕ} (fuel : ℕ)
    (acc : List (List UInt8 × Json D)) (hpos : wsEnd src pos = p) (hquote : src[p]? = some 0x22)
    (hkey : StringAt src (p + 1) key q) (hws : Ws src q r) (hcolon : src[r]? = some 0x3A) :
    ∃ k, refPairs src (fuel + 1) depth nodes pos acc
        = (refValue src fuel (depth + 1) nodes (r + 1) >>= k) ∧
      ∀ j t u n c, acc.length < jsonMaxArrayLen → Ws src t u → src[u]? = some c →
        isWs c = false → k (j, t, n) =
          if c = 0x7D then .ok (.obj (acc ++ [(key, j)]), u + 1, n)
          else if c = 0x2C then refPairs src fuel depth n (u + 1) (acc ++ [(key, j)])
          else .error (.err .invalidJson) := by
  have hpeek : peek src pos = some 0x22 := by rw [peek, hpos, hquote]
  obtain ⟨hend, hpeek'⟩ := peek_of_ws hws hcolon rfl
  rw [refPairs_succ, hpeek, Option.elim_some, if_pos rfl, hpos, scan_bind_ok hkey.token, hpeek',
    Option.elim_some, if_neg (not_not.mpr rfl), hend]
  refine ⟨_, rfl, fun j t u n c hlen hws' hc hnot => ?_⟩
  obtain ⟨hend', hpeek''⟩ := peek_of_ws hws' hc hnot
  rw [if_neg (not_le.mpr hlen), hpeek'', Option.elim_some, hend']

/-! ### Phrases within the limits -/

/-- What the reference parser does with a phrase within the limits. -/
def Phrase.Read (src : List UInt8) (p q : ℕ) : Phrase D → Prop
  | .value j => ∀ fuel depth nodes pos, wsEnd src pos = p → 2 * (src.length - pos) < fuel →
      depth + j.nesting ≤ jsonMaxDepth → nodes + j.nodes ≤ jsonMaxNodes →
      j.width ≤ jsonMaxArrayLen →
      refValue src fuel depth nodes pos = .ok (j, q, nodes + j.nodes)
  | .items l => ∀ fuel depth nodes pos acc, wsEnd src pos = p →
      2 * (src.length - pos) + 1 < fuel → depth + 1 + Json.nestingArr l ≤ jsonMaxDepth →
      nodes + Json.nodesArr l ≤ jsonMaxNodes → acc.length + l.length ≤ jsonMaxArrayLen →
      Json.widthArr l ≤ jsonMaxArrayLen →
      refItems src fuel depth nodes pos acc
        = .ok (.arr (acc ++ l), q, nodes + Json.nodesArr l)
  | .pairs l => ∀ fuel depth nodes pos acc, wsEnd src pos = p →
      2 * (src.length - pos) + 1 < fuel → depth + 1 + Json.nestingObj l ≤ jsonMaxDepth →
      nodes + Json.nodesObj l ≤ jsonMaxNodes → acc.length + l.length ≤ jsonMaxArrayLen →
      Json.widthObj l ≤ jsonMaxArrayLen →
      refPairs src fuel depth nodes pos acc
        = .ok (.obj (acc ++ l), q, nodes + Json.nodesObj l)

theorem read_scalar {src : List UInt8} {p q : ℕ} {c : UInt8} {n : JsonNode D}
    (hc : src[p]? = some c) (harr : c ≠ 0x5B) (hobj : c ≠ 0x7B) (hn : n.toJson.nodes = 1)
    (h : scalarToken src p c = .ok (n, q)) : Phrase.Read src p q (.value n.toJson) := by
  intro fuel depth nodes pos hpos hfuel _ hmax _
  obtain ⟨fuel, rfl⟩ : ∃ k, fuel = k + 1 := ⟨fuel - 1, by omega⟩
  have hpeek : peek src pos = some c := by rw [peek, hpos, hc]
  rw [refValue, hpeek]
  simp only
  rw [if_neg (by omega), if_neg harr, if_neg hobj, hpos, scan_bind_ok h, hn]
  rfl

theorem read_literal {src lit : List UInt8} {p : ℕ} {c : UInt8} {n : JsonNode D}
    (h : LiteralAt src p (c :: lit)) (harr : c ≠ 0x5B) (hobj : c ≠ 0x7B) (hn : n.toJson.nodes = 1)
    (htok : scalarToken src p c = (do
      let pos ← lexExpectLiteral src (p + 1) lit
      return (n, pos))) : Phrase.Read src p (p + 1 + lit.length) (.value n.toJson) := by
  obtain ⟨hc, hat⟩ := literalAt_cons.mp h
  refine read_scalar hc harr hobj hn (htok.trans ?_)
  rw [scan_bind_ok ((lexExpectLiteral_ok (List.getElem?_eq_some_iff.mp hc).1).mpr ⟨hat, rfl⟩)]
  rfl

theorem read_string {src out : List UInt8} {p q : ℕ} (hquote : src[p]? = some 0x22)
    (h : StringAt src (p + 1) out q) : Phrase.Read src p q (.value (.str out) : Phrase D) := by
  have htok : scalarToken src p 0x22
      = (.ok (.string ⟨out, jsonFnv1a out⟩, q) : Scan (JsonNode D × ℕ)) := scan_bind_ok h.token
  exact read_scalar (n := .string ⟨out, jsonFnv1a out⟩) hquote (by decide) (by decide) rfl htok

theorem read_number {src : List UInt8} {p q : ℕ} {n : JsonNode D}
    (h : numberToken src p = .ok (n, q)) : Phrase.Read src p q (.value n.toJson) := by
  obtain ⟨c, hc, hnum⟩ := numberToken_head h
  have hne : ∀ b, startsNumber b = false → c ≠ b := fun b hb hcb => by
    rw [hcb, hb] at hnum
    cases hnum
  have htok : scalarToken src p c = .ok (n, q) := by
    unfold scalarToken
    rw [if_neg (hne _ rfl), if_neg (hne _ rfl), if_neg (hne _ rfl), if_neg (hne _ rfl),
      if_pos hnum, h]
  refine read_scalar hc (hne _ rfl) (hne _ rfl) ?_ htok
  have hisnum := (numberToken_ok h).1
  cases n with
  | integer i => rfl
  | float f => rfl
  | _ => exact absurd hisnum id

/-- Opening a container. -/
theorem read_open {src : List UInt8} {p q : ℕ} {c : UInt8} {j : Json D} (hc : src[p]? = some c)
    (hnest : 0 < j.nesting)
    (h : ∀ fuel depth nodes, 2 * (src.length - p) < fuel + 1 → depth + j.nesting ≤ jsonMaxDepth →
      nodes + j.nodes ≤ jsonMaxNodes → j.width ≤ jsonMaxArrayLen →
      refInner src fuel depth nodes p c = .ok (j, q, nodes + j.nodes))
    (hbracket : c = 0x5B ∨ c = 0x7B) : Phrase.Read src p q (.value j) := by
  intro fuel depth nodes pos hpos hfuel hdepth hmax hwidth
  have hle := le_wsEnd src pos
  have hp := (List.getElem?_eq_some_iff.mp hc).1
  have hnodes := j.nodes_pos
  obtain ⟨fuel, rfl⟩ : ∃ k, fuel = k + 1 := ⟨fuel - 1, by omega⟩
  rw [refValue_open hpos hc hbracket (by omega), if_neg (by omega)]
  exact h fuel depth nodes (by omega) hdepth hmax hwidth

/-- The reference parser reads every phrase within the limits. -/
theorem Derives.read {src : List UInt8} {ph : Phrase D} {p q : ℕ} (h : Derives src ph p q) :
    Phrase.Read src p q ph := by
  induction h with
  | litNull h => exact read_literal (n := .null) h (by decide) (by decide) rfl rfl
  | litTrue h => exact read_literal (n := .bool true) h (by decide) (by decide) rfl rfl
  | litFalse h => exact read_literal (n := .bool false) h (by decide) (by decide) rfl rfl
  | string hquote h => exact read_string hquote h
  | number h => exact read_number h
  | arrNil hopen hws hclose =>
    obtain ⟨hend, hpeek⟩ := peek_of_ws hws hclose rfl
    refine read_open hopen (Nat.succ_pos _) (fun fuel depth nodes _ _ _ _ => ?_) (.inl rfl)
    rw [refInner, if_pos rfl, if_pos hpeek, hend]
    rfl
  | objNil hopen hws hclose =>
    obtain ⟨hend, hpeek⟩ := peek_of_ws hws hclose rfl
    refine read_open hopen (Nat.succ_pos _) (fun fuel depth nodes _ _ _ _ => ?_) (.inr rfl)
    rw [refInner, if_neg (by decide), if_pos hpeek, hend]
    rfl
  | @arr p q r items hopen hws h ih =>
    obtain ⟨c, hc, hnot, hclose, -⟩ := h.head
    obtain ⟨hend, hpeek⟩ := peek_of_ws hws hc hnot
    have hle := hws.le
    have hq := h.pos
    refine read_open hopen (Nat.succ_pos _)
      (fun fuel depth nodes hfuel hdepth hmax hwidth => ?_) (.inl rfl)
    rw [Json.nesting] at hdepth
    rw [Json.nodes] at hmax ⊢
    rw [Json.width] at hwidth
    rw [refInner, if_pos rfl, if_neg (by simpa [hpeek] using hclose), hend,
      ih fuel depth (nodes + 1) q [] (by rw [← hend, wsEnd_idem]) (by omega) (by omega) (by omega)
        (by rw [List.length_nil]; omega) (by omega), List.nil_append]
    congr 3
    omega
  | @obj p q r pairs hopen hws h ih =>
    obtain ⟨c, hc, hnot, -, hclose⟩ := h.head
    obtain ⟨hend, hpeek⟩ := peek_of_ws hws hc hnot
    have hle := hws.le
    have hq := h.pos
    refine read_open hopen (Nat.succ_pos _)
      (fun fuel depth nodes hfuel hdepth hmax hwidth => ?_) (.inr rfl)
    rw [Json.nesting] at hdepth
    rw [Json.nodes] at hmax ⊢
    rw [Json.width] at hwidth
    rw [refInner, if_neg (by decide), if_neg (by simpa [hpeek] using hclose), hend,
      ih fuel depth (nodes + 1) q [] (by rw [← hend, wsEnd_idem]) (by omega) (by omega) (by omega)
        (by rw [List.length_nil]; omega) (by omega), List.nil_append]
    congr 3
    omega
  | @itemsLast p q r j h hws hclose ih =>
    intro fuel depth nodes pos acc hpos hfuel hdepth hmax hlen hwidth
    obtain ⟨fuel, rfl⟩ : ∃ k, fuel = k + 1 := ⟨fuel - 1, by omega⟩
    simp only [Json.nestingArr, Json.nodesArr, Json.widthArr, List.length_singleton] at *
    have hvalue := ih fuel (depth + 1) nodes pos hpos (by omega) (by omega) (by omega) (by omega)
    rw [refItems_value hvalue (by omega) hws hclose rfl, if_pos rfl]
    rfl
  | @itemsCons p q r t u j items h hws hcomma hws' h' ih ih' =>
    intro fuel depth nodes pos acc hpos hfuel hdepth hmax hlen hwidth
    obtain ⟨fuel, rfl⟩ : ∃ k, fuel = k + 1 := ⟨fuel - 1, by omega⟩
    obtain ⟨c, hc, hnot, -⟩ := h'.head
    have hstart := le_wsEnd src pos
    have hp := h.pos
    have hq := hws.le
    have ht := hws'.le
    have hu := h'.pos
    simp only [Json.nestingArr, Json.nodesArr, Json.widthArr, List.length_cons] at *
    have hvalue := ih fuel (depth + 1) nodes pos hpos (by omega) (by omega) (by omega) (by omega)
    rw [refItems_value hvalue (by omega) hws hcomma rfl, if_neg (by decide), if_pos rfl,
      ih' fuel depth _ (r + 1) (acc ++ [j]) (hws'.wsEnd_of_not_ws hc hnot) (by omega) (by omega)
        (by omega) (by rw [List.length_append, List.length_singleton]; omega) (by omega),
      List.append_assoc, List.singleton_append, Nat.add_assoc]
  | @pairsLast p q r t u v key j hquote hkey hws hcolon hws' h hws2 hclose ih =>
    intro fuel depth nodes pos acc hpos hfuel hdepth hmax hlen hwidth
    obtain ⟨fuel, rfl⟩ : ∃ k, fuel = k + 1 := ⟨fuel - 1, by omega⟩
    obtain ⟨k, hk, hafter⟩ := refPairs_colon fuel acc hpos hquote hkey hws hcolon
    obtain ⟨c, hc, hnot, -⟩ := h.head
    have hp := (List.getElem?_eq_some_iff.mp hquote).1
    have hq := hkey.pos
    have hr := hws.le
    have hstart := le_wsEnd src pos
    simp only [Json.nestingObj, Json.nodesObj, Json.widthObj, List.length_singleton] at *
    rw [hk, scan_bind_ok (ih fuel (depth + 1) nodes (r + 1) (hws'.wsEnd_of_not_ws hc hnot)
      (by omega) (by omega) (by omega) (by omega)),
      hafter _ _ _ _ _ (by omega) hws2 hclose rfl, if_pos rfl]
    rfl
  | @pairsCons p q r t u v w x key j pairs hquote hkey hws hcolon hws' h hws2 hcomma hws3 h' ih
      ih' =>
    intro fuel depth nodes pos acc hpos hfuel hdepth hmax hlen hwidth
    obtain ⟨fuel, rfl⟩ : ∃ k, fuel = k + 1 := ⟨fuel - 1, by omega⟩
    obtain ⟨k, hk, hafter⟩ := refPairs_colon fuel acc hpos hquote hkey hws hcolon
    obtain ⟨c, hc, hnot, -⟩ := h.head
    obtain ⟨c', hc', hnot', -⟩ := h'.head
    have hp := (List.getElem?_eq_some_iff.mp hquote).1
    have hq := hkey.pos
    have hr := hws.le
    have hr' := hws'.le
    have ht := h.pos
    have hu := hws2.le
    have hv := hws3.le
    have hw := h'.pos
    have hstart := le_wsEnd src pos
    simp only [Json.nestingObj, Json.nodesObj, Json.widthObj, List.length_cons] at *
    rw [hk, scan_bind_ok (ih fuel (depth + 1) nodes (r + 1) (hws'.wsEnd_of_not_ws hc hnot)
      (by omega) (by omega) (by omega) (by omega)),
      hafter _ _ _ _ _ (by omega) hws2 hcomma rfl, if_neg (by decide), if_pos rfl,
      ih' fuel depth _ (v + 1) (acc ++ [(key, j)]) (hws3.wsEnd_of_not_ws hc' hnot') (by omega)
        (by omega) (by omega) (by rw [List.length_append, List.length_singleton]; omega) (by omega),
      List.append_assoc, List.singleton_append, Nat.add_assoc]

/-! ## The language -/

/-- A text is read in an arena with `k` values exactly if it is one of the grammar, respects
the limits on nesting and width, and its values fit beside the `k` that are there. -/
theorem refParse_from_iff {src : List UInt8} {j : Json D} {k n : ℕ} :
    refParse src k = .ok (j, n) ↔ JsonText src j ∧ j.nesting ≤ jsonMaxDepth - 1 ∧
      j.width ≤ jsonMaxArrayLen ∧ k + j.nodes ≤ jsonMaxNodes ∧ n = k + j.nodes := by
  constructor
  · intro h
    obtain ⟨⟨j', q, n'⟩, hval, h⟩ := scan_bind_eq_ok.mp h
    obtain ⟨hder, hn, hmax, hnest, hwidth⟩ :=
      (ref_sound (D := D) src _).1 1 k 0 j' q n' (by decide) hval
    simp only at h
    split_ifs at h with htrail
    cases h
    have hle := wsEnd_le hder.pos.2
    have hws := ws_wsEnd src q
    rw [show wsEnd src q = src.length by omega] at hws
    have hdepth : jsonMaxDepth = jsonMaxDepth - 1 + 1 := rfl
    exact ⟨⟨_, q, ws_wsEnd src 0, hder, hws⟩, by omega, hwidth, by omega, hn⟩
  · rintro ⟨⟨p, q, hws, hder, hws'⟩, hnest, hwidth, hnodes, rfl⟩
    obtain ⟨c, hc, hnot, -⟩ := hder.head
    have hdepth : jsonMaxDepth = jsonMaxDepth - 1 + 1 := rfl
    have hval := hder.read (2 * src.length + 1) 1 k 0 (hws.wsEnd_of_not_ws hc hnot) (by omega)
      (by omega) hnodes hwidth
    have hend : ¬ wsEnd src q < src.length := by
      rw [hws'.wsEnd_eq, wsEnd_of_ge le_rfl]
      exact lt_irrefl _
    rw [refParse, scan_bind_ok hval]
    simp only
    rw [if_neg hend]
    rfl

/-- **The reference parser accepts the texts of the grammar within the limits**, and
assigns to a text what it stands for. -/
theorem refParse_iff {src : List UInt8} {j : Json D} {n : ℕ} :
    refParse src 0 = .ok (j, n) ↔ JsonText src j ∧ j.InLimits ∧ n = j.nodes := by
  rw [refParse_from_iff, Nat.zero_add]
  exact ⟨fun ⟨htext, hnest, hwidth, hnodes, hn⟩ => ⟨htext, ⟨hnest, hwidth, hnodes⟩, hn⟩,
    fun ⟨htext, hlim, hn⟩ => ⟨htext, hlim.nesting, hlim.width, hlim.nodes, hn⟩⟩

/-- **The language of `json_parse`.**  With a fresh arena that never runs out of
memory, `json_parse` returns a value exactly for the texts of the grammar whose trees
respect the limits on nesting, container length and number of values; the value it
returns denotes the tree of the reference parser, which is the tree the text stands
for.  On any other text it fails with an error code. -/
theorem jsonParse_language (src : List UInt8) (s : St D) (hfresh : s.arena.Fresh)
    (hlen : src.length ≤ ptrdiffMax) :
    ((∃ v s', jsonParse src s = .ok v s') ↔ ∃ j : Json D, JsonText src j ∧ j.InLimits) ∧
    (∀ v s', jsonParse src s = .ok v s' → ∃ j : Json D, JsonText src j ∧ j.InLimits ∧
      refParse src 0 = .ok (j, j.nodes) ∧ Denotes s'.heap j v) ∧
    ∀ e s', jsonParse src s = .error e s' → ∃ code, e = .err code := by
  have href := jsonParse_ref (D := D) (hfresh.budget hlen)
  rw [hfresh.nodeCount] at href
  have hacc : ∀ v s', jsonParse src s = .ok v s' → ∃ j : Json D, JsonText src j ∧ j.InLimits ∧
      refParse src 0 = .ok (j, j.nodes) ∧ Denotes s'.heap j v := by
    intro v s' hv
    cases hres : (refParse src 0 : Scan (Json D × ℕ)) with
    | error e =>
      rw [hres] at href
      obtain ⟨s'', herr⟩ := href
      rw [hv] at herr
      cases herr
    | ok r =>
      obtain ⟨j, n⟩ := r
      rw [hres] at href
      obtain ⟨v', s'', hok, hden, -⟩ := href
      rw [hv] at hok
      cases hok
      obtain ⟨htext, hlim, rfl⟩ := refParse_iff.mp hres
      exact ⟨j, htext, hlim, rfl, hden.denotes⟩
  refine ⟨⟨?_, ?_⟩, hacc, ?_⟩
  · rintro ⟨v, s', hv⟩
    obtain ⟨j, htext, hlim, -⟩ := hacc v s' hv
    exact ⟨j, htext, hlim⟩
  · rintro ⟨j, htext, hlim⟩
    rw [refParse_iff.mpr ⟨htext, hlim, rfl⟩] at href
    obtain ⟨v, s', hok, -⟩ := href
    exact ⟨v, s', hok⟩
  · intro e s' herr
    cases e with
    | err code => exact ⟨code, rfl⟩
    | fault f => exact absurd ((jsonParse_ensures src s).error herr) id

/-- The text `{"a":[true,-7]}`, with doubles of one value. -/
theorem jsonParse_language_object :
    ∃ (_ : CDouble Unit) (s : St Unit), s.arena.Fresh ∧
      ∃ v s', jsonParse [0x7B, 0x22, 0x61, 0x22, 0x3A, 0x5B, 0x74, 0x72, 0x75, 0x65, 0x2C, 0x2D,
          0x37, 0x5D, 0x7D] s = .ok v s' ∧
        Denotes s'.heap (.obj [([0x61], .arr [.bool true, .int (-7)])]) v := by
  obtain ⟨A, hA⟩ := Arena.exists_fresh
  let _ : CDouble Unit := .unit
  have href : refParse [0x7B, 0x22, 0x61, 0x22, 0x3A, 0x5B, 0x74, 0x72, 0x75, 0x65, 0x2C, 0x2D,
      0x37, 0x5D, 0x7D] 0
        = .ok ((.obj [([0x61], .arr [.bool true, .int (-7)])] : Json Unit), 4) := by rfl
  obtain ⟨htext, hlim, -⟩ := refParse_iff.mp href
  obtain ⟨haccepts, htree, -⟩ := jsonParse_language (D := Unit) [0x7B, 0x22, 0x61, 0x22, 0x3A, 0x5B,
    0x74, 0x72, 0x75, 0x65, 0x2C, 0x2D, 0x37, 0x5D, 0x7D] ⟨.empty, A⟩ hA (by decide)
  obtain ⟨v, s', hparse⟩ := haccepts.mpr ⟨_, htext, hlim⟩
  obtain ⟨j, -, -, href', hden⟩ := htree v s' hparse
  obtain ⟨rfl, -⟩ := Prod.mk.inj (Except.ok.inj (href.symm.trans href'))
  exact ⟨_, ⟨.empty, A⟩, hA, v, s', hparse, hden⟩

end SJson
