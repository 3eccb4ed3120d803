/-
# Writing what was read

What `json_write` makes of a parsed document is parsed again, to a document that differs in its
doubles only.  A double is written with 17 digits, which are enough to find it again; but these
digits may be read by the fast path, which is not always correctly rounded.  Then the second
output differs from the first: they are the same exactly if every double is read back
(`jsonWrite_stable`).
-/
import SJson.FloatText
import SJson.RoundTrip
import SJson.ParserAppend

namespace SJson

open ErrState Segment Rounding Decimal

/-! ## Reading a literal -/

namespace Literal

variable (l : Literal)

/-- The double that `json__parse_number` makes of a literal in the range of the doubles. -/
def read : Double :=
  if l.IsFast then Double.round l.minus (fastProduct l.scan.fastMant l.scan.fastExp10)
  else Double.round l.minus l.ratValue

theorem read_eq_iff : l.read = Double.round l.minus l.ratValue ↔ l.FastExact := by
  unfold read
  by_cases hfast : l.IsFast
  · rw [if_pos hfast, l.fastExact_iff hfast]
    exact Double.round_eq_iff _ (fastProduct_finite l.scan_gathers.1 hfast.2.2.2)
  · rw [if_neg hfast]
    exact ⟨fun _ hfast' => absurd hfast' hfast, fun _ => rfl⟩

theorem read_finite (h : l.IsFast ∨ unitsOf l.ratValue < topUnits) :
    CDouble.nonFinite l.read = false := by
  unfold read
  by_cases hfast : l.IsFast
  · rw [if_pos hfast,
      Double.round_of_lt _ (fastProduct_finite l.scan_gathers.1 hfast.2.2.2)]
    rfl
  · rw [if_neg hfast, Double.round_of_lt _ (h.resolve_left hfast)]
    rfl

end Literal

/-- **What is read** in a literal with a fraction or an exponent: a double, or an error if it is
too large and not for the fast path. -/
theorem numberToken_read {src : List UInt8} {l : Literal} {p q : ℕ} (h : Spells src p l.text q)
    (hfollows : l.Follows (src.drop q)) (hfloat : l.isFloat = true) :
    (numberToken src p : Scan (JsonNode Double × ℕ)) =
      if l.IsFast ∨ unitsOf l.ratValue < topUnits then .ok (.float l.read, q)
      else .error (.err .invalidNumber) := by
  rw [numberToken_literal h hfollows hfloat, libcNumberToken_literal h hfollows hfloat]
  rcases l.fastFloat_cases p with ⟨hfast, heq⟩ | ⟨hno, hnone⟩
  · have hread : l.IsFast ∨ unitsOf l.ratValue < topUnits := .inl hfast
    rw [heq, Literal.read, if_pos hfast, if_pos hread]
  · rw [Literal.read, if_neg hno]
    cases hres : (fastFloat (l.token p) : Option Double) with
    | some f =>
      obtain ⟨rfl, hlt⟩ := hnone f hres
      have hread : l.IsFast ∨ unitsOf l.ratValue < topUnits := .inr hlt
      rw [if_pos hread]
    | none => simp only [hno, false_or]

/-! ## Reading the text of a double -/

/-- What is written for a finite double. -/
theorem floatBytes_literal {f : Double} (hf : CDouble.nonFinite f = false) :
    ∃ l : Literal, l.isFloat = true ∧ floatBytes f = l.text ∧
      Double.round l.minus l.ratValue = f ∧ unitsOf l.ratValue < topUnits := by
  cases f with
  | finite negative m =>
    obtain ⟨l, hminus, hfloat, htext, hunits⟩ := floatText_finite negative m
    have hlt : unitsOf l.ratValue < topUnits := hunits ▸ m.bounded
    refine ⟨l, hfloat, ?_, ?_, hlt⟩
    · rw [floatBytes, htext]
    · rw [Double.round_of_lt _ hlt, hminus]
      exact congrArg _ (Magnitude.ext hunits)
  | inf a => cases hf
  | nan => cases hf

namespace Double

/-- The double that is read in the text of `f`. -/
def reread (f : Double) : Double :=
  match (numberToken (floatBytes f) 0 : Scan (JsonNode Double × ℕ)) with
  | .ok (.float g, _) => g
  | _ => f

/-- The text of `f` is not for the fast path, or the fast path is exact on it. -/
def ReadsExactly (f : Double) : Prop :=
  ∃ l : Literal, l.isFloat = true ∧ floatBytes f = l.text ∧ l.FastExact

theorem reread_eq {f : Double} {l : Literal} (hfloat : l.isFloat = true)
    (htext : floatBytes f = l.text) (hlt : unitsOf l.ratValue < topUnits) : f.reread = l.read := by
  have hfollows : l.Follows (l.text.drop l.text.length) := by
    rw [List.drop_length]
    exact ⟨not_starts_nil, fun _ => not_starts_nil, fun _ _ => not_starts_nil⟩
  rw [reread, htext, numberToken_read (spells_self _) hfollows hfloat, if_pos (.inr hlt)]

theorem reread_finite {f : Double} (hf : CDouble.nonFinite f = false) :
    CDouble.nonFinite f.reread = false := by
  obtain ⟨l, hfloat, htext, -, hlt⟩ := floatBytes_literal hf
  rw [reread_eq hfloat htext hlt]
  exact l.read_finite (.inr hlt)

/-- `strtod` finds the double again, in any literal with its text. -/
theorem round_of_text {f : Double} (hf : CDouble.nonFinite f = false) {l : Literal}
    (htext : floatBytes f = l.text) :
    round l.minus l.ratValue = f ∧ unitsOf l.ratValue < topUnits := by
  obtain ⟨l', -, htext', hround, -⟩ := floatBytes_literal hf
  have hstrtod := strtod_literal l
  rw [← htext, htext', strtod_literal l', hround] at hstrtod
  have heq : round l.minus l.ratValue = f := (congrArg Prod.fst hstrtod).symm
  refine ⟨heq, ?_⟩
  by_contra hge
  rw [round_of_ge _ hge] at heq
  subst heq
  cases hf

theorem reread_eq_iff_exact {f : Double} (hf : CDouble.nonFinite f = false) {l : Literal}
    (hfloat : l.isFloat = true) (htext : floatBytes f = l.text) :
    f.reread = f ↔ l.FastExact := by
  obtain ⟨hround, hlt⟩ := round_of_text hf htext
  rw [reread_eq hfloat htext hlt, ← l.read_eq_iff, hround]

/-- **A double is read back** exactly if the fast path is exact on its text. -/
theorem reread_eq_iff {f : Double} (hf : CDouble.nonFinite f = false) :
    f.reread = f ↔ f.ReadsExactly := by
  constructor
  · intro hread
    obtain ⟨l, hfloat, htext, -⟩ := floatBytes_literal hf
    exact ⟨l, hfloat, htext, (reread_eq_iff_exact hf hfloat htext).mp hread⟩
  · rintro ⟨l, hfloat, htext, hexact⟩
    exact (reread_eq_iff_exact hf hfloat htext).mpr hexact

end Double

/-- Wherever the text of a double stands, the same is read. -/
theorem readsAs_reread {f : Double} (hf : CDouble.nonFinite f = false) (src : List UInt8) :
    ReadsAs src f f.reread := by
  obtain ⟨l, hfloat, htext, -, hlt⟩ := floatBytes_literal hf
  intro p q h hstop
  rw [htext] at h
  rw [numberToken_read h (hstop.follows l) hfloat, if_pos (.inr hlt),
    Double.reread_eq hfloat htext hlt]

/-- Two doubles whose texts stand at one place are the same. -/
theorem spells_floatBytes {src : List UInt8} {f g : Double} (hf : CDouble.nonFinite f = false)
    (hg : CDouble.nonFinite g = false) {p q q' : ℕ} (h : Spells src p (floatBytes f) q)
    (h' : Spells src p (floatBytes g) q') (hstop : Stops src q) (hstop' : Stops src q') :
    q = q' ∧ f = g := by
  obtain ⟨l, -, htext, hround, -⟩ := floatBytes_literal hf
  obtain ⟨l', -, htext', hround', -⟩ := floatBytes_literal hg
  rw [htext] at h
  rw [htext'] at h'
  have heq : l.text ++ src.drop q = l'.text ++ src.drop q' := h.drop_eq.symm.trans h'.drop_eq
  have hlen : l.text.length = l'.text.length :=
    le_antisymm ((hstop'.follows l').longest heq.symm) ((hstop.follows l).longest heq)
  refine ⟨by rw [h.eq, h'.eq, hlen], ?_⟩
  have hstrtod := Double.strtod_literal l
  rw [List.append_inj_left heq hlen, Double.strtod_literal l', hround, hround'] at hstrtod
  exact (congrArg Prod.fst hstrtod).symm

/-! ## The doubles of a document -/

/-- A double that the parser returns is finite. -/
theorem numberToken_finite {src : List UInt8} {p q : ℕ} {f : Double}
    (h : numberToken src p = .ok (.float f, q)) : CDouble.nonFinite f = false := by
  obtain ⟨c, hc, hstart⟩ := numberToken_head h
  have hstarts : Starts (fun c => c = 0x2D ∨ IsDigit c) (src.drop p) := by
    refine starts_drop.mpr ⟨c, hc, ?_⟩
    simpa [startsNumber, isDigit_iff] using hstart
  rcases literal_or_bad hstarts with ⟨l, r, hl, hfollows⟩ | hbad
  · obtain ⟨hspells, hrest⟩ := spells_of_drop hl
    rw [← hrest] at hfollows
    cases hfloat : l.isFloat with
    | true =>
      rw [numberToken_read hspells hfollows hfloat] at h
      split_ifs at h with hread
      obtain ⟨hnode, -⟩ := Prod.mk.inj (Except.ok.inj h)
      rw [← JsonNode.float.inj hnode]
      exact l.read_finite hread
    | false =>
      -- an integer is no double
      obtain ⟨hscan, -⟩ := scanNumber_literal l hspells hfollows
      have hfloat' : ¬ (l.token p).isFloat = true := by
        rw [show (l.token p).isFloat = false from hfloat]
        exact Bool.false_ne_true
      rw [numberToken, scan_bind_ok hscan, if_neg hfloat'] at h
      obtain ⟨i, -, h⟩ := scan_bind_eq_ok.mp h
      cases h
  · obtain ⟨e, herr, -⟩ := scanNumber_bad hbad
    rw [numberToken, scan_bind_error herr] at h
    cases h

/-- The doubles of a phrase are finite. -/
def Phrase.Finite : Phrase Double → Prop
  | .value j => j.Floats fun f => CDouble.nonFinite f = false
  | .items l => Json.FloatsArr (fun f => CDouble.nonFinite f = false) l
  | .pairs l => Json.FloatsObj (fun f => CDouble.nonFinite f = false) l

theorem Derives.finite {src : List UInt8} {ph : Phrase Double} {p q : ℕ}
    (h : Derives src ph p q) : ph.Finite := by
  induction h with
  | litNull _ => trivial
  | litTrue _ => trivial
  | litFalse _ => trivial
  | string _ _ => trivial
  | @number p q n h =>
    cases n with
    | float f => exact numberToken_finite h
    | _ => trivial
  | arrNil _ _ _ => trivial
  | arr _ _ _ ih => exact ih
  | objNil _ _ _ => trivial
  | obj _ _ _ ih => exact ih
  | itemsLast _ _ _ ih => exact ⟨ih, trivial⟩
  | itemsCons _ _ _ _ _ ih ih' => exact ⟨ih, ih'⟩
  | pairsLast _ _ _ _ _ _ _ _ ih => exact ⟨ih, trivial⟩
  | pairsCons _ _ _ _ _ _ _ _ _ _ ih ih' => exact ⟨ih, ih'⟩

/-! ## Trees with other doubles -/

namespace Json

variable {D : Type} (g : D → D)

omit g in
theorem Floats.and {P Q : D → Prop} {j : Json D} :
    j.Floats P → j.Floats Q → j.Floats fun f => P f ∧ Q f := by
  induction j using Json.tree_induction with
  | float f => exact And.intro
  | arr items ih =>
    exact fun hP hQ => floatsArr_iff.mpr fun j hj =>
      ih j hj (floatsArr_iff.mp hP j hj) (floatsArr_iff.mp hQ j hj)
  | obj pairs ih =>
    exact fun hP hQ => floatsObj_iff.mpr fun kv hkv =>
      ih kv hkv (floatsObj_iff.mp hP kv hkv) (floatsObj_iff.mp hQ kv hkv)
  | _ => exact fun _ _ => trivial

theorem nesting_mapFloats_le (j : Json D) : (j.mapFloats g).nesting ≤ j.nesting := by
  induction j using Json.tree_induction with
  | arr items ih =>
    rw [mapFloats, mapFloatsArr_eq]
    refine Nat.succ_le_succ (nestingArr_le.mpr (List.forall_mem_map.mpr fun j hj => ?_))
    exact (ih j hj).trans (nestingArr_le.mp le_rfl j hj)
  | obj pairs ih =>
    rw [mapFloats, mapFloatsObj_eq]
    refine Nat.succ_le_succ (nestingObj_le.mpr (List.forall_mem_map.mpr fun kv hkv => ?_))
    exact (ih kv hkv).trans (nestingObj_le.mp le_rfl kv hkv)
  | _ => exact le_rfl

theorem width_mapFloats_le (j : Json D) : (j.mapFloats g).width ≤ j.width := by
  induction j using Json.tree_induction with
  | arr items ih =>
    rw [mapFloats, mapFloatsArr_eq, width, width, List.length_map]
    refine max_le_max_left _ (widthArr_le.mpr (List.forall_mem_map.mpr fun j hj => ?_))
    exact (ih j hj).trans (widthArr_le.mp le_rfl j hj)
  | obj pairs ih =>
    rw [mapFloats, mapFloatsObj_eq, width, width, List.length_map]
    refine max_le_max_left _ (widthObj_le.mpr (List.forall_mem_map.mpr fun kv hkv => ?_))
    exact (ih kv hkv).trans (widthObj_le.mp le_rfl kv hkv)
  | _ => exact le_rfl

theorem nodes_mapFloats (j : Json D) : (j.mapFloats g).nodes = j.nodes := by
  induction j using Json.tree_induction with
  | arr items ih =>
    rw [mapFloats, mapFloatsArr_eq, nodes, nodes, nodesArr_eq, nodesArr_eq, List.map_map]
    exact congrArg (fun l => List.sum l + 1) (List.map_congr_left ih)
  | obj pairs ih =>
    rw [mapFloats, mapFloatsObj_eq, nodes, nodes, nodesObj_eq, nodesObj_eq, List.map_map]
    exact congrArg (fun l => List.sum l + 1) (List.map_congr_left ih)
  | _ => rfl

omit g in
theorem InLimits.levels {j : Json D} (h : j.InLimits) : j.levels ≤ jsonMaxDepth :=
  levels_le_maxDepth h.nesting

/-- Other doubles are within the limits of the parser as well. -/
theorem InLimits.mapFloats {j : Json D} (h : j.InLimits) : (j.mapFloats g).InLimits where
  nesting := (nesting_mapFloats_le g j).trans h.nesting
  width := (width_mapFloats_le g j).trans h.width
  nodes := (nodes_mapFloats g j).trans_le h.nodes

/-- The new doubles satisfy what the old ones imply. -/
theorem Floats.mapFloats {P Q : D → Prop} (himp : ∀ f, P f → Q (g f)) {j : Json D} :
    j.Floats P → (j.mapFloats g).Floats Q := by
  induction j using Json.tree_induction with
  | float f => exact himp f
  | arr items ih =>
    rw [Json.mapFloats, mapFloatsArr_eq]
    exact fun h => floatsArr_iff.mpr (List.forall_mem_map.mpr fun j hj =>
      ih j hj (floatsArr_iff.mp h j hj))
  | obj pairs ih =>
    rw [Json.mapFloats, mapFloatsObj_eq]
    exact fun h => floatsObj_iff.mpr (List.forall_mem_map.mpr fun kv hkv =>
      ih kv hkv (floatsObj_iff.mp h kv hkv))
  | _ => exact fun _ => trivial

end Json

/-! ## One text of two trees -/

section

variable {src : List UInt8} {opts : JsonWriteOpts} {g : Double → Double}

/-- Where the text of a tree stands and also that with other doubles, the doubles are the same. -/
def Pinned (src : List UInt8) (opts : JsonWriteOpts) (g : Double → Double) (j : Json Double) :
    Prop :=
  ∀ depth p q q', Spells src p (bytesOf ((j.mapFloats g).pieces opts depth)) q →
    Spells src p (bytesOf (j.pieces opts depth)) q' → Stops src q → Stops src q' →
    q = q' ∧ j.Floats fun f => g f = f

/-- Nothing of a number follows behind an entry. -/
theorem stops_comma {depth len p q : ℕ} {bracket : UInt8} {last : Bool} {rest : List UInt8}
    (hlast : last = true → rest = []) (hdigit : isDigit bracket = false)
    (hmark : isFloatMark bracket = false) (h : Spells src p (bytesOf (commaPieces last) ++
      (rest ++ bytesOf (closePieces opts depth len bracket))) q) : Stops src p := by
  cases last with
  | true =>
    rw [hlast rfl] at h
    exact stops_close opts hdigit hmark h
  | false => exact stops_of_spells h rfl rfl

/-- An entry with what stands in front of it. -/
theorem Pinned.entry {j : Json Double} (hj : Pinned src opts g j) {d depth len p q q' : ℕ}
    {bracket : UInt8} {last : Bool} {pre rest rest' : List UInt8}
    (hrest : last = true → rest = []) (hrest' : last = true → rest' = [])
    (hdigit : isDigit bracket = false) (hmark : isFloatMark bracket = false)
    (h : Spells src p (pre ++ (bytesOf ((j.mapFloats g).pieces opts d) ++
      (bytesOf (commaPieces last) ++
        (rest' ++ bytesOf (closePieces opts depth len bracket))))) q)
    (h' : Spells src p (pre ++ (bytesOf (j.pieces opts d) ++ (bytesOf (commaPieces last) ++
        (rest ++ bytesOf (closePieces opts depth len bracket))))) q') :
    (j.Floats fun f => g f = f) ∧ ∃ t,
      Spells src t (rest' ++ bytesOf (closePieces opts depth len bracket)) q ∧
      Spells src t (rest ++ bytesOf (closePieces opts depth len bracket)) q' := by
  obtain ⟨r, hpre, h⟩ := spells_append.mp h
  obtain ⟨r', hpre', h'⟩ := spells_append.mp h'
  obtain rfl : r = r' := hpre.eq.trans hpre'.eq.symm
  obtain ⟨s, hvalue, h⟩ := spells_append.mp h
  obtain ⟨s', hvalue', h'⟩ := spells_append.mp h'
  obtain ⟨rfl, hfloats⟩ := hj _ _ _ _ hvalue hvalue' (stops_comma hrest' hdigit hmark h)
    (stops_comma hrest hdigit hmark h')
  obtain ⟨t, hcomma, h⟩ := spells_append.mp h
  obtain ⟨t', hcomma', h'⟩ := spells_append.mp h'
  obtain rfl : t = t' := hcomma.eq.trans hcomma'.eq.symm
  exact ⟨hfloats, t, h, h'⟩

theorem pinned_items {depth len : ℕ} : ∀ {items : List (Json Double)} {p q q' : ℕ},
    (∀ j ∈ items, Pinned src opts g j) →
    Spells src p (bytesOf (Json.piecesArr opts (items.map (Json.mapFloats g)) depth) ++
      bytesOf (closePieces opts depth len 0x5D)) q →
    Spells src p (bytesOf (Json.piecesArr opts items depth) ++
      bytesOf (closePieces opts depth len 0x5D)) q' →
    q = q' ∧ ∀ j ∈ items, j.Floats fun f => g f = f := by
  intro items
  induction items with
  | nil => exact fun _ h h' => ⟨h.eq.trans h'.eq.symm, fun _ hj => absurd hj List.not_mem_nil⟩
  | cons j items ih =>
    intro p q q' hall h h'
    obtain ⟨hj, hall⟩ := List.forall_mem_cons.mp hall
    rw [List.map_cons, Json.piecesArr, List.isEmpty_map] at h
    rw [Json.piecesArr] at h'
    simp only [bytesOf_append, List.append_assoc] at h h'
    obtain ⟨hfloats, t, h, h'⟩ := hj.entry
      (fun hlast => by rw [List.isEmpty_iff.mp hlast]; rfl)
      (fun hlast => by rw [List.isEmpty_iff.mp hlast]; rfl) rfl rfl h h'
    obtain ⟨hq, hrest⟩ := ih hall h h'
    exact ⟨hq, List.forall_mem_cons.mpr ⟨hfloats, hrest⟩⟩

theorem pinned_pairs {depth len : ℕ} : ∀ {pairs : List (List UInt8 × Json Double)} {p q q' : ℕ},
    (∀ kv ∈ pairs, Pinned src opts g kv.2) →
    Spells src p (bytesOf (Json.piecesObj opts (pairs.map fun kv => (kv.1, kv.2.mapFloats g))
      depth) ++ bytesOf (closePieces opts depth len 0x7D)) q →
    Spells src p (bytesOf (Json.piecesObj opts pairs depth) ++
      bytesOf (closePieces opts depth len 0x7D)) q' →
    q = q' ∧ ∀ kv ∈ pairs, kv.2.Floats fun f => g f = f := by
  intro pairs
  induction pairs with
  | nil => exact fun _ h h' => ⟨h.eq.trans h'.eq.symm, fun _ hkv => absurd hkv List.not_mem_nil⟩
  | cons kv pairs ih =>
    obtain ⟨key, j⟩ := kv
    intro p q q' hall h h'
    obtain ⟨hj, hall⟩ := List.forall_mem_cons.mp hall
    rw [List.map_cons, Json.piecesObj, List.isEmpty_map] at h
    rw [Json.piecesObj] at h'
    simp only [bytesOf_append, bytesOf_cons, List.append_assoc] at h h'
    rw [← List.append_assoc] at h h'
    obtain ⟨hfloats, t, h, h'⟩ := hj.entry
      (fun hlast => by rw [List.isEmpty_iff.mp hlast]; rfl)
      (fun hlast => by rw [List.isEmpty_iff.mp hlast]; rfl) rfl rfl h h'
    obtain ⟨hq, hrest⟩ := ih hall h h'
    exact ⟨hq, List.forall_mem_cons.mpr ⟨hfloats, hrest⟩⟩

/-- **The text of a tree determines its doubles**, if they are finite before and after. -/
theorem pinned_of_finite {j : Json Double} :
    (j.Floats fun f => CDouble.nonFinite f = false ∧ CDouble.nonFinite (g f) = false) →
    Pinned src opts g j := by
  induction j using Json.tree_induction with
  | float f =>
    rintro ⟨hf, hg⟩ depth p q q' h h' hstop hstop'
    rw [Json.mapFloats, Json.pieces, bytesOf_cons, bytesOf_nil, List.append_nil] at h
    rw [Json.pieces, bytesOf_cons, bytesOf_nil, List.append_nil] at h'
    exact spells_floatBytes hg hf h h' hstop hstop'
  | arr items ih =>
    intro hfin depth p q q' h h' _ _
    have hfin := Json.floatsArr_iff.mp hfin
    rw [Json.mapFloats, Json.mapFloatsArr_eq, Json.pieces, bytesOf_cons, bytesOf_append,
      List.length_map] at h
    rw [Json.pieces, bytesOf_cons, bytesOf_append] at h'
    obtain ⟨-, h⟩ := spells_cons.mp h
    obtain ⟨-, h'⟩ := spells_cons.mp h'
    obtain ⟨hq, hfloats⟩ := pinned_items (fun j hj => ih j hj (hfin j hj)) h h'
    exact ⟨hq, Json.floatsArr_iff.mpr hfloats⟩
  | obj pairs ih =>
    intro hfin depth p q q' h h' _ _
    have hfin := Json.floatsObj_iff.mp hfin
    rw [Json.mapFloats, Json.mapFloatsObj_eq, Json.pieces, bytesOf_cons, bytesOf_append,
      List.length_map] at h
    rw [Json.pieces, bytesOf_cons, bytesOf_append] at h'
    obtain ⟨-, h⟩ := spells_cons.mp h
    obtain ⟨-, h'⟩ := spells_cons.mp h'
    obtain ⟨hq, hfloats⟩ := pinned_pairs (fun kv hkv => ih kv hkv (hfin kv hkv)) h h'
    exact ⟨hq, Json.floatsObj_iff.mpr hfloats⟩
  | _ => exact fun _ depth p q q' h h' _ _ => ⟨h.eq.trans h'.eq.symm, trivial⟩

/-- **The text is stable** exactly if every double is read back. -/
theorem render_reread_iff (opts : JsonWriteOpts) {j : Json Double}
    (hfin : j.Floats fun f => CDouble.nonFinite f = false) :
    (j.mapFloats Double.reread).render opts = j.render opts ↔ j.Floats Double.ReadsExactly := by
  constructor
  · intro heq
    generalize hsrc : j.render opts = src at heq
    have h : Spells src 0 ((j.mapFloats Double.reread).render opts) src.length := by
      rw [heq]
      exact spells_self src
    have h' : Spells src 0 (j.render opts) src.length := by
      rw [hsrc]
      exact spells_self src
    rw [Json.render, Json.layout, bytesOf_append] at h h'
    obtain ⟨q, hvalue, hend⟩ := spells_append.mp h
    obtain ⟨q', hvalue', hend'⟩ := spells_append.mp h'
    have hpinned : Pinned src opts Double.reread j :=
      pinned_of_finite (hfin.mono fun f hf => ⟨hf, Double.reread_finite hf⟩)
    obtain ⟨-, hfloats⟩ := hpinned _ _ _ _ hvalue hvalue' (stops_trailing opts hend)
      (stops_trailing opts hend')
    exact (hfin.and hfloats).mono fun f hf => (Double.reread_eq_iff hf.1).mp hf.2
  · intro hexact
    have hfloats : j.Floats fun f => Double.reread f = f :=
      (hfin.and hexact).mono fun f hf => (Double.reread_eq_iff hf.1).mpr hf.2
    exact congrArg (Json.render opts) ((Json.mapFloats_congr hfloats).trans (Json.mapFloats_id j))

end

/-! ## Documents -/

theorem hasText_of_finite {f : Double} (hf : CDouble.nonFinite f = false) : HasText f := by
  cases f with
  | finite negative m =>
    obtain ⟨l, -, -, htext, -⟩ := floatText_finite negative m
    exact ⟨l.text, htext⟩
  | inf a => cases hf
  | nan => cases hf

/-- A tree with finite doubles that is within the limits, written without sorting. -/
theorem jsonWrite_finite {h : Heap Double} (hrep : h.RepOk) {v : JsonPtr} (hv : v < h.next)
    {j : Json Double} (hden : Denotes h j v)
    (hfin : j.Floats fun f => CDouble.nonFinite f = false) (hlim : j.InLimits)
    {opts : JsonWriteOpts} (hsort : opts.sortKeys = false) {c : ℕ} (hc : c ≤ sizeMax)
    (hfit : (j.render opts).length < c) (buf : ℕ → UInt8) (sortMem : ℕ → Bool) :
    ∃ r, jsonWrite h v buf c opts sortMem = .ok r ∧ r.status = .ok ∧
      r.bytes = j.render opts := by
  have hlevels := hlim.levels
  have hw : h.Writable jsonMaxDepth v :=
    hden.ends hlevels (hfin.mono fun _ => hasText_of_finite)
  have hrender : h.rendering opts v = j.render opts := hden.rendering hlevels hsort
  obtain ⟨r, hr, hholds⟩ :=
    jsonWrite_of_writable opts hrep hv hw (by rwa [hrender]) hc buf fun _ => rfl
  rw [jsonWrite_sortMem hsort h v buf c sortMem fun _ => true]
  exact ⟨r, hr, hholds.status, by rw [hholds.bytes_eq, hrender]⟩

/-- What is written for such a tree is parsed, to the tree with the doubles that are read. -/
theorem jsonParse_render {j : Json Double} (htexts : j.TextsOk)
    (hfin : j.Floats fun f => CDouble.nonFinite f = false) (hlim : j.InLimits)
    {opts : JsonWriteOpts} (hlen : (j.render opts).length ≤ ptrdiffMax) (g : Heap Double)
    {A : Arena} (hA : A.Fresh) : ∃ w t, jsonParse (j.render opts) ⟨g, A⟩ = .ok w t ∧
      Denotes t.heap (j.mapFloats Double.reread) w := by
  have htext := jsonText_render opts htexts (hfin.mono fun f hf => readsAs_reread hf _)
  exact jsonParse_text htext (hlim.mapFloats _) hlen g hA

/-! ## One number -/

theorem inLimits_float {D : Type} (f : D) : (Json.float f).InLimits where
  nesting := Nat.zero_le _
  width := Nat.zero_le _
  nodes := by
    show 1 ≤ jsonMaxNodes
    decide

/-- A document that is one literal. -/
theorem exists_parsed_literal {l : Literal} (hfloat : l.isFloat = true)
    (hread : l.IsFast ∨ unitsOf l.ratValue < topUnits) (hlen : l.text.length ≤ ptrdiffMax)
    {A : Arena} (hA : A.Fresh) : ∃ u s, jsonParse l.text ⟨.empty, A⟩ = .ok u s ∧
      ApiHeap s.heap ∧ u < s.heap.next ∧ Denotes s.heap (.float l.read) u := by
  have hfollows : l.Follows (l.text.drop l.text.length) := by
    rw [List.drop_length]
    exact ⟨not_starts_nil, fun _ => not_starts_nil, fun _ _ => not_starts_nil⟩
  have hnumber := numberToken_read (spells_self l.text) hfollows hfloat
  rw [if_pos hread] at hnumber
  have htext : JsonText l.text (.float l.read) :=
    ⟨0, _, .nil 0, .number hnumber, .nil _⟩
  obtain ⟨u, s, hparse, hapi, hu, -, hden, -⟩ :=
    ApiHeap.empty.exists_parsed hlen (refParse_iff.mpr ⟨htext, inLimits_float _, rfl⟩) hA
  exact ⟨u, s, hparse, hapi, hu, hden.denotes⟩

/-- The literal with the digits of `n` in front of the point and those of `d` behind it. -/
def pointNumber (n d : ℕ) : Literal :=
  pointLiteral false ⟨text n, text_ne_nil n, text_isDigit⟩ (text_noZero n) (text d) text_isDigit

theorem magnitudeText_eq {m : Magnitude} {U : ℕ} (hm : m.units = U) :
    Double.magnitudeText m = if U = 0 then [0x30] else
      Double.generalText (text (toDecimal 17 (U * 10 ^ Double.decimalShift) oneUnits).1)
        ((toDecimal 17 (U * 10 ^ Double.decimalShift) oneUnits).2 + 16 - Double.decimalShift) := by
  rw [Double.magnitudeText, Double.decimal17, Prod.map_fst, Prod.map_snd, id_eq, hm]

theorem floatBytes_finite {m : Magnitude} {digits bytes : List UInt8}
    (hmag : Double.magnitudeText m = digits) (hlen : digits.length + 2 < 32)
    (hpoint : withPoint digits = bytes) : floatBytes (Double.finite false m) = bytes := by
  have hprint : Double.snprintf17g (.finite false m) = digits := hmag
  have hshort : (Double.snprintf17g (.finite false m)).length + 2 < 32 := by rwa [hprint]
  rw [floatBytes, floatText_of_short _ _ hshort, hprint, hpoint]

/-- The double that is read for `1.1` is written with the digit 1 in the last place. -/
theorem floatBytes_elevenTenths :
    floatBytes (pointNumber 1 1).read = (pointNumber 1 1000000000000001).text := by
  have hfast : (pointNumber 1 1).IsFast := by decide
  have hlt : unitsOf (fastProduct 11 (-1)) < topUnits :=
    fastProduct_finite (by norm_num) (by decide)
  have hparts : (pointNumber 1 1).scan.fastMant = 11 ∧ (pointNumber 1 1).scan.fastExp10 = -1 := by
    decide
  rw [Literal.read, if_pos hfast, hparts.1, hparts.2, Double.round_of_lt _ hlt]
  have hmag : Double.magnitudeText ⟨unitsOf (fastProduct 11 (-1)), fits_unitsOf _, hlt⟩
      = (pointNumber 1 1000000000000001).text := by
    rw [magnitudeText_eq (unitsOf_fastProduct_neg 11 1)]
    decide +kernel
  exact floatBytes_finite hmag (by decide) (by decide)

/-- The number `0.0` is read as zero. -/
theorem unitsOf_pointNumber_zero : unitsOf (pointNumber 0 0).ratValue = 0 := by
  have hvalue : value ((pointNumber 0 0).int.bytes ++ (pointNumber 0 0).fracDigits) = 0 := by
    decide
  rw [← unitsOf_abs, Double.abs_ratValue, hvalue, Nat.cast_zero, zero_mul, ← Nat.cast_zero,
    unitsOf_nat, Nat.zero_mul]
  exact toBits_self (by decide) (fits_zero 53)

theorem floatBytes_zero : floatBytes (pointNumber 0 0).read = (pointNumber 0 0).text := by
  have hslow : ¬ (pointNumber 0 0).IsFast := by decide
  have hlt : unitsOf (pointNumber 0 0).ratValue < topUnits := by
    rw [unitsOf_pointNumber_zero]
    exact topUnits_pos
  rw [Literal.read, if_neg hslow, Double.round_of_lt _ hlt]
  have hmag : Double.magnitudeText ⟨_, fits_unitsOf _, hlt⟩ = [0x30] := by
    rw [magnitudeText_eq unitsOf_pointNumber_zero, if_pos rfl]
  exact floatBytes_finite hmag (by decide) (by decide)

set_option maxRecDepth 4000 in
/-- The fast path is not exact on this text. -/
theorem not_fastExact_elevenTenths : ¬ (pointNumber 1 1000000000000001).FastExact := by
  have hfast : (pointNumber 1 1000000000000001).IsFast := by decide
  have hparts : (pointNumber 1 1000000000000001).scan.fastMant = 11000000000000001 ∧
      (pointNumber 1 1000000000000001).scan.fastExp10 = -16 := by decide
  have habs : |(pointNumber 1 1000000000000001).ratValue|
      = ((11000000000000001 : ℕ) : ℚ) / ((10 ^ 16 : ℕ) : ℚ) := by
    rw [Double.abs_ratValue]
    have hvalue : value ((pointNumber 1 1000000000000001).int.bytes ++
        (pointNumber 1 1000000000000001).fracDigits) = 11000000000000001 := by decide
    have hlen : (pointNumber 1 1000000000000001).fracDigits.length = 16 := by decide
    have hexp : (pointNumber 1 1000000000000001).exponent = 0 := rfl
    rw [hvalue, hlen, hexp]
    norm_num
  rw [Literal.fastExact_iff _ hfast, hparts.1, hparts.2,
    ← unitsOf_abs (pointNumber 1 1000000000000001).ratValue, habs,
    unitsOf_div _ (by norm_num)]
  have hunits := unitsOf_fastProduct_neg 11000000000000001 16
  rw [show (-(16 : ℕ) : ℤ) = -16 from rfl] at hunits
  rw [hunits]
  decide +kernel

/-- The output for a double, with the default options. -/
theorem render_float (f : Double) : (Json.float f).render kDefaultOpts = floatBytes f := by
  show bytesOf ([.text (floatBytes f)] ++ []) = _
  rw [List.append_nil, bytesOf_cons, bytesOf_nil, List.append_nil]
  rfl

theorem render_float_length {f : Double} (hf : CDouble.nonFinite f = false) :
    ((Json.float f).render kDefaultOpts).length < 32 := by
  obtain ⟨b, hb⟩ := hasText_of_finite hf
  rw [render_float, floatBytes, hb]
  exact (floatText_length hb).2

/-! ## The second output -/

/-- **Parse, write, parse and write.**  What `json_write` makes of a parsed document with the
default options is accepted by `json_parse`, and written again; the second output is the first
one exactly if the parser finds every double of the document in the 17 digits that are written
for it. -/
theorem jsonWrite_stable {src : List UInt8} (hlen : src.length ≤ ptrdiffMax) {s s' : St Double}
    {u : JsonPtr} (hapi : ApiHeap s.heap) (hparse : jsonParse src s = .ok u s') :
    ∃ j : Json Double, JsonText src j ∧ Denotes s'.heap j u ∧
      ∀ (buf : ℕ → UInt8) (c : ℕ) (sortMem : ℕ → Bool),
        (j.render kDefaultOpts).length < c → c ≤ ptrdiffMax →
        ∃ r, jsonWrite s'.heap u buf c kDefaultOpts sortMem = .ok r ∧ r.status = .ok ∧
          ∀ (g : Heap Double) (A : Arena), ApiHeap g → A.Fresh →
            ∃ w t, jsonParse r.bytes ⟨g, A⟩ = .ok w t ∧
              ∃ j' : Json Double, Denotes t.heap j' w ∧
                ∀ (buf' : ℕ → UInt8) (c' : ℕ) (sortMem' : ℕ → Bool),
                  (j'.render kDefaultOpts).length < c' → c' ≤ sizeMax →
                  ∃ r', jsonWrite t.heap w buf' c' kDefaultOpts sortMem' = .ok r' ∧
                    r'.status = .ok ∧ (r'.bytes = r.bytes ↔ j.Floats Double.ReadsExactly) := by
  obtain ⟨hapi', hu, -⟩ := hapi.parse hparse
  have hrep := hapi'.repOk
  obtain ⟨j, href, hdenIn⟩ := jsonParse_ref_or_oom hlen hparse
  have hden : Denotes s'.heap j u := hdenIn.denotes
  obtain ⟨htext, hnest, hwidth, hnodes, -⟩ := refParse_from_iff.mp href
  have hlim : j.InLimits := ⟨hnest, hwidth, by omega⟩
  have hfin : j.Floats fun f => CDouble.nonFinite f = false := by
    obtain ⟨p, q, -, hder, -⟩ := htext
    exact hder.finite
  have htexts : j.TextsOk := by
    have hunfold := (unfold_inOrder hrep false jsonMaxDepth hu).1
    rwa [hden.unfold hlim.levels] at hunfold
  refine ⟨j, htext, hden, fun buf c sortMem hfit hc => ?_⟩
  obtain ⟨r, hr, hok, hbytes⟩ := jsonWrite_finite hrep hu hden hfin hlim rfl
    (hc.trans (by decide)) hfit buf sortMem
  refine ⟨r, hr, hok, fun g A hg hA => ?_⟩
  obtain ⟨w, t, hparse', hden'⟩ := jsonParse_render htexts hfin hlim (hfit.le.trans hc) g hA
  rw [hbytes]
  obtain ⟨hapi'', hw, -⟩ := hg.parse hparse'
  refine ⟨w, t, hparse', _, hden', fun buf' c' sortMem' hfit' hc' => ?_⟩
  have hfin' := hfin.mapFloats Double.reread
    (Q := fun f => CDouble.nonFinite f = false) fun f hf => Double.reread_finite hf
  obtain ⟨r', hr', hok', hbytes'⟩ := jsonWrite_finite hapi''.repOk hw hden' hfin'
    (hlim.mapFloats _) rfl hc' hfit' buf' sortMem'
  refine ⟨r', hr', hok', ?_⟩
  rw [hbytes']
  exact render_reread_iff kDefaultOpts hfin

/-- The text `0.0` is written as it is, and again. -/
theorem jsonWrite_stable_zero : ∃ (A : Arena) (u w : JsonPtr) (s t : St Double) (r : Written),
    A.Fresh ∧ jsonParse [0x30, 0x2E, 0x30] ⟨.empty, A⟩ = .ok u s ∧
      jsonWrite s.heap u (fun _ => 0) 32 kDefaultOpts (fun _ => true) = .ok r ∧
      jsonParse r.bytes ⟨.empty, A⟩ = .ok w t ∧ ∃ j : Json Double, Denotes t.heap j w ∧
        ∀ c, (j.render kDefaultOpts).length < c → c ≤ sizeMax →
          ∃ r', jsonWrite t.heap w (fun _ => 0) c kDefaultOpts (fun _ => true) = .ok r' ∧
            r'.bytes = r.bytes := by
  obtain ⟨A, hA⟩ := Arena.exists_fresh
  have hsrc : (pointNumber 0 0).text = [0x30, 0x2E, 0x30] := by decide
  have hslow : ¬ (pointNumber 0 0).IsFast := by decide
  have hzero : unitsOf (pointNumber 0 0).ratValue < topUnits := by
    rw [unitsOf_pointNumber_zero]
    exact topUnits_pos
  have hfin := (pointNumber 0 0).read_finite (.inr hzero)
  obtain ⟨u, s, hparse, -, -, hden⟩ :=
    exists_parsed_literal (l := pointNumber 0 0) rfl (.inr hzero) (by rw [hsrc]; decide) hA
  have hexact : (pointNumber 0 0).read.ReadsExactly :=
    ⟨pointNumber 0 0, rfl, floatBytes_zero, fun hfast => absurd hfast hslow⟩
  generalize (pointNumber 0 0).read = f at hfin hden hexact
  rw [hsrc] at hparse
  obtain ⟨j, -, hj, hstable⟩ := jsonWrite_stable (by decide) .empty hparse
  obtain rfl := hj.unique hden
  obtain ⟨r, hr, -, hagain⟩ := hstable (fun _ => 0) 32 (fun _ => true)
    (render_float_length hfin) (by decide)
  obtain ⟨w, t, hparse', j', hden', hwrite⟩ := hagain .empty A .empty hA
  refine ⟨A, u, w, s, t, r, hA, hparse, hr, hparse', j', hden', fun c hfit hc => ?_⟩
  obtain ⟨r', hr', -, hiff⟩ := hwrite (fun _ => 0) c (fun _ => true) hfit hc
  exact ⟨r', hr', hiff.mpr hexact⟩

/-- **One digit off.**  The text `1.1` is parsed, and written as `1.1000000000000001`; this is
accepted, and the fast path reads another double, so that something else is written. -/
theorem jsonWrite_unstable : ∃ (A : Arena) (u w : JsonPtr) (s t : St Double) (r r' : Written),
    A.Fresh ∧ jsonParse [0x31, 0x2E, 0x31] ⟨.empty, A⟩ = .ok u s ∧
      jsonWrite s.heap u (fun _ => 0) 32 kDefaultOpts (fun _ => true) = .ok r ∧ r.status = .ok ∧
      jsonParse r.bytes ⟨.empty, A⟩ = .ok w t ∧
      jsonWrite t.heap w (fun _ => 0) 32 kDefaultOpts (fun _ => true) = .ok r' ∧
      r'.status = .ok ∧ r'.bytes ≠ r.bytes := by
  obtain ⟨A, hA⟩ := Arena.exists_fresh
  have hsrc : (pointNumber 1 1).text = [0x31, 0x2E, 0x31] := by decide
  have hfast : (pointNumber 1 1).IsFast := by decide
  have hfin := (pointNumber 1 1).read_finite (.inl hfast)
  obtain ⟨u, s, hparse, hapi, hu, hden⟩ :=
    exists_parsed_literal (l := pointNumber 1 1) rfl (.inl hfast) (by rw [hsrc]; decide) hA
  rw [hsrc] at hparse
  have htext := floatBytes_elevenTenths
  generalize (pointNumber 1 1).read = f at hfin hden htext
  have hlim := inLimits_float f
  obtain ⟨r, hr, hok, hbytes⟩ := jsonWrite_finite hapi.repOk hu hden hfin hlim rfl (c := 32)
    (by decide) (render_float_length hfin) (fun _ => 0) fun _ => true
  have hlen : ((Json.float f).render kDefaultOpts).length ≤ ptrdiffMax :=
    (render_float_length hfin).le.trans (by decide)
  obtain ⟨w, t, hparse', hden'⟩ := jsonParse_render (j := .float f) trivial hfin hlim hlen .empty hA
  obtain ⟨hapi', hw, -⟩ := ApiHeap.empty.parse hparse'
  obtain ⟨r', hr', hok', hbytes'⟩ := jsonWrite_finite hapi'.repOk hw hden'
    (Double.reread_finite hfin) (hlim.mapFloats _) rfl (c := 32) (by decide)
    (render_float_length (Double.reread_finite hfin)) (fun _ => 0) fun _ => true
  refine ⟨A, u, w, s, t, r, r', hA, hparse, hr, hok, by rwa [hbytes], hr', hok', ?_⟩
  rw [hbytes, hbytes']
  intro heq
  have hexact : f.ReadsExactly := (render_reread_iff kDefaultOpts (j := .float f) hfin).mp heq
  exact not_fastExact_elevenTenths
    ((Double.reread_eq_iff_exact hfin rfl htext).mp ((Double.reread_eq_iff hfin).mpr hexact))

end SJson
