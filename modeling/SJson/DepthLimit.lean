/-
# The depth limits of the parser and of the writer

The parser counts containers, and stops at `JSON_MAX_DEPTH` of them even if the innermost one
is empty; the writer and `json_clone` count levels of values.  A text of the grammar that is
within the other limits is refused with `JSON_ERR_DEPTH_EXCEEDED` exactly if more than
`JSON_MAX_DEPTH - 1` containers are nested in it (`refParse_deep`), while the writer gets one
container further: so its output is read back exactly if the innermost of these is not there
(`jsonParse_depth`).  What the parser returns is never too deep for the writer.
-/
import SJson.RoundTrip
import SJson.CloneSpec
import SJson.ParserAppend

namespace SJson

open ErrState

variable {D : Type} [CDouble D] {src : List UInt8}

/-! ## Texts that are too deep -/

/-- What the reference parser does with a phrase that is too deep. -/
def Phrase.Deep (src : List UInt8) (p : ℕ) : Phrase D → Prop
  | .value j => ∀ fuel depth nodes pos, wsEnd src pos = p → 2 * (src.length - pos) < fuel →
      depth ≤ jsonMaxDepth → jsonMaxDepth < depth + j.nesting → nodes + j.nodes ≤ jsonMaxNodes →
      j.width ≤ jsonMaxArrayLen →
      (refValue src fuel depth nodes pos : Scan (Json D × ℕ × ℕ)) = .error (.err .depthExceeded)
  | .items l => ∀ fuel depth nodes pos acc, wsEnd src pos = p →
      2 * (src.length - pos) + 1 < fuel → depth < jsonMaxDepth →
      jsonMaxDepth < depth + 1 + Json.nestingArr l → nodes + Json.nodesArr l ≤ jsonMaxNodes →
      acc.length + l.length ≤ jsonMaxArrayLen → Json.widthArr l ≤ jsonMaxArrayLen →
      (refItems src fuel depth nodes pos acc : Scan (Json D × ℕ × ℕ))
        = .error (.err .depthExceeded)
  | .pairs l => ∀ fuel depth nodes pos acc, wsEnd src pos = p →
      2 * (src.length - pos) + 1 < fuel → depth < jsonMaxDepth →
      jsonMaxDepth < depth + 1 + Json.nestingObj l → nodes + Json.nodesObj l ≤ jsonMaxNodes →
      acc.length + l.length ≤ jsonMaxArrayLen → Json.widthObj l ≤ jsonMaxArrayLen →
      (refPairs src fuel depth nodes pos acc : Scan (Json D × ℕ × ℕ))
        = .error (.err .depthExceeded)

theorem deep_scalar {p : ℕ} {j : Json D} (hj : j.nesting = 0) : Phrase.Deep src p (.value j) := by
  intro fuel depth nodes pos _ _ hdepth hdeep _ _
  omega

/-- A container is refused where it is opened, or for what it contains. -/
theorem deep_open {p : ℕ} {c : UInt8} {j : Json D} (hc : src[p]? = some c)
    (h : ∀ fuel depth nodes, 2 * (src.length - p) < fuel + 1 → depth < jsonMaxDepth →
      jsonMaxDepth < depth + j.nesting → nodes + j.nodes ≤ jsonMaxNodes →
      j.width ≤ jsonMaxArrayLen →
      (refInner src fuel depth nodes p c : Scan (Json D × ℕ × ℕ)) = .error (.err .depthExceeded))
    (hbracket : c = 0x5B ∨ c = 0x7B) : Phrase.Deep src p (.value j) := by
  intro fuel depth nodes pos hpos hfuel hdepth hdeep hmax hwidth
  have hle := le_wsEnd src pos
  have hp := (List.getElem?_eq_some_iff.mp hc).1
  have hnodes := j.nodes_pos
  obtain ⟨fuel, rfl⟩ : ∃ k, fuel = k + 1 := ⟨fuel - 1, by omega⟩
  rw [refValue_open hpos hc hbracket (by omega)]
  by_cases hlast : depth ≥ jsonMaxDepth
  · rw [if_pos hlast]
  · rw [if_neg hlast]
    exact h fuel depth nodes (by omega) (by omega) hdeep hmax hwidth

/-- **A phrase that is too deep is refused for its depth**, if it is within the other limits. -/
theorem Derives.deep {ph : Phrase D} {p q : ℕ} (h : Derives src ph p q) :
    Phrase.Deep src p ph := by
  induction h with
  | litNull _ => exact deep_scalar rfl
  | litTrue _ => exact deep_scalar rfl
  | litFalse _ => exact deep_scalar rfl
  | string _ _ => exact deep_scalar rfl
  | @number p q n h =>
    have hisnum := (numberToken_ok h).1
    cases n with
    | integer i => exact deep_scalar rfl
    | float f => exact deep_scalar rfl
    | _ => exact absurd hisnum id
  | arrNil hopen _ _ =>
    refine deep_open hopen (fun fuel depth nodes _ hdepth hdeep _ _ => ?_) (.inl rfl)
    simp only [Json.nesting, Json.nestingArr] at hdeep
    omega
  | objNil hopen _ _ =>
    refine deep_open hopen (fun fuel depth nodes _ hdepth hdeep _ _ => ?_) (.inr rfl)
    simp only [Json.nesting, Json.nestingObj] at hdeep
    omega
  | @arr p q r items hopen hws h ih =>
    obtain ⟨c, hc, hnot, hclose, -⟩ := h.head
    obtain ⟨hend, hpeek⟩ := peek_of_ws hws hc hnot
    have hle := hws.le
    have hq := h.pos
    refine deep_open hopen (fun fuel depth nodes hfuel hdepth hdeep hmax hwidth => ?_) (.inl rfl)
    rw [Json.nesting] at hdeep
    rw [Json.nodes] at hmax
    rw [Json.width] at hwidth
    rw [refInner, if_pos rfl, if_neg (by simpa [hpeek] using hclose), hend]
    exact ih fuel depth (nodes + 1) q [] (by rw [← hend, wsEnd_idem]) (by omega) hdepth (by omega)
      (by omega) (by rw [List.length_nil]; omega) (by omega)
  | @obj p q r pairs hopen hws h ih =>
    obtain ⟨c, hc, hnot, -, hclose⟩ := h.head
    obtain ⟨hend, hpeek⟩ := peek_of_ws hws hc hnot
    have hle := hws.le
    have hq := h.pos
    refine deep_open hopen (fun fuel depth nodes hfuel hdepth hdeep hmax hwidth => ?_) (.inr rfl)
    rw [Json.nesting] at hdeep
    rw [Json.nodes] at hmax
    rw [Json.width] at hwidth
    rw [refInner, if_neg (by decide), if_neg (by simpa [hpeek] using hclose), hend]
    exact ih fuel depth (nodes + 1) q [] (by rw [← hend, wsEnd_idem]) (by omega) hdepth (by omega)
      (by omega) (by rw [List.length_nil]; omega) (by omega)
  | @itemsLast p q r j h hws hclose ih =>
    intro fuel depth nodes pos acc hpos hfuel hdepth hdeep hmax hlen hwidth
    obtain ⟨fuel, rfl⟩ : ∃ k, fuel = k + 1 := ⟨fuel - 1, by omega⟩
    simp only [Json.nestingArr, Json.nodesArr, Json.widthArr] at *
    rw [refItems, scan_bind_error (ih fuel (depth + 1) nodes pos hpos (by omega) (by omega)
      (by omega) (by omega) (by omega))]
  | @itemsCons p q r t u j items h hws hcomma hws' h' ih ih' =>
    intro fuel depth nodes pos acc hpos hfuel hdepth hdeep hmax hlen hwidth
    obtain ⟨fuel, rfl⟩ : ∃ k, fuel = k + 1 := ⟨fuel - 1, by omega⟩
    simp only [Json.nestingArr, Json.nodesArr, Json.widthArr, List.length_cons] at *
    by_cases hj : jsonMaxDepth < depth + 1 + j.nesting
    · rw [refItems, scan_bind_error (ih fuel (depth + 1) nodes pos hpos (by omega) (by omega) hj
        (by omega) (by omega))]
    · -- the item is read, and the rest is too deep
      obtain ⟨c, hc, hnot, -⟩ := h'.head
      have hstart := le_wsEnd src pos
      have hp := h.pos
      have hq := hws.le
      have ht := hws'.le
      have hu := h'.pos
      have hvalue := h.read fuel (depth + 1) nodes pos hpos (by omega) (by omega) (by omega)
        (by omega)
      rw [refItems_value hvalue (by omega) hws hcomma rfl, if_neg (by decide), if_pos rfl]
      exact ih' fuel depth _ (r + 1) (acc ++ [j]) (hws'.wsEnd_of_not_ws hc hnot) (by omega) hdepth
        (by omega) (by omega) (by rw [List.length_append, List.length_singleton]; omega) (by omega)
  | @pairsLast p q r t u v key j hquote hkey hws hcolon hws' h hws2 hclose ih =>
    intro fuel depth nodes pos acc hpos hfuel hdepth hdeep hmax hlen hwidth
    obtain ⟨fuel, rfl⟩ : ∃ k, fuel = k + 1 := ⟨fuel - 1, by omega⟩
    obtain ⟨k, hk, -⟩ := refPairs_colon fuel acc hpos hquote hkey hws hcolon
    obtain ⟨c, hc, hnot, -⟩ := h.head
    have hp := (List.getElem?_eq_some_iff.mp hquote).1
    have hq := hkey.pos
    have hr := hws.le
    have hstart := le_wsEnd src pos
    simp only [Json.nestingObj, Json.nodesObj, Json.widthObj] at *
    rw [hk, scan_bind_error (ih fuel (depth + 1) nodes (r + 1) (hws'.wsEnd_of_not_ws hc hnot)
      (by omega) (by omega) (by omega) (by omega) (by omega))]
  | @pairsCons p q r t u v w x key j pairs hquote hkey hws hcolon hws' h hws2 hcomma hws3 h' ih
      ih' =>
    intro fuel depth nodes pos acc hpos hfuel hdepth hdeep hmax hlen hwidth
    obtain ⟨fuel, rfl⟩ : ∃ k, fuel = k + 1 := ⟨fuel - 1, by omega⟩
    obtain ⟨k, hk, hafter⟩ := refPairs_colon fuel acc hpos hquote hkey hws hcolon
    obtain ⟨c, hc, hnot, -⟩ := h.head
    have hp := (List.getElem?_eq_some_iff.mp hquote).1
    have hq := hkey.pos
    have hr := hws.le
    have hstart := le_wsEnd src pos
    simp only [Json.nestingObj, Json.nodesObj, Json.widthObj, List.length_cons] at *
    rw [hk]
    by_cases hj : jsonMaxDepth < depth + 1 + j.nesting
    · rw [scan_bind_error (ih fuel (depth + 1) nodes (r + 1)
        (hws'.wsEnd_of_not_ws hc hnot) (by omega) (by omega) hj (by omega) (by omega))]
    · -- the pair is read, and the rest is too deep
      obtain ⟨c', hc', hnot', -⟩ := h'.head
      have hr' := hws'.le
      have ht := h.pos
      have hu := hws2.le
      have hv := hws3.le
      have hw := h'.pos
      rw [scan_bind_ok (h.read fuel (depth + 1) nodes (r + 1) (hws'.wsEnd_of_not_ws hc hnot)
        (by omega) (by omega) (by omega) (by omega)),
        hafter _ _ _ _ _ (by omega) hws2 hcomma rfl, if_neg (by decide), if_pos rfl]
      exact ih' fuel depth _ (v + 1) (acc ++ [(key, j)]) (hws3.wsEnd_of_not_ws hc' hnot')
        (by omega) hdepth (by omega) (by omega)
        (by rw [List.length_append, List.length_singleton]; omega) (by omega)

/-- A text that is too deep, and within the other limits. -/
theorem refParse_deep {j : Json D} (htext : JsonText src j) (hdeep : jsonMaxDepth ≤ j.nesting)
    (hwidth : j.width ≤ jsonMaxArrayLen) (hnodes : j.nodes ≤ jsonMaxNodes) :
    (refParse src 0 : Scan (Json D × ℕ)) = .error (.err .depthExceeded) := by
  obtain ⟨p, q, hws, hder, -⟩ := htext
  obtain ⟨c, hc, hnot, -⟩ := hder.head
  have hval := hder.deep (2 * src.length + 1) 1 0 0 (hws.wsEnd_of_not_ws hc hnot) (by omega)
    (by decide) (by omega) (by omega) hwidth
  rw [refParse, scan_bind_error hval]

/-! ## Reading back -/

/-- What the parser returns is not too deep for equality, the writer and copies. -/
theorem jsonParse_ends (hlen : src.length ≤ ptrdiffMax) {s s' : St D} {u : JsonPtr}
    (hparse : jsonParse src s = .ok u s') : s'.heap.EndsAt jsonMaxDepth u := by
  obtain ⟨j, href, hden⟩ := jsonParse_ref_or_oom hlen hparse
  have hnest := (refParse_from_iff.mp href).2.1
  exact hden.denotes.ends (Json.levels_le_maxDepth hnest)
    (Json.floats_true j)

/-- **When the depth limits agree.**  Output for a value without doubles is refused for its
depth exactly if `JSON_MAX_DEPTH` containers are nested in it.  In the other direction the
limits always agree: what was parsed is measured, written and copied down to its leaves. -/
theorem jsonParse_depth {h : Heap D} (hh : ApiHeap h) {v : JsonPtr} (hv : v < h.next)
    {j : Json D} (hden : Denotes h j v) (hfree : j.FloatFree) (hnodes : j.nodes ≤ jsonMaxNodes)
    (opts : JsonWriteOpts) {c : ℕ} (hc : c ≤ ptrdiffMax) (hfit : (h.rendering opts v).length < c)
    (buf : ℕ → UInt8) {sortMem : ℕ → Bool} (hmem : ∀ k, sortMem k = true) {r : Written}
    (hwrite : jsonWrite h v buf c opts sortMem = .ok r) (hok : r.status = .ok) (g : Heap D)
    {A : Arena} (hA : A.Fresh) :
    ((∀ s, jsonParse r.bytes ⟨g, A⟩ ≠ .error (.err .depthExceeded) s) ↔
      j.nesting ≤ jsonMaxDepth - 1) ∧
    ∀ {src : List UInt8} {s s' : St D} {u : JsonPtr}, src.length ≤ ptrdiffMax →
      ApiHeap s.heap → jsonParse src s = .ok u s' →
      (∀ opts, ∃ e n, jsonMeasure s'.heap u opts = .ok (e, n) ∧ e ≠ .depthExceeded) ∧
      (∀ opts buf c sortMem, ∃ r, jsonWrite s'.heap u buf c opts sortMem = .ok r ∧
        r.status ≠ .depthExceeded) ∧
      ∀ B : Arena, B.Roomy (s'.heap.treeAt jsonMaxDepth u).copyCost →
        B.nodeCount + (s'.heap.treeAt jsonMaxDepth u).nodes ≤ jsonMaxNodes →
        ∃ q t, jsonClone u ⟨s'.heap, B⟩ = .ok (some q) t := by
  have hrep := hh.repOk
  refine ⟨⟨fun hno => ?_, fun hnest s herr => ?_⟩, fun {src s s' u} hlen hapi hparse => ?_⟩
  · by_contra hdeep
    obtain ⟨hlevels, -⟩ := hden.ends_iff.mp (jsonWrite_ok hwrite hok)
    have hw : h.Writable jsonMaxDepth v := hden.ends hlevels hfree.printable
    obtain ⟨r', hr', hholds⟩ := jsonWrite_of_writable opts hrep hv hw hfit
      (hc.trans (by decide)) buf hmem
    obtain rfl : r = r' := Except.ok.inj (hwrite.symm.trans hr')
    -- the text stands for the tree that was written, which is as deep
    obtain ⟨htexts, hwidth⟩ := unfold_inOrder hrep opts.sortKeys jsonMaxDepth hv
    have hfree' : (h.unfold opts.sortKeys jsonMaxDepth v).FloatFree :=
      (Heap.Ends.unfold opts.sortKeys (hden.ends hlevels hfree)).2
    have hnest' := nesting_unfold_le h false opts.sortKeys jsonMaxDepth v
    have hnodes' := nodes_unfold h opts.sortKeys jsonMaxDepth v
    rw [hden.unfold hlevels] at hnest' hnodes'
    have href := refParse_deep (jsonText_floatFree opts htexts hfree') (by omega) hwidth
      (hnodes'.trans_le hnodes)
    have hpar := jsonParse_ref (D := D) (s := ⟨g, A⟩) (hA.budget (hfit.le.trans hc))
    rw [show (⟨g, A⟩ : St D).arena.nodeCount = 0 from hA.nodeCount] at hpar
    rw [Heap.rendering] at hpar
    rw [href] at hpar
    obtain ⟨s, hs⟩ := hpar
    exact hno s (by rw [hholds.bytes_eq]; exact hs)
  · obtain ⟨r', hr', -, hpar⟩ :=
      jsonWrite_readBack hh hv hden hfree hnodes hnest opts hc hfit buf hmem
    obtain rfl : r = r' := Except.ok.inj (hwrite.symm.trans hr')
    obtain ⟨w, t, hparse, -⟩ := hpar g A hA
    rw [hparse] at herr
    cases herr
  · obtain ⟨hapi', hu, -⟩ := hapi.parse hparse
    have hends := jsonParse_ends hlen hparse
    refine ⟨fun opts => ?_, fun opts buf c sortMem => ?_, fun B hroom hcount => ?_⟩
    · obtain ⟨e, n, hm, hcode⟩ := jsonMeasure_codes hapi'.repOk hu opts
      exact ⟨e, n, hm, by rintro rfl; exact hcode hends⟩
    · obtain ⟨r, hr, hcode, -⟩ := jsonWrite_codes hapi'.repOk hu buf c opts sortMem
      exact ⟨r, hr, fun he => by rw [he] at hcode; exact hcode hends⟩
    · obtain ⟨q, t, hclone, hq⟩ := jsonCloneAt_copies hapi'.repOk jsonMaxDepth u ⟨s'.heap, B⟩ hu
        (.refl ..)
      cases q with
      | some q => exact ⟨q, t, hclone⟩
      | none =>
        have hlt : jsonMaxNodes < B.nodeCount + (s'.heap.treeAt jsonMaxDepth u).nodes :=
          hq hends hroom
        omega

/-! ## The deepest output -/

/-- An array around a value that clients have. -/
theorem ApiHeap.exists_wrapped {h : Heap D} (hh : ApiHeap h) {A : Arena} (hA : A.Fresh)
    {j : Json D} {p : JsonPtr} (hp : p < h.next) (hden : Denotes h j p) :
    ∃ h' v, ApiHeap h' ∧ v < h'.next ∧ Denotes h' (.arr [j]) v := by
  have hrep := hh.repOk
  have hroom : ∀ n, n ≤ 2 ^ 32 → A.Roomy n := fun n hn =>
    hA.roomy (by unfold sizeMax; omega)
  have hcall := ApiHeap.call .makeArray A hh (by simp [ApiCall.args])
  rcases jsonNewNode_cases (⟨h, A⟩ : St D) with
    ⟨hmax, -⟩ | ⟨-, A', ⟨hsome, -⟩ | ⟨-, -, hno⟩⟩
  · rw [hA.nodeCount] at hmax
    exact absurd hmax (by decide)
  · have hrun : (ApiCall.makeArray : ApiCall D).run ⟨h, A⟩
        = .ok (some h.next) ⟨h.new.set h.next (.array .empty), A'⟩ := bind_ok hsome
    rw [stateAfter_ok hrun] at hcall
    have hgrows : h.Grows (h.new.set h.next (.array .empty)) none := .alloc ..
    generalize hg : h.new.set h.next (.array .empty) = g at hcall hgrows
    have hnode : g.node h.next = .array .empty := by rw [← hg, Heap.set_node_self]
    have hlt : h.next < g.next := by rw [← hg]; exact Nat.lt_succ_self _
    have hp' : p < g.next := hp.trans hlt
    have hcall' := ApiHeap.call (.arrPush h.next p) A hcall (by simp [ApiCall.args, hlt, hp'])
    have hread : (readNode h.next : M D _) ⟨g, A⟩ = .ok (.array .empty) ⟨g, A⟩ := by
      rw [readNode, hnode]
    rcases arrStore_cases (⟨g, A⟩ : St D) p hnode ⟨le_rfl, Nat.zero_le _⟩ with
      ⟨hmax, -⟩ | ⟨-, A'', c, -, ⟨hstore, -⟩ | ⟨-, hno⟩⟩
    · exact absurd hmax (by decide)
    · have hpush : (jsonArrPush h.next p : M D Unit) ⟨g, A⟩
          = .ok () ⟨g.set h.next (.array ⟨[p], c⟩), A''⟩ := (bind_ok hread).trans hstore
      rw [ApiCall.run, stateAfter_map, stateAfter_ok hpush] at hcall'
      have hgrows' : h.Grows (g.set h.next (.array ⟨[p], c⟩)) none :=
        (hgrows.except.trans (.set ..)).fresh le_rfl
      exact ⟨_, h.next, hcall', hlt, denotesIn_arr.mpr ⟨trivial, _, Heap.set_node_self ..,
        .cons (hden.grows hrep hp hgrows') .nil⟩⟩
    · exact absurd (hroom (growCost + 0) (by decide)) (hno 0)
  · exact absurd (hroom (47 + 0) (by decide)) (hno 0)

/-- Arrays in arrays; the innermost one is empty. -/
def nested (D : Type) : ℕ → Json D
  | 0 => .arr []
  | n + 1 => .arr [nested D n]

omit [CDouble D] in
theorem nested_inOrder (n : ℕ) : (nested D n).TextsOk ∧ (nested D n).FloatFree ∧
    (nested D n).nesting = n + 1 ∧ (nested D n).levels = n + 1 ∧ (nested D n).nodes = n + 1 ∧
    (nested D n).width ≤ 1 := by
  induction n with
  | zero => exact ⟨trivial, trivial, rfl, rfl, rfl, Nat.zero_le _⟩
  | succ n ih =>
    obtain ⟨htexts, hfree, hnest, hlevels, hnodes, hwidth⟩ := ih
    refine ⟨⟨htexts, trivial⟩, ⟨hfree, trivial⟩, ?_, ?_, ?_, ?_⟩
    · simp [nested, Json.nesting, Json.nestingArr, hnest]
    · simp [nested, Json.levels, Json.levelsArr, hlevels]
    · simp [nested, Json.nodes, Json.nodesArr, hnodes]
    · simp [nested, Json.width, Json.widthArr, hwidth]

theorem length_nested (n depth : ℕ) :
    (bytesOf ((nested D n).pieces kDefaultOpts depth)).length = 2 * (n + 1) := by
  induction n generalizing depth with
  | zero => rfl
  | succ n ih =>
    have hlen := ih (depth + 1)
    simp only [nested, Json.pieces, Json.piecesArr, newLine, closePieces, commaPieces, kDefaultOpts,
      bytesOf_cons, bytesOf_append, bytesOf_nil, Piece.bytes, List.length_append] at hlen ⊢
    simp [hlen]
    omega

/-- Sixty-four arrays in one another are written, and what is written is not read back. -/
theorem jsonParse_depth_exceeded :
    ∃ (_ : CDouble Unit) (h : Heap Unit) (v : JsonPtr) (r : Written) (A : Arena) (s : St Unit),
      ApiHeap h ∧ Denotes h (nested Unit 63) v ∧ A.Fresh ∧
      jsonWrite h v (fun _ => 0) 200 kDefaultOpts (fun _ => true) = .ok r ∧ r.status = .ok ∧
      jsonParse r.bytes ⟨.empty, A⟩ = .error (.err .depthExceeded) s := by
  obtain ⟨A, hA⟩ := Arena.exists_fresh
  let _ : CDouble Unit := .unit
  -- one array after the other
  have hbuild : ∀ n, ∃ (h : Heap Unit) (v : JsonPtr), ApiHeap h ∧ v < h.next ∧
      Denotes h (nested Unit n) v := by
    intro n
    induction n with
    | zero =>
      have href : refParse [0x5B, 0x5D] 0 = .ok ((.arr [] : Json Unit), 1) := by rfl
      obtain ⟨v, s, -, hapi, hv, -, hden, -⟩ := ApiHeap.empty.exists_parsed (by decide) href hA
      exact ⟨s.heap, v, hapi, hv, hden.denotes⟩
    | succ n ih =>
      obtain ⟨h, v, hapi, hv, hden⟩ := ih
      exact hapi.exists_wrapped hA hv hden
  obtain ⟨h, v, hapi, hv, hden⟩ := hbuild 63
  obtain ⟨htexts, hfree, hnest, hlevels, hnodes, hwidth⟩ := nested_inOrder (D := Unit) 63
  have hrender : h.rendering kDefaultOpts v = (nested Unit 63).render kDefaultOpts :=
    hden.rendering hlevels.le rfl
  have hlen : ((nested Unit 63).render kDefaultOpts).length = 128 := by
    rw [Json.render, Json.layout, bytesOf_append, List.length_append, length_nested]
    rfl
  obtain ⟨r, hr, hholds⟩ := jsonWrite_of_writable (c := 200) kDefaultOpts hapi.repOk hv
    (hden.ends hlevels.le hfree.printable) (by rw [hrender, hlen]; decide) (by decide)
    (fun _ => 0) (fun _ => rfl)
  have href := refParse_deep (jsonText_floatFree kDefaultOpts htexts hfree) hnest.ge
    (hwidth.trans (by decide)) (by rw [hnodes]; decide)
  have hsize : ((nested Unit 63).render kDefaultOpts).length ≤ ptrdiffMax := by rw [hlen]; decide
  have hpar := jsonParse_ref (D := Unit) (s := ⟨.empty, A⟩) (hA.budget hsize)
  rw [show (⟨.empty, A⟩ : St Unit).arena.nodeCount = 0 from hA.nodeCount, href] at hpar
  obtain ⟨s, hs⟩ := hpar
  refine ⟨_, h, v, r, A, s, hapi, hden, hA, hr, hholds.status, ?_⟩
  rw [hholds.bytes_eq, hrender]
  exact hs

/-- What is written for the value of `[[]]` is not refused for its depth. -/
theorem jsonParse_depth_two :
    ∃ (_ : CDouble Unit) (h : Heap Unit) (v : JsonPtr) (r : Written) (A : Arena), ApiHeap h ∧
      jsonWrite h v (fun _ => 0) 20 kDefaultOpts (fun _ => true) = .ok r ∧ A.Fresh ∧
      ∀ s : St Unit, jsonParse r.bytes ⟨.empty, A⟩ ≠ .error (.err .depthExceeded) s := by
  obtain ⟨A, hA⟩ := Arena.exists_fresh
  let _ : CDouble Unit := .unit
  have href : refParse [0x5B, 0x5B, 0x5D, 0x5D] 0 = .ok ((.arr [.arr []] : Json Unit), 2) := by rfl
  obtain ⟨v, s, -, hapi, hv, -, hden, -⟩ := ApiHeap.empty.exists_parsed (by decide) href hA
  have hrender : s.heap.rendering kDefaultOpts v
      = (.arr [.arr []] : Json Unit).render kDefaultOpts := hden.denotes.rendering (by decide) rfl
  have hfit : (s.heap.rendering kDefaultOpts v).length < 20 := by rw [hrender]; decide
  have hfree : (.arr [.arr []] : Json Unit).FloatFree := ⟨trivial, trivial⟩
  obtain ⟨r, hr, hholds⟩ := jsonWrite_of_writable (c := 20) kDefaultOpts hapi.repOk hv
    (hden.denotes.ends (by decide) hfree.printable) hfit (by decide) (fun _ => 0)
    (fun _ => rfl)
  have hdepth := (jsonParse_depth hapi hv hden.denotes hfree (by decide) kDefaultOpts
    (by decide) hfit (fun _ => 0) (fun _ => rfl) hr hholds.status .empty hA).1
  exact ⟨_, s.heap, v, r, A, hapi, hr, hA, hdepth.mpr (by decide)⟩

end SJson
