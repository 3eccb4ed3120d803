/-
# The machine computes what the reference parser computes

By induction on the fuel of the reference parser: from a configuration that expects a
value, the machine either fails as the reference parser does, or gets to delivering a
node that denotes the tree of the reference parser, with the position behind the value
and the number of nodes that the reference parser says, and without touching a node
that was there before (`ValueLeads`, `parser_leads`).  The same is shown for the rest of an
array and of an object, where the node of the container itself grows.

The backing allocator is assumed not to fail.  What a parse allocates is bounded by
the length of the text and a constant for each node; `Budget` keeps that account.
-/
import SJson.ParserSafety
import SJson.RefParser

namespace SJson

open ErrState ListRel

variable {D : Type}

/-! ## The account of memory -/

/-- What a value costs besides the bytes of its strings: its node, one growth of its
parent, and the rounding of three requests. -/
def valueCost : ℕ := growCost + 512

/-- There is memory for the values that may still be read, for the bytes from `pos` on,
and for `X` bytes. -/
def Budget (src : List UInt8) (A : Arena) (pos X : ℕ) : Prop :=
  A.Roomy (valueCost * (jsonMaxNodes - A.nodeCount) + (src.length - pos) + X)

theorem Budget.mono {src : List UInt8} {A : Arena} {pos pos' X Y : ℕ} (h : Budget src A pos X)
    (hpos : pos ≤ pos') (hXY : Y ≤ X) : Budget src A pos' Y :=
  Arena.Roomy.mono h (by omega)

/-- A request is paid from the bytes read meanwhile and from the reserve. -/
theorem Budget.uses {src : List UInt8} {A A' : Arena} {pos pos' n X Y : ℕ}
    (h : Budget src A pos X) (huses : A.Uses A' n) (hpos : pos ≤ pos') (hlen : pos' ≤ src.length)
    (hn : n + Y ≤ X + (pos' - pos)) : Budget src A' pos' Y := by
  unfold Budget at *
  rw [huses.nodeCount]
  exact huses.roomy _ (Arena.Roomy.mono h (by omega))

/-- The request is granted when the reserve covers it. -/
theorem Budget.roomy {src : List UInt8} {A : Arena} {pos n X : ℕ} (h : Budget src A pos X)
    (hn : n ≤ src.length - pos + X) : A.Roomy n :=
  Arena.Roomy.mono h (by omega)

/-- A new node releases what is kept for it. -/
theorem Budget.node {src : List UInt8} {A A' : Arena} {pos X : ℕ} (h : Budget src A pos (X + 47))
    (hmax : A.nodeCount < jsonMaxNodes) (hcount : A'.nodeCount = A.nodeCount + 1)
    (hroomy : ∀ m, A.Roomy (47 + m) → A'.Roomy m) : Budget src A' pos (X + valueCost) := by
  unfold Budget at *
  refine hroomy _ (Arena.Roomy.mono h ?_)
  have hsub : jsonMaxNodes - A.nodeCount = jsonMaxNodes - A'.nodeCount + 1 := by omega
  rw [hsub, Nat.mul_succ]
  omega

/-! ## Extending the heap -/

/-- The nodes below `h.next` are the same in `h'`, except possibly the one at `x`. -/
structure Heap.Grows (h h' : Heap D) (x : Option JsonPtr) : Prop where
  next : h.next ≤ h'.next
  node : ∀ p, p < h.next → some p ≠ x → h'.node p = h.node p

theorem Heap.Grows.refl (h : Heap D) (x : Option JsonPtr) : h.Grows h x :=
  ⟨le_rfl, fun _ _ _ => rfl⟩

theorem Heap.Grows.trans {h h' h'' : Heap D} {x : Option JsonPtr} (h1 : h.Grows h' x)
    (h2 : h'.Grows h'' x) : h.Grows h'' x :=
  ⟨h1.next.trans h2.next, fun p hp hx => by
    rw [h2.node p (lt_of_lt_of_le hp h1.next) hx, h1.node p hp hx]⟩

theorem Heap.Grows.except {h h' : Heap D} {x : Option JsonPtr} (hg : h.Grows h' none) :
    h.Grows h' x :=
  ⟨hg.next, fun p hp _ => hg.node p hp (Option.some_ne_none p)⟩

/-- What was allocated after `h` does not count as a change. -/
theorem Heap.Grows.fresh {h h' : Heap D} {p : JsonPtr} (hg : h.Grows h' (some p))
    (hp : h.next ≤ p) : h.Grows h' none :=
  ⟨hg.next, fun q hq _ => hg.node q hq fun he =>
    (lt_of_lt_of_le hq hp).ne (Option.some.inj he)⟩

theorem Heap.Grows.set (h : Heap D) (p : JsonPtr) (n : JsonNode D) :
    h.Grows (h.set p n) (some p) :=
  ⟨le_rfl, fun _ _ hx => h.set_node_ne n (by simpa using hx)⟩

theorem Heap.Grows.alloc (h : Heap D) (n : JsonNode D) :
    h.Grows (h.new.set h.next n) none :=
  ⟨Nat.le_succ _, fun p hp _ => by
    rw [h.new.set_node_ne n (Nat.ne_of_lt hp), h.new_node_lt hp]⟩

theorem Heap.Grows.keeps {h h' : Heap D} (hg : h.Grows h' none) : h.Keeps h' where
  arr := fun p ⟨hlt, a, ha, hok⟩ =>
    ⟨lt_of_lt_of_le hlt hg.next, a, by rw [hg.node p hlt (Option.some_ne_none p), ha], hok⟩
  obj := fun p ⟨hlt, o, ho, hok⟩ =>
    ⟨lt_of_lt_of_le hlt hg.next, o, by rw [hg.node p hlt (Option.some_ne_none p), ho], hok⟩

theorem Heap.Keeps.trans {h h' h'' : Heap D} (h1 : h.Keeps h') (h2 : h'.Keeps h'') :
    h.Keeps h'' :=
  ⟨fun p hp => h2.arr p (h1.arr p hp), fun p hp => h2.obj p (h1.obj p hp)⟩

/-- The nodes from `lo` on. -/
abbrev Heap.From (h : Heap D) (lo : JsonPtr) (p : JsonPtr) : Prop := lo ≤ p ∧ p < h.next

/-- A tree stays denoted while only nodes outside it change. -/
theorem DenotesIn.grows {h h' : Heap D} {x : Option JsonPtr} {lo lo' : JsonPtr} {j : Json D}
    {p : JsonPtr} (hp : DenotesIn (h.From lo) h j p) (hg : h.Grows h' x) (hlo : lo' ≤ lo)
    (hx : ∀ q, x = some q → q < lo) : DenotesIn (h'.From lo') h' j p :=
  hp.congr fun q hq => ⟨⟨hlo.trans hq.1, lt_of_lt_of_le hq.2 hg.next⟩,
    hg.node q hq.2 fun hqx => absurd (hx q hqx.symm) (not_lt.mpr hq.1)⟩

/-! ## Steps of the machine -/

/-- The copies of the delivery block agree where they are used. -/
theorem deliver_valueParent {result : JsonPtr} {pos : ℕ} {root : Option JsonPtr}
    {below : List ParseFrame} {h : Heap D} (hbelow : ∀ f ∈ below, f.BelowOk h) :
    (deliver true result pos root below : M D StepResult) =
      deliver false result pos root below := by
  cases below with
  | nil => rfl
  | cons parent fs =>
    have hparent := hbelow parent List.mem_cons_self
    unfold ParseFrame.BelowOk at hparent
    unfold deliver
    cases hs : parent.state with
    | value => simp [hs] at hparent
    | _ => simp only [hs]

variable [CDouble D]

theorem parseStep_eof {src : List UInt8} {pos : ℕ} {frame : ParseFrame} {below : List ParseFrame}
    {s : St D} (h : peek src pos = none) :
    parseStep src ⟨pos, frame :: below, none⟩ s = .error (.err .unexpectedEof) s := by
  refine (bind_ok (ofScan_ok (jsonLexSkipWs_eq src pos))).trans ?_
  rw [if_pos (List.getElem?_eq_none_iff.mp h)]
  cases below <;> rfl

theorem parseStep_of_peek {src : List UInt8} {pos : ℕ} {c : UInt8} {frame : ParseFrame}
    {below : List ParseFrame} {s : St D} (h : peek src pos = some c) :
    parseStep src ⟨pos, frame :: below, none⟩ s
      = stepFrame src (wsEnd src pos) c frame below none s := by
  have hlt := (List.getElem?_eq_some_iff.mp h).1
  refine (bind_ok (ofScan_ok (jsonLexSkipWs_eq src pos))).trans ?_
  rw [if_neg (not_le.mpr hlt), bind_ok (ofScan_ok (rd_of_some h))]

/-- Going on with the next round. -/
theorem leads_next {src : List UInt8} {x : EStateM.Result Fail (St D) StepResult} {cfg : ParseCfg}
    {s : St D} {out : EStateM.Result Fail (St D) (JsonPtr × ℕ)} (hx : x = .ok (.inl cfg) s)
    (h : Leads (parseStep src) (parseStep src cfg s) out) : Leads (parseStep src) x out := by
  rw [hx]
  exact .next h

theorem leads_error {src : List UInt8} {x : EStateM.Result Fail (St D) StepResult} {e : Fail}
    {s : St D} (hx : x = .error e s) : Leads (parseStep src) x (.error e s) := by
  rw [hx]
  exact .error e s

/-! ## Scalars -/

/-- At `pos`, `x` reads the scalar that `token` says, or fails as it does. -/
def ReadsScalar (src : List UInt8) (pos : ℕ) (s : St D) (X : ℕ) (token : Scan (JsonNode D × ℕ))
    (x : M D (JsonNode D × ℕ)) : Prop :=
  (∃ e s', token = .error (.err e) ∧ e.syntactic ∧ x s = .error (.err e) s') ∨
  ∃ n q A', token = .ok (n, q) ∧ x s = .ok (n, q) { s with arena := A' } ∧ pos < q ∧
    q ≤ src.length ∧ A'.nodeCount = s.arena.nodeCount ∧ Budget src A' q X ∧
    ∀ (ok : JsonPtr → Prop) (h : Heap D) (p : JsonPtr), ok p → h.node p = n →
      DenotesIn ok h n.toJson p

section Scalars

variable {src : List UInt8} {pos : ℕ} {s : St D} {X : ℕ}

omit [CDouble D] in
/-- A literal name, which needs no memory. -/
theorem reads_literal (hpos : pos < src.length) (hbudget : Budget src s.arena pos (X + 8))
    (lit : List UInt8) {n : JsonNode D}
    (hden : ∀ (ok : JsonPtr → Prop) (h : Heap D) (p : JsonPtr), ok p → h.node p = n →
      DenotesIn ok h n.toJson p) :
    ReadsScalar src pos s X
      (do let pos ← lexExpectLiteral src (pos + 1) lit
          return (n, pos))
      (do let pos ← ofScan (lexExpectLiteral src (pos + 1) lit)
          return (n, pos)) := by
  have heq := lexExpectLiteral_eq (show pos + 1 ≤ src.length from hpos) lit
  by_cases hmatch : (src.drop (pos + 1)).take lit.length = lit
  · rw [if_pos hmatch] at heq
    have hlen := congrArg List.length hmatch
    rw [List.length_take, List.length_drop] at hlen
    refine .inr ⟨n, pos + 1 + lit.length, s.arena, scan_bind_ok heq, ?_, by omega, by omega, rfl,
      hbudget.mono (by omega) (by omega), hden⟩
    rw [bind_ok (ofScan_ok heq)]
    rfl
  · rw [if_neg hmatch] at heq
    exact .inl ⟨_, s, scan_bind_error heq, rfl, bind_error (ofScan_error heq)⟩

/-- A scalar is read as its token says. -/
theorem parseScalar_cases {c : UInt8} (hc : src[pos]? = some c)
    (hbudget : Budget src s.arena pos (X + 8)) :
    ReadsScalar src pos s X (scalarToken src pos c) (parseScalar src pos c) := by
  have hpos := (List.getElem?_eq_some_iff.mp hc).1
  unfold scalarToken parseScalar
  by_cases hn : c = 0x6E
  · rw [if_pos hn, if_pos hn]
    exact reads_literal hpos hbudget _ fun ok h p hp hnode => ⟨hp, hnode⟩
  rw [if_neg hn, if_neg hn]
  by_cases ht : c = 0x74
  · rw [if_pos ht, if_pos ht]
    exact reads_literal hpos hbudget _ fun ok h p hp hnode => ⟨hp, hnode⟩
  rw [if_neg ht, if_neg ht]
  by_cases hf : c = 0x66
  · rw [if_pos hf, if_pos hf]
    exact reads_literal hpos hbudget _ fun ok h p hp hnode => ⟨hp, hnode⟩
  rw [if_neg hf, if_neg hf]
  by_cases hq : c = 0x22
  · rw [if_pos hq, if_pos hq]
    rcases jsonParseString_cases (show pos + 1 ≤ src.length from hpos) s with
      ⟨e, htok, he, herr⟩ | ⟨out, q, A', hat, htok, huses, hok | ⟨-, hroom⟩⟩
    · exact .inl ⟨e, s, scan_bind_error htok, he, bind_error herr⟩
    · have hpos' := hat.pos
      refine .inr ⟨.string ⟨out, jsonFnv1a out⟩, q, A', scan_bind_ok htok, ?_, by omega, hpos'.2.1,
        huses.nodeCount, hbudget.uses huses (by omega) hpos'.2.1 (by omega),
        fun ok h p hp hnode => ⟨hp, _, hnode, rfl⟩⟩
      rw [bind_ok hok]
      rfl
    · have hpos' := hat.pos
      exact absurd (hbudget.roomy (by omega)) (hroom 0)
  rw [if_neg hq, if_neg hq]
  by_cases hd : startsNumber c = true
  · rw [if_pos hd, if_pos hd]
    rcases jsonParseNumber_cases hpos.le s with
      ⟨e, A', htok, he, huses, herr | ⟨-, hroom⟩⟩ |
        ⟨n, q, A', htok, hnum, hlt, hlen, huses, hok | ⟨-, hroom⟩⟩
    · exact .inl ⟨e, _, htok, he, herr⟩
    · exact absurd (hbudget.roomy (by omega)) (hroom 0)
    · refine .inr ⟨n, q, A', htok, hok, hlt, hlen, huses.nodeCount,
        hbudget.uses huses hlt.le hlen (by omega), fun ok h p hp hnode => ?_⟩
      cases n with
      | integer i => exact ⟨hp, hnode⟩
      | float f => exact ⟨hp, hnode⟩
      | _ => exact absurd hnum id
    · exact absurd (hbudget.roomy (by omega)) (hroom 0)
  · rw [if_neg hd, if_neg hd]
    exact .inl ⟨_, s, rfl, rfl, rfl⟩

end Scalars

/-! ## The simulation -/

theorem any_contains_singleton {o : Option UInt8} {c : UInt8} :
    o.any (List.contains [c]) = true ↔ o = some c := by
  cases o with
  | none => simp
  | some d => simp

omit [CDouble D] in
theorem openContainer_deep {src : List UInt8} {pos : ℕ} {frame : ParseFrame}
    {below : List ParseFrame} {node : JsonPtr} {closing : UInt8} {isArray : Bool} {s : St D}
    (hdepth : below.length + 1 ≥ jsonMaxDepth) :
    openContainer src pos frame below none node closing isArray s
      = .error (.err .depthExceeded) s := by
  rw [openContainer, if_pos hdepth]
  rfl

omit [CDouble D] in
/-- An empty container is delivered at once. -/
theorem openContainer_closed {src : List UInt8} {pos : ℕ} {frame : ParseFrame}
    {below : List ParseFrame} {node : JsonPtr} {closing : UInt8} {isArray : Bool} {s : St D}
    (hdepth : below.length + 1 < jsonMaxDepth) (hpeek : peek src pos = some closing) :
    openContainer src pos frame below none node closing isArray s
      = deliver false node (wsEnd src pos + 1) none below s := by
  have hany : src[wsEnd src pos]?.any (List.contains [closing]) = true :=
    any_contains_singleton.mpr hpeek
  unfold openContainer
  rw [if_neg (not_le.mpr hdepth), bind_ok (ofScan_ok (jsonLexSkipWs_eq src pos)),
    bind_ok (ofScan_ok (byteAt_eq ..)), if_pos hany]
  rfl

omit [CDouble D] in
/-- The frame of a container that is not empty. -/
theorem openContainer_open {src : List UInt8} {pos : ℕ} {frame : ParseFrame}
    {below : List ParseFrame} {node : JsonPtr} {closing : UInt8} {isArray : Bool} {s : St D}
    (hdepth : below.length + 1 < jsonMaxDepth) (hpeek : peek src pos ≠ some closing) :
    openContainer src pos frame below none node closing isArray s
      = .ok (.inl ⟨wsEnd src pos,
          if isArray then valueFrame :: ⟨some node, .arrItem, frame.pendingKey⟩ :: below
          else ⟨some node, .objKey, frame.pendingKey⟩ :: below, none⟩) s := by
  have hany : ¬ src[wsEnd src pos]?.any (List.contains [closing]) = true :=
    mt any_contains_singleton.mp hpeek
  unfold openContainer
  rw [if_neg (not_le.mpr hdepth), bind_ok (ofScan_ok (jsonLexSkipWs_eq src pos)),
    bind_ok (ofScan_ok (byteAt_eq ..)), if_neg hany]
  cases isArray with
  | true =>
    rw [if_pos rfl, if_pos rfl, pushValue, if_pos (by simpa using hdepth)]
    rfl
  | false => rfl

/-- Where the round that begins at `cfg` leads: to the error that `res` says, or to the
delivery, to the frames `below`, of a node that denotes the tree that `res` says. -/
def LeadsTo (src : List UInt8) (cfg : ParseCfg) (s : St D) (below : List ParseFrame)
    (lo : JsonPtr) (x : Option JsonPtr) (X : ℕ) : Scan (Json D × ℕ × ℕ) → Prop
  | .error e => ∃ s', Leads (parseStep src) (parseStep src cfg s) (.error e s')
  | .ok (j, q, n) => ∃ v s', DenotesIn (s'.heap.From lo) s'.heap j v ∧ s.heap.Grows s'.heap x ∧
      s.heap.Keeps s'.heap ∧ s'.arena.nodeCount = n ∧ Budget src s'.arena q X ∧
      cfg.pos < q ∧ q ≤ src.length ∧
      ∀ out, Leads (parseStep src) (deliver false v q none below s') out →
        Leads (parseStep src) (parseStep src cfg s) out

/-- Where a round leads that others follow. -/
theorem LeadsTo.via {src : List UInt8} {cfg cfg' : ParseCfg} {s s1 : St D}
    {below : List ParseFrame} {lo : JsonPtr} {x x' : Option JsonPtr} {X X' : ℕ}
    {res : Scan (Json D × ℕ × ℕ)} (h : LeadsTo src cfg' s1 below lo x X res)
    (hcont : ∀ out, Leads (parseStep src) (parseStep src cfg' s1) out →
      Leads (parseStep src) (parseStep src cfg s) out) (hpos : cfg.pos ≤ cfg'.pos)
    (hkeeps : s.heap.Keeps s1.heap) (hX : X' ≤ X)
    (hgrows : ∀ h' : Heap D, s1.heap.Grows h' x → s.heap.Grows h' x') :
    LeadsTo src cfg s below lo x' X' res := by
  cases res with
  | error e =>
    obtain ⟨s', hs'⟩ := h
    exact ⟨s', hcont _ hs'⟩
  | ok r =>
    obtain ⟨v, s', hden, hg, hk, hn, hb, hlt, hlen, hcont'⟩ := h
    exact ⟨v, s', hden, hgrows _ hg, hkeeps.trans hk, hn, hb.mono le_rfl hX,
      lt_of_le_of_lt hpos hlt, hlen, fun out hout => hcont out (hcont' out hout)⟩

/-- The simulation for values. -/
def ValueLeads (D : Type) [CDouble D] (src : List UInt8) (fuel : ℕ) : Prop :=
  ∀ (s : St D) (pos X : ℕ) (frame : ParseFrame) (below : List ParseFrame),
    2 * (src.length - pos) < fuel → pos ≤ src.length → frame.state = .value →
    below.length < jsonMaxDepth → (∀ f ∈ below, f.BelowOk s.heap) →
    Budget src s.arena pos (X + 64) →
    LeadsTo src ⟨pos, frame :: below, none⟩ s below s.heap.next none (X + growCost + 128)
      (refValue src fuel (below.length + 1) s.arena.nodeCount pos)

/-- The simulation for the rest of the array at `p`. -/
def ItemsLeads (D : Type) [CDouble D] (src : List UInt8) (fuel : ℕ) : Prop :=
  ∀ (s : St D) (pos X : ℕ) (p : JsonPtr) (key : Option JsonStr) (below : List ParseFrame)
    (a : JsonArr) (acc : List (Json D)),
    2 * (src.length - pos) + 1 < fuel → pos ≤ src.length → below.length + 1 < jsonMaxDepth →
    (∀ f ∈ below, f.BelowOk s.heap) → p < s.heap.next → s.heap.node p = .array a → a.Ok →
    List.Forall₂ (DenotesIn (s.heap.From (p + 1)) s.heap) acc a.items →
    Budget src s.arena pos (X + 128) →
    LeadsTo src ⟨pos, valueFrame :: ⟨some p, .arrItem, key⟩ :: below, none⟩ s below p (some p)
      (X + 128) (refItems src fuel (below.length + 1) s.arena.nodeCount pos acc)

/-- The simulation for the rest of the object at `p`. -/
def PairsLeads (D : Type) [CDouble D] (src : List UInt8) (fuel : ℕ) : Prop :=
  ∀ (s : St D) (pos X : ℕ) (p : JsonPtr) (key : Option JsonStr) (below : List ParseFrame)
    (o : JsonObj) (acc : List (List UInt8 × Json D)),
    2 * (src.length - pos) + 1 < fuel → pos ≤ src.length → below.length + 1 < jsonMaxDepth →
    (∀ f ∈ below, f.BelowOk s.heap) → p < s.heap.next → s.heap.node p = .object o →
    o.Ok ∧ o.sortedIdx = none ∧ o.isSorted = false →
    List.Forall₂ (PairDenotes (s.heap.From (p + 1)) s.heap) acc o.pairs →
    Budget src s.arena pos (X + 128) →
    LeadsTo src ⟨pos, ⟨some p, .objKey, key⟩ :: below, none⟩ s below p (some p)
      (X + 128) (refPairs src fuel (below.length + 1) s.arena.nodeCount pos acc)

theorem peek_lt {src : List UInt8} {pos : ℕ} {c : UInt8} (h : peek src pos = some c) :
    pos ≤ wsEnd src pos ∧ wsEnd src pos < src.length :=
  ⟨le_wsEnd src pos, (List.getElem?_eq_some_iff.mp h).1⟩

/-- The opening of a container, given the simulation for its rest. -/
theorem leadsTo_open {src : List UInt8} {cfg : ParseCfg} {s : St D} {start n X : ℕ}
    {below : List ParseFrame} {closing : UInt8} {j : Json D} {rest : Scan (Json D × ℕ × ℕ)}
    (A' : Arena) (frame : ParseFrame) (isArray : Bool) (node : JsonNode D)
    (hopen : parseStep src cfg s = openContainer src (start + 1) frame below none s.heap.next
      closing isArray ⟨s.heap.new.set s.heap.next node, A'⟩)
    (hcfg : cfg.pos ≤ start) (hcount : A'.nodeCount = n) (hbudget : Budget src A' cfg.pos X)
    (hden : DenotesIn ((s.heap.new.set s.heap.next node).From s.heap.next)
      (s.heap.new.set s.heap.next node) j s.heap.next)
    (hrest : below.length + 1 < jsonMaxDepth → LeadsTo src ⟨wsEnd src (start + 1),
        if isArray then valueFrame :: ⟨some s.heap.next, .arrItem, frame.pendingKey⟩ :: below
        else ⟨some s.heap.next, .objKey, frame.pendingKey⟩ :: below, none⟩
      ⟨s.heap.new.set s.heap.next node, A'⟩ below s.heap.next (some s.heap.next) X rest) :
    LeadsTo src cfg s below s.heap.next none X
      (if below.length + 1 ≥ jsonMaxDepth then .error (.err .depthExceeded)
        else if peek src (start + 1) = some closing then .ok (j, wsEnd src (start + 1) + 1, n)
        else rest) := by
  have hgrows := Heap.Grows.alloc s.heap node
  have hkeeps := Heap.Keeps.alloc s.heap node
  have hle := le_wsEnd src (start + 1)
  by_cases hd : below.length + 1 ≥ jsonMaxDepth
  · rw [if_pos hd]
    exact ⟨_, leads_error (hopen.trans (openContainer_deep hd))⟩
  rw [if_neg hd]
  by_cases hclose : peek src (start + 1) = some closing
  · rw [if_pos hclose]
    refine ⟨s.heap.next, ⟨s.heap.new.set s.heap.next node, A'⟩, hden, hgrows, hkeeps, hcount,
      hbudget.mono (by omega) le_rfl, by omega, (peek_lt hclose).2, fun out hout => ?_⟩
    rwa [hopen, openContainer_closed (not_le.mp hd) hclose]
  · rw [if_neg hclose]
    exact (hrest (not_le.mp hd)).via
      (fun out => leads_next (hopen.trans (openContainer_open (not_le.mp hd) hclose)))
      (by show cfg.pos ≤ wsEnd src (start + 1); omega) hkeeps le_rfl
      fun h' hg => (hgrows.except.trans hg).fresh le_rfl

/-- A value, given the simulation for the rest of containers. -/
theorem valueLeads_succ {src : List UInt8} {fuel : ℕ} (hitems : ItemsLeads D src fuel)
    (hpairs : PairsLeads D src fuel) : ValueLeads D src (fuel + 1) := by
  intro s pos X frame below hfuel hpos hstate hdepth hbelow hbudget
  rw [refValue]
  cases hpeek : peek src pos with
  | none => exact ⟨s, leads_error (parseStep_eof hpeek)⟩
  | some c =>
    obtain ⟨hle, hlt⟩ := peek_lt hpeek
    have hstep : parseStep src ⟨pos, frame :: below, none⟩ s
        = stepValue src (wsEnd src pos) c frame below none s := by
      rw [parseStep_of_peek hpeek, stepFrame, hstate]
    simp only
    by_cases hmax : s.arena.nodeCount ≥ jsonMaxNodes
    · rw [if_pos hmax]
      refine ⟨s, leads_error ?_⟩
      rcases jsonNewNode_cases s with ⟨-, hnone⟩ | ⟨hlt', -⟩
      · rw [hstep, stepValue, bind_ok hnone]
        show EStateM.Result.error (Fail.err
          (if s.arena.nodeCount ≥ jsonMaxNodes then _ else _)) s = _
        rw [if_pos hmax]
      · omega
    rw [if_neg hmax]
    obtain ⟨A', hnew, hcount, hroomy⟩ : ∃ A',
      jsonNewNode s = .ok (some s.heap.next) ⟨s.heap.new, A'⟩ ∧
        A'.nodeCount = s.arena.nodeCount + 1 ∧ ∀ m, s.arena.Roomy (47 + m) → A'.Roomy m := by
      rcases jsonNewNode_cases s with ⟨hge, -⟩ | ⟨-, A', h | ⟨-, -, hroom⟩⟩
      · exact absurd hge hmax
      · exact ⟨A', h⟩
      · exact absurd (hbudget.roomy (n := 47 + 0) (by omega)) (hroom 0)
    have hcost : valueCost = growCost + 512 := rfl
    have hbudget' : Budget src A' pos (X + growCost + 128 + 128) :=
      ((hbudget.mono le_rfl (by omega)).node (X := X + 17) (not_le.mp hmax) hcount hroomy).mono
        le_rfl (by omega)
    have hws := wsEnd_le (show wsEnd src pos + 1 ≤ src.length from hlt)
    have hle' := le_wsEnd src (wsEnd src pos + 1)
    by_cases harr : c = 0x5B
    · subst harr
      rw [if_pos rfl]
      refine leadsTo_open A' frame true (.array .empty) ?_ hle hcount
        (hbudget'.mono le_rfl (by omega)) ?_ fun hd => ?_
      · rw [hstep, stepValue, bind_ok hnew]
        rfl
      · rw [denotesIn_arr]
        exact ⟨⟨le_rfl, Nat.lt_succ_self _⟩, .empty, Heap.set_node_self .., .nil⟩
      · rw [← hcount]
        exact (hitems ⟨s.heap.new.set s.heap.next (.array .empty), A'⟩
          (wsEnd src (wsEnd src pos + 1)) (X + growCost) s.heap.next frame.pendingKey below
          .empty [] (by omega) hws hd (fun f hf => (hbelow f hf).keeps (.alloc ..))
          (Nat.lt_succ_self _) (Heap.set_node_self ..) ⟨Nat.le_refl 0, Nat.zero_le _⟩ .nil
          (hbudget'.mono (by omega) (by omega)))
    rw [if_neg harr]
    by_cases hobj : c = 0x7B
    · subst hobj
      rw [if_pos rfl]
      refine leadsTo_open A' frame false (.object .empty) ?_ hle hcount
        (hbudget'.mono le_rfl (by omega)) ?_ fun hd => ?_
      · rw [hstep, stepValue, bind_ok hnew]
        rfl
      · rw [denotesIn_obj]
        exact ⟨⟨le_rfl, Nat.lt_succ_self _⟩, .empty, Heap.set_node_self .., .nil⟩
      · rw [← hcount]
        exact (hpairs ⟨s.heap.new.set s.heap.next (.object .empty), A'⟩
          (wsEnd src (wsEnd src pos + 1)) (X + growCost) s.heap.next frame.pendingKey below
          .empty [] (by omega) hws hd (fun f hf => (hbelow f hf).keeps (.alloc ..))
          (Nat.lt_succ_self _) (Heap.set_node_self ..)
          ⟨⟨Nat.le_refl 0, Nat.zero_le _⟩, rfl, rfl⟩ .nil (hbudget'.mono (by omega) (by omega)))
    rw [if_neg hobj]
    -- a scalar
    have hscalar : parseStep src ⟨pos, frame :: below, none⟩ s
        = (parseScalar src (wsEnd src pos) c >>= fun r => do
            writeNode s.heap.next r.1
            deliverValue s.heap.next r.2 none below) ⟨s.heap.new, A'⟩ := by
      rw [hstep, stepValue, bind_ok hnew]
      simp only [if_neg harr, if_neg hobj]
    rcases parseScalar_cases (s := (⟨s.heap.new, A'⟩ : St D)) (X := X + growCost + 128) hpeek
      (hbudget'.mono hle (by omega)) with
      ⟨e, s', htok, -, herr⟩ | ⟨n, q, A'', htok, hok, hlt', hlen, hcount', hb, hden⟩
    · rw [scan_bind_error htok]
      exact ⟨s', leads_error (hscalar.trans (bind_error herr))⟩
    · rw [scan_bind_ok htok]
      refine ⟨s.heap.next, ⟨s.heap.new.set s.heap.next n, A''⟩, ?_, .alloc .., .alloc ..,
        hcount'.trans hcount, hb, lt_of_le_of_lt hle hlt', hlen, fun out hout => ?_⟩
      · exact hden _ _ _ ⟨le_rfl, Nat.lt_succ_self _⟩ (Heap.set_node_self ..)
      · rw [hscalar, bind_ok hok]
        exact hout

omit [CDouble D] in
/-- Delivering a value to an array. -/
theorem deliver_array {src : List UInt8} {s : St D} {p : JsonPtr} {q X : ℕ} {a : JsonArr}
    (v : JsonPtr) (key : Option JsonStr) (below : List ParseFrame) (ha : s.heap.node p = .array a)
    (hok : a.Ok) (hq : q ≤ src.length) (hbudget : Budget src s.arena q (X + growCost)) :
    (a.items.length ≥ jsonMaxArrayLen ∧
      deliver false v q none (⟨some p, .arrItem, key⟩ :: below) s = .error (.err .overflow) s) ∨
    (a.items.length < jsonMaxArrayLen ∧ ∃ A' c,
      deliver false v q none (⟨some p, .arrItem, key⟩ :: below) s
        = .ok (.inl ⟨q, ⟨some p, .arrCont, key⟩ :: below, none⟩)
          ⟨s.heap.set p (.array ⟨a.items ++ [v], c⟩), A'⟩ ∧
      JsonArr.Ok ⟨a.items ++ [v], c⟩ ∧ A'.nodeCount = s.arena.nodeCount ∧ Budget src A' q X) := by
  rcases arrStore_cases s v ha hok with ⟨hmax, herr⟩ |
    ⟨hlt, A', c, huses, ⟨hstore, hok'⟩ | ⟨-, hroom⟩⟩
  · exact .inl ⟨hmax.ge, bind_error herr⟩
  · exact .inr ⟨hlt, A', c, bind_ok hstore, hok', huses.nodeCount,
      hbudget.uses huses le_rfl hq (by omega)⟩
  · exact absurd (hbudget.roomy (n := growCost + 0) (by omega)) (hroom 0)

omit [CDouble D] in
/-- Delivering a value to an object. -/
theorem deliver_object {src : List UInt8} {s : St D} {p : JsonPtr} {q X : ℕ} {o : JsonObj}
    (v : JsonPtr) (key : JsonStr) (below : List ParseFrame) (ho : s.heap.node p = .object o)
    (hok : o.Ok ∧ o.sortedIdx = none ∧ o.isSorted = false) (hq : q ≤ src.length)
    (hbudget : Budget src s.arena q (X + growCost)) :
    (o.pairs.length ≥ jsonMaxArrayLen ∧
      deliver false v q none (⟨some p, .objVal, some key⟩ :: below) s
        = .error (.err .overflow) s) ∨
    (o.pairs.length < jsonMaxArrayLen ∧ ∃ A' o',
      deliver false v q none (⟨some p, .objVal, some key⟩ :: below) s
        = .ok (.inl ⟨q, ⟨some p, .objCont, some key⟩ :: below, none⟩)
          ⟨s.heap.set p (.object o'), A'⟩ ∧
      o'.pairs = o.pairs ++ [⟨key, v⟩] ∧ (o'.Ok ∧ o'.sortedIdx = none ∧ o'.isSorted = false) ∧
      A'.nodeCount = s.arena.nodeCount ∧ Budget src A' q X) := by
  rcases objStore_cases s key v ho hok.1 hok.2.1 hok.2.2 with
    ⟨hmax, herr⟩ | ⟨hlt, A', c, huses, ⟨hstore, hok'⟩ | ⟨-, hroom⟩⟩
  · exact .inl ⟨hmax.ge, bind_error herr⟩
  · exact .inr ⟨hlt, A', _, bind_ok hstore, rfl, ⟨hok', hok.2⟩, huses.nodeCount,
      hbudget.uses huses le_rfl hq (by omega)⟩
  · exact absurd (hbudget.roomy (n := growCost + 0) (by omega)) (hroom 0)

/-- Behind an entry of the container at `p`: its end, or a comma and what follows. -/
theorem leadsTo_entry {src : List UInt8} {cfg : ParseCfg} {s s' : St D} {q X : ℕ} {p : JsonPtr}
    {frame : ParseFrame} {below : List ParseFrame} {j : Json D} {rest : Scan (Json D × ℕ × ℕ)}
    (closing : UInt8)
    (hnext : ∀ out, Leads (parseStep src) (parseStep src ⟨q, frame :: below, none⟩ s') out →
      Leads (parseStep src) (parseStep src cfg s) out)
    (hclose : peek src q = some closing → parseStep src ⟨q, frame :: below, none⟩ s'
      = deliver false p (wsEnd src q + 1) none below s')
    (hcomma : peek src q = some 0x2C → LeadsTo src cfg s below p (some p) X rest)
    (hother : ∀ c, peek src q = some c → c ≠ closing → c ≠ 0x2C →
      parseStep src ⟨q, frame :: below, none⟩ s' = .error (.err .invalidJson) s')
    (hpos : cfg.pos ≤ q) (hden : DenotesIn (s'.heap.From p) s'.heap j p)
    (hgrows : s.heap.Grows s'.heap (some p)) (hkeeps : s.heap.Keeps s'.heap)
    (hbudget : Budget src s'.arena q X) :
    LeadsTo src cfg s below p (some p) X
      ((peek src q).elim (.error (.err .unexpectedEof)) fun c =>
        if c = closing then .ok (j, wsEnd src q + 1, s'.arena.nodeCount)
        else if c = 0x2C then rest
        else .error (.err .invalidJson)) := by
  cases hpeek : peek src q with
  | none => exact ⟨s', hnext _ (leads_error (parseStep_eof hpeek))⟩
  | some c =>
    obtain ⟨hle, hlt⟩ := peek_lt hpeek
    show LeadsTo src cfg s below p (some p) X (ite _ _ _)
    by_cases hend : c = closing
    · subst hend
      rw [if_pos rfl]
      refine ⟨p, s', hden, hgrows, hkeeps, rfl, hbudget.mono (by omega) le_rfl, by omega, hlt,
        fun out hout => hnext _ ?_⟩
      rwa [hclose hpeek]
    rw [if_neg hend]
    by_cases hsep : c = 0x2C
    · subst hsep
      rw [if_pos rfl]
      exact hcomma hpeek
    · rw [if_neg hsep]
      exact ⟨s', hnext _ (leads_error (hother c hpeek hend hsep))⟩

/-- The rest of an array, given the simulation for values and for what follows. -/
theorem itemsLeads_succ {src : List UInt8} {fuel : ℕ} (hvalue : ValueLeads D src fuel)
    (hitems : ItemsLeads D src fuel) : ItemsLeads D src (fuel + 1) := by
  intro s pos X p key below a acc hfuel hpos hdepth hbelow hp ha hok hacc hbudget
  have hparent : ∀ f ∈ (⟨some p, .arrItem, key⟩ :: below : List ParseFrame), f.BelowOk s.heap :=
    List.forall_mem_cons.mpr ⟨⟨p, rfl, hp, a, ha, hok⟩, hbelow⟩
  have hv := hvalue s pos (X + 64) valueFrame (⟨some p, .arrItem, key⟩ :: below) (by omega) hpos rfl
    hdepth hparent hbudget
  rw [refItems_succ]
  rw [List.length_cons] at hv
  cases hres : (refValue src fuel (below.length + 1 + 1) s.arena.nodeCount pos :
      Scan (Json D × ℕ × ℕ)) with
  | error e =>
    rw [hres] at hv
    rw [scan_bind_error rfl]
    exact hv
  | ok r =>
    obtain ⟨j, q, n⟩ := r
    rw [hres] at hv
    obtain ⟨v, s1, hden, hgrows, hkeeps, rfl, hbudget1, hlt, hq, hcont⟩ := hv
    replace hlt : pos < q := hlt
    rw [scan_bind_ok rfl]
    simp only
    have ha1 : s1.heap.node p = .array a := by rw [hgrows.node p hp (Option.some_ne_none p), ha]
    have hlen : acc.length = a.items.length := hacc.length_eq
    rcases deliver_array (X := X + 192) v key below ha1 hok hq
      (hbudget1.mono le_rfl (by omega)) with
      ⟨hmax, hdel⟩ | ⟨hmax, A', c, hdel, hok2, hcount2, hbudget2⟩
    · rw [if_pos (by omega)]
      exact ⟨s1, hcont _ (leads_error hdel)⟩
    rw [if_neg (by omega)]
    -- the state after the delivery
    set s2 : St D := ⟨s1.heap.set p (.array ⟨a.items ++ [v], c⟩), A'⟩ with hs2
    have hgrows2 : s1.heap.Grows s2.heap (some p) := .set ..
    have hkeeps2 : s.heap.Keeps s2.heap := hkeeps.trans (.setArr ha1 hok2)
    have hacc2 : List.Forall₂ (DenotesIn (s2.heap.From (p + 1)) s2.heap) (acc ++ [j])
        (a.items ++ [v]) := by
      have hold : List.Forall₂ (DenotesIn (s2.heap.From (p + 1)) s2.heap) acc a.items :=
        forall₂_imp_mem hacc fun j' _ r hr =>
          (hr.grows hgrows le_rfl (by simp)).grows hgrows2 le_rfl (by simp)
      exact List.rel_append hold (.cons (hden.grows hgrows2 hp (by simpa using hp)) .nil)
    have hgrows02 : s.heap.Grows s2.heap (some p) := hgrows.except.trans hgrows2
    have hnode2 : s2.heap.node p = .array ⟨a.items ++ [v], c⟩ := Heap.set_node_self ..
    have hbelow2 : ∀ f ∈ below, f.BelowOk s2.heap := fun f hf => (hbelow f hf).keeps hkeeps2
    have hnext : ∀ out, Leads (parseStep src)
        (parseStep src ⟨q, ⟨some p, .arrCont, key⟩ :: below, none⟩ s2) out →
        Leads (parseStep src)
          (parseStep src ⟨pos, valueFrame :: ⟨some p, .arrItem, key⟩ :: below, none⟩ s) out :=
      fun out hout => hcont out (leads_next hdel hout)
    have hstep : ∀ ch, peek src q = some ch →
        parseStep src ⟨q, ⟨some p, .arrCont, key⟩ :: below, none⟩ s2
          = stepArrCont (wsEnd src q) ch ⟨some p, .arrCont, key⟩ below none s2 :=
      fun ch hpeek => parseStep_of_peek hpeek
    have hden2 : DenotesIn (s2.heap.From p) s2.heap (.arr (acc ++ [j])) p := by
      rw [denotesIn_arr]
      exact ⟨⟨le_rfl, lt_of_lt_of_le hp hgrows02.next⟩, _, hnode2,
        hacc2.imp fun _ _ h => h.grows (.refl _ none) (Nat.le_succ p) (by simp)⟩
    rw [← hcount2]
    refine leadsTo_entry 0x5D hnext (fun hpeek => ?_) (fun hpeek => ?_)
      (fun ch hpeek hclose hcomma => ?_) hlt.le hden2 hgrows02 hkeeps2
      (hbudget2.mono le_rfl (by omega))
    · rw [hstep _ hpeek, stepArrCont, if_pos rfl]
      exact congrFun (deliver_valueParent hbelow2) s2
    · -- the next item
      obtain ⟨hle, hlt'⟩ := peek_lt hpeek
      have hpush : parseStep src ⟨q, ⟨some p, .arrCont, key⟩ :: below, none⟩ s2
          = .ok (.inl ⟨wsEnd src q + 1, valueFrame :: ⟨some p, .arrItem, key⟩ :: below, none⟩)
            s2 := by
        rw [hstep _ hpeek, stepArrCont, if_neg (by decide), if_pos rfl, if_neg (not_le.mpr hdepth),
          pushValue, if_pos (by simpa using hdepth)]
        rfl
      have hrest := hitems s2 (wsEnd src q + 1) X p key below _ (acc ++ [j]) (by omega) hlt' hdepth
        hbelow2 (lt_of_lt_of_le hp hgrows02.next) hnode2 hok2 hacc2
        (hbudget2.mono (by omega) (by omega))
      exact hrest.via (fun out hout => hnext _ (leads_next hpush hout))
        (by show pos ≤ wsEnd src q + 1; omega) hkeeps2 le_rfl fun h' hg => hgrows02.trans hg
    · rw [hstep _ hpeek, stepArrCont, if_neg hclose, if_neg hcomma]
      rfl

/-- A key and its colon, given where what follows leads. -/
theorem leadsTo_key {src : List UInt8} {s : St D} {pos X Y lo : ℕ} {p : JsonPtr}
    {key0 : Option JsonStr} {below : List ParseFrame} {x : Option JsonPtr}
    {rest : JsonStr × ℕ → Scan (Json D × ℕ × ℕ)} (hdepth : below.length + 1 < jsonMaxDepth)
    (hbudget : Budget src s.arena pos (X + 7))
    (hrest : ∀ (key : JsonStr) (A : Arena) (q : ℕ), pos ≤ q → wsEnd src q < src.length →
      A.nodeCount = s.arena.nodeCount → Budget src A (wsEnd src q + 1) X →
      LeadsTo src ⟨wsEnd src q + 1, valueFrame :: ⟨some p, .objVal, some key⟩ :: below, none⟩
        { s with arena := A } below lo x Y (rest (key, q))) :
    LeadsTo src ⟨pos, ⟨some p, .objKey, key0⟩ :: below, none⟩ s below lo x Y
      ((peek src pos).elim (.error (.err .unexpectedEof)) fun c =>
        if c = 0x22 then
          stringToken src (wsEnd src pos + 1) >>= fun r =>
            (peek src r.2).elim (.error (.err .unexpectedEof)) fun c =>
              if c ≠ 0x3A then .error (.err .invalidJson)
              else rest r
        else .error (.err .invalidJson)) := by
  cases hpeek : peek src pos with
  | none => exact ⟨s, leads_error (parseStep_eof hpeek)⟩
  | some c =>
  obtain ⟨hle, hlt⟩ := peek_lt hpeek
  have hstep : parseStep src ⟨pos, ⟨some p, .objKey, key0⟩ :: below, none⟩ s
      = stepObjKey src (wsEnd src pos) c ⟨some p, .objKey, key0⟩ below none s :=
    parseStep_of_peek hpeek
  show LeadsTo _ _ _ _ _ _ _ (ite _ _ _)
  by_cases hquote : c = 0x22
  swap
  · rw [if_neg hquote]
    refine ⟨s, leads_error (hstep.trans ?_)⟩
    rw [stepObjKey, if_neg hquote]
    rfl
  rw [if_pos hquote]
  -- the key
  rcases jsonParseString_cases (show wsEnd src pos + 1 ≤ src.length from hlt) s with
    ⟨e, htok, -, herr⟩ | ⟨out, q, A, hat, htok, huses, hkey | ⟨-, hroom⟩⟩
  · rw [scan_bind_error htok]
    refine ⟨s, leads_error (hstep.trans ?_)⟩
    rw [stepObjKey, if_pos hquote, bind_error herr]
  swap
  · have hat' := hat.pos
    exact absurd (hbudget.roomy (by omega)) (hroom 0)
  rw [scan_bind_ok htok]
  have hat' := hat.pos
  set key : JsonStr := ⟨out, jsonFnv1a out⟩ with hkeydef
  set s' : St D := { s with arena := A } with hs'
  have hcolon : parseStep src ⟨pos, ⟨some p, .objKey, key0⟩ :: below, none⟩ s
      = .ok (.inl ⟨q, ⟨some p, .objColon, some key⟩ :: below, none⟩) s' := by
    rw [hstep, stepObjKey, if_pos hquote, bind_ok hkey]
    rfl
  -- the colon
  show LeadsTo _ _ _ _ _ _ _ ((peek src q).elim _ _)
  cases hpeek' : peek src q with
  | none => exact ⟨s', leads_next hcolon (leads_error (parseStep_eof hpeek'))⟩
  | some c' =>
  obtain ⟨hle', hlt'⟩ := peek_lt hpeek'
  have hstep' : parseStep src ⟨q, ⟨some p, .objColon, some key⟩ :: below, none⟩ s'
      = stepObjColon (wsEnd src q) c' ⟨some p, .objColon, some key⟩ below none s' :=
    parseStep_of_peek hpeek'
  show LeadsTo _ _ _ _ _ _ _ (ite _ _ _)
  by_cases hsep : c' ≠ 0x3A
  · rw [if_pos hsep]
    refine ⟨s', leads_next hcolon (leads_error (hstep'.trans ?_))⟩
    rw [stepObjColon, if_pos hsep]
    rfl
  rw [if_neg hsep]
  have hval : parseStep src ⟨q, ⟨some p, .objColon, some key⟩ :: below, none⟩ s'
      = .ok (.inl ⟨wsEnd src q + 1, valueFrame :: ⟨some p, .objVal, some key⟩ :: below, none⟩)
        s' := by
    rw [hstep', stepObjColon, if_neg hsep, if_neg (not_le.mpr hdepth), pushValue,
      if_pos (by simpa using hdepth)]
    rfl
  exact (hrest key A q (by omega) hlt' huses.nodeCount
    (hbudget.uses huses (by omega) hlt' (by omega))).via
    (fun out hout => leads_next hcolon (leads_next hval hout))
      (by show pos ≤ wsEnd src q + 1; omega)
    (.refl _) le_rfl fun h' hg => hg

/-- The rest of an object, given the simulation for values and for what follows. -/
theorem pairsLeads_succ {src : List UInt8} {fuel : ℕ} (hvalue : ValueLeads D src fuel)
    (hpairs : PairsLeads D src fuel) : PairsLeads D src (fuel + 1) := by
  intro s0 pos0 X p key0 below o acc hfuel hpos0 hdepth hbelow hp ho hok hacc hbudget0
  rw [refPairs_succ]
  refine leadsTo_key (X := X + 121) hdepth hbudget0 fun key A q0 hle0 hpos hcount hbudget => ?_
  have hle1 := le_wsEnd src q0
  set pos := wsEnd src q0 + 1 with hposdef
  set s : St D := { s0 with arena := A } with hs
  rw [← show s.arena.nodeCount = s0.arena.nodeCount from hcount]
  -- the value
  have hparent : ∀ f ∈ (⟨some p, .objVal, some key⟩ :: below : List ParseFrame),
      f.BelowOk s.heap := List.forall_mem_cons.mpr ⟨⟨⟨p, rfl, hp, o, ho, hok⟩, rfl⟩, hbelow⟩
  have hv := hvalue s pos (X + 57) valueFrame (⟨some p, .objVal, some key⟩ :: below)
    (by omega) hpos rfl hdepth hparent (hbudget.mono le_rfl (by omega))
  rw [List.length_cons] at hv
  cases hres : (refValue src fuel (below.length + 1 + 1) s.arena.nodeCount pos :
      Scan (Json D × ℕ × ℕ)) with
  | error e =>
    rw [hres] at hv
    rw [scan_bind_error rfl]
    exact hv
  | ok r =>
    obtain ⟨j, q, n⟩ := r
    rw [hres] at hv
    obtain ⟨v, s1, hden, hgrows, hkeeps, rfl, hbudget1, hlt, hq, hcont⟩ := hv
    replace hlt : pos < q := hlt
    rw [scan_bind_ok rfl]
    simp only
    have ho1 : s1.heap.node p = .object o := by rw [hgrows.node p hp (Option.some_ne_none p), ho]
    have hlen : acc.length = o.pairs.length := hacc.length_eq
    rcases deliver_object (X := X + 185) v key below ho1 hok hq
      (hbudget1.mono le_rfl (by omega)) with
      ⟨hmax, hdel⟩ | ⟨hmax, A', o', hdel, ho', hok2, hcount2, hbudget2⟩
    · rw [if_pos (by omega)]
      exact ⟨s1, hcont _ (leads_error hdel)⟩
    rw [if_neg (by omega)]
    -- the state after the delivery
    set s2 : St D := ⟨s1.heap.set p (.object o'), A'⟩ with hs2
    have hgrows2 : s1.heap.Grows s2.heap (some p) := .set ..
    have hkeeps2 : s.heap.Keeps s2.heap := hkeeps.trans (.setObj ho1 hok2)
    have hgrows02 : s.heap.Grows s2.heap (some p) := hgrows.except.trans hgrows2
    have hacc2 : List.Forall₂ (PairDenotes (s2.heap.From (p + 1)) s2.heap)
        (acc ++ [(key.data, j)]) o'.pairs := by
      rw [ho']
      have hold : List.Forall₂ (PairDenotes (s2.heap.From (p + 1)) s2.heap) acc o.pairs :=
        forall₂_imp_mem hacc fun kv _ pr hpr =>
          ⟨hpr.1, (hpr.2.grows hgrows le_rfl (by simp)).grows hgrows2 le_rfl (by simp)⟩
      exact List.rel_append hold (.cons ⟨rfl, hden.grows hgrows2 hp (by simpa using hp)⟩ .nil)
    have hnode2 : s2.heap.node p = .object o' := Heap.set_node_self ..
    have hbelow2 : ∀ f ∈ below, f.BelowOk s2.heap := fun f hf => (hbelow f hf).keeps hkeeps2
    have hnext : ∀ out, Leads (parseStep src)
        (parseStep src ⟨q, ⟨some p, .objCont, some key⟩ :: below, none⟩ s2) out →
        Leads (parseStep src) (parseStep src
          ⟨pos, valueFrame :: ⟨some p, .objVal, some key⟩ :: below, none⟩ s) out :=
      fun out hout => hcont out (leads_next hdel hout)
    have hstep : ∀ ch, peek src q = some ch →
        parseStep src ⟨q, ⟨some p, .objCont, some key⟩ :: below, none⟩ s2
          = stepObjCont (wsEnd src q) ch ⟨some p, .objCont, some key⟩ below none s2 :=
      fun ch hpeek => parseStep_of_peek hpeek
    have hden2 : DenotesIn (s2.heap.From p) s2.heap (.obj (acc ++ [(key.data, j)])) p := by
      rw [denotesIn_obj]
      exact ⟨⟨le_rfl, lt_of_lt_of_le hp hgrows02.next⟩, _, hnode2,
        hacc2.imp fun _ _ h => ⟨h.1, h.2.grows (.refl _ none) (Nat.le_succ p) (by simp)⟩⟩
    rw [← hcount2]
    refine leadsTo_entry 0x7D hnext (fun hpeek => ?_) (fun hpeek => ?_)
      (fun ch hpeek hclose hcomma => ?_) hlt.le hden2 hgrows02 hkeeps2
      (hbudget2.mono le_rfl (by omega))
    · rw [hstep _ hpeek, stepObjCont, if_pos rfl]
      exact congrFun (deliver_valueParent hbelow2) s2
    · -- the next key
      obtain ⟨hle, hlt'⟩ := peek_lt hpeek
      have hkey : parseStep src ⟨q, ⟨some p, .objCont, some key⟩ :: below, none⟩ s2
          = .ok (.inl ⟨wsEnd src q + 1, ⟨some p, .objKey, some key⟩ :: below, none⟩) s2 := by
        rw [hstep _ hpeek, stepObjCont, if_neg (by decide), if_pos rfl]
        rfl
      have hrest := hpairs s2 (wsEnd src q + 1) X p (some key) below o' (acc ++ [(key.data, j)])
        (by omega) hlt' hdepth hbelow2 (lt_of_lt_of_le hp hgrows02.next) hnode2 hok2 hacc2
        (hbudget2.mono (by omega) (by omega))
      exact hrest.via (fun out hout => hnext _ (leads_next hkey hout))
        (by show pos ≤ wsEnd src q + 1; omega) hkeeps2 le_rfl fun h' hg => hgrows02.trans hg
    · rw [hstep _ hpeek, stepObjCont, if_neg hclose, if_neg hcomma]
      rfl

/-- **The simulation**, for every fuel of the reference parser. -/
theorem parser_leads (src : List UInt8) (fuel : ℕ) :
    ValueLeads D src fuel ∧ ItemsLeads D src fuel ∧ PairsLeads D src fuel := by
  induction fuel with
  | zero =>
    refine ⟨?_, ?_, ?_⟩
    · intro _ _ _ _ _ hfuel
      omega
    · intro _ _ _ _ _ _ _ _ hfuel
      omega
    · intro _ _ _ _ _ _ _ _ hfuel
      omega
  | succ fuel ih =>
    exact ⟨valueLeads_succ ih.2.1 ih.2.2, itemsLeads_succ ih.1 ih.2.1, pairsLeads_succ ih.1 ih.2.2⟩

/-! ## Whole texts -/

/-- What `json_parse` returns from `s`, when the reference parser returns `res`. -/
def ParsesAs (src : List UInt8) (s : St D) : Scan (Json D × ℕ) → Prop
  | .error e => ∃ s', jsonParse src s = .error e s'
  | .ok (j, n) => ∃ v s', jsonParse src s = .ok v s' ∧
      DenotesIn (s'.heap.From s.heap.next) s'.heap j v ∧ s.heap.Grows s'.heap none ∧
      s'.arena.nodeCount = n

/-- The loop of `json_parse` runs the machine to its end. -/
theorem runParser_leads (src : List UInt8) (s : St D) :
    Leads (parseStep src) (parseStep src initialCfg s)
      (runFuel (parseStep src) (.fault .fuel) (src.length + 1) initialCfg s) := by
  refine leads_runFuel (I := CfgOk src) (μ := fun cfg => src.length - cfg.pos) ?_
    (cfgOk_initial src s) (Nat.lt_succ_self _)
  intro cfg s' cfg' s'' hc hstep
  obtain ⟨hc', hlt⟩ := (parseStep_ensures hc).ok hstep
  have hpos := hc'.pos
  exact ⟨hc', by show src.length - cfg'.pos < src.length - cfg.pos; omega⟩

/-- **`json_parse` computes what the reference parser computes**, errors included. -/
theorem jsonParse_ref {src : List UInt8} {s : St D} (hbudget : Budget src s.arena 0 64) :
    ParsesAs src s (refParse src s.arena.nodeCount) := by
  have hlead := (parser_leads (D := D) src (2 * src.length + 1)).1 s 0 0 valueFrame [] (by omega)
    (Nat.zero_le _) rfl (by decide) (by simp) hbudget
  have hrun := runParser_leads src s
  unfold refParse
  cases hres : (refValue src (2 * src.length + 1) 1 s.arena.nodeCount 0 :
      Scan (Json D × ℕ × ℕ)) with
  | error e =>
    rw [List.length_nil, Nat.zero_add, hres] at hlead
    obtain ⟨s', hs'⟩ := hlead
    exact ⟨s', bind_error (hrun.eq hs')⟩
  | ok r =>
    obtain ⟨j, q, n⟩ := r
    rw [List.length_nil, Nat.zero_add, hres] at hlead
    obtain ⟨v, s', hden, hgrows, -, hcount, -, -, -, hcont⟩ := hlead
    have hdone := hrun.eq (hcont _ (.done (v, q) s'))
    have heq : jsonParse src s = (do
        let pos ← ofScan (jsonLexSkipWs src q)
        if pos < src.length then throw (.err .invalidJson) else return v : M D JsonPtr) s' :=
      bind_ok hdone
    rw [bind_ok (ofScan_ok (jsonLexSkipWs_eq src q))] at heq
    rw [scan_bind_ok rfl]
    simp only
    by_cases htrail : wsEnd src q < src.length
    · rw [if_pos htrail] at heq ⊢
      exact ⟨s', heq⟩
    · rw [if_neg htrail] at heq ⊢
      exact ⟨v, s', heq, hden, hgrows, hcount⟩

omit [CDouble D] in
/-- A fresh arena has memory for every text. -/
theorem Arena.Fresh.budget {src : List UInt8} {A : Arena} (h : A.Fresh)
    (hlen : src.length ≤ ptrdiffMax) : Budget src A 0 64 := by
  refine ⟨h.neverFails, ?_⟩
  rw [h.totalBytes, h.nodeCount]
  unfold ptrdiffMax at hlen
  unfold valueCost growCost jsonMaxNodes jsonMaxArrayLen sizeofJsonPair sizeMax
  omega

/-- A text that the reference parser accepts is parsed, whatever the heap holds. -/
theorem jsonParse_fresh {src : List UInt8} {h : Heap D} {A : Arena} {j : Json D} {n : ℕ}
    (hA : A.Fresh) (hlen : src.length ≤ ptrdiffMax) (href : refParse src 0 = .ok (j, n)) :
    ∃ v s', jsonParse src ⟨h, A⟩ = .ok v s' ∧ DenotesIn (s'.heap.From h.next) s'.heap j v ∧
      h.Grows s'.heap none := by
  have hres := jsonParse_ref (D := D) (s := ⟨h, A⟩) (hA.budget hlen)
  rw [show (⟨h, A⟩ : St D).arena.nodeCount = 0 from hA.nodeCount, href] at hres
  obtain ⟨v, s', hok, hden, hgrows, -⟩ := hres
  exact ⟨v, s', hok, hden, hgrows⟩

end SJson
