/-
# The parser stays in bounds

The invariant of the loop of `json_parse` (`CfgOk`): the stack has between one and
`JSON_MAX_DEPTH` frames, the top frame expects something, the frames below wait for
the value that the frame above them parses, and every frame holds a container of the
kind its state needs, with its key where one is pending.

One round keeps the invariant, moves the position on, and never faults
(`parseStep_ensures`); hence so does the whole run.
-/
import SJson.Parser

namespace SJson

open ErrState

variable {D : Type}

/-! ## Containers -/

/-- `p` is an array whose storage is in order. -/
def Heap.IsArr (h : Heap D) (p : JsonPtr) : Prop :=
  p < h.next ∧ ∃ a, h.node p = .array a ∧ a.Ok

/-- `p` is an object whose storage is in order and which has no sorted index. -/
def Heap.IsObj (h : Heap D) (p : JsonPtr) : Prop :=
  p < h.next ∧ ∃ o, h.node p = .object o ∧ o.Ok ∧ o.sortedIdx = none ∧ o.isSorted = false

/-- The containers of `h` are containers of the same kind in `h'`. -/
structure Heap.Keeps (h h' : Heap D) : Prop where
  arr : ∀ p, h.IsArr p → h'.IsArr p
  obj : ∀ p, h.IsObj p → h'.IsObj p

theorem Heap.Keeps.refl (h : Heap D) : h.Keeps h := ⟨fun _ hp => hp, fun _ hp => hp⟩

/-- Filling in the node that was allocated last. -/
theorem Heap.Keeps.alloc (h : Heap D) (n : JsonNode D) : h.Keeps (h.new.set h.next n) where
  arr := fun p ⟨hlt, a, ha, hok⟩ =>
    ⟨Nat.lt_succ_of_lt hlt, a, by rw [set_node_ne _ _ (Nat.ne_of_lt hlt), new_node_lt _ hlt,
      ha], hok⟩
  obj := fun p ⟨hlt, o, ho, hok⟩ =>
    ⟨Nat.lt_succ_of_lt hlt, o, by rw [set_node_ne _ _ (Nat.ne_of_lt hlt), new_node_lt _ hlt,
      ho], hok⟩

/-- Storing a new version of an array. -/
theorem Heap.Keeps.setArr {h : Heap D} {q : JsonPtr} {a a' : JsonArr} (hq : h.node q = .array a)
    (ha' : a'.Ok) : h.Keeps (h.set q (.array a')) where
  arr := fun p ⟨hlt, b, hb, hok⟩ => by
    refine ⟨hlt, ?_⟩
    by_cases hpq : p = q
    · exact ⟨a', by rw [hpq, set_node_self], ha'⟩
    · exact ⟨b, by rw [set_node_ne _ _ hpq, hb], hok⟩
  obj := fun p ⟨hlt, o, ho, hok⟩ => by
    have hpq : p ≠ q := by
      rintro rfl
      simp [hq] at ho
    exact ⟨hlt, o, by rw [set_node_ne _ _ hpq, ho], hok⟩

/-- Storing a new version of an object. -/
theorem Heap.Keeps.setObj {h : Heap D} {q : JsonPtr} {o o' : JsonObj} (hq : h.node q = .object o)
    (ho' : o'.Ok ∧ o'.sortedIdx = none ∧ o'.isSorted = false) :
    h.Keeps (h.set q (.object o')) where
  arr := fun p ⟨hlt, a, ha, hok⟩ => by
    have hpq : p ≠ q := by
      rintro rfl
      simp [hq] at ha
    exact ⟨hlt, a, by rw [set_node_ne _ _ hpq, ha], hok⟩
  obj := fun p ⟨hlt, b, hb, hok⟩ => by
    refine ⟨hlt, ?_⟩
    by_cases hpq : p = q
    · exact ⟨o', by rw [hpq, set_node_self], ho'⟩
    · exact ⟨b, by rw [set_node_ne _ _ hpq, hb], hok⟩

/-! ## The invariant -/

/-- The frame holds an array. -/
def ParseFrame.HoldsArr (h : Heap D) (f : ParseFrame) : Prop :=
  ∃ p, f.container = some p ∧ h.IsArr p

/-- The frame holds an object. -/
def ParseFrame.HoldsObj (h : Heap D) (f : ParseFrame) : Prop :=
  ∃ p, f.container = some p ∧ h.IsObj p

/-- A frame that can be the top of the stack when a round begins. -/
def ParseFrame.TopOk (h : Heap D) (f : ParseFrame) : Prop :=
  match f.state with
  | .value => True
  | .arrCont => f.HoldsArr h
  | .objKey | .objCont => f.HoldsObj h
  | .objColon => f.HoldsObj h ∧ f.pendingKey.isSome
  | .arrItem | .objVal => False

/-- A frame that waits for the value which the frame above it parses. -/
def ParseFrame.BelowOk (h : Heap D) (f : ParseFrame) : Prop :=
  match f.state with
  | .arrItem => f.HoldsArr h
  | .objVal => f.HoldsObj h ∧ f.pendingKey.isSome
  | _ => False

theorem ParseFrame.BelowOk.keeps {h h' : Heap D} (hk : h.Keeps h') {f : ParseFrame}
    (hf : f.BelowOk h) : f.BelowOk h' := by
  unfold BelowOk at *
  cases hs : f.state with
  | arrItem =>
    simp only [hs] at hf ⊢
    obtain ⟨p, hp, harr⟩ := hf
    exact ⟨p, hp, hk.arr p harr⟩
  | objVal =>
    simp only [hs] at hf ⊢
    obtain ⟨⟨p, hp, hobj⟩, hkey⟩ := hf
    exact ⟨⟨p, hp, hk.obj p hobj⟩, hkey⟩
  | _ => simp [hs] at hf

/-- **The invariant of the loop.** -/
structure CfgOk (src : List UInt8) (cfg : ParseCfg) (s : St D) : Prop where
  pos : cfg.pos ≤ src.length
  root : cfg.root = none
  depth : cfg.stack.length ≤ jsonMaxDepth
  stack : ∃ top below, cfg.stack = top :: below ∧ top.TopOk s.heap ∧
    ∀ f ∈ below, f.BelowOk s.heap

/-- An error code, as opposed to a fault. -/
def Fail.NotFault : Fail → Prop
  | .err _ => True
  | .fault _ => False

/-- The error exit of functions that do not fault. -/
def NoFault (e : Fail) (_ : St D) : Prop := e.NotFault

/-- How a round ends that started at a smaller position than `p`. -/
def StepOk (src : List UInt8) (p : ℕ) (x : StepResult) (s : St D) : Prop :=
  x.elim (fun cfg => CfgOk src cfg s ∧ p ≤ cfg.pos) (fun r => r.2 ≤ src.length)

/-! ## One round -/

theorem deliver_ensures {src : List UInt8} {vp : Bool} {result : JsonPtr} {pos : ℕ}
    {below : List ParseFrame} {s : St D} (hpos : pos ≤ src.length)
    (hdepth : below.length < jsonMaxDepth) (hbelow : ∀ f ∈ below, f.BelowOk s.heap) :
    Ensures (deliver vp result pos none below) s (StepOk src pos) NoFault := by
  cases below with
  | nil => exact ensures_pure hpos
  | cons parent fs =>
    have hparent := hbelow parent List.mem_cons_self
    have hfs : ∀ f ∈ fs, f.BelowOk s.heap := fun f hf => hbelow f (List.mem_cons_of_mem _ hf)
    unfold deliver
    unfold ParseFrame.BelowOk at hparent
    cases hs : parent.state with
    | arrItem =>
      simp only [hs] at hparent ⊢
      obtain ⟨p, hp, hlt, a, ha, hok⟩ := hparent
      simp only [hp]
      apply ensures_bind
      rcases arrStore_cases s result ha hok with ⟨-, herr⟩ |
        ⟨-, A', c, -, ⟨hstore, hok'⟩ | ⟨herr, -⟩⟩
      · exact .of_error herr trivial
      · refine .of_ok hstore (ensures_pure ⟨⟨hpos, rfl, hdepth.le, ?_⟩, le_rfl⟩)
        have hk : s.heap.Keeps (s.heap.set p (.array ⟨a.items ++ [result], c⟩)) := .setArr ha hok'
        exact ⟨_, fs, rfl, ⟨p, rfl, hk.arr p ⟨hlt, a, ha, hok⟩⟩, fun f hf => (hfs f hf).keeps hk⟩
      · exact .of_error herr trivial
    | objVal =>
      simp only [hs] at hparent ⊢
      obtain ⟨⟨p, hp, hlt, o, ho, hok, hidx, hsorted⟩, hkey⟩ := hparent
      obtain ⟨key, hkey⟩ := Option.isSome_iff_exists.mp hkey
      simp only [hp, hkey]
      apply ensures_bind
      rcases objStore_cases s key result ho hok hidx hsorted with
        ⟨-, herr⟩ | ⟨-, A', c, -, ⟨hstore, hok'⟩ | ⟨herr, -⟩⟩
      · exact .of_error herr trivial
      · refine .of_ok hstore (ensures_pure ⟨⟨hpos, rfl, hdepth.le, ?_⟩, le_rfl⟩)
        have hk : s.heap.Keeps (s.heap.set p
            (.object { o with pairs := o.pairs ++ [⟨key, result⟩], cap := c })) :=
          .setObj ho ⟨hok', hidx, hsorted⟩
        exact ⟨_, fs, rfl, ⟨p, rfl, hk.obj p ⟨hlt, o, ho, hok, hidx, hsorted⟩⟩,
          fun f hf => (hfs f hf).keeps hk⟩
      · exact .of_error herr trivial
    | _ => simp [hs] at hparent

/-- A value frame may be pushed where the frames below it wait for it. -/
theorem pushValue_ensures {src : List UInt8} {pos : ℕ} {stack : List ParseFrame} {s : St D}
    (hpos : pos ≤ src.length) (hdepth : stack.length < jsonMaxDepth)
    (hbelow : ∀ f ∈ stack, f.BelowOk s.heap) :
    Ensures (pushValue pos stack none) s (StepOk src pos) NoFault := by
  unfold pushValue
  rw [if_pos hdepth]
  exact ensures_pure ⟨⟨hpos, rfl, hdepth, valueFrame, stack, rfl, trivial, hbelow⟩, le_rfl⟩

theorem StepOk.mono {src : List UInt8} {p q : ℕ} (hpq : p ≤ q) {x : StepResult} {s : St D}
    (h : StepOk src q x s) : StepOk src p x s := by
  cases x with
  | inl cfg => exact ⟨h.1, hpq.trans h.2⟩
  | inr r => exact h

theorem openContainer_ensures {src : List UInt8} {pos : ℕ} {frame : ParseFrame}
    {below : List ParseFrame} {node : JsonPtr} {closing : UInt8} {isArray : Bool} {s : St D}
    (hpos : pos ≤ src.length) (hdepth : below.length < jsonMaxDepth)
    (hbelow : ∀ f ∈ below, f.BelowOk s.heap)
    (hnode : if isArray then s.heap.IsArr node else s.heap.IsObj node) :
    Ensures (openContainer src pos frame below none node closing isArray) s (StepOk src pos)
      NoFault := by
  unfold openContainer
  by_cases hmax : below.length + 1 ≥ jsonMaxDepth
  · rw [if_pos hmax]
    exact ensures_throw trivial
  rw [if_neg hmax]
  have hws := wsEnd_le hpos
  have hle := le_wsEnd src pos
  refine ensures_bind (.of_ok (ofScan_ok (jsonLexSkipWs_eq src pos)) ?_)
  refine ensures_bind (.of_ok (ofScan_ok (byteAt_eq ..)) ?_)
  by_cases hclose : src[wsEnd src pos]?.any (List.contains [closing]) = true
  · rw [if_pos hclose]
    have hlt := lt_length_of_any hclose
    exact (deliver_ensures hlt hdepth hbelow).mono (fun _ _ h => h.mono (by omega))
      fun _ _ h => h
  rw [if_neg hclose]
  cases isArray with
  | true =>
    refine (pushValue_ensures hws (by simp only [List.length_cons]; omega) ?_).mono
      (fun _ _ h => h.mono hle) fun _ _ h => h
    exact List.forall_mem_cons.mpr ⟨⟨node, rfl, hnode⟩, hbelow⟩
  | false =>
    exact ensures_pure ⟨⟨hws, rfl, hdepth, _, below, rfl, ⟨node, rfl, hnode⟩, hbelow⟩, hle⟩

variable [CDouble D]

theorem parseScalar_ensures {src : List UInt8} {pos : ℕ} {c : UInt8} {s : St D}
    (hc : src[pos]? = some c) :
    Ensures (parseScalar src pos c) s
      (fun r s' => s'.heap = s.heap ∧ pos < r.2 ∧ r.2 ≤ src.length) NoFault := by
  have hpos := (List.getElem?_eq_some_iff.mp hc).1
  have hlit : ∀ (lit : List UInt8) (n : JsonNode D),
      Ensures (do
        let pos ← ofScan (lexExpectLiteral src (pos + 1) lit)
        return (n, pos)) s
        (fun r s' => s'.heap = s.heap ∧ pos < r.2 ∧ r.2 ≤ src.length) NoFault := fun lit n => by
    apply ensures_bind
    have heq := lexExpectLiteral_eq (show pos + 1 ≤ src.length from hpos) lit
    by_cases hmatch : (src.drop (pos + 1)).take lit.length = lit
    · rw [if_pos hmatch] at heq
      refine .of_ok (ofScan_ok heq) (ensures_pure
        ⟨rfl, by show pos < pos + 1 + lit.length; omega, ?_⟩)
      have hlen := congrArg List.length hmatch
      rw [List.length_take, List.length_drop] at hlen
      show pos + 1 + lit.length ≤ src.length
      omega
    · rw [if_neg hmatch] at heq
      exact .of_error (ofScan_error heq) trivial
  unfold parseScalar
  refine ensures_ite (fun _ => hlit _ _) fun _ => ?_
  refine ensures_ite (fun _ => hlit _ _) fun _ => ?_
  refine ensures_ite (fun _ => hlit _ _) fun _ => ?_
  refine ensures_ite (fun _ => ?_) fun _ => ?_
  · apply ensures_bind
    rcases jsonParseString_cases (show pos + 1 ≤ src.length from hpos) s with
      ⟨e, -, -, herr⟩ | ⟨out, q, A', hat, -, -, hok | ⟨herr, -⟩⟩
    · exact .of_error herr trivial
    · have hq := hat.pos
      exact .of_ok hok (ensures_pure ⟨rfl, by show pos < q; omega, hq.2.1⟩)
    · exact .of_error herr trivial
  refine ensures_ite (fun _ => ?_) fun _ => ensures_throw trivial
  rcases jsonParseNumber_cases hpos.le s with
    ⟨e, A', -, -, -, herr | ⟨herr, -⟩⟩ | ⟨n, q, A', -, -, hlt, hlen, -, hok | ⟨herr, -⟩⟩
  · exact .of_error herr trivial
  · exact .of_error herr trivial
  · exact .of_ok hok ⟨rfl, hlt, hlen⟩
  · exact .of_error herr trivial

theorem stepValue_ensures {src : List UInt8} {pos : ℕ} {c : UInt8} {frame : ParseFrame}
    {below : List ParseFrame} {s : St D} (hc : src[pos]? = some c)
    (hdepth : below.length < jsonMaxDepth) (hbelow : ∀ f ∈ below, f.BelowOk s.heap) :
    Ensures (stepValue src pos c frame below none) s (StepOk src (pos + 1)) NoFault := by
  have hpos := (List.getElem?_eq_some_iff.mp hc).1
  have hkeeps : ∀ n : JsonNode D, ∀ f ∈ below, f.BelowOk (s.heap.new.set s.heap.next n) :=
    fun n f hf => (hbelow f hf).keeps (.alloc s.heap n)
  have hlt : ∀ n : JsonNode D, s.heap.next < (s.heap.new.set s.heap.next n).next :=
    fun n => Nat.lt_succ_self _
  unfold stepValue
  apply ensures_bind
  rcases jsonNewNode_cases s with ⟨-, hnone⟩ | ⟨-, A', ⟨hsome, -⟩ | ⟨hnone, -⟩⟩
  · exact .of_ok hnone (.of_error rfl trivial)
  · refine .of_ok hsome ?_
    refine ensures_ite (fun _ => ?_) fun _ => ensures_ite (fun _ => ?_) fun _ => ?_
    · refine ensures_bind (.of_ok rfl ?_)
      refine openContainer_ensures hpos hdepth (hkeeps _) ?_
      exact ⟨hlt _, .empty, Heap.set_node_self .., Nat.le_refl 0, Nat.zero_le _⟩
    · refine ensures_bind (.of_ok rfl ?_)
      refine openContainer_ensures hpos hdepth (hkeeps _) ?_
      exact ⟨hlt _, .empty, Heap.set_node_self .., ⟨Nat.le_refl 0, Nat.zero_le _⟩, rfl, rfl⟩
    · refine ensures_bind ((parseScalar_ensures hc).mono ?_ fun _ _ h => h)
      rintro ⟨n, q⟩ s' ⟨hheap, hq, hlen⟩
      refine ensures_bind (.of_ok rfl ?_)
      have hheap' : s'.heap.set s.heap.next n = s.heap.new.set s.heap.next n := by rw [hheap]
      refine (deliver_ensures hlen hdepth ?_).mono (fun _ _ h => h.mono hq) fun _ _ h => h
      intro f hf
      show f.BelowOk (s'.heap.set s.heap.next n)
      rw [hheap']
      exact hkeeps n f hf
  · exact .of_ok hnone (.of_error rfl trivial)

/-- **One round of the parser** keeps the invariant and consumes at least a byte, or
ends the loop with a result or an error code. -/
theorem parseStep_ensures {src : List UInt8} {cfg : ParseCfg} {s : St D} (h : CfgOk src cfg s) :
    Ensures (parseStep src cfg) s (StepOk src (cfg.pos + 1)) NoFault := by
  obtain ⟨pos, stack, root⟩ := cfg
  obtain ⟨hpos, hroot, hdepth, top, below, hstack, htop, hbelow⟩ := h
  simp only at hpos hroot hdepth hstack
  subst hroot hstack
  simp only [List.length_cons] at hdepth
  unfold parseStep
  refine ensures_bind (.of_ok (ofScan_ok (jsonLexSkipWs_eq src pos)) ?_)
  have hle := le_wsEnd src pos
  by_cases heof : wsEnd src pos ≥ src.length
  · rw [if_pos heof]
    cases below <;> exact ensures_throw trivial
  rw [if_neg heof]
  have hlt : wsEnd src pos < src.length := not_le.mp heof
  have hc : src[wsEnd src pos]? = some src[wsEnd src pos] := List.getElem?_eq_getElem hlt
  refine ensures_bind (.of_ok (ofScan_ok (rd_of_some hc)) ?_)
  unfold stepFrame
  unfold ParseFrame.TopOk at htop
  suffices hstep : Ensures _ s (StepOk src (wsEnd src pos + 1)) NoFault from
    hstep.mono (fun _ _ h => h.mono (Nat.succ_le_succ hle)) fun _ _ h => h
  cases hs : top.state with
  | value => exact stepValue_ensures hc hdepth hbelow
  | arrCont =>
    simp only [hs] at htop
    obtain ⟨p, hp, harr⟩ := htop
    refine ensures_ite (fun _ => ?_) fun _ => ensures_ite (fun _ => ?_) fun _ =>
      ensures_throw trivial
    · simp only [hp]
      exact deliver_ensures hlt hdepth hbelow
    · refine ensures_ite (fun _ => ensures_throw trivial) fun hmax => ?_
      exact pushValue_ensures hlt (not_le.mp hmax)
        (List.forall_mem_cons.mpr ⟨⟨p, hp, harr⟩, hbelow⟩)
  | objKey =>
    simp only [hs] at htop
    obtain ⟨p, hp, hobj⟩ := htop
    refine ensures_ite (fun _ => ?_) fun _ => ensures_throw trivial
    apply ensures_bind
    rcases jsonParseString_cases (show wsEnd src pos + 1 ≤ src.length from hlt) s with
      ⟨e, -, -, herr⟩ | ⟨out, q, A', hat, -, -, hok | ⟨herr, -⟩⟩
    · exact .of_error herr trivial
    · have hq := hat.pos
      exact .of_ok hok (ensures_pure ⟨⟨hq.2.1, rfl, hdepth, _, below, rfl,
        ⟨⟨p, hp, hobj⟩, rfl⟩, hbelow⟩, hq.1.le⟩)
    · exact .of_error herr trivial
  | objColon =>
    simp only [hs] at htop
    obtain ⟨⟨p, hp, hobj⟩, hkey⟩ := htop
    refine ensures_ite (fun _ => ensures_throw trivial) fun _ => ?_
    refine ensures_ite (fun _ => ensures_throw trivial) fun hmax => ?_
    exact pushValue_ensures hlt (not_le.mp hmax)
      (List.forall_mem_cons.mpr ⟨⟨⟨p, hp, hobj⟩, hkey⟩, hbelow⟩)
  | objCont =>
    simp only [hs] at htop
    obtain ⟨p, hp, hobj⟩ := htop
    refine ensures_ite (fun _ => ?_) fun _ => ensures_ite (fun _ => ?_) fun _ =>
      ensures_throw trivial
    · simp only [hp]
      exact deliver_ensures hlt hdepth hbelow
    · exact ensures_pure ⟨⟨hlt, rfl, hdepth, _, below, rfl, ⟨p, hp, hobj⟩, hbelow⟩, le_rfl⟩
  | arrItem => simp [hs] at htop
  | objVal => simp [hs] at htop

/-! ## Whole runs -/

omit [CDouble D] in
theorem cfgOk_initial (src : List UInt8) (s : St D) : CfgOk src initialCfg s :=
  ⟨Nat.zero_le _, rfl, by decide, valueFrame, [], rfl, trivial,
    fun f hf => absurd hf List.not_mem_nil⟩

/-- The invariant holds whenever a round begins. -/
theorem cfgOk_of_reaches {src : List UInt8} {s s' : St D} {cfg : ParseCfg}
    (h : Reaches (parseStep src) initialCfg s cfg s') : CfgOk src cfg s' :=
  h.invariant (I := CfgOk src) (cfgOk_initial src s)
    fun _ _ _ _ hc hstep => ((parseStep_ensures hc).ok hstep).1

theorem runParser_ensures (src : List UInt8) (s : St D) :
    Ensures (runFuel (parseStep src) (.fault .fuel) (src.length + 1) initialCfg) s
      (fun r _ => r.2 ≤ src.length) NoFault := by
  refine ensures_runFuel (I := CfgOk src) (μ := fun cfg => src.length - cfg.pos) ?_
    (cfgOk_initial src s) (Nat.lt_succ_self _)
  intro cfg s' hc
  refine (parseStep_ensures hc).mono ?_ fun _ _ h => h
  intro x s'' hx
  cases x with
  | inl cfg' =>
    have hpos := hx.1.pos
    have hlt := hx.2
    exact ⟨hx.1, by show src.length - cfg'.pos < src.length - cfg.pos; omega⟩
  | inr r => exact hx

/-- `json_parse` returns a value or an error code. -/
theorem jsonParse_ensures (src : List UInt8) (s : St D) :
    Ensures (jsonParse src) s (fun _ _ => True) NoFault := by
  unfold jsonParse
  refine ensures_bind ((runParser_ensures src s).mono ?_ fun _ _ h => h)
  intro r s' hr
  refine ensures_bind (.of_ok (ofScan_ok (jsonLexSkipWs_eq src r.2)) ?_)
  exact ensures_ite (fun _ => ensures_throw trivial) fun _ => ensures_pure trivial

/-- **The parser is memory-safe.**  Whenever a round of the loop begins: there are
between one and `JSON_MAX_DEPTH` frames; array states hold an array and object states
an object, with a key where one is pending; the top frame expects something to read
and the frames below it wait for a value.  No round, and no call of `json_parse`,
reads or stores out of bounds, uses a value that was not set, accesses the wrong
member of a value, or reaches a branch that the source keeps for impossible states. -/
theorem jsonParse_safe (src : List UInt8) (s : St D) :
    (∀ cfg s', Reaches (parseStep src) initialCfg s cfg s' →
      1 ≤ cfg.stack.length ∧ cfg.stack.length ≤ jsonMaxDepth ∧
      (∀ f ∈ cfg.stack,
        (f.state = .arrItem ∨ f.state = .arrCont → f.HoldsArr s'.heap) ∧
        (f.state = .objKey ∨ f.state = .objColon ∨ f.state = .objVal ∨ f.state = .objCont →
          f.HoldsObj s'.heap) ∧
        (f.state = .objColon ∨ f.state = .objVal → f.pendingKey.isSome)) ∧
      (∀ top below, cfg.stack = top :: below → top.state ≠ .arrItem ∧ top.state ≠ .objVal ∧
        ∀ f ∈ below, f.state = .arrItem ∨ f.state = .objVal) ∧
      ∀ f s'', parseStep src cfg s' ≠ .error (.fault f) s'') ∧
    ∀ f s', jsonParse src s ≠ .error (.fault f) s' := by
  refine ⟨fun cfg s' hreach => ?_, fun f s' herr => (jsonParse_ensures src s).error herr⟩
  have hok := cfgOk_of_reaches hreach
  obtain ⟨top, below, hstack, htop, hbelow⟩ := hok.stack
  refine ⟨by rw [hstack]; exact Nat.succ_pos _, hok.depth, fun f hf => ?_, fun t b heq => ?_,
    fun f s'' herr => (parseStep_ensures hok).error herr⟩
  · rw [hstack] at hf
    rcases List.mem_cons.mp hf with rfl | hf
    · unfold ParseFrame.TopOk at htop
      cases hs : f.state <;> simp_all
    · have hb := hbelow f hf
      unfold ParseFrame.BelowOk at hb
      cases hs : f.state <;> simp_all
  · obtain ⟨rfl, rfl⟩ : top = t ∧ below = b := by simpa [hstack] using heq
    refine ⟨?_, ?_, fun f hf => ?_⟩
    · intro hs
      simp [ParseFrame.TopOk, hs] at htop
    · intro hs
      simp [ParseFrame.TopOk, hs] at htop
    · have hb := hbelow f hf
      unfold ParseFrame.BelowOk at hb
      cases hs : f.state <;> simp_all

end SJson
