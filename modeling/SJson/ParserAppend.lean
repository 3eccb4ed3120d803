/-
# Parsing into an arena in use

What `json_parse` does with an arena depends on the arena only in two ways: memory may run
out, and the nodes that it has counted already count towards `JSON_MAX_NODES`.  Two runs from
arenas with the same count go the same way unless one of them runs out of memory
(`jsonParse_agrees`), so that a run is compared with one in an arena that never does.

A parse appends: it changes no node that was there, and on success it has made the tree that
a parse into a fresh arena makes (`jsonParse_append`).
-/
import SJson.Frame
import SJson.Grammar

namespace SJson

open ErrState

variable {D : Type}

/-! ## Two runs -/

/-- Two runs went the same way unless one ran out of memory.  Where they return, the arenas
have counted the same number of nodes, which satisfies `P`; where they fail with
`JSON_ERR_NODE_LIMIT`, `lim` holds. -/
inductive Agrees {α : Type} (P : ℕ → Prop) (lim : Prop) :
    EStateM.Result Fail (St D) α → EStateM.Result Fail (St D) α → Prop
  | oomLeft (s : St D) (r : EStateM.Result Fail (St D) α) : Agrees P lim (.error (.err .oom) s) r
  | oomRight (r : EStateM.Result Fail (St D) α) (s : St D) : Agrees P lim r (.error (.err .oom) s)
  | ok (a : α) (h : Heap D) {A B : Arena} (hAB : B.nodeCount = A.nodeCount) (hP : P A.nodeCount) :
      Agrees P lim (.ok a ⟨h, A⟩) (.ok a ⟨h, B⟩)
  | error (e : Fail) (s t : St D) (he : e = .err .nodeLimit → lim) :
      Agrees P lim (.error e s) (.error e t)

/-- A computation that counts no nodes and does not fail for their number. -/
structure Uniform {α : Type} (x : M D α) : Prop where
  agrees : ∀ (h : Heap D) (A B : Arena), B.nodeCount = A.nodeCount →
    Agrees (fun n => n = A.nodeCount) False (x ⟨h, A⟩) (x ⟨h, B⟩)

theorem Agrees.mono {α : Type} {P P' : ℕ → Prop} {lim lim' : Prop}
    {r₁ r₂ : EStateM.Result Fail (St D) α} (h : Agrees P lim r₁ r₂) (hP : ∀ n, P n → P' n)
    (hlim : lim → lim') : Agrees P' lim' r₁ r₂ := by
  cases h with
  | oomLeft => exact .oomLeft ..
  | oomRight => exact .oomRight ..
  | ok a h hAB hA => exact .ok a h hAB (hP _ hA)
  | error e s t he => exact .error e s t fun h => hlim (he h)

/-- Going on after two runs that agree so far. -/
theorem Agrees.bind {α β : Type} {P P' : ℕ → Prop} {lim lim' : Prop} {x : M D α} {k : α → M D β}
    {s t : St D} (h : Agrees P lim (x s) (x t)) (hlim : lim → lim')
    (hk : ∀ a (h' : Heap D) (A B : Arena), B.nodeCount = A.nodeCount → P A.nodeCount →
      Agrees P' lim' (k a ⟨h', A⟩) (k a ⟨h', B⟩)) : Agrees P' lim' ((x >>= k) s) ((x >>= k) t) := by
  generalize hx : x s = r, hy : x t = r' at h
  cases h with
  | oomLeft s' _ =>
    rw [bind_error hx]
    exact .oomLeft ..
  | oomRight _ s' =>
    rw [bind_error hy]
    exact .oomRight ..
  | ok a h' hAB hA =>
    rw [bind_ok hx, bind_ok hy]
    exact hk a h' _ _ hAB hA
  | error e s' t' he =>
    rw [bind_error hx, bind_error hy]
    exact .error e s' t' fun h => hlim (he h)

theorem uniform_pure {α : Type} (a : α) : Uniform (pure a : M D α) :=
  ⟨fun h _ _ hAB => .ok a h hAB rfl⟩

theorem uniform_throw {α : Type} {e : Fail} (he : e ≠ .err .nodeLimit) :
    Uniform (throw e : M D α) :=
  ⟨fun h A B _ => .error e ⟨h, A⟩ ⟨h, B⟩ fun h => absurd h he⟩

theorem Uniform.bind {α β : Type} {x : M D α} {k : α → M D β} (hx : Uniform x)
    (hk : ∀ a, Uniform (k a)) : Uniform (x >>= k) :=
  ⟨fun h A B hAB => (hx.agrees h A B hAB).bind id fun a h' A' B' hAB' hA' =>
    ((hk a).agrees h' A' B' hAB').mono (fun _ hn => hn.trans hA') id⟩

theorem uniform_ite {α : Type} {c : Prop} [Decidable c] {x y : M D α} (hx : c → Uniform x)
    (hy : ¬ c → Uniform y) : Uniform (if c then x else y) := by
  split
  · exact hx ‹_›
  · exact hy ‹_›

theorem uniform_ofScan {α : Type} {x : Scan α} (hx : x ≠ .error (.err .nodeLimit)) :
    Uniform (ofScan x : M D α) := by
  constructor
  intro h A B hAB
  cases x with
  | ok a => exact .ok a h hAB rfl
  | error e => exact .error e ⟨h, A⟩ ⟨h, B⟩ fun he => absurd (congrArg _ he) hx

theorem uniform_writeNode (p : JsonPtr) (n : JsonNode D) : Uniform (writeNode p n) :=
  ⟨fun h _ _ hAB => .ok () (h.set p n) hAB rfl⟩

/-- Reading a node does not depend on the arena. -/
theorem uniform_readNode {β : Type} {p : JsonPtr} {k : JsonNode D → M D β}
    (hk : ∀ n, Uniform (k n)) : Uniform (readNode p >>= k) :=
  ⟨fun h A B hAB => (hk (h.node p)).agrees h A B hAB⟩

/-- A request for memory that the function cannot do without. -/
theorem uniform_alloc {β : Type} {n : ℕ} {k : M D β} (hk : Uniform k) :
    Uniform (do if ← arenaAlloc n then k else throw (.err .oom)) := by
  constructor
  intro h A B hAB
  have hcount : (B.alloc n).2.nodeCount = (A.alloc n).2.nodeCount := by
    rw [A.alloc_nodeCount, B.alloc_nodeCount, hAB]
  have hA : arenaAlloc n (⟨h, A⟩ : St D) = .ok (A.alloc n).1.isSome ⟨h, (A.alloc n).2⟩ := rfl
  have hB : arenaAlloc n (⟨h, B⟩ : St D) = .ok (B.alloc n).1.isSome ⟨h, (B.alloc n).2⟩ := rfl
  rw [bind_ok hA, bind_ok hB]
  cases (A.alloc n).1.isSome with
  | false => exact .oomLeft ..
  | true =>
    cases (B.alloc n).1.isSome with
    | false => exact .oomRight ..
    | true => exact (hk.agrees h _ _ hcount).mono (fun _ hn => hn.trans (A.alloc_nodeCount n)) id

/-- What a computation returns is decided by a token, unless memory runs out. -/
def TokenLike {α : Type} (tok : Scan α) (x : M D α) : Prop :=
  ∀ s : St D, ∃ A', A'.nodeCount = s.arena.nodeCount ∧
    ((∃ e, tok = .error e ∧ e ≠ .err .nodeLimit ∧ x s = .error e { s with arena := A' }) ∨
      (∃ a, tok = .ok a ∧ x s = .ok a { s with arena := A' }) ∨
      x s = .error (.err .oom) { s with arena := A' })

theorem TokenLike.uniform {α : Type} {tok : Scan α} {x : M D α} (hx : TokenLike tok x) :
    Uniform x := by
  constructor
  intro h A B hAB
  obtain ⟨A', hA', hresA⟩ := hx ⟨h, A⟩
  obtain ⟨B', hB', hresB⟩ := hx ⟨h, B⟩
  rcases hresA with ⟨e, htok, he, hxA⟩ | ⟨a, htok, hxA⟩ | hxA
  · rcases hresB with ⟨e', htok', -, hxB⟩ | ⟨b, htok', -⟩ | hxB
    · rw [htok] at htok'
      cases htok'
      rw [hxA, hxB]
      exact .error e _ _ fun h => absurd h he
    · rw [htok] at htok'
      cases htok'
    · rw [hxB]
      exact .oomRight ..
  · rcases hresB with ⟨e', htok', -⟩ | ⟨b, htok', hxB⟩ | hxB
    · rw [htok] at htok'
      cases htok'
    · rw [htok] at htok'
      cases htok'
      rw [hxA, hxB]
      exact .ok a h ((hB'.trans hAB).trans hA'.symm) hA'
    · rw [hxB]
      exact .oomRight ..
  · rw [hxA]
    exact .oomLeft ..

theorem uniform_growCap (elem cap : ℕ) : Uniform (growCap elem cap : M D ℕ) := by
  unfold growCap
  cases nextCap elem cap with
  | none => exact uniform_throw (by simp)
  | some c => exact uniform_alloc (uniform_pure c)

theorem uniform_arrStore (arr item : JsonPtr) : Uniform (arrStore arr item : M D Unit) := by
  refine uniform_readNode fun n => ?_
  cases n with
  | array a =>
    refine .bind ?_ fun a' => uniform_ite (fun _ => uniform_writeNode ..) fun _ =>
      uniform_throw (by simp)
    exact uniform_ite (fun _ => (uniform_growCap ..).bind fun _ => uniform_pure _) fun _ =>
      uniform_pure _
  | _ => exact uniform_throw (by simp)

theorem uniform_objStore (obj : JsonPtr) (key : JsonStr) (val : JsonPtr) :
    Uniform (objStore obj key val : M D Unit) := by
  refine uniform_readNode fun n => ?_
  cases n with
  | object o =>
    refine .bind ?_ fun o' => uniform_ite (fun _ => uniform_writeNode ..) fun _ =>
      uniform_throw (by simp)
    exact uniform_ite (fun _ => (uniform_growCap ..).bind fun _ => uniform_pure _) fun _ =>
      uniform_pure _
  | _ => exact uniform_throw (by simp)

/-! ## One round -/

theorem uniform_deliver (vp : Bool) (result : JsonPtr) (pos : ℕ) (root : Option JsonPtr)
    (below : List ParseFrame) : Uniform (deliver vp result pos root below : M D StepResult) := by
  cases below with
  | nil => exact uniform_pure _
  | cons parent fs =>
    obtain ⟨container, state, pendingKey⟩ := parent
    cases container with
    | none =>
      cases state with
      | value => exact uniform_ite (fun _ => uniform_pure _) fun _ => uniform_throw (by simp)
      | _ => exact uniform_throw (by simp)
    | some p =>
      cases state with
      | arrItem => exact (uniform_arrStore ..).bind fun _ => uniform_pure _
      | arrCont => exact (uniform_arrStore ..).bind fun _ => uniform_pure _
      | objVal =>
        cases pendingKey with
        | none => exact uniform_throw (by simp)
        | some key => exact (uniform_objStore ..).bind fun _ => uniform_pure _
      | value => exact uniform_ite (fun _ => uniform_pure _) fun _ => uniform_throw (by simp)
      | _ => exact uniform_throw (by simp)

theorem uniform_pushValue (pos : ℕ) (stack : List ParseFrame) (root : Option JsonPtr) :
    Uniform (pushValue pos stack root : M D StepResult) :=
  uniform_ite (fun _ => uniform_pure _) fun _ => uniform_throw (by simp)

theorem uniform_skipWs (src : List UInt8) (pos : ℕ) :
    Uniform (ofScan (jsonLexSkipWs src pos) : M D ℕ) :=
  uniform_ofScan (by rw [jsonLexSkipWs_eq]; simp)

theorem uniform_openContainer (src : List UInt8) (pos : ℕ) (frame : ParseFrame)
    (below : List ParseFrame) (root : Option JsonPtr) (node : JsonPtr) (closing : UInt8)
    (isArray : Bool) :
    Uniform (openContainer src pos frame below root node closing isArray : M D StepResult) := by
  refine uniform_ite (fun _ => uniform_throw (by simp)) fun _ => ?_
  refine (uniform_skipWs ..).bind fun pos' => ?_
  refine .bind (uniform_ofScan (by rw [byteAt_eq]; simp)) fun close => ?_
  exact uniform_ite (fun _ => uniform_deliver ..) fun _ =>
    uniform_ite (fun _ => uniform_pushValue ..) fun _ => uniform_pure _

theorem ne_nodeLimit_of_syntactic {e : JsonError} (he : e.syntactic) :
    Fail.err e ≠ .err .nodeLimit := by
  rintro h
  cases h
  exact absurd he (by decide)

theorem tokenLike_jsonParseString {src : List UInt8} {pos : ℕ} (hpos : pos ≤ src.length) :
    TokenLike (stringToken src pos) (jsonParseString src pos : M D _) := by
  intro s
  rcases jsonParseString_cases hpos s with
    ⟨e, htok, he, herr⟩ | ⟨out, q, A', -, htok, huses, hok | ⟨herr, -⟩⟩
  · exact ⟨s.arena, rfl, .inl ⟨_, htok, ne_nodeLimit_of_syntactic he, herr⟩⟩
  · exact ⟨A', huses.nodeCount, .inr (.inl ⟨_, htok, hok⟩)⟩
  · exact ⟨A', huses.nodeCount, .inr (.inr herr)⟩

variable [CDouble D]

theorem tokenLike_jsonParseNumber {src : List UInt8} {pos : ℕ} (hpos : pos ≤ src.length) :
    TokenLike (numberToken src pos) (jsonParseNumber src pos : M D _) := by
  intro s
  rcases jsonParseNumber_cases hpos s with
    ⟨e, A', htok, he, huses, herr | ⟨herr, -⟩⟩ | ⟨n, q, A', htok, -, -, -, huses, hok | ⟨herr, -⟩⟩
  · exact ⟨A', huses.nodeCount, .inl ⟨_, htok, ne_nodeLimit_of_syntactic he, herr⟩⟩
  · exact ⟨A', huses.nodeCount, .inr (.inr herr)⟩
  · exact ⟨A', huses.nodeCount, .inr (.inl ⟨_, htok, hok⟩)⟩
  · exact ⟨A', huses.nodeCount, .inr (.inr herr)⟩

theorem uniform_parseScalar {src : List UInt8} {pos : ℕ} {c : UInt8} (hpos : pos < src.length) :
    Uniform (parseScalar src pos c : M D _) := by
  have hlit : ∀ (lit : List UInt8) (n : JsonNode D), Uniform (do
      let pos ← ofScan (lexExpectLiteral src (pos + 1) lit)
      return (n, pos) : M D _) := fun lit n => by
    refine .bind (uniform_ofScan ?_) fun _ => uniform_pure _
    rw [lexExpectLiteral_eq (show pos + 1 ≤ src.length from hpos)]
    split <;> simp
  unfold parseScalar
  refine uniform_ite (fun _ => hlit _ _) fun _ => ?_
  refine uniform_ite (fun _ => hlit _ _) fun _ => ?_
  refine uniform_ite (fun _ => hlit _ _) fun _ => ?_
  refine uniform_ite (fun _ => ?_) fun _ => uniform_ite (fun _ => ?_) fun _ =>
    uniform_throw (by simp)
  · exact (tokenLike_jsonParseString hpos).uniform.bind fun _ => uniform_pure _
  · exact (tokenLike_jsonParseNumber hpos.le).uniform

/-- In `PS_VALUE` a node is counted, or the limit is reached, or memory runs out. -/
theorem stepValue_agrees {src : List UInt8} {pos : ℕ} {c : UInt8} {frame : ParseFrame}
    {below : List ParseFrame} {root : Option JsonPtr} (hpos : pos < src.length) (h : Heap D)
    {A B : Arena} (hAB : B.nodeCount = A.nodeCount) :
    Agrees (fun n => n = A.nodeCount + 1) (jsonMaxNodes ≤ A.nodeCount)
      (stepValue src pos c frame below root ⟨h, A⟩)
        (stepValue src pos c frame below root ⟨h, B⟩) := by
  have hrest : ∀ (node : JsonPtr), Uniform (if c = 0x5B then do
        writeNode node (.array .empty)
        openContainer src (pos + 1) frame below root node 0x5D true
      else if c = 0x7B then do
        writeNode node (.object .empty)
        openContainer src (pos + 1) frame below root node 0x7D false
      else do
        let r ← parseScalar src pos c
        writeNode node r.1
        deliverValue node r.2 root below : M D StepResult) := fun node => by
    refine uniform_ite (fun _ => ?_) fun _ => uniform_ite (fun _ => ?_) fun _ => ?_
    · exact (uniform_writeNode ..).bind fun _ => uniform_openContainer ..
    · exact (uniform_writeNode ..).bind fun _ => uniform_openContainer ..
    · exact (uniform_parseScalar hpos).bind fun _ =>
        (uniform_writeNode ..).bind fun _ => uniform_deliver ..
  -- what follows a refused node
  have hrefused : ∀ {C C' : Arena}, jsonNewNode (⟨h, C⟩ : St D) = .ok none ⟨h, C'⟩ →
      C'.nodeCount = C.nodeCount →
      stepValue src pos c frame below root ⟨h, C⟩ = .error
        (.err (if C.nodeCount ≥ jsonMaxNodes then .nodeLimit else .oom)) (⟨h, C'⟩ : St D) := by
    intro C C' hnone hcount
    refine (bind_ok hnone).trans ?_
    show newNodeError (⟨h, C'⟩ : St D) = _
    rw [newNodeError, hcount]
  rcases jsonNewNode_cases (⟨h, A⟩ : St D) with
    ⟨hmax, hA⟩ | ⟨hlt, A', ⟨hA, hcountA, -⟩ | ⟨hA, hcountA, -⟩⟩
  · rcases jsonNewNode_cases (⟨h, B⟩ : St D) with ⟨-, hB⟩ | ⟨hltB, -⟩
    · rw [hrefused hA rfl, hrefused hB rfl, hAB]
      exact .error _ _ _ fun _ => hmax
    · exact absurd hltB (not_lt.mpr (hAB ▸ hmax))
  · rcases jsonNewNode_cases (⟨h, B⟩ : St D) with
      ⟨hmaxB, -⟩ | ⟨-, B', ⟨hB, hcountB, -⟩ | ⟨hB, hcountB, -⟩⟩
    · exact absurd hlt (not_lt.mpr (hAB ▸ hmaxB))
    · have hcount : B'.nodeCount = A'.nodeCount := by
        rw [hcountA, hcountB]
        exact congrArg (· + 1) hAB
      have hagree := (hrest h.next).agrees h.new A' B' hcount
      unfold stepValue
      rw [bind_ok hA, bind_ok hB]
      exact hagree.mono (fun n hn => hn.trans hcountA) False.elim
    · rw [hrefused hB hcountB, if_neg (not_le.mpr (hAB ▸ hlt))]
      exact .oomRight ..
  · rw [hrefused hA hcountA, if_neg (not_le.mpr hlt)]
    exact .oomLeft ..

/-- A value is expected at the position of the round, and there is a byte. -/
def atValue (src : List UInt8) (cfg : ParseCfg) : Bool :=
  cfg.stack.head?.any fun f => f.state = .value && wsEnd src cfg.pos < src.length

/-- **One round** counts a node where it is at a value, and fails for the number of nodes
only there. -/
theorem parseStep_agrees (src : List UInt8) (cfg : ParseCfg) (h : Heap D) {A B : Arena}
    (hAB : B.nodeCount = A.nodeCount) :
    Agrees (fun n => n = A.nodeCount + (atValue src cfg).toNat)
      (atValue src cfg = true ∧ jsonMaxNodes ≤ A.nodeCount)
      (parseStep src cfg ⟨h, A⟩) (parseStep src cfg ⟨h, B⟩) := by
  obtain ⟨pos, stack, root⟩ := cfg
  cases stack with
  | nil => exact .error _ _ _ (by simp)
  | cons frame below =>
    unfold parseStep
    simp only
    rw [bind_ok (ofScan_ok (jsonLexSkipWs_eq src pos)),
      bind_ok (ofScan_ok (jsonLexSkipWs_eq src pos))]
    by_cases heof : wsEnd src pos ≥ src.length
    · have hno : atValue src ⟨pos, frame :: below, root⟩ = false := by
        simp [atValue, not_lt.mpr heof]
      rw [hno, if_pos heof]
      cases below with
      | nil =>
        cases root with
        | none => exact .error _ _ _ (by simp)
        | some r => exact .ok _ h hAB rfl
      | cons _ _ => exact .error _ _ _ (by simp)
    rw [if_neg heof]
    have hlt : wsEnd src pos < src.length := not_le.mp heof
    have hc : src[wsEnd src pos]? = some src[wsEnd src pos] := List.getElem?_eq_getElem hlt
    rw [bind_ok (ofScan_ok (rd_of_some hc)), bind_ok (ofScan_ok (rd_of_some hc))]
    by_cases hstate : frame.state = .value
    · have hyes : atValue src ⟨pos, frame :: below, root⟩ = true := by
        simp [atValue, hstate, hlt]
      unfold stepFrame
      rw [hyes, hstate]
      exact (stepValue_agrees hlt h hAB).mono (fun _ hn => hn) fun hmax => ⟨rfl, hmax⟩
    · have hno : atValue src ⟨pos, frame :: below, root⟩ = false := by
        simp [atValue, hstate]
      rw [hno]
      suffices hstep : Uniform (stepFrame src (wsEnd src pos) src[wsEnd src pos] frame below root :
          M D StepResult) from
        (hstep.agrees h A B hAB).mono (fun _ hn => hn) False.elim
      unfold stepFrame
      cases hs : frame.state with
      | value => exact absurd hs hstate
      | arrCont =>
        refine uniform_ite (fun _ => ?_) fun _ => uniform_ite (fun _ => ?_) fun _ =>
          uniform_throw (by simp)
        · cases frame.container with
          | none => exact uniform_throw (by simp)
          | some result => exact uniform_deliver ..
        · exact uniform_ite (fun _ => uniform_throw (by simp)) fun _ => uniform_pushValue ..
      | objKey =>
        refine uniform_ite (fun _ => ?_) fun _ => uniform_throw (by simp)
        exact (tokenLike_jsonParseString hlt).uniform.bind fun _ => uniform_pure _
      | objColon =>
        refine uniform_ite (fun _ => uniform_throw (by simp)) fun _ => ?_
        exact uniform_ite (fun _ => uniform_throw (by simp)) fun _ => uniform_pushValue ..
      | objCont =>
        refine uniform_ite (fun _ => ?_) fun _ => uniform_ite (fun _ => uniform_pure _) fun _ =>
          uniform_throw (by simp)
        cases frame.container with
        | none => exact uniform_throw (by simp)
        | some result => exact uniform_deliver ..
      | _ => exact uniform_throw (by simp)

/-! ## Whole runs -/

/-- How many positions at which a value is expected the loop reaches, in `fuel` rounds. -/
def valuesReached (src : List UInt8) : ℕ → ParseCfg → St D → ℕ
  | 0, _, _ => 0
  | fuel + 1, cfg, s =>
    (atValue src cfg).toNat +
      match parseStep src cfg s with
      | .ok (.inl cfg') s' => valuesReached src fuel cfg' s'
      | _ => 0

theorem run_agrees (src : List UInt8) : ∀ (fuel : ℕ) (cfg : ParseCfg) (h : Heap D) {A B : Arena},
    B.nodeCount = A.nodeCount →
    Agrees (fun _ => True) (jsonMaxNodes < A.nodeCount + valuesReached src fuel cfg ⟨h, A⟩)
      (runFuel (parseStep src) (.fault .fuel) fuel cfg ⟨h, A⟩)
      (runFuel (parseStep src) (.fault .fuel) fuel cfg ⟨h, B⟩) := by
  intro fuel
  induction fuel with
  | zero => exact fun cfg h A B _ => .error _ _ _ (by simp)
  | succ fuel ih =>
    intro cfg h A B hAB
    have hstep := parseStep_agrees src cfg h hAB
    rw [valuesReached]
    generalize hx : parseStep src cfg ⟨h, A⟩ = r, hy : parseStep src cfg ⟨h, B⟩ = r' at hstep
    cases hstep with
    | oomLeft =>
      rw [runFuel_succ_of_error hx]
      exact .oomLeft ..
    | oomRight =>
      rw [runFuel_succ_of_error hy]
      exact .oomRight ..
    | error e s t he =>
      rw [runFuel_succ_of_error hx, runFuel_succ_of_error hy]
      refine .error e s t fun hlim => ?_
      obtain ⟨hvalue, hmax⟩ := he hlim
      rw [hvalue, Bool.toNat_true]
      omega
    | @ok x h' A' B' hAB' hcount =>
      cases x with
      | inr res =>
        rw [runFuel_succ_of_done hx, runFuel_succ_of_done hy]
        exact .ok res h' hAB' trivial
      | inl cfg' =>
        rw [runFuel_succ_of_next hx, runFuel_succ_of_next hy]
        refine (ih cfg' h' hAB').mono (fun _ hn => hn) fun hlim => ?_
        simp only at hlim ⊢
        omega

/-- **Two parses** from arenas that have counted the same number of nodes. -/
theorem jsonParse_agrees (src : List UInt8) (h : Heap D) {A B : Arena}
    (hAB : B.nodeCount = A.nodeCount) :
    Agrees (fun _ => True)
      (jsonMaxNodes < A.nodeCount + valuesReached src (src.length + 1) initialCfg ⟨h, A⟩)
      (jsonParse src ⟨h, A⟩) (jsonParse src ⟨h, B⟩) := by
  refine (run_agrees src _ initialCfg h hAB).bind id fun r h' A' B' hAB' _ => ?_
  have hrest : Uniform (do
      let pos ← ofScan (jsonLexSkipWs src r.2)
      if pos < src.length then throw (.err .invalidJson) else return r.1 : M D JsonPtr) :=
    (uniform_skipWs ..).bind fun _ =>
      uniform_ite (fun _ => uniform_throw (by simp)) fun _ => uniform_pure _
  exact (hrest.agrees h' A' B' hAB').mono (fun _ _ => trivial) False.elim

/-! ## The run that does not run out of memory -/

omit [CDouble D] in
/-- There is an arena that never runs out of memory and has counted `n` nodes. -/
theorem Arena.exists_counted (n : ℕ) :
    ∃ A : Arena, A.NeverFails ∧ A.totalBytes = 0 ∧ A.nodeCount = n := by
  induction n with
  | zero =>
    obtain ⟨A, hA⟩ := exists_fresh
    exact ⟨A, hA.neverFails, hA.totalBytes, hA.nodeCount⟩
  | succ n ih =>
    obtain ⟨A, hnever, htotal, hcount⟩ := ih
    exact ⟨A.countNode, hnever, htotal, by rw [countNode_nodeCount, hcount]⟩

omit [CDouble D] in
theorem budget_of_empty {src : List UInt8} {A : Arena} (hnever : A.NeverFails)
    (htotal : A.totalBytes = 0) (hlen : src.length ≤ ptrdiffMax) : Budget src A 0 64 := by
  refine ⟨hnever, ?_⟩
  have hsub : valueCost * (jsonMaxNodes - A.nodeCount) ≤ valueCost * jsonMaxNodes :=
    Nat.mul_le_mul_left _ (Nat.sub_le ..)
  rw [htotal]
  unfold ptrdiffMax at hlen
  unfold valueCost growCost jsonMaxNodes jsonMaxArrayLen sizeofJsonPair sizeMax at *
  omega

/-- A result that is not an error for lack of memory. -/
def NotOom {α : Type} (x : Scan α) : Prop := x ≠ .error (.err .oom)

omit [CDouble D] in
theorem notOom_bind {α β : Type} {x : Scan α} {k : α → Scan β} (hx : NotOom x)
    (hk : ∀ a, NotOom (k a)) : NotOom (x >>= k) := by
  cases x with
  | ok a => exact hk a
  | error e => exact fun h => hx (by cases h; rfl)

omit [CDouble D] in
theorem notOom_ite {α : Type} {c : Prop} [Decidable c] {x y : Scan α} (hx : c → NotOom x)
    (hy : ¬ c → NotOom y) : NotOom (if c then x else y) := by
  split
  · exact hx ‹_›
  · exact hy ‹_›

omit [CDouble D] in
theorem notOom_ok {α : Type} (a : α) : NotOom (.ok a : Scan α) := by simp [NotOom]

omit [CDouble D] in
theorem notOom_error {α : Type} {e : Fail} (he : e ≠ .err .oom) : NotOom (.error e : Scan α) := by
  simp [NotOom, he]

omit [CDouble D] in
theorem ne_oom_of_syntactic {e : JsonError} (he : e.syntactic) : Fail.err e ≠ .err .oom := by
  rintro h
  cases h
  exact absurd he (by decide)

omit [CDouble D] in
theorem notOom_stringToken {src : List UInt8} {p : ℕ} (hp : p ≤ src.length) :
    NotOom (stringToken src p) := by
  rcases stringToken_cases hp with ⟨e, herr, he, -⟩ | ⟨out, q, -, hok⟩
  · rw [herr]
    exact notOom_error (ne_oom_of_syntactic he)
  · rw [hok]
    exact notOom_ok _

theorem notOom_scalarToken {src : List UInt8} {pos : ℕ} {c : UInt8} (hpos : pos < src.length) :
    NotOom (scalarToken src pos c : Scan (JsonNode D × ℕ)) := by
  have hlit : ∀ (lit : List UInt8) (n : JsonNode D), NotOom (do
      let pos ← lexExpectLiteral src (pos + 1) lit
      return (n, pos) : Scan _) := fun lit n => by
    refine notOom_bind ?_ fun _ => notOom_ok _
    rw [lexExpectLiteral_eq (show pos + 1 ≤ src.length from hpos)]
    exact notOom_ite (fun _ => notOom_ok _) fun _ => notOom_error (by simp)
  unfold scalarToken
  refine notOom_ite (fun _ => hlit _ _) fun _ => ?_
  refine notOom_ite (fun _ => hlit _ _) fun _ => ?_
  refine notOom_ite (fun _ => hlit _ _) fun _ => ?_
  refine notOom_ite (fun _ => ?_) fun _ => notOom_ite (fun _ => ?_) fun _ =>
    notOom_error (by simp)
  · exact notOom_bind (notOom_stringToken hpos) fun _ => notOom_ok _
  · obtain ⟨A, -⟩ := Arena.exists_counted 0
    rcases jsonParseNumber_cases hpos.le (⟨.empty, A⟩ : St D) with
      ⟨e, A', htok, he, -⟩ | ⟨n, q, A', htok, -⟩
    · rw [htok]
      exact notOom_error (ne_oom_of_syntactic he)
    · rw [htok]
      exact notOom_ok _

/-- The reference parser does not run out of memory. -/
theorem notOom_ref (src : List UInt8) (fuel : ℕ) :
    (∀ depth nodes pos, NotOom (refValue src fuel depth nodes pos : Scan (Json D × _))) ∧
    (∀ depth nodes pos acc, NotOom (refItems src fuel depth nodes pos acc : Scan (Json D × _))) ∧
    ∀ depth nodes pos acc, NotOom (refPairs src fuel depth nodes pos acc : Scan (Json D × _)) := by
  induction fuel with
  | zero =>
    exact ⟨fun _ _ _ => notOom_error (by simp), fun _ _ _ _ => notOom_error (by simp),
      fun _ _ _ _ => notOom_error (by simp)⟩
  | succ fuel ih =>
    obtain ⟨hvalue, hitems, hpairs⟩ := ih
    refine ⟨fun depth nodes pos => ?_, fun depth nodes pos acc => ?_, fun depth nodes pos acc => ?_⟩
    · rw [refValue]
      cases hc : peek src pos with
      | none => exact notOom_error (by simp)
      | some c =>
        refine notOom_ite (fun _ => notOom_error (by simp)) fun _ => ?_
        refine notOom_ite (fun _ => ?_) fun _ => notOom_ite (fun _ => ?_) fun _ => ?_
        · refine notOom_ite (fun _ => notOom_error (by simp)) fun _ => ?_
          exact notOom_ite (fun _ => notOom_ok _) fun _ => hitems _ _ _ _
        · refine notOom_ite (fun _ => notOom_error (by simp)) fun _ => ?_
          exact notOom_ite (fun _ => notOom_ok _) fun _ => hpairs _ _ _ _
        · exact notOom_bind (notOom_scalarToken (peek_lt hc).2) fun _ => notOom_ok _
    · rw [refItems]
      refine notOom_bind (hvalue _ _ _) ?_
      rintro ⟨j, q, n⟩
      refine notOom_ite (fun _ => notOom_error (by simp)) fun _ => ?_
      cases peek src q with
      | none => exact notOom_error (by simp)
      | some c =>
        refine notOom_ite (fun _ => notOom_ok _) fun _ => ?_
        exact notOom_ite (fun _ => hitems _ _ _ _) fun _ => notOom_error (by simp)
    · rw [refPairs]
      cases hc : peek src pos with
      | none => exact notOom_error (by simp)
      | some c =>
        refine notOom_ite (fun _ => ?_) fun _ => notOom_error (by simp)
        refine notOom_bind (notOom_stringToken (peek_lt hc).2) ?_
        rintro ⟨key, q⟩
        dsimp only
        cases peek src q with
        | none => exact notOom_error (by simp)
        | some c =>
          refine notOom_ite (fun _ => notOom_error (by simp)) fun _ => ?_
          refine notOom_bind (hvalue _ _ _) ?_
          rintro ⟨j, q, n⟩
          refine notOom_ite (fun _ => notOom_error (by simp)) fun _ => ?_
          cases peek src q with
          | none => exact notOom_error (by simp)
          | some c =>
            refine notOom_ite (fun _ => notOom_ok _) fun _ => ?_
            exact notOom_ite (fun _ => hpairs _ _ _ _) fun _ => notOom_error (by simp)

theorem notOom_refParse (src : List UInt8) (nodes : ℕ) :
    NotOom (refParse src nodes : Scan (Json D × ℕ)) := by
  refine notOom_bind ((notOom_ref src _).1 1 nodes 0) fun r => ?_
  exact notOom_ite (fun _ => notOom_error (by simp)) fun _ => notOom_ok _

/-- A parse from any arena goes as the reference parser says, unless memory runs out. -/
theorem jsonParse_ref_or_oom {src : List UInt8} (hlen : src.length ≤ ptrdiffMax) {s : St D}
    {v : JsonPtr} {s' : St D} (hok : jsonParse src s = .ok v s') :
    ∃ j : Json D, refParse src s.arena.nodeCount = .ok (j, s'.arena.nodeCount) ∧
      DenotesIn (s'.heap.From s.heap.next) s'.heap j v := by
  obtain ⟨h, A⟩ := s
  obtain ⟨B, hnever, htotal, hcount⟩ := Arena.exists_counted A.nodeCount
  have hagree := jsonParse_agrees src h hcount
  have href := jsonParse_ref (D := D) (s := ⟨h, B⟩) (budget_of_empty hnever htotal hlen)
  rw [show (⟨h, B⟩ : St D).arena.nodeCount = A.nodeCount from hcount] at href
  have hnot := notOom_refParse (D := D) src A.nodeCount
  show ∃ j : Json D, refParse src A.nodeCount = _ ∧ _
  cases hres : (refParse src A.nodeCount : Scan (Json D × ℕ)) with
  | error e =>
    rw [hres] at href hnot
    obtain ⟨t, ht⟩ := href
    rw [hok, ht] at hagree
    cases hagree
    exact absurd rfl hnot
  | ok r =>
    rw [hres] at href
    obtain ⟨w, t, ht, hden, -, hn⟩ := href
    rw [hok, ht] at hagree
    cases hagree with
    | ok a h' hAB _ => exact ⟨r.1, congrArg _ (Prod.ext rfl (hn.symm.trans hAB)), hden⟩

/-- **Parsing is a pure append.**  From any arena, and wherever it fails, a parse leaves every
node as it is that was there before.  On success the tree it returns is the one that the text
stands for and that a parse into a fresh arena returns, and the arena has counted as many
nodes more as the tree has values.  It fails for the number of nodes only if the values that
it has reached do not fit beside those counted before. -/
theorem jsonParse_append (src : List UInt8) (hlen : src.length ≤ ptrdiffMax) (h : Heap D)
    (A : Arena) :
    (h.next ≤ (stateAfter (jsonParse src) ⟨h, A⟩).heap.next ∧
      ∀ p, p < h.next → (stateAfter (jsonParse src) ⟨h, A⟩).heap.node p = h.node p) ∧
    (∀ v s, jsonParse src ⟨h, A⟩ = .ok v s → ∃ j : Json D, JsonText src j ∧
      DenotesIn (s.heap.From h.next) s.heap j v ∧ s.arena.nodeCount = A.nodeCount + j.nodes ∧
      ∀ (g : Heap D) (B : Arena), B.Fresh →
        ∃ w t, jsonParse src ⟨g, B⟩ = .ok w t ∧ DenotesIn (t.heap.From g.next) t.heap j w) ∧
    ∀ s, jsonParse src ⟨h, A⟩ = .error (.err .nodeLimit) s →
      jsonMaxNodes < A.nodeCount + valuesReached src (src.length + 1) initialCfg ⟨h, A⟩ := by
  refine ⟨?_, fun v s hok => ?_, fun s herr => ?_⟩
  · have hg := (spares_jsonParse src (⟨h, A⟩ : St D)).stateAfter
    exact ⟨hg.next, fun p hp => hg.node p hp (Option.some_ne_none p)⟩
  · obtain ⟨j, href, hden⟩ := jsonParse_ref_or_oom hlen hok
    obtain ⟨htext, hnest, hwidth, hnodes, hcount⟩ := refParse_from_iff.mp href
    have hlim : j.InLimits := ⟨hnest, hwidth, by omega⟩
    refine ⟨j, htext, hden, hcount, fun g B hB => ?_⟩
    obtain ⟨w, t, hparse, hden', -⟩ :=
      jsonParse_fresh (h := g) hB hlen (refParse_iff.mpr ⟨htext, hlim, rfl⟩)
    exact ⟨w, t, hparse, hden'⟩
  · have hagree := jsonParse_agrees src h (rfl : A.nodeCount = A.nodeCount)
    rw [herr] at hagree
    cases hagree with
    | error e s t he => exact he rfl

/-- The text `{"k":2}`, parsed beside the tree of `[1]`, which stays as it is. -/
theorem jsonParse_append_beside :
    ∃ (_ : CDouble Unit) (h : Heap Unit) (u : JsonPtr) (A : Arena) (v : JsonPtr) (s : St Unit)
      (j : Json Unit), DenotesIn (h.From 0) h (.arr [.int 1]) u ∧ A.nodeCount = 2 ∧
      jsonParse [0x7B, 0x22, 0x6B, 0x22, 0x3A, 0x32, 0x7D] ⟨h, A⟩ = .ok v s ∧
      DenotesIn (s.heap.From 0) s.heap (.arr [.int 1]) u ∧
      JsonText [0x7B, 0x22, 0x6B, 0x22, 0x3A, 0x32, 0x7D] j ∧
      DenotesIn (s.heap.From h.next) s.heap j v ∧ s.arena.nodeCount = 2 + j.nodes := by
  obtain ⟨A, hA⟩ := Arena.exists_fresh
  let _ : CDouble Unit := .unit
  have hfirst : refParse [0x5B, 0x31, 0x5D] 0 = .ok ((.arr [.int 1] : Json Unit), 2) := by rfl
  obtain ⟨u, t, -, hu, -⟩ := jsonParse_fresh (h := .empty) hA (by decide) hfirst
  -- an arena that has counted two nodes and has memory for the second text
  obtain ⟨B, hnever, htotal, hcount⟩ := Arena.exists_counted 2
  have href : refParse [0x7B, 0x22, 0x6B, 0x22, 0x3A, 0x32, 0x7D] 2
      = .ok ((.obj [([0x6B], .int 2)] : Json Unit), 4) := by rfl
  have hbudget : Budget [0x7B, 0x22, 0x6B, 0x22, 0x3A, 0x32, 0x7D] B 0 64 :=
    budget_of_empty hnever htotal (by decide)
  have hparses := jsonParse_ref (s := (⟨t.heap, B⟩ : St Unit)) hbudget
  rw [show (⟨t.heap, B⟩ : St Unit).arena.nodeCount = 2 from hcount, href] at hparses
  obtain ⟨v, s, hparse, -⟩ := hparses
  obtain ⟨⟨hnext, hsame⟩, htree, -⟩ :=
    jsonParse_append [0x7B, 0x22, 0x6B, 0x22, 0x3A, 0x32, 0x7D] (by decide) t.heap B
  obtain ⟨j, htext, hden, hnodes, -⟩ := htree v s hparse
  rw [stateAfter_ok hparse] at hnext hsame
  have hgrows : t.heap.Grows s.heap none := ⟨hnext, fun p hp _ => hsame p hp⟩
  rw [hcount] at hnodes
  exact ⟨_, t.heap, u, B, v, s, j, hu, hcount, hparse, hu.grows hgrows le_rfl (by simp), htext,
    hden, hnodes⟩

end SJson
