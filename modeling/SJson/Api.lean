/-
# The calls of the library

The heaps that clients of the library can bring about (`ApiHeap`): nothing is allocated
at first, and then come calls, with pointers the client has been given, into any arena,
whether or not they succeed.  All their nodes are in order (`ApiHeap.repOk`).

A pointer that is `NULL` is only refused; a client that uses a value after its arena has
been reset or destroyed is outside the model.
-/
import SJson.Represent
import SJson.ParserRefine

namespace SJson

open ErrState ListRel

variable {D : Type}

/-! ## The parser keeps the nodes in order -/

/-- The keys that wait for their values are in order. -/
def KeysOk (stack : List ParseFrame) : Prop :=
  ∀ f ∈ stack, ∀ key, f.pendingKey = some key → key.Ok

/-- A value that has not been finalized. -/
def Heap.PlainAt (h : Heap D) (p : JsonPtr) : Prop :=
  ∀ o, h.node p = .object o → o.sortedIdx = none ∧ o.isSorted = false

theorem Heap.IsArr.plainAt {h : Heap D} {p : JsonPtr} (hp : h.IsArr p) : h.PlainAt p := by
  obtain ⟨-, a, ha, -⟩ := hp
  intro o ho
  simp [ha] at ho

theorem Heap.IsObj.plainAt {h : Heap D} {p : JsonPtr} (hp : h.IsObj p) : h.PlainAt p := by
  obtain ⟨-, o, ho, -, hidx, hsorted⟩ := hp
  intro o' ho'
  obtain rfl : o = o' := by simpa [ho] using ho'
  exact ⟨hidx, hsorted⟩

/-- How a round leaves the stack, and what it returns. -/
def StepKept (x : StepResult) (s : St D) : Prop :=
  x.elim (fun cfg => KeysOk cfg.stack) fun r => r.1 < s.heap.next ∧ s.heap.PlainAt r.1

theorem KeysOk.head {f f' : ParseFrame} {fs : List ParseFrame} (h : KeysOk (f :: fs))
    (hkey : f'.pendingKey = f.pendingKey) : KeysOk (f' :: fs) := by
  intro g hg key hk
  rcases List.mem_cons.mp hg with rfl | hg
  · exact h f List.mem_cons_self key (hkey ▸ hk)
  · exact h g (List.mem_cons_of_mem _ hg) key hk

theorem KeysOk.tail {f : ParseFrame} {fs : List ParseFrame} (h : KeysOk (f :: fs)) : KeysOk fs :=
  fun g hg => h g (List.mem_cons_of_mem _ hg)

theorem KeysOk.value {fs : List ParseFrame} (h : KeysOk fs) : KeysOk (valueFrame :: fs) := by
  intro g hg key hk
  rcases List.mem_cons.mp hg with rfl | hg
  · simp [valueFrame] at hk
  · exact h g hg key hk

theorem keeps_deliver {lo : JsonPtr} {s : St D} (h : Kept lo s) {vp : Bool} {result : JsonPtr}
    {pos : ℕ} {root : Option JsonPtr} {below : List ParseFrame} (hresult : result < s.heap.next)
    (hplain : s.heap.PlainAt result) (hbelow : ∀ f ∈ below, f.BelowOk s.heap)
    (hkeys : KeysOk below) : Keeps lo (deliver vp result pos root below) s StepKept := by
  cases below with
  | nil => exact ensures_pure ⟨h, hresult, hplain⟩
  | cons parent fs =>
    have hparent := hbelow parent List.mem_cons_self
    unfold deliver
    unfold ParseFrame.BelowOk at hparent
    cases hs : parent.state with
    | arrItem =>
      simp only [hs] at hparent ⊢
      obtain ⟨p, hp, hlt, a, ha, -⟩ := hparent
      simp only [hp]
      refine ensures_bind ((keeps_arrStore h hlt ha hresult).mono ?_ fun _ _ he => he)
      exact fun _ s' hs' => ensures_pure ⟨hs'.1, hkeys.head rfl⟩
    | objVal =>
      simp only [hs] at hparent ⊢
      obtain ⟨⟨p, hp, hlt, o, ho, -, hidx, hsorted⟩, hkey⟩ := hparent
      obtain ⟨key, hkey⟩ := Option.isSome_iff_exists.mp hkey
      have hok := hkeys parent List.mem_cons_self key hkey
      simp only [hp, hkey]
      refine ensures_bind ((keeps_objStore h hlt ho hidx hsorted hok hresult).mono ?_
        fun _ _ he => he)
      exact fun _ s' hs' => ensures_pure ⟨hs'.1, hkeys.head hkey.symm⟩
    | _ => simp [hs] at hparent

theorem keeps_pushValue {lo : JsonPtr} {s : St D} (h : Kept lo s) {pos : ℕ}
    {stack : List ParseFrame} {root : Option JsonPtr} (hkeys : KeysOk stack) :
    Keeps lo (pushValue pos stack root) s StepKept := by
  unfold pushValue
  exact ensures_ite (fun _ => ensures_pure ⟨h, hkeys.value⟩) fun _ => ensures_throw h

theorem keeps_ofScan {α : Type} {lo : JsonPtr} {s : St D} (h : Kept lo s) (x : Scan α) :
    Keeps lo (ofScan x) s fun a s' => x = .ok a ∧ s' = s := by
  cases x with
  | ok a => exact .of_ok rfl ⟨h, rfl, rfl⟩
  | error e => exact .of_error rfl h

theorem keeps_jsonParseString {lo : JsonPtr} {s : St D} (h : Kept lo s) {src : List UInt8} {p : ℕ}
    (hp : p ≤ src.length) :
    Keeps lo (jsonParseString src p) s fun r s' => r.1.Ok ∧ s'.heap = s.heap := by
  rcases jsonParseString_cases hp s with
    ⟨e, -, -, herr⟩ | ⟨out, q, A', hat, -, -, hok | ⟨herr, -⟩⟩
  · exact .of_error herr h
  · obtain ⟨-, -, -, -, hlen, -⟩ := id hat
    exact .of_ok hok ⟨h, ⟨rfl, hat.isUtf8, hlen⟩, rfl⟩
  · exact .of_error herr h

theorem keeps_openContainer {lo : JsonPtr} {s : St D} (h : Kept lo s) {src : List UInt8} {pos : ℕ}
    {frame : ParseFrame} {below : List ParseFrame} {root : Option JsonPtr} {node : JsonPtr}
    {closing : UInt8} {isArray : Bool} (hnode : node < s.heap.next) (hplain : s.heap.PlainAt node)
    (hbelow : ∀ f ∈ below, f.BelowOk s.heap) (hkeys : KeysOk (frame :: below)) :
    Keeps lo (openContainer src pos frame below root node closing isArray) s StepKept := by
  unfold openContainer
  refine ensures_ite (fun _ => ensures_throw h) fun _ => ?_
  refine ensures_bind ((keeps_ofScan h _).mono ?_ fun _ _ he => he)
  rintro pos' _ ⟨-, -, rfl⟩
  refine ensures_bind ((keeps_ofScan h _).mono ?_ fun _ _ he => he)
  rintro close _ ⟨-, -, rfl⟩
  refine ensures_ite (fun _ => keeps_deliver h hnode hplain hbelow hkeys.tail) fun _ => ?_
  exact ensures_ite (fun _ => keeps_pushValue h (hkeys.head rfl)) fun _ =>
    ensures_pure ⟨h, hkeys.head rfl⟩

variable [CDouble D]

theorem keeps_parseScalar {lo : JsonPtr} {s : St D} (h : Kept lo s) {src : List UInt8} {pos : ℕ}
    {c : UInt8} (hpos : pos < src.length) :
    Keeps lo (parseScalar src pos c) s fun r s' =>
      (∀ next, (r.1 : JsonNode D).Ok next) ∧ (∀ o, (r.1 : JsonNode D) ≠ .object o) ∧
        s'.heap = s.heap := by
  -- the three literal names differ in their bytes and the node only
  have hlit : ∀ (lit : List UInt8) (n : JsonNode D), (∀ next, n.Ok next) → (∀ o, n ≠ .object o) →
      Keeps lo (do
        let pos ← ofScan (lexExpectLiteral src (pos + 1) lit)
        return (n, pos)) s fun r s' =>
          (∀ next, (r.1 : JsonNode D).Ok next) ∧ (∀ o, (r.1 : JsonNode D) ≠ .object o) ∧
            s'.heap = s.heap := by
    intro lit n hn hobj
    refine ensures_bind ((keeps_ofScan h _).mono ?_ fun _ _ he => he)
    rintro q _ ⟨-, -, rfl⟩
    exact ensures_pure ⟨h, hn, hobj, rfl⟩
  unfold parseScalar
  refine ensures_ite (fun _ => hlit _ _ (fun _ => trivial) (by simp)) fun _ => ?_
  refine ensures_ite (fun _ => hlit _ _ (fun _ => trivial) (by simp)) fun _ => ?_
  refine ensures_ite (fun _ => hlit _ _ (fun _ => trivial) (by simp)) fun _ => ?_
  refine ensures_ite (fun _ => ?_) fun _ => ensures_ite (fun _ => ?_) fun _ => ensures_throw h
  · refine ensures_bind ((keeps_jsonParseString h hpos).mono ?_ fun _ _ he => he)
    intro r s' ⟨hs', hok, hheap⟩
    exact ensures_pure ⟨hs', fun _ => hok, by simp, hheap⟩
  · rcases jsonParseNumber_cases hpos.le s with
      ⟨e, A', -, -, -, herr | ⟨herr, -⟩⟩ | ⟨n, q, A', -, hn, -, -, -, hok | ⟨herr, -⟩⟩
    · exact .of_error herr h
    · exact .of_error herr h
    · refine .of_ok hok ⟨h, fun _ => ?_, fun o ho => ?_, rfl⟩
      · cases n <;> trivial
      · obtain rfl : n = .object o := ho
        exact hn
    · exact .of_error herr h

theorem keeps_stepValue {lo : JsonPtr} {s : St D} (h : Kept lo s) {src : List UInt8} {pos : ℕ}
    {c : UInt8} {frame : ParseFrame} {below : List ParseFrame} {root : Option JsonPtr}
    (hpos : pos < src.length) (hbelow : ∀ f ∈ below, f.BelowOk s.heap)
    (hkeys : KeysOk (frame :: below)) :
    Keeps lo (stepValue src pos c frame below root) s StepKept := by
  have hfill : ∀ n : JsonNode D, (∀ next, n.Ok next) → ∀ A : Arena,
      Kept lo ⟨s.heap.new.set s.heap.next n, A⟩ := fun n hn A =>
    ⟨h.1.new.set _ (hn _), h.2.trans (Nat.le_succ _)⟩
  have hframes : ∀ n : JsonNode D, ∀ f ∈ below, f.BelowOk (s.heap.new.set s.heap.next n) :=
    fun n f hf => (hbelow f hf).keeps (.alloc s.heap n)
  have hlt : ∀ n : JsonNode D, s.heap.next < (s.heap.new.set s.heap.next n).next :=
    fun _ => Nat.lt_succ_self _
  have hplain : ∀ n : JsonNode D, (∀ o, n = .object o → o.sortedIdx = none ∧ o.isSorted = false) →
      (s.heap.new.set s.heap.next n).PlainAt s.heap.next := fun n hn o ho =>
    hn o ((Heap.set_node_self ..).symm.trans ho)
  unfold stepValue
  apply ensures_bind
  rcases jsonNewNode_cases s with ⟨-, hnone⟩ | ⟨-, A', ⟨hsome, -⟩ | ⟨hnone, -⟩⟩
  · exact .of_ok hnone (.of_error rfl h)
  · refine .of_ok hsome (ensures_ite (fun _ => ?_) fun _ => ensures_ite (fun _ => ?_) fun _ => ?_)
    · exact ensures_bind (.of_ok rfl
        (keeps_openContainer (hfill _ JsonNode.ok_emptyArray A') (hlt _)
          (hplain _ fun o ho => by cases ho) (hframes _) hkeys))
    · exact ensures_bind (.of_ok rfl
        (keeps_openContainer (hfill _ JsonNode.ok_emptyObject A') (hlt _)
          (hplain _ fun o ho => by cases ho; exact ⟨rfl, rfl⟩) (hframes _) hkeys))
    · -- a scalar is read before its node is written
      have hnew : Kept lo ⟨s.heap.new, A'⟩ := ⟨h.1.new, h.2.trans (Nat.le_succ _)⟩
      refine ensures_bind ((keeps_parseScalar hnew hpos).mono ?_ fun _ _ he => he)
      rintro ⟨n, q⟩ s' ⟨hs', hn, hobj, hheap⟩
      have hset := hs'.set s.heap.next s'.arena (hn _)
      refine ensures_bind (.of_ok rfl (keeps_deliver hset ?_ ?_ ?_ hkeys.tail))
      · show s.heap.next < s'.heap.next
        rw [hheap]
        exact Nat.lt_succ_self _
      · exact fun o ho => absurd ((Heap.set_node_self ..).symm.trans ho) (hobj o)
      · intro f hf
        show f.BelowOk (s'.heap.set s.heap.next n)
        rw [hheap]
        exact hframes n f hf
  · exact .of_ok hnone (.of_error rfl h)

/-- One round of the parser keeps the nodes in order. -/
theorem keeps_parseStep {lo : JsonPtr} {src : List UInt8} {cfg : ParseCfg} {s : St D}
    (h : Kept lo s) (hcfg : CfgOk src cfg s) (hkeys : KeysOk cfg.stack) :
    Keeps lo (parseStep src cfg) s StepKept := by
  obtain ⟨pos, stack, root⟩ := cfg
  obtain ⟨hpos, hroot, -, top, below, hstack, htop, hbelow⟩ := hcfg
  simp only at hpos hroot hstack hkeys
  subst hroot hstack
  unfold parseStep
  refine ensures_bind ((keeps_ofScan h _).mono ?_ fun _ _ he => he)
  rintro p _ ⟨-, -, rfl⟩
  by_cases heof : p ≥ src.length
  · rw [if_pos heof]
    cases below <;> exact ensures_throw h
  rw [if_neg heof]
  have hlt : p < src.length := not_le.mp heof
  refine ensures_bind ((keeps_ofScan h _).mono ?_ fun _ _ he => he)
  rintro c _ ⟨-, -, rfl⟩
  unfold stepFrame
  unfold ParseFrame.TopOk at htop
  cases hs : top.state with
  | value => exact keeps_stepValue h hlt hbelow hkeys
  | arrCont =>
    simp only [hs] at htop
    obtain ⟨p', hp', harr⟩ := htop
    refine ensures_ite (fun _ => ?_) fun _ => ensures_ite (fun _ => ?_) fun _ => ensures_throw h
    · simp only [hp']
      exact keeps_deliver h harr.1 harr.plainAt hbelow hkeys.tail
    · exact ensures_ite (fun _ => ensures_throw h) fun _ => keeps_pushValue h (hkeys.head rfl)
  | objKey =>
    refine ensures_ite (fun _ => ?_) fun _ => ensures_throw h
    refine ensures_bind ((keeps_jsonParseString h hlt).mono ?_ fun _ _ he => he)
    intro r s' ⟨hs', hok, _⟩
    refine ensures_pure ⟨hs', fun f hf key hk => ?_⟩
    rcases List.mem_cons.mp hf with rfl | hf
    · obtain rfl := Option.some.inj hk
      exact hok
    · exact hkeys f (List.mem_cons_of_mem _ hf) key hk
  | objColon =>
    exact ensures_ite (fun _ => ensures_throw h) fun _ =>
      ensures_ite (fun _ => ensures_throw h) fun _ => keeps_pushValue h (hkeys.head rfl)
  | objCont =>
    simp only [hs] at htop
    obtain ⟨p', hp', hobj⟩ := htop
    refine ensures_ite (fun _ => ?_) fun _ => ensures_ite (fun _ => ?_) fun _ => ensures_throw h
    · simp only [hp']
      exact keeps_deliver h hobj.1 hobj.plainAt hbelow hkeys.tail
    · exact ensures_pure ⟨h, hkeys.head rfl⟩
  | arrItem => simp [hs] at htop
  | objVal => simp [hs] at htop

/-- The parser keeps the nodes in order, and returns one that is not finalized. -/
theorem keeps_jsonParse {lo : JsonPtr} {s : St D} (h : Kept lo s) (src : List UInt8) :
    Keeps lo (jsonParse src) s fun v s' => v < s'.heap.next ∧ s'.heap.PlainAt v := by
  have hkeys : KeysOk initialCfg.stack := KeysOk.value fun f hf => absurd hf List.not_mem_nil
  have hrun : Keeps lo (runFuel (parseStep src) (.fault .fuel) (src.length + 1) initialCfg) s
      fun r s' => r.1 < s'.heap.next ∧ s'.heap.PlainAt r.1 := by
    refine ensures_runFuel (I := fun cfg s => CfgOk src cfg s ∧ Kept lo s ∧ KeysOk cfg.stack)
      (μ := fun cfg => src.length - cfg.pos) ?_ ⟨cfgOk_initial src s, h, hkeys⟩ (Nat.lt_succ_self _)
    intro cfg s' ⟨hcfg, hs', hkeys'⟩
    refine ((parseStep_ensures hcfg).and (keeps_parseStep hs' hcfg hkeys')).mono ?_
      fun _ _ he => he.2
    intro x s'' ⟨hstep, hkept, hkeys''⟩
    cases x with
    | inl cfg' =>
      have hpos := hstep.1.pos
      have hlt := hstep.2
      exact ⟨⟨hstep.1, hkept, hkeys''⟩, by show src.length - cfg'.pos < src.length - cfg.pos; omega⟩
    | inr r => exact ⟨hkept, hkeys''⟩
  refine ensures_bind (hrun.mono ?_ fun _ _ he => he)
  intro r s' ⟨hs', hr⟩
  refine ensures_bind ((keeps_ofScan hs' _).mono ?_ fun _ _ he => he)
  rintro p _ ⟨-, -, rfl⟩
  exact ensures_ite (fun _ => ensures_throw hs') fun _ => ensures_pure ⟨hs', hr⟩

/-! ## Calls -/

/-- A call that makes, changes or copies values. -/
inductive ApiCall (D : Type) where
  | parse (src : List UInt8)
  | makeNull
  | makeBool (val : Bool)
  | makeInt (val : Int64)
  | makeFloat (val : D)
  | makeString (s : List UInt8)
  | makeArray
  | makeObject
  | arrPush (arr item : JsonPtr)
  | objSet (obj : JsonPtr) (key : List UInt8) (val : JsonPtr)
  | objFinalize (v : JsonPtr)
  | clone (src : JsonPtr)

namespace ApiCall

/-- What the call does; the client keeps the pointer that is returned. -/
def run : ApiCall D → M D (Option JsonPtr)
  | .parse src => some <$> jsonParse src
  | .makeNull => jsonMakeNull
  | .makeBool val => jsonMakeBool val
  | .makeInt val => jsonMakeInt val
  | .makeFloat val => jsonMakeFloat val
  | .makeString s => jsonMakeString s
  | .makeArray => jsonMakeArray
  | .makeObject => jsonMakeObject
  | .arrPush arr item => (fun _ => none) <$> jsonArrPush arr item
  | .objSet obj key val => (fun _ => none) <$> jsonObjSet obj key val
  | .objFinalize v => (fun _ => none) <$> jsonObjFinalize v
  | .clone src => jsonClone src

/-- The pointers that are passed. -/
def args : ApiCall D → List JsonPtr
  | .arrPush arr item => [arr, item]
  | .objSet obj _ val => [obj, val]
  | .objFinalize v => [v]
  | .clone src => [src]
  | _ => []

end ApiCall

/-- The state a call leaves, also when it fails. -/
def stateAfter {α : Type} (x : M D α) (s : St D) : St D :=
  match x s with
  | .ok _ s' => s'
  | .error _ s' => s'

omit [CDouble D] in
theorem stateAfter_ok {α : Type} {x : M D α} {s s' : St D} {a : α} (h : x s = .ok a s') :
    stateAfter x s = s' := by
  rw [stateAfter, h]

omit [CDouble D] in
theorem stateAfter_map {α β : Type} (f : α → β) (x : M D α) (s : St D) :
    stateAfter (f <$> x) s = stateAfter x s := by
  rw [map_eq_pure_bind]
  unfold stateAfter
  cases hx : x s with
  | ok a s' => rw [bind_ok hx]; rfl
  | error e s' => rw [bind_error hx]

/-- **The heaps that clients can bring about.** -/
inductive ApiHeap : Heap D → Prop
  | empty : ApiHeap .empty
  | call {h : Heap D} (c : ApiCall D) (A : Arena) (hh : ApiHeap h)
      (hargs : ∀ p ∈ c.args, p < h.next) : ApiHeap (stateAfter c.run ⟨h, A⟩).heap

omit [CDouble D] in
theorem Keeps.stateAfter {α : Type} {lo : JsonPtr} {x : M D α} {s : St D} {Q : α → St D → Prop}
    (h : Keeps lo x s Q) : Kept lo (stateAfter x s) := by
  unfold SJson.stateAfter
  unfold Keeps Ensures at h
  cases hx : x s with
  | ok a s' =>
    rw [hx] at h
    exact h.1
  | error e s' =>
    rw [hx] at h
    exact h

omit [CDouble D] in
theorem keeps_map {α β : Type} {lo : JsonPtr} {x : M D α} {s : St D} {f : α → β}
    {Q : α → St D → Prop} (h : Keeps lo x s Q) : Keeps lo (f <$> x) s fun _ _ => True := by
  rw [map_eq_pure_bind]
  exact ensures_bind (h.mono (fun _ _ hs => ensures_pure ⟨hs.1, trivial⟩) fun _ _ he => he)

omit [CDouble D] in
theorem Keeps.trivial {α : Type} {lo : JsonPtr} {x : M D α} {s : St D} {Q : α → St D → Prop}
    (h : Keeps lo x s Q) : Keeps lo x s fun _ _ => True :=
  h.mono (fun _ _ hs => ⟨hs.1, True.intro⟩) fun _ _ he => he

/-- One call keeps the nodes in order. -/
theorem keeps_apiCall {s : St D} (h : s.heap.RepOk) (c : ApiCall D)
    (hargs : ∀ p ∈ c.args, p < s.heap.next) :
    Keeps s.heap.next c.run s fun _ _ => True := by
  have hkept : Kept s.heap.next s := ⟨h, le_rfl⟩
  cases c with
  | parse src => exact keeps_map (keeps_jsonParse hkept src)
  | makeFloat val =>
    refine ensures_ite (fun _ => ensures_pure ⟨hkept, trivial⟩) fun _ => ?_
    exact (@keeps_makeNode D _ s hkept (.float val) fun _ => trivial).trivial
  | makeString str => exact (keeps_jsonMakeString hkept str).trivial
  | makeNull => exact (@keeps_makeNode D _ s hkept .null fun _ => trivial).trivial
  | makeBool val => exact (@keeps_makeNode D _ s hkept (.bool val) fun _ => trivial).trivial
  | makeInt val => exact (@keeps_makeNode D _ s hkept (.integer val) fun _ => trivial).trivial
  | makeArray => exact (keeps_makeNode hkept JsonNode.ok_emptyArray).trivial
  | makeObject => exact (keeps_makeNode hkept JsonNode.ok_emptyObject).trivial
  | arrPush arr item =>
    exact keeps_map (keeps_jsonArrPush hkept (hargs _ (by simp [ApiCall.args]))
      (hargs _ (by simp [ApiCall.args])))
  | objSet obj key val =>
    exact keeps_map (keeps_jsonObjSet hkept key (hargs _ (by simp [ApiCall.args]))
      (hargs _ (by simp [ApiCall.args])))
  | objFinalize v => exact keeps_map (keeps_jsonObjFinalize hkept
      (hargs _ (by simp [ApiCall.args])))
  | clone src => exact (keeps_jsonCloneAt _ s src h (hargs _ (by simp [ApiCall.args]))).trivial

/-- **All nodes that clients can bring about are in order.** -/
theorem ApiHeap.repOk {h : Heap D} (hh : ApiHeap h) : h.RepOk := by
  induction hh with
  | empty => exact Heap.RepOk.empty
  | call c A _ hargs ih => exact (keeps_apiCall ih c hargs).stateAfter.1

omit [CDouble D] in
/-- Where all nodes are in order, a value is denoted by nodes that are allocated. -/
theorem Denotes.within {h : Heap D} (hrep : h.RepOk) {j : Json D} : ∀ {p : JsonPtr},
    p < h.next → Denotes h j p → DenotesIn (h.From 0) h j p := by
  induction j using Json.tree_induction with
  | arr items ih =>
    intro p hp hden
    obtain ⟨-, a, ha, hall⟩ := denotesIn_arr.mp hden
    have hok := hrep p hp
    rw [ha] at hok
    exact denotesIn_arr.mpr ⟨⟨Nat.zero_le _, hp⟩, a, ha,
      forall₂_imp_mems hall fun j hj q hq hden => ih j hj (hok.2 q hq) hden⟩
  | obj pairs ih =>
    intro p hp hden
    obtain ⟨-, o, ho, hall⟩ := denotesIn_obj.mp hden
    have hok := hrep p hp
    rw [ho] at hok
    exact denotesIn_obj.mpr ⟨⟨Nat.zero_le _, hp⟩, o, ho,
      forall₂_imp_mems hall fun kv hkv pr hpr hden =>
        ⟨hden.1, ih kv hkv (hok.2.1 pr hpr).2 hden.2⟩⟩
  | _ =>
    intro p hp hden
    exact ⟨⟨Nat.zero_le _, hp⟩, hden.2⟩

omit [CDouble D] in
/-- What is denoted stays denoted while nodes are only added. -/
theorem Denotes.grows {h h' : Heap D} (hrep : h.RepOk) {j : Json D} {p : JsonPtr} (hp : p < h.next)
    (hden : Denotes h j p) (hg : h.Grows h' none) : Denotes h' j p :=
  ((hden.within hrep hp).grows hg le_rfl (by simp)).denotes

/-- A text that was parsed adds to what clients have. -/
theorem ApiHeap.parse {h : Heap D} (hh : ApiHeap h) {src : List UInt8} {A : Arena} {v : JsonPtr}
    {s : St D} (hparse : jsonParse src ⟨h, A⟩ = .ok v s) :
    ApiHeap s.heap ∧ v < s.heap.next ∧ s.heap.PlainAt v := by
  have hkeeps := keeps_jsonParse (s := ⟨h, A⟩) ⟨hh.repOk, le_refl h.next⟩ src
  have hafter : stateAfter (ApiCall.parse src).run ⟨h, A⟩ = s := by
    have hrun : (ApiCall.parse src).run ⟨h, A⟩ = .ok (some v) s := by
      rw [ApiCall.run, map_eq_pure_bind, bind_ok hparse]
      rfl
    rw [SJson.stateAfter, hrun]
  have hcall := ApiHeap.call (.parse src) A hh (by simp [ApiCall.args])
  rw [hafter] at hcall
  exact ⟨hcall, (hkeeps.ok hparse).2⟩

/-- A copy adds to what clients have. -/
theorem ApiHeap.clone {h : Heap D} (hh : ApiHeap h) {A : Arena} {v : JsonPtr} (hv : v < h.next)
    {c : Option JsonPtr} {s : St D} (hclone : jsonClone v ⟨h, A⟩ = .ok c s) : ApiHeap s.heap := by
  have hcall := ApiHeap.call (.clone v) A hh (by simpa [ApiCall.args] using hv)
  rwa [ApiCall.run, SJson.stateAfter, hclone] at hcall

/-- The heap after parsing a text into a fresh arena. -/
theorem ApiHeap.exists_parsed {h : Heap D} (hh : ApiHeap h) {src : List UInt8} {j : Json D} {n : ℕ}
    (hlen : src.length ≤ ptrdiffMax) (href : refParse src 0 = .ok (j, n)) {A : Arena}
    (hA : A.Fresh) :
    ∃ v s, jsonParse src ⟨h, A⟩ = .ok v s ∧ ApiHeap s.heap ∧ v < s.heap.next ∧ s.heap.PlainAt v ∧
      DenotesIn (s.heap.From h.next) s.heap j v ∧ h.Grows s.heap none := by
  obtain ⟨v, s, hparse, hden, hgrows⟩ := jsonParse_fresh (h := h) hA hlen href
  obtain ⟨hapi, hv, hplain⟩ := hh.parse hparse
  exact ⟨v, s, hparse, hapi, hv, hplain, hden, hgrows⟩

end SJson
