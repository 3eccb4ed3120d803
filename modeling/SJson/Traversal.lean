/-
# Traversals of arbitrary graphs

Values that clients build may share their entries and may contain themselves.  The writer and
`json_clone` go at most `JSON_MAX_DEPTH` levels deep into such a graph, and get through it
exactly if there is no chain of that many edges (`traversals_bounded`).
-/
import SJson.Output
import SJson.CloneSpec

namespace SJson

open ErrState

/-! ## Chains -/

section Chains

variable {D : Type} {h : Heap D}

/-- `q` is an entry of the container `p`. -/
def Heap.Child (h : Heap D) (p q : JsonPtr) : Prop :=
  match h.node p with
  | .array a => q ∈ a.items
  | .object o => ∃ pr ∈ o.pairs, pr.val = q
  | _ => False

/-- A chain of `n` edges from containers to their entries starts at `p`. -/
def Heap.Chain (h : Heap D) : ℕ → JsonPtr → Prop
  | 0, _ => True
  | n + 1, p => ∃ q, h.Child p q ∧ h.Chain n q

/-- **A graph ends** within as many levels as there is no chain of edges. -/
theorem ends_iff_chain {P : D → Prop} (hfloats : ∀ p f, h.node p = .float f → P f) :
    ∀ {room : ℕ} {p : JsonPtr}, h.Ends P room p ↔ ¬ h.Chain room p := by
  intro room
  induction room with
  | zero => exact fun {_} => ⟨fun hends => hends.elim, fun hno => absurd trivial hno⟩
  | succ room ih =>
    intro p
    unfold Heap.Ends Heap.Chain Heap.Child
    cases hnode : h.node p with
    | array a => simp [ih]
    | object o => simp [ih]
    | float f => simpa using hfloats p f hnode
    | _ => simp

end Chains

/-! ## Built values -/

section Built

variable {D : Type}

/-- Every node satisfies `P`. -/
def Heap.AllNodes (P : JsonNode D → Prop) (h : Heap D) : Prop := ∀ p, P (h.node p)

variable {P : JsonNode D → Prop} {s : St D}

/-- The function stores only nodes that satisfy `P`. -/
def Stores {α : Type} (P : JsonNode D → Prop) (x : M D α) (s : St D) : Prop :=
  Ensures x s (fun _ s' => s'.heap.AllNodes P) fun _ s' => s'.heap.AllNodes P

theorem Heap.AllNodes.set {h : Heap D} (hall : h.AllNodes P) (p : JsonPtr) {n : JsonNode D}
    (hn : P n) : (h.set p n).AllNodes P := by
  intro q
  by_cases hq : q = p
  · rw [hq, Heap.set_node_self]
    exact hn
  · rw [Heap.set_node_ne _ _ hq]
    exact hall q

theorem Heap.AllNodes.new {h : Heap D} (hall : h.AllNodes P) (hnull : P .null) :
    h.new.AllNodes P := hall.set h.next hnull

theorem stores_newNode (hall : s.heap.AllNodes P) (hnull : P .null) : Stores P jsonNewNode s := by
  unfold Stores Ensures jsonNewNode
  split_ifs
  · exact hall
  · exact hall.new hnull
  · exact hall

theorem stores_makeNode (hall : s.heap.AllNodes P) (hnull : P .null) {n : JsonNode D} (hn : P n) :
    Stores P (makeNode n) s := by
  refine ensures_bind ((stores_newNode hall hnull).mono ?_ fun _ _ he => he)
  intro r s' hall'
  cases r with
  | none => exact ensures_pure hall'
  | some v => exact ensures_bind (.of_ok rfl (ensures_pure (hall'.set v hn)))

theorem stores_bufferFor (hall : s.heap.AllNodes P) (need : Bool) (n : ℕ) :
    Stores P (bufferFor need n : M D Bool) s := by
  unfold bufferFor
  split
  · exact .of_ok rfl hall
  · exact ensures_pure hall

theorem stores_growCap (hall : s.heap.AllNodes P) (elem cap : ℕ) :
    Stores P (growCap elem cap : M D ℕ) s := by
  unfold growCap
  split
  · exact ensures_throw hall
  · exact ensures_bind (.of_ok rfl (ensures_ite (fun _ => ensures_pure hall)
      fun _ => ensures_throw hall))

theorem stores_ofScan {α : Type} (hall : s.heap.AllNodes P) (x : Scan α) :
    Stores P (ofScan x : M D α) s := by
  cases hx : x with
  | ok a => exact .of_ok (ofScan_ok rfl) hall
  | error e => exact .of_error (ofScan_error rfl) hall

theorem stores_makeString (hall : s.heap.AllNodes P) (hnull : P .null)
    (hstring : ∀ str, P (.string str)) (str : List UInt8) : Stores P (jsonMakeString str) s := by
  refine ensures_ite (fun _ => ensures_pure hall) fun _ => ?_
  refine ensures_bind ((stores_ofScan hall _).mono (fun valid s₁ hall₁ => ?_) fun _ _ he => he)
  refine ensures_ite (fun _ => ensures_pure hall₁) fun _ => ?_
  refine ensures_bind ((stores_newNode hall₁ hnull).mono (fun r s₂ hall₂ => ?_) fun _ _ he => he)
  cases r with
  | none => exact ensures_pure hall₂
  | some v =>
    refine ensures_bind ((stores_bufferFor hall₂ _ _).mono (fun _ s₃ hall₃ => ?_) fun _ _ he => he)
    exact ensures_ite (fun _ => ensures_bind (.of_ok rfl (ensures_pure (hall₃.set v (hstring _)))))
      fun _ => ensures_pure hall₃

theorem stores_arrPush (hall : s.heap.AllNodes P) (harray : ∀ a, P (.array a))
    (arr item : JsonPtr) :
    Stores P (jsonArrPush arr item) s := by
  refine ensures_bind (.of_ok rfl ?_)
  cases s.heap.node arr with
  | array a =>
    refine ensures_bind (.of_ok rfl ?_)
    cases s.heap.node arr with
    | array a =>
      have hroom : Stores P (arrRoom a : M D JsonArr) s := ensures_ite
        (fun _ => ensures_bind ((stores_growCap hall _ _).mono (fun _ _ h => ensures_pure h)
          fun _ _ he => he)) fun _ => ensures_pure hall
      refine ensures_bind (hroom.mono (fun a' s' hall' => ?_) fun _ _ he => he)
      exact ensures_ite (fun _ => .of_ok rfl (hall'.set arr (harray _))) fun _ =>
        ensures_throw hall'
    | _ => exact ensures_throw hall
  | _ => exact ensures_throw hall

theorem stores_objSet (hall : s.heap.AllNodes P) (hobject : ∀ o, P (.object o)) (obj : JsonPtr)
    (key : List UInt8) (val : JsonPtr) : Stores P (jsonObjSet obj key val) s := by
  refine ensures_bind (.of_ok rfl ?_)
  cases s.heap.node obj with
  | object o =>
    refine ensures_ite (fun _ => ensures_throw hall) fun _ => ?_
    refine ensures_bind ((stores_ofScan hall _).mono (fun valid s₁ hall₁ => ?_) fun _ _ he => he)
    refine ensures_ite (fun _ => ensures_throw hall₁) fun _ => ?_
    cases setPair (jsonFnv1a key) key val o.pairs with
    | some pairs => exact .of_ok rfl (hall₁.set obj (hobject _))
    | none =>
      have hroom : Stores P (objRoom o : M D JsonObj) s₁ := ensures_ite
        (fun _ => ensures_bind ((stores_growCap hall₁ _ _).mono (fun _ _ h => ensures_pure h)
          fun _ _ he => he)) fun _ => ensures_pure hall₁
      refine ensures_bind (hroom.mono (fun o' s₂ hall₂ => ?_) fun _ _ he => he)
      refine ensures_bind (.of_ok rfl ?_)
      have hall₃ := hall₂.set obj (hobject o')
      refine ensures_bind ((stores_bufferFor (s := ⟨_, s₂.arena⟩) hall₃ _ _).mono
        (fun _ s₄ hall₄ => ?_) fun _ _ he => he)
      refine ensures_ite (fun _ => ?_) fun _ => ensures_throw hall₄
      exact ensures_ite (fun _ => .of_ok rfl (hall₄.set obj (hobject _))) fun _ =>
        ensures_throw hall₄
  | _ => exact ensures_throw hall

end Built

/-! ## Built heaps -/

variable {D : Type} [CDouble D]

/-- The call is one of `json_make_*`, `json_arr_push` and `json_obj_set`. -/
def ApiCall.Builds : ApiCall D → Prop
  | .parse _ | .objFinalize _ | .clone _ => False
  | _ => True

/-- The heaps that are built with these calls. -/
inductive BuiltHeap : Heap D → Prop
  | empty : BuiltHeap .empty
  | call {h : Heap D} (c : ApiCall D) (A : Arena) (hc : c.Builds) (hh : BuiltHeap h)
      (hargs : ∀ p ∈ c.args, p < h.next) : BuiltHeap (stateAfter c.run ⟨h, A⟩).heap

theorem BuiltHeap.api {h : Heap D} (hh : BuiltHeap h) : ApiHeap h := by
  induction hh with
  | empty => exact .empty
  | call c A _ _ hargs ih => exact .call c A ih hargs

/-- The node is not an infinity or a NaN. -/
def JsonNode.Finite (n : JsonNode D) : Prop := ∀ f, n = .float f → CDouble.nonFinite f = false

omit [CDouble D] in
theorem stores_map {α β : Type} {P : JsonNode D → Prop} {x : M D α} {s : St D} {f : α → β}
    (hx : Stores P x s) : Stores P (f <$> x) s := by
  rw [map_eq_pure_bind]
  exact ensures_bind (hx.mono (fun _ _ hall => ensures_pure hall) fun _ _ he => he)

theorem stores_apiCall {s : St D} (hall : s.heap.AllNodes JsonNode.Finite) {c : ApiCall D}
    (hc : c.Builds) : Stores JsonNode.Finite c.run s := by
  have hnull : (JsonNode.null : JsonNode D).Finite := fun _ hf => by cases hf
  cases c with
  | makeNull => exact stores_makeNode hall hnull hnull
  | makeBool val => exact stores_makeNode hall hnull fun _ hf => by cases hf
  | makeInt val => exact stores_makeNode hall hnull fun _ hf => by cases hf
  | makeArray => exact stores_makeNode hall hnull fun _ hf => by cases hf
  | makeObject => exact stores_makeNode hall hnull fun _ hf => by cases hf
  | makeFloat val =>
    refine ensures_ite (fun _ => ensures_pure hall) fun hfin => stores_makeNode hall hnull ?_
    intro f hf
    cases hf
    simpa using hfin
  | makeString str => exact stores_makeString hall hnull (fun _ _ hf => by cases hf) str
  | arrPush arr item => exact stores_map (stores_arrPush hall (fun _ _ hf => by cases hf) arr item)
  | objSet obj key val =>
    exact stores_map (stores_objSet hall (fun _ _ hf => by cases hf) obj key val)
  | parse _ | objFinalize _ | clone _ => exact hc.elim

/-- No infinity and no NaN is built. -/
theorem BuiltHeap.finite {h : Heap D} (hh : BuiltHeap h) : h.AllNodes JsonNode.Finite := by
  induction hh with
  | empty => exact fun p f hf => by cases hf
  | call c A hc _ _ ih =>
    have hstores := stores_apiCall (s := ⟨_, A⟩) ih hc
    unfold stateAfter
    unfold Stores Ensures at hstores
    split at hstores <;> rename_i heq <;> rw [heq] <;> exact hstores

/-! ## Traversals -/

/-- `snprintf("%.17g")` of a finite double succeeds, within the buffer of `jw_double`. -/
def PrintsFinite (D : Type) [CDouble D] : Prop :=
  ∀ f : D, CDouble.nonFinite f = false →
    ∃ b, CDouble.snprintf17g f = some b ∧ b.length < sizeofFloatBuf

theorem PrintsFinite.hasText (hprint : PrintsFinite D) {f : D} (hf : CDouble.nonFinite f = false) :
    HasText f := by
  obtain ⟨b, hb, hlen⟩ := hprint f hf
  unfold HasText floatText
  rw [hf, hb]
  simp only [Bool.false_eq_true, if_false, if_neg (not_le.mpr hlen)]
  split_ifs
  · exact ⟨_, rfl⟩
  · exact ⟨_, rfl⟩

/-- **Traversals are bounded, and agree on the depth.**  From a value that was built, whatever
it shares or contains: if a chain of `JSON_MAX_DEPTH` edges starts at it, it is not measured,
not written and not copied; if there is none, it is measured, as far as its length fits, and
copied, as far as there are memory and nodes.  All three come to an end in any case. -/
theorem traversals_bounded (hprint : PrintsFinite D) {h : Heap D} (hh : BuiltHeap h) {v : JsonPtr}
    (hv : v < h.next) :
    (h.Chain jsonMaxDepth v →
      (∀ opts, ∃ e n, jsonMeasure h v opts = .ok (e, n) ∧ e ≠ .ok) ∧
      (∀ opts buf c sortMem, ∃ r, jsonWrite h v buf c opts sortMem = .ok r ∧ r.status ≠ .ok) ∧
      ∀ A, ∃ s, jsonClone v ⟨h, A⟩ = .ok none s) ∧
    (¬ h.Chain jsonMaxDepth v →
      (∀ opts, (h.rendering opts v).length ≤ sizeMax →
        ∃ n, jsonMeasure h v opts = .ok (.ok, n)) ∧
      ∀ A : Arena, A.Roomy (h.treeAt jsonMaxDepth v).copyCost →
        A.nodeCount + (h.treeAt jsonMaxDepth v).nodes ≤ jsonMaxNodes →
        ∃ q s, jsonClone v ⟨h, A⟩ = .ok (some q) s) ∧
    (∀ opts, ∃ e n, jsonMeasure h v opts = .ok (e, n)) ∧
    (∀ opts buf c sortMem, ∃ r, jsonWrite h v buf c opts sortMem = .ok r) ∧
    ∀ A, ∃ q s, jsonClone v ⟨h, A⟩ = .ok q s := by
  have hrep := hh.api.repOk
  have hwritable : h.Writable jsonMaxDepth v ↔ ¬ h.Chain jsonMaxDepth v :=
    ends_iff_chain fun p f hf => hprint.hasText (hh.finite p f hf)
  have hends : h.EndsAt jsonMaxDepth v ↔ ¬ h.Chain jsonMaxDepth v :=
    ends_iff_chain fun _ _ _ => trivial
  have hmeasure := fun opts => jsonMeasure_safe hrep hv opts
  have hwrite := fun opts buf c sortMem => jsonWrite_safe hrep hv buf c opts sortMem
  have hclone := fun A => jsonCloneAt_copies hrep jsonMaxDepth v ⟨h, A⟩ hv (.refl ..)
  refine ⟨fun hchain => ⟨fun opts => ?_, fun opts buf c sortMem => ?_, fun A => ?_⟩,
    fun hno => ⟨fun opts hfit => ?_, fun A hroom hcount => ?_⟩, fun opts => ?_,
    fun opts buf c sortMem => ?_, fun A => ?_⟩
  · obtain ⟨e, n, hok, -⟩ := hmeasure opts
    refine ⟨e, n, hok, ?_⟩
    rintro rfl
    exact hwritable.mp (jsonMeasure_ok hok) hchain
  · obtain ⟨r, hok, -⟩ := hwrite opts buf c sortMem
    exact ⟨r, hok, fun hr => hwritable.mp (jsonWrite_ok hok hr) hchain⟩
  · obtain ⟨r, s, hok, hr⟩ := hclone A
    cases r with
    | none => exact ⟨s, hok⟩
    | some q => exact absurd hchain (hends.mp hr.1)
  · exact ⟨_, jsonMeasure_of_writable hrep hv (hwritable.mpr hno) hfit⟩
  · obtain ⟨r, s, hok, hr⟩ := hclone A
    cases r with
    | none =>
      have hlt : jsonMaxNodes < A.nodeCount + (h.treeAt jsonMaxDepth v).nodes :=
        hr (hends.mpr hno) hroom
      omega
    | some q => exact ⟨q, s, hok⟩
  · obtain ⟨e, n, hok, -⟩ := hmeasure opts
    exact ⟨e, n, hok⟩
  · obtain ⟨r, hok, -⟩ := hwrite opts buf c sortMem
    exact ⟨r, hok⟩
  · obtain ⟨r, s, hok, -⟩ := hclone A
    exact ⟨r, s, hok⟩

/-- An array that was pushed into itself is not copied. -/
theorem traversals_bounded_self :
    ∃ (_ : CDouble Unit) (h : Heap Unit) (v : JsonPtr) (A : Arena), BuiltHeap h ∧ v < h.next ∧
      h.Chain jsonMaxDepth v ∧ ∃ s, jsonClone v ⟨h, A⟩ = .ok none s := by
  obtain ⟨A, hA⟩ := Arena.exists_fresh
  let _ : CDouble Unit := { CDouble.unit with snprintf17g := fun _ => some [0x30] }
  have hroomy : ∀ n, n ≤ 2 ^ 32 → A.Roomy n := fun n hn =>
    ⟨hA.neverFails, by rw [hA.totalBytes]; unfold sizeMax; omega⟩
  -- an array without items
  obtain ⟨h, hbuilt, hnext, hnode⟩ : ∃ h : Heap Unit, BuiltHeap h ∧ h.next = 1 ∧
      h.node 0 = .array .empty := by
    have hcall := BuiltHeap.call (D := Unit) .makeArray A trivial .empty (by simp [ApiCall.args])
    rcases jsonNewNode_cases (⟨.empty, A⟩ : St Unit) with
      ⟨hmax, -⟩ | ⟨-, A', ⟨hsome, -⟩ | ⟨-, -, hno⟩⟩
    · rw [hA.nodeCount] at hmax
      exact absurd hmax (by decide)
    · have hrun : (ApiCall.makeArray : ApiCall Unit).run ⟨.empty, A⟩
          = .ok (some 0) ⟨Heap.empty.new.set 0 (.array .empty), A'⟩ := bind_ok hsome
      rw [stateAfter_ok hrun] at hcall
      exact ⟨_, hcall, rfl, rfl⟩
    · exact absurd (hroomy (47 + 0) (by decide)) (hno 0)
  -- the array as its only item
  obtain ⟨h', hbuilt', hnext', a, hnode', hmem⟩ : ∃ h' : Heap Unit, BuiltHeap h' ∧ 0 < h'.next ∧
      ∃ a, h'.node 0 = .array a ∧ 0 ∈ a.items := by
    have hcall := BuiltHeap.call (.arrPush 0 0) A trivial hbuilt (by simp [ApiCall.args, hnext])
    have hread : (readNode 0 : M Unit _) ⟨h, A⟩ = .ok (.array .empty) ⟨h, A⟩ := by
      rw [readNode, hnode]
    rcases arrStore_cases (⟨h, A⟩ : St Unit) 0 hnode ⟨le_rfl, Nat.zero_le _⟩ with
      ⟨hmax, -⟩ | ⟨-, A', c, -, ⟨hstore, -⟩ | ⟨-, hno⟩⟩
    · exact absurd hmax (by decide)
    · have hpush : (jsonArrPush 0 0 : M Unit Unit) ⟨h, A⟩
          = .ok () ⟨h.set 0 (.array ⟨[0], c⟩), A'⟩ := (bind_ok hread).trans hstore
      have hrun : (ApiCall.arrPush 0 0 : ApiCall Unit).run ⟨h, A⟩
          = .ok none ⟨h.set 0 (.array ⟨[0], c⟩), A'⟩ := by
        rw [ApiCall.run, map_eq_pure_bind, bind_ok hpush]
        rfl
      rw [stateAfter_ok hrun] at hcall
      exact ⟨_, hcall, by simp [hnext], _, Heap.set_node_self .., by simp⟩
    · exact absurd (hroomy (growCost + 0) (by decide)) (hno 0)
  have hchain : ∀ n, h'.Chain n 0 := by
    intro n
    induction n with
    | zero => exact trivial
    | succ n ih =>
      refine ⟨0, ?_, ih⟩
      unfold Heap.Child
      rw [hnode']
      exact hmem
  have hprint : PrintsFinite Unit := fun _ _ => ⟨[0x30], rfl, by decide⟩
  exact ⟨_, h', 0, A, hbuilt', hnext', hchain _,
    ((traversals_bounded hprint hbuilt' hnext').1 (hchain _)).2.2 A⟩

end SJson
