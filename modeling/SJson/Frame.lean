/-
# What the calls leave alone

No call changes a node that was there before, except that a push, a set and a finalizing
call change the container they are given (`apiCall_grows`).  This holds of calls that fail
as well, wherever they fail: the parser stores only into containers that it has made itself
(`spares_jsonParse`).
-/
import SJson.Api

namespace SJson

open ErrState

variable {D : Type}

/-! ## Writing -/

/-- A function that leaves the nodes of `h` alone, except possibly the one at `x`, and what
it returns. -/
def Spares {α : Type} (h : Heap D) (x : Option JsonPtr) (f : M D α) (s : St D) (Q : α → Prop) :
    Prop :=
  Ensures f s (fun a s' => h.Grows s'.heap x ∧ Q a) fun _ s' => h.Grows s'.heap x

/-- A new node is not one of those that are spared. -/
theorem Heap.Grows.new {h h' : Heap D} {x : Option JsonPtr} (hg : h.Grows h' x) :
    h.Grows h'.new x :=
  ⟨hg.next.trans (Nat.le_succ _), fun p hp hx => by
    rw [h'.new_node_lt (lt_of_lt_of_le hp hg.next), hg.node p hp hx]⟩

/-- Writing a node that is not spared. -/
theorem Heap.Grows.write {h h' : Heap D} {x : Option JsonPtr} (hg : h.Grows h' x) {p : JsonPtr}
    (hp : h.next ≤ p ∨ x = some p) (n : JsonNode D) : h.Grows (h'.set p n) x := by
  refine ⟨hg.next, fun q hq hx => ?_⟩
  have hqp : q ≠ p := by
    rintro rfl
    rcases hp with hle | rfl
    · exact absurd hq (not_lt.mpr hle)
    · exact hx rfl
  rw [h'.set_node_ne n hqp, hg.node q hq hx]

variable {h : Heap D} {x : Option JsonPtr} {s : St D}

theorem spares_bufferFor (hg : h.Grows s.heap x) (need : Bool) (n : ℕ) :
    Spares h x (bufferFor need n) s fun _ => True := by
  cases need with
  | true => exact .of_ok rfl ⟨hg, trivial⟩
  | false => exact .of_ok rfl ⟨hg, trivial⟩

theorem spares_ofScan {α : Type} (hg : h.Grows s.heap x) (y : Scan α) :
    Spares h x (ofScan y) s fun _ => True := by
  cases y with
  | ok a => exact .of_ok rfl ⟨hg, trivial⟩
  | error e => exact .of_error rfl hg

theorem spares_newNode (hg : h.Grows s.heap x) :
    Spares h x jsonNewNode s fun r => ∀ v, r = some v → h.next ≤ v := by
  rcases jsonNewNode_cases s with ⟨-, hnone⟩ | ⟨-, A', ⟨hsome, -⟩ | ⟨hnone, -⟩⟩
  · exact .of_ok hnone ⟨hg, by simp⟩
  · refine .of_ok hsome ⟨hg.new, fun v hv => ?_⟩
    obtain rfl := Option.some.inj hv
    exact hg.next
  · exact .of_ok hnone ⟨hg, by simp⟩

theorem spares_growCap (hg : h.Grows s.heap x) (elem cap : ℕ) :
    Spares h x (growCap elem cap) s fun _ => True := by
  unfold growCap
  cases nextCap elem cap with
  | none => exact ensures_throw hg
  | some c =>
    refine ensures_bind (.of_ok rfl ?_)
    exact ensures_ite (fun _ => ensures_pure ⟨hg, trivial⟩) fun _ => ensures_throw hg

theorem spares_arrRoom (hg : h.Grows s.heap x) (a : JsonArr) :
    Spares h x (arrRoom a) s fun _ => True := by
  unfold arrRoom jsonArrGrow
  refine ensures_ite (fun _ => ?_) fun _ => ensures_pure ⟨hg, trivial⟩
  refine ensures_bind ((spares_growCap hg ..).mono ?_ fun _ _ he => he)
  exact fun _ _ hs => ensures_pure hs

theorem spares_objRoom (hg : h.Grows s.heap x) (o : JsonObj) :
    Spares h x (objRoom o) s fun _ => True := by
  unfold objRoom jsonObjGrow
  refine ensures_ite (fun _ => ?_) fun _ => ensures_pure ⟨hg, trivial⟩
  refine ensures_bind ((spares_growCap hg ..).mono ?_ fun _ _ he => he)
  exact fun _ _ hs => ensures_pure hs

theorem spares_arrStore (hg : h.Grows s.heap x) {arr : JsonPtr} (harr : h.next ≤ arr ∨ x = some arr)
    (item : JsonPtr) : Spares h x (arrStore arr item) s fun _ => True := by
  unfold arrStore
  refine ensures_bind (.of_ok rfl ?_)
  cases s.heap.node arr with
  | array a =>
    refine ensures_bind ((spares_arrRoom hg a).mono ?_ fun _ _ he => he)
    rintro a' s' ⟨hg', -⟩
    exact ensures_ite (fun _ => .of_ok rfl ⟨hg'.write harr _, trivial⟩) fun _ => ensures_throw hg'
  | _ => exact ensures_throw hg

theorem spares_objStore (hg : h.Grows s.heap x) {obj : JsonPtr} (hobj : h.next ≤ obj ∨ x = some obj)
    (key : JsonStr) (val : JsonPtr) : Spares h x (objStore obj key val) s fun _ => True := by
  unfold objStore
  refine ensures_bind (.of_ok rfl ?_)
  cases s.heap.node obj with
  | object o =>
    refine ensures_bind ((spares_objRoom hg o).mono ?_ fun _ _ he => he)
    rintro o' s' ⟨hg', -⟩
    exact ensures_ite (fun _ => .of_ok rfl ⟨hg'.write hobj _, trivial⟩) fun _ => ensures_throw hg'
  | _ => exact ensures_throw hg

/-! ## The parser -/

/-- The containers of the frames are nodes from `lo` on. -/
def FreshFrames (lo : JsonPtr) (stack : List ParseFrame) : Prop :=
  ∀ f ∈ stack, ∀ p, f.container = some p → lo ≤ p

theorem FreshFrames.cons {lo : JsonPtr} {f : ParseFrame} {fs : List ParseFrame}
    (hf : ∀ p, f.container = some p → lo ≤ p) (hfs : FreshFrames lo fs) :
    FreshFrames lo (f :: fs) := List.forall_mem_cons.mpr ⟨hf, hfs⟩

/-- All that a round leaves are nodes from `lo` on. -/
def FreshStep (lo : JsonPtr) (r : StepResult) : Prop :=
  r.elim (fun cfg => FreshFrames lo cfg.stack ∧ cfg.root = none) fun res => lo ≤ res.1

theorem spares_deliver (hg : h.Grows s.heap none) {vp : Bool} {result : JsonPtr} {pos : ℕ}
    {below : List ParseFrame} (hresult : h.next ≤ result) (hbelow : FreshFrames h.next below) :
    Spares h none (deliver vp result pos none below) s (FreshStep h.next) := by
  cases below with
  | nil => exact ensures_pure ⟨hg, hresult⟩
  | cons parent fs =>
    obtain ⟨hparent, hfs⟩ := List.forall_mem_cons.mp hbelow
    obtain ⟨container, state, pendingKey⟩ := parent
    cases container with
    | none =>
      cases state with
      | value => exact ensures_ite (fun _ => ensures_pure ⟨hg, hresult⟩) fun _ => ensures_throw hg
      | _ => exact ensures_throw hg
    | some p =>
      have hp : h.next ≤ p := hparent p rfl
      have hcons : ∀ st key, FreshFrames h.next (⟨some p, st, key⟩ :: fs) := fun st key =>
        .cons (by simpa using hp) hfs
      -- the branch of `PS_ARR_ITEM` and `PS_ARR_CONT`
      have harray : Spares h none (do
          arrStore p result
          return .inl ⟨pos, ⟨some p, .arrCont, pendingKey⟩ :: fs, none⟩ : M D StepResult) s
          (FreshStep h.next) := by
        refine ensures_bind ((spares_arrStore hg (.inl hp) result).mono ?_ fun _ _ he => he)
        exact fun _ _ hs => ensures_pure ⟨hs.1, hcons _ _, rfl⟩
      cases state with
      | arrItem => exact harray
      | arrCont => exact harray
      | objVal =>
        cases pendingKey with
        | none => exact ensures_throw hg
        | some key =>
          refine ensures_bind ((spares_objStore hg (.inl hp) key result).mono ?_ fun _ _ he => he)
          exact fun _ _ hs => ensures_pure ⟨hs.1, hcons _ _, rfl⟩
      | value => exact ensures_ite (fun _ => ensures_pure ⟨hg, hresult⟩) fun _ => ensures_throw hg
      | _ => exact ensures_throw hg

theorem spares_pushValue (hg : h.Grows s.heap none) {pos : ℕ} {stack : List ParseFrame}
    (hstack : FreshFrames h.next stack) :
    Spares h none (pushValue pos stack none) s (FreshStep h.next) := by
  unfold pushValue
  refine ensures_ite (fun _ => ensures_pure ⟨hg, .cons ?_ hstack, rfl⟩) fun _ => ensures_throw hg
  simp [valueFrame]

theorem spares_openContainer (hg : h.Grows s.heap none) {src : List UInt8} {pos : ℕ}
    {frame : ParseFrame} {below : List ParseFrame} {node : JsonPtr} {closing : UInt8}
    {isArray : Bool} (hnode : h.next ≤ node) (hbelow : FreshFrames h.next below) :
    Spares h none (openContainer src pos frame below none node closing isArray) s
      (FreshStep h.next) := by
  have hcons : ∀ st : ParseState,
      FreshFrames h.next ({ frame with container := some node, state := st } :: below) := fun st =>
    .cons (by simpa using hnode) hbelow
  unfold openContainer
  refine ensures_ite (fun _ => ensures_throw hg) fun _ => ?_
  refine ensures_bind ((spares_ofScan hg _).mono ?_ fun _ _ he => he)
  rintro pos' s' ⟨hg', -⟩
  refine ensures_bind ((spares_ofScan hg' _).mono ?_ fun _ _ he => he)
  rintro close s'' ⟨hg'', -⟩
  refine ensures_ite (fun _ => spares_deliver hg'' hnode hbelow) fun _ => ?_
  exact ensures_ite (fun _ => spares_pushValue hg'' (hcons _)) fun _ =>
    ensures_pure ⟨hg'', hcons _, rfl⟩

theorem spares_jsonParseString (hg : h.Grows s.heap x) (src : List UInt8) (p : ℕ) :
    Spares h x (jsonParseString src p) s fun _ => True := by
  unfold jsonParseString
  refine ensures_bind ((spares_ofScan hg _).mono ?_ fun _ _ he => he)
  rintro m s' ⟨hg', -⟩
  refine ensures_ite (fun _ => ensures_throw hg') fun _ => ?_
  refine ensures_ite (fun _ => ensures_throw hg') fun _ => ?_
  refine ensures_bind ((spares_bufferFor hg' _ _).mono ?_ fun _ _ he => he)
  rintro hasBuf s'' ⟨hg'', -⟩
  exact ensures_ite (fun _ => spares_ofScan hg'' _) fun _ => ensures_throw hg''

variable [CDouble D]

theorem spares_jsonParseNumber (hg : h.Grows s.heap x) (src : List UInt8) (start : ℕ) :
    Spares h x (jsonParseNumber src start : M D _) s fun _ => True := by
  unfold jsonParseNumber
  refine ensures_bind ((spares_ofScan hg _).mono ?_ fun _ _ he => he)
  rintro t s' ⟨hg', -⟩
  refine ensures_ite (fun _ => ?_) fun _ => ?_
  · cases (fastFloat t : Option D) with
    | some f => exact ensures_pure ⟨hg', trivial⟩
    | none =>
      refine ensures_bind ((spares_bufferFor hg' _ _).mono ?_ fun _ _ he => he)
      rintro hasBuf s'' ⟨hg'', -⟩
      refine ensures_ite (fun _ => ?_) fun _ => ensures_throw hg''
      refine ensures_bind ((spares_ofScan hg'' _).mono ?_ fun _ _ he => he)
      rintro token s3 ⟨hg3, -⟩
      refine ensures_bind ((spares_ofScan hg3 _).mono ?_ fun _ _ he => he)
      exact fun _ _ hs => ensures_pure hs
  · refine ensures_bind ((spares_ofScan hg' _).mono ?_ fun _ _ he => he)
    exact fun _ _ hs => ensures_pure hs

theorem spares_parseScalar (hg : h.Grows s.heap x) (src : List UInt8) (pos : ℕ) (c : UInt8) :
    Spares h x (parseScalar src pos c : M D _) s fun _ => True := by
  have hlit : ∀ (lit : List UInt8) (n : JsonNode D), Spares h x (do
      let pos ← ofScan (lexExpectLiteral src (pos + 1) lit)
      return (n, pos)) s fun _ => True := fun lit n => by
    refine ensures_bind ((spares_ofScan hg _).mono ?_ fun _ _ he => he)
    exact fun _ _ hs => ensures_pure hs
  unfold parseScalar
  refine ensures_ite (fun _ => hlit _ _) fun _ => ?_
  refine ensures_ite (fun _ => hlit _ _) fun _ => ?_
  refine ensures_ite (fun _ => hlit _ _) fun _ => ?_
  refine ensures_ite (fun _ => ?_) fun _ => ?_
  · refine ensures_bind ((spares_jsonParseString hg _ _).mono ?_ fun _ _ he => he)
    exact fun _ _ hs => ensures_pure hs
  · exact ensures_ite (fun _ => spares_jsonParseNumber hg _ _) fun _ => ensures_throw hg

theorem spares_stepValue (hg : h.Grows s.heap none) {src : List UInt8} {pos : ℕ} {c : UInt8}
    {frame : ParseFrame} {below : List ParseFrame} (hbelow : FreshFrames h.next below) :
    Spares h none (stepValue src pos c frame below none) s (FreshStep h.next) := by
  unfold stepValue
  refine ensures_bind ((spares_newNode hg).mono ?_ fun _ _ he => he)
  rintro r s' ⟨hg', hr⟩
  cases r with
  | none => exact .of_error rfl hg'
  | some node =>
    have hnode := hr node rfl
    have hwrite : ∀ n : JsonNode D, h.Grows (s'.heap.set node n) none := fun n =>
      hg'.write (.inl hnode) n
    refine ensures_ite (fun _ => ?_) fun _ => ensures_ite (fun _ => ?_) fun _ => ?_
    · exact ensures_bind (.of_ok rfl (spares_openContainer (hwrite _) hnode hbelow))
    · exact ensures_bind (.of_ok rfl (spares_openContainer (hwrite _) hnode hbelow))
    · refine ensures_bind ((spares_parseScalar hg' ..).mono ?_ fun _ _ he => he)
      rintro res s'' ⟨hg'', -⟩
      exact ensures_bind (.of_ok rfl (spares_deliver (hg''.write (.inl hnode) _) hnode hbelow))

/-- **One round of the parser** leaves the nodes alone that were there before the parse. -/
theorem spares_parseStep (hg : h.Grows s.heap none) {src : List UInt8} {cfg : ParseCfg}
    (hstack : FreshFrames h.next cfg.stack) (hroot : cfg.root = none) :
    Spares h none (parseStep src cfg) s (FreshStep h.next) := by
  obtain ⟨pos, stack, root⟩ := cfg
  simp only at hstack hroot
  subst hroot
  unfold parseStep
  cases stack with
  | nil => exact ensures_throw hg
  | cons frame below =>
    obtain ⟨hframe, hbelow⟩ := List.forall_mem_cons.mp hstack
    have hcons : ∀ f : ParseFrame, f.container = frame.container →
        FreshFrames h.next (f :: below) := fun f hf => .cons (hf ▸ hframe) hbelow
    refine ensures_bind ((spares_ofScan hg _).mono ?_ fun _ _ he => he)
    rintro p s' ⟨hg', -⟩
    refine ensures_ite (fun _ => ?_) fun _ => ?_
    · cases below <;> exact ensures_throw hg'
    refine ensures_bind ((spares_ofScan hg' _).mono ?_ fun _ _ he => he)
    rintro c s'' ⟨hg'', -⟩
    unfold stepFrame
    cases frame.state with
    | value => exact spares_stepValue hg'' hbelow
    | arrCont =>
      refine ensures_ite (fun _ => ?_) fun _ => ensures_ite (fun _ => ?_) fun _ =>
        ensures_throw hg''
      · cases hc : frame.container with
        | none => exact ensures_throw hg''
        | some result => exact spares_deliver hg'' (hframe result hc) hbelow
      · exact ensures_ite (fun _ => ensures_throw hg'') fun _ => spares_pushValue hg'' (hcons _ rfl)
    | objKey =>
      refine ensures_ite (fun _ => ?_) fun _ => ensures_throw hg''
      refine ensures_bind ((spares_jsonParseString hg'' _ _).mono ?_ fun _ _ he => he)
      exact fun _ _ hs => ensures_pure ⟨hs.1, hcons _ rfl, rfl⟩
    | objColon =>
      refine ensures_ite (fun _ => ensures_throw hg'') fun _ => ?_
      exact ensures_ite (fun _ => ensures_throw hg'') fun _ => spares_pushValue hg'' (hcons _ rfl)
    | objCont =>
      refine ensures_ite (fun _ => ?_) fun _ => ensures_ite (fun _ => ?_) fun _ =>
        ensures_throw hg''
      · cases hc : frame.container with
        | none => exact ensures_throw hg''
        | some result => exact spares_deliver hg'' (hframe result hc) hbelow
      · exact ensures_pure ⟨hg'', hcons _ rfl, rfl⟩
    | _ => exact ensures_throw hg''

/-- A parse changes no node that was there before, whether or not it succeeds, and returns a
new one. -/
theorem spares_jsonParse (src : List UInt8) (s : St D) :
    Spares s.heap none (jsonParse src) s fun v => s.heap.next ≤ v := by
  have hrun : Spares s.heap none
      (runFuel (parseStep src) (.fault .fuel) (src.length + 1) initialCfg) s
      fun r => s.heap.next ≤ r.1 := by
    refine ensures_runFuel (I := fun cfg s' => CfgOk src cfg s' ∧ s.heap.Grows s'.heap none ∧
        FreshFrames s.heap.next cfg.stack ∧ cfg.root = none)
      (μ := fun cfg => src.length - cfg.pos) ?_
      ⟨cfgOk_initial src s, .refl .., .cons (by simp [valueFrame]) fun f hf =>
        absurd hf List.not_mem_nil, rfl⟩ (Nat.lt_succ_self _)
    rintro cfg s' ⟨hcfg, hg, hstack, hroot⟩
    refine ((parseStep_ensures hcfg).and (spares_parseStep hg hstack hroot)).mono ?_
      fun _ _ he => he.2
    rintro r s'' ⟨hok, hg', hfresh⟩
    cases r with
    | inl cfg' =>
      have hpos := hok.1.pos
      have hlt := hok.2
      exact ⟨⟨hok.1, hg', hfresh⟩, by show src.length - cfg'.pos < src.length - cfg.pos; omega⟩
    | inr res => exact ⟨hg', hfresh⟩
  refine ensures_bind (hrun.mono ?_ fun _ _ he => he)
  rintro r s' ⟨hg, hr⟩
  refine ensures_bind ((spares_ofScan hg _).mono ?_ fun _ _ he => he)
  rintro p s'' ⟨hg', -⟩
  exact ensures_ite (fun _ => ensures_throw hg') fun _ => ensures_pure ⟨hg', hr⟩

/-! ## The other calls -/

omit [CDouble D]

theorem spares_makeNode (hg : h.Grows s.heap x) (n : JsonNode D) :
    Spares h x (makeNode n) s fun r => ∀ v, r = some v → h.next ≤ v := by
  unfold makeNode
  refine ensures_bind ((spares_newNode hg).mono ?_ fun _ _ he => he)
  rintro r s' ⟨hg', hr⟩
  cases r with
  | none => exact ensures_pure ⟨hg', hr⟩
  | some v => exact ensures_bind (.of_ok rfl (ensures_pure ⟨hg'.write (.inl (hr v rfl)) n, hr⟩))

theorem spares_jsonMakeString (hg : h.Grows s.heap x) (str : List UInt8) :
    Spares h x (jsonMakeString str) s fun r => ∀ v, r = some v → h.next ≤ v := by
  unfold jsonMakeString
  refine ensures_ite (fun _ => ensures_pure ⟨hg, by simp⟩) fun _ => ?_
  refine ensures_bind ((spares_ofScan hg _).mono ?_ fun _ _ he => he)
  rintro valid s' ⟨hg', -⟩
  refine ensures_ite (fun _ => ensures_pure ⟨hg', by simp⟩) fun _ => ?_
  refine ensures_bind ((spares_newNode hg').mono ?_ fun _ _ he => he)
  rintro r s'' ⟨hg'', hr⟩
  cases r with
  | none => exact ensures_pure ⟨hg'', by simp⟩
  | some v =>
    refine ensures_bind ((spares_bufferFor hg'' _ _).mono ?_ fun _ _ he => he)
    rintro hasCopy s3 ⟨hg3, -⟩
    refine ensures_ite (fun _ => ?_) fun _ => ensures_pure ⟨hg3, by simp⟩
    exact ensures_bind (.of_ok rfl (ensures_pure ⟨hg3.write (.inl (hr v rfl)) _, hr⟩))

theorem spares_jsonArrPush (arr item : JsonPtr) (s : St D) :
    Spares s.heap (some arr) (jsonArrPush arr item) s fun _ => True := by
  unfold jsonArrPush
  refine ensures_bind (.of_ok rfl ?_)
  cases s.heap.node arr with
  | array a => exact spares_arrStore (.refl ..) (.inr rfl) item
  | _ => exact ensures_throw (.refl ..)

theorem spares_jsonObjSet (obj : JsonPtr) (key : List UInt8) (val : JsonPtr) (s : St D) :
    Spares s.heap (some obj) (jsonObjSet obj key val) s fun _ => True := by
  have hrefl : s.heap.Grows s.heap (some obj) := .refl ..
  unfold jsonObjSet
  refine ensures_bind (.of_ok rfl ?_)
  cases s.heap.node obj with
  | object o =>
    refine ensures_ite (fun _ => ensures_throw hrefl) fun _ => ?_
    refine ensures_bind ((spares_ofScan hrefl _).mono ?_ fun _ _ he => he)
    rintro valid s' ⟨hg, -⟩
    refine ensures_ite (fun _ => ensures_throw hg) fun _ => ?_
    cases setPair (jsonFnv1a key) key val o.pairs with
    | some pairs => exact .of_ok rfl ⟨hg.write (.inr rfl) _, trivial⟩
    | none =>
      show Spares s.heap (some obj) (insertPair obj o key val) s' _
      unfold insertPair
      refine ensures_bind ((spares_objRoom hg o).mono ?_ fun _ _ he => he)
      rintro o' s'' ⟨hg', -⟩
      refine ensures_bind (.of_ok rfl ?_)
      refine ensures_bind ((spares_bufferFor (hg'.write (.inr rfl) _) _ _).mono ?_ fun _ _ he => he)
      rintro hasCopy s3 ⟨hg3, -⟩
      refine ensures_ite (fun _ => ensures_ite (fun _ => ?_) fun _ => ensures_throw hg3) fun _ =>
        ensures_throw hg3
      exact .of_ok rfl ⟨hg3.write (.inr rfl) _, trivial⟩
  | _ => exact ensures_throw hrefl

theorem spares_jsonObjFinalize (v : JsonPtr) (s : St D) :
    Spares s.heap (some v) (jsonObjFinalize v) s fun _ => True := by
  have hrefl : s.heap.Grows s.heap (some v) := .refl ..
  unfold jsonObjFinalize
  refine ensures_bind (.of_ok rfl ?_)
  cases s.heap.node v with
  | object o =>
    show Spares s.heap (some v) (jsonObjSort v o) s _
    unfold jsonObjSort
    refine ensures_ite (fun _ => ensures_pure ⟨hrefl, trivial⟩) fun _ => ?_
    refine ensures_bind ((spares_bufferFor hrefl _ _).mono ?_ fun _ _ he => he)
    rintro hasIdx s' ⟨hg, -⟩
    refine ensures_ite (fun _ => ?_) fun _ => ensures_throw hg
    refine ensures_bind ((spares_ofScan hg _).mono ?_ fun _ _ he => he)
    rintro idx s'' ⟨hg', -⟩
    exact .of_ok rfl ⟨hg'.write (.inr rfl) _, trivial⟩
  | _ => exact ensures_throw hrefl

/-- A function on pointers that leaves all nodes alone and returns a new one. -/
def SparesPtr (f : JsonPtr → M D (Option JsonPtr)) : Prop :=
  ∀ (h : Heap D) (s : St D) p, h.Grows s.heap none →
    Spares h none (f p) s fun r => ∀ v, r = some v → h.next ≤ v

theorem spares_cloneItems {clone : JsonPtr → M D (Option JsonPtr)} (hclone : SparesPtr clone) :
    ∀ {ps : List JsonPtr} {s : St D}, h.Grows s.heap none →
      Spares h none (cloneItems clone ps) s fun _ => True := by
  intro ps
  induction ps with
  | nil => exact fun hg => ensures_pure ⟨hg, trivial⟩
  | cons p ps ih =>
    intro s hg
    rw [cloneItems]
    refine ensures_bind ((hclone h s p hg).mono ?_ fun _ _ he => he)
    rintro r s' ⟨hg', -⟩
    cases r with
    | none => exact ensures_pure ⟨hg', trivial⟩
    | some q =>
      refine ensures_bind ((ih hg').mono ?_ fun _ _ he => he)
      rintro r' s'' ⟨hg'', -⟩
      cases r' <;> exact ensures_pure ⟨hg'', trivial⟩

theorem spares_clonePairs {clone : JsonPtr → M D (Option JsonPtr)} (hclone : SparesPtr clone) :
    ∀ {pairs : List JsonPair} {s : St D}, h.Grows s.heap none →
      Spares h none (clonePairs clone pairs) s fun _ => True := by
  intro pairs
  induction pairs with
  | nil => exact fun hg => ensures_pure ⟨hg, trivial⟩
  | cons pair pairs ih =>
    intro s hg
    rw [clonePairs]
    refine ensures_bind ((spares_bufferFor hg _ _).mono ?_ fun _ _ he => he)
    rintro hasKey s' ⟨hg', -⟩
    refine ensures_ite (fun _ => ?_) fun _ => ensures_pure ⟨hg', trivial⟩
    refine ensures_bind ((hclone h s' pair.val hg').mono ?_ fun _ _ he => he)
    rintro r s'' ⟨hg'', -⟩
    cases r with
    | none => exact ensures_pure ⟨hg'', trivial⟩
    | some q =>
      refine ensures_bind ((ih hg'').mono ?_ fun _ _ he => he)
      rintro r' s3 ⟨hg3, -⟩
      cases r' <;> exact ensures_pure ⟨hg3, trivial⟩

theorem spares_cloneNode {clone : JsonPtr → M D (Option JsonPtr)} (hclone : SparesPtr clone)
    (hg : h.Grows s.heap none) (n : JsonNode D) :
    Spares h none (cloneNode clone n) s fun _ => True := by
  cases n with
  | string str =>
    refine ensures_bind ((spares_bufferFor hg _ _).mono ?_ fun _ _ he => he)
    exact fun _ _ hs => ensures_ite (fun _ => ensures_pure hs) fun _ => ensures_pure hs
  | array a =>
    refine ensures_bind ((spares_bufferFor hg _ _).mono ?_ fun _ _ he => he)
    rintro hasItems s' ⟨hg', -⟩
    refine ensures_ite (fun _ => ?_) fun _ => ensures_pure ⟨hg', trivial⟩
    refine ensures_bind ((spares_cloneItems hclone hg').mono ?_ fun _ _ he => he)
    intro r s'' hs
    cases r <;> exact ensures_pure hs
  | object o =>
    refine ensures_bind ((spares_bufferFor hg _ _).mono ?_ fun _ _ he => he)
    rintro hasPairs s' ⟨hg', -⟩
    refine ensures_ite (fun _ => ?_) fun _ => ensures_pure ⟨hg', trivial⟩
    refine ensures_bind ((spares_clonePairs hclone hg').mono ?_ fun _ _ he => he)
    intro r s'' hs
    cases r <;> exact ensures_pure hs
  | _ => exact ensures_pure ⟨hg, trivial⟩

/-- Copying leaves the nodes alone that were there before. -/
theorem spares_jsonCloneAt : ∀ room : ℕ,
    SparesPtr (jsonCloneAt room : JsonPtr → M D (Option JsonPtr)) := by
  intro room
  induction room with
  | zero => exact fun h s p hg => ensures_pure ⟨hg, by simp⟩
  | succ room ih =>
    intro h s p hg
    rw [jsonCloneAt]
    refine ensures_bind ((spares_newNode hg).mono ?_ fun _ _ he => he)
    rintro r s' ⟨hg', hr⟩
    cases r with
    | none => exact ensures_pure ⟨hg', by simp⟩
    | some out =>
      refine ensures_bind (.of_ok rfl ?_)
      refine ensures_bind ((spares_cloneNode ih hg' _).mono ?_ fun _ _ he => he)
      rintro r' s'' ⟨hg'', -⟩
      cases r' with
      | none => exact ensures_pure ⟨hg'', by simp⟩
      | some n => exact ensures_bind (.of_ok rfl
          (ensures_pure ⟨hg''.write (.inl (hr out rfl)) n, hr⟩))

/-! ## All calls -/

/-- The container that a call may change. -/
def ApiCall.target : ApiCall D → Option JsonPtr
  | .arrPush arr _ => some arr
  | .objSet obj _ _ => some obj
  | .objFinalize v => some v
  | _ => none

theorem spares_map {α β : Type} {f : M D α} {g : α → β} {Q : α → Prop} (hf : Spares h x f s Q) :
    Spares h x (g <$> f) s fun _ => True := by
  rw [map_eq_pure_bind]
  exact ensures_bind (hf.mono (fun _ _ hs => ensures_pure ⟨hs.1, trivial⟩) fun _ _ he => he)

theorem Spares.stateAfter {α : Type} {f : M D α} {Q : α → Prop} (hf : Spares h x f s Q) :
    h.Grows (stateAfter f s).heap x := by
  unfold SJson.stateAfter
  unfold Spares Ensures at hf
  cases hr : f s with
  | ok a s' =>
    rw [hr] at hf
    exact hf.1
  | error e s' =>
    rw [hr] at hf
    exact hf

/-- **A call changes at most the container it is told to change.** -/
theorem apiCall_grows [CDouble D] (c : ApiCall D) (s : St D) :
    s.heap.Grows (stateAfter c.run s).heap c.target := by
  have hrefl : ∀ x, s.heap.Grows s.heap x := .refl s.heap
  cases c with
  | parse src => exact (spares_map (spares_jsonParse src s)).stateAfter
  | makeNull => exact (spares_makeNode (hrefl none) .null).stateAfter
  | makeBool val => exact (spares_makeNode (hrefl none) (.bool val)).stateAfter
  | makeInt val => exact (spares_makeNode (hrefl none) (.integer val)).stateAfter
  | makeFloat val =>
    have hmake : Spares s.heap none (jsonMakeFloat val) s fun r => ∀ v, r = some v →
      s.heap.next ≤ v :=
      ensures_ite (fun _ => ensures_pure ⟨hrefl none, by simp⟩) fun _ =>
        spares_makeNode (hrefl none) (.float val)
    exact hmake.stateAfter
  | makeString str => exact (spares_jsonMakeString (hrefl none) str).stateAfter
  | makeArray => exact (spares_makeNode (hrefl none) (.array .empty)).stateAfter
  | makeObject => exact (spares_makeNode (hrefl none) (.object .empty)).stateAfter
  | arrPush arr item => exact (spares_map (spares_jsonArrPush arr item s)).stateAfter
  | objSet obj key val => exact (spares_map (spares_jsonObjSet obj key val s)).stateAfter
  | objFinalize v => exact (spares_map (spares_jsonObjFinalize v s)).stateAfter
  | clone src => exact (spares_jsonCloneAt _ s.heap s src (hrefl none)).stateAfter

end SJson
