/-
# What the C ABI guarantees

A document that is there holds a tree that the parser accepts (`FfiState.Ok`), and a value of it
denotes a part of this tree (`FfiState.Means`).  One lemma for each function:

* `sjsonDocumentParse_spec` — a document is made, or nothing is left behind;
* `sjsonDocumentFree_spec` — one document goes, and with it all of its memory;
* the readers return what the tree at a value has there.
-/
import SJson.Entries
import SJson.Ffi
import SJson.Rendering

namespace SJson

open ListRel

/-! ## The invariant -/

namespace FfiState

/-- A value denotes a tree. -/
def Means (w : FfiState) (v : ValueRef) (j : Json Double) : Prop :=
  ∃ doc, w.docAt v.arena = some doc ∧ ApiHeap doc.state.heap ∧
    DenotesIn (doc.state.heap.From 0) doc.state.heap j v.node

/-- A document is there, and its root denotes a tree that the parser accepts. -/
def Holds (w : FfiState) (k : DocPtr) (j : Json Double) : Prop :=
  j.Parsed ∧ ∃ doc, w.docAt k = some doc ∧ w.Means ⟨k, doc.root⟩ j

/-- **The invariant**: every document holds a tree, and nothing is left of the others. -/
structure Ok (w : FfiState) : Prop where
  holds : ∀ k doc, w.docAt k = some doc → ∃ j, w.Holds k j
  gone : ∀ (k : DocPtr) m, w.docs[k]? = some (DocCell.gone m) → m.live = []

variable {w w' : FfiState} {k : DocPtr}

theorem ok_init : init.Ok where
  holds := by simp [init, docAt]
  gone := by simp [init]

theorem docAt_eq_some {doc : SJsonDocument} :
    w.docAt k = some doc ↔ w.docs[k]? = some (.live doc) := by
  unfold docAt
  split
  · rename_i doc' hdoc
    rw [hdoc]
    simp
  · rename_i hne
    exact ⟨fun h => (by cases h), fun h => absurd h (hne doc)⟩

theorem lt_of_docAt {doc : SJsonDocument} (h : w.docAt k = some doc) : k < w.docs.length :=
  (List.getElem?_eq_some_iff.mp (docAt_eq_some.mp h)).1

/-- What a document holds, it holds wherever it is. -/
theorem Holds.congr {j : Json Double} (h : w.Holds k j) (hsame : w'.docAt k = w.docAt k) :
    w'.Holds k j := by
  obtain ⟨hj, doc, hdoc, doc', hdoc', hmeans⟩ := h
  exact ⟨hj, doc, hsame.trans hdoc, doc', hsame.trans hdoc', hmeans⟩

/-- A document holds one tree. -/
theorem Holds.unique {j j' : Json Double} (h : w.Holds k j) (h' : w.Holds k j') : j = j' := by
  obtain ⟨-, doc, hdoc, doc₁, hdoc₁, -, hden⟩ := h
  obtain ⟨-, doc', hdoc', doc₁', hdoc₁', -, hden'⟩ := h'
  obtain rfl := Option.some.inj (hdoc.symm.trans hdoc')
  obtain rfl := Option.some.inj (hdoc₁.symm.trans hdoc₁')
  exact hden.denotes.unique hden'.denotes

/-! ## Documents come and go -/

theorem docs_add_self (cell : DocCell) : (w.add cell).docs[w.docs.length]? = some cell := by
  simp [add]

theorem docs_add_of_ne (cell : DocCell) (hk : k ≠ w.docs.length) :
    (w.add cell).docs[k]? = w.docs[k]? := by
  unfold add
  rcases Nat.lt_or_ge k w.docs.length with hlt | hge
  · exact List.getElem?_append_left hlt
  · rw [List.getElem?_eq_none hge, List.getElem?_eq_none]
    rw [List.length_append, List.length_singleton]
    exact Nat.succ_le_of_lt (lt_of_le_of_ne hge (Ne.symm hk))

theorem docAt_add_of_ne (cell : DocCell) (hk : k ≠ w.docs.length) :
    (w.add cell).docAt k = w.docAt k := by
  rw [docAt, docs_add_of_ne cell hk, docAt]

/-- A cell that is in order is added. -/
theorem Ok.add (h : w.Ok) {cell : DocCell} (hgone : ∀ m, cell = .gone m → m.live = [])
    (hlive : ∀ doc, cell = .live doc → ∃ j, (w.add cell).Holds w.docs.length j) :
    (w.add cell).Ok := by
  constructor
  · intro k doc hdoc
    by_cases hk : k = w.docs.length
    · subst hk
      rw [docAt_eq_some, docs_add_self] at hdoc
      exact hlive doc (Option.some.inj hdoc)
    · have hsame := docAt_add_of_ne cell hk
      obtain ⟨j, hj⟩ := h.holds k doc (hsame.symm.trans hdoc)
      exact ⟨j, hj.congr hsame⟩
  · intro k m hm
    by_cases hk : k = w.docs.length
    · subst hk
      rw [docs_add_self] at hm
      exact hgone m (Option.some.inj hm)
    · exact h.gone k m ((docs_add_of_ne cell hk).symm.trans hm)

end FfiState

open FfiState

/-! ## Parsing -/

/-- The allocators grant what a document needs. -/
def FfiBacking.Grants (B : FfiBacking) (k : DocPtr) : Prop :=
  B.callocs k = true ∧ ∀ i sz, B.grants k i sz = true

/-- What `sjson_document_parse` does with a text: it makes a document that holds the tree of the
text, or reports an error and leaves nothing behind.  It fails for lack of memory, or on a text
that is none of a tree within the limits. -/
structure ParseOutcome (B : FfiBacking) (src : List UInt8) (w : FfiState)
    (doc : Option DocPtr) (e : JsonError) (w' : FfiState) : Prop where
  ok : w'.Ok
  length : w'.docs.length = w.docs.length + 1
  others : ∀ k, k ≠ w.docs.length → w'.docAt k = w.docAt k
  made : ∀ k, doc = some k → k = w.docs.length ∧ e = .ok ∧
    ∃ j : Json Double, JsonText src j ∧ w'.Holds k j
  failed : doc = none → e ≠ .ok ∧ w'.docAt w.docs.length = none
  refused : doc = none → B.Grants w.docs.length →
    e ≠ .oom ∧ ∀ j : Json Double, JsonText src j → ¬ j.InLimits

/-- A call that leaves nothing behind. -/
theorem ParseOutcome.of_gone {B : FfiBacking} {src : List UInt8} {w : FfiState} {e : JsonError}
    (h : w.Ok) {m : BlockMem} (hm : m.live = []) (he : e ≠ .ok)
    (hrefused : B.Grants w.docs.length → e ≠ .oom ∧ ∀ j : Json Double, JsonText src j →
      ¬ j.InLimits) : ParseOutcome B src w none e (w.add (.gone m)) where
  ok := by
    apply h.add
    · intro m' heq
      obtain rfl := DocCell.gone.inj heq
      exact hm
    · intro doc heq
      cases heq
  length := by simp [FfiState.add]
  others := fun _ hk => docAt_add_of_ne _ hk
  made := by
    intro k hk
    cases hk
  failed := by
    intro _
    refine ⟨he, ?_⟩
    rw [docAt, docs_add_self]
  refused := fun _ => hrefused

/-- With memory, the parser fails on texts that are none of a tree within the limits, and does
not say that memory is lacking. -/
theorem jsonParse_refused {src : List UInt8} (hlen : src.length ≤ ptrdiffMax) {A : Arena}
    (hA : A.Fresh) {h : Heap Double} {e : JsonError} {s : St Double}
    (hparse : jsonParse src ⟨h, A⟩ = .error (.err e) s) :
    e ≠ .oom ∧ ∀ j : Json Double, JsonText src j → ¬ j.InLimits := by
  constructor
  · rintro rfl
    have href := jsonParse_ref (D := Double) (s := ⟨h, A⟩) (hA.budget hlen)
    have hnot := notOom_refParse (D := Double) src 0
    rw [show (⟨h, A⟩ : St Double).arena.nodeCount = 0 from hA.nodeCount] at href
    cases hres : (refParse src 0 : Scan (Json Double × ℕ)) with
    | ok r =>
      rw [hres] at href
      obtain ⟨w, t, hok, -⟩ := href
      rw [hparse] at hok
      cases hok
    | error f =>
      rw [hres] at href hnot
      obtain ⟨t, ht⟩ := href
      rw [hparse] at ht
      cases ht
      exact hnot rfl
  · intro j htext hlim
    obtain ⟨v, s', hok, -⟩ := jsonParse_fresh (h := h) hA hlen
      (refParse_iff.mpr ⟨htext, hlim, rfl⟩)
    rw [hparse] at hok
    cases hok

theorem parseStatus_ne_ok (e : JsonError) : parseStatus e ≠ .ok := by
  unfold parseStatus
  split
  · assumption
  · simp

theorem parseStatus_ne_oom {e : JsonError} (he : e ≠ .oom) : parseStatus e ≠ .oom := by
  unfold parseStatus
  split
  · exact he
  · simp

/-- The document that a parse has made. -/
theorem ParseOutcome.of_live {B : FfiBacking} {src : List UInt8} {w : FfiState} (h : w.Ok)
    (hlen : src.length ≤ ptrdiffMax) {A : Arena} {root : JsonPtr} {s : St Double}
    (hparse : jsonParse src ⟨.empty, A⟩ = .ok root s) :
    ParseOutcome B src w (some w.docs.length) .ok (w.add (.live ⟨s, root⟩)) := by
  obtain ⟨hapi, hroot, -⟩ := ApiHeap.empty.parse hparse
  obtain ⟨j, htext, hden, hj⟩ := jsonParse_parsed hlen .empty hparse
  have hat : (w.add (.live ⟨s, root⟩)).docAt w.docs.length = some ⟨s, root⟩ :=
    docAt_eq_some.mpr (docs_add_self _)
  have hholds : (w.add (.live ⟨s, root⟩)).Holds w.docs.length j :=
    ⟨hj, _, hat, _, hat, hapi, hden.within hapi.repOk hroot⟩
  refine ⟨?_, by simp [FfiState.add], fun _ hk => docAt_add_of_ne _ hk, ?_, ?_, ?_⟩
  · apply h.add
    · intro m heq
      cases heq
    · exact fun _ _ => ⟨j, hholds⟩
  · intro k hk
    obtain rfl := Option.some.inj hk
    exact ⟨rfl, rfl, j, htext, hholds⟩
  · intro hk
    cases hk
  · intro hk
    cases hk

/-- **`sjson_document_parse`.** -/
theorem sjsonDocumentParse_spec {w : FfiState} (h : w.Ok) (B : FfiBacking) {src : List UInt8}
    (hlen : src.length ≤ ptrdiffMax) : ∃ doc e w',
      sjsonDocumentParse B (some src) w = some ((doc, e), w') ∧ ParseOutcome B src w doc e w' := by
  unfold sjsonDocumentParse
  by_cases hcalloc : B.callocs w.docs.length = true
  · simp only [if_pos hcalloc]
    cases hcreate : Arena.create (B.grants w.docs.length) 4096 (by decide) with
    | mk arena m =>
      cases arena with
      | none =>
        refine ⟨_, _, _, rfl, .of_gone h (Arena.create_none hcreate) (by simp) ?_⟩
        rintro ⟨-, hgrants⟩
        obtain ⟨A, m', hmade, -⟩ := Arena.create_granted (by decide : 4096 ≤ sizeMax) hgrants
        rw [hcreate] at hmade
        cases hmade
      | some A =>
        cases hparse : (jsonParse src ⟨.empty, A⟩ : EStateM.Result _ (St Double) _) with
        | ok root s => exact ⟨_, _, _, by simp only [hparse], .of_live h hlen hparse⟩
        | error err s =>
          cases err with
          | fault f => exact absurd ((jsonParse_ensures src _).error hparse) id
          | err e =>
            obtain ⟨m', hdestroy, hlive⟩ := s.arena.destroy_spec
            refine ⟨_, _, _, by simp only [hparse, hdestroy]; rfl,
              .of_gone h hlive (parseStatus_ne_ok e) ?_⟩
            rintro ⟨-, hgrants⟩
            obtain ⟨A', m'', hmade, hA⟩ :=
              Arena.create_granted (by decide : 4096 ≤ sizeMax) hgrants
            rw [hcreate] at hmade
            cases hmade
            obtain ⟨hoom, hno⟩ := jsonParse_refused hlen hA hparse
            exact ⟨parseStatus_ne_oom hoom, hno⟩
  · simp only [if_neg hcalloc]
    refine ⟨_, _, _, rfl, .of_gone h (BlockMem.idle_init _).live (by simp) ?_⟩
    exact fun hgrants => absurd hgrants.1 hcalloc

/-! ## Freeing -/

/-- **`sjson_document_free`** of a document that is there. -/
theorem sjsonDocumentFree_spec {w : FfiState} (h : w.Ok) {k : DocPtr} {doc : SJsonDocument}
    (hdoc : w.docAt k = some doc) : ∃ w', sjsonDocumentFree (some k) w = some w' ∧ w'.Ok ∧
      w'.docs.length = w.docs.length ∧ w'.docAt k = none ∧
      ∀ k', k' ≠ k → w'.docAt k' = w.docAt k' := by
  obtain ⟨m, hdestroy, hlive⟩ := doc.state.arena.destroy_spec
  have hself : (w.docs.set k (.gone m))[k]? = some (.gone m) :=
    List.getElem?_set_self (lt_of_docAt hdoc)
  have hother : ∀ k', k' ≠ k → (w.docs.set k (DocCell.gone m))[k']? = w.docs[k']? :=
    fun k' hk => List.getElem?_set_ne (Ne.symm hk)
  have hsame : ∀ k', k' ≠ k → (⟨w.docs.set k (.gone m)⟩ : FfiState).docAt k' = w.docAt k' := by
    intro k' hk
    rw [docAt, hother k' hk, docAt]
  have hnone : (⟨w.docs.set k (.gone m)⟩ : FfiState).docAt k = none := by
    rw [docAt, hself]
  refine ⟨⟨w.docs.set k (.gone m)⟩, ?_, ⟨?_, ?_⟩, List.length_set, hnone, hsame⟩
  · rw [sjsonDocumentFree, hdoc]
    simp [hdestroy]
  · intro k' doc' hdoc'
    by_cases hk : k' = k
    · rw [hk, hnone] at hdoc'
      cases hdoc'
    · obtain ⟨j, hj⟩ := h.holds k' doc' ((hsame k' hk).symm.trans hdoc')
      exact ⟨j, hj.congr (hsame k' hk)⟩
  · intro k' m' hm'
    by_cases hk : k' = k
    · rw [hk] at hm'
      obtain rfl := DocCell.gone.inj (Option.some.inj (hself.symm.trans hm'))
      exact hlive
    · exact h.gone k' m' ((hother k' hk).symm.trans hm')

/-! ## Trees as the readers show them -/

namespace Json

/-- The number of the type of a tree. -/
def type : Json Double → ℤ
  | .null => 0
  | .bool _ => 1
  | .int _ => 2
  | .float _ => 3
  | .str _ => 4
  | .arr _ => 5
  | .obj _ => 6

/-- The number of bytes or entries of a tree. -/
def size : Json Double → ℕ
  | .str s => s.length
  | .arr items => items.length
  | .obj pairs => pairs.length
  | _ => 0

/-- The Boolean that a tree is. -/
def getBool : Json Double → Except JsonError Bool
  | .bool b => .ok b
  | _ => .error .typeMismatch

/-- The integer that a tree is. -/
def getInt : Json Double → Except JsonError Int64
  | .int i => .ok i
  | .float f => f.toInt64
  | _ => .error .typeMismatch

/-- The double that a tree is. -/
def getNumber : Json Double → Except JsonError Double
  | .float f => .ok f
  | .int i => .ok (CDouble.ofInt64 i)
  | _ => .error .typeMismatch

/-- The bytes of the string that a tree is. -/
def getString : Json Double → Except JsonError (List UInt8)
  | .str s => .ok s
  | _ => .error .typeMismatch

end Json

/-! ## Reading -/

/-- What a node shows of its tree. -/
inductive Shows : JsonNode Double → Json Double → Prop
  | null : Shows .null .null
  | bool (b : Bool) : Shows (.bool b) (.bool b)
  | int (i : Int64) : Shows (.integer i) (.int i)
  | float (f : Double) : Shows (.float f) (.float f)
  | str (s : JsonStr) : Shows (.string s) (.str s.data)
  | arr {a : JsonArr} {items : List (Json Double)} (hlen : items.length = a.items.length) :
    Shows (.array a) (.arr items)
  | obj {o : JsonObj} {pairs : List (List UInt8 × Json Double)}
    (hlen : pairs.length = o.pairs.length) : Shows (.object o) (.obj pairs)

section Readers

variable {ok : JsonPtr → Prop} {heap : Heap Double} {p : JsonPtr} {j : Json Double}

theorem DenotesIn.shows (hden : DenotesIn ok heap j p) : Shows (heap.node p) j := by
  cases j with
  | str data =>
    obtain ⟨-, s, hs, rfl⟩ := hden
    rw [hs]
    exact .str s
  | arr items =>
    obtain ⟨-, a, ha, hall⟩ := denotesIn_arr.mp hden
    rw [ha]
    exact .arr hall.length_eq
  | obj pairs =>
    obtain ⟨-, o, ho, hall⟩ := denotesIn_obj.mp hden
    rw [ho]
    exact .obj hall.length_eq
  | _ =>
    rw [hden.2]
    constructor

theorem Shows.type {n : JsonNode Double} (h : Shows n j) : n.type = j.type := by
  cases h <;> rfl

/-- The getters show what the tree at a value is. -/
theorem getters_eq (hden : DenotesIn ok heap j p) :
    reported (jsonGetBool heap p) = some j.getBool ∧
    reported (jsonGetInt heap p) = some j.getInt ∧
    reported (jsonGetFloat heap p) = some j.getNumber ∧
    reported (jsonGetString heap p) = some j.getString := by
  unfold jsonGetBool jsonGetInt jsonGetFloat jsonGetString
  have hshows := hden.shows
  generalize heap.node p = n at hshows ⊢
  cases hshows with
  | float f =>
    refine ⟨rfl, ?_, rfl, rfl⟩
    show reported (f.toInt64.mapError .err) = some f.toInt64
    cases f.toInt64 <;> rfl
  | _ => exact ⟨rfl, rfl, rfl, rfl⟩

end Readers

section Values

variable {w : FfiState} {v : ValueRef} {j : Json Double}

/-- The nodes of a value that denotes a tree are there. -/
theorem FfiState.Means.nodesOf (h : w.Means v j) : ∃ heap, w.nodesOf v = some heap ∧
    ApiHeap heap ∧ DenotesIn (heap.From 0) heap j v.node ∧
    ∀ p j', DenotesIn (heap.From 0) heap j' p → w.Means ⟨v.arena, p⟩ j' := by
  obtain ⟨doc, hdoc, hapi, hden⟩ := h
  refine ⟨doc.state.heap, ?_, hapi, hden, fun _ _ hden' => ⟨doc, hdoc, hapi, hden'⟩⟩
  rw [FfiState.nodesOf, hdoc]
  exact if_pos hden.ok.2

/-- The root of a document. -/
theorem FfiState.Holds.root {k : DocPtr} (h : w.Holds k j) :
    ∃ v, sjsonDocumentRoot (some k) w = some (some v) ∧ w.Means v j := by
  obtain ⟨-, doc, hdoc, hmeans⟩ := h
  exact ⟨_, by rw [sjsonDocumentRoot, hdoc]; rfl, hmeans⟩

/-- `sjson_value_kind` and `sjson_value_size`. -/
theorem FfiState.Means.shape (h : w.Means v j) :
    sjsonValueKind (some v) w = some j.type ∧ sjsonValueSize (some v) w = some j.size := by
  obtain ⟨heap, hnodes, -, hden, -⟩ := h.nodesOf
  simp only [sjsonValueKind, sjsonValueSize, hnodes, Option.bind_eq_bind, Option.bind_some]
  have hshows := hden.shows
  generalize heap.node v.node = n at hshows ⊢
  cases hshows with
  | arr hlen => exact ⟨rfl, congrArg some hlen.symm⟩
  | obj hlen => exact ⟨rfl, congrArg some hlen.symm⟩
  | _ => exact ⟨rfl, rfl⟩

/-- `sjson_value_bool`, `sjson_value_int`, `sjson_value_number` and `sjson_value_string`. -/
theorem FfiState.Means.getters (h : w.Means v j) :
    sjsonValueBool (some v) w = some (j.getBool.map fun b => if b then 1 else 0) ∧
    sjsonValueInt (some v) w = some j.getInt ∧
    sjsonValueNumber (some v) w = some j.getNumber ∧
    sjsonValueString (some v) w = some j.getString := by
  obtain ⟨heap, hnodes, -, hden, -⟩ := h.nodesOf
  obtain ⟨hbool, hint, hnumber, hstring⟩ := getters_eq hden
  simp only [sjsonValueBool, sjsonValueInt, sjsonValueNumber, sjsonValueString, FfiState.read,
    hnodes, Option.bind_eq_bind, Option.bind_some]
  refine ⟨?_, hint, hnumber, hstring⟩
  cases hres : jsonGetBool heap v.node with
  | ok b =>
    rw [hres] at hbool
    rw [← Option.some.inj hbool]
    rfl
  | error e =>
    rw [hres] at hbool
    cases e with
    | err e =>
      rw [← Option.some.inj hbool]
      rfl
    | fault f => cases hbool

/-- A lookup returns a value that denotes an entry of the tree, or `NULL` if there is none. -/
theorem FfiState.Means.lookup (h : w.Means v j) {f : Heap Double → JsonPtr → Scan JsonPtr}
    {entry : Json Double → Prop}
    (hsafe : ∀ heap : Heap Double, heap.RepOk → v.node < heap.next →
      heap.FindsChild v.node (f heap v.node))
    (hfinds : ∀ heap : Heap Double, heap.RepOk → DenotesIn (heap.From 0) heap j v.node →
      Finds (heap.From 0) heap entry (f heap v.node)) :
    (∃ p j', w.lookup (some v) f = some (some ⟨v.arena, p⟩) ∧ entry j' ∧
      w.Means ⟨v.arena, p⟩ j') ∨
    (w.lookup (some v) f = some none ∧ ∀ j', ¬ entry j') := by
  obtain ⟨heap, hnodes, hapi, hden, hmeans⟩ := h.nodesOf
  have hrep := hapi.repOk
  obtain ⟨hsound, hcomplete⟩ := hfinds heap hrep hden
  have hread : w.read (some v) f = reported (f heap v.node) := by
    rw [FfiState.read, hnodes]
    rfl
  rw [FfiState.lookup, hread]
  cases hres : f heap v.node with
  | ok p =>
    obtain ⟨j', hentry, hden'⟩ := hsound p hres
    exact .inl ⟨p, j', rfl, hentry, hmeans p j' hden'⟩
  | error e =>
    cases e with
    | fault f => exact absurd hres ((hsafe heap hrep hden.ok.2).1 f)
    | err e =>
      refine .inr ⟨rfl, ?_⟩
      intro j' hentry
      obtain ⟨p, hp⟩ := hcomplete j' hentry
      rw [hres] at hp
      cases hp

/-- `sjson_value_at`. -/
theorem FfiState.Means.at (h : w.Means v j) (index : UInt32) :
    (∃ p j', sjsonValueAt (some v) index w = some (some ⟨v.arena, p⟩) ∧
      j.Item index.toNat j' ∧ w.Means ⟨v.arena, p⟩ j') ∨
    (sjsonValueAt (some v) index w = some none ∧ ∀ j', ¬ j.Item index.toNat j') :=
  h.lookup (fun _ _ _ => jsonArrGet_findsChild ..) fun _ _ hden => jsonArrGet_item hden _

/-- `sjson_value_member`. -/
theorem FfiState.Means.member (h : w.Means v j) (key : List UInt8) :
    (∃ p j', sjsonValueMember (some v) key w = some (some ⟨v.arena, p⟩) ∧
      j.Member key j' ∧ w.Means ⟨v.arena, p⟩ j') ∨
    (sjsonValueMember (some v) key w = some none ∧ ∀ j', ¬ j.Member key j') :=
  h.lookup (fun _ hrep hv => jsonObjGetN_findsChild hrep hv key)
    fun _ hrep hden => jsonObjGetN_member hrep hden.ok.2 hden key

/-- `sjson_value_entry`, of an object that has an entry there. -/
theorem FfiState.Means.entry {pairs : List (List UInt8 × Json Double)} (h : w.Means v (.obj pairs))
    {index : UInt32} {key : List UInt8} (hj : pairs[index.toNat]? = some (key, j)) :
    ∃ p, sjsonValueEntry (some v) index w = some (.ok (key, some ⟨v.arena, p⟩)) ∧
      w.Means ⟨v.arena, p⟩ j := by
  obtain ⟨heap, hnodes, -, hden, hmeans⟩ := h.nodesOf
  obtain ⟨-, o, ho, hall⟩ := denotesIn_obj.mp hden
  rcases getElem?_rel hall index.toNat with ⟨kv, pr, hkv, hpr, hkey, hden'⟩ | ⟨hnone, -⟩
  · obtain rfl := Option.some.inj (hj.symm.trans hkv)
    refine ⟨pr.val, ?_, hmeans _ _ hden'⟩
    have hlt := (List.getElem?_eq_some_iff.mp hpr).1
    have hiter : jsonObjIter heap v.node index.toNat = .ok (key, pr.val) := by
      have hdata : pr.key.data = key := hkey
      rw [jsonObjIter, ho]
      simp only [if_neg (not_le.mpr hlt), pairAt, hpr]
      rw [← hdata]
      rfl
    rw [sjsonValueEntry, FfiState.read, hnodes]
    simp only [Option.bind_eq_bind, Option.bind_some, hiter]
    rfl
  · rw [hj] at hnone
    cases hnone

/-- `sjson_value_write`: the length without a buffer, and the rendering in one that is longer. -/
theorem FfiState.Means.write (h : w.Means v j) (hfin : j.Finite) (hlim : j.InLimits) :
    (∃ buf, sjsonValueWrite (some v) none 0 w
      = some (.ok ⟨.ok, (j.render kDefaultOpts).length, buf⟩)) ∧
    (j.render kDefaultOpts).length ≤ 2 ^ 60 ∧ IsText (j.render kDefaultOpts) ∧
    ∀ (buf : ℕ → UInt8) (capacity : ℕ), (j.render kDefaultOpts).length < capacity →
      capacity ≤ sizeMax → ∃ r, sjsonValueWrite (some v) (some buf) capacity w = some (.ok r) ∧
        r.status = .ok ∧ r.bytes = j.render kDefaultOpts := by
  obtain ⟨heap, hnodes, hapi, hden, -⟩ := h.nodesOf
  have hrep := hapi.repOk
  have hrender : heap.rendering kDefaultOpts v.node = j.render kDefaultOpts :=
    hden.denotes.rendering hlim.levels rfl
  obtain ⟨htext, hlen⟩ := rendering_inOrder hrep hden.ok.2 hden.denotes hfin hlim.levels
    hlim.nodes kDefaultOpts
  rw [hrender] at htext hlen
  have hmeasure : jsonMeasure heap v.node kDefaultOpts
      = .ok (.ok, (heap.rendering kDefaultOpts v.node).length) :=
    jsonMeasure_of_writable hrep hden.ok.2 (hfin.writable hden.denotes hlim.levels)
      (by rw [hrender]; exact hlen.trans (by decide))
  rw [hrender] at hmeasure
  refine ⟨⟨fun _ => 0, ?_⟩, hlen, htext, ?_⟩
  · simp only [sjsonValueWrite, hnodes, Option.bind_eq_bind, Option.bind_some, hmeasure]
    rfl
  · intro buf capacity hfit hcap
    obtain ⟨r, hr, hok, hbytes⟩ := jsonWrite_finite hrep hden.ok.2 hden.denotes hfin hlim
      (rfl : kDefaultOpts.sortKeys = false) hcap hfit buf fun _ => false
    refine ⟨r, ?_, hok, hbytes⟩
    simp only [sjsonValueWrite, hnodes, Option.bind_eq_bind, Option.bind_some, hr]
    rfl

end Values

end SJson
