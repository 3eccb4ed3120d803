/-
# Runs of the Python layer

In every run each native document belongs to one `Document` that was not closed, and is freed when
that one is (`PyState.Ok`).  Main results:

* `python_run` — every call ends, documents are freed once, and none is left behind;
* `python_document` — a `Document` returns what it was made from until it is closed;
* `python_loads` and `python_normalize` — what the functions of the module return.
-/
import SJson.PythonSpec

namespace SJson

open Loops OrderedMap Python FfiState

/-! ## Making documents -/

/-- What is raised where no document is made; it would have been `k`. -/
inductive Refusal (B : FfiBacking) (k : DocPtr) (lib : Library) (data : PyData) :
    PyException → Prop
  | data {e : PyException} (hdata : data.toBytes = .error e) : Refusal B k lib data e
  | library {src : List UInt8} {e : PyException} (hdata : data.toBytes = .ok src)
    (hlib : lib.load = .error e) : Refusal B k lib data e
  | memory {src : List UInt8} (hdata : data.toBytes = .ok src) (hlib : lib = .loaded)
    (hgrants : ¬ B.Grants k) : Refusal B k lib data (.memoryError (jsonErrorStr .oom))
  | text {src : List UInt8} {c : JsonError} (hdata : data.toBytes = .ok src) (hlib : lib = .loaded)
    (hc : c ≠ .ok) (hoom : c ≠ .oom)
    (hno : B.Grants k → ∀ j : Json Double, JsonText src j → ¬ j.InLimits) :
    Refusal B k lib data (.valueError (jsonErrorStr c))

theorem Python.Library.load_ok {lib : Library} : lib.load = .ok () ↔ lib = .loaded := by
  cases lib <;> simp [Library.load]

theorem documentBytes_ok {lib : Library} {data : PyData} {src : List UInt8} :
    documentBytes lib data = .ok src ↔ data.toBytes = .ok src ∧ lib = .loaded := by
  rw [← Library.load_ok, documentBytes]
  rcases data.toBytes with e | bytes
  · simp [bind, Except.bind]
  · rcases lib.load with e | u <;> simp [bind, Except.bind, pure, Except.pure]

theorem documentBytes_error {B : FfiBacking} {k : DocPtr} {lib : Library} {data : PyData}
    {e : PyException} (h : documentBytes lib data = .error e) : Refusal B k lib data e := by
  rw [documentBytes] at h
  cases hdata : data.toBytes with
  | error e' =>
    rw [hdata] at h
    obtain rfl := Except.error.inj h
    exact .data hdata
  | ok bytes =>
    rw [hdata] at h
    cases hlib : lib.load with
    | error e' =>
      rw [hlib] at h
      obtain rfl := Except.error.inj h
      exact .library hdata hlib
    | ok u =>
      rw [hlib] at h
      cases h

/-- Data of a length that an object in memory can have. -/
def Python.PyData.Fits (data : PyData) : Prop :=
  ∀ src, data.toBytes = .ok src → src.length ≤ ptrdiffMax

/-- `_check` of an error. -/
theorem check_error {e : JsonError} (he : e ≠ .ok) :
    check e = if e = .oom then raise (.memoryError (jsonErrorStr .oom))
      else raise (.valueError (jsonErrorStr e)) := by
  cases e with
  | ok => exact absurd rfl he
  | _ => rfl

/-- What `Document.__init__` leaves: a document more, or the documents as they were. -/
structure InitOutcome (B : FfiBacking) (lib : Library) (data : PyData) (w : FfiState)
    (r : Except PyException DocPtr) (w' : FfiState) : Prop where
  ok : w'.Ok
  others : ∀ k, k ≠ w.docs.length → w'.docAt k = w.docAt k
  made : ∀ k, r = .ok k → k = w.docs.length ∧
    ∃ src, ∃ j : Json Double, data.toBytes = .ok src ∧ JsonText src j ∧ w'.Holds k j
  refused : ∀ e, r = .error e → w'.docAt w.docs.length = none ∧ Refusal B w.docs.length lib data e

/-- The next document is none that was there before. -/
theorem docAt_length (w : FfiState) : w.docAt w.docs.length = none := by
  rw [FfiState.docAt, List.getElem?_eq_none le_rfl]

/-- **`Document.__init__`.** -/
theorem documentInit_spec {w : FfiState} (h : w.Ok) (B : FfiBacking) (lib : Library) {data : PyData}
    (hfits : data.Fits) : ∃ r w', documentInit B lib data w = some (r, w') ∧
      InitOutcome B lib data w r w' := by
  unfold documentInit
  cases hbytes : documentBytes lib data with
  | error e =>
    refine ⟨_, w, rfl, h, fun _ _ => rfl, ?_, ?_⟩
    · intro k hk
      cases hk
    · intro e' he'
      obtain rfl := Except.error.inj he'
      exact ⟨docAt_length w, documentBytes_error hbytes⟩
  | ok src =>
    obtain ⟨hdata, hlib⟩ := documentBytes_ok.mp hbytes
    obtain ⟨doc, e, w', hparse, hout⟩ := sjsonDocumentParse_spec h B (hfits src hdata)
    simp only [hparse]
    cases doc with
    | some k =>
      refine ⟨.ok k, w', rfl, hout.ok, hout.others, ?_, ?_⟩
      · intro k' hk'
        obtain rfl := Except.ok.inj hk'
        obtain ⟨hk, -, j, htext, hholds⟩ := hout.made k rfl
        exact ⟨hk, src, j, hdata, htext, hholds⟩
      · intro e he
        cases he
    | none =>
      obtain ⟨hne, hnone⟩ := hout.failed rfl
      obtain ⟨x, hx, hrefusal⟩ : ∃ x, (check e >>= fun _ =>
          (raise (.valueError "sJson returned an empty document") : Py DocPtr)) = raise x ∧
          Refusal B w.docs.length lib data x := by
        rw [check_error hne]
        by_cases hoom : e = .oom
        · rw [if_pos hoom]
          exact ⟨_, rfl, .memory hdata hlib fun hgrants => (hout.refused rfl hgrants).1 hoom⟩
        · rw [if_neg hoom]
          exact ⟨_, rfl, .text hdata hlib hne hoom fun hgrants => (hout.refused rfl hgrants).2⟩
      refine ⟨.error x, w', ?_, hout.ok, hout.others, ?_, ?_⟩
      · show ((ended (check e >>= fun _ => raise _)).bind fun r => some (r, w')) = _
        rw [hx]
        rfl
      · intro k hk
        cases hk
      · intro x' hx'
        obtain rfl := Except.error.inj hx'
        exact ⟨hnone, hrefusal⟩

/-! ## One document for one call -/

/-- **`with Document(data) as document`.**  The documents are what they were; data that no
document is made from is refused, otherwise the method runs on the tree of the data. -/
theorem withDocument_spec {α : Type} {w : FfiState} (h : w.Ok) (B : FfiBacking) (lib : Library)
    {data : PyData} (hfits : data.Fits) {method : Option DocPtr → FfiState → Py α}
    {result : Json Double → Py α}
    (hmethod : ∀ w' k j, w'.Holds k j → method (some k) w' = result j)
    (hdefined : ∀ j, result j ≠ .error .undefined) :
    ∃ r w', withDocument B lib data method w = some (r, w') ∧ w'.Ok ∧
      (∀ k, w'.docAt k = w.docAt k) ∧
      ((∃ e, r = .error e ∧ Refusal B w.docs.length lib data e) ∨
        ∃ src, ∃ j : Json Double, data.toBytes = .ok src ∧ JsonText src j ∧ j.Parsed ∧
          some r = ended (result j)) := by
  obtain ⟨r₀, w₁, hinit, hout⟩ := documentInit_spec h B lib hfits
  unfold withDocument
  rw [hinit]
  cases r₀ with
  | error e =>
    obtain ⟨hnone, hrefusal⟩ := hout.refused e rfl
    refine ⟨.error e, w₁, rfl, hout.ok, ?_, .inl ⟨e, rfl, hrefusal⟩⟩
    intro k
    by_cases hk : k = w.docs.length
    · rw [hk, hnone, docAt_length]
    · exact hout.others k hk
  | ok k =>
    obtain ⟨rfl, src, j, hdata, htext, hholds⟩ := hout.made k rfl
    obtain ⟨-, doc, hdoc, -⟩ := id hholds
    obtain ⟨v, hroot, -⟩ := hholds.root
    obtain ⟨w₂, hfree, hok, -, hgone, hothers⟩ := sjsonDocumentFree_spec hout.ok hdoc
    obtain ⟨r, hr⟩ : ∃ r, ended (result j) = some r := by
      have hj := hdefined j
      cases hres : result j with
      | ok a => exact ⟨_, rfl⟩
      | error f =>
        cases f with
        | raised e => exact ⟨_, rfl⟩
        | undefined => exact absurd hres hj
    refine ⟨r, w₂, ?_, hok, ?_, .inr ⟨src, j, hdata, htext, hholds.1, hr.symm⟩⟩
    · show ((ended (documentRoot (some w.docs.length) w₁ >>= fun _ =>
        method (some w.docs.length) w₁)).bind fun r =>
          (documentClose (some w.docs.length) w₁).bind fun w => some (r, w)) = _
      rw [documentRoot, hroot]
      show ((ended (method (some w.docs.length) w₁)).bind fun r =>
        (sjsonDocumentFree (some w.docs.length) w₁).bind fun w => some (r, w)) = _
      rw [hmethod w₁ _ j hholds, hr, hfree]
      rfl
    · intro k
      by_cases hk : k = w.docs.length
      · rw [hk, hgone, docAt_length]
      · exact (hothers k hk).trans (hout.others k hk)

/-! ## Who has a document -/

namespace Python

/-- The `Document` has the native document. -/
def PyState.Has (w : PyState) (d : ℕ) (k : DocPtr) : Prop := w.handles[d]? = some (some k)

/-- **The invariant**: the native documents are those that one `Document` has. -/
structure PyState.Ok (w : PyState) : Prop where
  ffi : w.ffi.Ok
  owned : ∀ d k, w.Has d k → ∃ doc, w.ffi.docAt k = some doc
  unique : ∀ d d' k, w.Has d k → w.Has d' k → d = d'
  live : ∀ k doc, w.ffi.docAt k = some doc → ∃ d, w.Has d k

/-- The `Document` that a call closes. -/
def PyCall.closes : PyCall → Option ℕ
  | .exit d | .close d | .del d => some d
  | _ => none

/-- The `Document` that a call reads. -/
def PyCall.reads : PyCall → Option ℕ
  | .enter d | .toPython d _ | .serialize d => some d
  | _ => none

/-- A call on a `Document` that was made, or with data that fits. -/
def PyCall.Fits (w : PyState) : PyCall → Prop
  | .enter d | .exit d | .close d | .del d | .toPython d _ | .serialize d => d < w.handles.length
  | .document _ data | .loads _ data _ | .normalize _ data => data.Fits

/-- What a call does to the documents: the one that it closes is freed, and the others stay. -/
structure PyStep (w : PyState) (c : PyCall) (w' : PyState) : Prop where
  ok : w'.Ok
  handles : ∀ d, d < w.handles.length →
    w'.handles[d]? = if c.closes = some d then some none else w.handles[d]?
  docs : ∀ d k, w.Has d k → c.closes ≠ some d → w'.ffi.docAt k = w.ffi.docAt k

theorem lt_of_has {w : PyState} {d : ℕ} {k : DocPtr} (h : w.Has d k) : d < w.handles.length :=
  (List.getElem?_eq_some_iff.mp h).1

theorem PyState.ok_init : PyState.init.Ok where
  ffi := FfiState.ok_init
  owned := by
    intro d k h
    exact absurd (lt_of_has h) (Nat.not_lt_zero d)
  unique := by
    intro d d' k h
    exact absurd (lt_of_has h) (Nat.not_lt_zero d)
  live := by
    intro k doc h
    simp [PyState.init, FfiState.init, FfiState.docAt] at h

/-! ## Steps -/

/-- A call that leaves the documents as they are. -/
theorem PyStep.of_docs {w : PyState} (h : w.Ok) {c : PyCall} (hc : c.closes = none)
    {ffi : FfiState} (hffi : ffi.Ok) (hdocs : ∀ k, ffi.docAt k = w.ffi.docAt k) :
    PyStep w c ⟨ffi, w.handles⟩ where
  ok := by
    refine ⟨hffi, ?_, h.unique, ?_⟩
    · intro d k hk
      obtain ⟨doc, hdoc⟩ := h.owned d k hk
      exact ⟨doc, (hdocs k).trans hdoc⟩
    · intro k doc hdoc
      exact h.live k doc ((hdocs k).symm.trans hdoc)
  handles := by
    intro d _
    rw [hc]
    exact (if_neg (by simp)).symm
  docs := fun _ k _ _ => hdocs k

/-- A method that changes nothing. -/
theorem PyStep.method {α : Type} {w : PyState} (h : w.Ok) {c : PyCall} (hc : c.closes = none)
    {d : ℕ} {m : Option DocPtr → FfiState → Py α} {result : α → PyReturn}
    {handle : Option DocPtr} (hd : w.handles[d]? = some handle) {r : Except PyException α}
    (hr : ended (m handle w.ffi) = some r) :
    PyCall.method w d m result = some (r.map result, w) ∧ PyStep w c w := by
  refine ⟨?_, .of_docs h hc h.ffi fun _ => rfl⟩
  rw [PyCall.method, hd]
  show ((ended (m handle w.ffi)).bind fun r => some (r.map result, w)) = _
  rw [hr]
  rfl

/-- A `Document` is closed. -/
theorem PyStep.closing {w : PyState} (h : w.Ok) {c : PyCall} {d : ℕ} (hc : c.closes = some d)
    (hd : d < w.handles.length) :
    ∃ w', PyCall.closing w d = some (.ok .none, w') ∧ PyStep w c w' := by
  have hget : w.handles[d]? = some w.handles[d] := List.getElem?_eq_getElem hd
  have hset : ∀ d', d' < w.handles.length → (w.handles.set d none)[d']? =
      if c.closes = some d' then some none else w.handles[d']? := by
    intro d' hd'
    rw [hc]
    by_cases hdd : d = d'
    · rw [if_pos (congrArg some hdd), hdd, List.getElem?_set_self hd']
    · rw [if_neg (fun heq => hdd (Option.some.inj heq)), List.getElem?_set_ne hdd]
  have hother : ∀ d' k, (w.handles.set d none)[d']? = some (some k) → d' ≠ d ∧ w.Has d' k := by
    intro d' k hk
    by_cases hdd : d' = d
    · rw [hdd, List.getElem?_set_self hd] at hk
      cases hk
    · exact ⟨hdd, (List.getElem?_set_ne (Ne.symm hdd)).symm.trans hk⟩
  unfold PyCall.closing
  cases hhandle : w.handles[d] with
  | none =>
    -- the document was closed before
    refine ⟨⟨w.ffi, w.handles.set d none⟩, ?_, ⟨h.ffi, ?_, ?_, ?_⟩, hset, fun _ _ _ _ => rfl⟩
    · rw [hget, hhandle]
      rfl
    · intro d' k hk
      exact h.owned d' k (hother d' k hk).2
    · intro d' d'' k hk hk'
      exact h.unique d' d'' k (hother d' k hk).2 (hother d'' k hk').2
    · intro k doc hdoc
      obtain ⟨d', hd'⟩ := h.live k doc hdoc
      refine ⟨d', (List.getElem?_set_ne ?_).trans hd'⟩
      rintro rfl
      have hsome : w.handles[d]? = some (some k) := hd'
      rw [hget, hhandle] at hsome
      cases hsome
  | some k =>
    have hhas : w.Has d k := by
      rw [PyState.Has, hget, hhandle]
    obtain ⟨doc, hdoc⟩ := h.owned d k hhas
    obtain ⟨ffi, hfree, hok, -, hgone, hothers⟩ := sjsonDocumentFree_spec h.ffi hdoc
    have hne : ∀ d' k', d' ≠ d → w.Has d' k' → k' ≠ k := by
      rintro d' k' hdd hk' rfl
      exact hdd (h.unique d' d k' hk' hhas)
    refine ⟨⟨ffi, w.handles.set d none⟩, ?_, ⟨hok, ?_, ?_, ?_⟩, hset, ?_⟩
    · rw [hget, hhandle]
      show ((sjsonDocumentFree (some k) w.ffi).bind fun ffi => _) = _
      rw [hfree]
      rfl
    · intro d' k' hk'
      obtain ⟨hdd, hhas'⟩ := hother d' k' hk'
      obtain ⟨doc', hdoc'⟩ := h.owned d' k' hhas'
      exact ⟨doc', (hothers k' (hne d' k' hdd hhas')).trans hdoc'⟩
    · intro d' d'' k' hk' hk''
      exact h.unique d' d'' k' (hother d' k' hk').2 (hother d'' k' hk'').2
    · intro k' doc' hdoc'
      have hkk : k' ≠ k := by
        rintro rfl
        rw [hgone] at hdoc'
        cases hdoc'
      obtain ⟨d', hd'⟩ := h.live k' doc' ((hothers k' hkk).symm.trans hdoc')
      refine ⟨d', (List.getElem?_set_ne ?_).trans hd'⟩
      rintro rfl
      exact hkk (Option.some.inj (Option.some.inj (hd'.symm.trans hhas)))
    · intro d' k' hk' hdd
      rw [hc] at hdd
      exact hothers k' (hne d' k' (fun heq => hdd (congrArg some heq.symm)) hk')

/-- A `Document` is made. -/
theorem PyStep.document {w : PyState} (h : w.Ok) {lib : Library} {data : PyData} {B : FfiBacking}
    {k : DocPtr} {ffi : FfiState} (hout : InitOutcome B lib data w.ffi (.ok k) ffi) :
    PyStep w (.document lib data) ⟨ffi, w.handles ++ [some k]⟩ := by
  obtain ⟨rfl, -, j, -, -, -, doc, hdoc, -⟩ := hout.made k rfl
  have hold : ∀ d, d < w.handles.length →
      (w.handles ++ [some w.ffi.docs.length])[d]? = w.handles[d]? :=
    fun _ hd => List.getElem?_append_left hd
  have hnew : (w.handles ++ [some w.ffi.docs.length])[w.handles.length]?
      = some (some w.ffi.docs.length) := by
    simp
  have hsame : ∀ d k, w.Has d k → k ≠ w.ffi.docs.length ∧ ffi.docAt k = w.ffi.docAt k := by
    intro d k hk
    obtain ⟨doc', hdoc'⟩ := h.owned d k hk
    have hne := Nat.ne_of_lt (lt_of_docAt hdoc')
    exact ⟨hne, hout.others k hne⟩
  have hcases : ∀ d k, (w.handles ++ [some w.ffi.docs.length])[d]? = some (some k) →
      (d < w.handles.length ∧ w.Has d k) ∨ (d = w.handles.length ∧ k = w.ffi.docs.length) := by
    intro d k hk
    rcases Nat.lt_trichotomy d w.handles.length with hlt | heq | hgt
    · exact .inl ⟨hlt, (hold d hlt).symm.trans hk⟩
    · rw [heq, hnew] at hk
      exact .inr ⟨heq, (Option.some.inj (Option.some.inj hk)).symm⟩
    · rw [List.getElem?_eq_none (by simp; omega)] at hk
      cases hk
  refine ⟨⟨hout.ok, ?_, ?_, ?_⟩, ?_, fun d k hk _ => (hsame d k hk).2⟩
  · intro d k hk
    rcases hcases d k hk with ⟨-, hhas⟩ | ⟨-, rfl⟩
    · obtain ⟨doc', hdoc'⟩ := h.owned d k hhas
      exact ⟨doc', (hsame d k hhas).2.trans hdoc'⟩
    · exact ⟨doc, hdoc⟩
  · intro d d' k hk hk'
    rcases hcases d k hk with ⟨-, hhas⟩ | ⟨hd, rfl⟩
    · rcases hcases d' k hk' with ⟨-, hhas'⟩ | ⟨-, heq⟩
      · exact h.unique d d' k hhas hhas'
      · exact absurd heq (hsame d k hhas).1
    · rcases hcases d' _ hk' with ⟨-, hhas'⟩ | ⟨hd', -⟩
      · exact absurd rfl (hsame d' _ hhas').1
      · exact hd.trans hd'.symm
  · intro k doc' hdoc'
    by_cases hk : k = w.ffi.docs.length
    · exact ⟨w.handles.length, hk ▸ hnew⟩
    · obtain ⟨d, hd⟩ := h.live k doc' ((hout.others k hk).symm.trans hdoc')
      exact ⟨d, (hold d (lt_of_has hd)).trans hd⟩
  · intro d hd
    exact (hold d hd).trans (if_neg (by simp [PyCall.closes])).symm

/-! ## Calls -/

/-- What a method raises when the document is closed. -/
def closedError : PyException := .valueError "document is closed"

section Calls

variable {B : FfiBacking} {w w' : PyState}

theorem conversion_defined (frames : ℕ) (j : Json Double) :
    conversion frames j ≠ .error .undefined := by
  unfold conversion
  by_cases h : j.levels ≤ frames
  · rw [attempt_pos h]
    simp
  · rw [attempt_neg h]
    simp

/-- How the conversion of a tree ends. -/
theorem ended_conversion (frames : ℕ) (j : Json Double) : Python.ended (conversion frames j) =
    some (if j.levels ≤ frames then .ok j.python else .error .recursionError) := by
  unfold conversion
  by_cases h : j.levels ≤ frames
  · rw [attempt_pos h, if_pos h]
    rfl
  · rw [attempt_neg h, if_neg h]
    rfl

/-- What a method returns that needs an open document. -/
structure Reads {α : Type} (m : Option DocPtr → FfiState → Py α) (result : Json Double → Py α) :
    Prop where
  closed : ∀ w, m none w = raise closedError
  opened : ∀ w k j, w.Holds k j → m (some k) w = result j
  defined : ∀ j, result j ≠ .error .undefined

theorem reads_toPython (frames : ℕ) : Reads (documentToPython frames) (conversion frames) where
  closed := fun _ => rfl
  opened := fun _ _ _ h => documentToPython_eq h frames
  defined := conversion_defined frames

theorem reads_serialize :
    Reads documentSerialize fun j => .ok (textOf (j.render kDefaultOpts)) where
  closed := fun _ => rfl
  opened := fun _ _ _ h => (documentSerialize_eq h).1
  defined := by simp

/-- A method ends. -/
theorem Reads.ended {α : Type} {m : Option DocPtr → FfiState → Py α}
    {result : Json Double → Py α} (hm : Reads m result) (h : w.Ok) {d : ℕ} {handle : Option DocPtr}
    (hd : w.handles[d]? = some handle) : ∃ r, Python.ended (m handle w.ffi) = some r := by
  cases handle with
  | none =>
    rw [hm.closed]
    exact ⟨_, rfl⟩
  | some k =>
    obtain ⟨doc, hdoc⟩ := h.owned d k hd
    obtain ⟨j, hj⟩ := h.ffi.holds k doc hdoc
    rw [hm.opened w.ffi k j hj]
    have hdefined := hm.defined j
    cases hres : result j with
    | ok a => exact ⟨_, rfl⟩
    | error f =>
      cases f with
      | raised e => exact ⟨_, rfl⟩
      | undefined => exact absurd hres hdefined

/-- **Every call ends**, and does to the documents what it is to do. -/
theorem PyState.Ok.call (h : w.Ok) (B : FfiBacking) {c : PyCall} (hfits : c.Fits w) :
    ∃ r w', c.run B w = some (r, w') ∧ PyStep w c w' := by
  have hget : ∀ {d}, d < w.handles.length → ∃ handle, w.handles[d]? = some handle :=
    fun hd => ⟨_, List.getElem?_eq_getElem hd⟩
  cases c with
  | document lib data =>
    obtain ⟨r, ffi, hinit, hout⟩ := documentInit_spec h.ffi B lib hfits
    cases r with
    | ok k =>
      refine ⟨.ok (.document w.handles.length), _, ?_, .document h hout⟩
      rw [PyCall.run, hinit]
      rfl
    | error e =>
      refine ⟨.error e, ⟨ffi, w.handles⟩, ?_, .of_docs h rfl hout.ok ?_⟩
      · rw [PyCall.run, hinit]
        rfl
      · intro k
        by_cases hk : k = w.ffi.docs.length
        · rw [hk, (hout.refused e rfl).1, docAt_length]
        · exact hout.others k hk
  | enter d =>
    obtain ⟨handle, hd⟩ := hget hfits
    obtain ⟨r, hr⟩ : ∃ r, Python.ended (documentRoot handle w.ffi) = some r := by
      cases handle with
      | none => exact ⟨_, rfl⟩
      | some k =>
        obtain ⟨doc, hdoc⟩ := h.owned d k hd
        obtain ⟨j, hj⟩ := h.ffi.holds k doc hdoc
        obtain ⟨v, hroot, -⟩ := hj.root
        rw [documentRoot, hroot]
        exact ⟨_, rfl⟩
    exact ⟨_, _, PyStep.method (c := .enter d) h rfl hd hr⟩
  | exit d =>
    obtain ⟨w', hrun, hstep⟩ := PyStep.closing (c := .exit d) h rfl hfits
    exact ⟨_, w', hrun, hstep⟩
  | close d =>
    obtain ⟨w', hrun, hstep⟩ := PyStep.closing (c := .close d) h rfl hfits
    exact ⟨_, w', hrun, hstep⟩
  | del d =>
    obtain ⟨w', hrun, hstep⟩ := PyStep.closing (c := .del d) h rfl hfits
    exact ⟨_, w', hrun, hstep⟩
  | toPython d frames =>
    obtain ⟨handle, hd⟩ := hget hfits
    obtain ⟨r, hr⟩ := (reads_toPython frames).ended h hd
    exact ⟨_, _, PyStep.method (c := .toPython d frames) h rfl hd hr⟩
  | serialize d =>
    obtain ⟨handle, hd⟩ := hget hfits
    obtain ⟨r, hr⟩ := reads_serialize.ended h hd
    exact ⟨_, _, PyStep.method (c := .serialize d) h rfl hd hr⟩
  | loads lib data frames =>
    obtain ⟨r, ffi, hloads, hok, hdocs, -⟩ := withDocument_spec h.ffi B lib hfits
      (reads_toPython frames).opened (reads_toPython frames).defined
    refine ⟨r.map .value, _, ?_, .of_docs h rfl hok hdocs⟩
    rw [PyCall.run, Python.loads, hloads]
    rfl
  | normalize lib data =>
    obtain ⟨r, ffi, hnormalize, hok, hdocs, -⟩ := withDocument_spec h.ffi B lib hfits
      reads_serialize.opened reads_serialize.defined
    refine ⟨r.map .text, _, ?_, .of_docs h rfl hok hdocs⟩
    rw [PyCall.run, Python.normalize, hnormalize]
    rfl

/-- A closed document raises. -/
theorem closed_raises (h : w.Ok) {d : ℕ} (hd : w.handles[d]? = some none) {c : PyCall}
    (hc : c.reads = some d) : c.run B w = some (.error closedError, w) := by
  cases c with
  | enter d' =>
    obtain rfl : d' = d := Option.some.inj hc
    exact (PyStep.method h (c := .enter d') rfl hd (r := .error closedError) rfl).1
  | toPython d' frames =>
    obtain rfl : d' = d := Option.some.inj hc
    exact (PyStep.method h (c := .toPython d' frames) rfl hd (r := .error closedError) rfl).1
  | serialize d' =>
    obtain rfl : d' = d := Option.some.inj hc
    exact (PyStep.method h (c := .serialize d') rfl hd (r := .error closedError) rfl).1
  | _ => cases hc

/-! ## Runs -/

/-- **Runs.** -/
inductive PyRun (B : FfiBacking) : PyState → Prop
  | start : PyRun B .init
  | call {w w' : PyState} {r : Except PyException PyReturn} (c : PyCall) (h : PyRun B w)
      (hfits : c.Fits w) (hcall : c.run B w = some (r, w')) : PyRun B w'

/-- Calls one after the other. -/
inductive PyCalls (B : FfiBacking) : PyState → List PyCall → PyState → Prop
  | nil (w : PyState) : PyCalls B w [] w
  | cons {w w' w'' : PyState} {r : Except PyException PyReturn} {c : PyCall} {cs : List PyCall}
      (hfits : c.Fits w) (hcall : c.run B w = some (r, w')) (hrest : PyCalls B w' cs w'') :
      PyCalls B w (c :: cs) w''

/-- The step of a call that was made. -/
theorem PyState.Ok.step (h : w.Ok) {c : PyCall} (hfits : c.Fits w)
    {r : Except PyException PyReturn} (hcall : c.run B w = some (r, w')) : PyStep w c w' := by
  obtain ⟨r', w₁, hrun, hstep⟩ := h.call B hfits
  obtain ⟨-, rfl⟩ := Prod.mk.inj (Option.some.inj (hcall.symm.trans hrun))
  exact hstep

theorem PyRun.ok (hrun : PyRun B w) : w.Ok := by
  induction hrun with
  | start => exact PyState.ok_init
  | call c _ hfits hcall ih => exact (ih.step hfits hcall).ok

/-- A closed document stays closed. -/
theorem closed_calls {cs : List PyCall} (hcalls : PyCalls B w cs w') (h : w.Ok) {d : ℕ}
    (hd : w.handles[d]? = some none) : w'.Ok ∧ w'.handles[d]? = some none := by
  induction hcalls with
  | nil => exact ⟨h, hd⟩
  | cons hfits hcall _ ih =>
    have hstep := h.step hfits hcall
    apply ih hstep.ok
    rw [hstep.handles d (List.getElem?_eq_some_iff.mp hd).1]
    split
    · rfl
    · exact hd

/-- A document holds its tree until it is closed. -/
theorem held_calls {cs : List PyCall} (hcalls : PyCalls B w cs w') (h : w.Ok) {d : ℕ} {k : DocPtr}
    (hd : w.Has d k) {j : Json Double} (hj : w.ffi.Holds k j) : w'.Ok ∧
      ((∀ c ∈ cs, c.closes ≠ some d) → w'.Has d k ∧ w'.ffi.Holds k j) ∧
      ((∃ c ∈ cs, c.closes = some d) → w'.handles[d]? = some none) := by
  induction hcalls with
  | nil => exact ⟨h, fun _ => ⟨hd, hj⟩, by simp⟩
  | @cons w w₁ w₂ r c cs hfits hcall hrest ih =>
    have hstep := h.step hfits hcall
    have hhandle := hstep.handles d (lt_of_has hd)
    by_cases hc : c.closes = some d
    · rw [if_pos hc] at hhandle
      obtain ⟨hok, hclosed⟩ := closed_calls hrest hstep.ok hhandle
      exact ⟨hok, fun hno => absurd hc (hno c List.mem_cons_self), fun _ => hclosed⟩
    · rw [if_neg hc] at hhandle
      obtain ⟨hok, hopen, hclosed⟩ := ih hstep.ok (hhandle.trans hd)
        (hj.congr (hstep.docs d k hd hc))
      refine ⟨hok, ?_, ?_⟩
      · exact fun hno => hopen (List.forall_mem_cons.mp hno).2
      · rintro ⟨c', hc', heq⟩
        rcases List.mem_cons.mp hc' with rfl | hmem
        · exact absurd heq hc
        · exact hclosed ⟨c', hmem, heq⟩

end Calls

end Python

/-! ## Main results -/

/-- A text has one tree within the limits. -/
theorem JsonText.unique {src : List UInt8} {j j' : Json Double} (h : JsonText src j)
    (hlim : j.InLimits) (h' : JsonText src j') (hlim' : j'.InLimits) : j = j' := by
  have href := refParse_iff.mpr ⟨h, hlim, rfl⟩
  rw [refParse_iff.mpr ⟨h', hlim', rfl⟩] at href
  exact (Prod.mk.inj (Except.ok.inj href)).1.symm

/-- The text `[true]`. -/
def trueText : List UInt8 := [0x5B, 0x74, 0x72, 0x75, 0x65, 0x5D]

/-- The array of `true`. -/
def trueArray : Json Double := .arr [.bool true]

theorem trueText_spec : JsonText trueText trueArray ∧ trueArray.InLimits := by
  have href : refParse trueText 0 = .ok (trueArray, 2) := rfl
  exact ⟨(refParse_iff.mp href).1, (refParse_iff.mp href).2.1⟩

theorem fits_trueText : (PyData.bytes trueText).Fits := by
  intro src hsrc
  obtain rfl := Except.ok.inj hsrc
  decide

/-- Memory for everything. -/
def plenty : FfiBacking := ⟨fun _ _ _ => true, fun _ => true⟩

theorem grants_plenty (k : DocPtr) : plenty.Grants k := ⟨rfl, fun _ _ => rfl⟩

/-- `Document(b"[true]")`, and then `close`. -/
theorem exists_document : ∃ w, (PyCall.document .loaded (.bytes trueText)).run plenty .init
    = some (.ok (.document 0), w) ∧ ∃ w', (PyCall.close 0).run plenty w = some (.ok .none, w') ∧
      (PyCall.close 0).Fits w ∧ (PyCall.toPython 0 2).Fits w' ∧
      w'.handles = [none] := ⟨_, rfl, _, rfl, Nat.zero_lt_one, Nat.zero_lt_one, rfl⟩

/-- **Documents are freed once.**  In every run, whichever allocation fails: the next call does
nothing undefined, no use of a document that was freed or a second free among it; a native
document is there exactly while a `Document` has it, which no other one does; and once all are
closed, nothing is left of any. -/
theorem python_run {B : FfiBacking} {w : PyState} (hrun : PyRun B w) :
    (∀ c : PyCall, c.Fits w → ∃ r w', c.run B w = some (r, w')) ∧
    (∀ k, (∃ doc, w.ffi.docAt k = some doc) ↔ ∃ d : ℕ, w.handles[d]? = some (some k)) ∧
    (∀ (d d' : ℕ) (k : DocPtr), w.handles[d]? = some (some k) →
      w.handles[d']? = some (some k) → d = d') ∧
    ((∀ (d : ℕ) (k : DocPtr), w.handles[d]? ≠ some (some k)) →
      ∀ cell ∈ w.ffi.docs, ∃ m, cell = .gone m ∧ m.live = []) := by
  have h := hrun.ok
  refine ⟨?_, ?_, h.unique, ?_⟩
  · intro c hfits
    obtain ⟨r, w', hcall, -⟩ := h.call B hfits
    exact ⟨r, w', hcall⟩
  · intro k
    constructor
    · rintro ⟨doc, hdoc⟩
      exact h.live k doc hdoc
    · rintro ⟨d, hd⟩
      exact h.owned d k hd
  · intro hnone cell hcell
    obtain ⟨k, hk⟩ := List.mem_iff_getElem?.mp hcell
    cases cell with
    | gone m => exact ⟨m, rfl, h.ffi.gone k m hk⟩
    | live doc =>
      obtain ⟨d, hd⟩ := h.live k doc (docAt_eq_some.mpr hk)
      exact absurd hd (hnone d k)

theorem python_run_closed : ∃ w, PyRun plenty w ∧ w.handles = [none] ∧
    ∀ cell ∈ w.ffi.docs, ∃ m, cell = .gone m ∧ m.live = [] := by
  obtain ⟨w, hmake, w', hclose, hfits, hfits', hnone⟩ := exists_document
  have hrun := (PyRun.start.call (.document _ _) fits_trueText hmake).call _ hfits hclose
  refine ⟨w', hrun, hnone, (python_run hrun).2.2.2 fun d k hd => ?_⟩
  rw [hnone] at hd
  cases d <;> cases hd

/-- **A `Document` keeps what it was made from.**  The data has a text of the grammar within the
limits.  Whatever is called in between, until the `Document` is closed `to_python` returns the
Python value of its tree, if there are frames for it, and `serialize` its rendering; from then on
the methods that read raise. -/
theorem python_document {B : FfiBacking} {w w₁ w₂ : PyState} (hrun : PyRun B w) {lib : Library}
    {data : PyData} (hfits : data.Fits) {d : ℕ}
    (hmake : (PyCall.document lib data).run B w = some (.ok (.document d), w₁)) {cs : List PyCall}
    (hcalls : PyCalls B w₁ cs w₂) :
    ∃ src, ∃ j : Json Double, data.toBytes = .ok src ∧ JsonText src j ∧ j.InLimits ∧
      ((∀ c ∈ cs, c.closes ≠ some d) →
        (∀ frames, (PyCall.toPython d frames).run B w₂ = some
          (if j.levels ≤ frames then .ok (.value j.python) else .error .recursionError, w₂)) ∧
        ∃ s, encodeUtf8 s = j.render kDefaultOpts ∧
          (PyCall.serialize d).run B w₂ = some (.ok (.text s), w₂)) ∧
      ((∃ c ∈ cs, c.closes = some d) → ∀ c : PyCall, c.reads = some d →
        c.run B w₂ = some (.error (.valueError "document is closed"), w₂)) := by
  have h := hrun.ok
  obtain ⟨r, ffi, hinit, hout⟩ := documentInit_spec h.ffi B lib hfits
  rw [PyCall.run, hinit] at hmake
  cases r with
  | error e => cases (Prod.mk.inj (Option.some.inj hmake)).1
  | ok k =>
    obtain ⟨hd, rfl⟩ := Prod.mk.inj (Option.some.inj hmake)
    obtain rfl : w.handles.length = d := PyReturn.document.inj (Except.ok.inj hd)
    obtain ⟨-, src, j, hdata, htext, hj⟩ := hout.made k rfl
    have hstep := PyStep.document h hout
    obtain ⟨hok, hopen, hclosed⟩ := held_calls hcalls hstep.ok
      (show PyState.Has ⟨ffi, w.handles ++ [some k]⟩ w.handles.length k by
        simp [PyState.Has]) hj
    refine ⟨src, j, hdata, htext, hj.1.limits, ?_, ?_⟩
    · intro hno
      obtain ⟨hhas, hholds⟩ := hopen hno
      constructor
      · intro frames
        have hended : Python.ended (documentToPython frames (some k) w₂.ffi) = some
            (if j.levels ≤ frames then .ok j.python else .error .recursionError) := by
          rw [documentToPython_eq hholds frames]
          exact ended_conversion frames j
        refine (PyStep.method hok rfl hhas hended
          (c := .toPython w.handles.length frames)).1.trans ?_
        split <;> rfl
      · obtain ⟨hserialize, hencode⟩ := documentSerialize_eq hholds
        refine ⟨_, hencode, ?_⟩
        exact (PyStep.method hok (c := .serialize w.handles.length) rfl hhas
          (r := .ok (textOf (j.render kDefaultOpts))) (by rw [hserialize]; rfl)).1
    · exact fun hyes c hc => closed_raises hok (hclosed hyes) hc

theorem python_document_closed : ∃ w w', PyCalls plenty w [.close 0] w' ∧
    (PyCall.toPython 0 2).run plenty w = some (.ok (.value (.list [.bool true])), w) ∧
    (PyCall.toPython 0 2).run plenty w' = some (.error (.valueError "document is closed"), w') := by
  obtain ⟨w, hmake, w', hclose, hfits, -⟩ := exists_document
  obtain ⟨src, j, hdata, htext, hlim, hopen, -⟩ :=
    python_document .start fits_trueText hmake (.nil w)
  have hcalls : PyCalls plenty w [.close 0] w' := .cons hfits hclose (.nil w')
  obtain ⟨-, -, -, -, -, -, hclosed⟩ := python_document .start fits_trueText hmake hcalls
  obtain rfl := Except.ok.inj hdata
  obtain rfl := htext.unique hlim trueText_spec.1 trueText_spec.2
  refine ⟨w, w', hcalls, (hopen (by simp)).1 2, ?_⟩
  exact hclosed ⟨_, List.mem_cons_self, rfl⟩ _ rfl

/-- With the library and memory, a function of the module that reads a document returns what it
reads. -/
theorem withDocument_granted {α : Type} {w : FfiState} (h : w.Ok) {B : FfiBacking}
    (hgrants : B.Grants w.docs.length) {data : PyData} (hfits : data.Fits)
    {method : Option DocPtr → FfiState → Py α} {result : Json Double → Py α}
    (hmethod : Reads method result) {src : List UInt8} {j : Json Double}
    (hdata : data.toBytes = .ok src) (htext : JsonText src j) (hlim : j.InLimits) :
    ∃ r w', withDocument B .loaded data method w = some (r, w') ∧ w'.Ok ∧
      (∀ k, w'.docAt k = w.docAt k) ∧ j.Parsed ∧ some r = ended (result j) := by
  obtain ⟨r, w', hrun, hok, hdocs, ⟨e, -, hrefusal⟩ | ⟨src', j', hdata', htext', hj', hr⟩⟩ :=
    withDocument_spec h B .loaded hfits hmethod.opened hmethod.defined
  · cases hrefusal with
    | data hno => cases hdata.symm.trans hno
    | library _ hno => cases hno
    | memory _ _ hno => exact absurd hgrants hno
    | text hsrc _ _ _ hno =>
      obtain rfl := Except.ok.inj (hdata.symm.trans hsrc)
      exact absurd hlim (hno hgrants j htext)
  · obtain rfl := Except.ok.inj (hdata.symm.trans hdata')
    obtain rfl := htext.unique hlim htext' hj'.limits
    exact ⟨r, w', hrun, hok, hdocs, hj', hr⟩

theorem Json.levels_mapFloats_le (g : Double → Double) (j : Json Double) :
    (j.mapFloats g).levels ≤ j.levels := by
  induction j using Json.tree_induction with
  | arr items ih =>
    rw [mapFloats, mapFloatsArr_eq]
    refine Nat.succ_le_succ (levelsArr_le.mpr (List.forall_mem_map.mpr fun j hj => ?_))
    exact (ih j hj).trans (levelsArr_le.mp le_rfl j hj)
  | obj pairs ih =>
    rw [mapFloats, mapFloatsObj_eq]
    refine Nat.succ_le_succ (levelsObj_le.mpr (List.forall_mem_map.mpr fun kv hkv => ?_))
    exact (ih kv hkv).trans (levelsObj_le.mp le_rfl kv hkv)
  | _ => exact le_rfl

/-- **`normalize`**, in any run.  With the library and memory, every text of a tree within the
limits is normalized, to a string that can be loaded again: to the value of the tree with the
doubles that are read from their 17 digits.  Normalizing once more changes nothing exactly if
these are the same doubles, and then both texts load as the same value. -/
theorem python_normalize {B : FfiBacking} {w : PyState} (hrun : PyRun B w)
    (hgrants : B.Grants w.ffi.docs.length) {data : PyData} (hfits : data.Fits) {src : List UInt8}
    {j : Json Double} (hdata : data.toBytes = .ok src) (htext : JsonText src j)
    (hlim : j.InLimits) :
    ∃ s ffi, normalize B .loaded data w.ffi = some (.ok s, ffi) ∧
      encodeUtf8 s = j.render kDefaultOpts ∧
      (∀ k, ffi.docAt k = w.ffi.docAt k) ∧
      ∀ (B' : FfiBacking) (w' : PyState), PyRun B' w' → B'.Grants w'.ffi.docs.length →
        (∀ frames, j.levels ≤ frames → ∃ ffi', loads B' .loaded frames (.str s) w'.ffi
          = some (.ok (j.mapFloats Double.reread).python, ffi')) ∧
        (∃ s' ffi', normalize B' .loaded (.str s) w'.ffi = some (.ok s', ffi') ∧
          (s' = s ↔ j.Floats Double.ReadsExactly)) ∧
        (j.Floats Double.ReadsExactly → (j.mapFloats Double.reread).python = j.python) := by
  obtain ⟨r, ffi, hnormalize, -, hdocs, hj, hr⟩ :=
    withDocument_granted hrun.ok.ffi hgrants hfits reads_serialize hdata htext hlim
  obtain rfl := Option.some.inj hr
  have hutf8 := (isText_render kDefaultOpts hj.texts
    (hj.finite.mono fun _ => isText_floatBytes)).utf8
  have hencode := encodeUtf8_textOf hutf8
  refine ⟨_, ffi, hnormalize, hencode, hdocs, ?_⟩
  intro B' w' hrun' hgrants'
  -- the text is one of the tree with the doubles that are read
  have hagain : (PyData.str (textOf (j.render kDefaultOpts))).toBytes
      = .ok (j.render kDefaultOpts) := congrArg Except.ok hencode
  have hfits' : (PyData.str (textOf (j.render kDefaultOpts))).Fits := by
    intro src' hsrc'
    obtain rfl := Except.ok.inj (hagain.symm.trans hsrc')
    exact (length_render_le kDefaultOpts hj.texts hlim.levels hlim.nodes).trans (by decide)
  have htext' := jsonText_render kDefaultOpts hj.texts
    (hj.finite.mono fun f hf => readsAs_reread hf _)
  have hlim' := hlim.mapFloats Double.reread
  refine ⟨?_, ?_, ?_⟩
  · intro frames hframes
    obtain ⟨r, ffi', hloads, -, -, -, hr⟩ := withDocument_granted hrun'.ok.ffi hgrants' hfits'
      (reads_toPython frames) hagain htext' hlim'
    rw [ended_conversion, if_pos ((j.levels_mapFloats_le _).trans hframes)] at hr
    obtain rfl := Option.some.inj hr
    exact ⟨ffi', hloads⟩
  · obtain ⟨r, ffi', hnormalize', -, -, hj', hr⟩ := withDocument_granted hrun'.ok.ffi hgrants'
      hfits' reads_serialize hagain htext' hlim'
    obtain rfl := Option.some.inj hr
    have hutf8' := (isText_render kDefaultOpts hj'.texts
      (hj'.finite.mono fun _ => isText_floatBytes)).utf8
    refine ⟨_, ffi', hnormalize', ?_⟩
    rw [← render_reread_iff kDefaultOpts hj.finite]
    constructor
    · exact textOf_inj hutf8' hutf8
    · exact congrArg textOf
  · intro hexact
    have hfloats : j.Floats fun f => Double.reread f = f :=
      (hj.finite.and hexact).mono fun f hf => (Double.reread_eq_iff hf.1).mpr hf.2
    rw [Json.mapFloats_congr hfloats, Json.mapFloats_id]

theorem python_normalize_true : ∃ s ffi, normalize plenty .loaded (.bytes trueText) FfiState.init
    = some (.ok s, ffi) ∧ ∃ ffi', loads plenty .loaded 2 (.str s) FfiState.init
      = some (.ok (.list [.bool true]), ffi') := by
  obtain ⟨s, ffi, hnormalize, -, -, hagain⟩ := python_normalize .start (grants_plenty _)
    fits_trueText rfl trueText_spec.1 trueText_spec.2
  exact ⟨s, ffi, hnormalize, (hagain plenty .init .start (grants_plenty _)).1 2 le_rfl⟩

end SJson
