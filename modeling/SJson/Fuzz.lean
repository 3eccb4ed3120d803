/-
# The fuzz target

`fuzz/fuzz_parse.c`: what is parsed is written, parsed again and written again, and the target
aborts if the two outputs differ.  It uses its memory correctly on every input and leaves none
of it behind, and it aborts exactly on the documents with a short output of which a double is
not read back from its 17 digits (`llvmFuzzerTestOneInput_verdict`).

* An allocation of an arena fails or not as `grants` says.
* What is in the buffers before they are written is arbitrary.
-/
import SJson.OutputText
import SJson.Truncation
import SJson.CompatInvariant

namespace SJson

/-! ## The target -/

/-- `sizeof(buf)`. -/
def fuzzBufSize : ℕ := 4096

/-- How the target ends: it returns, with what is left of its arenas, or it calls `abort`. -/
inductive FuzzEnd where
  | returns (left : List BlockMem)
  | aborts

/-- What the allocators and the stack give to a run. -/
structure FuzzEnv where
  grants : ℕ → ℕ → Bool
  grantsSecond : ℕ → ℕ → Bool
  buf : ℕ → UInt8
  result : ℕ → UInt8
  sortMem : ℕ → Bool
  sortMemSecond : ℕ → Bool

section Target

variable {D : Type} [CDouble D]

/-- `json_arena_destroy` of one arena after the other. -/
def destroyAll : List Arena → Option (List BlockMem)
  | [] => some []
  | A :: As => do
    let m ← jsonArenaDestroy A.raw
    let left ← destroyAll As
    return m :: left

/-- The part from the second `json_parse` on, after `buf` was written. -/
def fuzzAgain (env : FuzzEnv) (r : Written) (A second : Arena) (h : Heap D) : Option FuzzEnd :=
  match jsonParse r.bytes ⟨h, second⟩ with
  | .error (.fault _) _ => none
  | .error (.err _) _ => some .aborts
  | .ok roundtrip s =>
    match jsonWrite s.heap roundtrip env.result fuzzBufSize kDefaultOpts env.sortMemSecond with
    | .error _ => none
    | .ok r' =>
      if r'.status ≠ .ok ∨ r'.written ≠ r.written ∨ r'.bytes ≠ r.bytes then some .aborts
      else (destroyAll [s.arena, A]).map .returns

/-- The part for a short output, from the second `json_arena_create` on. -/
def fuzzRoundTrip (env : FuzzEnv) (root : JsonPtr) (s : St D) : Option FuzzEnd :=
  match Arena.create env.grantsSecond 65536 (by decide) with
  | (none, m) => (destroyAll [s.arena]).map fun left => .returns (m :: left)
  | (some second, _) =>
    match jsonWrite s.heap root env.buf fuzzBufSize kDefaultOpts env.sortMem with
    | .error _ => none
    | .ok r =>
      if r.status ≠ .ok then some .aborts else fuzzAgain env r s.arena second s.heap

/-- The part for a document, from `json_measure` on. -/
def fuzzDocument (env : FuzzEnv) (root : JsonPtr) (s : St D) : Option FuzzEnd :=
  match jsonMeasure s.heap root kDefaultOpts with
  | .error _ => none
  | .ok (status, written) =>
    if status ≠ .ok then some .aborts
    else if written < fuzzBufSize then fuzzRoundTrip env root s
    else (destroyAll [s.arena]).map .returns

/-- `LLVMFuzzerTestOneInput`; `none` stands for undefined behaviour. -/
def llvmFuzzerTestOneInput (D : Type) [CDouble D] (env : FuzzEnv) (data : List UInt8) :
    Option FuzzEnd :=
  if hsize : data.length > (sizeMax - 65536) / 4 then some (.returns [])
  else
    match Arena.create env.grants (data.length * 4 + 65536) (by unfold sizeMax at *; omega) with
    | (none, m) => some (.returns [m])
    | (some arena, _) =>
      match (jsonParse data ⟨.empty, arena⟩ : EStateM.Result _ (St D) _) with
      | .error (.fault _) _ => none
      | .error (.err _) s => (destroyAll [s.arena]).map .returns
      | .ok root s => fuzzDocument env root s

end Target

/-! ## Its memory -/

/-- Nothing of an arena is left behind. -/
def FuzzEnd.Clean : FuzzEnd → Prop
  | .returns left => ∀ m ∈ left, m.live = []
  | .aborts => True

theorem destroyAll_spec : ∀ As : List Arena,
    ∃ left, destroyAll As = some left ∧ ∀ m ∈ left, m.live = [] := by
  intro As
  induction As with
  | nil => exact ⟨[], rfl, by simp⟩
  | cons A As ih =>
    obtain ⟨m, hm, hlive⟩ := A.destroy_spec
    obtain ⟨left, hleft, hall⟩ := ih
    refine ⟨m :: left, ?_, List.forall_mem_cons.mpr ⟨hlive, hall⟩⟩
    rw [destroyAll, hm, hleft]
    rfl

/-- What a part of the target does: it ends cleanly, and if memory is granted, it aborts exactly
if `bad`. -/
def Verdict (granted bad : Prop) (x : Option FuzzEnd) : Prop :=
  ∃ e, x = some e ∧ e.Clean ∧ (granted → (e = .aborts ↔ bad))

theorem verdict_destroy {granted bad : Prop} (As : List Arena) (hgood : granted → ¬ bad) :
    Verdict granted bad ((destroyAll As).map .returns) := by
  obtain ⟨left, hleft, hall⟩ := destroyAll_spec As
  refine ⟨.returns left, by rw [hleft]; rfl, hall, ?_⟩
  intro h
  exact iff_of_false (fun heq => by cases heq) (hgood h)

theorem verdict_abort {granted bad : Prop} (hbad : granted → bad) :
    Verdict granted bad (some .aborts) :=
  ⟨.aborts, rfl, trivial, fun h => iff_of_true rfl (hbad h)⟩

/-! ## The second output -/

/-- The allocators of the second arena. -/
def FuzzEnv.GrantsSecond (env : FuzzEnv) : Prop := ∀ k sz, env.grantsSecond k sz = true

theorem Written.length_bytes (r : Written) : r.bytes.length = r.written := by
  rw [Written.bytes, List.length_map, List.length_range]

/-- The second output is the first one exactly if every double is read back. -/
theorem fuzzAgain_verdict (env : FuzzEnv) {j : Json Double} (hj : j.Parsed) {r : Written}
    (hbytes : r.bytes = j.render kDefaultOpts) (hshort : r.written < fuzzBufSize) (A : Arena)
    {second : Arena} {granted : Prop} (hsecond : granted → second.Fresh) {h : Heap Double}
    (hapi : ApiHeap h) :
    Verdict granted (¬ j.Floats Double.ReadsExactly) (fuzzAgain env r A second h) := by
  have hlen : r.bytes.length ≤ ptrdiffMax := by
    rw [r.length_bytes]
    exact hshort.le.trans (by decide)
  unfold fuzzAgain
  cases hparse : jsonParse r.bytes (⟨h, second⟩ : St Double) with
  | error e s =>
    have hfresh : ¬ granted := by
      intro hg
      obtain ⟨w, t, hok, -⟩ := jsonParse_render hj.texts hj.finite hj.limits (hbytes ▸ hlen) h
        (hsecond hg)
      rw [← hbytes, hparse] at hok
      cases hok
    cases e with
    | err code => exact verdict_abort fun hg => absurd hg hfresh
    | fault f => exact absurd ((jsonParse_ensures r.bytes _).error hparse) id
  | ok w t =>
    obtain ⟨hapi', hw, -⟩ := hapi.parse hparse
    obtain ⟨j', -, hden', hj'⟩ := jsonParse_parsed hlen hapi hparse
    have hrender : t.heap.rendering kDefaultOpts w = j'.render kDefaultOpts :=
      hden'.rendering hj'.limits.levels rfl
    have hsame : granted → (j'.render kDefaultOpts = j.render kDefaultOpts ↔
        j.Floats Double.ReadsExactly) := by
      intro hg
      obtain ⟨w', t', hok, hden⟩ := jsonParse_render hj.texts hj.finite hj.limits
        (hbytes ▸ hlen) h (hsecond hg)
      rw [← hbytes, hparse] at hok
      cases hok
      rw [hden'.unique hden]
      exact render_reread_iff kDefaultOpts hj.finite
    obtain ⟨r', hr', -, -⟩ :=
      jsonWrite_safe hapi'.repOk hw env.result fuzzBufSize kDefaultOpts env.sortMemSecond
    have hmem : jsonWrite t.heap w env.result fuzzBufSize kDefaultOpts (fun _ => true) = .ok r' :=
      (jsonWrite_sortMem rfl ..).trans hr'
    have hwhole : r'.status = .ok → r'.bytes = j'.render kDefaultOpts := by
      intro hok
      rw [← hrender]
      exact (jsonWrite_fits (.inl rfl) hapi'.repOk hw (by decide) env.result (fun _ => rfl)
        hmem hok).bytes_eq
    simp only [hr']
    by_cases hbad : r'.status ≠ .ok ∨ r'.written ≠ r.written ∨ r'.bytes ≠ r.bytes
    · rw [if_pos hbad]
      apply verdict_abort
      intro hg hexact
      have heq := (hsame hg).mpr hexact
      -- the output is as short as the first one, so that it is written
      obtain ⟨r'', hr'', hok, hbytes''⟩ := jsonWrite_finite hapi'.repOk hw hden' hj'.finite
        hj'.limits (rfl : kDefaultOpts.sortKeys = false) (by decide : fuzzBufSize ≤ sizeMax)
        (by rwa [heq, ← hbytes, r.length_bytes]) env.result env.sortMemSecond
      obtain rfl : r'' = r' := Except.ok.inj (hr''.symm.trans hr')
      have hsame' : r''.bytes = r.bytes := by rw [hbytes'', heq, hbytes]
      rcases hbad with hstatus | hwritten | hdiff
      · exact hstatus hok
      · exact hwritten (by rw [← r''.length_bytes, hsame', r.length_bytes])
      · exact hdiff hsame'
    · rw [if_neg hbad]
      apply verdict_destroy
      intro hg hno
      simp only [not_or, not_not] at hbad
      exact hno ((hsame hg).mp (by rw [← hwhole hbad.1, hbad.2.2, hbytes]))

theorem fuzzRoundTrip_verdict (env : FuzzEnv) {j : Json Double} (hj : j.Parsed) {s : St Double}
    {root : JsonPtr} (hapi : ApiHeap s.heap) (hroot : root < s.heap.next)
    (hden : Denotes s.heap j root) (hshort : (j.render kDefaultOpts).length < fuzzBufSize) :
    Verdict env.GrantsSecond (¬ j.Floats Double.ReadsExactly) (fuzzRoundTrip env root s) := by
  unfold fuzzRoundTrip
  cases hcreate : Arena.create env.grantsSecond 65536 (by decide) with
  | mk second m =>
    cases second with
    | none =>
      obtain ⟨left, hleft, hall⟩ := destroyAll_spec [s.arena]
      refine ⟨.returns (m :: left), by simp only [hleft]; rfl,
        List.forall_mem_cons.mpr ⟨Arena.create_none hcreate, hall⟩, ?_⟩
      intro hgrants
      obtain ⟨A, m', hmade, -⟩ := Arena.create_granted (by decide : 65536 ≤ sizeMax) hgrants
      rw [hcreate] at hmade
      cases hmade
    | some second =>
      obtain ⟨r, hr, hok, hbytes⟩ := jsonWrite_finite hapi.repOk hroot hden hj.finite hj.limits
        (rfl : kDefaultOpts.sortKeys = false) (by decide : fuzzBufSize ≤ sizeMax) hshort env.buf
        env.sortMem
      simp only [hr]
      rw [if_neg (not_not.mpr hok)]
      refine fuzzAgain_verdict env hj hbytes ?_ s.arena ?_ hapi
      · rwa [← r.length_bytes, hbytes]
      · intro hgrants
        obtain ⟨A, m', hmade, hfresh⟩ := Arena.create_granted (by decide : 65536 ≤ sizeMax) hgrants
        rw [hcreate] at hmade
        cases hmade
        exact hfresh

/-! ## The verdict -/

theorem fuzzDocument_verdict (env : FuzzEnv) {j : Json Double} (hj : j.Parsed) {s : St Double}
    {root : JsonPtr} (hapi : ApiHeap s.heap) (hroot : root < s.heap.next)
    (hden : Denotes s.heap j root) :
    Verdict env.GrantsSecond ((j.render kDefaultOpts).length < fuzzBufSize ∧
      ¬ j.Floats Double.ReadsExactly) (fuzzDocument env root s) := by
  have hlevels := hj.limits.levels
  have hrender : s.heap.rendering kDefaultOpts root = j.render kDefaultOpts :=
    hden.rendering hlevels rfl
  obtain ⟨-, hlen⟩ := rendering_inOrder hapi.repOk hroot hden hj.finite hlevels hj.limits.nodes
    kDefaultOpts
  have hmeasure := jsonMeasure_of_writable hapi.repOk hroot (hj.finite.writable hden hlevels)
    (hlen.trans (by decide))
  unfold fuzzDocument
  simp only [hmeasure, hrender]
  rw [if_neg (not_not.mpr rfl)]
  by_cases hshort : (j.render kDefaultOpts).length < fuzzBufSize
  · rw [if_pos hshort]
    obtain ⟨e, he, hclean, hiff⟩ := fuzzRoundTrip_verdict env hj hapi hroot hden hshort
    exact ⟨e, he, hclean, fun hg => (hiff hg).trans (and_iff_right hshort).symm⟩
  · rw [if_neg hshort]
    exact verdict_destroy _ fun _ h => hshort h.1

/-- **What the fuzz target finds.**  On every input, whatever allocation fails, it runs to its
end without undefined behaviour, and if it returns, nothing of its arenas is left.  Where memory
is granted, it aborts exactly on the texts of the grammar within the limits whose output is
shorter than its buffer and has a double that is not read back from its 17 digits. -/
theorem llvmFuzzerTestOneInput_verdict (env : FuzzEnv) (data : List UInt8)
    (hlen : data.length ≤ ptrdiffMax) :
    ∃ e, llvmFuzzerTestOneInput Double env data = some e ∧ e.Clean ∧
      ((∀ k sz, env.grants k sz = true) → (∀ k sz, env.grantsSecond k sz = true) →
        (e = .aborts ↔ data.length ≤ (sizeMax - 65536) / 4 ∧
          ∃ j : Json Double, JsonText data j ∧ j.InLimits ∧
            (j.render kDefaultOpts).length < fuzzBufSize ∧ ¬ j.Floats Double.ReadsExactly)) := by
  unfold llvmFuzzerTestOneInput
  by_cases hsize : data.length > (sizeMax - 65536) / 4
  · rw [dif_pos hsize]
    refine ⟨_, rfl, by simp [FuzzEnd.Clean], ?_⟩
    intro _ _
    exact iff_of_false (fun heq => by cases heq) fun h => absurd h.1 (not_le.mpr hsize)
  rw [dif_neg hsize]
  have hblock : data.length * 4 + 65536 ≤ sizeMax := by
    unfold sizeMax at *
    omega
  cases hcreate : Arena.create env.grants (data.length * 4 + 65536) hblock with
  | mk arena m =>
    cases arena with
    | none =>
      refine ⟨.returns [m], rfl, by simpa [FuzzEnd.Clean] using Arena.create_none hcreate, ?_⟩
      intro hgrants _
      obtain ⟨A, m', hmade, -⟩ := Arena.create_granted hblock hgrants
      rw [hcreate] at hmade
      cases hmade
    | some A =>
      have hfresh : (∀ k sz, env.grants k sz = true) → A.Fresh := by
        intro hgrants
        obtain ⟨A', m', hmade, hA⟩ := Arena.create_granted hblock hgrants
        rw [hcreate] at hmade
        cases hmade
        exact hA
      -- what is in the language is parsed, to the tree that it stands for
      have haccepted : (∀ k sz, env.grants k sz = true) → ∀ j : Json Double, JsonText data j →
          j.InLimits → ∃ v s, jsonParse data ⟨.empty, A⟩ = .ok v s ∧ Denotes s.heap j v := by
        intro hgrants j htext hlim
        obtain ⟨v, s, hparse, hden, -⟩ := jsonParse_fresh (h := .empty) (hfresh hgrants) hlen
          (refParse_iff.mpr ⟨htext, hlim, rfl⟩)
        exact ⟨v, s, hparse, hden.denotes⟩
      cases hparse : jsonParse data (⟨.empty, A⟩ : St Double) with
      | error err s =>
        cases err with
        | fault f => exact absurd ((jsonParse_ensures data _).error hparse) id
        | err code =>
          obtain ⟨left, hleft, hall⟩ := destroyAll_spec [s.arena]
          refine ⟨.returns left, by simp only [hparse, hleft]; rfl, hall, ?_⟩
          intro hgrants _
          refine iff_of_false (fun heq => by cases heq) ?_
          rintro ⟨-, j, htext, hlim, -⟩
          obtain ⟨v, s', hok, -⟩ := haccepted hgrants j htext hlim
          rw [hparse] at hok
          cases hok
      | ok root s =>
        obtain ⟨hapi, hroot, -⟩ := ApiHeap.empty.parse hparse
        obtain ⟨j, htext, hden, hj⟩ := jsonParse_parsed hlen .empty hparse
        obtain ⟨e, he, hclean, hiff⟩ := fuzzDocument_verdict env hj hapi hroot hden
        refine ⟨e, by simp only [hparse, he], hclean, ?_⟩
        intro hgrants hsecond
        rw [hiff hsecond]
        constructor
        · rintro ⟨hshort, hbad⟩
          exact ⟨not_lt.mp hsize, j, htext, hj.limits, hshort, hbad⟩
        · rintro ⟨-, j', htext', hlim', hbad⟩
          obtain ⟨v, s', hok, hden'⟩ := haccepted hgrants j' htext' hlim'
          rw [hparse] at hok
          cases hok
          rwa [hden.unique hden']

/-- The target aborts on the text `1.1`. -/
theorem llvmFuzzerTestOneInput_verdict_elevenTenths : ∃ env : FuzzEnv,
    llvmFuzzerTestOneInput Double env [0x31, 0x2E, 0x31] = some .aborts := by
  obtain ⟨A, hA⟩ := Arena.exists_fresh
  have hsrc : (pointNumber 1 1).text = [0x31, 0x2E, 0x31] := by decide
  have hfast : (pointNumber 1 1).IsFast := by decide
  have hfin := (pointNumber 1 1).read_finite (.inl hfast)
  obtain ⟨u, s, hparse, -, -, hden⟩ :=
    exists_parsed_literal (l := pointNumber 1 1) rfl (.inl hfast) (by rw [hsrc]; decide) hA
  rw [hsrc] at hparse
  obtain ⟨j, htext, hden', hj⟩ := jsonParse_parsed (by decide) .empty hparse
  obtain rfl := hden'.unique hden
  have hfloat := floatBytes_elevenTenths
  generalize (pointNumber 1 1).read = f at hfin hfloat htext hj
  have hbad : ¬ f.ReadsExactly := by
    intro hexact
    exact not_fastExact_elevenTenths
      ((Double.reread_eq_iff_exact hfin rfl hfloat).mp ((Double.reread_eq_iff hfin).mpr hexact))
  have hshort : ((Json.float f).render kDefaultOpts).length < fuzzBufSize :=
    (render_float_length hfin).trans (by decide)
  obtain ⟨e, he, -, hiff⟩ := llvmFuzzerTestOneInput_verdict
    ⟨fun _ _ => true, fun _ _ => true, fun _ => 0, fun _ => 0, fun _ => true, fun _ => true⟩
    [0x31, 0x2E, 0x31] (by decide)
  refine ⟨_, he.trans (congrArg some ?_)⟩
  exact (hiff (fun _ _ => rfl) fun _ _ => rfl).mpr
    ⟨by decide, _, htext, hj.limits, hshort, hbad⟩

end SJson
