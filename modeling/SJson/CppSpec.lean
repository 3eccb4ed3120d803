/-
# What the C++ layer guarantees

In every run, no call uses an object, a storage or a node that is not there, no storage is
destroyed while it is shared, and none is left when all objects are gone (`cpp_ownership`).  A
value stands for the same tree until its arena is reset or trimmed, and is empty from then on
(`cppValue_lifetime`).  What parsing, copying and looking up return stands for what it should
(`cpp_results`), and what is serialized is the rendering of the tree (`cpp_serialize`).

A value that was moved from keeps its pointer but shares no storage (`cppValue_movedFrom`), so
that it cannot tell when the memory is given up; then the client may not read it any more.
-/
import SJson.CppCalls
import SJson.SortedOutput
import SJson.RoundTrip

namespace SJson

open ListRel RefCount Function CppState

variable {D : Type}

/-! ## Runs -/

/-- **Runs**, in which an arena was reset or trimmed `n` times. -/
inductive CppRun [CDouble D] (B : CppBacking) : ℕ → CppState D → Prop
  | start : CppRun B 0 .init
  | call {n : ℕ} {w w' : CppState D} (c : CppCall) (h : CppRun B n w) (hfits : c.Fits w)
      (hcall : c.run B w = some w') : CppRun B (n + c.resets) w'

section Runs

variable [CDouble D] {B : CppBacking} {w w' : CppState D} {n : ℕ}

theorem CppOk.init : CppOk (CppState.init : CppState D) 0 none where
  counted := by
    refine ⟨fun k => ?_, fun k => ?_⟩
    · have hempty : holders ((CppState.init : CppState D).own none) k = ∅ := by
        ext a
        cases a <;> simp [holders, own, CppState.init]
      rw [hempty, Set.ncard_empty]
      rfl
    · simp [count, storageAt, CppState.init]
  heap := .empty
  home := by simp [CppState.init]
  gone := by simp [CppState.init]
  resets := by simp [CppState.init, storageAt]
  value := by simp [CppState.init, valueAt]

/-- **Every run keeps the invariant**, as long as the generations do not wrap. -/
theorem CppRun.ok (hrun : CppRun B n w) (hn : n < 2 ^ 64) : CppOk w n none := by
  induction hrun with
  | start => exact .init
  | @call n w w' c _ hfits hcall ih =>
    have hok := ih (lt_of_le_of_lt (Nat.le_add_right ..) hn)
    obtain ⟨w₁, hrun, hstep⟩ := hok.call B c hfits hn
    obtain rfl : w' = w₁ := Option.some.inj (hcall.symm.trans hrun)
    exact hstep.ok

/-- An arena that has parsed the text `[true]`. -/
theorem CppRun.exists_parsed : ∃ (_ : CDouble Unit) (B : CppBacking) (w : CppState Unit)
    (x : CppValue), CppRun B 0 w ∧ w.arenaAt 0 = some ⟨some 0, .ok⟩ ∧ w.valueAt 1 = some x ∧
      x.owner = some 0 ∧ x.Means w (.arr [.bool true]) ∧ w.objects 2 = none := by
  let _ : CDouble Unit := .unit
  let B : CppBacking := ⟨fun _ _ _ => true, fun _ => true⟩
  let text : List UInt8 := [0x5B, 0x74, 0x72, 0x75, 0x65, 0x5D]
  obtain ⟨w₁, w₂, hnew, ha, hfree, hparse, harena, hv, ⟨s, hs, hgen⟩, hroot, hitem, hnone⟩ :
      ∃ w₁ w₂ : CppState Unit, (CppCall.newArena 0 0).run B .init = some w₁ ∧
        w₁.arenaAt 0 = some ⟨some 0, .ok⟩ ∧ w₁.objects 1 = none ∧
        (CppCall.parse 0 1 text).run B w₁ = some w₂ ∧
        w₂.arenaAt 0 = some ⟨some 0, .ok⟩ ∧ w₂.valueAt 1 = some ⟨some 0, some 0, 0⟩ ∧
        (∃ s, w₂.storageAt 0 = some s ∧ s.generation = 0) ∧
        (w₂.home 0 = some 0 ∧ ∃ a, w₂.heap.node 0 = .array a ∧ a.items = [1]) ∧
        (w₂.home 1 = some 0 ∧ w₂.heap.node 1 = .bool true) ∧ w₂.objects 2 = none :=
    ⟨_, _, rfl, rfl, rfl, rfl, rfl, rfl, ⟨_, rfl, rfl⟩, ⟨rfl, _, rfl, rfl⟩, ⟨rfl, rfl⟩, rfl⟩
  have hstart : CppRun B 0 w₁ := CppRun.call (.newArena 0 0) .start rfl hnew
  have hrun : CppRun B 0 w₂ :=
    CppRun.call (.parse 0 1 text) hstart ⟨⟨_, ha⟩, hfree, by decide⟩ hparse
  obtain ⟨hhome, a, harr, hitems⟩ := hroot
  refine ⟨_, B, w₂, _, hrun, harena, hv, rfl, ⟨0, s, 0, rfl, hs, hgen, rfl, ?_⟩, hnone⟩
  refine denotesIn_arr.mpr ⟨hhome, a, harr, ?_⟩
  rw [hitems]
  exact .cons hitem .nil

/-- Calls one after the other. -/
inductive CppCalls (B : CppBacking) : CppState D → List CppCall → CppState D → Prop
  | nil (w : CppState D) : CppCalls B w [] w
  | cons {w w' w'' : CppState D} {c : CppCall} {cs : List CppCall} (hfits : c.Fits w)
      (hcall : c.run B w = some w') (hrest : CppCalls B w' cs w'') : CppCalls B w (c :: cs) w''

/-- One of the calls resets or trims the arena of the storage `k`. -/
def EmptiesIn (B : CppBacking) (k : StoragePtr) : CppState D → List CppCall → Prop
  | _, [] => False
  | w, c :: cs => c.empties w = some k ∨ ∃ w', c.run B w = some w' ∧ EmptiesIn B k w' cs

/-- How often the calls reset or trim an arena. -/
def resetsOf (cs : List CppCall) : ℕ := (cs.map CppCall.resets).sum

omit [CDouble D] in
/-- A value of an older generation than its storage. -/
def CppValue.Stale (w : CppState D) (x : CppValue) : Prop :=
  ∃ k s, x.owner = some k ∧ w.storageAt k = some s ∧ x.generation.toNat < s.generation.toNat

omit [CDouble D] in
theorem CppValue.Stale.get {x : CppValue} (h : x.Stale w) : x.get w = some none := by
  obtain ⟨k, s, hown, hs, hlt⟩ := h
  have hne : s.generation ≠ x.generation := by
    rintro heq
    rw [heq] at hlt
    exact absurd hlt (lt_irrefl _)
  rw [CppValue.get_owned hown hs, if_neg hne]

omit [CDouble D] in
theorem CppValue.Means.get {x : CppValue} {j : Json D} (h : x.Means w j) :
    x.get w = some x.value := by
  obtain ⟨k, s, p, hown, hs, hgen, hp, -⟩ := h
  rw [CppValue.get_owned hown hs, if_pos hgen]

omit [CDouble D] in
/-- A value with a storage shows the tree that it stands for. -/
theorem CppValue.Means.shows {x : CppValue} {j : Json D} (h : x.Means w j) : x.Shows w j := by
  have hget := h.get
  obtain ⟨k, s, p, -, -, -, hp, hj⟩ := h
  exact ⟨k, p, by rw [hget, hp], hj⟩

/-- The storage of an object that a call leaves alone is there before and after. -/
theorem CppStep.owner {c : CppCall} (hstep : CppStep w w' n c) (h : CppOk w n none) {v : CppAddr}
    {x : CppValue} (hv : w.valueAt v = some x) (hsame : v ∉ c.writes) {k : StoragePtr}
    (hown : x.owner = some k) :
    w'.valueAt v = some x ∧ (∃ s, w.storageAt k = some s) ∧ ∃ s', w'.storageAt k = some s' := by
  have hv' : w'.valueAt v = some x := by
    rw [valueAt_eq_some, hstep.others v hsame]
    exact valueAt_eq_some.mp hv
  exact ⟨hv', h.owner (valueAt_eq_some.mp hv) hown, hstep.ok.owner (valueAt_eq_some.mp hv') hown⟩

/-- A value that is stale stays stale. -/
theorem CppStep.stale {c : CppCall} (hstep : CppStep w w' n c) (h : CppOk w n none) {v : CppAddr}
    {x : CppValue} (hv : w.valueAt v = some x) (hsame : v ∉ c.writes) (hx : x.Stale w) :
    x.Stale w' := by
  obtain ⟨k, s, hown, hs, hlt⟩ := hx
  obtain ⟨-, -, s', hs'⟩ := hstep.owner h hv hsame hown
  refine ⟨k, s', hown, hs', ?_⟩
  by_cases hk : c.empties w = some k
  · exact hlt.trans (hstep.older k s s' hk hs hs')
  · obtain ⟨s₀, hs₀, hgen⟩ := hstep.keeps.back k s' (lt_of_storageAt hs) hs'
    obtain rfl := Option.some.inj (hs.symm.trans hs₀)
    rw [hgen (Ne.symm hk)]
    exact hlt

/-- A value of a storage that a call empties is stale afterwards. -/
theorem CppStep.becomesStale {c : CppCall} (hstep : CppStep w w' n c) (h : CppOk w n none)
    {v : CppAddr} {x : CppValue} (hv : w.valueAt v = some x) (hsame : v ∉ c.writes)
    {k : StoragePtr} (hown : x.owner = some k) (hk : c.empties w = some k) : x.Stale w' := by
  obtain ⟨-, ⟨s, hs⟩, s', hs'⟩ := hstep.owner h hv hsame hown
  refine ⟨k, s', hown, hs', ?_⟩
  exact lt_of_le_of_lt ((h.value v x hv).older k s hown hs) (hstep.older k s s' hk hs hs')

/-- Calls that leave a stale value alone. -/
theorem stale_calls {cs : List CppCall} (hcalls : CppCalls B w cs w') : ∀ {n : ℕ},
    CppOk w n none → n + resetsOf cs < 2 ^ 64 → ∀ {v : CppAddr} {x : CppValue},
      w.valueAt v = some x → (∀ c ∈ cs, v ∉ c.writes) → x.Stale w →
        w'.valueAt v = some x ∧ x.Stale w' := by
  induction hcalls with
  | nil => exact fun _ _ _ _ hv _ hx => ⟨hv, hx⟩
  | @cons w w₁ w₂ c cs hfits hcall _ ih =>
    intro n h hn v x hv hsame hx
    rw [resetsOf, List.map_cons, List.sum_cons, ← Nat.add_assoc] at hn
    obtain ⟨w₁', hrun, hstep⟩ := h.call B c hfits (lt_of_le_of_lt (Nat.le_add_right ..) hn)
    obtain rfl : w₁ = w₁' := Option.some.inj (hcall.symm.trans hrun)
    have hmem := List.forall_mem_cons.mp hsame
    obtain ⟨k, hown, -⟩ : ∃ k, x.owner = some k ∧ True := by
      obtain ⟨k, s, hown, -⟩ := hx
      exact ⟨k, hown, trivial⟩
    exact ih hstep.ok hn (hstep.owner h hv hmem.1 hown).1 hmem.2 (hstep.stale h hv hmem.1 hx)

/-- Calls that leave a value alone. -/
theorem means_calls {cs : List CppCall} (hcalls : CppCalls B w cs w') : ∀ {n : ℕ},
    CppOk w n none → n + resetsOf cs < 2 ^ 64 → ∀ {v : CppAddr} {x : CppValue} {k : StoragePtr}
      {j : Json D}, w.valueAt v = some x → (∀ c ∈ cs, v ∉ c.writes) → x.owner = some k →
        x.Means w j → w'.valueAt v = some x ∧
          (¬ EmptiesIn B k w cs → x.Means w' j) ∧ (EmptiesIn B k w cs → x.Stale w') := by
  induction hcalls with
  | nil => exact fun _ _ _ _ _ _ hv _ _ hj => ⟨hv, fun _ => hj, fun hno => hno.elim⟩
  | @cons w w₁ w₂ c cs hfits hcall hrest ih =>
    intro n h hn v x k j hv hsame hown hj
    rw [resetsOf, List.map_cons, List.sum_cons, ← Nat.add_assoc] at hn
    obtain ⟨w₁', hrun, hstep⟩ := h.call B c hfits (lt_of_le_of_lt (Nat.le_add_right ..) hn)
    obtain rfl : w₁ = w₁' := Option.some.inj (hcall.symm.trans hrun)
    obtain ⟨hfirst, hlater⟩ := List.forall_mem_cons.mp hsame
    obtain ⟨hv₁, -, s', hs'⟩ := hstep.owner h hv hfirst hown
    by_cases hk : c.empties w = some k
    · -- from here on the value is stale
      obtain ⟨hv', hstale⟩ := stale_calls hrest hstep.ok hn hv₁ hlater
        (hstep.becomesStale h hv hfirst hown hk)
      exact ⟨hv', fun hno => absurd (.inl hk) hno, fun _ => hstale⟩
    · have hj₁ : x.Means w₁ j := by
        refine hj.keeps hstep.keeps ?_ ?_
        · rw [hown]
          exact Ne.symm hk
        · intro k' hk'
          obtain rfl := Option.some.inj (hown.symm.trans hk')
          exact ⟨s', hs'⟩
      obtain ⟨hv', hmeans, hstale⟩ := ih hstep.ok hn hv₁ hlater hown hj₁
      refine ⟨hv', ?_, ?_⟩
      · intro hno
        exact hmeans fun hin => hno (.inr ⟨w₁, hcall, hin⟩)
      · rintro (hnow | ⟨w₀, hw₀, hin⟩)
        · exact absurd hnow hk
        · obtain rfl := Option.some.inj (hcall.symm.trans hw₀)
          exact hstale hin

/-! ## Ownership -/

omit [CDouble D] in
/-- Without a temporary, the holders of a storage are objects. -/
theorem holders_own (k : StoragePtr) :
    (holders (w.own none) k).ncard
      = {a | ∃ o, w.objects a = some o ∧ o.owner = some k}.ncard := by
  have himage : holders (w.own none) k
      = some '' {a | ∃ o, w.objects a = some o ∧ o.owner = some k} := by
    ext a
    cases a with
    | none => simp [holders, own]
    | some a => simp [holders, own, Option.bind_eq_some_iff]
  rw [himage, Set.ncard_image_of_injective _ (Option.some_injective _)]

/-- **Storages are owned.**  In every run: the next call uses nothing that is not there; a
storage counts the objects that share it, and is there exactly as long as there is one; a
pointer that a value hands out is to a tree in the memory of its own storage; and once no
object is left, no storage is, and nothing of an arena is allocated. -/
theorem cpp_ownership {B : CppBacking} {n : ℕ} {w : CppState D} (hrun : CppRun B n w)
    (hn : n < 2 ^ 64) :
    (∀ c : CppCall, c.Fits w → n + c.resets < 2 ^ 64 → ∃ w', c.run B w = some w') ∧
    (∀ k, (∃ s, w.storageAt k = some s) ↔ ∃ a o, w.objects a = some o ∧ o.owner = some k) ∧
    (∀ k s, w.storageAt k = some s →
      s.useCount = {a | ∃ o, w.objects a = some o ∧ o.owner = some k}.ncard) ∧
    (∀ v x p, w.valueAt v = some x → w.Usable v → x.get w = some (some p) →
      ∃ k, ∃ j : Json D, DenotesIn (fun q => w.home q = some k) w.heap j p ∧
        ∀ k', x.owner = some k' → k' = k) ∧
    ((∀ a, w.objects a = none) → ∀ cell ∈ w.storages, ∃ m, cell = .gone m ∧ m.live = []) := by
  have h := hrun.ok hn
  refine ⟨?_, ?_, ?_, ?_, ?_⟩
  · intro c hfits hc
    obtain ⟨w', hw', -⟩ := h.call B c hfits hc
    exact ⟨w', hw'⟩
  · intro k
    constructor
    · rintro ⟨s, hs⟩
      by_contra hno
      have hcard := h.counted.ncard_eq (count_of hs)
      have hempty : {a | ∃ o, w.objects a = some o ∧ o.owner = some k} = ∅ := by
        rw [Set.eq_empty_iff_forall_notMem]
        exact fun a ha => hno ⟨a, ha⟩
      rw [holders_own, hempty, Set.ncard_empty] at hcard
      exact h.counted.pos k (hcard ▸ count_of hs)
    · rintro ⟨a, o, ha, hk⟩
      exact h.owner ha hk
  · intro k s hs
    rw [← holders_own]
    exact (h.counted.ncard_eq (count_of hs)).symm
  · rintro v x p hv ⟨x', hx', husable⟩ hget
    obtain rfl := Option.some.inj (hv.symm.trans hx')
    rcases h.get hv husable with hnone | ⟨k, s, q, j, -, -, hj, hq, howns⟩
    · rw [hnone] at hget
      cases hget
    · obtain rfl : q = p := by
        rw [hq] at hget
        exact Option.some.inj (Option.some.inj hget)
      exact ⟨k, j, hj, howns⟩
  · intro hnone cell hcell
    obtain ⟨k, hk⟩ := List.mem_iff_getElem?.mp hcell
    cases cell with
    | gone m => exact ⟨m, rfl, h.gone k m hk⟩
    | live s =>
      have hcount := h.counted.none_left (b := k) (by
        intro a
        cases a with
        | none => rfl
        | some a => rw [own, hnone]; rfl)
      rw [count_of (storageAt_eq_some.mpr hk)] at hcount
      cases hcount

/-- The arena that has parsed `[true]` and its value share a storage. -/
theorem cpp_ownership_two : ∃ (_ : CDouble Unit) (B : CppBacking) (w : CppState Unit),
    CppRun B 0 w ∧ ∃ s, w.storageAt 0 = some s ∧
      s.useCount = {a | ∃ o, w.objects a = some o ∧ o.owner = some 0}.ncard := by
  obtain ⟨hD, B, w, x, hrun, -, hv, hown, -⟩ := CppRun.exists_parsed
  obtain ⟨-, hlive, hcount, -⟩ := cpp_ownership hrun (by decide)
  obtain ⟨s, hs⟩ := (hlive 0).mpr ⟨1, _, valueAt_eq_some.mp hv, hown⟩
  exact ⟨hD, B, w, hrun, s, hs, hcount 0 s hs⟩

/-! ## Lifetimes -/

/-- **A value outlives everything but its generation.**  What a value stands for does not
change while other objects are made, changed and destroyed, its arena among them.  Once the
arena was reset or trimmed, the value is empty, and it stays so. -/
theorem cppValue_lifetime {B : CppBacking} {n : ℕ} {w w' : CppState D} (hrun : CppRun B n w)
    {cs : List CppCall} (hcalls : CppCalls B w cs w') (hn : n + resetsOf cs < 2 ^ 64) {v : CppAddr}
    {x : CppValue} {j : Json D} (hv : w.valueAt v = some x) (hj : x.Means w j)
    (hsame : ∀ c ∈ cs, v ∉ c.writes) :
    ∃ k, x.owner = some k ∧ w'.valueAt v = some x ∧
      (¬ EmptiesIn B k w cs → x.Means w' j ∧ x.get w' = some x.value) ∧
      (EmptiesIn B k w cs → x.get w' = some none) := by
  have h := hrun.ok (lt_of_le_of_lt (Nat.le_add_right ..) hn)
  obtain ⟨k, hown⟩ : ∃ k, x.owner = some k := by
    obtain ⟨k, s, p, hown, -⟩ := hj
    exact ⟨k, hown⟩
  obtain ⟨hv', hmeans, hstale⟩ := means_calls hcalls h hn hv hsame hown hj
  refine ⟨k, hown, hv', ?_, ?_⟩
  · intro hno
    exact ⟨hmeans hno, (hmeans hno).get⟩
  · intro hin
    exact (hstale hin).get

/-- Resetting the arena that has parsed `[true]` empties its value. -/
theorem cppValue_lifetime_reset : ∃ (_ : CDouble Unit) (w w' : CppState Unit) (x : CppValue),
    x.Means w (.arr [.bool true]) ∧ w'.valueAt 1 = some x ∧ x.get w' = some none := by
  obtain ⟨hD, B, w, x, hrun, ha, hv, hown, hj, -⟩ := CppRun.exists_parsed
  obtain ⟨w', hcall, -⟩ := (hrun.ok (by decide)).call B (.reset 0) ⟨_, ha⟩ (by decide)
  have hcalls : CppCalls B w [.reset 0] w' := .cons ⟨_, ha⟩ hcall (.nil w')
  obtain ⟨k, hk, hv', -, hempty⟩ := cppValue_lifetime hrun hcalls (by decide) hv hj (by
    simp [CppCall.writes])
  obtain rfl : 0 = k := Option.some.inj (hown.symm.trans hk)
  refine ⟨hD, w, w', x, hj, hv', hempty (.inl ?_)⟩
  simp [CppCall.empties, CppCall.invalidates, ha]

/-- **A value that was moved from dangles** once its arena is reset: it still hands out its
pointer, to memory that was given up. -/
theorem cppValue_movedFrom {B : CppBacking} {n : ℕ} {w : CppState D} (hrun : CppRun B n w)
    (hn : n + 1 < 2 ^ 64) {dst src a : CppAddr} {x : CppValue} {y : CppArena} {j : Json D}
    (hdst : w.objects dst = none) (hsrc : w.valueAt src = some x) (hj : x.Means w j)
    (ha : w.arenaAt a = some y) (hshared : y.owner = x.owner) :
    ∃ w₁ w₂ x' p, (CppCall.moveValue dst src).run B w = some w₁ ∧
      (CppCall.reset a).run B w₁ = some w₂ ∧ w₂.valueAt src = some x' ∧
      x'.get w₂ = some (some p) ∧ w₂.home p = none := by
  obtain ⟨w₁, hmove, hstep⟩ := (hrun.ok (Nat.lt_of_succ_lt hn)).call B (.moveValue dst src)
    ⟨hdst, x, hsrc⟩ (Nat.lt_of_succ_lt hn)
  have hw₁ : w₁ = (w.setObject src (.value { x with owner := none })).setObject dst (.value x) := by
    rw [CppCall.run, hsrc] at hmove
    exact (Option.some.inj hmove).symm
  have hne := ne_of_free hdst (valueAt_eq_some.mp hsrc)
  have hsrc₁ : w₁.valueAt src = some { x with owner := none } := by
    rw [valueAt_eq_some, hw₁, setObject_ne _ hne.symm, setObject_self]
  have ha₁ : w₁.arenaAt a = some y := by
    have hnot : a ∉ (CppCall.moveValue dst src).writes := by
      rw [CppCall.writes, List.mem_pair]
      rintro (rfl | rfl)
      · exact ne_of_free hdst (arenaAt_eq_some.mp ha) rfl
      · rw [valueAt_eq_some, arenaAt_eq_some.mp ha] at hsrc
        cases hsrc
    rw [arenaAt_eq_some, hstep.others a hnot]
    exact arenaAt_eq_some.mp ha
  obtain ⟨k, s, p, hown, hs, -, hp, hden⟩ := hj
  have hs₁ : w₁.storageAt k = some s := by
    rw [hw₁]
    exact hs
  refine ⟨w₁, (w₁.invalidated Arena.reset k s).setError a y .ok, { x with owner := none }, p,
    hmove, ?_, ?_, ?_, ?_⟩
  · rw [CppCall.run, ha₁]
    show cppInvalidate Arena.reset a y w₁ = _
    rw [cppInvalidate, hshared, hown]
    simp [hs₁]
  · rw [valueAt_eq_some, CppState.setError, setObject_ne]
    · exact valueAt_eq_some.mp hsrc₁
    · rintro rfl
      rw [valueAt_eq_some, arenaAt_eq_some.mp ha] at hsrc
      cases hsrc
  · rw [CppValue.get_borrowed rfl]
    exact congrArg some hp
  · have hhome : w₁.home p = some k := by
      rw [hw₁]
      exact hden.ok
    exact if_pos hhome

/-! ## Results -/

omit [CDouble D] in
/-- A value stands for one tree at most. -/
theorem CppValue.Means.unique {x : CppValue} {j j' : Json D} (h : x.Means w j)
    (h' : x.Means w j') : j = j' := by
  obtain ⟨k, -, p, -, -, -, hp, hj⟩ := h
  obtain ⟨k', -, p', -, -, -, hp', hj'⟩ := h'
  obtain rfl := Option.some.inj (hp.symm.trans hp')
  exact hj.denotes.unique hj'.denotes

omit [CDouble D] in
/-- A value shows one tree at most. -/
theorem CppValue.Shows.unique {x : CppValue} {j j' : Json D} (h : x.Shows w j)
    (h' : x.Shows w j') : j = j' := by
  obtain ⟨k, p, hp, hj⟩ := h
  obtain ⟨k', p', hp', hj'⟩ := h'
  obtain rfl := Option.some.inj (Option.some.inj (hp.symm.trans hp'))
  exact hj.denotes.unique hj'.denotes

/-- A value that a call made: it is empty, or shows the tree at its pointer. -/
theorem CppMade.returned {ws : List CppAddr} {dst : CppAddr} {value : Option JsonPtr}
    {owner : Option StoragePtr} (h : CppMade w w' n ws dst value owner) :
    ∃ y, w'.valueAt dst = some y ∧ (value = none → y.get w' = some none) ∧
      ∀ k p (j : Json D), value = some p → DenotesIn (w'.In k) w'.heap j p → y.Shows w' j := by
  obtain ⟨y, hy, hval, hown, hlive⟩ := h.made
  have hget : y.get w' = some value := by
    cases hk : y.owner with
    | none => rw [CppValue.get_borrowed hk, hval]
    | some k =>
      obtain ⟨s, hs, hgen⟩ := hlive k (hown ▸ hk)
      rw [CppValue.get_owned hk hs, if_pos hgen, hval]
  refine ⟨y, hy, ?_, ?_⟩
  · rintro rfl
    exact hget
  · rintro k p j rfl hj
    exact ⟨k, p, hget, hj⟩

/-- Where no storage is lost and no generation ends, a value keeps its tree, and gets no other. -/
theorem CppOk.means_iff {t : Option StoragePtr} (h : CppOk w n t) (hk : w.Keeps w' none)
    {a : CppAddr} {x : CppValue} (ha : w.valueAt a = some x)
    (hlive : ∀ k, x.owner = some k → ∃ s, w'.storageAt k = some s) (j : Json D) :
    x.Means w' j ↔ x.Means w j := by
  have hforth : ∀ j : Json D, x.Means w j → x.Means w' j := by
    intro j hj
    obtain ⟨k, hown⟩ : ∃ k, x.owner = some k := by
      obtain ⟨k, s, p, hown, -⟩ := hj
      exact ⟨k, hown⟩
    exact hj.keeps hk (by rw [hown]; exact Option.some_ne_none k) hlive
  refine ⟨?_, hforth j⟩
  intro hj
  obtain ⟨k, s', p, hown, hs', hgen, hp, -⟩ := id hj
  obtain ⟨s, hs⟩ := h.owner (valueAt_eq_some.mp ha) hown
  obtain ⟨s₀, hs₀, hsame⟩ := hk.back k s' (lt_of_storageAt hs) hs'
  obtain rfl := Option.some.inj (hs.symm.trans hs₀)
  have hgen₀ := (hsame (Option.some_ne_none k)).symm.trans hgen
  have hok := h.value a x ha
  obtain ⟨j₀, hj₀⟩ := (hok.tree p hp).2 k (hok.fresh k s p hown hs hgen₀ hp)
  have hmeans : x.Means w j₀ := ⟨k, s, p, hown, hs, hgen₀, hp, hj₀⟩
  rwa [← (hforth j₀ hmeans).unique hj]

namespace CppCall

/-- Where the value is made that a function of the library leads to. -/
def returns : CppCall → Option CppAddr
  | .parse _ dst _ | .parseReplace _ dst _ | .clone _ dst _ => some dst
  | .at dst _ _ | .obj dst _ _ => some dst
  | _ => none

/-- What that value may show. -/
def Result (w : CppState D) (j : Json D) : CppCall → Prop
  | .parse _ _ input | .parseReplace _ _ input => JsonText input j
  | .clone _ _ v => ∃ x, w.valueAt v = some x ∧ x.Shows w j
  | .at _ v index => ∃ x j₀, w.valueAt v = some x ∧ x.Shows w j₀ ∧ j₀.Item index.toNat j
  | .obj _ v key => ∃ x j₀, w.valueAt v = some x ∧ x.Shows w j₀ ∧ j₀.Member key j
  | _ => False

/-- A lookup, which needs no memory. -/
def LooksUp : CppCall → Prop
  | .at .. | .obj .. => True
  | _ => False

/-- Where a value is copied or moved to, and from where. -/
def passes : CppCall → Option (CppAddr × CppAddr)
  | .copyValue dst src | .moveValue dst src => some (dst, src)
  | .copyAssign dst src | .moveAssign dst src => some (dst, src)
  | _ => none

end CppCall

/-- What `Value::at` and `Value::obj` return. -/
theorem CppOk.childResult (h : CppOk w n none) {dst v : CppAddr} (hdst : w.objects dst = none)
    {x : CppValue} (hv : w.valueAt v = some x)
    (hx : x.owner = none → ∀ p, x.value = some p → (w.home p).isSome)
    (lookup : Heap D → JsonPtr → Scan JsonPtr)
    (hfinds : ∀ p, p < w.heap.next → w.heap.FindsChild p (lookup w.heap p))
    (entry : Json D → Json D → Prop)
    (hentry : ∀ k j p, DenotesIn (w.In k) w.heap j p →
      Finds (w.In k) w.heap (entry j) (lookup w.heap p)) :
    ∃ w' y, x.child lookup dst w = some w' ∧ w'.valueAt dst = some y ∧
      (∀ j, y.Shows w' j → ∃ j₀, x.Shows w j₀ ∧ entry j₀ j) ∧
      ((∃ j : Json D, y.Shows w' j) ∨ y.get w' = some none) ∧
      ∀ j₀ j, x.Shows w j₀ → entry j₀ j → ∃ j : Json D, y.Shows w' j := by
  obtain ⟨w', hrun, ⟨hmade, hempty⟩ | ⟨k, p, j₀, out, hget, hj₀, -, hout, hmade, hhome⟩⟩ :=
    h.child hdst hv hx lookup hfinds
  · obtain ⟨y, hy, hnone, -⟩ := hmade.returned
    refine ⟨w', y, hrun, hy, ?_, .inr (hnone rfl), ?_⟩
    · intro j hj
      exact absurd hj (CppValue.not_shows (hnone rfl) j)
    · intro j₀ j hj₀ hj
      rcases hempty with hnone | ⟨k, p, j₁, e, hget, hj₁, herr⟩
      · exact absurd hj₀ (CppValue.not_shows hnone j₀)
      · obtain rfl := hj₀.unique ⟨k, p, hget, hj₁⟩
        obtain ⟨out, hout⟩ := (hentry k j₀ p hj₁).complete j hj
        rw [herr] at hout
        cases hout
  · obtain ⟨y, hy, -, hsome⟩ := hmade.returned
    obtain ⟨j, hj, hden⟩ := (hentry k j₀ p hj₀).sound out hout
    have hyj : y.Shows w' j := hsome k out j rfl
      (hmade.keeps.tree k j out (h.home out k hden.ok).1 (by rw [hhome]; exact hden.ok) hden)
    refine ⟨w', y, hrun, hy, ?_, .inl ⟨j, hyj⟩, fun _ _ _ _ => ⟨j, hyj⟩⟩
    intro j' hj'
    rw [← hyj.unique hj']
    exact ⟨j₀, ⟨k, p, hget, hj₀⟩, hj⟩

/-- What `Arena::parse` returns. -/
theorem CppOk.parseResult (h : CppOk w n none) {a dst : CppAddr} {x : CppArena}
    {input : List UInt8} (ha : w.arenaAt a = some x) (hdst : w.objects dst = none)
    (hlen : input.length ≤ ptrdiffMax) :
    ∃ w' y, cppParse a x dst input w = some w' ∧ w'.valueAt dst = some y ∧
      (∀ j, y.Shows w' j → JsonText input j) ∧
      ((∃ j : Json D, y.Shows w' j) ∨ y.get w' = some none) := by
  obtain ⟨w', value, e, hrun, hmade, -, hres⟩ := h.parse ha hdst hlen
  obtain ⟨y, hy, hnone, hsome⟩ := hmade.returned
  refine ⟨w', y, hrun, hy, ?_⟩
  rcases hres with ⟨hempty, -⟩ | ⟨-, k, p, j, -, hval, htext, hden⟩
  · exact ⟨fun j hj => absurd hj (CppValue.not_shows (hnone hempty) j), .inr (hnone hempty)⟩
  · have hj := hsome k p j hval hden
    refine ⟨?_, .inl ⟨j, hj⟩⟩
    intro j' hj'
    rwa [← hj.unique hj']

/-- **What calls return.**  The value that a call of the library leads to is empty, or it shows
what it should: the text that was parsed, the tree that was copied, the entry that was looked
up.  An entry that is there is found. -/
theorem cpp_results {B : CppBacking} {n : ℕ} {w : CppState D} (hrun : CppRun B n w) (c : CppCall)
    (hfits : c.Fits w) (hn : n + c.resets < 2 ^ 64) {dst : CppAddr} (hdst : c.returns = some dst) :
    ∃ w' y, c.run B w = some w' ∧ w'.valueAt dst = some y ∧
      (∀ j, y.Shows w' j → c.Result w j) ∧
      ((∃ j : Json D, y.Shows w' j) ∨ y.get w' = some none) ∧
      (c.LooksUp → ∀ j : Json D, c.Result w j → ∃ j : Json D, y.Shows w' j) := by
  have h := hrun.ok (lt_of_le_of_lt (Nat.le_add_right ..) hn)
  cases c with
  | parse a dst input =>
    obtain rfl := Option.some.inj hdst
    obtain ⟨⟨x, ha⟩, hfree, hlen⟩ := hfits
    obtain ⟨w', y, hcall, hy, hres, hempty⟩ := h.parseResult ha hfree hlen
    refine ⟨w', y, ?_, hy, hres, hempty, False.elim⟩
    rw [CppCall.run, ha]
    exact hcall
  | parseReplace a dst input =>
    obtain rfl := Option.some.inj hdst
    obtain ⟨⟨x, ha⟩, hfree, hlen⟩ := hfits
    obtain ⟨w₁, hrun₁, hok₁, -, hothers₁, ha₁, -⟩ := h.invalidate ha hn Arena.reset
    have hne := ne_of_free hfree (arenaAt_eq_some.mp ha)
    have hfree₁ : w₁.objects dst = none := (hothers₁ dst (by simpa using hne)).trans hfree
    obtain ⟨w', y, hcall, hy, hres, hempty⟩ := hok₁.parseResult ha₁ hfree₁ hlen
    refine ⟨w', y, ?_, hy, hres, hempty, False.elim⟩
    rw [CppCall.run, ha]
    show (do
      let w ← cppInvalidate Arena.reset a x w
      cppParse a (← w.arenaAt a) dst input w : Option (CppState D)) = _
    rw [hrun₁]
    show (do cppParse a (← w₁.arenaAt a) dst input w₁ : Option (CppState D)) = _
    rw [ha₁]
    exact hcall
  | clone a dst v =>
    obtain rfl := Option.some.inj hdst
    obtain ⟨⟨x, ha⟩, hfree, x₀, hv, hx₀⟩ := hfits
    obtain ⟨w', value, e, hcall, hmade, -, -, hres⟩ := h.clone ha hfree hv hx₀
    obtain ⟨y, hy, hnone, hsome⟩ := hmade.returned
    refine ⟨w', y, ?_, hy, ?_, ?_, False.elim⟩
    · rw [CppCall.run, ha, hv]
      exact hcall
    · intro j hj
      cases hval : value with
      | none => exact absurd hj (CppValue.not_shows (hnone hval) j)
      | some p =>
        obtain ⟨k, j₀, -, hshows, hden⟩ := hres p hval
        rw [(hsome k p j₀ hval hden).unique hj] at hshows
        exact ⟨x₀, hv, hshows⟩
    · cases hval : value with
      | none => exact .inr (hnone hval)
      | some p =>
        obtain ⟨k, j₀, -, -, hden⟩ := hres p hval
        exact .inl ⟨j₀, hsome k p j₀ hval hden⟩
  | «at» dst v index =>
    obtain rfl := Option.some.inj hdst
    obtain ⟨hfree, x, hv, hx⟩ := hfits
    obtain ⟨w', y, hcall, hy, hsound, hempty, hcomplete⟩ := h.childResult hfree hv hx
      (fun h p => jsonArrGet h p index.toNat) (fun p _ => jsonArrGet_findsChild ..)
      (Json.Item index.toNat) (fun k j p hj => jsonArrGet_item hj _)
    refine ⟨w', y, ?_, hy, ?_, hempty, ?_⟩
    · rw [CppCall.run, hv]
      exact hcall
    · intro j hj
      obtain ⟨j₀, hj₀, hitem⟩ := hsound j hj
      exact ⟨x, j₀, hv, hj₀, hitem⟩
    · rintro - j ⟨x', j₀, hx', hj₀, hitem⟩
      obtain rfl := Option.some.inj (hv.symm.trans hx')
      exact hcomplete j₀ j hj₀ hitem
  | obj dst v key =>
    obtain rfl := Option.some.inj hdst
    obtain ⟨hfree, x, hv, hx⟩ := hfits
    have hrep := h.heap.repOk
    obtain ⟨w', y, hcall, hy, hsound, hempty, hcomplete⟩ := h.childResult hfree hv hx
      (fun h p => jsonObjGetN h p key) (fun p hp => jsonObjGetN_findsChild hrep hp key)
      (Json.Member key)
      (fun k j p hj => jsonObjGetN_member hrep (h.home p k hj.ok).1 hj key)
    refine ⟨w', y, ?_, hy, ?_, hempty, ?_⟩
    · rw [CppCall.run, hv]
      exact hcall
    · intro j hj
      obtain ⟨j₀, hj₀, hmember⟩ := hsound j hj
      exact ⟨x, j₀, hv, hj₀, hmember⟩
    · rintro - j ⟨x', j₀, hx', hj₀, hmember⟩
      obtain rfl := Option.some.inj (hv.symm.trans hx')
      exact hcomplete j₀ j hj₀ hmember
  | _ => cases hdst

/-- The first item of the array that `[true]` is parsed to. -/
theorem cpp_results_item : ∃ (_ : CDouble Unit) (B : CppBacking) (w w' : CppState Unit)
    (y : CppValue), (CppCall.at 2 1 0).run B w = some w' ∧ w'.valueAt 2 = some y ∧
      y.Shows w' (.bool true) := by
  obtain ⟨hD, B, w, x, hrun, -, hv, hown, hj, hfree⟩ := CppRun.exists_parsed
  have husable : w.Usable 1 := ⟨x, hv, fun hnone => by rw [hown] at hnone; cases hnone⟩
  obtain ⟨w', y, hcall, hy, hsound, -, hcomplete⟩ :=
    cpp_results hrun (.at 2 1 0) ⟨hfree, husable⟩ (by decide) rfl
  obtain ⟨j, hyj⟩ := hcomplete trivial (.bool true) ⟨x, _, hv, hj.shows, _, rfl, rfl⟩
  obtain ⟨x', j₀, hx', hj₀, items, rfl, hitem⟩ := hsound j hyj
  obtain rfl := Option.some.inj (hv.symm.trans hx')
  obtain rfl : [.bool true] = items := Json.arr.inj (hj.shows.unique hj₀)
  obtain rfl : .bool true = j := Option.some.inj hitem
  exact ⟨hD, B, w, w', y, hcall, hy, hyj⟩

/-! ## Copies -/

omit [CDouble D] in
/-- Giving up a pointer changes no object. -/
theorem CppState.objects_release {o : Option StoragePtr} (h : w.release o = some w') :
    w'.objects = w.objects := by
  cases o with
  | none => exact congrArg CppState.objects (Option.some.inj h).symm
  | some k =>
    rw [CppState.release, Option.bind_eq_bind, Option.bind_eq_some_iff] at h
    obtain ⟨s, hs, hrest⟩ := h
    by_cases hlast : s.useCount - 1 = 0
    · rw [if_pos hlast, destroyStorage, hs, Option.bind_eq_bind, Option.bind_some] at hrest
      obtain ⟨m, -, heq⟩ := Option.bind_eq_some_iff.mp hrest
      rw [← Option.some.inj heq]
      rfl
    · rw [if_neg hlast] at hrest
      rw [← Option.some.inj hrest]
      rfl

omit [CDouble D] in
theorem CppState.valueAt_set (w : CppState D) (a : CppAddr) (x : CppValue) :
    (w.setObject a (.value x)).valueAt a = some x :=
  valueAt_eq_some.mpr (setObject_self ..)

/-- **Values are passed on.**  Copied or moved, also over another value, and even if that was
the last one to share its own storage, a value stands for the tree that it stood for. -/
theorem cppValue_passed {B : CppBacking} {n : ℕ} {w : CppState D} (hrun : CppRun B n w)
    (hn : n < 2 ^ 64) (c : CppCall) (hfits : c.Fits w) {dst src : CppAddr}
    (hpasses : c.passes = some (dst, src)) {x : CppValue} (hsrc : w.valueAt src = some x) :
    ∃ w', c.run B w = some w' ∧ w'.valueAt dst = some x ∧
      ∀ j : Json D, x.Means w' j ↔ x.Means w j := by
  have h := hrun.ok hn
  have hinvalidates : c.invalidates = none := by
    cases c <;> first | rfl | cases hpasses
  have hresets : c.resets = 0 := by
    rw [CppCall.resets, hinvalidates]
    rfl
  have hempties : c.empties w = none := by
    rw [CppCall.empties, hinvalidates]
    rfl
  obtain ⟨w', hcall, hstep⟩ := h.call B c hfits (by omega)
  have hdst : w'.valueAt dst = some x := by
    cases c with
    | copyValue dst' src' =>
      cases hpasses
      rw [CppCall.run, hsrc, Option.bind_eq_bind, Option.bind_some] at hcall
      obtain ⟨w₁, -, heq⟩ := Option.bind_eq_some_iff.mp hcall
      rw [← Option.some.inj heq]
      exact valueAt_set ..
    | moveValue dst' src' =>
      cases hpasses
      rw [CppCall.run, hsrc] at hcall
      rw [← Option.some.inj hcall]
      exact valueAt_set ..
    | copyAssign dst' src' =>
      cases hpasses
      obtain ⟨⟨old, hold⟩, -⟩ := hfits
      rw [CppCall.run, hsrc, hold, Option.bind_eq_bind, Option.bind_some, Option.bind_eq_bind,
        Option.bind_some] at hcall
      obtain ⟨w₁, -, heq⟩ := Option.bind_eq_some_iff.mp hcall
      rw [valueAt_eq_some, objects_release heq, ← valueAt_eq_some]
      exact valueAt_set ..
    | moveAssign dst' src' =>
      cases hpasses
      obtain ⟨⟨old, hold⟩, -⟩ := hfits
      rw [CppCall.run, hsrc, hold] at hcall
      change (if dst = src then _ else _) = _ at hcall
      by_cases hsame : dst = src
      · rw [if_pos hsame] at hcall
        rw [← Option.some.inj hcall, hsame]
        exact hsrc
      · rw [if_neg hsame] at hcall
        rw [valueAt_eq_some, objects_release hcall, ← valueAt_eq_some]
        exact valueAt_set ..
    | _ => cases hpasses
  refine ⟨w', hcall, hdst, h.means_iff (hempties ▸ hstep.keeps) hsrc ?_⟩
  exact fun k hown => hstep.ok.owner (valueAt_eq_some.mp hdst) hown

/-- A copy of the value that `[true]` is parsed to. -/
theorem cppValue_passed_copy : ∃ (_ : CDouble Unit) (B : CppBacking) (w w' : CppState Unit)
    (x : CppValue), (CppCall.copyValue 2 1).run B w = some w' ∧ w'.valueAt 2 = some x ∧
      x.Means w' (.arr [.bool true]) := by
  obtain ⟨hD, B, w, x, hrun, -, hv, -, hj, hfree⟩ := CppRun.exists_parsed
  obtain ⟨w', hcall, hx, hmeans⟩ :=
    cppValue_passed hrun (by decide) (.copyValue 2 1) ⟨hfree, x, hv⟩ rfl hv
  exact ⟨hD, B, w, w', x, hcall, hx, (hmeans _).mpr hj⟩

/-! ## Serializing -/

omit [CDouble D] in
/-- The order of the pairs in what is written. -/
def JsonWriteOpts.Orders (opts : JsonWriteOpts) (j j' : Json D) : Prop :=
  if opts.sortKeys then j.Arranged j' else j' = j

/-- The text of a tree that can be written. -/
theorem Denotes.ordered {h : Heap D} {j : Json D} {p : JsonPtr} (hj : Denotes h j p)
    (hlevels : j.levels ≤ jsonMaxDepth) (opts : JsonWriteOpts) :
    ∃ j', opts.Orders j j' ∧ h.rendering opts p = j'.render opts ∧
      (h.rendering opts p).length = (j.render opts).length := by
  have hlen : (h.rendering opts p).length = (j.render opts).length := by
    rw [length_rendering h false, hj.unfold hlevels]
  unfold JsonWriteOpts.Orders
  cases hsort : opts.sortKeys with
  | false => exact ⟨j, rfl, hj.rendering hlevels hsort, hlen⟩
  | true =>
    have harranged := arranged_unfold h jsonMaxDepth p
    rw [hj.unfold hlevels] at harranged
    exact ⟨_, harranged, by rw [Heap.rendering, hsort], hlen⟩

/-- **What is serialized** is the text of the tree, and never anything else.  There is one if
the tree is not too deep and its doubles have texts; an empty value has none. -/
theorem cpp_serialize {B : CppBacking} {n : ℕ} {w : CppState D} (hrun : CppRun B n w)
    (hn : n < 2 ^ 64) {v : CppAddr} {x : CppValue} (hv : w.valueAt v = some x)
    (hx : w.Usable v) (options : Option JsonWriteOpts) (makeString : ℕ → Option CppThrown)
    (sortMem : ℕ → Bool) :
    ∃ r, x.serialize options makeString sortMem w = some r ∧
      ((∀ j : Json D, ¬ x.Shows w j) → r = .error (.runtimeError .nullParam)) ∧
      ∀ j : Json D, x.Shows w j → (j.render (options.getD kDefaultOpts)).length < sizeMax →
        makeString ((j.render (options.getD kDefaultOpts)).length + 1) = none →
        (∀ k, sortMem k = true) ∨ (options.getD kDefaultOpts).sortKeys = false →
        (j.levels ≤ jsonMaxDepth ∧ j.Printable → ∃ j', (options.getD kDefaultOpts).Orders j j' ∧
          r = .ok (j'.render (options.getD kDefaultOpts))) ∧
        (¬ (j.levels ≤ jsonMaxDepth ∧ j.Printable) →
          ∃ e, e ≠ .ok ∧ r = .error (.runtimeError e)) := by
  have h := hrun.ok hn
  have hrep := h.heap.repOk
  obtain ⟨x', hx', husable⟩ := hx
  obtain rfl := Option.some.inj (hv.symm.trans hx')
  set opts := options.getD kDefaultOpts with hopts
  rcases h.get hv husable with hget | ⟨k, s, p, j, -, -, hj, hget, -⟩
  · refine ⟨.error (.runtimeError .nullParam), ?_, fun _ => rfl, ?_⟩
    · rw [CppValue.serialize, hget]
      rfl
    · intro j hj
      exact absurd hj (CppValue.not_shows hget j)
  have hlt : p < w.heap.next := (h.home p k hj.ok).1
  have hshows : x.Shows w j := ⟨k, p, hget, hj⟩
  have hwritable : w.heap.Writable jsonMaxDepth p ↔ j.levels ≤ jsonMaxDepth ∧ j.Printable :=
    hj.denotes.ends_iff
  obtain ⟨e, size, hmeasure, -⟩ := jsonMeasure_codes hrep hlt opts
  obtain ⟨r, hr, -, -⟩ := jsonWrite_safe hrep hlt (fun _ => 0) (size + 1) opts sortMem
  have hserialize : x.serialize options makeString sortMem w = some (
      if e ≠ .ok then .error (.runtimeError e)
      else if size = sizeMax then .error .lengthError
      else (makeString (size + 1)).elim
        (if r.status ≠ .ok then .error (.runtimeError r.status) else .ok r.bytes) .error) := by
    unfold CppValue.serialize
    rw [hget]
    simp only [Option.bind_eq_bind, Option.bind_some, nodesOf_eq hj.ok, ← hopts, hmeasure]
    by_cases he : e = .ok
    · by_cases hsize : size = sizeMax
      · simp [he, hsize]
      · cases hstring : makeString (size + 1) with
        | some thrown => simp [he, hsize]
        | none =>
          by_cases hstatus : r.status = .ok
          · simp [he, hsize, hr, hstatus, Written.bytes]
          · simp [he, hsize, hr, hstatus]
    · simp [he]
  refine ⟨_, hserialize, fun hno => absurd hshows (hno j), ?_⟩
  intro j' hj' hfit hstring hmem
  obtain rfl := hshows.unique hj'
  constructor
  · intro hgood
    obtain ⟨j', horders, hrender, hlen⟩ := hj.denotes.ordered hgood.1 opts
    have hw := hwritable.mpr hgood
    rw [jsonMeasure_of_writable hrep hlt hw (by omega)] at hmeasure
    obtain ⟨rfl, rfl⟩ : JsonError.ok = e ∧ (w.heap.rendering opts p).length = size := by
      simpa using hmeasure
    have hholds : r.Holds (fun _ => 0) (w.heap.rendering opts p) := by
      obtain ⟨r', hr', hholds⟩ := jsonWrite_of_writable opts hrep hlt hw (c := _ + 1)
        (Nat.lt_succ_self _) (by omega) (fun _ => 0) (fun _ => rfl : ∀ k, (fun _ => true) k = true)
      have hsame : jsonWrite w.heap p (fun _ => 0) ((w.heap.rendering opts p).length + 1) opts
          sortMem = jsonWrite w.heap p (fun _ => 0) ((w.heap.rendering opts p).length + 1) opts
          fun _ => true := by
        rcases hmem with hall | hsort
        · rw [show sortMem = fun _ => true from funext hall]
        · exact jsonWrite_sortMem hsort ..
      obtain rfl : r' = r := Except.ok.inj (hr'.symm.trans (hsame.symm.trans hr))
      exact hholds
    refine ⟨j', horders, ?_⟩
    rw [if_neg (not_not.mpr rfl), if_neg (by omega), hlen, hstring, Option.elim_none,
      if_neg (not_not.mpr hholds.status), hholds.bytes_eq, hrender]
  · intro hbad
    have he : e ≠ .ok := by
      rintro rfl
      exact hbad (hwritable.mp (jsonMeasure_ok hmeasure))
    exact ⟨e, he, if_pos he⟩

/-- The value that `[true]` is parsed to is serialized to that text. -/
theorem cpp_serialize_true : ∃ (_ : CDouble Unit) (w : CppState Unit) (x : CppValue),
    w.valueAt 1 = some x ∧ x.serialize none (fun _ => none) (fun _ => true) w
      = some (.ok [0x5B, 0x74, 0x72, 0x75, 0x65, 0x5D]) := by
  obtain ⟨hD, B, w, x, hrun, -, hv, hown, hj, -⟩ := CppRun.exists_parsed
  have husable : w.Usable 1 := ⟨x, hv, fun hnone => by rw [hown] at hnone; cases hnone⟩
  obtain ⟨r, hr, -, hgood⟩ := cpp_serialize hrun (by decide) hv husable none (fun _ => none)
    (fun _ => true)
  have hrender : (.arr [.bool true] : Json Unit).render kDefaultOpts
      = [0x5B, 0x74, 0x72, 0x75, 0x65, 0x5D] := by rfl
  have hfit : ((.arr [.bool true] : Json Unit).render kDefaultOpts).length < sizeMax := by
    rw [hrender]
    decide
  obtain ⟨j', horders, rfl⟩ := (hgood _ hj.shows hfit rfl (.inl fun _ => rfl)).1
    ⟨by decide, trivial, trivial⟩
  obtain rfl : j' = .arr [.bool true] := horders
  refine ⟨hD, w, x, hv, ?_⟩
  rw [hr]
  exact congrArg (fun text => some (Except.ok text)) hrender

end Runs

end SJson
