/-
# The calls of the C++ layer

Each call, where the client may make it, goes through and keeps the invariant
(`CppOk.call`).  It changes the objects it is told to change only, and no value stands for
another tree afterwards, except that resetting or trimming an arena starts a new generation
(`CppStep`).
-/
import SJson.CppInvariant
import SJson.Entries
import SJson.Frame
import SJson.LookupSpec
import SJson.ObjectMap
import SJson.ParserAppend
import SJson.Rendering
import SJson.Traversal

namespace SJson

open RefCount Function CppState ErrState

variable {D : Type}

/-! ## What the client does -/

/-- A value that the client may read: if it shares no storage, as one that was moved from or
made of a native handle, the memory that it points to was not given up. -/
def CppState.Usable (w : CppState D) (v : CppAddr) : Prop :=
  ∃ x, w.valueAt v = some x ∧ (x.owner = none → ∀ p, x.value = some p → (w.home p).isSome)

namespace CppCall

/-- Objects are used where they are, and made where none is; texts are no longer than an
object in memory can be. -/
def Fits (w : CppState D) : CppCall → Prop
  | .newArena a _ => w.objects a = none
  | .moveArena dst src => w.objects dst = none ∧ ∃ x, w.arenaAt src = some x
  | .assignArena dst src => (∃ x, w.arenaAt dst = some x) ∧ ∃ x, w.arenaAt src = some x
  | .destroyArena a => ∃ x, w.arenaAt a = some x
  | .reset a => ∃ x, w.arenaAt a = some x
  | .trim a => ∃ x, w.arenaAt a = some x
  | .parse a dst input =>
    (∃ x, w.arenaAt a = some x) ∧ w.objects dst = none ∧ input.length ≤ ptrdiffMax
  | .parseReplace a dst input =>
    (∃ x, w.arenaAt a = some x) ∧ w.objects dst = none ∧ input.length ≤ ptrdiffMax
  | .clone a dst v => (∃ x, w.arenaAt a = some x) ∧ w.objects dst = none ∧ w.Usable v
  | .finalize a v => (∃ x, w.arenaAt a = some x) ∧ w.Usable v
  | .newValue dst => w.objects dst = none
  | .borrow dst v => w.objects dst = none ∧ ∃ x, w.valueAt v = some x
  | .copyValue dst src => w.objects dst = none ∧ ∃ x, w.valueAt src = some x
  | .moveValue dst src => w.objects dst = none ∧ ∃ x, w.valueAt src = some x
  | .copyAssign dst src => (∃ x, w.valueAt dst = some x) ∧ ∃ x, w.valueAt src = some x
  | .moveAssign dst src => (∃ x, w.valueAt dst = some x) ∧ ∃ x, w.valueAt src = some x
  | .destroyValue v => ∃ x, w.valueAt v = some x
  | .at dst v _ => w.objects dst = none ∧ w.Usable v
  | .obj dst v _ => w.objects dst = none ∧ w.Usable v

/-- The objects that a call makes, changes or destroys. -/
def writes : CppCall → List CppAddr
  | .newArena a _ => [a]
  | .moveArena dst src => [dst, src]
  | .assignArena dst src => [dst, src]
  | .destroyArena a => [a]
  | .reset a => [a]
  | .trim a => [a]
  | .parse a dst _ => [a, dst]
  | .parseReplace a dst _ => [a, dst]
  | .clone a dst _ => [a, dst]
  | .finalize a _ => [a]
  | .newValue dst => [dst]
  | .borrow dst _ => [dst]
  | .copyValue dst _ => [dst]
  | .moveValue dst src => [dst, src]
  | .copyAssign dst _ => [dst]
  | .moveAssign dst src => [dst, src]
  | .destroyValue v => [v]
  | .at dst _ _ => [dst]
  | .obj dst _ _ => [dst]

/-- The arena that a call resets or trims. -/
def invalidates : CppCall → Option CppAddr
  | .reset a => some a
  | .trim a => some a
  | .parseReplace a _ _ => some a
  | _ => none

/-- The storage whose values a call empties. -/
def empties (w : CppState D) (c : CppCall) : Option StoragePtr :=
  c.invalidates.bind fun a => (w.arenaAt a).bind CppArena.owner

/-- How often a call resets or trims an arena. -/
def resets (c : CppCall) : ℕ := if c.invalidates.isSome then 1 else 0

end CppCall

/-! ## Values -/

section Steps

variable [CDouble D] {w w' : CppState D} {n : ℕ} {t : Option StoragePtr} {k : StoragePtr}
  {s : Storage}

omit [CDouble D] in
/-- `Value::get` in a storage that is there. -/
theorem CppValue.get_owned {x : CppValue} (hown : x.owner = some k)
    (hs : w.storageAt k = some s) :
    x.get w = some (if s.generation = x.generation then x.value else none) := by
  unfold CppValue.get
  rw [hown]
  show (do
    let s ← w.storageAt k
    return if s.generation = x.generation then x.value else none : Option (Option JsonPtr)) = _
  rw [hs]
  rfl

omit [CDouble D] in
theorem CppValue.get_borrowed {x : CppValue} (hown : x.owner = none) :
    x.get w = some x.value := by
  unfold CppValue.get
  rw [hown]

omit [CDouble D] in
/-- A value without a pointer shows no tree. -/
theorem CppValue.not_shows {x : CppValue} (hget : x.get w = some none) (j : Json D) :
    ¬ x.Shows w j := by
  rintro ⟨k, p, hp, -⟩
  rw [hget] at hp
  cases hp

/-- A value that may be read is empty, or points to its tree. -/
theorem CppOk.get (h : CppOk w n t) {a : CppAddr} {x : CppValue} (ha : w.valueAt a = some x)
    (hx : x.owner = none → ∀ p, x.value = some p → (w.home p).isSome) :
    x.get w = some none ∨
    ∃ k s p j, w.storageAt k = some s ∧ x.value = some p ∧ DenotesIn (w.In k) w.heap j p ∧
      x.get w = some (some p) ∧ ∀ k', x.owner = some k' → k' = k := by
  have hok := h.value a x ha
  cases hp : x.value with
  | none =>
    left
    cases hown : x.owner with
    | none => rw [CppValue.get_borrowed hown, hp]
    | some k =>
      obtain ⟨s, hs⟩ := h.owner (valueAt_eq_some.mp ha) hown
      rw [CppValue.get_owned hown hs, hp, ite_self]
  | some p =>
    cases hown : x.owner with
    | none =>
      obtain ⟨k, hk⟩ := Option.isSome_iff_exists.mp (hx hown p hp)
      obtain ⟨j, hj⟩ := (hok.tree p hp).2 k hk
      obtain ⟨-, s, hs⟩ := h.home p k hk
      refine .inr ⟨k, s, p, j, hs, rfl, hj, ?_, fun k' hk' => by cases hk'⟩
      rw [CppValue.get_borrowed hown, hp]
    | some k =>
      obtain ⟨s, hs⟩ := h.owner (valueAt_eq_some.mp ha) hown
      rw [CppValue.get_owned hown hs]
      by_cases hgen : s.generation = x.generation
      · obtain ⟨j, hj⟩ := (hok.tree p hp).2 k (hok.fresh k s p hown hs hgen hp)
        refine .inr ⟨k, s, p, j, hs, rfl, hj, by rw [if_pos hgen, hp], fun k' hk' => ?_⟩
        exact (Option.some.inj hk').symm
      · exact .inl (by rw [if_neg hgen])

omit [CDouble D] in
theorem CppState.nodesOf_eq {p : JsonPtr} (hp : w.In k p) : w.nodesOf p = some w.heap := by
  have hhome : w.home p = some k := hp
  rw [nodesOf, hhome]
  rfl

/-- **A value is made.** -/
theorem CppOk.makeValue (h : CppOk w n none) {dst : CppAddr} (hdst : w.objects dst = none)
    (value : Option JsonPtr) {owner : Option StoragePtr}
    (howner : ∀ k, owner = some k → ∃ s, w.storageAt k = some s)
    (hvalue : ∀ p, value = some p → ∃ k, ∃ j : Json D, DenotesIn (w.In k) w.heap j p ∧
      ∀ k', owner = some k' → k' = k) :
    ∃ w' g, w.makeValue dst value owner = some w' ∧ CppOk w' n none ∧ w.Keeps w' none ∧
      w'.home = w.home ∧ w'.objects = update w.objects dst (some (.value ⟨value, owner, g⟩)) ∧
      ∀ k, owner = some k → ∃ s, w'.storageAt k = some s ∧ s.generation = g := by
  obtain ⟨w₁, hretain, hok, hkeeps, hhome, hobjects⟩ := h.retain howner
  obtain ⟨g, hg, hgen⟩ : ∃ g, w₁.generationOf owner = some g ∧
      ∀ k, owner = some k → ∃ s, w₁.storageAt k = some s ∧ s.generation = g := by
    cases owner with
    | none => exact ⟨0, rfl, fun k hk => (by cases hk)⟩
    | some k =>
      obtain ⟨s, hs⟩ := hok.held (a := none) rfl
      refine ⟨s.generation, by rw [generationOf, hs]; rfl, ?_⟩
      intro k' hk'
      obtain rfl := Option.some.inj hk'
      exact ⟨s, hs, rfl⟩
  have hval : ∀ v, CppObject.value ⟨value, owner, g⟩ = .value v → v.Ok w₁ := by
    rintro v heq
    obtain rfl := CppObject.value.inj heq
    have htree : ∀ p, value = some p → ∃ k, ∃ j : Json D, DenotesIn (w₁.In k) w₁.heap j p ∧
        ∀ k', owner = some k' → k' = k := by
      intro p hp
      obtain ⟨k, j, hj, howns⟩ := hvalue p hp
      exact ⟨k, j, hkeeps.tree k j p (h.home p k hj.ok).1 (by rw [hhome]; exact hj.ok) hj, howns⟩
    refine ⟨fun p hp => ?_, fun k s hown hs => ?_, fun k s p hown _ _ hp => ?_⟩
    · obtain ⟨k, j, hj, -⟩ := htree p hp
      refine ⟨(hok.home p k hj.ok).1, fun k' hk' => ?_⟩
      obtain rfl : k = k' := Option.some.inj (hj.ok.symm.trans hk')
      exact ⟨j, hj⟩
    · obtain ⟨s', hs', hsg⟩ := hgen k hown
      obtain rfl := Option.some.inj (hs.symm.trans hs')
      exact le_of_eq (congrArg UInt64.toNat hsg.symm)
    · obtain ⟨k', j, hj, howns⟩ := htree p hp
      obtain rfl := howns k hown
      exact hj.ok
  have hset := hok.setObject (a := dst) (o := .value ⟨value, owner, g⟩) rfl hval
  have hdst' : w₁.own owner (some dst) = none := by
    rw [own, hobjects, hdst]
    rfl
  rw [hdst'] at hset
  refine ⟨w₁.setObject dst (.value ⟨value, owner, g⟩), g, ?_, hset, ?_, hhome, ?_, hgen⟩
  · rw [CppState.makeValue, hretain]
    show (do
      let generation ← w₁.generationOf owner
      return w₁.setObject dst (.value ⟨value, owner, generation⟩) : Option (CppState D)) = _
    rw [hg]
    rfl
  · exact hkeeps.trans (.setObject ..)
  · rw [CppState.setObject, hobjects]

/-- **An empty value is made.** -/
theorem CppOk.makeEmpty (h : CppOk w n none) {dst : CppAddr} (hdst : w.objects dst = none) :
    CppOk (w.makeEmpty dst) n none := by
  have hset := h.setObject (a := dst) (o := .value ⟨none, none, 0⟩) rfl (by
    rintro v heq
    obtain rfl := CppObject.value.inj heq
    exact .of_empty rfl rfl)
  have hdst' : w.own none (some dst) = none := by
    rw [own, hdst]
    rfl
  rwa [hdst'] at hset

/-! ## Reading and making values -/

/-- What a call that returns a value leaves: the value is empty, or has this pointer into the
storage. -/
structure CppMade (w w' : CppState D) (n : ℕ) (writes : List CppAddr) (dst : CppAddr)
    (value : Option JsonPtr) (owner : Option StoragePtr) : Prop where
  ok : CppOk w' n none
  keeps : w.Keeps w' none
  others : ∀ a, a ∉ writes → w'.objects a = w.objects a
  made : ∃ x, w'.valueAt dst = some x ∧ x.value = value ∧ x.owner = owner ∧
    ∀ k, owner = some k → ∃ s, w'.storageAt k = some s ∧ s.generation = x.generation

theorem CppOk.made (h : CppOk w n none) {dst : CppAddr} (hdst : w.objects dst = none)
    (value : Option JsonPtr) (owner : Option StoragePtr)
    (howner : ∀ k, owner = some k → ∃ s, w.storageAt k = some s)
    (hvalue : ∀ p, value = some p → ∃ k, ∃ j : Json D, DenotesIn (w.In k) w.heap j p ∧
      ∀ k', owner = some k' → k' = k) :
    ∃ w', w.makeValue dst value owner = some w' ∧ CppMade w w' n [dst] dst value owner ∧
      w'.home = w.home := by
  obtain ⟨w', g, hmake, hok, hkeeps, hhome, hobjects, hgen⟩ :=
    h.makeValue hdst value howner hvalue
  refine ⟨w', hmake, ⟨hok, hkeeps, ?_, ⟨value, owner, g⟩, ?_, rfl, rfl, hgen⟩, hhome⟩
  · intro a ha
    rw [hobjects, update_of_ne (by simpa using ha)]
  · rw [valueAt_eq_some, hobjects, update_self]

theorem CppOk.madeEmpty (h : CppOk w n none) {dst : CppAddr} (hdst : w.objects dst = none) :
    CppMade w (w.makeEmpty dst) n [dst] dst none none where
  ok := h.makeEmpty hdst
  keeps := .setObject ..
  others _ ha := setObject_ne _ (by simpa using ha)
  made := ⟨_, valueAt_eq_some.mpr (setObject_self ..), rfl, rfl, fun _ hk => (by cases hk)⟩

/-- **`Value::at` and `Value::obj`** return an entry of the value, or an empty value. -/
theorem CppOk.child (h : CppOk w n none) {dst v : CppAddr} (hdst : w.objects dst = none)
    {x : CppValue} (hv : w.valueAt v = some x)
    (hx : x.owner = none → ∀ p, x.value = some p → (w.home p).isSome)
    (lookup : Heap D → JsonPtr → Scan JsonPtr)
    (hfinds : ∀ p, p < w.heap.next → w.heap.FindsChild p (lookup w.heap p)) :
    ∃ w', x.child lookup dst w = some w' ∧
      (CppMade w w' n [dst] dst none none ∧ (x.get w = some none ∨ ∃ k p j e,
          x.get w = some (some p) ∧ DenotesIn (w.In k) w.heap j p ∧
          lookup w.heap p = .error (.err e)) ∨
        ∃ k p j out, x.get w = some (some p) ∧ DenotesIn (w.In k) w.heap j p ∧
          (∀ k', x.owner = some k' → k' = k) ∧ lookup w.heap p = .ok out ∧
          CppMade w w' n [dst] dst (some out) x.owner ∧ w'.home = w.home) := by
  unfold CppValue.child
  rcases h.get hv hx with hget | ⟨k, s, p, j, hs, -, hj, hget, howns⟩
  · refine ⟨_, ?_, .inl ⟨h.madeEmpty hdst, .inl hget⟩⟩
    rw [hget]
    rfl
  · obtain ⟨hnofault, hchild⟩ := hfinds p (h.home p k hj.ok).1
    simp only [hget, nodesOf_eq hj.ok, Option.bind_eq_bind, Option.bind_some]
    cases hout : lookup w.heap p with
    | error e =>
      cases e with
      | fault f => exact absurd hout (hnofault f)
      | err e => exact ⟨_, rfl, .inl ⟨h.madeEmpty hdst, .inr ⟨k, p, j, e, rfl, hj, hout⟩⟩⟩
    | ok out =>
      obtain ⟨j', hj'⟩ := hj.child (hchild out hout)
      obtain ⟨w', hmake, hmade, hhome⟩ := h.made hdst (some out) x.owner
        (fun k' hk' => ⟨s, by rwa [howns k' hk']⟩)
        (fun p' hp' => by
          obtain rfl := Option.some.inj hp'
          exact ⟨k, j', hj', howns⟩)
      exact ⟨w', hmake, .inr ⟨k, p, j, out, rfl, hj, howns, hout, hmade, hhome⟩⟩

/-! ## Functions of the library -/

/-- **A function of the library on the arena of a storage**, that keeps what is there. -/
theorem CppOk.onArena (h : CppOk w n t) (hs : w.storageAt k = some s) {α : Type} {f : M D α}
    (hnofault : ∀ e st, f ⟨w.heap, s.arena⟩ = .error e st → ∃ code, e = .err code)
    (hapi : ApiHeap (stateAfter f ⟨w.heap, s.arena⟩).heap)
    (hext : w.heap.Extends (stateAfter f ⟨w.heap, s.arena⟩).heap) :
    ∃ r w' st, w.onArena k f = some (r, w') ∧ CppOk w' n t ∧ w.Keeps w' none ∧
      w'.objects = w.objects ∧ w'.heap = st.heap ∧
      (∀ p, w.heap.next ≤ p → p < st.heap.next → w'.In k p) ∧
      (∃ s', w'.storageAt k = some s') ∧
      ((∃ a, r = .ok a ∧ f ⟨w.heap, s.arena⟩ = .ok a st) ∨
        ∃ e, r = .error e ∧ f ⟨w.heap, s.arena⟩ = .error (.err e) st) := by
  obtain ⟨hok, hkeeps, hin, s', hs', -⟩ := h.worked hs hapi hext
  unfold CppState.onArena
  rw [hs]
  cases hf : f ⟨w.heap, s.arena⟩ with
  | ok a st =>
    rw [stateAfter_ok hf] at hok hkeeps hin hs'
    refine ⟨.ok a, w.worked k s st, st, ?_, hok, hkeeps, rfl, rfl, hin, ⟨s', hs'⟩,
      .inl ⟨a, rfl, rfl⟩⟩
    simp [hf]
  | error e st =>
    obtain ⟨code, rfl⟩ := hnofault e st hf
    have hst : stateAfter f ⟨w.heap, s.arena⟩ = st := by rw [stateAfter, hf]
    rw [hst] at hok hkeeps hin hs'
    refine ⟨.error code, w.worked k s st, st, ?_, hok, hkeeps, rfl, rfl, hin, ⟨s', hs'⟩,
      .inr ⟨code, rfl, rfl⟩⟩
    simp [hf]

/-- An error is noted. -/
theorem CppOk.setError (h : CppOk w n t) {a : CppAddr} {x : CppArena} (ha : w.arenaAt a = some x)
    (e : JsonError) : CppOk (w.setError a x e) n t := by
  refine h.setSame (arenaAt_eq_some.mp ha) rfl ?_
  intro v hv
  cases hv

/-- A value is made after an error was noted. -/
theorem CppOk.madeWithError (h : CppOk w n none) {a dst : CppAddr} {x : CppArena}
    (ha : w.arenaAt a = some x) (hdst : w.objects dst = none) (e : JsonError)
    (value : Option JsonPtr)
    (hvalue : ∀ p, value = some p → ∃ k, ∃ j : Json D, DenotesIn (w.In k) w.heap j p ∧
      ∀ k', x.owner = some k' → k' = k) :
    ∃ w', (w.setError a x e).makeValue dst value x.owner = some w' ∧
      CppMade w w' n [a, dst] dst value x.owner ∧
      w'.arenaAt a = some { x with lastError := e } := by
  have hobj := arenaAt_eq_some.mp ha
  have hne : dst ≠ a := by
    rintro rfl
    rw [hdst] at hobj
    cases hobj
  have hdst' : (w.setError a x e).objects dst = none := (setObject_ne _ hne).trans hdst
  obtain ⟨w', hmake, hmade, -⟩ := (h.setError ha e).made hdst' value x.owner
    (fun k hk => h.owner hobj hk) hvalue
  refine ⟨w', hmake, ⟨hmade.ok, ?_, ?_, hmade.made⟩, ?_⟩
  · exact CppState.Keeps.trans (.setObject ..) hmade.keeps
  · intro a' ha'
    rw [List.mem_cons, not_or] at ha'
    rw [hmade.others a' ha'.2]
    exact setObject_ne _ ha'.1
  · rw [arenaAt_eq_some, hmade.others a (by simpa using Ne.symm hne)]
    exact setObject_self ..

theorem CppMade.after {w₁ : CppState D} {ws : List CppAddr} {dst : CppAddr}
    {value : Option JsonPtr} {owner : Option StoragePtr} (h : CppMade w₁ w' n ws dst value owner)
    (hkeeps : w.Keeps w₁ none) (hobjects : w₁.objects = w.objects) :
    CppMade w w' n ws dst value owner where
  ok := h.ok
  keeps := hkeeps.trans h.keeps
  others a ha := (h.others a ha).trans (congrFun hobjects a)
  made := h.made

/-- A value is made for a tree in the memory of the arena. -/
theorem CppOk.madeTree (h : CppOk w n none) {a dst : CppAddr} {x : CppArena}
    (ha : w.arenaAt a = some x) (hdst : w.objects dst = none) (hown : x.owner = some k)
    {q : JsonPtr} {j : Json D} (hq : DenotesIn (w.In k) w.heap j q) :
    ∃ w', (w.setError a x .ok).makeValue dst (some q) (some k) = some w' ∧
      CppMade w w' n [a, dst] dst (some q) (some k) ∧
      w'.arenaAt a = some ⟨some k, .ok⟩ ∧ DenotesIn (w'.In k) w'.heap j q := by
  obtain ⟨w', hmake, hmade, hat⟩ := h.madeWithError ha hdst .ok (some q) (by
    intro p hp
    obtain rfl := Option.some.inj hp
    exact ⟨k, j, hq, fun k' hk' => Option.some.inj (hk'.symm.trans hown)⟩)
  rw [hown] at hmake hmade hat
  obtain ⟨y, -, -, -, hlive⟩ := hmade.made
  obtain ⟨s, hs⟩ := h.owner (arenaAt_eq_some.mp ha) hown
  obtain ⟨s', hs', -⟩ := hlive k rfl
  exact ⟨w', hmake, hmade, hat, hmade.keeps.denotes k s' j q (lt_of_storageAt hs) hs'
    (Option.some_ne_none k) hq⟩

/-- **`Arena::parse`**: a value that stands for the text, or an empty one. -/
theorem CppOk.parse (h : CppOk w n none) {a dst : CppAddr} {x : CppArena} {input : List UInt8}
    (ha : w.arenaAt a = some x) (hdst : w.objects dst = none) (hlen : input.length ≤ ptrdiffMax) :
    ∃ w' value e, cppParse a x dst input w = some w' ∧
      CppMade w w' n [a, dst] dst value x.owner ∧
      w'.arenaAt a = some { x with lastError := e } ∧
      ((value = none ∧ (x.owner = none → e = .nullParam)) ∨
        e = .ok ∧ ∃ k p j, x.owner = some k ∧ value = some p ∧ JsonText input j ∧
          DenotesIn (w'.In k) w'.heap j p) := by
  unfold cppParse
  cases hown : x.owner with
  | none =>
    obtain ⟨w', hmake, hmade, hat⟩ := h.madeWithError ha hdst .nullParam none fun _ hp => by
      cases hp
    rw [hown] at hmake hmade hat
    exact ⟨w', none, .nullParam, hmake, hmade, hat, .inl ⟨rfl, fun _ => rfl⟩⟩
  | some k =>
    obtain ⟨s, hs⟩ := h.owner (arenaAt_eq_some.mp ha) hown
    have hapi := ApiHeap.call (.parse input) s.arena h.heap (by simp [ApiCall.args])
    rw [ApiCall.run, stateAfter_map] at hapi
    have hext := (spares_jsonParse input (⟨w.heap, s.arena⟩ : St D)).stateAfter.extends
    have hnofault : ∀ e st, jsonParse input (⟨w.heap, s.arena⟩ : St D) = .error e st →
        ∃ code, e = .err code := by
      intro e st herr
      cases e with
      | err code => exact ⟨code, rfl⟩
      | fault f => exact absurd ((jsonParse_ensures input _).error herr) id
    obtain ⟨r, w₁, st, hrun, hok, hkeeps, hobjects, hheap, hin, -, hres⟩ :=
      h.onArena hs hnofault hapi hext
    have ha₁ : w₁.arenaAt a = some x := by
      rw [arenaAt_eq_some, hobjects]
      exact arenaAt_eq_some.mp ha
    have hdst₁ : w₁.objects dst = none := by rw [hobjects, hdst]
    simp only [hrun, Option.bind_eq_bind, Option.bind_some]
    rcases hres with ⟨root, rfl, hparse⟩ | ⟨e, rfl, hparse⟩
    · obtain ⟨j, href, hden⟩ := jsonParse_ref_or_oom hlen hparse
      have htext := (refParse_from_iff.mp href).1
      have hden' : DenotesIn (w₁.In k) w₁.heap j root := by
        rw [hheap]
        exact hden.congr fun q hq => ⟨hin q hq.1 hq.2, rfl⟩
      obtain ⟨w', hmake, hmade, hat, htree⟩ := hok.madeTree ha₁ hdst₁ hown hden'
      exact ⟨w', some root, .ok, hmake, hmade.after hkeeps hobjects, hat,
        .inr ⟨rfl, k, root, j, rfl, rfl, htext, htree⟩⟩
    · obtain ⟨w', hmake, hmade, hat⟩ := hok.madeWithError ha₁ hdst₁ e none (fun _ hp => by
        cases hp)
      rw [hown] at hmake hmade hat
      exact ⟨w', none, e, hmake, hmade.after hkeeps hobjects, hat,
        .inl ⟨rfl, fun hk => (by cases hk)⟩⟩

/-- A tree is copied into the arena of a storage. -/
theorem CppOk.onClone (h : CppOk w n t) (hs : w.storageAt k = some s) {k' : StoragePtr}
    {p : JsonPtr} {j : Json D} (hj : DenotesIn (w.In k') w.heap j p) :
    ∃ r w', w.onArena k (jsonClone p) = some (.ok r, w') ∧ CppOk w' n t ∧ w.Keeps w' none ∧
      w'.objects = w.objects ∧ ∀ q, r = some q → DenotesIn (w'.In k) w'.heap j q := by
  have hp : p < w.heap.next := (h.home p k' hj.ok).1
  obtain ⟨r, st, hclone, hr⟩ := jsonCloneAt_copies h.heap.repOk jsonMaxDepth p ⟨w.heap, s.arena⟩ hp
    (.refl ..)
  have hapi := ApiHeap.call (.clone p) s.arena h.heap (by simpa [ApiCall.args] using hp)
  rw [ApiCall.run] at hapi
  have hext : w.heap.Extends (stateAfter (jsonClone p) ⟨w.heap, s.arena⟩).heap :=
    Heap.Grows.extends (apiCall_grows (.clone p) ⟨w.heap, s.arena⟩)
  obtain ⟨r', w', st', hrun, hok, hkeeps, hobjects, hheap, hin, -, hres⟩ :=
    h.onArena hs (fun e st₀ herr => by
      rw [jsonClone, hclone] at herr
      cases herr) hapi hext
  obtain ⟨rfl, rfl⟩ : r' = .ok r ∧ st' = st := by
    rcases hres with ⟨r₀, rfl, hok'⟩ | ⟨e, rfl, herr⟩
    · rw [jsonClone, hclone] at hok'
      cases hok'
      exact ⟨rfl, rfl⟩
    · rw [jsonClone, hclone] at herr
      cases herr
  refine ⟨r, w', hrun, hok, hkeeps, hobjects, fun q hq => ?_⟩
  subst hq
  obtain ⟨hends, -, hden, -⟩ := hr
  have htree : w.heap.treeAt jsonMaxDepth p = j := hends.denotes.unique hj.denotes
  rw [htree] at hden
  rw [hheap]
  exact hden.congr fun q' hq' => ⟨hin q' hq'.1 hq'.2, rfl⟩

/-- **`Arena::clone`**: a value that stands for the same tree, or an empty one. -/
theorem CppOk.clone (h : CppOk w n none) {a dst v : CppAddr} {x : CppArena} {y : CppValue}
    (ha : w.arenaAt a = some x) (hdst : w.objects dst = none) (hv : w.valueAt v = some y)
    (hy : y.owner = none → ∀ p, y.value = some p → (w.home p).isSome) :
    ∃ w' value e, cppClone a x dst y w = some w' ∧
      CppMade w w' n [a, dst] dst value x.owner ∧
      w'.arenaAt a = some { x with lastError := e } ∧ (e = .ok ↔ value ≠ none) ∧
      ∀ p, value = some p → ∃ k j, x.owner = some k ∧ y.Shows w j ∧
        DenotesIn (w'.In k) w'.heap j p := by
  -- a copy that is not made
  have hempty : ∃ w', (w.setError a x .oom).makeValue dst none x.owner = some w' ∧
      CppMade w w' n [a, dst] dst none x.owner ∧
      w'.arenaAt a = some { x with lastError := .oom } :=
    h.madeWithError ha hdst .oom none (fun _ hp => by cases hp)
  unfold cppClone
  rcases h.get hv hy with hget | ⟨k', s', p, j, -, -, hj, hget, -⟩
  · obtain ⟨w', hmake, hmade, hat⟩ := hempty
    refine ⟨w', none, .oom, ?_, hmade, hat, by simp, by simp⟩
    rw [hget]
    revert hmake
    cases x.owner <;> exact fun hmake => hmake
  · cases hown : x.owner with
    | none =>
      obtain ⟨w', hmake, hmade, hat⟩ := hempty
      rw [hown] at hmake hmade hat
      refine ⟨w', none, .oom, ?_, hmade, hat, by simp, by simp⟩
      rw [hget]
      exact hmake
    | some k =>
      obtain ⟨s, hs⟩ := h.owner (arenaAt_eq_some.mp ha) hown
      obtain ⟨r, w₁, hrun, hok, hkeeps, hobjects, hden⟩ := h.onClone hs hj
      have ha₁ : w₁.arenaAt a = some x := by
        rw [arenaAt_eq_some, hobjects]
        exact arenaAt_eq_some.mp ha
      have hdst₁ : w₁.objects dst = none := by rw [hobjects, hdst]
      rw [hget]
      simp only [nodesOf_eq hj.ok, hrun, Option.bind_eq_bind, Option.bind_some]
      cases r with
      | none =>
        obtain ⟨w', hmake, hmade, hat⟩ := hok.madeWithError ha₁ hdst₁ .oom none (fun _ hq => by
          cases hq)
        rw [hown] at hmake hmade hat
        exact ⟨w', none, .oom, hmake, hmade.after hkeeps hobjects, hat, by simp, by simp⟩
      | some q =>
        obtain ⟨w', hmake, hmade, hat, htree⟩ := hok.madeTree ha₁ hdst₁ hown (hden q rfl)
        refine ⟨w', some q, .ok, hmake, hmade.after hkeeps hobjects, hat, by simp, ?_⟩
        intro q' hq'
        obtain rfl := Option.some.inj hq'
        exact ⟨k, j, rfl, ⟨k', p, hget, hj⟩, htree⟩

/-- **`Arena::finalize`** gives an object an index at most. -/
theorem CppOk.finalize (h : CppOk w n none) {a v : CppAddr} {x : CppArena} {y : CppValue}
    (ha : w.arenaAt a = some x) (hv : w.valueAt v = some y)
    (hy : y.owner = none → ∀ p, y.value = some p → (w.home p).isSome) :
    ∃ w', cppFinalize a x y w = some w' ∧ CppOk w' n none ∧ w.Keeps w' none ∧
      ∀ a', a' ∉ [a] → w'.objects a' = w.objects a' := by
  have herror : ∀ e, CppOk (w.setError a x e) n none ∧ w.Keeps (w.setError a x e) none ∧
      ∀ a', a' ∉ [a] → (w.setError a x e).objects a' = w.objects a' := fun e =>
    ⟨h.setError ha e, .setObject .., fun a' ha' => setObject_ne _ (by simpa using ha')⟩
  unfold cppFinalize
  by_cases hown : y.owner ≠ x.owner
  · rw [if_pos hown]
    exact ⟨_, rfl, herror _⟩
  · rw [if_neg hown]
    rcases h.get hv hy with hget | ⟨k, s, p, j, hs, -, hj, hget, howns⟩
    · refine ⟨w.setError a x .nullParam, ?_, herror _⟩
      rw [hget]
      cases x.owner <;> rfl
    · cases hxown : x.owner with
      | none =>
        refine ⟨w.setError a x .nullParam, ?_, herror _⟩
        rw [hget]
        rfl
      | some k' =>
        obtain rfl : k = k' := (howns k' ((not_not.mp hown).trans hxown)).symm
        have hplt := (h.home p k hj.ok).1
        have hrep := h.heap.repOk
        have hapi := ApiHeap.call (.objFinalize p) s.arena h.heap
          (by simpa [ApiCall.args] using hplt)
        rw [ApiCall.run, stateAfter_map] at hapi
        have hext : w.heap.Extends (stateAfter (jsonObjFinalize p) ⟨w.heap, s.arena⟩).heap := by
          rcases finalize_cases hrep hplt s.arena with hheap | ⟨o, idx, hobj, hheap⟩
          · rw [hheap]
            exact (Heap.Grows.refl ..).extends
          · rw [hheap]
            refine ⟨le_rfl, fun q hq => ?_⟩
            by_cases hqp : q = p
            · subst hqp
              exact .inr ⟨o, _, hobj, Heap.set_node_self .., rfl⟩
            · exact .inl (Heap.set_node_ne _ _ hqp)
        have hnofault : ∀ e st, jsonObjFinalize p (⟨w.heap, s.arena⟩ : St D) = .error e st →
            ∃ code, e = .err code := by
          intro e st herr
          cases hobj : w.heap.node p with
          | object o =>
            obtain ⟨rfl, -⟩ := (jsonObjFinalize_contents hrep hplt hobj).error herr
            exact ⟨_, rfl⟩
          | _ =>
            have hread : (readNode p : M D _) ⟨w.heap, s.arena⟩
                = .ok (w.heap.node p) ⟨w.heap, s.arena⟩ := rfl
            rw [hobj] at hread
            rw [jsonObjFinalize, bind_ok hread] at herr
            cases herr
            exact ⟨_, rfl⟩
        obtain ⟨r, w₁, st, hrun, hok, hkeeps, hobjects, -, -, -, hres⟩ :=
          h.onArena hs hnofault hapi hext
        have ha₁ : w₁.arenaAt a = some x := by
          rw [arenaAt_eq_some, hobjects]
          exact arenaAt_eq_some.mp ha
        rw [hget]
        simp only [nodesOf_eq hj.ok, hrun, Option.bind_eq_bind, Option.bind_some]
        refine ⟨_, rfl, hok.setError ha₁ _, hkeeps.trans (.setObject ..), ?_⟩
        intro a' ha'
        exact (setObject_ne _ (by simpa using ha')).trans (congrFun hobjects a')

/-! ## Making and moving objects -/

/-- One more storage, with its first pointer, or what is left of one that was not made. -/
theorem CppOk.addStorage (h : CppOk w n none) (cell : StorageCell)
    (hcounted : Counted (w.own t) (update w.count w.storages.length
      (cell.storage.map Storage.useCount)))
    (hgone : ∀ m, cell = .gone m → m.live = []) (hgen : ∀ s, cell = .live s → s.generation = 0) :
    CppOk (w.addStorage cell) n t ∧ w.Keeps (w.addStorage cell) none := by
  have hat := storageAt_add (w := w) cell
  have hne : ∀ k' s', w.storageAt k' = some s' → k' ≠ w.storages.length := fun k' s' hs' =>
    (lt_of_storageAt hs').ne
  have hkeeps : w.Keeps (w.addStorage cell) none := by
    constructor
    · simp [CppState.addStorage]
    · intro k' s' hk' hs'
      rw [hat, if_neg hk'.ne] at hs'
      exact ⟨s', hs', fun _ => rfl⟩
    · exact fun _ _ _ _ _ _ _ hp => hp
    · exact le_rfl
    · exact fun _ _ _ hp => hp
    · exact fun _ _ _ _ _ hp => hp
  refine ⟨⟨?_, h.heap, ?_, ?_, ?_, fun a v ha => h.values hkeeps ha⟩, hkeeps⟩
  · have hcount : (w.addStorage cell).count
        = update w.count w.storages.length (cell.storage.map Storage.useCount) := by
      funext k'
      rw [count, hat]
      by_cases hk : k' = w.storages.length
      · rw [if_pos hk, hk, update_self]
      · rw [if_neg hk, update_of_ne hk, count]
    rw [hcount]
    exact hcounted
  · intro p k' hp
    obtain ⟨hlt, s', hs'⟩ := h.home p k' hp
    exact ⟨hlt, s', by rw [hat, if_neg (hne k' s' hs'), hs']⟩
  · intro k' m hm
    rcases Nat.lt_or_ge k' w.storages.length with hlt | hge
    · exact h.gone k' m ((List.getElem?_append_left hlt).symm.trans hm)
    · have hlen : (w.storages ++ [cell]).length = w.storages.length + 1 := by simp
      have hlt : k' < (w.storages ++ [cell]).length := (List.getElem?_eq_some_iff.mp hm).1
      rw [hlen] at hlt
      obtain rfl : k' = w.storages.length := le_antisymm (Nat.lt_succ_iff.mp hlt) hge
      refine hgone m ?_
      have hlast : (w.storages ++ [cell])[w.storages.length]? = some (.gone m) := hm
      simpa using hlast
  · intro k' s' hs'
    rw [hat] at hs'
    by_cases hk : k' = w.storages.length
    · rw [if_pos hk] at hs'
      cases cell with
      | live s₀ =>
        obtain rfl : s₀ = s' := Option.some.inj hs'
        rw [hgen s₀ rfl]
        exact Nat.zero_le n
      | gone m => cases hs'
    · rw [if_neg hk] at hs'
      exact h.resets k' s' hs'

/-- **`Arena(bytes)`** makes an arena, or throws. -/
theorem CppOk.makeArena (h : CppOk w n none) (B : CppBacking) {a : CppAddr}
    (ha : w.objects a = none) (bytes : UInt64) :
    CppOk (makeArena B a bytes w) n none ∧ w.Keeps (makeArena B a bytes w) none ∧
      ∀ a', a' ∉ [a] → (SJson.makeArena B a bytes w).objects a' = w.objects a' := by
  have hnot : w.count w.storages.length = none := by
    have hnone : w.storageAt w.storages.length = none := by
      rw [storageAt, List.getElem?_eq_none le_rfl]
      rfl
    rw [count, hnone]
    rfl
  have hgone : ∀ m : BlockMem, m.live = [] → CppOk (w.addStorage (.gone m)) n none ∧
      w.Keeps (w.addStorage (.gone m)) none := by
    intro m hm
    refine h.addStorage (.gone m) ?_ ?_ ?_
    · have hsame : update w.count w.storages.length (StorageCell.gone m |>.storage.map
          Storage.useCount) = w.count := by
        rw [show (StorageCell.gone m).storage.map Storage.useCount = w.count w.storages.length from
          hnot.symm, update_eq_self]
      rw [hsame]
      exact h.counted
    · intro m' hm'
      cases hm'
      exact hm
    · intro s hs
      cases hs
  unfold SJson.makeArena
  by_cases hnew : B.news w.storages.length = true
  · rw [if_pos hnew]
    cases hcreate : Arena.create (B.grants w.storages.length) bytes.toNat
      (Nat.le_sub_one_of_lt bytes.toNat_lt) with
    | mk r m =>
      cases r with
      | none =>
        obtain ⟨hok, hkeeps⟩ := hgone m (Arena.create_none hcreate)
        exact ⟨hok, hkeeps, fun _ _ => rfl⟩
      | some A =>
        have htake := h.counted.take (a := none) rfl w.storages.length
        rw [own_update, hnot] at htake
        obtain ⟨hok, hkeeps⟩ := h.addStorage (.live ⟨A, 0, 1⟩) htake (fun m hm => by cases hm)
          (fun s hs => by cases hs; rfl)
        have hset := hok.setObject (a := a) (o := .arena ⟨some w.storages.length, .ok⟩) rfl
          (fun v hv => by cases hv)
        have hfree : (w.addStorage (.live ⟨A, 0, 1⟩)).own (some w.storages.length) (some a)
            = none := by
          rw [own, show (w.addStorage (.live ⟨A, 0, 1⟩)).objects a = none from ha]
          rfl
        rw [hfree] at hset
        exact ⟨hset, hkeeps.trans (.setObject ..),
          fun a' ha' => setObject_ne _ (by simpa using ha')⟩
  · rw [if_neg hnew]
    obtain ⟨hok, hkeeps⟩ := hgone (.init (B.grants w.storages.length)) rfl
    exact ⟨hok, hkeeps, fun _ _ => rfl⟩

/-- **An object is moved**: it is the old one without its pointer, and the new one takes the
pointer.  What the new one held before is left to the temporary. -/
theorem CppOk.move (h : CppOk w n none) {dst src : CppAddr} {o : CppObject}
    (o' : CppObject) (hsrc : w.objects src = some o) (hne : dst ≠ src) (ho' : o'.owner = none)
    (hv : ∀ v, o = .value v → v.Ok w) (hv' : ∀ v, o' = .value v → v.Ok w) :
    CppOk ((w.setObject src o').setObject dst o) n (w.own none (some dst)) ∧
      w.Keeps ((w.setObject src o').setObject dst o) none ∧
      ∀ a, a ∉ [dst, src] → ((w.setObject src o').setObject dst o).objects a = w.objects a := by
  have hfirst := h.setObject (a := src) (o := o') ho' hv'
  rw [own_of hsrc] at hfirst
  have hkeeps : w.Keeps (w.setObject src o') none := .setObject ..
  have hsecond := hfirst.setObject (a := dst) (o := o) rfl (by
    intro v hval
    refine (hv v hval).keeps ?_ hkeeps
    intro k hk
    have hown : o.owner = some k := by
      rw [hval]
      exact hk
    obtain ⟨s, hs⟩ := h.owner hsrc hown
    exact lt_of_storageAt hs)
  have hsame : (w.setObject src o').own o.owner (some dst) = w.own none (some dst) := by
    rw [own, own, setObject_ne o' hne]
  rw [hsame] at hsecond
  refine ⟨hsecond, hkeeps.trans (.setObject ..), ?_⟩
  intro a ha
  rw [List.mem_cons, List.mem_singleton, not_or] at ha
  rw [setObject_ne o ha.1, setObject_ne o' ha.2]

/-- **A value is copied** to an address, and what that held before is left to the temporary. -/
theorem CppOk.copy (h : CppOk w n none) (dst : CppAddr) {src : CppAddr} {x : CppValue}
    (hsrc : w.valueAt src = some x) :
    ∃ w₁, w.retain x.owner = some w₁ ∧
      CppOk (w₁.setObject dst (.value x)) n (w.own none (some dst)) ∧
      w.Keeps (w₁.setObject dst (.value x)) none ∧
      ∀ a, a ∉ [dst] → (w₁.setObject dst (.value x)).objects a = w.objects a := by
  have hobj := valueAt_eq_some.mp hsrc
  obtain ⟨w₁, hretain, hok, hkeeps, -, hobjects⟩ := h.retain (o := x.owner) fun k hk =>
    h.owner hobj hk
  have hset := hok.setObject (a := dst) (o := .value x) rfl (by
    intro v hval
    cases hval
    exact h.values hkeeps hsrc)
  have hsame : w₁.own x.owner (some dst) = w.own none (some dst) := by
    rw [own, own, hobjects]
  rw [hsame] at hset
  refine ⟨w₁, hretain, hset, hkeeps.trans (.setObject ..), ?_⟩
  intro a ha
  rw [setObject_ne _ (by simpa using ha), hobjects]

/-- What the temporary still holds is given up. -/
theorem CppOk.settle (h : CppOk w' n t) {ws : List CppAddr} (hkeeps : w.Keeps w' none)
    (hothers : ∀ a, a ∉ ws → w'.objects a = w.objects a) :
    ∃ w'', w'.release t = some w'' ∧ CppOk w'' n none ∧ w.Keeps w'' none ∧
      ∀ a, a ∉ ws → w''.objects a = w.objects a := by
  obtain ⟨w'', hrelease, hok, hkeeps', hobjects⟩ := h.release
  exact ⟨w'', hrelease, hok, hkeeps.trans hkeeps', fun a ha => by rw [hobjects, hothers a ha]⟩

/-! ## One call -/

theorem CppOk.mono {m : ℕ} (h : CppOk w n t) (hm : n ≤ m) : CppOk w m t :=
  ⟨h.counted, h.heap, h.home, h.gone, fun k s hs => (h.resets k s hs).trans hm, h.value⟩

/-- **`Arena::reset` and `Arena::trim`** start another generation. -/
theorem CppOk.invalidate (h : CppOk w n none) {a : CppAddr} {x : CppArena}
    (ha : w.arenaAt a = some x) (hn : n + 1 < 2 ^ 64) (f : Arena → Arena) :
    ∃ w', cppInvalidate f a x w = some w' ∧ CppOk w' (n + 1) none ∧ w.Keeps w' x.owner ∧
      (∀ a', a' ∉ [a] → w'.objects a' = w.objects a') ∧
      w'.arenaAt a = some { x with lastError := .ok } ∧
      ∀ k s s', x.owner = some k → w.storageAt k = some s → w'.storageAt k = some s' →
        s.generation.toNat < s'.generation.toNat := by
  have hothers : ∀ (w₁ : CppState D), w₁.objects = w.objects → ∀ a', a' ∉ [a] →
      (w₁.setError a x .ok).objects a' = w.objects a' := by
    intro w₁ hobjects a' ha'
    exact (setObject_ne _ (by simpa using ha')).trans (congrFun hobjects a')
  have hself : ∀ w₁ : CppState D, (w₁.setError a x .ok).arenaAt a
      = some { x with lastError := .ok } := fun w₁ =>
    arenaAt_eq_some.mpr (setObject_self ..)
  unfold cppInvalidate
  cases hown : x.owner with
  | none =>
    refine ⟨_, rfl, (h.setError ha .ok).mono (Nat.le_succ n), .setObject .., hothers w rfl,
      ?_, fun k s s' hk => (by cases hk)⟩
    rw [hself, hown]
  | some k =>
    obtain ⟨s, hs⟩ := h.owner (arenaAt_eq_some.mp ha) hown
    obtain ⟨hok, hkeeps, hobjects, s₁, hs₁, hgen⟩ := h.invalidated hs hn f
    have ha₁ : (w.invalidated f k s).arenaAt a = some x := by
      rw [arenaAt_eq_some, hobjects]
      exact arenaAt_eq_some.mp ha
    refine ⟨(w.invalidated f k s).setError a x .ok, ?_, hok.setError ha₁ .ok,
      hkeeps.trans (.setObject ..), hothers _ hobjects, ?_, ?_⟩
    · simp [hs]
    · rw [hself, hown]
    · intro k' s' s'' hk' hs' hs''
      obtain rfl := Option.some.inj hk'
      obtain rfl := Option.some.inj (hs.symm.trans hs')
      obtain rfl : s₁ = s'' := Option.some.inj (hs₁.symm.trans hs'')
      omega

/-- What one call does. -/
structure CppStep (w w' : CppState D) (n : ℕ) (c : CppCall) : Prop where
  ok : CppOk w' (n + c.resets) none
  keeps : w.Keeps w' (c.empties w)
  others : ∀ a, a ∉ c.writes → w'.objects a = w.objects a
  older : ∀ k s s', c.empties w = some k → w.storageAt k = some s → w'.storageAt k = some s' →
    s.generation.toNat < s'.generation.toNat

/-- A call that resets and trims nothing. -/
theorem CppStep.plain {c : CppCall} (hc : c.invalidates = none)
    (h : CppOk w' n none ∧ w.Keeps w' none ∧ ∀ a, a ∉ c.writes → w'.objects a = w.objects a) :
    CppStep w w' n c := by
  have hempties : c.empties w = none := by
    rw [CppCall.empties, hc]
    rfl
  have hresets : c.resets = 0 := by
    rw [CppCall.resets, hc]
    rfl
  refine ⟨by rw [hresets]; exact h.1, by rw [hempties]; exact h.2.1, h.2.2, ?_⟩
  intro k s s' hk
  rw [hempties] at hk
  cases hk

theorem CppMade.step {c : CppCall} {ws : List CppAddr} {dst : CppAddr} {value : Option JsonPtr}
    {owner : Option StoragePtr} (h : CppMade w w' n ws dst value owner)
    (hc : c.invalidates = none) (hws : c.writes = ws) : CppStep w w' n c :=
  .plain hc ⟨h.ok, h.keeps, fun a ha => h.others a (hws ▸ ha)⟩

omit [CDouble D] in
theorem CppState.ne_of_free {dst src : CppAddr} {o : CppObject} (hdst : w.objects dst = none)
    (hsrc : w.objects src = some o) : dst ≠ src := by
  rintro rfl
  rw [hdst] at hsrc
  cases hsrc

omit [CDouble D] in
theorem CppState.own_free {dst : CppAddr} (hdst : w.objects dst = none) :
    w.own none (some dst) = none := by
  rw [own, hdst]
  rfl

/-! ## Copying and moving -/

/-- A copy, at an address where nothing is. -/
theorem CppOk.copyValueStep (B : CppBacking) (h : CppOk w n none) {dst src : CppAddr}
    (hfits : (CppCall.copyValue dst src).Fits w) :
    ∃ w', (CppCall.copyValue dst src).run B w = some w' ∧
      CppStep w w' n (.copyValue dst src) := by
  obtain ⟨hdst, x, hsrc⟩ := hfits
  obtain ⟨w₁, hretain, hplain⟩ := h.copy dst hsrc
  rw [own_free hdst] at hplain
  refine ⟨_, ?_, .plain rfl hplain⟩
  rw [CppCall.run, hsrc]
  show (do
    let w ← w.retain x.owner
    return w.setObject dst (.value x) : Option (CppState D)) = _
  rw [hretain]
  rfl

/-- A copy over a value, whose storage is given up. -/
theorem CppOk.copyAssignStep (B : CppBacking) (h : CppOk w n none) {dst src : CppAddr}
    (hfits : (CppCall.copyAssign dst src).Fits w) :
    ∃ w', (CppCall.copyAssign dst src).run B w = some w' ∧
      CppStep w w' n (.copyAssign dst src) := by
  obtain ⟨⟨old, hdst⟩, x, hsrc⟩ := hfits
  obtain ⟨w₁, hretain, hok, hkeeps, hothers⟩ := h.copy dst hsrc
  rw [own_of (valueAt_eq_some.mp hdst)] at hok
  obtain ⟨w', hrelease, hplain⟩ := hok.settle hkeeps hothers
  refine ⟨w', ?_, .plain rfl hplain⟩
  rw [CppCall.run, hsrc, hdst]
  show (do
    let w ← w.retain x.owner
    (w.setObject dst (.value x)).release old.owner : Option (CppState D)) = _
  rw [hretain]
  exact hrelease

/-- An object is moved over another one, whose storage is given up. -/
theorem CppOk.moveOver (h : CppOk w n none) {dst src : CppAddr} {o old : CppObject}
    (o' : CppObject) (hdst : w.objects dst = some old) (hsrc : w.objects src = some o)
    (hne : dst ≠ src) (ho' : o'.owner = none) (hv : ∀ v, o = .value v → v.Ok w)
    (hv' : ∀ v, o' = .value v → v.Ok w) :
    ∃ w', ((w.setObject src o').setObject dst o).release old.owner = some w' ∧
      CppOk w' n none ∧ w.Keeps w' none ∧ ∀ a, a ∉ [dst, src] → w'.objects a = w.objects a := by
  obtain ⟨hok, hkeeps, hothers⟩ := h.move o' hsrc hne ho' hv hv'
  rw [own_of hdst] at hok
  exact hok.settle hkeeps hothers

/-- What is left of a value that was moved is in order. -/
theorem CppOk.movedFrom (h : CppOk w n none) {src : CppAddr} {x : CppValue}
    (hsrc : w.valueAt src = some x) :
    ∀ v, CppObject.value { x with owner := none } = .value v → v.Ok w := by
  rintro v heq
  obtain rfl := CppObject.value.inj heq
  exact (h.value src x hsrc).of_borrowed (fun _ hp => hp) rfl

/-- An arena is moved. -/
theorem CppOk.moveArenaStep (B : CppBacking) (h : CppOk w n none) {dst src : CppAddr}
    (hfits : (CppCall.moveArena dst src).Fits w) :
    ∃ w', (CppCall.moveArena dst src).run B w = some w' ∧
      CppStep w w' n (.moveArena dst src) := by
  obtain ⟨hdst, x, hsrc⟩ := hfits
  have hobj := arenaAt_eq_some.mp hsrc
  have hmove := h.move (.arena { x with owner := none }) hobj (ne_of_free hdst hobj) rfl
    (fun v hv => by cases hv) (fun v hv => by cases hv)
  rw [own_free hdst] at hmove
  refine ⟨_, ?_, .plain rfl hmove⟩
  rw [CppCall.run, hsrc]
  rfl

/-- An arena is moved over another one, or over itself. -/
theorem CppOk.assignArenaStep (B : CppBacking) (h : CppOk w n none) {dst src : CppAddr}
    (hfits : (CppCall.assignArena dst src).Fits w) :
    ∃ w', (CppCall.assignArena dst src).run B w = some w' ∧
      CppStep w w' n (.assignArena dst src) := by
  obtain ⟨⟨old, hdst⟩, x, hsrc⟩ := hfits
  rw [CppCall.run, hsrc, hdst]
  show ∃ w', (if dst = src then _ else _) = _ ∧ _
  by_cases hsame : dst = src
  · rw [if_pos hsame]
    exact ⟨w, rfl, .plain rfl ⟨h, .refl .., fun _ _ => rfl⟩⟩
  · rw [if_neg hsame]
    obtain ⟨w', hrelease, hplain⟩ := h.moveOver (.arena { x with owner := none })
      (arenaAt_eq_some.mp hdst) (arenaAt_eq_some.mp hsrc) hsame rfl (fun v hv => by cases hv)
      (fun v hv => by cases hv)
    exact ⟨w', hrelease, .plain rfl hplain⟩

/-- A value is moved to an address where nothing is. -/
theorem CppOk.moveValueStep (B : CppBacking) (h : CppOk w n none) {dst src : CppAddr}
    (hfits : (CppCall.moveValue dst src).Fits w) :
    ∃ w', (CppCall.moveValue dst src).run B w = some w' ∧
      CppStep w w' n (.moveValue dst src) := by
  obtain ⟨hdst, x, hsrc⟩ := hfits
  have hobj := valueAt_eq_some.mp hsrc
  have hmove := h.move (.value { x with owner := none }) hobj (ne_of_free hdst hobj) rfl
    (fun v hv => by cases hv; exact h.value src x hsrc) (h.movedFrom hsrc)
  rw [own_free hdst] at hmove
  refine ⟨_, ?_, .plain rfl hmove⟩
  rw [CppCall.run, hsrc]
  rfl

/-- A value is moved over another one, or over itself. -/
theorem CppOk.moveAssignStep (B : CppBacking) (h : CppOk w n none) {dst src : CppAddr}
    (hfits : (CppCall.moveAssign dst src).Fits w) :
    ∃ w', (CppCall.moveAssign dst src).run B w = some w' ∧
      CppStep w w' n (.moveAssign dst src) := by
  obtain ⟨⟨old, hdst⟩, x, hsrc⟩ := hfits
  rw [CppCall.run, hsrc, hdst]
  show ∃ w', (if dst = src then _ else _) = _ ∧ _
  by_cases hsame : dst = src
  · rw [if_pos hsame]
    exact ⟨w, rfl, .plain rfl ⟨h, .refl .., fun _ _ => rfl⟩⟩
  · rw [if_neg hsame]
    obtain ⟨w', hrelease, hplain⟩ := h.moveOver (.value { x with owner := none })
      (valueAt_eq_some.mp hdst) (valueAt_eq_some.mp hsrc) hsame rfl
      (fun v hv => by cases hv; exact h.value src x hsrc) (h.movedFrom hsrc)
    exact ⟨w', hrelease, .plain rfl hplain⟩

/-- A value is made of the pointer that another one hands out. -/
theorem CppOk.borrowStep (B : CppBacking) (h : CppOk w n none) {dst v : CppAddr}
    (hfits : (CppCall.borrow dst v).Fits w) :
    ∃ w', (CppCall.borrow dst v).run B w = some w' ∧ CppStep w w' n (.borrow dst v) := by
  obtain ⟨hdst, x, hv⟩ := hfits
  obtain ⟨value, hget, hval⟩ : ∃ value, x.get w = some value ∧
      ∀ p, value = some p → x.value = some p := by
    cases hown : x.owner with
    | none => exact ⟨_, CppValue.get_borrowed hown, fun p hp => hp⟩
    | some k =>
      obtain ⟨s, hs⟩ := h.owner (valueAt_eq_some.mp hv) hown
      refine ⟨_, CppValue.get_owned hown hs, fun p hp => ?_⟩
      by_cases hgen : s.generation = x.generation
      · rwa [if_pos hgen] at hp
      · rw [if_neg hgen] at hp
        cases hp
  have hset := h.setObject (a := dst) (o := .value ⟨value, none, 0⟩) rfl (by
    rintro v' heq
    obtain rfl := CppObject.value.inj heq
    exact (h.value v x hv).of_borrowed hval rfl)
  rw [own_free hdst] at hset
  refine ⟨w.setObject dst (.value ⟨value, none, 0⟩), ?_, .plain rfl ⟨hset, .setObject .., ?_⟩⟩
  · rw [CppCall.run, hv]
    show (do
      let value ← x.get w
      return w.setObject dst (.value ⟨value, none, 0⟩) : Option (CppState D)) = _
    rw [hget]
    rfl
  · exact fun a ha => setObject_ne _ (by simpa [CppCall.writes] using ha)

/-! ## Giving up -/

/-- An object is destroyed, and its storage with the last one. -/
theorem CppOk.destroyObject (h : CppOk w n none) {a : CppAddr} {o : CppObject}
    (ha : w.objects a = some o) :
    ∃ w', (w.dropObject a).release o.owner = some w' ∧ CppOk w' n none ∧ w.Keeps w' none ∧
      ∀ a', a' ∉ [a] → w'.objects a' = w.objects a' := by
  have hdrop := h.dropObject a
  rw [own_of ha] at hdrop
  exact hdrop.settle (.dropObject ..)
    (fun a' (ha' : a' ∉ [a]) => dropObject_ne (by simpa using ha'))

theorem CppOk.destroyArenaStep (B : CppBacking) (h : CppOk w n none) {a : CppAddr}
    (hfits : (CppCall.destroyArena a).Fits w) :
    ∃ w', (CppCall.destroyArena a).run B w = some w' ∧ CppStep w w' n (.destroyArena a) := by
  obtain ⟨x, ha⟩ := hfits
  obtain ⟨w', hrelease, hplain⟩ := h.destroyObject (arenaAt_eq_some.mp ha)
  refine ⟨w', ?_, .plain rfl hplain⟩
  rw [CppCall.run, ha]
  exact hrelease

theorem CppOk.destroyValueStep (B : CppBacking) (h : CppOk w n none) {v : CppAddr}
    (hfits : (CppCall.destroyValue v).Fits w) :
    ∃ w', (CppCall.destroyValue v).run B w = some w' ∧ CppStep w w' n (.destroyValue v) := by
  obtain ⟨x, hv⟩ := hfits
  obtain ⟨w', hrelease, hplain⟩ := h.destroyObject (valueAt_eq_some.mp hv)
  refine ⟨w', ?_, .plain rfl hplain⟩
  rw [CppCall.run, hv]
  exact hrelease

/-- A call that does no more than to reset or to trim an arena. -/
theorem CppOk.invalidateStep (B : CppBacking) (h : CppOk w n none) {c : CppCall} {a : CppAddr}
    {f : Arena → Arena} (hrun : c.run B w = do cppInvalidate f a (← w.arenaAt a) w)
    (hc : c.invalidates = some a) (hwrites : c.writes = [a]) (hfits : ∃ x, w.arenaAt a = some x)
    (hn : n + c.resets < 2 ^ 64) : ∃ w', c.run B w = some w' ∧ CppStep w w' n c := by
  obtain ⟨x, ha⟩ := hfits
  have hresets : c.resets = 1 := by
    rw [CppCall.resets, hc]
    rfl
  have hempties : c.empties w = x.owner := by
    rw [CppCall.empties, hc, Option.bind_some, ha, Option.bind_some]
  rw [hresets] at hn
  obtain ⟨w', hinv, hok, hkeeps, hothers, -, holder⟩ := h.invalidate ha hn f
  refine ⟨w', ?_, hresets ▸ hok, hempties ▸ hkeeps, hwrites ▸ hothers, hempties ▸ holder⟩
  rw [hrun, ha]
  exact hinv

/-- The arena is reset before the text is parsed. -/
theorem CppOk.parseReplaceStep (B : CppBacking) (h : CppOk w n none) {a dst : CppAddr}
    {input : List UInt8} (hfits : (CppCall.parseReplace a dst input).Fits w)
    (hn : n + 1 < 2 ^ 64) : ∃ w', (CppCall.parseReplace a dst input).run B w = some w' ∧
      CppStep w w' n (.parseReplace a dst input) := by
  obtain ⟨⟨x, ha⟩, hdst, hlen⟩ := hfits
  obtain ⟨w₁, hrun₁, hok₁, hkeeps₁, hothers₁, ha₁, holder⟩ := h.invalidate ha hn Arena.reset
  have hne := ne_of_free hdst (arenaAt_eq_some.mp ha)
  have hdst₁ : w₁.objects dst = none := (hothers₁ dst (by simpa using hne)).trans hdst
  obtain ⟨w', value, e, hrun, hmade, -⟩ := hok₁.parse ha₁ hdst₁ hlen
  have hempties : (CppCall.parseReplace a dst input).empties w = x.owner := by
    simp [CppCall.empties, CppCall.invalidates, ha]
  refine ⟨w', ?_, hmade.ok, hempties ▸ hkeeps₁.trans hmade.keeps.mono, ?_, ?_⟩
  · rw [CppCall.run, ha]
    show (do
      let w ← cppInvalidate Arena.reset a x w
      cppParse a (← w.arenaAt a) dst input w : Option (CppState D)) = _
    rw [hrun₁]
    show (do cppParse a (← w₁.arenaAt a) dst input w₁ : Option (CppState D)) = _
    rw [ha₁]
    exact hrun
  · intro a' ha'
    rw [hmade.others a' ha', hothers₁ a' (by
      intro hmem
      exact ha' (by simp [CppCall.writes, List.mem_singleton.mp hmem]))]
  · rw [hempties]
    intro k s s' hk hs hs'
    obtain ⟨s₁, hs₁, hgen⟩ := hmade.keeps.back k s'
      ((lt_of_storageAt hs).trans_le hkeeps₁.length) hs'
    rw [hgen (Option.some_ne_none k)]
    exact holder k s s₁ hk hs hs₁

/-- `Value::at` and `Value::obj` make a value. -/
theorem CppOk.childStep (B : CppBacking) (h : CppOk w n none) {c : CppCall} {dst v : CppAddr}
    {lookup : Heap D → JsonPtr → Scan JsonPtr}
    (hrun : c.run B w = do (← w.valueAt v).child lookup dst w)
    (hc : c.invalidates = none) (hwrites : c.writes = [dst])
    (hfits : w.objects dst = none ∧ w.Usable v)
    (hfinds : ∀ p, p < w.heap.next → w.heap.FindsChild p (lookup w.heap p)) :
    ∃ w', c.run B w = some w' ∧ CppStep w w' n c := by
  obtain ⟨hdst, x, hv, hx⟩ := hfits
  obtain ⟨w', hchild, hres⟩ := h.child hdst hv hx lookup hfinds
  refine ⟨w', ?_, ?_⟩
  · rw [hrun, hv]
    exact hchild
  · rcases hres with ⟨hmade, -⟩ | ⟨k, p, j, out, -, -, -, -, hmade, -⟩
    · exact hmade.step hc hwrites
    · exact hmade.step hc hwrites

/-! ## All calls -/

/-- **Every call keeps the invariant.** -/
theorem CppOk.call (B : CppBacking) (h : CppOk w n none) (c : CppCall) (hfits : c.Fits w)
    (hn : n + c.resets < 2 ^ 64) : ∃ w', c.run B w = some w' ∧ CppStep w w' n c := by
  cases c with
  | newArena a bytes => exact ⟨_, rfl, .plain rfl (h.makeArena B hfits bytes)⟩
  | moveArena dst src => exact h.moveArenaStep B hfits
  | assignArena dst src => exact h.assignArenaStep B hfits
  | destroyArena a => exact h.destroyArenaStep B hfits
  | reset a => exact h.invalidateStep B rfl rfl rfl hfits hn
  | trim a => exact h.invalidateStep B rfl rfl rfl hfits hn
  | parse a dst input =>
    obtain ⟨⟨x, ha⟩, hdst, hlen⟩ := hfits
    obtain ⟨w', value, e, hrun, hmade, -⟩ := h.parse ha hdst hlen
    refine ⟨w', ?_, hmade.step rfl rfl⟩
    rw [CppCall.run, ha]
    exact hrun
  | parseReplace a dst input => exact h.parseReplaceStep B hfits hn
  | clone a dst v =>
    obtain ⟨⟨x, ha⟩, hdst, y, hv, hy⟩ := hfits
    obtain ⟨w', value, e, hrun, hmade, -⟩ := h.clone ha hdst hv hy
    refine ⟨w', ?_, hmade.step rfl rfl⟩
    rw [CppCall.run, ha, hv]
    exact hrun
  | finalize a v =>
    obtain ⟨⟨x, ha⟩, y, hv, hy⟩ := hfits
    obtain ⟨w', hrun, hplain⟩ := h.finalize ha hv hy
    refine ⟨w', ?_, .plain rfl hplain⟩
    rw [CppCall.run, ha, hv]
    exact hrun
  | newValue dst => exact ⟨_, rfl, (h.madeEmpty hfits).step rfl rfl⟩
  | borrow dst v => exact h.borrowStep B hfits
  | copyValue dst src => exact h.copyValueStep B hfits
  | moveValue dst src => exact h.moveValueStep B hfits
  | copyAssign dst src => exact h.copyAssignStep B hfits
  | moveAssign dst src => exact h.moveAssignStep B hfits
  | destroyValue v => exact h.destroyValueStep B hfits
  | «at» dst v index =>
    exact h.childStep B rfl rfl rfl hfits fun p _ => jsonArrGet_findsChild ..
  | obj dst v key =>
    exact h.childStep B rfl rfl rfl hfits fun p hp =>
      jsonObjGetN_findsChild h.heap.repOk hp key

end Steps

end SJson
