/-
# What a copy is

`json_clone` copies what is seen from a value (`jsonCloneAt_copies`): it succeeds only if the
graph ends within the levels it has, the copy denotes the same tree in nodes that are new, and
it fails only if the graph does not end, or for lack of memory or nodes.

The account is kept by `Copies`, with the nodes and the bytes that a copy takes.
-/
import SJson.Unfold
import SJson.Frame

namespace SJson

open ErrState

variable {D : Type}

/-! ## What a copy takes -/

namespace Json

mutual

/-- The bytes that the copy of a tree takes at most. -/
def copyCost : Json D → ℕ
  | .str s => s.length + 7 + 47
  | .arr items => items.length * sizeofPtr + 7 + copyCostArr items + 47
  | .obj pairs => pairs.length * sizeofJsonPair + 7 + copyCostObj pairs + 47
  | _ => 47
termination_by structural j => j

/-- The bytes that the copies of a list of trees take at most. -/
def copyCostArr : List (Json D) → ℕ
  | [] => 0
  | j :: items => copyCost j + copyCostArr items
termination_by structural items => items

/-- The bytes that the copies of a list of pairs take at most. -/
def copyCostObj : List (List UInt8 × Json D) → ℕ
  | [] => 0
  | (key, j) :: pairs => key.length + 7 + copyCost j + copyCostObj pairs
termination_by structural pairs => pairs

end

end Json

/-- The end of a copying function.  Here `ends` says that what is copied ends, and `n` and `c`
are the nodes and bytes it takes; what is returned satisfies `Q` in the heap that is left. -/
def Copies {α : Type} (x : M D (Option α)) (s : St D) (ends : Prop) (n c : ℕ)
    (Q : Heap D → α → Prop) : Prop :=
  ∃ r s', x s = .ok r s' ∧
    match r with
    | none => ends → s.arena.Roomy c → jsonMaxNodes < s.arena.nodeCount + n
    | some a => ends ∧ s.heap.Grows s'.heap none ∧ Q s'.heap a ∧
        s'.arena.nodeCount = s.arena.nodeCount + n ∧ ∀ m, s.arena.Roomy (c + m) → s'.arena.Roomy m

theorem copies_pure {α : Type} {a : α} {s : St D} {Q : Heap D → α → Prop} (h : Q s.heap a) :
    Copies (pure (some a)) s True 0 0 Q :=
  ⟨some a, s, rfl, trivial, .refl .., h, rfl, fun m hm => by rwa [Nat.zero_add] at hm⟩

/-- A copying step, and what is done with its copy. -/
theorem Copies.bind {α β : Type} {x : M D (Option α)} {k : Option α → M D (Option β)} {s : St D}
    {ends ends' : Prop} {n n' c c' : ℕ} {Q : Heap D → α → Prop} {R : Heap D → β → Prop}
    (hx : Copies x s ends n c Q) (hnone : k none = pure none)
    (hsome : ∀ a (s' : St D), s.heap.Grows s'.heap none → Q s'.heap a →
      Copies (k (some a)) s' ends' n' c' R) :
    Copies (x >>= k) s (ends ∧ ends') (n + n') (c + c') R := by
  obtain ⟨r, s₁, hok, hr⟩ := hx
  cases r with
  | none =>
    refine ⟨none, s₁, by rw [bind_ok hok, hnone]; rfl, fun hends hroom => ?_⟩
    have := hr hends.1 (hroom.mono (Nat.le_add_right ..))
    omega
  | some a =>
    obtain ⟨hends, hg, ha, hcount, hroomy⟩ := hr
    obtain ⟨r', s₂, hok', hr'⟩ := hsome a s₁ hg ha
    refine ⟨r', s₂, by rw [bind_ok hok]; exact hok', ?_⟩
    cases r' with
    | none =>
      intro hends' hroom
      have := hr' hends'.2 (hroomy c' hroom)
      omega
    | some b =>
      obtain ⟨hends', hg', hb, hcount', hroomy'⟩ := hr'
      exact ⟨⟨hends, hends'⟩, hg.trans hg', hb, by omega, fun m hm =>
        hroomy' m (hroomy (c' + m) (by rwa [← Nat.add_assoc]))⟩

/-- Storage for what is copied next. -/
theorem copies_buffer {β : Type} {s : St D} {need : Bool} {len : ℕ}
    (hlen : need = true → 0 < len) {k : M D (Option β)} {ends : Prop} {n c : ℕ}
    {R : Heap D → β → Prop}
    (hk : ∀ s' : St D, s'.heap = s.heap → Copies k s' ends n c R) :
    Copies (bufferFor need len >>= fun granted => if granted then k else pure none) s ends n
      (len + 7 + c) R := by
  obtain ⟨A', huses, hres⟩ := bufferFor_cases s need len hlen
  rcases hres with hok | ⟨hok, hno⟩
  · obtain ⟨r, s', hrun, hr⟩ := hk { s with arena := A' } rfl
    refine ⟨r, s', by rw [bind_ok hok, if_pos rfl]; exact hrun, ?_⟩
    have hroomy : ∀ m, s.arena.Roomy (len + 7 + c + m) → A'.Roomy (c + m) := fun m hm =>
      huses.roomy (c + m) (by rwa [← Nat.add_assoc])
    cases r with
    | none =>
      intro hends hroom
      have := hr hends (hroomy 0 hroom)
      rwa [huses.nodeCount] at this
    | some a =>
      obtain ⟨hends, hg, ha, hcount, hroomy'⟩ := hr
      exact ⟨hends, hg, ha, by rw [hcount, huses.nodeCount], fun m hm => hroomy' m (hroomy m hm)⟩
  · refine ⟨none, { s with arena := A' }, by rw [bind_ok hok]; rfl, fun _ hroom => ?_⟩
    exact absurd hroom (hno c)

/-- The same function, the same end. -/
theorem Copies.congr {α : Type} {x : M D (Option α)} {s : St D} {ends ends' : Prop} {n n' c c' : ℕ}
    {Q Q' : Heap D → α → Prop} (h : Copies x s ends n c Q) (hends : ends ↔ ends') (hn : n = n')
    (hc : c ≤ c') (hQ : ∀ h' a, Q h' a → Q' h' a) : Copies x s ends' n' c' Q' := by
  subst hn
  obtain ⟨r, s', hok, hr⟩ := h
  refine ⟨r, s', hok, ?_⟩
  cases r with
  | none => exact fun he hroom => hr (hends.mpr he) (hroom.mono hc)
  | some a =>
    obtain ⟨he, hg, ha, hcount, hroomy⟩ := hr
    exact ⟨hends.mp he, hg, hQ _ _ ha, hcount, fun m hm =>
      hroomy m (hm.mono (Nat.add_le_add_right hc m))⟩

/-! ## Lists -/

variable {h : Heap D} {room : ℕ}

/-- The tree at `p`, as it is in the heap `h`. -/
abbrev Heap.treeAt (h : Heap D) (room : ℕ) (p : JsonPtr) : Json D := h.unfold false room p

/-- The graph at `p` ends within `room` levels. -/
abbrev Heap.EndsAt (h : Heap D) (room : ℕ) (p : JsonPtr) : Prop := h.Ends (fun _ => True) room p

/-- The function copies what is in `h`, down to `room` levels. -/
def CopiesPtr (h : Heap D) (room : ℕ) (clone : JsonPtr → M D (Option JsonPtr)) : Prop :=
  ∀ (p : JsonPtr) (s : St D), p < h.next → h.Grows s.heap none →
    Copies (clone p) s (h.EndsAt room p) (h.treeAt room p).nodes (h.treeAt room p).copyCost
      fun h' q => DenotesIn (h'.From s.heap.next) h' (h.treeAt room p) q

theorem copies_items {clone : JsonPtr → M D (Option JsonPtr)} (hclone : CopiesPtr h room clone) :
    ∀ {ps : List JsonPtr} {s : St D}, (∀ p ∈ ps, p < h.next) → h.Grows s.heap none →
      Copies (cloneItems clone ps) s (∀ p ∈ ps, h.EndsAt room p)
        (Json.nodesArr (ps.map (h.treeAt room))) (Json.copyCostArr (ps.map (h.treeAt room)))
        fun h' qs => List.Forall₂ (DenotesIn (h'.From s.heap.next) h')
          (ps.map (h.treeAt room)) qs := by
  intro ps
  induction ps with
  | nil =>
    intro s _ _
    exact (copies_pure .nil).congr (by simp) rfl le_rfl fun _ _ hq => hq
  | cons p ps ih =>
    intro s hlt hg
    obtain ⟨hp, hps⟩ := List.forall_mem_cons.mp hlt
    rw [cloneItems]
    apply Copies.congr
    · exact (hclone p s hp hg).bind rfl fun q s₁ hg₁ hq =>
        (ih hps (hg.trans hg₁)).bind rfl fun qs s₂ hg₂ hqs => copies_pure (Q := fun h' qs =>
          List.Forall₂ (DenotesIn (h'.From s.heap.next) h') ((p :: ps).map (h.treeAt room)) qs)
          (.cons (hq.grows hg₂ le_rfl (by simp)) (hqs.imp fun _ _ hden =>
            hden.congr fun q hq => ⟨⟨hg₁.next.trans hq.1, hq.2⟩, rfl⟩))
    · rw [List.forall_mem_cons, and_true]
    · rfl
    · exact le_rfl
    · exact fun _ _ hqs => hqs

theorem copies_pairs {clone : JsonPtr → M D (Option JsonPtr)} (hclone : CopiesPtr h room clone) :
    ∀ {pairs : List JsonPair} {s : St D}, (∀ pr ∈ pairs, pr.val < h.next) → h.Grows s.heap none →
      Copies (clonePairs clone pairs) s (∀ pr ∈ pairs, h.EndsAt room pr.val)
        (Json.nodesObj (pairs.map fun pr => (pr.key.data, h.treeAt room pr.val)))
        (Json.copyCostObj (pairs.map fun pr => (pr.key.data, h.treeAt room pr.val)))
        fun h' qs => List.Forall₂ (PairDenotes (h'.From s.heap.next) h')
          (pairs.map fun pr => (pr.key.data, h.treeAt room pr.val)) qs := by
  intro pairs
  induction pairs with
  | nil =>
    intro s _ _
    exact (copies_pure .nil).congr (by simp) rfl le_rfl fun _ _ hq => hq
  | cons pr pairs ih =>
    intro s hlt hg
    obtain ⟨hpr, hpairs⟩ := List.forall_mem_cons.mp hlt
    rw [clonePairs]
    apply Copies.congr
    · apply copies_buffer (by simp)
      intro s₀ hs₀
      have hg₀ : h.Grows s₀.heap none := hs₀ ▸ hg
      exact (hclone pr.val s₀ hpr hg₀).bind rfl fun q s₁ hg₁ hq =>
        (ih hpairs (hg₀.trans hg₁)).bind rfl fun qs s₂ hg₂ hqs => copies_pure
          (a := ⟨pr.key, q⟩ :: qs) (Q := fun h' qs =>
            List.Forall₂ (PairDenotes (h'.From s.heap.next) h')
              ((pr :: pairs).map fun pr => (pr.key.data, h.treeAt room pr.val)) qs)
          (.cons ⟨rfl, hq.grows hg₂ (by rw [hs₀]) (by simp)⟩ (hqs.imp fun _ _ hden => ⟨hden.1,
            hden.2.congr fun q hq => ⟨⟨hs₀ ▸ hg₁.next.trans hq.1, hq.2⟩, rfl⟩⟩))
    · rw [List.forall_mem_cons, and_true]
    · rfl
    · show pr.key.data.length + 7 + _ ≤ _
      rw [List.map_cons, Json.copyCostObj, ← Nat.add_assoc]
      exact le_rfl
    · exact fun _ _ hqs => hqs

/-! ## Nodes -/

/-- The contents of a node that denotes the tree wherever they are stored below `lo`. -/
def ContentOf (lo : JsonPtr) (j : Json D) (h' : Heap D) (n : JsonNode D) : Prop :=
  ∀ (h'' : Heap D) (out : JsonPtr), h'.Grows h'' (some out) → lo ≤ h'.next → out < lo →
    h''.node out = n → DenotesIn (h''.From out) h'' j out

theorem copies_node {clone : JsonPtr → M D (Option JsonPtr)} (hclone : CopiesPtr h room clone)
    (hrep : h.RepOk) {p : JsonPtr} (hp : p < h.next) {s : St D} (hg : h.Grows s.heap none) :
    Copies (cloneNode clone (h.node p)) s (h.EndsAt (room + 1) p)
      ((h.treeAt (room + 1) p).nodes - 1) ((h.treeAt (room + 1) p).copyCost - 47)
      (ContentOf s.heap.next (h.treeAt (room + 1) p)) := by
  have hok := hrep p hp
  -- the node is written last, below everything that was copied for it
  have hat : ∀ {h' h'' : Heap D} {out : JsonPtr}, h'.Grows h'' (some out) → s.heap.next ≤ h'.next →
      out < s.heap.next → h''.From out out := fun hgrow hle hout =>
    ⟨le_rfl, lt_of_lt_of_le hout (hle.trans hgrow.next)⟩
  unfold Heap.treeAt Heap.EndsAt Heap.unfold Heap.Ends
  cases hnode : h.node p with
  | string str =>
    apply Copies.congr
    · apply copies_buffer (by simp)
      intro s₀ hs₀
      exact copies_pure (Q := ContentOf s.heap.next (.str str.data))
        fun h'' out hgrow hle hout hn => ⟨hat hgrow hle hout, str, hn, rfl⟩
    · rfl
    · rfl
    · exact le_rfl
    · exact fun _ _ hn => hn
  | array a =>
    rw [hnode] at hok
    apply Copies.congr
    · apply copies_buffer (by simp [sizeofPtr])
      intro s₀ hs₀
      exact (copies_items hclone hok.2 (hs₀ ▸ hg)).bind rfl fun qs s₁ hg₁ hqs =>
        copies_pure (a := .array ⟨qs, a.items.length⟩)
          (Q := ContentOf s.heap.next (.arr (a.items.map (h.treeAt room))))
          fun h'' out hgrow hle hout hn => denotesIn_arr.mpr ⟨hat hgrow hle hout, _, hn,
            hqs.imp fun _ _ hden => hden.grows hgrow (hs₀ ▸ hout.le) (by simpa [hs₀] using hout)⟩
    · exact and_true _ ▸ Iff.rfl
    · rfl
    · simp [Json.copyCost]
    · exact fun _ _ hn => hn
  | object o =>
    rw [hnode] at hok
    apply Copies.congr
    · apply copies_buffer (by simp [sizeofJsonPair])
      intro s₀ hs₀
      exact (copies_pairs hclone (fun pr hpr => (hok.2.1 pr hpr).2) (hs₀ ▸ hg)).bind rfl
        fun qs s₁ hg₁ hqs => copies_pure (a := .object ⟨qs, none, o.pairs.length, false⟩)
          (Q := ContentOf s.heap.next
            (.obj (o.pairs.map fun pr => (pr.key.data, h.treeAt room pr.val))))
          fun h'' out hgrow hle hout hn => denotesIn_obj.mpr ⟨hat hgrow hle hout, _, hn,
            hqs.imp fun _ _ hden => ⟨hden.1,
              hden.2.grows hgrow (hs₀ ▸ hout.le) (by simpa [hs₀] using hout)⟩⟩
    · exact and_true _ ▸ Iff.rfl
    · simp [Json.nodes]
    · simp [Json.copyCost]
    · simp
  | null =>
    exact copies_pure fun h'' out hgrow hle hout hn => ⟨hat hgrow hle hout, hn⟩
  | bool b =>
    exact copies_pure fun h'' out hgrow hle hout hn => ⟨hat hgrow hle hout, hn⟩
  | integer i =>
    exact copies_pure fun h'' out hgrow hle hout hn => ⟨hat hgrow hle hout, hn⟩
  | float f =>
    exact copies_pure fun h'' out hgrow hle hout hn => ⟨hat hgrow hle hout, hn⟩

/-- **What `json_clone` copies**, down to `room` levels. -/
theorem jsonCloneAt_copies (hrep : h.RepOk) : ∀ room : ℕ, CopiesPtr h room (jsonCloneAt room) := by
  intro room
  induction room with
  | zero =>
    intro p s _ _
    exact ⟨none, s, rfl, fun hends => hends.elim⟩
  | succ room ih =>
    intro p s hp hg
    have hnodes : 0 < (h.treeAt (room + 1) p).nodes := Json.nodes_pos _
    have hcost : 47 ≤ (h.treeAt (room + 1) p).copyCost := by
      generalize h.treeAt (room + 1) p = j
      cases j <;> simp [Json.copyCost]
    rw [jsonCloneAt]
    rcases jsonNewNode_cases s with ⟨hmax, hnone⟩ |
      ⟨-, A', ⟨hsome, hcount, hroomy⟩ | ⟨hnone, -, hno⟩⟩
    · refine ⟨none, s, by rw [bind_ok hnone]; rfl, fun _ _ => by omega⟩
    · have hg₁ : h.Grows s.heap.new none :=
        hg.trans ⟨Nat.le_succ _, fun q hq _ => s.heap.new_node_lt hq⟩
      -- the node that is copied is older than the copy
      have hread : (readNode p : M D _) ⟨s.heap.new, A'⟩ = .ok (h.node p) ⟨s.heap.new, A'⟩ := by
        rw [readNode]
        exact congrArg (EStateM.Result.ok · _) (hg₁.node p hp (by simp))
      obtain ⟨r, s₂, hok, hr⟩ := copies_node ih hrep hp (s := ⟨s.heap.new, A'⟩) hg₁
      cases r with
      | none =>
        refine ⟨none, s₂, (bind_ok hsome).trans ((bind_ok hread).trans (bind_ok hok)),
          fun hends hroom => ?_⟩
        have hroom' : s.arena.Roomy (47 + ((h.treeAt (room + 1) p).copyCost - 47)) :=
          hroom.mono (by omega)
        have := hr hends (hroomy _ hroom')
        rw [hcount] at this
        omega
      | some n =>
        obtain ⟨hends, hg₂, hn, hcount', hroomy'⟩ := hr
        have hout : s.heap.next < s₂.heap.next := hg₂.next
        refine ⟨some s.heap.next, ⟨s₂.heap.set s.heap.next n, s₂.arena⟩,
          (bind_ok hsome).trans ((bind_ok hread).trans (bind_ok hok)), hends,
          ⟨hout.le, fun q hq _ => ?_⟩, ?_, ?_, fun m hm => ?_⟩
        · -- only the new node is written
          show (s₂.heap.set s.heap.next n).node q = _
          rw [Heap.set_node_ne _ _ (Nat.ne_of_lt hq), hg₂.node q (Nat.lt_succ_of_lt hq) (by simp)]
          exact s.heap.new_node_lt hq
        · exact hn _ _ (.set ..) hg₂.next (Nat.lt_succ_self _) (Heap.set_node_self ..)
        · show s₂.arena.nodeCount = _
          rw [hcount', hcount]
          omega
        · exact hroomy' m (hroomy _ (hm.mono (by omega)))
    · refine ⟨none, _, by rw [bind_ok hnone]; rfl, fun _ hroom => ?_⟩
      exact absurd (hroom.mono hcost) (hno 0)

/-- A tree that is denoted is copied where there are memory and nodes for it. -/
theorem jsonClone_denotes (hrep : h.RepOk) {j : Json D} {v : JsonPtr} (hv : v < h.next)
    (hden : Denotes h j v) (hlevels : j.levels ≤ jsonMaxDepth) {A : Arena}
    (hroom : A.Roomy j.copyCost) (hcount : A.nodeCount + j.nodes ≤ jsonMaxNodes) :
    ∃ q s, jsonClone v ⟨h, A⟩ = .ok (some q) s ∧ h.Grows s.heap none ∧
      DenotesIn (s.heap.From h.next) s.heap j q ∧ s.arena.nodeCount = A.nodeCount + j.nodes := by
  obtain ⟨r, s, hok, hr⟩ := jsonCloneAt_copies hrep jsonMaxDepth v ⟨h, A⟩ hv (.refl ..)
  have htree : h.treeAt jsonMaxDepth v = j := hden.unfold hlevels
  rw [htree] at hr
  cases r with
  | none =>
    have hlt : jsonMaxNodes < A.nodeCount + j.nodes :=
      hr (hden.ends hlevels (Json.floats_true j)) hroom
    omega
  | some q =>
    obtain ⟨-, hg, hq, hcount', -⟩ := hr
    exact ⟨q, s, hok, hg, hq, hcount'⟩

end SJson
