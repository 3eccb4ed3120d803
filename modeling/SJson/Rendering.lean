/-
# Copies are rendered alike

What `json_write` does depends on the tree that a value denotes only, also where the keys are
sorted by a sort that is not stable (`jsonWrite_congr`).  A copy denotes the same tree, and is
hence written alike for all options and capacities; and since the nodes of a copy are new,
changes of the copy are none of the original (`jsonClone_renders`).
-/
import SJson.SortCongr
import SJson.WriterSpec
import SJson.Traversal

namespace SJson

open ErrState ListRel

/-! ## Order of the pairs -/

section Order

variable {R : JsonPair → JsonPair → Prop} {pairs pairs' : List JsonPair}

/-- The pairs at the same places of two related lists. -/
theorem mapM_pairAt_rel (h : List.Forall₂ R pairs pairs') : ∀ order : List ℕ,
    (∃ l l', order.mapM (pairAt pairs) = .ok l ∧ order.mapM (pairAt pairs') = .ok l' ∧
      List.Forall₂ R l l') ∨
    ∃ e, order.mapM (pairAt pairs) = .error e ∧ order.mapM (pairAt pairs') = .error e := by
  intro order
  induction order with
  | nil => exact .inl ⟨[], [], rfl, rfl, .nil⟩
  | cons i order ih =>
    rw [List.mapM_cons, List.mapM_cons]
    rcases pairAt_rel h i with ⟨a, b, ha, hb, hab⟩ | ⟨ha, hb⟩
    · rw [scan_bind_ok ha, scan_bind_ok hb]
      rcases ih with ⟨l, l', hl, hl', hrel⟩ | ⟨e, he, he'⟩
      · rw [scan_bind_ok hl, scan_bind_ok hl']
        exact .inl ⟨_, _, rfl, rfl, .cons hab hrel⟩
      · rw [scan_bind_error he, scan_bind_error he']
        exact .inr ⟨e, rfl, rfl⟩
    · rw [scan_bind_error ha, scan_bind_error hb]
      exact .inr ⟨_, rfl, rfl⟩

/-- Lists with the same keys are sorted into related lists. -/
theorem sortedPairs_rel (hkey : ∀ {a b}, R a b → a.key.data = b.key.data)
    (h : List.Forall₂ R pairs pairs') :
    (∃ l l', sortedPairs pairs = .ok l ∧ sortedPairs pairs' = .ok l' ∧ List.Forall₂ R l l') ∨
    ∃ e, sortedPairs pairs = .error e ∧ sortedPairs pairs' = .error e := by
  unfold sortedPairs
  rw [sortIndices_congr hkey h]
  cases sortIndices ⟨pairs', true⟩ with
  | error e => exact .inr ⟨e, rfl, rfl⟩
  | ok order => exact mapM_pairAt_rel h order

theorem sortedList_rel (hkey : ∀ {a b}, R a b → a.key.data = b.key.data)
    (h : List.Forall₂ R pairs pairs') :
    List.Forall₂ R (sortedList pairs) (sortedList pairs') := by
  have hok := (sortedPairs_spec pairs).1
  have hok' := (sortedPairs_spec pairs').1
  rcases sortedPairs_rel hkey h with ⟨l, l', hl, hl', hrel⟩ | ⟨e, he, -⟩
  · rw [hok] at hl
    rw [hok'] at hl'
    rwa [Except.ok.inj hl, Except.ok.inj hl']
  · rw [hok] at he
    cases he

/-- What is written of the pairs in their order is the same for related lists. -/
theorem orderPairs_congr {opts : JsonWriteOpts} {k k' : Option (List JsonPair) → WM JsonError}
    (hkey : ∀ {a b}, R a b → a.key.data = b.key.data) (h : List.Forall₂ R pairs pairs')
    (hnone : k none = k' none)
    (hsome : ∀ {l l'}, List.Forall₂ R l l' → k (some l) = k' (some l')) :
    (orderPairs opts pairs >>= k) = (orderPairs opts pairs' >>= k') := by
  funext w
  have hlen := h.length_eq
  rcases orderPairs_cases opts pairs w with ⟨hsort, heq⟩ | ⟨hsort, heq⟩ <;>
    rcases orderPairs_cases opts pairs' w with ⟨hsort', heq'⟩ | ⟨hsort', heq'⟩
  · rw [bind_ok heq, bind_ok heq']
    cases w.sortMem 0 with
    | false => exact congrFun hnone _
    | true => exact congrFun (hsome (sortedList_rel hkey h)) _
  · exact absurd (hlen ▸ hsort) hsort'
  · exact absurd (hlen ▸ hsort') hsort
  · rw [bind_ok heq, bind_ok heq', hsome h]

end Order

/-! ## Containers -/

section Containers

variable {opts : JsonWriteOpts} {depth : ℕ} {write write' : JsonPtr → WM JsonError}

theorem writeItems_congr {ps qs : List JsonPtr}
    (h : List.Forall₂ (fun p q => write p = write' q) ps qs) :
    writeItems opts depth write ps = writeItems opts depth write' qs := by
  induction h with
  | nil => rfl
  | @cons p q ps qs hpq hrest ih =>
    have hlast : ps ≠ [] ↔ qs ≠ [] := by
      rw [← List.length_pos_iff, ← List.length_pos_iff, hrest.length_eq]
    simp only [writeItems, hpq, ih, hlast]

/-- The keys are the same and the values are written alike. -/
def WrittenAlike (write write' : JsonPtr → WM JsonError) (a b : JsonPair) : Prop :=
  a.key.data = b.key.data ∧ write a.val = write' b.val

theorem writePairs_congr {pairs pairs' : List JsonPair}
    (h : List.Forall₂ (WrittenAlike write write') pairs pairs') :
    writePairs opts depth write pairs = writePairs opts depth write' pairs' := by
  induction h with
  | nil => rfl
  | @cons a b pairs pairs' hab hrest ih =>
    have hlast : pairs ≠ [] ↔ pairs' ≠ [] := by
      rw [← List.length_pos_iff, ← List.length_pos_iff, hrest.length_eq]
    simp only [writePairs, hab.1, hab.2, ih, hlast]

end Containers

/-! ## Values -/

variable {D : Type} [CDouble D]

/-- **The writer sees the tree only**: values that denote the same tree are written by the
same function of the state of the writer. -/
theorem jsonWriteValue_congr (opts : JsonWriteOpts) {h h' : Heap D} {j : Json D} :
    ∀ {room : ℕ} {p q : JsonPtr}, Denotes h j p → Denotes h' j q →
      jsonWriteValue h opts room p = jsonWriteValue h' opts room q := by
  induction j using Json.tree_induction with
  | arr items ih =>
    intro room p q hp hq
    cases room with
    | zero => rfl
    | succ room =>
      obtain ⟨-, a, ha, hall⟩ := denotesIn_arr.mp hp
      obtain ⟨-, b, hb, hall'⟩ := denotesIn_arr.mp hq
      have hrel : List.Forall₂
          (fun p q => jsonWriteValue h opts room p = jsonWriteValue h' opts room q)
          a.items b.items :=
        forall₂_trans hall hall' fun j hj p _ q _ hp hq => ih j hj hp hq
      rw [jsonWriteValue, jsonWriteValue, ha, hb]
      simp only [writeNodeAt, writeItems_congr hrel, hrel.length_eq]
  | obj pairs ih =>
    intro room p q hp hq
    cases room with
    | zero => rfl
    | succ room =>
      obtain ⟨-, a, ha, hall⟩ := denotesIn_obj.mp hp
      obtain ⟨-, b, hb, hall'⟩ := denotesIn_obj.mp hq
      have hrel : List.Forall₂
          (WrittenAlike (jsonWriteValue h opts room) (jsonWriteValue h' opts room))
          a.pairs b.pairs :=
        forall₂_trans hall hall' fun kv hkv pr _ pr' _ hpr hpr' =>
          ⟨hpr.1.trans hpr'.1.symm, ih kv hkv hpr.2 hpr'.2⟩
      rw [jsonWriteValue, jsonWriteValue, ha, hb, writeNodeAt, writeNodeAt]
      refine orderPairs_congr (fun hab => hab.1) hrel rfl fun hl => ?_
      simp only [writePairs_congr hl, hrel.length_eq]
  | str data =>
    intro room p q hp hq
    cases room with
    | zero => rfl
    | succ room =>
      obtain ⟨-, a, ha, rfl⟩ := hp
      obtain ⟨-, b, hb, heq⟩ := hq
      rw [jsonWriteValue, jsonWriteValue, ha, hb, writeNodeAt, writeNodeAt, heq]
  | _ =>
    intro room p q hp hq
    cases room with
    | zero => rfl
    | succ room => rw [jsonWriteValue, jsonWriteValue, hp.2, hq.2, writeNodeAt, writeNodeAt]

/-- **`json_write` sees the tree only.** -/
theorem jsonWrite_congr {h h' : Heap D} {j : Json D} {p q : JsonPtr} (hp : Denotes h j p)
    (hq : Denotes h' j q) : jsonWrite h p = jsonWrite h' q := by
  funext buf bufSize opts sortMem
  simp only [jsonWrite, writeAll, jsonWriteValue_congr opts hp hq]

/-! ## Changes after a copy -/

omit [CDouble D] in
/-- An entry of a container in a tree is a node of the tree. -/
theorem DenotesIn.child {ok : JsonPtr → Prop} {h : Heap D} {j : Json D} {p q : JsonPtr}
    (hp : DenotesIn ok h j p) (hpq : h.Child p q) : ∃ j', DenotesIn ok h j' q := by
  unfold Heap.Child at hpq
  cases j with
  | arr items =>
    obtain ⟨-, a, ha, hall⟩ := denotesIn_arr.mp hp
    rw [ha] at hpq
    exact forall₂_right (Q := fun q => ∃ j', DenotesIn ok h j' q) hall
      (fun j _ p hden => ⟨j, hden⟩) q hpq
  | obj pairs =>
    obtain ⟨-, o, ho, hall⟩ := denotesIn_obj.mp hp
    rw [ho] at hpq
    obtain ⟨pr, hpr, rfl⟩ := hpq
    exact forall₂_right (Q := fun pr => ∃ j', DenotesIn ok h j' pr.val) hall
      (fun kv _ pr hden => ⟨kv.2, hden.2⟩) pr hpr
  | str data =>
    obtain ⟨-, s, hs, -⟩ := hp
    rw [hs] at hpq
    exact hpq.elim
  | _ =>
    rw [hp.2] at hpq
    exact hpq.elim

omit [CDouble D] in
/-- All that is reached from the root is a node of the tree. -/
theorem DenotesIn.reach {ok : JsonPtr → Prop} {h : Heap D} {j : Json D} {p q : JsonPtr}
    (hp : DenotesIn ok h j p) (hpq : Relation.ReflTransGen h.Child p q) : ok q := by
  obtain ⟨j', hq⟩ : ∃ j', DenotesIn ok h j' q := by
    induction hpq with
    | refl => exact ⟨j, hp⟩
    | tail _ hchild ih =>
      obtain ⟨j', hden⟩ := ih
      exact hden.child hchild
  exact hq.ok

/-- The second heap comes from the first by calls that change containers from `lo` on only:
those of a copy, and what was made since. -/
inductive Heap.Edits (lo : JsonPtr) (h : Heap D) : Heap D → Prop
  | refl : h.Edits lo h
  | call {h' : Heap D} (c : ApiCall D) (A : Arena) (hedits : h.Edits lo h')
      (htarget : ∀ p, c.target = some p → lo ≤ p) :
      h.Edits lo (stateAfter c.run ⟨h', A⟩).heap

/-- Changes of what is new leave the nodes that were there. -/
theorem Heap.Edits.grows {h₀ h h' : Heap D} (hedits : h.Edits h₀.next h')
    (hg : h₀.Grows h none) : h₀.Grows h' none := by
  induction hedits with
  | refl => exact hg
  | @call h' c A _ htarget ih =>
    have hcall := apiCall_grows c ⟨h', A⟩
    cases htgt : c.target with
    | none =>
      rw [htgt] at hcall
      exact ih.trans hcall
    | some p =>
      rw [htgt] at hcall
      exact (ih.except.trans hcall).fresh (htarget p htgt)

/-- **Copies are rendered alike, and are apart.**  Whatever was built, where `json_clone`
returns a copy: `json_write` of the copy has the outcome of `json_write` of the original, for
all options, capacities and requests for memory to sort in that are granted; all nodes of the
copy are new; and whatever is pushed to or set in containers of the copy afterwards, the
original and what `json_write` makes of it stay. -/
theorem jsonClone_renders {h : Heap D} (hh : ApiHeap h) {v : JsonPtr} (hv : v < h.next)
    {A : Arena} {c : JsonPtr} {s : St D} (hclone : jsonClone v ⟨h, A⟩ = .ok (some c) s) :
    (∀ buf bufSize opts sortMem,
      jsonWrite s.heap c buf bufSize opts sortMem = jsonWrite h v buf bufSize opts sortMem) ∧
    (∀ p, Relation.ReflTransGen s.heap.Child c p → h.next ≤ p) ∧
    ∀ h', s.heap.Edits h.next h' → (∀ p, p < h.next → h'.node p = h.node p) ∧
      ∀ buf bufSize opts sortMem,
        jsonWrite h' v buf bufSize opts sortMem = jsonWrite h v buf bufSize opts sortMem := by
  obtain ⟨r, s', hok, hr⟩ := jsonCloneAt_copies hh.repOk jsonMaxDepth v ⟨h, A⟩ hv (.refl ..)
  obtain ⟨rfl, rfl⟩ : some c = r ∧ s = s' := by
    rw [jsonClone, hok] at hclone
    cases hclone
    exact ⟨rfl, rfl⟩
  obtain ⟨hends, hg, hcopy, -⟩ := hr
  have hden : Denotes h (h.treeAt jsonMaxDepth v) v := hends.denotes
  refine ⟨fun buf bufSize opts sortMem => ?_, fun p hp => (hcopy.reach hp).1, fun h' hedits => ?_⟩
  · rw [jsonWrite_congr hcopy.denotes hden]
  · have hgrows := hedits.grows hg
    refine ⟨fun p hp => hgrows.node p hp (by simp), fun buf bufSize opts sortMem => ?_⟩
    rw [jsonWrite_congr (hden.grows hh.repOk hv hgrows) hden]

/-- A copy of `{"b":1,"a":2}`. -/
theorem jsonClone_renders_object :
    ∃ (_ : CDouble Unit) (h : Heap Unit) (v c : JsonPtr) (A : Arena) (s : St Unit), ApiHeap h ∧
      jsonClone v ⟨h, A⟩ = .ok (some c) s ∧ ∀ buf bufSize opts sortMem,
        jsonWrite s.heap c buf bufSize opts sortMem = jsonWrite h v buf bufSize opts sortMem := by
  obtain ⟨A, hA⟩ := Arena.exists_fresh
  let _ : CDouble Unit := .unit
  have href : refParse [0x7B, 0x22, 0x62, 0x22, 0x3A, 0x31, 0x2C, 0x22, 0x61, 0x22, 0x3A, 0x32,
      0x7D] 0 = .ok ((.obj [([0x62], .int 1), ([0x61], .int 2)] : Json Unit), 3) := by rfl
  obtain ⟨v, s, -, hapi, hv, -, hden, -⟩ := ApiHeap.empty.exists_parsed (by decide) href hA
  obtain ⟨c, t, hclone, -⟩ := jsonClone_denotes hapi.repOk hv hden.denotes (by decide)
    (hA.roomy (by decide)) (by rw [hA.nodeCount]; decide)
  exact ⟨_, s.heap, v, c, A, t, hapi, hclone, (jsonClone_renders hapi hv hclone).1⟩

end SJson
