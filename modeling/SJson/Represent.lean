/-
# Values in order

The invariant of the nodes that the functions of the library hand out (`Heap.RepOk`):
strings and keys are well-formed, not too long, and carry their hash; containers stay
within their storage and the length limit, and their entries are nodes; an object that
is marked as sorted has an index that is sorted.

Every function that makes or changes values keeps it, also when it fails
(`keeps_jsonObjSet`, `keeps_jsonCloneAt` and so on).
-/
import SJson.ParserSafety
import SJson.Equal

namespace SJson

open ErrState Window

variable {D : Type}

/-! ## The invariant -/

/-- A string in order. -/
structure JsonStr.Ok (s : JsonStr) : Prop where
  hash : s.hash = jsonFnv1a s.data
  utf8 : IsUtf8 s.data
  len : s.len ≤ jsonMaxStringLen

/-- `idx` lists the indices of the pairs in the order of `json__key_cmp`. -/
structure IsIndex (pairs : List JsonPair) (idx : List ℕ) : Prop where
  perm : idx.Perm (List.range pairs.length)
  sorted : idx.Pairwise (JsonSortCtx.le ⟨pairs, false⟩)

/-- An object marked as sorted has a sorted index. -/
def JsonObj.Indexed (o : JsonObj) : Prop :=
  o.isSorted = true → ∃ idx, o.sortedIdx = some idx ∧ IsIndex o.pairs idx

/-- A node in order, where there are `next` nodes. -/
def JsonNode.Ok (next : JsonPtr) : JsonNode D → Prop
  | .string s => s.Ok
  | .array a => a.Ok ∧ ∀ p ∈ a.items, p < next
  | .object o => o.Ok ∧ (∀ pair ∈ o.pairs, pair.key.Ok ∧ pair.val < next) ∧ o.Indexed
  | _ => True

/-- Every node is in order. -/
def Heap.RepOk (h : Heap D) : Prop := ∀ p, p < h.next → (h.node p).Ok h.next

theorem JsonNode.Ok.mono {next next' : JsonPtr} (hle : next ≤ next') {n : JsonNode D}
    (h : n.Ok next) : n.Ok next' := by
  cases n with
  | array a => exact ⟨h.1, fun p hp => lt_of_lt_of_le (h.2 p hp) hle⟩
  | object o => exact ⟨h.1, fun pr hpr =>
      ⟨(h.2.1 pr hpr).1, lt_of_lt_of_le (h.2.1 pr hpr).2 hle⟩, h.2.2⟩
  | string s => exact h
  | _ => trivial

theorem JsonNode.ok_emptyArray (next : JsonPtr) : (JsonNode.array .empty : JsonNode D).Ok next :=
  ⟨⟨le_rfl, Nat.zero_le _⟩, by simp [JsonArr.empty]⟩

theorem JsonNode.ok_emptyObject (next : JsonPtr) : (JsonNode.object .empty : JsonNode D).Ok next :=
  ⟨⟨le_rfl, Nat.zero_le _⟩, by simp [JsonObj.empty], by simp [JsonObj.empty, JsonObj.Indexed]⟩

theorem Heap.RepOk.empty : (Heap.empty : Heap D).RepOk := fun p hp => absurd hp (Nat.not_lt_zero p)

theorem Heap.RepOk.new {h : Heap D} (hrep : h.RepOk) : h.new.RepOk := by
  intro p hp
  rcases Nat.lt_succ_iff_lt_or_eq.mp hp with hlt | rfl
  · rw [h.new_node_lt hlt]
    exact (hrep p hlt).mono (Nat.le_succ _)
  · show JsonNode.Ok _ (Function.update h.node h.next .null h.next)
    rw [Function.update_self]
    trivial

theorem Heap.RepOk.set {h : Heap D} (hrep : h.RepOk) {n : JsonNode D} (q : JsonPtr)
    (hn : n.Ok h.next) : (h.set q n).RepOk := by
  intro p hp
  by_cases hpq : p = q
  · rw [hpq, Heap.set_node_self]
    exact hn
  · rw [Heap.set_node_ne _ _ hpq]
    exact hrep p hp

/-- What every function leaves behind that starts with `lo` nodes. -/
def Kept (lo : JsonPtr) (s : St D) : Prop := s.heap.RepOk ∧ lo ≤ s.heap.next

/-- A function that keeps the nodes in order, and what it returns. -/
def Keeps {α : Type} (lo : JsonPtr) (x : M D α) (s : St D) (Q : α → St D → Prop) : Prop :=
  Ensures x s (fun a s' => Kept lo s' ∧ Q a s') (fun _ s' => Kept lo s')

theorem Kept.arena {lo : JsonPtr} {s : St D} (h : Kept lo s) (A : Arena) :
    Kept lo { s with arena := A } := h

theorem Kept.set {lo : JsonPtr} {s : St D} (h : Kept lo s) {n : JsonNode D} (q : JsonPtr)
    (A : Arena) (hn : n.Ok s.heap.next) : Kept lo ⟨s.heap.set q n, A⟩ := ⟨h.1.set q hn, h.2⟩

/-! ## Allocation -/

theorem keeps_bufferFor {lo : JsonPtr} {s : St D} (h : Kept lo s) (need : Bool) (n : ℕ)
    (hn : need = true → 0 < n) :
    Keeps lo (bufferFor need n) s fun _ s' => s'.heap = s.heap := by
  obtain ⟨A', -, hres⟩ := bufferFor_cases s need n hn
  rcases hres with hok | ⟨hok, -⟩
  · exact .of_ok hok ⟨h, rfl⟩
  · exact .of_ok hok ⟨h, rfl⟩

theorem keeps_jsonNewNode {lo : JsonPtr} {s : St D} (h : Kept lo s) :
    Keeps lo jsonNewNode s fun p s' => ∀ v, p = some v → v < s'.heap.next := by
  rcases jsonNewNode_cases s with ⟨-, hnone⟩ | ⟨-, A', ⟨hsome, -⟩ | ⟨hnone, -⟩⟩
  · exact .of_ok hnone ⟨h, by simp⟩
  · refine .of_ok hsome ⟨⟨h.1.new, h.2.trans (Nat.le_succ _)⟩, fun v hv => ?_⟩
    obtain rfl := Option.some.inj hv
    exact Nat.lt_succ_self _
  · exact .of_ok hnone ⟨h, by simp⟩

theorem keeps_arrStore {lo : JsonPtr} {s : St D} (h : Kept lo s) {arr item : JsonPtr} {a : JsonArr}
    (hlt : arr < s.heap.next) (harr : s.heap.node arr = .array a) (hitem : item < s.heap.next) :
    Keeps lo (arrStore arr item) s fun _ s' => s'.heap.next = s.heap.next := by
  have hok := h.1 arr hlt
  rw [harr] at hok
  rcases arrStore_cases s item harr hok.1 with
    ⟨-, herr⟩ | ⟨-, A', c, -, ⟨hstore, hok'⟩ | ⟨herr, -⟩⟩
  · exact .of_error herr h
  · refine .of_ok hstore ⟨h.set arr A' ⟨hok', fun p hp => ?_⟩, rfl⟩
    rcases List.mem_append.mp hp with hp | hp
    · exact hok.2 p hp
    · rw [List.mem_singleton.mp hp]
      exact hitem
  · exact .of_error herr h

theorem keeps_objStore {lo : JsonPtr} {s : St D} (h : Kept lo s) {obj val : JsonPtr} {key : JsonStr}
    {o : JsonObj} (hlt : obj < s.heap.next) (hobj : s.heap.node obj = .object o)
    (hidx : o.sortedIdx = none) (hsorted : o.isSorted = false) (hkey : key.Ok)
    (hval : val < s.heap.next) :
    Keeps lo (objStore obj key val) s fun _ s' => s'.heap.next = s.heap.next := by
  have hok := h.1 obj hlt
  rw [hobj] at hok
  rcases objStore_cases s key val hobj hok.1 hidx hsorted with
    ⟨-, herr⟩ | ⟨-, A', c, -, ⟨hstore, hok'⟩ | ⟨herr, -⟩⟩
  · exact .of_error herr h
  · refine .of_ok hstore ⟨h.set obj A' ⟨hok', fun pr hpr => ?_, ?_⟩, rfl⟩
    · rcases List.mem_append.mp hpr with hpr | hpr
      · exact hok.2.1 pr hpr
      · rw [List.mem_singleton.mp hpr]
        exact ⟨hkey, hval⟩
    · intro hs
      exact absurd hs (by simp [hsorted])
  · exact .of_error herr h

/-! ## The sorted index -/

/-- The sort of the library lists the indices in order. -/
theorem sortIndices_spec (ctx : JsonSortCtx) :
    ∃ idx, sortIndices ctx = .ok idx ∧ idx.Perm (List.range ctx.pairs.length) ∧
      idx.Pairwise ctx.le := by
  unfold sortIndices
  by_cases hn : ctx.pairs.length > 1
  · rw [if_pos hn]
    have hvalid : AllOn 0 (ctx.pairs.length - 1) ctx.Valid fun i => i := fun i _ hi =>
      show i < ctx.pairs.length by omega
    obtain ⟨arr, hok, hperm, hsorted⟩ :=
      jsonIntrosort_spec ctx (2 * jsonIlog2 ctx.pairs.length) 0 _ hvalid
    refine ⟨_, scan_bind_ok hok, ?_, ?_⟩
    · have hmap := hperm.map_range (show ctx.pairs.length - 1 < ctx.pairs.length by omega)
      rwa [List.map_id'] at hmap
    · rw [List.pairwise_map]
      refine List.pairwise_lt_range.imp_of_mem fun {a b} _ hb hab => ?_
      have hb' := List.mem_range.mp hb
      exact hsorted a b (Nat.zero_le _) hab.le (by omega)
  · rw [if_neg hn]
    refine ⟨_, rfl, .refl _, ?_⟩
    have hlen : ctx.pairs.length = 0 ∨ ctx.pairs.length = 1 := by omega
    rcases hlen with h0 | h1
    · rw [h0]
      exact List.Pairwise.nil
    · rw [h1]
      exact List.pairwise_singleton ..

/-- Storage for the sorted index of an object, unless it has some. -/
def idxBuffer (o : JsonObj) : M D Bool := bufferFor o.sortedIdx.isNone (o.cap * sizeofUint32)

/-- What finalizing does to an object: nothing, or an index is added. -/
theorem jsonObjSort_cases (s : St D) (v : JsonPtr) (o : JsonObj)
    (hcap : 0 < o.pairs.length → 0 < o.cap) :
    (o.isSorted = true ∨ o.pairs.length = 0) ∧ jsonObjSort v o s = .ok () s ∨
    (o.isSorted = false ∧ 0 < o.pairs.length ∧ ∃ A',
      (idxBuffer o s = .ok false { s with arena := A' } ∧
        jsonObjSort v o s = .error (.err .oom) { s with arena := A' } ∧
          ∀ m, ¬ s.arena.Roomy (o.cap * sizeofUint32 + 7 + m)) ∨
      (idxBuffer o s = .ok true { s with arena := A' } ∧
        ∃ idx, sortIndices ⟨o.pairs, false⟩ = .ok idx ∧ IsIndex o.pairs idx ∧
          jsonObjSort v o s = .ok ()
            ⟨s.heap.set v (.object { o with sortedIdx := some idx, isSorted := true }), A'⟩)) := by
  unfold jsonObjSort
  by_cases hskip : o.isSorted = true ∨ o.pairs.length = 0
  · exact .inl ⟨hskip, by rw [if_pos hskip]; rfl⟩
  obtain ⟨hsorted, hlen⟩ := not_or.mp hskip
  refine .inr ⟨by simpa using hsorted, by omega, ?_⟩
  rw [if_neg hskip]
  obtain ⟨A', -, hres⟩ := bufferFor_cases s o.sortedIdx.isNone (o.cap * sizeofUint32) fun _ =>
    Nat.mul_pos (hcap (by omega)) (by decide)
  refine ⟨A', ?_⟩
  rcases hres with hok | ⟨hok, hroom⟩
  · obtain ⟨idx, hidx, hperm, hpair⟩ := sortIndices_spec ⟨o.pairs, false⟩
    refine .inr ⟨hok, idx, hidx, ⟨hperm, hpair⟩, ?_⟩
    rw [bind_ok hok, if_pos rfl, bind_ok (ofScan_ok hidx)]
    rfl
  · refine .inl ⟨hok, ?_, hroom⟩
    rw [bind_ok hok]
    rfl

theorem keeps_jsonObjFinalize {lo : JsonPtr} {s : St D} (h : Kept lo s) {v : JsonPtr}
    (hv : v < s.heap.next) : Keeps lo (jsonObjFinalize v) s fun _ _ => True := by
  unfold jsonObjFinalize
  refine ensures_bind (.of_ok rfl ?_)
  have hok := h.1 v hv
  cases hnode : s.heap.node v with
  | object o =>
    rw [hnode] at hok
    have hcap := hok.1.1
    rcases jsonObjSort_cases s v o (by omega) with
      ⟨-, hsort⟩ | ⟨-, -, A', ⟨-, herr, -⟩ | ⟨-, idx, -, hidx, hsort⟩⟩
    · exact .of_ok hsort ⟨h, trivial⟩
    · exact .of_error herr h
    · exact .of_ok hsort ⟨h.set v A' ⟨hok.1, hok.2.1, fun _ => ⟨idx, rfl, hidx⟩⟩, trivial⟩
  | _ => exact ensures_throw h

/-! ## Construction -/

/-- What is made is the next node; a fresh arena has the memory for it. -/
theorem makeNode_cases (n : JsonNode D) (h : Heap D) (A : Arena) :
    (∃ A', makeNode n ⟨h, A⟩ = .ok (some h.next) ⟨h.new.set h.next n, A'⟩) ∨
    ¬ A.Fresh ∧ ∃ A', makeNode n ⟨h, A⟩ = .ok none ⟨h, A'⟩ := by
  unfold makeNode
  rcases jsonNewNode_cases (⟨h, A⟩ : St D) with ⟨hmax, hnone⟩ |
    ⟨-, A', ⟨hsome, -⟩ | ⟨hnone, -, hno⟩⟩
  · refine .inr ⟨fun hA => ?_, A, by rw [bind_ok hnone]; rfl⟩
    rw [hA.nodeCount] at hmax
    exact absurd hmax (by decide)
  · exact .inl ⟨A', by rw [bind_ok hsome]; rfl⟩
  · exact .inr ⟨fun hA => hno 0 (hA.roomy (by decide)), A', by rw [bind_ok hnone]; rfl⟩

theorem keeps_makeNode {lo : JsonPtr} {s : St D} (h : Kept lo s) {n : JsonNode D}
    (hn : ∀ next, n.Ok next) :
    Keeps lo (makeNode n) s fun p s' => ∀ v, p = some v → v < s'.heap.next := by
  unfold makeNode
  refine ensures_bind ((keeps_jsonNewNode h).mono ?_ fun _ _ he => he)
  intro p s' hp
  cases p with
  | none => exact ensures_pure hp
  | some v => exact ensures_bind (.of_ok rfl (ensures_pure ⟨hp.1.set v s'.arena (hn _), hp.2⟩))

/-- A valid string with its hash is in order. -/
theorem JsonStr.ok_of_valid {s : List UInt8} (hvalid : jsonValidUtf8 s = .ok true)
    (hlen : s.length ≤ jsonMaxStringLen) : JsonStr.Ok ⟨s, jsonFnv1a s⟩ :=
  ⟨rfl, (jsonValidUtf8_iff s).mp hvalid, hlen⟩

theorem keeps_jsonMakeString {lo : JsonPtr} {s : St D} (h : Kept lo s) (str : List UInt8) :
    Keeps lo (jsonMakeString str) s fun p s' => ∀ v, p = some v → v < s'.heap.next := by
  unfold jsonMakeString
  refine ensures_ite (fun _ => ensures_pure ⟨h, by simp⟩) fun hlen => ?_
  obtain ⟨valid, hvalid⟩ := jsonValidUtf8_total str
  refine ensures_bind (.of_ok (ofScan_ok hvalid) ?_)
  refine ensures_ite (fun _ => ensures_pure ⟨h, by simp⟩) fun hinv => ?_
  refine ensures_bind ((keeps_jsonNewNode h).mono ?_ fun _ _ he => he)
  intro p s' hp
  cases p with
  | none => exact ensures_pure hp
  | some v =>
    refine ensures_bind ((keeps_bufferFor hp.1 _ str.length (by simp)).mono ?_ fun _ _ he => he)
    intro hasCopy s'' hs
    refine ensures_ite (fun _ => ?_) fun _ => ensures_pure ⟨hs.1, by simp⟩
    have hok : JsonStr.Ok ⟨str, jsonFnv1a str⟩ := by
      cases valid with
      | true => exact JsonStr.ok_of_valid hvalid (not_lt.mp hlen)
      | false =>
        have hnil : str = [] := by simpa using hinv
        subst hnil
        exact ⟨rfl, isUtf8_nil, Nat.zero_le _⟩
    refine ensures_bind (.of_ok rfl (ensures_pure ⟨hs.1.set v s''.arena hok, fun w hw => ?_⟩))
    show w < s''.heap.next
    rw [hs.2]
    exact hp.2 w hw

theorem keeps_jsonArrPush {lo : JsonPtr} {s : St D} (h : Kept lo s) {arr item : JsonPtr}
    (harr : arr < s.heap.next) (hitem : item < s.heap.next) :
    Keeps lo (jsonArrPush arr item) s fun _ _ => True := by
  unfold jsonArrPush
  refine ensures_bind (.of_ok rfl ?_)
  cases hnode : s.heap.node arr with
  | array a =>
    exact (keeps_arrStore h harr hnode hitem).mono (fun _ _ hk => ⟨hk.1, trivial⟩)
      (fun _ _ he => he)
  | _ => exact ensures_throw h

theorem setPair_spec {hash : UInt32} {key : List UInt8} {val : JsonPtr} :
    ∀ {pairs pairs' : List JsonPair}, setPair hash key val pairs = some pairs' →
      pairs'.map JsonPair.key = pairs.map JsonPair.key ∧
        ∀ pr ∈ pairs', pr.val = val ∨ pr ∈ pairs := by
  intro pairs
  induction pairs with
  | nil =>
    intro pairs' h
    simp [setPair] at h
  | cons pair pairs ih =>
    intro pairs' h
    rw [setPair] at h
    by_cases hmatch : keyMatches hash key pair.key = true
    · rw [if_pos hmatch, Option.some.injEq] at h
      subst h
      refine ⟨rfl, fun pr hpr => ?_⟩
      rcases List.mem_cons.mp hpr with rfl | hpr
      · exact .inl rfl
      · exact .inr (List.mem_cons_of_mem _ hpr)
    · rw [if_neg hmatch, Option.map_eq_some_iff] at h
      obtain ⟨rest, hrest, rfl⟩ := h
      obtain ⟨hkeys, hmem⟩ := ih hrest
      refine ⟨by rw [List.map_cons, List.map_cons, hkeys], fun pr hpr => ?_⟩
      rcases List.mem_cons.mp hpr with rfl | hpr
      · exact .inr List.mem_cons_self
      · exact (hmem pr hpr).imp id (List.mem_cons_of_mem _)

theorem JsonSortCtx.key_eq (pairs : List JsonPair) (lexical : Bool) (i : ℕ) :
    JsonSortCtx.key ⟨pairs, lexical⟩ i = ((pairs.map JsonPair.key)[i]?).getD ⟨[], 0⟩ := by
  unfold JsonSortCtx.key
  rw [List.getElem?_map]
  cases pairs[i]? <;> rfl

/-- Replacing values does not disturb the index. -/
theorem IsIndex.congr {pairs pairs' : List JsonPair} {idx : List ℕ} (h : IsIndex pairs idx)
    (hkeys : pairs'.map JsonPair.key = pairs.map JsonPair.key) : IsIndex pairs' idx := by
  have hlen : pairs'.length = pairs.length := by
    simpa using congrArg List.length hkeys
  refine ⟨hlen ▸ h.perm, h.sorted.imp fun {a b} hab => ?_⟩
  unfold JsonSortCtx.le at hab ⊢
  rw [JsonSortCtx.key_eq, JsonSortCtx.key_eq] at hab ⊢
  rwa [hkeys]

/-- The object with the pairs that `setPair` returns. -/
theorem JsonObj.ok_setPair {next val : JsonPtr} {hash : UInt32} {key : List UInt8} {o : JsonObj}
    {pairs : List JsonPair} (h : (JsonNode.object o : JsonNode D).Ok next) (hval : val < next)
    (hset : setPair hash key val o.pairs = some pairs) :
    (JsonNode.object { o with pairs := pairs } : JsonNode D).Ok next := by
  obtain ⟨⟨hlen, hcap⟩, hpairs, hidx⟩ := h
  obtain ⟨hkeys, hmem⟩ := setPair_spec hset
  have hlen' : pairs.length = o.pairs.length := by
    simpa using congrArg List.length hkeys
  refine ⟨⟨by show pairs.length ≤ o.cap; omega, hcap⟩, fun pr hpr => ⟨?_, ?_⟩, fun hs => ?_⟩
  · have hk : pr.key ∈ o.pairs.map JsonPair.key := hkeys ▸ List.mem_map_of_mem hpr
    obtain ⟨pr0, hpr0, hk0⟩ := List.mem_map.mp hk
    exact hk0 ▸ (hpairs pr0 hpr0).1
  · rcases hmem pr hpr with hv | hold
    · rw [hv]
      exact hval
    · exact (hpairs pr hold).2
  · obtain ⟨idx, hsome, hindex⟩ := hidx hs
    exact ⟨idx, hsome, hindex.congr hkeys⟩

/-- The object that `objRoom` returns. -/
theorem JsonObj.Grown.ok {next : JsonPtr} {o o' : JsonObj} (hg : o.Grown o')
    (h : (JsonNode.object o : JsonNode D).Ok next) : (JsonNode.object o' : JsonNode D).Ok next := by
  refine ⟨⟨by rw [hg.pairs]; exact hg.room.le, hg.cap⟩, by rw [hg.pairs]; exact h.2.1, ?_⟩
  intro hs
  obtain rfl | ⟨-, hunsorted⟩ := hg.index
  · exact h.2.2 hs
  · simp [hunsorted] at hs

theorem keeps_insertPair {lo : JsonPtr} {s : St D} (h : Kept lo s) {obj val : JsonPtr}
    {key : List UInt8} {o : JsonObj} (hobj : (JsonNode.object o : JsonNode D).Ok s.heap.next)
    (hkey : JsonStr.Ok ⟨key, jsonFnv1a key⟩) (hval : val < s.heap.next) :
    Keeps lo (insertPair obj o key val) s fun _ _ => True := by
  unfold insertPair
  rcases objRoom_cases s hobj.1 with ⟨-, herr⟩ | ⟨-, A', o', hgrown, -, hok | ⟨herr, -⟩⟩
  · exact ensures_bind (.of_error herr h)
  · have ho' := hgrown.ok hobj
    have h' : Kept lo ⟨s.heap.set obj (.object o'), A'⟩ := h.set obj A' ho'
    refine ensures_bind (.of_ok hok (ensures_bind (.of_ok rfl ?_)))
    refine ensures_bind ((keeps_bufferFor h' _ key.length (by simp)).mono ?_ fun _ _ he => he)
    intro hasCopy s' ⟨hs', hheap⟩
    refine ensures_ite (fun _ => ?_) fun _ => ensures_throw hs'
    refine ensures_ite (fun hroom => ?_) fun _ => ensures_throw hs'
    have hnext : s'.heap.next = s.heap.next := by rw [hheap]; rfl
    refine .of_ok rfl ⟨hs'.set obj s'.arena ?_, trivial⟩
    rw [hnext]
    refine ⟨⟨by simpa using hroom, ho'.1.2⟩, fun pr hpr => ?_, fun hs => absurd hs (by simp)⟩
    rcases List.mem_append.mp hpr with hpr | hpr
    · exact ho'.2.1 pr hpr
    · rw [List.mem_singleton.mp hpr]
      exact ⟨hkey, hval⟩
  · exact ensures_bind (.of_error herr h)

theorem keeps_jsonObjSet {lo : JsonPtr} {s : St D} (h : Kept lo s) {obj val : JsonPtr}
    (key : List UInt8) (hobj : obj < s.heap.next) (hval : val < s.heap.next) :
    Keeps lo (jsonObjSet obj key val) s fun _ _ => True := by
  unfold jsonObjSet
  refine ensures_bind (.of_ok rfl ?_)
  have hok := h.1 obj hobj
  cases hnode : s.heap.node obj with
  | object o =>
    rw [hnode] at hok
    refine ensures_ite (fun _ => ensures_throw h) fun hlen => ?_
    obtain ⟨valid, hvalid⟩ := jsonValidUtf8_total key
    refine ensures_bind (.of_ok (ofScan_ok hvalid) ?_)
    refine ensures_ite (fun _ => ensures_throw h) fun hinv => ?_
    have hkey : JsonStr.Ok ⟨key, jsonFnv1a key⟩ := by
      obtain rfl : valid = true := by simpa using hinv
      exact JsonStr.ok_of_valid hvalid (not_lt.mp hlen)
    cases hset : setPair (jsonFnv1a key) key val o.pairs with
    | some pairs => exact .of_ok rfl ⟨h.set obj s.arena (JsonObj.ok_setPair hok hval hset), trivial⟩
    | none => exact keeps_insertPair h hok hkey hval
  | _ => exact ensures_throw h

/-! ## Copies -/

theorem Kept.mono {lo lo' : JsonPtr} {s : St D} (h : Kept lo s) (hle : lo' ≤ lo) : Kept lo' s :=
  ⟨h.1, hle.trans h.2⟩

/-- A function on pointers that keeps the nodes in order and returns a pointer to one. -/
def KeepsPtr (f : JsonPtr → M D (Option JsonPtr)) : Prop :=
  ∀ (s : St D) p, s.heap.RepOk → p < s.heap.next →
    Keeps s.heap.next (f p) s fun r s' => ∀ v, r = some v → v < s'.heap.next

/-- A list of pairs in order, where there are `next` nodes. -/
def PairsOk (next : JsonPtr) (pairs : List JsonPair) : Prop :=
  ∀ pr ∈ pairs, pr.key.Ok ∧ pr.val < next

theorem keeps_cloneItems {clone : JsonPtr → M D (Option JsonPtr)} (hclone : KeepsPtr clone) :
    ∀ {ps : List JsonPtr} {s : St D}, s.heap.RepOk → (∀ p ∈ ps, p < s.heap.next) →
      Keeps s.heap.next (cloneItems clone ps) s fun r s' =>
        ∀ qs, r = some qs → qs.length = ps.length ∧ ∀ q ∈ qs, q < s'.heap.next := by
  intro ps
  induction ps with
  | nil =>
    intro s hrep _
    refine ensures_pure ⟨⟨hrep, le_rfl⟩, fun qs hqs => ?_⟩
    obtain rfl := Option.some.inj hqs
    exact ⟨rfl, by simp⟩
  | cons p ps ih =>
    intro s hrep hps
    rw [cloneItems]
    refine ensures_bind ((hclone s p hrep (hps p List.mem_cons_self)).mono ?_ fun _ _ he => he)
    intro r s' ⟨hs', hr⟩
    cases r with
    | none => exact ensures_pure ⟨hs', by simp⟩
    | some q =>
      have hrest := ih hs'.1 fun p' hp' =>
        lt_of_lt_of_le (hps p' (List.mem_cons_of_mem _ hp')) hs'.2
      refine ensures_bind (hrest.mono ?_ fun _ _ he => he.mono hs'.2)
      intro r' s'' ⟨hs'', hr'⟩
      cases r' with
      | none => exact ensures_pure ⟨hs''.mono hs'.2, by simp⟩
      | some qs =>
        refine ensures_pure ⟨hs''.mono hs'.2, fun qs' hqs' => ?_⟩
        obtain rfl := Option.some.inj hqs'
        obtain ⟨hlen, hall⟩ := hr' qs rfl
        exact ⟨by simp [hlen], List.forall_mem_cons.mpr ⟨lt_of_lt_of_le (hr q rfl) hs''.2, hall⟩⟩

theorem keeps_clonePairs {clone : JsonPtr → M D (Option JsonPtr)} (hclone : KeepsPtr clone) :
    ∀ {pairs : List JsonPair} {s : St D}, s.heap.RepOk → PairsOk s.heap.next pairs →
      Keeps s.heap.next (clonePairs clone pairs) s fun r s' =>
        ∀ qs, r = some qs → qs.length = pairs.length ∧ PairsOk s'.heap.next qs := by
  intro pairs
  induction pairs with
  | nil =>
    intro s hrep _
    refine ensures_pure ⟨⟨hrep, le_rfl⟩, fun qs hqs => ?_⟩
    obtain rfl := Option.some.inj hqs
    exact ⟨rfl, by simp [PairsOk]⟩
  | cons pair pairs ih =>
    intro s hrep hpairs
    obtain ⟨⟨hkey, hval⟩, hrest⟩ := List.forall_mem_cons.mp hpairs
    rw [clonePairs]
    refine ensures_bind ((keeps_bufferFor ⟨hrep, le_rfl⟩ _ _ (by simp)).mono ?_ fun _ _ he => he)
    intro hasKey s' ⟨hs', hheap⟩
    refine ensures_ite (fun _ => ?_) fun _ => ensures_pure ⟨hs', by simp⟩
    have hnext : s'.heap.next = s.heap.next := by rw [hheap]
    refine ensures_bind ((hclone s' pair.val hs'.1 (hnext ▸ hval)).mono ?_
      fun _ _ he => he.mono hnext.ge)
    intro r s'' ⟨hs'', hr⟩
    rw [hnext] at hs''
    cases r with
    | none => exact ensures_pure ⟨hs'', by simp⟩
    | some q =>
      have hih := ih hs''.1 fun pr hpr =>
        ⟨(hrest pr hpr).1, lt_of_lt_of_le (hrest pr hpr).2 hs''.2⟩
      refine ensures_bind (hih.mono ?_ fun _ _ he => he.mono hs''.2)
      intro r' s3 ⟨hs3, hr'⟩
      cases r' with
      | none => exact ensures_pure ⟨hs3.mono hs''.2, by simp⟩
      | some qs =>
        refine ensures_pure ⟨hs3.mono hs''.2, fun qs' hqs' => ?_⟩
        obtain rfl := Option.some.inj hqs'
        obtain ⟨hlen, hall⟩ := hr' qs rfl
        exact ⟨by simp [hlen],
          List.forall_mem_cons.mpr ⟨⟨hkey, lt_of_lt_of_le (hr q rfl) hs3.2⟩, hall⟩⟩

theorem keeps_cloneNode {clone : JsonPtr → M D (Option JsonPtr)} (hclone : KeepsPtr clone)
    {n : JsonNode D} {s : St D} (hrep : s.heap.RepOk) (hn : n.Ok s.heap.next) :
    Keeps s.heap.next (cloneNode clone n) s fun r s' => ∀ n', r = some n' → n'.Ok s'.heap.next := by
  have hkept : Kept s.heap.next s := ⟨hrep, le_rfl⟩
  cases n with
  | string str =>
    refine ensures_bind ((keeps_bufferFor hkept _ _ (by simp)).mono ?_ fun _ _ he => he)
    intro hasCopy s' ⟨hs', _⟩
    refine ensures_ite (fun _ => ensures_pure ⟨hs', fun n' hn' => ?_⟩) fun _ =>
      ensures_pure ⟨hs', by simp⟩
    obtain rfl := Option.some.inj hn'
    exact hn
  | array a =>
    obtain ⟨⟨hlen, hcap⟩, hitems⟩ := hn
    refine ensures_bind ((keeps_bufferFor hkept _ _ (by simp [sizeofPtr])).mono ?_ fun _ _ he => he)
    intro hasItems s' ⟨hs', hheap⟩
    refine ensures_ite (fun _ => ?_) fun _ => ensures_pure ⟨hs', by simp⟩
    have hnext : s'.heap.next = s.heap.next := by rw [hheap]
    refine ensures_bind ((keeps_cloneItems hclone hs'.1 (by rwa [hnext])).mono ?_
      fun _ _ he => he.mono hnext.ge)
    intro r s'' ⟨hs'', hr⟩
    rw [hnext] at hs''
    cases r with
    | none => exact ensures_pure ⟨hs'', by simp⟩
    | some items =>
      refine ensures_pure ⟨hs'', fun n' hn' => ?_⟩
      obtain rfl := Option.some.inj hn'
      obtain ⟨hlen', hall⟩ := hr items rfl
      exact ⟨⟨hlen'.le, hlen.trans hcap⟩, hall⟩
  | object o =>
    obtain ⟨⟨hlen, hcap⟩, hpairs, -⟩ := hn
    refine ensures_bind ((keeps_bufferFor hkept _ _ (by simp [sizeofJsonPair])).mono ?_
      fun _ _ he => he)
    intro hasPairs s' ⟨hs', hheap⟩
    refine ensures_ite (fun _ => ?_) fun _ => ensures_pure ⟨hs', by simp⟩
    have hnext : s'.heap.next = s.heap.next := by rw [hheap]
    refine ensures_bind ((keeps_clonePairs hclone hs'.1 (by rwa [hnext])).mono ?_
      fun _ _ he => he.mono hnext.ge)
    intro r s'' ⟨hs'', hr⟩
    rw [hnext] at hs''
    cases r with
    | none => exact ensures_pure ⟨hs'', by simp⟩
    | some pairs =>
      refine ensures_pure ⟨hs'', fun n' hn' => ?_⟩
      obtain rfl := Option.some.inj hn'
      obtain ⟨hlen', hall⟩ := hr pairs rfl
      exact ⟨⟨hlen'.le, hlen.trans hcap⟩, hall, by simp [JsonObj.Indexed]⟩
  | _ =>
    refine ensures_pure ⟨hkept, fun n' hn' => ?_⟩
    obtain rfl := Option.some.inj hn'
    trivial

/-- Copying keeps the nodes in order, also where it gives up. -/
theorem keeps_jsonCloneAt : ∀ room : ℕ,
    KeepsPtr (jsonCloneAt room : JsonPtr → M D (Option JsonPtr)) := by
  intro room
  induction room with
  | zero => exact fun s p hrep _ => ensures_pure ⟨⟨hrep, le_rfl⟩, by simp⟩
  | succ room ih =>
    intro s p hrep hp
    rw [jsonCloneAt]
    refine ensures_bind ((keeps_jsonNewNode ⟨hrep, le_rfl⟩).mono ?_ fun _ _ he => he)
    intro r s' ⟨hs', hr⟩
    cases r with
    | none => exact ensures_pure ⟨hs', by simp⟩
    | some out =>
      refine ensures_bind (.of_ok rfl ?_)
      have hn := hs'.1 p (lt_of_lt_of_le hp hs'.2)
      refine ensures_bind ((keeps_cloneNode ih hs'.1 hn).mono ?_ fun _ _ he => he.mono hs'.2)
      intro r' s'' ⟨hs'', hr'⟩
      cases r' with
      | none => exact ensures_pure ⟨hs''.mono hs'.2, by simp⟩
      | some n =>
        have hset : Kept s.heap.next ⟨s''.heap.set out n, s''.arena⟩ :=
          (hs''.mono hs'.2).set out s''.arena (hr' n rfl)
        refine ensures_bind (.of_ok rfl (ensures_pure ⟨hset, fun v hv => ?_⟩))
        obtain rfl := Option.some.inj hv
        exact lt_of_lt_of_le (hr out rfl) hs''.2

end SJson
