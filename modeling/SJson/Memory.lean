/-
# Allocating values

The state the value functions work on is the heap of nodes and one arena.  An
`Arena` is a `JsonArena` together with the proof that it is in order, so its
allocator is total: `none` of `jsonArenaAllocRaw`, the undefined case, cannot occur.

`src/sJson.c`, lines 1387-1454, and the parts of `json_parse` and of the
construction functions that append to a container.
-/
import SJson.ArenaRun
import SJson.Lib.ErrState

namespace SJson

open ErrState

/-! ## Arenas in order -/

/-- An arena in order: what `json_arena_create` returns and arena calls lead to. -/
structure Arena where
  raw : JsonArena
  ok : ∃ pre post, ArenaOk raw pre post

namespace Arena

/-- `total_bytes`. -/
def totalBytes (A : Arena) : ℕ := A.raw.totalBytes

/-- `node_count`. -/
def nodeCount (A : Arena) : ℕ := A.raw.nodeCount

/-- The backing allocator does not fail. -/
def NeverFails (A : Arena) : Prop := ∀ k sz, A.raw.mem.grants k sz = true

/-- Nothing has been allocated from the arena. -/
structure Fresh (A : Arena) : Prop where
  totalBytes : A.totalBytes = 0
  nodeCount : A.nodeCount = 0
  neverFails : A.NeverFails

/-- `json_arena_create` makes such arenas. -/
theorem exists_fresh : ∃ A : Arena, A.Fresh := by
  obtain ⟨res, m, -, -, hok, hsome⟩ :=
    jsonArenaCreate_spec (BlockMem.idle_init fun _ _ => true) (Nat.zero_le sizeMax)
  obtain ⟨a, ha⟩ := Option.isSome_iff_exists.mp (hsome fun _ _ => rfl)
  obtain ⟨-, ha', htotal, hnodes, hgrants⟩ := hok a ha
  exact ⟨⟨a, [], [], ha'⟩, htotal, hnodes, fun k sz => congrFun (congrFun hgrants k) sz⟩

/-- What a call of the allocator does to an arena in order. -/
theorem alloc_spec (A : Arena) (n : ℕ) :
    ∃ r a, jsonArenaAllocRaw A.raw n = some (r, a) ∧ (∃ pre post, ArenaOk a pre post) ∧
      a.nodeCount = A.nodeCount ∧ a.mem.grants = A.raw.mem.grants ∧
      a.totalBytes ≤ A.totalBytes + n + 7 ∧
      (A.NeverFails → 0 < n → A.totalBytes + n + 38 ≤ sizeMax → r.isSome) := by
  unfold totalBytes nodeCount
  obtain ⟨pre, post, hok⟩ := A.ok
  rcases hok.alloc n with ⟨m, halloc, hm, hfail⟩ |
    ⟨r, a, pre', post', halloc, hok', hsize, hn, -, htakes⟩
  · refine ⟨none, _, halloc, ⟨pre, post, hok.unchanged hm⟩, rfl, hm.2.2.2, ?_, ?_⟩
    · show A.raw.totalBytes ≤ _
      omega
    · intro hgrants hpos hroom
      rcases hfail hgrants with h0 | hbig <;> omega
  · refine ⟨some r, a, halloc, ⟨pre', post', hok'⟩, htakes.nodeCount, htakes.grants, ?_,
      fun _ _ _ => rfl⟩
    have htotal := htakes.total
    have hle := hok'.totalLe
    have hup : r.size ≤ n + 7 := by
      rw [hsize]
      unfold jsonAlignUp szAdd jsonArenaAlign
      have := Nat.mod_le (n + (8 - 1)) (2 ^ 64)
      have := Nat.div_mul_le_self ((n + (8 - 1)) % 2 ^ 64) 8
      omega
    omega

theorem alloc_isSome (A : Arena) (n : ℕ) : (jsonArenaAllocRaw A.raw n).isSome := by
  obtain ⟨r, a, h, -⟩ := A.alloc_spec n
  rw [h]
  rfl

theorem alloc_ok (A : Arena) (n : ℕ) :
    ∃ pre post, ArenaOk ((jsonArenaAllocRaw A.raw n).get (A.alloc_isSome n)).2 pre post := by
  obtain ⟨r, a, h, hok, -⟩ := A.alloc_spec n
  simp only [h, Option.get_some]
  exact hok

/-- `json__arena_alloc_raw` on an arena in order. -/
def alloc (A : Arena) (n : ℕ) : Option Region × Arena :=
  let res := (jsonArenaAllocRaw A.raw n).get (A.alloc_isSome n)
  (res.1, ⟨res.2, A.alloc_ok n⟩)

/-- `arena->node_count++`. -/
def countNode (A : Arena) : Arena where
  raw := { A.raw with nodeCount := A.raw.nodeCount + 1 }
  ok := by
    obtain ⟨pre, post, h⟩ := A.ok
    exact ⟨pre, post, ⟨h.linked, h.first, h.blocks, h.live, h.nodup, h.fresh, h.blockSize⟩,
      h.empty, h.total, h.totalLe⟩

/-- The backing allocator does not fail, and `n` more bytes do not exhaust `size_t`. -/
def Roomy (A : Arena) (n : ℕ) : Prop := A.NeverFails ∧ A.totalBytes + n + 38 ≤ sizeMax

/-- A fresh arena has room for any number of bytes that comes up. -/
theorem Fresh.roomy {A : Arena} (h : A.Fresh) {n : ℕ} (hn : n + 38 ≤ sizeMax) : A.Roomy n :=
  ⟨h.neverFails, by rw [h.totalBytes]; omega⟩

theorem Roomy.mono {A : Arena} {n m : ℕ} (h : A.Roomy n) (hm : m ≤ n) : A.Roomy m :=
  ⟨h.1, by have := h.2; omega⟩

theorem alloc_nodeCount (A : Arena) (n : ℕ) : (A.alloc n).2.nodeCount = A.nodeCount := by
  obtain ⟨r, a, h, -, hnodes, -⟩ := A.alloc_spec n
  simp only [alloc, h, Option.get_some]
  exact hnodes

/-- A request that the budget covers succeeds, and leaves the rest of the budget. -/
theorem Roomy.alloc {A : Arena} {n m : ℕ} (h : A.Roomy (n + 7 + m)) (hn : 0 < n) :
    (A.alloc n).1.isSome = true ∧ (A.alloc n).2.Roomy m := by
  obtain ⟨r, a, ha, -, -, hgrants, htotal, hsome⟩ := A.alloc_spec n
  have hroom := h.2
  simp only [Arena.alloc, ha, Option.get_some]
  refine ⟨hsome h.1 hn (by omega), ?_, ?_⟩
  · intro k sz
    show a.mem.grants k sz = true
    rw [hgrants]
    exact h.1 k sz
  · show a.totalBytes + m + 38 ≤ sizeMax
    omega

theorem Roomy.countNode {A : Arena} {n : ℕ} (h : A.Roomy n) : A.countNode.Roomy n := h

@[simp] theorem countNode_nodeCount (A : Arena) : A.countNode.nodeCount = A.nodeCount + 1 := rfl

end Arena

/-- `A'` is `A` after `n` bytes at most have been taken: no node was counted, and the
budget shrinks by no more. -/
structure Arena.Uses (A A' : Arena) (n : ℕ) : Prop where
  nodeCount : A'.nodeCount = A.nodeCount
  roomy : ∀ m, A.Roomy (n + m) → A'.Roomy m

theorem Arena.Uses.refl (A : Arena) (n : ℕ) : A.Uses A n :=
  ⟨rfl, fun _ h => h.mono (Nat.le_add_left ..)⟩

theorem Arena.Uses.trans {A A' A'' : Arena} {n m : ℕ} (h : A.Uses A' n) (h' : A'.Uses A'' m) :
    A.Uses A'' (n + m) :=
  ⟨h'.nodeCount.trans h.nodeCount, fun k hk => h'.roomy k
    (h.roomy (m + k) (by rwa [← Nat.add_assoc]))⟩

theorem Arena.Uses.mono {A A' : Arena} {n m : ℕ} (h : A.Uses A' n) (hle : n ≤ m) :
    A.Uses A' m :=
  ⟨h.nodeCount, fun k hk => h.roomy k (hk.mono (by omega))⟩

/-! ## The state of the value functions -/

/-- The nodes, and the arena allocated from. -/
structure St (D : Type) where
  heap : Heap D
  arena : Arena

/-- A function that allocates and may fail. -/
abbrev M (D : Type) := EStateM Fail (St D)

variable {D : Type}

/-- A computation on a fixed buffer, which leaves the state alone. -/
def ofScan {α : Type} (x : Scan α) : M D α := fun s =>
  match x with
  | .ok a => .ok a s
  | .error e => .error e s

/-- Whether `json__arena_alloc_raw(arena, n)` is not `NULL`. -/
def arenaAlloc (n : ℕ) : M D Bool := fun s =>
  .ok (s.arena.alloc n).1.isSome { s with arena := (s.arena.alloc n).2 }

/-- `*p`. -/
def readNode (p : JsonPtr) : M D (JsonNode D) := fun s => .ok (s.heap.node p) s

/-- `*p = n`. -/
def writeNode (p : JsonPtr) (n : JsonNode D) : M D Unit := fun s =>
  .ok () { s with heap := s.heap.set p n }

theorem ofScan_ok {α : Type} {x : Scan α} {a : α} {s : St D} (h : x = .ok a) :
    ofScan x s = .ok a s := by
  rw [h]
  rfl

theorem ofScan_error {α : Type} {x : Scan α} {e : Fail} {s : St D} (h : x = .error e) :
    ofScan x s = .error e s := by
  rw [h]
  rfl

/-- A request is granted or refused; it is granted when the budget covers it. -/
theorem arenaAlloc_cases (s : St D) {n : ℕ} (hn : 0 < n) :
    ∃ A', s.arena.Uses A' (n + 7) ∧
      (arenaAlloc n s = .ok true { s with arena := A' } ∨
        arenaAlloc n s = .ok false { s with arena := A' } ∧ ∀ m, ¬ s.arena.Roomy (n + 7 + m)) := by
  refine ⟨(s.arena.alloc n).2, ⟨s.arena.alloc_nodeCount n, fun m hm => (hm.alloc hn).2⟩, ?_⟩
  unfold arenaAlloc
  cases hr : (s.arena.alloc n).1.isSome with
  | true => exact .inl rfl
  | false => exact .inr ⟨rfl, fun m hm => by simp [(hm.alloc hn).1] at hr⟩

/-- Storage of `n` bytes, where it is needed. -/
def bufferFor (need : Bool) (n : ℕ) : M D Bool :=
  if need then arenaAlloc n else pure true

theorem bufferFor_cases (s : St D) (need : Bool) (n : ℕ) (hn : need = true → 0 < n) :
    ∃ A', s.arena.Uses A' (n + 7) ∧
      (bufferFor need n s = .ok true { s with arena := A' } ∨
        bufferFor need n s = .ok false { s with arena := A' } ∧
          ∀ m, ¬ s.arena.Roomy (n + 7 + m)) := by
  cases need with
  | true => exact arenaAlloc_cases s (hn rfl)
  | false => exact ⟨s.arena, .refl .., .inl rfl⟩

/-- `sizeof(JsonValue)`. -/
def sizeofJsonValue : ℕ := 40

/-- `sizeof(JsonValue*)`. -/
def sizeofPtr : ℕ := 8

/-- `sizeof(JsonPair)`. -/
def sizeofJsonPair : ℕ := 24

/-- `json__new_node`. -/
def jsonNewNode : M D (Option JsonPtr) := fun s =>
  if s.arena.nodeCount ≥ jsonMaxNodes then .ok none s
  else if (s.arena.alloc sizeofJsonValue).1.isSome then
    .ok (some s.heap.next)
      { heap := s.heap.new, arena := (s.arena.alloc sizeofJsonValue).2.countNode }
  else .ok none { s with arena := (s.arena.alloc sizeofJsonValue).2 }

/-- The capacity that `json__arr_grow` and `json__obj_grow` give a container of
elements of `elem` bytes; `none` if it cannot grow. -/
def nextCap (elem cap : ℕ) : Option ℕ :=
  let newCap := if cap = 0 then 8 else cap * 2 % 2 ^ 32
  if newCap < cap then none
  else if cap ≥ jsonMaxArrayLen then none
  else
    let newCap := if newCap > jsonMaxArrayLen then jsonMaxArrayLen else newCap
    if newCap * elem % 2 ^ 64 / elem ≠ newCap then none else some newCap

/-- `json__arr_grow` and `json__obj_grow`: the new capacity, and storage for it. -/
def growCap (elem cap : ℕ) : M D ℕ :=
  match nextCap elem cap with
  | none => throw (.err .overflow)
  | some newCap => do
    if ← arenaAlloc (newCap * elem % 2 ^ 64) then return newCap else throw (.err .oom)

/-- `json__arr_grow`. -/
def jsonArrGrow (a : JsonArr) : M D JsonArr := do
  let newCap ← growCap sizeofPtr a.cap
  return { a with cap := newCap }

/-- `json__obj_grow`. -/
def jsonObjGrow (o : JsonObj) : M D JsonObj := do
  let newCap ← growCap sizeofJsonPair o.cap
  return { o with cap := newCap, sortedIdx := none, isSorted := false }

/-- `json__arr_grow` on a full array. -/
def arrRoom (a : JsonArr) : M D JsonArr :=
  if a.items.length ≥ a.cap then jsonArrGrow a else pure a

/-- `json__obj_grow` on a full object. -/
def objRoom (o : JsonObj) : M D JsonObj :=
  if o.pairs.length ≥ o.cap then jsonObjGrow o else pure o

/-- `arr->items[arr->len++] = item`, after growing a full array. -/
def arrStore (arr : JsonPtr) (item : JsonPtr) : M D Unit := do
  match ← readNode arr with
  | .array a =>
    let a ← arrRoom a
    if a.items.length < a.cap then writeNode arr (.array { a with items := a.items ++ [item] })
    else throw (.fault .oobWrite)
  | _ => throw (.fault .badContainer)

/-- `obj->pairs[obj->len].key = key; obj->pairs[obj->len].val = val; obj->len++`,
after growing a full object. -/
def objStore (obj : JsonPtr) (key : JsonStr) (val : JsonPtr) : M D Unit := do
  match ← readNode obj with
  | .object o =>
    let o ← objRoom o
    if o.pairs.length < o.cap then
      writeNode obj (.object { o with pairs := o.pairs ++ [⟨key, val⟩] })
    else throw (.fault .oobWrite)
  | _ => throw (.fault .badContainer)

/-! ## New nodes -/

/-- A node is refused at the node limit or for lack of memory; a granted node is
zero-filled and counted. -/
theorem jsonNewNode_cases (s : St D) :
    (jsonMaxNodes ≤ s.arena.nodeCount ∧ jsonNewNode s = .ok none s) ∨
    (s.arena.nodeCount < jsonMaxNodes ∧ ∃ A',
      (jsonNewNode s = .ok (some s.heap.next) ⟨s.heap.new, A'⟩ ∧
        A'.nodeCount = s.arena.nodeCount + 1 ∧ ∀ m, s.arena.Roomy (47 + m) → A'.Roomy m) ∨
      (jsonNewNode s = .ok none { s with arena := A' } ∧ A'.nodeCount = s.arena.nodeCount ∧
        ∀ m, ¬ s.arena.Roomy (47 + m))) := by
  unfold jsonNewNode
  by_cases hmax : s.arena.nodeCount ≥ jsonMaxNodes
  · exact .inl ⟨hmax, if_pos hmax⟩
  refine .inr ⟨not_le.mp hmax, ?_⟩
  rw [if_neg hmax]
  have hnodes := s.arena.alloc_nodeCount sizeofJsonValue
  have hroom : ∀ m, s.arena.Roomy (47 + m) → (s.arena.alloc sizeofJsonValue).1.isSome = true ∧
      (s.arena.alloc sizeofJsonValue).2.Roomy m := fun m hm => Arena.Roomy.alloc hm (by decide)
  cases hr : (s.arena.alloc sizeofJsonValue).1.isSome with
  | true =>
    refine ⟨(s.arena.alloc sizeofJsonValue).2.countNode, .inl ⟨rfl, ?_, fun m hm => (hroom m hm).2⟩⟩
    rw [Arena.countNode_nodeCount, hnodes]
  | false =>
    refine ⟨(s.arena.alloc sizeofJsonValue).2, .inr ⟨rfl, hnodes, fun m hm => ?_⟩⟩
    have := (hroom m hm).1
    simp [hr] at this

/-! ## Growing containers -/

/-- The bytes that growing a container takes, at most. -/
def growCost : ℕ := jsonMaxArrayLen * sizeofJsonPair + 7

theorem nextCap_full {elem cap : ℕ} (h : jsonMaxArrayLen ≤ cap) : nextCap elem cap = none := by
  unfold nextCap
  show (if _ < cap then none else if cap ≥ jsonMaxArrayLen then none else _) = none
  rw [if_pos h, ite_self]

theorem nextCap_of_lt {elem cap : ℕ} (helem : 0 < elem) (hle : elem ≤ sizeofJsonPair)
    (h : cap < jsonMaxArrayLen) :
    ∃ c, nextCap elem cap = some c ∧ cap < c ∧ c ≤ jsonMaxArrayLen := by
  unfold nextCap
  set c0 := if cap = 0 then 8 else cap * 2 % 2 ^ 32 with hc0
  set c := if c0 > jsonMaxArrayLen then jsonMaxArrayLen else c0 with hc
  have h0 : cap < c0 := by
    unfold jsonMaxArrayLen at h
    split_ifs at hc0 <;> omega
  have h1 : cap < c ∧ c ≤ jsonMaxArrayLen := by
    split_ifs at hc <;> omega
  have hprod : c * elem ≤ jsonMaxArrayLen * sizeofJsonPair := Nat.mul_le_mul h1.2 hle
  have hmod : c * elem % 2 ^ 64 = c * elem :=
    Nat.mod_eq_of_lt (lt_of_le_of_lt hprod (by decide))
  refine ⟨c, ?_, h1⟩
  show (if c0 < cap then _ else _) = _
  rw [if_neg (by omega), if_neg (by omega)]
  show (if c * elem % 2 ^ 64 / elem ≠ c then _ else _) = _
  rw [hmod, Nat.mul_div_cancel _ helem, if_neg (not_not.mpr rfl)]

/-- A container grows, or is at the length limit, or memory runs out. -/
theorem growCap_cases (elem : ℕ) (helem : 0 < elem) (hle : elem ≤ sizeofJsonPair) (cap : ℕ)
    (s : St D) :
    (jsonMaxArrayLen ≤ cap ∧ growCap elem cap s = .error (.err .overflow) s) ∨
    (cap < jsonMaxArrayLen ∧ ∃ A' c, cap < c ∧ c ≤ jsonMaxArrayLen ∧ s.arena.Uses A' growCost ∧
      (growCap elem cap s = .ok c { s with arena := A' } ∨
        growCap elem cap s = .error (.err .oom) { s with arena := A' } ∧
          ∀ m, ¬ s.arena.Roomy (growCost + m))) := by
  unfold growCap
  rcases Nat.lt_or_ge cap jsonMaxArrayLen with hlt | hge
  · obtain ⟨c, hc, hgt, hmax⟩ := nextCap_of_lt helem hle hlt
    refine .inr ⟨hlt, ?_⟩
    have hprod : c * elem ≤ jsonMaxArrayLen * sizeofJsonPair := Nat.mul_le_mul hmax hle
    have hmod : c * elem % 2 ^ 64 = c * elem :=
      Nat.mod_eq_of_lt (lt_of_le_of_lt hprod (by decide))
    have hcost : c * elem + 7 ≤ growCost := Nat.add_le_add_right hprod 7
    have hpos : 0 < c * elem := Nat.mul_pos (by omega) helem
    obtain ⟨A', huses, hres⟩ := arenaAlloc_cases s hpos
    refine ⟨A', c, hgt, hmax, huses.mono hcost, ?_⟩
    simp only [hc, hmod]
    refine hres.imp ?_ ?_
    · intro hgrant
      rw [bind_ok hgrant]
      rfl
    · rintro ⟨hrefuse, hroom⟩
      rw [bind_ok hrefuse]
      exact ⟨rfl, fun m hm => hroom m (hm.mono (by omega))⟩
  · rw [nextCap_full hge]
    exact .inl ⟨hge, rfl⟩

/-- The storage of an array holds its items, and is within the length limit. -/
def JsonArr.Ok (a : JsonArr) : Prop := a.items.length ≤ a.cap ∧ a.cap ≤ jsonMaxArrayLen

/-- The storage of an object holds its pairs, and is within the length limit. -/
def JsonObj.Ok (o : JsonObj) : Prop := o.pairs.length ≤ o.cap ∧ o.cap ≤ jsonMaxArrayLen

theorem arrRoom_cases (s : St D) {a : JsonArr} (ha : a.Ok) :
    (a.items.length = jsonMaxArrayLen ∧ arrRoom a s = .error (.err .overflow) s) ∨
    (a.items.length < jsonMaxArrayLen ∧ ∃ A' c, a.items.length < c ∧ c ≤ jsonMaxArrayLen ∧
      s.arena.Uses A' growCost ∧
      (arrRoom a s = .ok { a with cap := c } { s with arena := A' } ∨
        arrRoom a s = .error (.err .oom) { s with arena := A' } ∧
          ∀ m, ¬ s.arena.Roomy (growCost + m))) := by
  obtain ⟨hle, hcap⟩ := ha
  unfold arrRoom jsonArrGrow
  by_cases hfull : a.items.length ≥ a.cap
  · rw [if_pos hfull]
    rcases growCap_cases sizeofPtr (by decide) (by decide) a.cap s with
      ⟨hmax, herr⟩ | ⟨hlt, A', c, hgt, hmax, huses, hres⟩
    · exact .inl ⟨by omega, bind_error herr⟩
    · refine .inr ⟨by omega, A', c, by omega, hmax, huses, hres.imp ?_ ?_⟩
      · intro hok
        rw [bind_ok hok]
        rfl
      · rintro ⟨herr, hroom⟩
        exact ⟨bind_error herr, hroom⟩
  · rw [if_neg hfull]
    exact .inr ⟨by omega, s.arena, a.cap, by omega, hcap, .refl .., .inl rfl⟩

/-- **Appending to an array.** -/
theorem arrStore_cases (s : St D) {arr : JsonPtr} {a : JsonArr} (item : JsonPtr)
    (harr : s.heap.node arr = .array a) (ha : a.Ok) :
    (a.items.length = jsonMaxArrayLen ∧ arrStore arr item s = .error (.err .overflow) s) ∨
    (a.items.length < jsonMaxArrayLen ∧ ∃ A' c, s.arena.Uses A' growCost ∧
      (arrStore arr item s = .ok () ⟨s.heap.set arr (.array ⟨a.items ++ [item], c⟩), A'⟩ ∧
          JsonArr.Ok ⟨a.items ++ [item], c⟩ ∨
        arrStore arr item s = .error (.err .oom) { s with arena := A' } ∧
          ∀ m, ¬ s.arena.Roomy (growCost + m))) := by
  have hread : readNode arr s = .ok (.array a) s := by rw [readNode, harr]
  unfold arrStore
  rw [bind_ok hread]
  rcases arrRoom_cases s ha with ⟨hmax, herr⟩ | ⟨hlt, A', c, hc, hmax, huses, hres⟩
  · exact .inl ⟨hmax, bind_error herr⟩
  · refine .inr ⟨hlt, A', c, huses, hres.imp ?_ ?_⟩
    · intro hok
      refine ⟨?_, by simpa [JsonArr.Ok] using ⟨hc, hmax⟩⟩
      simp only [bind_ok hok, if_pos hc]
      rfl
    · rintro ⟨herr, hroom⟩
      exact ⟨bind_error herr, hroom⟩

/-- What making room for one more pair does to an object: the pairs stay, and the sorted
index is dropped if the storage has to grow. -/
structure JsonObj.Grown (o o' : JsonObj) : Prop where
  pairs : o'.pairs = o.pairs
  room : o.pairs.length < o'.cap
  cap : o'.cap ≤ jsonMaxArrayLen
  index : o' = o ∨ o'.sortedIdx = none ∧ o'.isSorted = false

/-- An object that has no index only gets another capacity. -/
theorem JsonObj.Grown.eq {o o' : JsonObj} (h : o.Grown o') (hidx : o.sortedIdx = none)
    (hsorted : o.isSorted = false) : o' = { o with cap := o'.cap } := by
  obtain rfl | ⟨hidx', hsorted'⟩ := h.index
  · rfl
  · have hpairs := h.pairs
    cases o'
    simp_all

theorem objRoom_cases (s : St D) {o : JsonObj} (ho : o.Ok) :
    (o.pairs.length = jsonMaxArrayLen ∧ objRoom o s = .error (.err .overflow) s) ∨
    (o.pairs.length < jsonMaxArrayLen ∧ ∃ A' o', o.Grown o' ∧ s.arena.Uses A' growCost ∧
      (objRoom o s = .ok o' { s with arena := A' } ∨
        objRoom o s = .error (.err .oom) { s with arena := A' } ∧
          ∀ m, ¬ s.arena.Roomy (growCost + m))) := by
  obtain ⟨hle, hcap⟩ := ho
  unfold objRoom jsonObjGrow
  by_cases hfull : o.pairs.length ≥ o.cap
  · rw [if_pos hfull]
    rcases growCap_cases sizeofJsonPair (by decide) (by decide) o.cap s with
      ⟨hmax, herr⟩ | ⟨hlt, A', c, hgt, hmax, huses, hres⟩
    · exact .inl ⟨by omega, bind_error herr⟩
    · have hgrown : o.Grown { o with cap := c, sortedIdx := none, isSorted := false } :=
        ⟨rfl, lt_of_le_of_lt hle hgt, hmax, .inr ⟨rfl, rfl⟩⟩
      refine .inr ⟨by omega, A', _, hgrown, huses, hres.imp ?_ ?_⟩
      · intro hok
        rw [bind_ok hok]
        rfl
      · rintro ⟨herr, hroom⟩
        exact ⟨bind_error herr, hroom⟩
  · rw [if_neg hfull]
    exact .inr ⟨by omega, s.arena, o, ⟨rfl, by omega, hcap, .inl rfl⟩, .refl .., .inl rfl⟩

/-- **Appending to an object** without a sorted index. -/
theorem objStore_cases (s : St D) {obj : JsonPtr} {o : JsonObj} (key : JsonStr) (val : JsonPtr)
    (hobj : s.heap.node obj = .object o) (ho : o.Ok) (hidx : o.sortedIdx = none)
    (hsorted : o.isSorted = false) :
    (o.pairs.length = jsonMaxArrayLen ∧ objStore obj key val s = .error (.err .overflow) s) ∨
    (o.pairs.length < jsonMaxArrayLen ∧ ∃ A' c, s.arena.Uses A' growCost ∧
      (objStore obj key val s = .ok ()
          ⟨s.heap.set obj (.object { o with pairs := o.pairs ++ [⟨key, val⟩], cap := c }), A'⟩ ∧
          JsonObj.Ok { o with pairs := o.pairs ++ [⟨key, val⟩], cap := c } ∨
        objStore obj key val s = .error (.err .oom) { s with arena := A' } ∧
          ∀ m, ¬ s.arena.Roomy (growCost + m))) := by
  have hread : readNode obj s = .ok (.object o) s := by rw [readNode, hobj]
  unfold objStore
  rw [bind_ok hread]
  rcases objRoom_cases s ho with ⟨hmax, herr⟩ | ⟨hlt, A', o', hgrown, huses, hres⟩
  · exact .inl ⟨hmax, bind_error herr⟩
  · refine .inr ⟨hlt, A', o'.cap, huses, hres.imp ?_ ?_⟩
    · intro hok
      refine ⟨?_, by simpa [JsonObj.Ok] using ⟨hgrown.room, hgrown.cap⟩⟩
      rw [hgrown.eq hidx hsorted] at hok
      simp only [bind_ok hok, if_pos hgrown.room]
      rfl
    · rintro ⟨herr, hroom⟩
      exact ⟨bind_error herr, hroom⟩

end SJson
