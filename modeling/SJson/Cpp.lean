/-
# The C++ layer

`bindings/cpp/sjson.hpp`: arenas and values as C++ objects that share the storage of an
arena.  A value remembers the generation of the storage it was made in, and is empty in any
other: resetting or trimming the arena empties its values, so that none dangles.  A value
that shares no storage, as one that was moved from or made of a native handle, has its pointer
for good.

* A `std::shared_ptr` is the number of its storage, which counts its holders.
* All nodes are in one heap; `home` is the storage that the memory of a node belongs to,
  until that storage is reset, trimmed or destroyed.
* The functions run in `Option`, where `none` stands for a use of an object, a storage or a
  node that is not there, or not there any more.
* A parameter `Value` is the argument itself: the copy lives as long as the call.
* A `std::string_view` is its bytes: without data it is the empty one, which the functions of
  the library read a `NULL` with the length 0 as.
-/
import SJson.Compat
import SJson.Api
import SJson.Writer

namespace SJson

variable {D : Type}

/-! ## Arenas that are used again -/

namespace Arena

/-- `json_arena_reset` of an arena in order leads to one. -/
theorem reset_spec (A : Arena) :
    ∃ a, jsonArenaReset A.raw = some a ∧ ∃ pre post, ArenaOk a pre post := by
  obtain ⟨pre, post, hok⟩ := A.ok
  obtain ⟨tail, htail⟩ := hok.eq_cons
  obtain ⟨a, hreset, hok', -⟩ := ChainOk.reset (htail ▸ hok.toChainOk)
  exact ⟨a, hreset, [], tail, hok'⟩

/-- `json_arena_trim` of an arena in order leads to one. -/
theorem trim_spec (A : Arena) :
    ∃ a, jsonArenaTrim A.raw = some a ∧ ∃ pre post, ArenaOk a pre post := by
  obtain ⟨pre, post, hok⟩ := A.ok
  obtain ⟨tail, htail⟩ := hok.eq_cons
  obtain ⟨a, htrim, hok', -⟩ := ChainOk.trim (htail ▸ hok.toChainOk)
  exact ⟨a, htrim, [], [], hok'⟩

theorem isSome_of_spec {x : Option JsonArena}
    (h : ∃ a, x = some a ∧ ∃ pre post, ArenaOk a pre post) : x.isSome = true := by
  obtain ⟨a, ha, -⟩ := h
  rw [ha]
  rfl

theorem ok_of_spec {x : Option JsonArena} (h : ∃ a, x = some a ∧ ∃ pre post, ArenaOk a pre post) :
    ∃ pre post, ArenaOk (x.get (isSome_of_spec h)) pre post := by
  obtain ⟨a, rfl, hok⟩ := h
  exact hok

/-- `json_arena_reset`. -/
def reset (A : Arena) : Arena := ⟨_, ok_of_spec A.reset_spec⟩

/-- `json_arena_trim`. -/
def trim (A : Arena) : Arena := ⟨_, ok_of_spec A.trim_spec⟩

end Arena

/-! ## Objects -/

/-- The address of a C++ object. -/
abbrev CppAddr := UInt64

/-- `std::shared_ptr<detail::Storage>`, where it is not empty: which `Storage` it points to. -/
abbrev StoragePtr := ℕ

/-- `detail::Storage`, with the number of the pointers that share it. -/
structure Storage where
  arena : Arena
  generation : UInt64
  useCount : ℕ

/-- What is left of a `std::make_shared<detail::Storage>`: a storage, or the memory of an arena
that could not be made or was destroyed. -/
inductive StorageCell where
  | live (s : Storage)
  | gone (m : BlockMem)

/-- The storage, if it is not destroyed. -/
def StorageCell.storage : StorageCell → Option Storage
  | .live s => some s
  | .gone _ => none

/-- `class Value`. -/
structure CppValue where
  value : Option JsonPtr
  owner : Option StoragePtr
  generation : UInt64
  deriving DecidableEq, Repr

/-- `class Arena`. -/
structure CppArena where
  owner : Option StoragePtr
  lastError : JsonError
  deriving DecidableEq, Repr

/-- An object of the client. -/
inductive CppObject where
  | arena (a : CppArena)
  | value (v : CppValue)
  deriving DecidableEq, Repr

/-- `owner_`. -/
def CppObject.owner : CppObject → Option StoragePtr
  | .arena a => a.owner
  | .value v => v.owner

/-- What the allocators grant: the one below each arena, and `new` for each storage. -/
structure CppBacking where
  grants : StoragePtr → ℕ → ℕ → Bool
  news : StoragePtr → Bool

/-- The nodes, the storages in the order in which they were made, and the client's objects. -/
structure CppState (D : Type) where
  heap : Heap D
  home : JsonPtr → Option StoragePtr
  storages : List StorageCell
  objects : CppAddr → Option CppObject

namespace CppState

/-- Nothing made yet. -/
def init : CppState D := ⟨.empty, fun _ => none, [], fun _ => none⟩

/-- The storage, if it is not destroyed. -/
def storageAt (w : CppState D) (k : StoragePtr) : Option Storage :=
  w.storages[k]?.bind StorageCell.storage

/-- The arena at an address. -/
def arenaAt (w : CppState D) (a : CppAddr) : Option CppArena :=
  match w.objects a with
  | some (.arena x) => some x
  | _ => none

/-- The value at an address. -/
def valueAt (w : CppState D) (v : CppAddr) : Option CppValue :=
  match w.objects v with
  | some (.value x) => some x
  | _ => none

/-- `*storage = s`. -/
def setStorage (w : CppState D) (k : StoragePtr) (s : Storage) : CppState D :=
  { w with storages := w.storages.set k (.live s) }

/-- One more `std::make_shared<detail::Storage>`. -/
def addStorage (w : CppState D) (cell : StorageCell) : CppState D :=
  { w with storages := w.storages ++ [cell] }

/-- An object is made or changed. -/
def setObject (w : CppState D) (a : CppAddr) (o : CppObject) : CppState D :=
  { w with objects := Function.update w.objects a (some o) }

/-- `last_error_ = e`, of the arena `x` at `a`. -/
def setError (w : CppState D) (a : CppAddr) (x : CppArena) (e : JsonError) : CppState D :=
  w.setObject a (.arena { x with lastError := e })

/-- An object is gone. -/
def dropObject (w : CppState D) (a : CppAddr) : CppState D :=
  { w with objects := Function.update w.objects a none }

/-- The memory of the nodes of a storage is given up. -/
def clearHome (w : CppState D) (k : StoragePtr) : CppState D :=
  { w with home := fun p => if w.home p = some k then none else w.home p }

/-- The heap, to read the node `p` in. -/
def nodesOf (w : CppState D) (p : JsonPtr) : Option (Heap D) :=
  if (w.home p).isSome then some w.heap else none

/-! ## Shared pointers -/

/-- A `std::shared_ptr` is copied. -/
def retain (w : CppState D) : Option StoragePtr → Option (CppState D)
  | none => some w
  | some k => do
    let s ← w.storageAt k
    return w.setStorage k { s with useCount := s.useCount + 1 }

/-- `~Storage`. -/
def destroyStorage (w : CppState D) (k : StoragePtr) : Option (CppState D) := do
  let s ← w.storageAt k
  let m ← jsonArenaDestroy s.arena.raw
  return CppState.clearHome { w with storages := w.storages.set k (.gone m) } k

/-- A `std::shared_ptr` is given up, and the storage with the last one. -/
def release (w : CppState D) : Option StoragePtr → Option (CppState D)
  | none => some w
  | some k => do
    let s ← w.storageAt k
    if s.useCount - 1 = 0 then w.destroyStorage k
    else return w.setStorage k { s with useCount := s.useCount - 1 }

/-- `owner ? owner->generation : 0`. -/
def generationOf (w : CppState D) : Option StoragePtr → Option UInt64
  | none => some 0
  | some k => (·.generation) <$> w.storageAt k

/-- `Value(value, owner)`, at `dst`. -/
def makeValue (w : CppState D) (dst : CppAddr) (value : Option JsonPtr)
    (owner : Option StoragePtr) : Option (CppState D) := do
  let w ← w.retain owner
  let generation ← w.generationOf owner
  return w.setObject dst (.value ⟨value, owner, generation⟩)

/-- `Value()`, at `dst`. -/
def makeEmpty (w : CppState D) (dst : CppAddr) : CppState D :=
  w.setObject dst (.value ⟨none, none, 0⟩)

end CppState

/-- `Value::get`. -/
def CppValue.get (v : CppValue) (w : CppState D) : Option (Option JsonPtr) :=
  match v.owner with
  | none => some v.value
  | some k => do
    let s ← w.storageAt k
    return if s.generation = v.generation then v.value else none

/-! ## Reading values -/

/-- `Value::at` and `Value::obj`, at `dst`: the child that a lookup in `get()` finds, or a
value that is empty. -/
def CppValue.child (v : CppValue) (lookup : Heap D → JsonPtr → Scan JsonPtr) (dst : CppAddr)
    (w : CppState D) : Option (CppState D) := do
  match ← v.get w with
  | none => return w.makeEmpty dst
  | some p => do
    let h ← w.nodesOf p
    match lookup h p with
    | .error (.fault _) => none
    | .error (.err _) => return w.makeEmpty dst
    | .ok out => w.makeValue dst (some out) v.owner

/-- `Value::at`. -/
def CppValue.at (v : CppValue) (index : UInt32) (dst : CppAddr) (w : CppState D) :
    Option (CppState D) :=
  v.child (fun h p => jsonArrGet h p index.toNat) dst w

/-- `Value::obj`. -/
def CppValue.obj (v : CppValue) (key : List UInt8) (dst : CppAddr) (w : CppState D) :
    Option (CppState D) :=
  v.child (fun h p => jsonObjGetN h p key) dst w

/-! ## Serializing -/

/-- What `Value::serialize` throws. -/
inductive CppThrown where
  | runtimeError (e : JsonError)
  | lengthError
  | badAlloc
  deriving DecidableEq, Repr

/-- `Value::serialize`; `makeString` is what making a `std::string` of so many bytes throws. -/
def CppValue.serialize [CDouble D] (v : CppValue) (options : Option JsonWriteOpts)
    (makeString : ℕ → Option CppThrown) (sortMem : ℕ → Bool) (w : CppState D) :
    Option (Except CppThrown (List UInt8)) := do
  match ← v.get w with
  | none => return .error (.runtimeError .nullParam)
  | some p => do
    let h ← w.nodesOf p
    -- no options stand for the default ones
    let opts := options.getD kDefaultOpts
    match jsonMeasure h p opts with
    | .error _ => none
    | .ok (status, size) =>
      if status ≠ .ok then return .error (.runtimeError status)
      else if size = sizeMax then return .error .lengthError
      else
        match makeString (size + 1) with
        | some thrown => return .error thrown
        | none =>
          match jsonWrite h p (fun _ => 0) (size + 1) opts sortMem with
          | .error _ => none
          | .ok r =>
            if r.status ≠ .ok then return .error (.runtimeError r.status)
            else return .ok ((List.range r.written).map r.buf)

/-! ## Arenas -/

/-- The state after a function of the library has worked on the arena of the storage `s` at
`k`: the nodes it made are in the memory of that storage. -/
def CppState.worked (w : CppState D) (k : StoragePtr) (s : Storage) (st : St D) : CppState D :=
  { w with
    heap := st.heap
    home := fun p => if w.heap.next ≤ p ∧ p < st.heap.next then some k else w.home p
    storages := w.storages.set k (.live { s with arena := st.arena }) }

/-- What a function of the library does on the arena of a storage. -/
def CppState.onArena {α : Type} (w : CppState D) (k : StoragePtr) (f : M D α) :
    Option (Except JsonError α × CppState D) := do
  let s ← w.storageAt k
  match f ⟨w.heap, s.arena⟩ with
  | .ok a st => some (.ok a, w.worked k s st)
  | .error (.err e) st => some (.error e, w.worked k s st)
  | .error (.fault _) _ => none

/-- `Arena(bytes)`, at `a`; what is thrown makes no object. -/
def makeArena (B : CppBacking) (a : CppAddr) (bytes : UInt64) (w : CppState D) : CppState D :=
  let k := w.storages.length
  if B.news k then
    match Arena.create (B.grants k) bytes.toNat (Nat.le_sub_one_of_lt bytes.toNat_lt) with
    | (some A, _) =>
      (w.addStorage (.live ⟨A, 0, 1⟩)).setObject a (.arena ⟨some k, .ok⟩)
    | (none, m) => w.addStorage (.gone m)
  else w.addStorage (.gone (.init (B.grants k)))

/-- `++owner_->generation`, and the reset or the trim `f` of the arena. -/
def CppState.invalidated (w : CppState D) (f : Arena → Arena) (k : StoragePtr) (s : Storage) :
    CppState D :=
  (w.setStorage k { s with arena := f s.arena, generation := s.generation + 1 }).clearHome k

/-- `Arena::reset` and `Arena::trim`, of the arena `x` at `a`. -/
def cppInvalidate (f : Arena → Arena) (a : CppAddr) (x : CppArena) (w : CppState D) :
    Option (CppState D) :=
  match x.owner with
  | none => return w.setError a x .ok
  | some k => do
    let s ← w.storageAt k
    return (w.invalidated f k s).setError a x .ok

/-- `Arena::parse`, of the arena `x` at `a`. -/
def cppParse [CDouble D] (a : CppAddr) (x : CppArena) (dst : CppAddr) (input : List UInt8)
    (w : CppState D) : Option (CppState D) :=
  match x.owner with
  | none => (w.setError a x .nullParam).makeValue dst none none
  | some k => do
    let (r, w) ← w.onArena k (jsonParse input)
    match r with
    | .ok root => (w.setError a x .ok).makeValue dst (some root) x.owner
    | .error e => (w.setError a x e).makeValue dst none x.owner

/-- `Arena::clone`, of the arena `x` at `a`. -/
def cppClone (a : CppAddr) (x : CppArena) (dst : CppAddr) (v : CppValue) (w : CppState D) :
    Option (CppState D) := do
  match x.owner, ← v.get w with
  | some k, some p => do
    let _ ← w.nodesOf p
    let (r, w) ← w.onArena k (jsonClone p)
    let result := match r with
      | .ok result => result
      | .error _ => none
    let e := if result.isSome then .ok else .oom
    (w.setError a x e).makeValue dst result x.owner
  | _, _ => (w.setError a x .oom).makeValue dst none x.owner

/-- `Arena::finalize`, of the arena `x` at `a`. -/
def cppFinalize (a : CppAddr) (x : CppArena) (v : CppValue) (w : CppState D) :
    Option (CppState D) := do
  if v.owner ≠ x.owner then return w.setError a x .nullParam
  else
    match ← v.get w, x.owner with
    | some p, some k => do
      let _ ← w.nodesOf p
      let (r, w) ← w.onArena k (jsonObjFinalize p)
      let e := match r with
        | .ok _ => .ok
        | .error e => e
      return w.setError a x e
    | _, _ => return w.setError a x .nullParam

/-! ## Calls -/

/-- A call of the layer; `dst` is where the object is made that it returns.  `borrow` is
`Value(v.get())`, which makes a value of a native handle. -/
inductive CppCall where
  | newArena (a : CppAddr) (bytes : UInt64)
  | moveArena (dst src : CppAddr)
  | assignArena (dst src : CppAddr)
  | destroyArena (a : CppAddr)
  | reset (a : CppAddr)
  | trim (a : CppAddr)
  | parse (a dst : CppAddr) (input : List UInt8)
  | parseReplace (a dst : CppAddr) (input : List UInt8)
  | clone (a dst v : CppAddr)
  | finalize (a v : CppAddr)
  | newValue (dst : CppAddr)
  | borrow (dst v : CppAddr)
  | copyValue (dst src : CppAddr)
  | moveValue (dst src : CppAddr)
  | copyAssign (dst src : CppAddr)
  | moveAssign (dst src : CppAddr)
  | destroyValue (v : CppAddr)
  | at (dst v : CppAddr) (index : UInt32)
  | obj (dst v : CppAddr) (key : List UInt8)

namespace CppCall

/-- What a call does. -/
def run [CDouble D] (B : CppBacking) (w : CppState D) : CppCall → Option (CppState D)
  | .newArena a bytes => some (makeArena B a bytes w)
  | .moveArena dst src => do
    let x ← w.arenaAt src
    return (w.setObject src (.arena { x with owner := none })).setObject dst (.arena x)
  | .assignArena dst src => do
    let x ← w.arenaAt src
    let old ← w.arenaAt dst
    if dst = src then return w
    else
      let w := (w.setObject src (.arena { x with owner := none })).setObject dst (.arena x)
      w.release old.owner
  | .destroyArena a => do
    let x ← w.arenaAt a
    (w.dropObject a).release x.owner
  | .reset a => do cppInvalidate Arena.reset a (← w.arenaAt a) w
  | .trim a => do cppInvalidate Arena.trim a (← w.arenaAt a) w
  | .parse a dst input => do cppParse a (← w.arenaAt a) dst input w
  | .parseReplace a dst input => do
    let w ← cppInvalidate Arena.reset a (← w.arenaAt a) w
    cppParse a (← w.arenaAt a) dst input w
  | .clone a dst v => do cppClone a (← w.arenaAt a) dst (← w.valueAt v) w
  | .finalize a v => do cppFinalize a (← w.arenaAt a) (← w.valueAt v) w
  | .newValue dst => some (w.makeEmpty dst)
  | .borrow dst v => do
    let value ← (← w.valueAt v).get w
    return w.setObject dst (.value ⟨value, none, 0⟩)
  | .copyValue dst src => do
    let x ← w.valueAt src
    let w ← w.retain x.owner
    return w.setObject dst (.value x)
  | .moveValue dst src => do
    let x ← w.valueAt src
    return (w.setObject src (.value { x with owner := none })).setObject dst (.value x)
  | .copyAssign dst src => do
    let x ← w.valueAt src
    let old ← w.valueAt dst
    let w ← w.retain x.owner
    (w.setObject dst (.value x)).release old.owner
  | .moveAssign dst src => do
    let x ← w.valueAt src
    let old ← w.valueAt dst
    if dst = src then return w
    else
      let w := (w.setObject src (.value { x with owner := none })).setObject dst (.value x)
      w.release old.owner
  | .destroyValue v => do
    let x ← w.valueAt v
    (w.dropObject v).release x.owner
  | .at dst v index => do (← w.valueAt v).at index dst w
  | .obj dst v key => do (← w.valueAt v).obj key dst w

end CppCall

end SJson
