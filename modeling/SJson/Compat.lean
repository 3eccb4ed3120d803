/-
# The cJSON layer

The part of `compat/cjson/sjson_cjson_compat.h` that makes and deletes the wrappers its
callers hold, lines 31-174: parsing, looking up items, the cached string, deletion.

* All wrappers of one document share an owner, which counts them and has the arena.
* Nothing of one document can be reached from another, so that an arena is kept together
  with its nodes.  A `JsonValue*` is a node of an arena.
* The functions run in `Option`, where `none` stands for a use, or another free, of a
  wrapper, an owner, an arena or a value that is not there or not there any more.
* A `const char*` is the bytes in front of the NUL that ends the string.
-/
import SJson.Path
import SJson.Parser
import SJson.ArenaLife

namespace SJson

/-! ## The arena of a document -/

/-- `json_arena_create` with an allocator of its own: the arena, and its memory. -/
def Arena.create (grants : ℕ → ℕ → Bool) (blockSize : ℕ) (hsz : blockSize ≤ sizeMax) :
    Option Arena × BlockMem :=
  match hcall : jsonArenaCreate (.init grants) blockSize with
  | some (some a, m) => (some ⟨a, [], [], by
      obtain ⟨res, m', hcreate, -, hok, -⟩ := jsonArenaCreate_spec (BlockMem.idle_init grants) hsz
      rw [hcall] at hcreate
      obtain ⟨rfl, rfl⟩ : some a = res ∧ m = m' := by simpa using hcreate
      exact (hok a rfl).2.1⟩, m)
  | some (none, m) => (none, m)
  | none => (none, .init grants)

/-- What is left of a `json_arena_create`: an arena with its nodes, or the memory of one that
could not be made or was destroyed. -/
inductive ArenaCell (D : Type) where
  | live (s : St D)
  | gone (m : BlockMem)

/-! ## Wrappers and owners -/

/-- The address of a wrapper or an owner. -/
abbrev CAddr := UInt64

/-- `JsonArena*`: which call of `json_arena_create` made it. -/
abbrev ArenaPtr := ℕ

/-- `JsonValue*`, where there is more than one arena. -/
structure ValueRef where
  arena : ArenaPtr
  node : JsonPtr
  deriving DecidableEq, Repr

/-- `sjson_cjson_owner`. -/
structure SjsonCjsonOwner where
  arena : ArenaPtr
  references : UInt64
  deriving DecidableEq, Repr

/-- The values of `type`, in the order of their numbers. -/
inductive CJSONType where
  | cJSONFalse
  | cJSONTrue
  | cJSONNull
  | cJSONNumber
  | cJSONString
  | cJSONArray
  | cJSONObject
  deriving DecidableEq, Repr

/-- A `char*` into an arena: the place, and the bytes there up to the NUL. -/
structure CString where
  place : Region
  bytes : List UInt8
  deriving DecidableEq, Repr

/-- `struct cJSON`. -/
structure CJSON (D : Type) where
  arena : ArenaPtr
  value : Option ValueRef
  ownsArena : Int32
  type : CJSONType
  valueint : Int32
  valuedouble : D
  valuestring : Option CString
  owner : CAddr

/-- `sizeof(cJSON)`. -/
def sizeofCJSON : ℕ := 56

/-- `sizeof(sjson_cjson_owner)`. -/
def sizeofSjsonCjsonOwner : ℕ := 16

/-- What the layer takes from the FPU on top of `CDouble`. -/
class CDoubleInt (D : Type) where
  /-- `1.0`. -/
  one : D
  /-- `a >= INT_MAX`. -/
  geIntMax : D → Bool
  /-- `a <= INT_MIN`. -/
  leIntMin : D → Bool
  /-- `(int)a`. -/
  toInt : D → Int32

/-! ## Memory -/

/-- The allocators: what the one below each arena grants, and the address that
`SJSON_CJSON_MALLOC` has for each call and size. -/
structure Backing where
  grants : ArenaPtr → ℕ → ℕ → Bool
  address : ℕ → ℕ → Option CAddr

/-- The arenas, in the order in which they were made, and the wrappers and owners that are
allocated. -/
structure CompatState (D : Type) where
  arenas : List (ArenaCell D)
  owners : CAddr → Option SjsonCjsonOwner
  items : CAddr → Option (CJSON D)
  calls : ℕ

namespace CompatState

variable {D : Type}

/-- Nothing allocated yet. -/
def init : CompatState D := ⟨[], fun _ => none, fun _ => none, 0⟩

/-- `SJSON_CJSON_MALLOC`: `NULL`, or an address that is not in use. -/
def malloc (B : Backing) (w : CompatState D) (size : ℕ) : Option CAddr × CompatState D :=
  let w' := { w with calls := w.calls + 1 }
  match B.address w.calls size with
  | none => (none, w')
  | some p =>
    if p = 0 ∨ (w.owners p).isSome ∨ (w.items p).isSome then (none, w') else (some p, w')

/-- `*owner = o`. -/
def setOwner (w : CompatState D) (owner : CAddr) (o : SjsonCjsonOwner) : CompatState D :=
  { w with owners := Function.update w.owners owner (some o) }

/-- `*item = c`. -/
def setItem (w : CompatState D) (item : CAddr) (c : CJSON D) : CompatState D :=
  { w with items := Function.update w.items item (some c) }

/-- `SJSON_CJSON_FREE(owner)`. -/
def freeOwner (w : CompatState D) (owner : CAddr) : Option (CompatState D) :=
  if (w.owners owner).isSome then
    some { w with owners := Function.update w.owners owner none }
  else none

/-- `SJSON_CJSON_FREE(item)`. -/
def freeItem (w : CompatState D) (item : CAddr) : Option (CompatState D) :=
  if (w.items item).isSome then some { w with items := Function.update w.items item none }
  else none

/-- The arena, if it is not destroyed. -/
def arenaAt (w : CompatState D) (arena : ArenaPtr) : Option (St D) :=
  match w.arenas[arena]? with
  | some (.live s) => some s
  | _ => none

/-- One more `json_arena_create`. -/
def addArena (w : CompatState D) (cell : ArenaCell D) : CompatState D :=
  { w with arenas := w.arenas ++ [cell] }

/-- `json_arena_destroy(arena)`. -/
def destroyArena (w : CompatState D) (arena : ArenaPtr) : Option (CompatState D) := do
  let s ← w.arenaAt arena
  let m ← jsonArenaDestroy s.arena.raw
  return { w with arenas := w.arenas.set arena (.gone m) }

/-- The nodes that `v` is one of. -/
def nodesOf (w : CompatState D) (v : ValueRef) : Option (Heap D) := do
  let s ← w.arenaAt v.arena
  if v.node < s.heap.next then some s.heap else none

end CompatState

/-! ## Making wrappers -/

variable {D : Type}

/-- The `switch` of `sjson_cjson_wrap`. -/
def CJSON.fill [CDouble D] [CDoubleInt D] (item : CJSON D) : JsonNode D → CJSON D
  | .null => { item with type := .cJSONNull }
  | .bool b =>
    { item with
      type := if b then .cJSONTrue else .cJSONFalse
      valueint := if b then 1 else 0
      valuedouble := if b then CDoubleInt.one else CDouble.zero }
  | .integer i =>
    { item with
      type := .cJSONNumber
      valueint :=
        if i > Int32.maxValue.toInt64 then .maxValue
        else if i < Int32.minValue.toInt64 then .minValue else i.toInt32
      valuedouble := CDouble.ofInt64 i }
  | .float f =>
    { item with
      type := .cJSONNumber
      valueint :=
        if CDoubleInt.geIntMax f then .maxValue
        else if CDoubleInt.leIntMin f then .minValue else CDoubleInt.toInt f
      valuedouble := f }
  | .string _ => { item with type := .cJSONString }
  | .array _ => { item with type := .cJSONArray }
  | .object _ => { item with type := .cJSONObject }

/-- `sjson_cjson_wrap`. -/
def sjsonCjsonWrap [CDouble D] [CDoubleInt D] (B : Backing) (owner : CAddr)
    (value : Option ValueRef) (ownsArena : Int32) (w : CompatState D) :
    Option (Option CAddr × CompatState D) :=
  match w.malloc B sizeofCJSON with
  | (none, w) => some (none, w)
  | (some item, w) => do
    let o ← w.owners owner
    let w := w.setOwner owner { o with references := o.references + 1 }
    -- `memset` leaves `cJSON_False`, zeros and `NULL`s
    let c : CJSON D := ⟨o.arena, value, ownsArena, .cJSONFalse, 0, CDouble.zero, none, owner⟩
    match value with
    | none => return (some item, w.setItem item c)
    | some v => do
      let h ← w.nodesOf v
      return (some item, w.setItem item (c.fill (h.node v.node)))

/-- The end of `cJSON_ParseWithLength`: the owner and the wrapper of a document whose text
was read. -/
def wrapRoot [CDouble D] [CDoubleInt D] (B : Backing) (arena : ArenaPtr) (root : JsonPtr)
    (w : CompatState D) : Option (Option CAddr × CompatState D) :=
  match w.malloc B sizeofSjsonCjsonOwner with
  | (none, w) => do
    let w ← w.destroyArena arena
    return (none, w)
  | (some owner, w) => do
    let (result, w) ← sjsonCjsonWrap B owner (some ⟨arena, root⟩) 1 (w.setOwner owner ⟨arena, 0⟩)
    match result with
    | some result => return (some result, w)
    | none =>
      let w ← w.destroyArena arena
      let w ← w.freeOwner owner
      return (none, w)

/-- `cJSON_ParseWithLength` behind the two checks of `value`. -/
def parseBuffer [CDouble D] [CDoubleInt D] (B : Backing) (buffer : List UInt8)
    (w : CompatState D) : Option (Option CAddr × CompatState D) :=
  if hlen : buffer.length > (sizeMax - 65536) / 3 then some (none, w)
  else
    let arena := w.arenas.length
    match Arena.create (B.grants arena) (buffer.length * 3 + 65536)
        (by unfold sizeMax at *; omega) with
    | (none, m) => some (none, w.addArena (.gone m))
    | (some A, _) =>
      match jsonParse buffer ⟨.empty, A⟩ with
      | .error (.fault _) _ => none
      | .error (.err _) s => do
        let w ← (w.addArena (.live s)).destroyArena arena
        return (none, w)
      | .ok root s => wrapRoot B arena root (w.addArena (.live s))

/-- `cJSON_ParseWithLength`. -/
def cJSONParseWithLength [CDouble D] [CDoubleInt D] (B : Backing) (value : Option (List UInt8))
    (w : CompatState D) : Option (Option CAddr × CompatState D) :=
  match value with
  | none => some (none, w)
  | some value =>
    -- `if (buffer_length && value[buffer_length - 1U] == '\0') { buffer_length--; }`
    parseBuffer B (if value.getLast? = some 0 then value.dropLast else value) w

/-- `cJSON_Parse`. -/
def cJSONParse [CDouble D] [CDoubleInt D] (B : Backing) (value : Option (List UInt8))
    (w : CompatState D) : Option (Option CAddr × CompatState D) :=
  match value with
  | none => some (none, w)
  | some value => cJSONParseWithLength B (some value) w

/-! ## Deleting wrappers -/

/-- `cJSON_Delete`. -/
def cJSONDelete (item : Option CAddr) (w : CompatState D) : Option (CompatState D) :=
  match item with
  | none => some w
  | some item => do
    let c ← w.items item
    let o ← w.owners c.owner
    let w := w.setOwner c.owner { o with references := o.references - 1 }
    if o.references - 1 = 0 then
      let w ← w.destroyArena c.arena
      let w ← w.freeOwner c.owner
      w.freeItem item
    else w.freeItem item

/-! ## Items -/

/-- `sjson_cjson_wrap` of what a lookup in `container->value` finds. -/
def wrapFound [CDouble D] [CDoubleInt D] (B : Backing) (container : CAddr)
    (lookup : Heap D → JsonPtr → Scan JsonPtr) (w : CompatState D) :
    Option (Option CAddr × CompatState D) := do
  let c ← w.items container
  match c.value with
  | none => return (none, w)
  | some v => do
    let h ← w.nodesOf v
    match lookup h v.node with
    | .error (.fault _) => none
    | .error (.err _) => return (none, w)
    | .ok out => sjsonCjsonWrap B c.owner (some ⟨v.arena, out⟩) 0 w

/-- `cJSON_GetArrayItem`. -/
def cJSONGetArrayItem [CDouble D] [CDoubleInt D] (B : Backing) (array : Option CAddr)
    (index : Int32) (w : CompatState D) : Option (Option CAddr × CompatState D) :=
  match array with
  | none => some (none, w)
  | some array =>
    if index < 0 then some (none, w)
    else wrapFound B array (fun h v => jsonArrGet h v index.toUInt32.toNat) w

/-- `cJSON_GetObjectItemCaseSensitive`. -/
def cJSONGetObjectItemCaseSensitive [CDouble D] [CDoubleInt D] (B : Backing)
    (object : Option CAddr) (string : Option (List UInt8)) (w : CompatState D) :
    Option (Option CAddr × CompatState D) :=
  match object, string with
  | some object, some string => wrapFound B object (fun h v => jsonObjGetN h v string) w
  | _, _ => some (none, w)

/-- `cJSON_GetObjectItem`. -/
def cJSONGetObjectItem [CDouble D] [CDoubleInt D] (B : Backing) (object : Option CAddr)
    (string : Option (List UInt8)) (w : CompatState D) :
    Option (Option CAddr × CompatState D) :=
  cJSONGetObjectItemCaseSensitive B object string w

/-- `cJSON_GetStringValue`. -/
def cJSONGetStringValue (item : Option CAddr) (w : CompatState D) :
    Option (Option CString × CompatState D) :=
  match item with
  | none => some (none, w)
  | some item => do
    let c ← w.items item
    match c.value with
    | none => return (none, w)
    | some v => do
      let h ← w.nodesOf v
      match h.node v.node with
      | .string str =>
        if c.valuestring.isSome then return (c.valuestring, w)
        else
          let s ← w.arenaAt c.arena
          let (out, A) := s.arena.alloc (str.len + 1)
          let w := { w with arenas := w.arenas.set c.arena (.live { s with arena := A }) }
          match out with
          | none => return (none, w)
          | some place => do
            let out : CString := ⟨place, str.data ++ [0]⟩
            return (some out, w.setItem item { c with valuestring := some out })
      | _ => return (none, w)

/-! ## Calls -/

/-- A call of the layer. -/
inductive CompatCall where
  | parse (value : Option (List UInt8))
  | parseWithLength (value : Option (List UInt8))
  | getArrayItem (array : Option CAddr) (index : Int32)
  | getObjectItem (object : Option CAddr) (string : Option (List UInt8))
  | getStringValue (item : Option CAddr)
  | delete (item : Option CAddr)

namespace CompatCall

/-- The wrapper that a call returns, if any, and the state it leaves. -/
def run [CDouble D] [CDoubleInt D] (B : Backing) (w : CompatState D) :
    CompatCall → Option (Option CAddr × CompatState D)
  | .parse value => cJSONParse B value w
  | .parseWithLength value => cJSONParseWithLength B value w
  | .getArrayItem array index => cJSONGetArrayItem B array index w
  | .getObjectItem object string => cJSONGetObjectItem B object string w
  | .getStringValue item => (fun r => (none, r.2)) <$> cJSONGetStringValue item w
  | .delete item => (fun w => (none, w)) <$> cJSONDelete item w

/-- The wrapper that is passed. -/
def arg : CompatCall → Option CAddr
  | .getArrayItem array _ => array
  | .getObjectItem object _ => object
  | .getStringValue item => item
  | .delete item => item
  | _ => none

/-- The wrappers that the caller has after a call that returned `r`. -/
def after (held : Set CAddr) (r : Option CAddr) : CompatCall → Set CAddr
  | .delete (some item) => held \ {item}
  | _ => held ∪ {p | r = some p}

end CompatCall

/-- **Runs.**  Callers use wrappers they were given and did not delete, and delete each once;
`held` are the wrappers they have. -/
inductive CompatRun [CDouble D] [CDoubleInt D] (B : Backing) :
    Set CAddr → CompatState D → Prop
  | start : CompatRun B ∅ .init
  | call {held : Set CAddr} {w w' : CompatState D} {r : Option CAddr} (c : CompatCall)
      (h : CompatRun B held w) (harg : ∀ p, c.arg = some p → p ∈ held)
      (hcall : c.run B w = some (r, w')) : CompatRun B (c.after held r) w'

end SJson
