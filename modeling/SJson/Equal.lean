/-
# Equality and copies

`json__equal` and `json__clone`, `src/sJson.c` lines 2586-2717.  Both walk over graphs of
nodes and give up at a nesting of `JSON_MAX_DEPTH`; the recursion is on the levels that
are left, so `room + 1` is `depth = JSON_MAX_DEPTH - room - 1`.

A node of a copy is filled in when its children are there: until then it is not
reachable, and it stays unreachable where the copy fails.
-/
import SJson.Lookup

namespace SJson

variable {D : Type}

/-! ## Equality -/

/-- The comparison of two strings in `json__equal`. -/
def equalStr (s t : JsonStr) : Bool :=
  s.len = t.len && s.hash = t.hash && (s.len = 0 || memcmp s.len s.data t.data = 0)

/-- The loop of `json__equal` over the items. -/
def equalItems (equal : JsonPtr → JsonPtr → Scan Bool) : List JsonPtr → List JsonPtr → Scan Bool
  | p :: ps, q :: qs => do
    if ← equal p q then equalItems equal ps qs else return false
  | [], _ => .ok true
  | _ :: _, [] => .error (.fault .oobRead)

/-- The loop of `json__equal` over the pairs, which looks the keys up in `b`. -/
def equalPairs (h : Heap D) (equal : JsonPtr → JsonPtr → Scan Bool) (b : JsonPtr) :
    List JsonPair → Scan Bool
  | [] => .ok true
  | pair :: pairs =>
    match jsonObjGetN h b pair.key.data with
    | .error (.fault f) => .error (.fault f)
    | .error (.err _) => .ok false
    | .ok bval => do
      if ← equal pair.val bval then equalPairs h equal b pairs else return false

variable [CDouble D]

/-- `json__equal`, for two pointers that differ, with levels left. -/
def equalNodes (h : Heap D) (equal : JsonPtr → JsonPtr → Scan Bool) (b : JsonPtr) :
    JsonNode D → JsonNode D → Scan Bool
  | .null, .null => .ok true
  | .bool x, .bool y => .ok (x = y)
  | .integer i, .integer j => .ok (i = j)
  | .float f, .float g => .ok (CDouble.beq f g)
  | .integer i, .float g => .ok (CDouble.beq (CDouble.ofInt64 i) g)
  | .float f, .integer j => .ok (CDouble.beq f (CDouble.ofInt64 j))
  | .string s, .string t => .ok (equalStr s t)
  | .array x, .array y =>
    if x.items.length ≠ y.items.length then .ok false else equalItems equal x.items y.items
  | .object x, .object y =>
    if x.pairs.length ≠ y.pairs.length then .ok false else equalPairs h equal b x.pairs
  | _, _ => .ok false

/-- `json__equal`. -/
def jsonEqualAt (h : Heap D) : ℕ → JsonPtr → JsonPtr → Scan Bool
  | 0, a, b => .ok (a = b)
  | room + 1, a, b =>
    if a = b then .ok true else equalNodes h (jsonEqualAt h room) b (h.node a) (h.node b)

/-- `json_equal`. -/
def jsonEqual (h : Heap D) (a b : JsonPtr) : Scan Bool := jsonEqualAt h jsonMaxDepth a b

/-! ## Copies -/

omit [CDouble D]

/-- The loop of `json__clone` over the items. -/
def cloneItems (clone : JsonPtr → M D (Option JsonPtr)) :
    List JsonPtr → M D (Option (List JsonPtr))
  | [] => return some []
  | p :: ps => do
    match ← clone p with
    | none => return none
    | some q =>
      match ← cloneItems clone ps with
      | none => return none
      | some qs => return some (q :: qs)

/-- The loop of `json__clone` over the pairs. -/
def clonePairs (clone : JsonPtr → M D (Option JsonPtr)) :
    List JsonPair → M D (Option (List JsonPair))
  | [] => return some []
  | pair :: pairs => do
    let hasKey ← bufferFor (pair.key.len > 0) pair.key.len
    if hasKey then
      match ← clone pair.val with
      | none => return none
      | some q =>
        match ← clonePairs clone pairs with
        | none => return none
        | some qs => return some (⟨pair.key, q⟩ :: qs)
    else return none

/-- The contents of the copy of a node; `none` for lack of memory. -/
def cloneNode (clone : JsonPtr → M D (Option JsonPtr)) : JsonNode D → M D (Option (JsonNode D))
  | .string s => do
    let hasCopy ← bufferFor (s.len > 0) s.len
    if hasCopy then return some (.string s) else return none
  | .array a => do
    let hasItems ← bufferFor (a.items.length > 0) (a.items.length * sizeofPtr)
    if hasItems then
      match ← cloneItems clone a.items with
      | none => return none
      | some items => return some (.array ⟨items, a.items.length⟩)
    else return none
  | .object o => do
    let hasPairs ← bufferFor (o.pairs.length > 0) (o.pairs.length * sizeofJsonPair)
    if hasPairs then
      match ← clonePairs clone o.pairs with
      | none => return none
      | some pairs => return some (.object ⟨pairs, none, o.pairs.length, false⟩)
    else return none
  | n => return some n

/-- `json__clone`. -/
def jsonCloneAt : ℕ → JsonPtr → M D (Option JsonPtr)
  | 0, _ => return none
  | room + 1, src => do
    match ← jsonNewNode with
    | none => return none
    | some out =>
      let n ← readNode src
      match ← cloneNode (jsonCloneAt room) n with
      | none => return none
      | some n =>
        writeNode out n
        return some out

/-- `json_clone`. -/
def jsonClone (src : JsonPtr) : M D (Option JsonPtr) := jsonCloneAt jsonMaxDepth src

end SJson
