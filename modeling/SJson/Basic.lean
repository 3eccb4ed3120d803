/-
# The data model of sJson

The constants, error codes and value structs of `src/sJson.c`, lines 120-270, as
the configuration macros set them by default on an LP64 target.

* A `JsonValue*` is a `JsonPtr`, the index of a node in a `Heap`; a node is one
  `struct JsonValue`, so sharing, cycles and in-place updates are expressible.
* Byte strings are lists of `UInt8`; `size_t` and `uint32_t` quantities are
  natural numbers, wrapped explicitly where the C code can wrap.
* `double` is the abstract type of the class `CDouble`: the operations that the
  library takes from the FPU and from libc.
-/
import Mathlib

namespace SJson

/-! ## Integer ranges and configuration macros -/

/-- `(size_t)-1` on a 64-bit target. -/
def sizeMax : ℕ := 2 ^ 64 - 1

/-- The largest size of an object in memory, `PTRDIFF_MAX`. -/
def ptrdiffMax : ℕ := 2 ^ 63 - 1

/-- `UINT32_MAX`. -/
def uint32Max : ℕ := 2 ^ 32 - 1

/-- `JSON_MAX_DEPTH`. -/
def jsonMaxDepth : ℕ := 64

/-- `JSON_MAX_STRING_LEN`. -/
def jsonMaxStringLen : ℕ := 1024 * 1024

/-- `JSON_MAX_NODES`. -/
def jsonMaxNodes : ℕ := 1024 * 1024

/-- `JSON_MAX_ARRAY_LEN`. -/
def jsonMaxArrayLen : ℕ := 1024 * 1024

/-- `JSON_INTROSORT_THRESH`. -/
def jsonIntrosortThresh : ℕ := 16

/-- `JSON_ARENA_ALIGN`. -/
def jsonArenaAlign : ℕ := 8

/-- `JSON_ARENA_MIN_BLOCK`. -/
def jsonArenaMinBlock : ℕ := 4 * 1024

/-- Addition of two `size_t`. -/
def szAdd (a b : ℕ) : ℕ := (a + b) % 2 ^ 64

/-- Subtraction of two `size_t`, which wraps when `b` is the larger one. -/
def szSub (a b : ℕ) : ℕ := if b ≤ a then a - b else 2 ^ 64 - (b - a)

theorem szAdd_of_le {a b : ℕ} (h : a + b ≤ sizeMax) : szAdd a b = a + b := by
  unfold szAdd sizeMax at *
  exact Nat.mod_eq_of_lt (by omega)

theorem szSub_of_le {a b : ℕ} (h : b ≤ a) : szSub a b = a - b := if_pos h

/-! ## Error codes and faults -/

/-- `JsonError`. -/
inductive JsonError where
  | ok
  | nullParam
  | oom
  | invalidJson
  | unexpectedEof
  | depthExceeded
  | invalidString
  | invalidNumber
  | invalidUtf8
  | overflow
  | notFound
  | typeMismatch
  | bufferTooSmall
  | nodeLimit
  deriving DecidableEq, Repr

/-- The errors that say that a text is not JSON or that a token is too long. -/
def JsonError.syntactic : JsonError → Bool
  | .invalidJson | .unexpectedEof | .invalidString | .invalidNumber | .invalidUtf8
  | .overflow => true
  | _ => false

/-- What the C standard leaves undefined, plus the branches the source marks as
dead.  The model stops with a fault where the C program would read or write out
of bounds, use an uninitialised object, or access the wrong union member. -/
inductive Fault where
  /-- A read outside the buffer that was passed. -/
  | oobRead
  /-- A store outside an allocation. -/
  | oobWrite
  /-- A use of an object nothing has been stored into. -/
  | uninit
  /-- An access to the wrong member of `JsonValue.v`, or through `NULL`. -/
  | badContainer
  /-- An access to `stack[]` outside `JSON_MAX_DEPTH`. -/
  | stackIndex
  /-- A branch that the source says is never taken. -/
  | deadBranch
  /-- A loop that ran longer than the bound the model gives it. -/
  | fuel
  deriving DecidableEq, Repr

/-- Why a call did not succeed: an error code of the API, or a fault. -/
inductive Fail where
  | err (e : JsonError)
  | fault (f : Fault)
  deriving DecidableEq, Repr

/-- A computation over a fixed buffer. -/
abbrev Scan (α : Type) := Except Fail α

theorem scan_bind_ok {α β : Type} {x : Scan α} {k : α → Scan β} {a : α} (h : x = .ok a) :
    (x >>= k) = k a := by
  rw [h]
  rfl

theorem scan_bind_error {α β : Type} {x : Scan α} {k : α → Scan β} {e : Fail}
    (h : x = .error e) : (x >>= k) = .error e := by
  rw [h]
  rfl

/-- A sequence that returns, returns at each of its steps. -/
theorem scan_bind_eq_ok {α β : Type} {x : Scan α} {k : α → Scan β} {b : β} :
    (x >>= k) = .ok b ↔ ∃ a, x = .ok a ∧ k a = .ok b := by
  cases x with
  | error e => exact ⟨fun h => (by cases h), fun ⟨_, h, _⟩ => (by cases h)⟩
  | ok a => exact ⟨fun h => ⟨a, rfl, h⟩, fun ⟨_, h, hk⟩ => by cases h; exact hk⟩

/-- `p[i]`, where `data` is everything that may be read through `p`. -/
def rd (data : List UInt8) (i : ℕ) : Scan UInt8 :=
  match data[i]? with
  | some c => .ok c
  | none => .error (.fault .oobRead)

theorem rd_of_lt {data : List UInt8} {i : ℕ} (h : i < data.length) :
    rd data i = .ok data[i] := by
  simp [rd, List.getElem?_eq_getElem h]

theorem rd_of_some {data : List UInt8} {i : ℕ} {c : UInt8} (h : data[i]? = some c) :
    rd data i = .ok c := by
  simp [rd, h]

@[simp] theorem rd_cons_zero (c : UInt8) (data : List UInt8) :
    rd (c :: data) 0 = .ok c := rfl

@[simp] theorem rd_cons_succ (c : UInt8) (data : List UInt8) (i : ℕ) :
    rd (c :: data) (i + 1) = rd data i := rfl

/-! ## Strings -/

/-- `JsonStr`: the bytes a string points to (`NULL` when there are none) and its
stored hash. -/
structure JsonStr where
  data : List UInt8
  hash : UInt32
  deriving DecidableEq, Repr

/-- `JsonStr.len`. -/
abbrev JsonStr.len (s : JsonStr) : ℕ := s.data.length

/-- One round of FNV-1a. -/
def fnvStep (hash : UInt32) (b : UInt8) : UInt32 := (hash ^^^ b.toUInt32) * 0x01000193

/-- `json_fnv1a`. -/
def jsonFnv1a (data : List UInt8) : UInt32 := data.foldl fnvStep 0x811C9DC5

/-! ## Values -/

/-- `JsonValue*`: which node of the heap is meant. -/
abbrev JsonPtr := ℕ

/-- `JsonArr`. -/
structure JsonArr where
  items : List JsonPtr
  cap : ℕ
  deriving DecidableEq, Repr

/-- `JsonPair`. -/
structure JsonPair where
  key : JsonStr
  val : JsonPtr
  deriving DecidableEq, Repr

/-- `JsonObj`. -/
structure JsonObj where
  pairs : List JsonPair
  sortedIdx : Option (List ℕ)
  cap : ℕ
  isSorted : Bool
  deriving DecidableEq, Repr

/-- `struct JsonValue`: the tag and the union member it selects. -/
inductive JsonNode (D : Type) where
  | null
  | bool (b : Bool)
  | integer (i : Int64)
  | float (f : D)
  | string (s : JsonStr)
  | array (a : JsonArr)
  | object (o : JsonObj)
  deriving DecidableEq, Repr

/-- An array of length zero without storage, as `json__new_node` leaves it. -/
def JsonArr.empty : JsonArr := ⟨[], 0⟩

/-- An object of length zero without storage. -/
def JsonObj.empty : JsonObj := ⟨[], none, 0, false⟩

/-- The nodes of every arena.  Nodes are handed out in order and never freed one
by one, so a node is named by its number. -/
structure Heap (D : Type) where
  node : JsonPtr → JsonNode D
  next : JsonPtr

namespace Heap

variable {D : Type}

/-- No node allocated yet. -/
def empty : Heap D := ⟨fun _ => .null, 0⟩

/-- A zero-filled node: `JSON_NULL` is tag `0`. -/
def new (h : Heap D) : Heap D := ⟨Function.update h.node h.next .null, h.next + 1⟩

/-- `*p = n`. -/
def set (h : Heap D) (p : JsonPtr) (n : JsonNode D) : Heap D :=
  ⟨Function.update h.node p n, h.next⟩

@[simp] theorem new_next (h : Heap D) : h.new.next = h.next + 1 := rfl

@[simp] theorem set_next (h : Heap D) (p : JsonPtr) (n : JsonNode D) :
    (h.set p n).next = h.next := rfl

@[simp] theorem set_node_self (h : Heap D) (p : JsonPtr) (n : JsonNode D) :
    (h.set p n).node p = n := Function.update_self ..

theorem set_node_ne (h : Heap D) {p q : JsonPtr} (n : JsonNode D) (hq : q ≠ p) :
    (h.set p n).node q = h.node q := Function.update_of_ne hq ..

theorem new_node_lt (h : Heap D) {q : JsonPtr} (hq : q < h.next) :
    h.new.node q = h.node q := Function.update_of_ne (Nat.ne_of_lt hq) ..

end Heap

/-! ## Doubles -/

/-- The C `double`, as far as the library uses it: the comparison and arithmetic
of the FPU, `snprintf("%.17g")` and `strtod` of libc, and the two tables of
powers of ten of `json__fast_float_from_parts`. -/
class CDouble (D : Type) where
  /-- `a == b`. -/
  beq : D → D → Bool
  /-- `(double)i`. -/
  ofInt64 : Int64 → D
  /-- `(double)mant`. -/
  ofUInt64 : ℕ → D
  /-- `a * b`. -/
  mul : D → D → D
  /-- `-a`. -/
  neg : D → D
  /-- `0.0`. -/
  zero : D
  /-- `pow10_pos[n]`. -/
  pow10Pos : ℕ → D
  /-- `pow10_neg[n]`. -/
  pow10Neg : ℕ → D
  /-- `isnan(a) || isinf(a)`. -/
  nonFinite : D → Bool
  /-- `strtod`: the value and the number of bytes consumed. -/
  strtod : List UInt8 → D × ℕ
  /-- The bytes `snprintf("%.17g", a)` produces; `none` is a negative result. -/
  snprintf17g : D → Option (List UInt8)

/-- Doubles of one value, for documents in which there are none. -/
abbrev CDouble.unit : CDouble Unit where
  beq := fun _ _ => true
  ofInt64 := fun _ => ()
  ofUInt64 := fun _ => ()
  mul := fun _ _ => ()
  neg := fun _ => ()
  zero := ()
  pow10Pos := fun _ => ()
  pow10Neg := fun _ => ()
  nonFinite := fun _ => false
  strtod := fun _ => ((), 0)
  snprintf17g := fun _ => none

end SJson
