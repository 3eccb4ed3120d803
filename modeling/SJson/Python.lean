/-
# The Python layer

`bindings/python/sjson/__init__.py`: documents as Python objects, which own a document of the C
ABI until they are closed, and whose values are copied into Python values.

* A `str` that is returned is a `String`; a `str` that is given may have surrogates as well, which
  `encode` refuses.
* What `_library` finds is no code of this repository: how it ends is given with every call that
  may load the library.
* A method runs in `Py`, which tells an exception from something undefined in a native call.
  `close` and the methods that read are under one lock, so that calls of several threads come
  one after the other.
* The frames that are counted are those of `_convert`, which calls itself; the calls that it makes
  otherwise are taken to have the frames that they need.  Memory of the interpreter does not run
  out.
-/
import SJson.FfiSpec
import SJson.Lib.Loops
import SJson.Lib.OrderedMap

namespace SJson

namespace Python

open OrderedMap

/-! ## Strings -/

/-- `str.encode("utf-8")`. -/
def encodeUtf8 (s : String) : List UInt8 := s.toUTF8.data.toList

/-- `bytes.decode("utf-8")`, which fails on bytes that are not UTF-8. -/
def decodeUtf8 (bytes : List UInt8) : Option String := String.fromUTF8? ⟨⟨bytes⟩⟩

/-! ## Values and exceptions -/

/-- A value of Python, as far as `_convert` makes them; a `dict` keeps the order of insertion. -/
inductive PyValue where
  | none
  | bool (b : Bool)
  | int (i : ℤ)
  | float (f : Double)
  | str (s : String)
  | list (items : List PyValue)
  | dict (entries : List (String × PyValue))

/-- What is raised. -/
inductive PyException where
  | memoryError (message : String)
  | valueError (message : String)
  | typeError (message : String)
  | osError (message : String)
  | attributeError (message : String)
  | unicodeEncodeError
  | unicodeDecodeError
  | recursionError
  deriving DecidableEq, Repr

/-- Why a method does not return: an exception, or a native call that did something undefined. -/
inductive PyFail where
  | raised (e : PyException)
  | undefined
  deriving DecidableEq, Repr

/-- A method that changes nothing. -/
abbrev Py (α : Type) := Except PyFail α

section Methods

variable {α : Type}

/-- `raise e`. -/
def raise (e : PyException) : Py α := .error (.raised e)

/-- A call of the C ABI. -/
def native : Option α → Py α
  | some a => .ok a
  | none => .error .undefined

/-- How a method ends. -/
def ended : Py α → Option (Except PyException α)
  | .ok a => some (.ok a)
  | .error (.raised e) => some (.error e)
  | .error .undefined => none

/-- `bytes.decode("utf-8")`, or an exception. -/
def decode (bytes : List UInt8) : Py String :=
  match decodeUtf8 bytes with
  | some s => .ok s
  | none => raise .unicodeDecodeError

/-- `Document._check`. -/
def check (status : JsonError) : Py Unit :=
  if status.code ≠ 0 then
    if status.code = -2 then raise (.memoryError (jsonErrorStr status))
    else raise (.valueError (jsonErrorStr status))
  else .ok ()

/-- A call of the C ABI whose status is checked. -/
def checked (x : Option (Except JsonError α)) : Py α := do
  match ← native x with
  | .ok a => return a
  | .error status =>
    check status
    -- no output was stored
    .error .undefined

end Methods

/-! ## Copies of values -/

/-- An item of a list. -/
def convertItem (convert : Option ValueRef → Py PyValue) (w : FfiState) (value : Option ValueRef)
    (i : ℕ) : Py PyValue := do
  convert (← native (sjsonValueAt value (.ofNat i) w))

/-- `result[key] = value`, for one more entry. -/
def convertEntry (convert : Option ValueRef → Py PyValue) (w : FfiState) (value : Option ValueRef)
    (result : List (String × PyValue)) (i : ℕ) : Py (List (String × PyValue)) := do
  let entry ← checked (sjsonValueEntry value (.ofNat i) w)
  let child ← convert entry.2
  let key ← decode entry.1
  return store key child result

/-- The part of `Document._convert` for containers. -/
def convertContainer (convert : Option ValueRef → Py PyValue) (w : FfiState)
    (value : Option ValueRef) (kind : ℤ) : Py PyValue := do
  let size ← native (sjsonValueSize value w)
  if kind = 5 then
    let items ← (List.range size).mapM (convertItem convert w value)
    return .list items
  else if kind = 6 then
    let result ← (List.range size).foldlM (convertEntry convert w value) []
    return .dict result
  else raise (.valueError "invalid native value")

/-- `Document._convert`, in so many frames as are left. -/
def convert (w : FfiState) : ℕ → Option ValueRef → Py PyValue
  | 0, _ => raise .recursionError
  | frames + 1, value => do
    let kind ← native (sjsonValueKind value w)
    if kind = 0 then return .none
    else if kind = 1 then
      let scalar ← checked (sjsonValueBool value w)
      return .bool (scalar ≠ 0)
    else if kind = 2 then
      let scalar ← checked (sjsonValueInt value w)
      return .int scalar.toInt
    else if kind = 3 then
      let scalar ← checked (sjsonValueNumber value w)
      return .float scalar
    else if kind = 4 then
      let data ← checked (sjsonValueString value w)
      let s ← decode data
      return .str s
    else convertContainer (convert w frames) w value kind

/-! ## Documents -/

/-- How `_library` ends.  A library that was loaded is remembered, and every later call is
`loaded`. -/
inductive Library where
  | loaded
  /-- There is no `SJSON_LIBRARY`, and `find_library` finds none. -/
  | missing
  /-- `CDLL` fails. -/
  | unloadable (message : String)
  /-- A function is not in the library. -/
  | incomplete (message : String)
  /-- `sjson_abi_version` is not 1. -/
  | foreign
  deriving DecidableEq, Repr

/-- `_library`. -/
def Library.load : Library → Except PyException Unit
  | .loaded => .ok ()
  | .missing => .error (.osError
      "Build sjson_ffi with BUILD_SHARED_LIBS=ON and set SJSON_LIBRARY to its path")
  | .unloadable message => .error (.osError message)
  | .incomplete message => .error (.attributeError message)
  | .foreign => .error (.osError "unsupported sJson native ABI")

/-- What a document is made from. -/
inductive PyData where
  | str (s : String)
  /-- A `str` with a surrogate. -/
  | surrogates
  | bytes (b : List UInt8)
  | other

/-- The data as `bytes`. -/
def PyData.toBytes : PyData → Except PyException (List UInt8)
  | .str s => .ok (encodeUtf8 s)
  | .surrogates => .error .unicodeEncodeError
  | .bytes b => .ok b
  | .other => .error (.typeError "expected str or bytes")

/-- `Document.__init__` up to the native call: the bytes that are parsed. -/
def documentBytes (lib : Library) (data : PyData) : Except PyException (List UInt8) := do
  let bytes ← data.toBytes
  lib.load
  return bytes

/-- `Document.__init__`: what `_handle` is then. -/
def documentInit (B : FfiBacking) (lib : Library) (data : PyData) (w : FfiState) :
    Option (Except PyException DocPtr × FfiState) :=
  match documentBytes lib data with
  | .error e => some (.error e, w)
  | .ok bytes => do
    let ((handle, error), w) ← sjsonDocumentParse B (some bytes) w
    match handle with
    | some k => return (.ok k, w)
    | none => do
      let r ← ended do
        check error
        raise (.valueError "sJson returned an empty document")
      return (r, w)

/-- `Document._root`. -/
def documentRoot (handle : Option DocPtr) (w : FfiState) : Py (Option ValueRef) :=
  match handle with
  | none => raise (.valueError "document is closed")
  | some k => native (sjsonDocumentRoot (some k) w)

/-- `Document.close`, after which there is no handle. -/
def documentClose (handle : Option DocPtr) (w : FfiState) : Option FfiState :=
  match handle with
  | none => some w
  | some k => sjsonDocumentFree (some k) w

/-- `Document.to_python`. -/
def documentToPython (frames : ℕ) (handle : Option DocPtr) (w : FfiState) : Py PyValue := do
  let root ← documentRoot handle w
  convert w frames root

/-- `_check` of what `sjson_value_write` returns. -/
def checkedWrite (x : Option (Except JsonError Written)) : Py Written := do
  let r ← checked x
  check r.status
  return r

/-- `Document.serialize`. -/
def documentSerialize (handle : Option DocPtr) (w : FfiState) : Py String := do
  let root ← documentRoot handle w
  let size ← checkedWrite (sjsonValueWrite root none 0 w)
  -- `create_string_buffer` fills with zeros
  let output ← checkedWrite (sjsonValueWrite root (some fun _ => 0) (size.written + 1) w)
  decode (output.bytes.take (size.written + 1))

/-! ## Functions of the module -/

/-- `with Document(data) as document: return document.method()`. -/
def withDocument {α : Type} (B : FfiBacking) (lib : Library) (data : PyData)
    (method : Option DocPtr → FfiState → Py α) (w : FfiState) :
    Option (Except PyException α × FfiState) := do
  let (r, w) ← documentInit B lib data w
  match r with
  | .error e => return (.error e, w)
  | .ok k => do
    let r ← ended do
      -- `__enter__`
      let _ ← documentRoot (some k) w
      method (some k) w
    let w ← documentClose (some k) w
    return (r, w)

/-- `loads`. -/
def loads (B : FfiBacking) (lib : Library) (frames : ℕ) (data : PyData) (w : FfiState) :
    Option (Except PyException PyValue × FfiState) :=
  withDocument B lib data (documentToPython frames) w

/-- `normalize`. -/
def normalize (B : FfiBacking) (lib : Library) (data : PyData) (w : FfiState) :
    Option (Except PyException String × FfiState) :=
  withDocument B lib data documentSerialize w

/-! ## Calls -/

/-- The native documents, and the `_handle` of every `Document`, in the order in which they were
made. -/
structure PyState where
  ffi : FfiState
  handles : List (Option DocPtr)

/-- Nothing made yet. -/
def PyState.init : PyState := ⟨.init, []⟩

/-- A call of the layer, on the `Document` of this number; where a `Document` is made, with how
`_library` ends. -/
inductive PyCall where
  | document (lib : Library) (data : PyData)
  | enter (d : ℕ)
  | exit (d : ℕ)
  | close (d : ℕ)
  | del (d : ℕ)
  | toPython (d : ℕ) (frames : ℕ)
  | serialize (d : ℕ)
  | loads (lib : Library) (data : PyData) (frames : ℕ)
  | normalize (lib : Library) (data : PyData)

/-- What a call returns. -/
inductive PyReturn where
  | none
  | document (d : ℕ)
  | value (v : PyValue)
  | text (s : String)

namespace PyCall

/-- A method that changes nothing, of the document `d`. -/
def method {α : Type} (w : PyState) (d : ℕ) (m : Option DocPtr → FfiState → Py α)
    (result : α → PyReturn) : Option (Except PyException PyReturn × PyState) := do
  let handle ← w.handles[d]?
  let r ← ended (m handle w.ffi)
  return (r.map result, w)

/-- A method that closes the document `d`. -/
def closing (w : PyState) (d : ℕ) : Option (Except PyException PyReturn × PyState) := do
  let handle ← w.handles[d]?
  let ffi ← documentClose handle w.ffi
  return (.ok .none, ⟨ffi, w.handles.set d none⟩)

/-- What a call does. -/
def run (B : FfiBacking) (w : PyState) :
    PyCall → Option (Except PyException PyReturn × PyState)
  | .document lib data => do
    let (r, ffi) ← documentInit B lib data w.ffi
    match r with
    | .ok k => return (.ok (.document w.handles.length), ⟨ffi, w.handles ++ [some k]⟩)
    | .error e => return (.error e, ⟨ffi, w.handles⟩)
  | .enter d => method w d documentRoot fun _ => .document d
  | .exit d => closing w d
  | .close d => closing w d
  | .del d => closing w d
  | .toPython d frames => method w d (documentToPython frames) .value
  | .serialize d => method w d documentSerialize .text
  | .loads lib data frames => do
    let (r, ffi) ← Python.loads B lib frames data w.ffi
    return (r.map .value, ⟨ffi, w.handles⟩)
  | .normalize lib data => do
    let (r, ffi) ← Python.normalize B lib data w.ffi
    return (r.map .text, ⟨ffi, w.handles⟩)

end PyCall

end Python

end SJson
