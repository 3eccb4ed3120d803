/-
# The parser

`json_parse`, `src/sJson.c` lines 1371-1385 and 1456-1805: a machine with an explicit
stack of frames.  A configuration is the state of the `while` loop between two
rounds, `parseStep` is one round, and `jsonParse` runs the machine.

* `stack` lists the frames from the top down, so `depth` is its length and
  `stack[depth - 1]` its head; a frame that is pushed when `JSON_MAX_DEPTH` frames
  are there would be a store outside the array, which is a fault.
* The key of a frame nothing has been stored into is `none`.
* The branches that the source keeps for states that cannot occur set
  `JSON_ERR_INVALID_JSON`; here they are faults, so that their being dead is part of
  the absence of faults.
* `arena` and `src` are not `NULL`: the checks at the entry only refuse those.
-/
import SJson.LexerSpec

namespace SJson

open ErrState

/-- `ParseState`. -/
inductive ParseState where
  /-- Expecting any value. -/
  | value
  /-- Inside an array, with the frame of an item above. -/
  | arrItem
  /-- After an item. -/
  | arrCont
  /-- Expecting a key. -/
  | objKey
  /-- After a key. -/
  | objColon
  /-- After a colon, with the frame of the value above. -/
  | objVal
  /-- After a value. -/
  | objCont
  deriving DecidableEq, Repr

/-- `ParseFrame`. -/
structure ParseFrame where
  container : Option JsonPtr
  state : ParseState
  pendingKey : Option JsonStr
  deriving DecidableEq, Repr

/-- The frame that is pushed for a value. -/
def valueFrame : ParseFrame := ⟨none, .value, none⟩

/-- The locals of the loop of `json_parse`. -/
structure ParseCfg where
  pos : ℕ
  stack : List ParseFrame
  root : Option JsonPtr

/-- A round of the loop ends with the next configuration, or leaves the loop with the
root and the position behind it. -/
abbrev StepResult := ParseCfg ⊕ JsonPtr × ℕ

variable {D : Type}

/-- `stack[depth].state = PS_VALUE; stack[depth].container = NULL; depth++`. -/
def pushValue (pos : ℕ) (stack : List ParseFrame) (root : Option JsonPtr) : M D StepResult :=
  if stack.length < jsonMaxDepth then return .inl ⟨pos, valueFrame :: stack, root⟩
  else throw (.fault .stackIndex)

/-- The block that delivers a finished value to the parent frame, with `below` the
frames below the one that is popped.  The block behind `deliver_to_parent` lacks the
branch for a parent in `PS_VALUE` that its two copies have. -/
def deliver (valueParent : Bool) (result : JsonPtr) (pos : ℕ) (root : Option JsonPtr) :
    List ParseFrame → M D StepResult
  | [] => return .inr (result, pos)
  | parent :: fs =>
    match parent.state with
    | .arrItem | .arrCont =>
      match parent.container with
      | none => throw (.fault .badContainer)
      | some arr => do
        arrStore arr result
        return .inl ⟨pos, { parent with state := .arrCont } :: fs, root⟩
    | .objVal =>
      match parent.container, parent.pendingKey with
      | some obj, some key => do
        objStore obj key result
        return .inl ⟨pos, { parent with state := .objCont } :: fs, root⟩
      | some _, none => throw (.fault .uninit)
      | none, _ => throw (.fault .badContainer)
    | .value => if valueParent then return .inr (result, pos) else throw (.fault .deadBranch)
    | _ => throw (.fault .deadBranch)

/-- The block behind `deliver_to_parent`. -/
def deliverValue (result : JsonPtr) (pos : ℕ) (root : Option JsonPtr) (below : List ParseFrame) :
    M D StepResult := deliver false result pos root below

/-- The copy of the block in `PS_ARR_CONT`. -/
def deliverArray (result : JsonPtr) (pos : ℕ) (root : Option JsonPtr) (below : List ParseFrame) :
    M D StepResult := deliver true result pos root below

/-- The copy of the block in `PS_OBJ_CONT`. -/
def deliverObject (result : JsonPtr) (pos : ℕ) (root : Option JsonPtr) (below : List ParseFrame) :
    M D StepResult := deliver true result pos root below

/-- `ull`. -/
def litUll : List UInt8 := [0x75, 0x6C, 0x6C]

/-- `rue`. -/
def litRue : List UInt8 := [0x72, 0x75, 0x65]

/-- `alse`. -/
def litAlse : List UInt8 := [0x61, 0x6C, 0x73, 0x65]

/-- `c` starts a number. -/
def startsNumber (c : UInt8) : Bool := c = 0x2D || isDigit c

/-- The opening of a container in `PS_VALUE`, with `pos` behind the bracket: an empty
one is delivered, otherwise the frame turns into one of the container. -/
def openContainer (src : List UInt8) (pos : ℕ) (frame : ParseFrame) (below : List ParseFrame)
    (root : Option JsonPtr) (node : JsonPtr) (closing : UInt8) (isArray : Bool) :
    M D StepResult :=
  -- `depth` is the number of frames
  if below.length + 1 ≥ jsonMaxDepth then throw (.err .depthExceeded)
  else do
    let pos ← ofScan (jsonLexSkipWs src pos)
    if ← ofScan (byteAt src pos [closing]) then deliverValue node (pos + 1) root below
    else if isArray then
      pushValue pos ({ frame with container := some node, state := .arrItem } :: below) root
    else return .inl ⟨pos, { frame with container := some node, state := .objKey } :: below, root⟩

/-- The error for a node that was refused. -/
def newNodeError {α : Type} : M D α := fun s =>
  .error (.err (if s.arena.nodeCount ≥ jsonMaxNodes then .nodeLimit else .oom)) s

/-- The case `PS_ARR_CONT`. -/
def stepArrCont (pos : ℕ) (c : UInt8) (frame : ParseFrame) (below : List ParseFrame)
    (root : Option JsonPtr) : M D StepResult :=
  if c = 0x5D then
    match frame.container with
    | none => throw (.fault .badContainer)
    | some result => deliverArray result (pos + 1) root below
  else if c = 0x2C then
    if below.length + 1 ≥ jsonMaxDepth then throw (.err .depthExceeded)
    else pushValue (pos + 1) ({ frame with state := .arrItem } :: below) root
  else throw (.err .invalidJson)

/-- The case `PS_OBJ_KEY`. -/
def stepObjKey (src : List UInt8) (pos : ℕ) (c : UInt8) (frame : ParseFrame)
    (below : List ParseFrame) (root : Option JsonPtr) : M D StepResult :=
  if c = 0x22 then do
    let (key, pos) ← jsonParseString src (pos + 1)
    return .inl ⟨pos, { frame with pendingKey := some key, state := .objColon } :: below, root⟩
  else throw (.err .invalidJson)

/-- The case `PS_OBJ_COLON`. -/
def stepObjColon (pos : ℕ) (c : UInt8) (frame : ParseFrame) (below : List ParseFrame)
    (root : Option JsonPtr) : M D StepResult :=
  if c ≠ 0x3A then throw (.err .invalidJson)
  else if below.length + 1 ≥ jsonMaxDepth then throw (.err .depthExceeded)
  else pushValue (pos + 1) ({ frame with state := .objVal } :: below) root

/-- The case `PS_OBJ_CONT`. -/
def stepObjCont (pos : ℕ) (c : UInt8) (frame : ParseFrame) (below : List ParseFrame)
    (root : Option JsonPtr) : M D StepResult :=
  if c = 0x7D then
    match frame.container with
    | none => throw (.fault .badContainer)
    | some result => deliverObject result (pos + 1) root below
  else if c = 0x2C then
    return .inl ⟨pos + 1, { frame with state := .objKey } :: below, root⟩
  else throw (.err .invalidJson)

variable [CDouble D]

/-- The cases of `PS_VALUE` for scalars: the node to store and the position behind
the token. -/
def parseScalar (src : List UInt8) (pos : ℕ) (c : UInt8) : M D (JsonNode D × ℕ) :=
  if c = 0x6E then do
    let pos ← ofScan (lexExpectLiteral src (pos + 1) litUll)
    return (.null, pos)
  else if c = 0x74 then do
    let pos ← ofScan (lexExpectLiteral src (pos + 1) litRue)
    return (.bool true, pos)
  else if c = 0x66 then do
    let pos ← ofScan (lexExpectLiteral src (pos + 1) litAlse)
    return (.bool false, pos)
  else if c = 0x22 then do
    let (str, pos) ← jsonParseString src (pos + 1)
    return (.string str, pos)
  else if startsNumber c then jsonParseNumber src pos
  else throw (.err .invalidJson)

/-- The case `PS_VALUE`. -/
def stepValue (src : List UInt8) (pos : ℕ) (c : UInt8) (frame : ParseFrame)
    (below : List ParseFrame) (root : Option JsonPtr) : M D StepResult := do
  match ← jsonNewNode with
  | none => newNodeError
  | some node =>
    if c = 0x5B then do
      writeNode node (.array .empty)
      openContainer src (pos + 1) frame below root node 0x5D true
    else if c = 0x7B then do
      writeNode node (.object .empty)
      openContainer src (pos + 1) frame below root node 0x7D false
    else do
      let (n, pos) ← parseScalar src pos c
      writeNode node n
      deliverValue node pos root below

/-- The `switch` of the loop, for the byte `c` at `pos`. -/
def stepFrame (src : List UInt8) (pos : ℕ) (c : UInt8) (frame : ParseFrame)
    (below : List ParseFrame) (root : Option JsonPtr) : M D StepResult :=
  match frame.state with
  | .value => stepValue src pos c frame below root
  | .arrCont => stepArrCont pos c frame below root
  | .objKey => stepObjKey src pos c frame below root
  | .objColon => stepObjColon pos c frame below root
  | .objCont => stepObjCont pos c frame below root
  | .arrItem | .objVal => throw (.fault .deadBranch)

/-- One round of the loop of `json_parse`. -/
def parseStep (src : List UInt8) (cfg : ParseCfg) : M D StepResult :=
  match cfg.stack with
  | [] => throw (.fault .stackIndex)
  | frame :: below => do
    let pos ← ofScan (jsonLexSkipWs src cfg.pos)
    if pos ≥ src.length then
      match below, cfg.root with
      | [], some root => return .inr (root, pos)
      | _, _ => throw (.err .unexpectedEof)
    else
      let c ← ofScan (rd src pos)
      stepFrame src pos c frame below cfg.root

/-- The loop of `json_parse` starts with a frame for the root. -/
def initialCfg : ParseCfg := ⟨0, [valueFrame], none⟩

/-- `json_parse`. -/
def jsonParse (src : List UInt8) : M D JsonPtr := do
  let (root, pos) ← runFuel (parseStep src) (.fault .fuel) (src.length + 1) initialCfg
  let pos ← ofScan (jsonLexSkipWs src pos)
  if pos < src.length then throw (.err .invalidJson) else return root

end SJson
