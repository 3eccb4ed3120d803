/-
# The reference parser

A recursive-descent parser for the texts that `json_parse` accepts, which returns the
tree a text denotes.  It shares the tokens with the machine and nothing else: there is
no stack, no heap and no arena.  `depth` is the number of containers around the value,
plus one, and `nodes` the number of values read before it; with them the parser also
makes the checks of `JSON_MAX_DEPTH` and `JSON_MAX_NODES` where `json_parse` does.

`ParserRefine` proves that the machine computes the same results, errors included.
-/
import SJson.Json
import SJson.Parser

namespace SJson

variable {D : Type}

/-- The first byte behind the white space at `pos`. -/
def peek (src : List UInt8) (pos : ℕ) : Option UInt8 := src[wsEnd src pos]?

/-- The tree of a scalar node. -/
def JsonNode.toJson : JsonNode D → Json D
  | .null => .null
  | .bool b => .bool b
  | .integer i => .int i
  | .float f => .float f
  | .string s => .str s.data
  | .array _ => .arr []
  | .object _ => .obj []

variable [CDouble D]

/-- The token of a scalar, which starts with the byte `c` at `pos`. -/
def scalarToken (src : List UInt8) (pos : ℕ) (c : UInt8) : Scan (JsonNode D × ℕ) :=
  if c = 0x6E then do
    let pos ← lexExpectLiteral src (pos + 1) litUll
    return (.null, pos)
  else if c = 0x74 then do
    let pos ← lexExpectLiteral src (pos + 1) litRue
    return (.bool true, pos)
  else if c = 0x66 then do
    let pos ← lexExpectLiteral src (pos + 1) litAlse
    return (.bool false, pos)
  else if c = 0x22 then do
    let (str, pos) ← stringToken src (pos + 1)
    return (.string str, pos)
  else if startsNumber c then numberToken src pos
  else .error (.err .invalidJson)

mutual

/-- A value: the tree, the position behind it, and the number of values read. -/
def refValue (src : List UInt8) : ℕ → ℕ → ℕ → ℕ → Scan (Json D × ℕ × ℕ)
  | 0, _, _, _ => .error (.fault .fuel)
  | fuel + 1, depth, nodes, pos =>
    match peek src pos with
    | none => .error (.err .unexpectedEof)
    | some c =>
      let start := wsEnd src pos
      if nodes ≥ jsonMaxNodes then .error (.err .nodeLimit)
      else if c = 0x5B then
        if depth ≥ jsonMaxDepth then .error (.err .depthExceeded)
        else if peek src (start + 1) = some 0x5D then
          .ok (.arr [], wsEnd src (start + 1) + 1, nodes + 1)
        else refItems src fuel depth (nodes + 1) (wsEnd src (start + 1)) []
      else if c = 0x7B then
        if depth ≥ jsonMaxDepth then .error (.err .depthExceeded)
        else if peek src (start + 1) = some 0x7D then
          .ok (.obj [], wsEnd src (start + 1) + 1, nodes + 1)
        else refPairs src fuel depth (nodes + 1) (wsEnd src (start + 1)) []
      else do
        let (n, pos) ← scalarToken src start c
        return (n.toJson, pos, nodes + 1)
termination_by structural fuel => fuel

/-- The rest of an array, from an item on, behind the items `acc`. -/
def refItems (src : List UInt8) : ℕ → ℕ → ℕ → ℕ → List (Json D) → Scan (Json D × ℕ × ℕ)
  | 0, _, _, _, _ => .error (.fault .fuel)
  | fuel + 1, depth, nodes, pos, acc => do
    let (j, pos, nodes) ← refValue src fuel (depth + 1) nodes pos
    if acc.length ≥ jsonMaxArrayLen then .error (.err .overflow)
    else
      match peek src pos with
      | none => .error (.err .unexpectedEof)
      | some c =>
        if c = 0x5D then .ok (.arr (acc ++ [j]), wsEnd src pos + 1, nodes)
        else if c = 0x2C then refItems src fuel depth nodes (wsEnd src pos + 1) (acc ++ [j])
        else .error (.err .invalidJson)
termination_by structural fuel => fuel

/-- The rest of an object, from a key on, behind the pairs `acc`. -/
def refPairs (src : List UInt8) :
    ℕ → ℕ → ℕ → ℕ → List (List UInt8 × Json D) → Scan (Json D × ℕ × ℕ)
  | 0, _, _, _, _ => .error (.fault .fuel)
  | fuel + 1, depth, nodes, pos, acc =>
    match peek src pos with
    | none => .error (.err .unexpectedEof)
    | some c =>
      if c = 0x22 then do
        let (key, pos) ← stringToken src (wsEnd src pos + 1)
        match peek src pos with
        | none => .error (.err .unexpectedEof)
        | some c =>
          if c ≠ 0x3A then .error (.err .invalidJson)
          else do
            let (j, pos, nodes) ← refValue src fuel (depth + 1) nodes (wsEnd src pos + 1)
            if acc.length ≥ jsonMaxArrayLen then .error (.err .overflow)
            else
              match peek src pos with
              | none => .error (.err .unexpectedEof)
              | some c =>
                if c = 0x7D then .ok (.obj (acc ++ [(key.data, j)]), wsEnd src pos + 1, nodes)
                else if c = 0x2C then
                  refPairs src fuel depth nodes (wsEnd src pos + 1) (acc ++ [(key.data, j)])
                else .error (.err .invalidJson)
      else .error (.err .invalidJson)
termination_by structural fuel => fuel

end

/-- One round of the reference parser on the rest of an array. -/
theorem refItems_succ (src : List UInt8) (fuel depth nodes pos : ℕ) (acc : List (Json D)) :
    refItems src (fuel + 1) depth nodes pos acc
      = refValue src fuel (depth + 1) nodes pos >>= fun r =>
        if acc.length ≥ jsonMaxArrayLen then .error (.err .overflow)
        else (peek src r.2.1).elim (.error (.err .unexpectedEof)) fun c =>
          if c = 0x5D then .ok (.arr (acc ++ [r.1]), wsEnd src r.2.1 + 1, r.2.2)
          else if c = 0x2C then
            refItems src fuel depth r.2.2 (wsEnd src r.2.1 + 1) (acc ++ [r.1])
          else .error (.err .invalidJson) := by
  rw [refItems]
  refine bind_congr fun r => ?_
  obtain ⟨j, q, n⟩ := r
  cases hpeek : peek src q <;> simp only [hpeek, Option.elim]

/-- One round of the reference parser on the rest of an object. -/
theorem refPairs_succ (src : List UInt8) (fuel depth nodes pos : ℕ)
    (acc : List (List UInt8 × Json D)) :
    refPairs src (fuel + 1) depth nodes pos acc
      = (peek src pos).elim (.error (.err .unexpectedEof)) fun c =>
        if c = 0x22 then
          stringToken src (wsEnd src pos + 1) >>= fun k =>
            (peek src k.2).elim (.error (.err .unexpectedEof)) fun c =>
              if c ≠ 0x3A then .error (.err .invalidJson)
              else refValue src fuel (depth + 1) nodes (wsEnd src k.2 + 1) >>= fun r =>
                if acc.length ≥ jsonMaxArrayLen then .error (.err .overflow)
                else (peek src r.2.1).elim (.error (.err .unexpectedEof)) fun c =>
                  if c = 0x7D then
                    .ok (.obj (acc ++ [(k.1.data, r.1)]), wsEnd src r.2.1 + 1, r.2.2)
                  else if c = 0x2C then
                    refPairs src fuel depth r.2.2 (wsEnd src r.2.1 + 1)
                      (acc ++ [(k.1.data, r.1)])
                  else .error (.err .invalidJson)
        else .error (.err .invalidJson) := by
  rw [refPairs]
  cases peek src pos with
  | none => rfl
  | some c =>
    show ite _ _ _ = ite _ _ _
    congr 1
    refine bind_congr fun k => ?_
    obtain ⟨key, q⟩ := k
    cases hcolon : peek src q with
    | none => simp only [hcolon, Option.elim]
    | some c' =>
      simp only [hcolon, Option.elim]
      congr 1
      refine bind_congr fun r => ?_
      obtain ⟨j, u, n⟩ := r
      cases peek src u <;> rfl

/-- A whole text, in an arena with `nodes` values. -/
def refParse (src : List UInt8) (nodes : ℕ) : Scan (Json D × ℕ) := do
  let (j, pos, nodes) ← refValue src (2 * src.length + 1) 1 nodes 0
  if wsEnd src pos < src.length then .error (.err .invalidJson) else return (j, nodes)

end SJson
