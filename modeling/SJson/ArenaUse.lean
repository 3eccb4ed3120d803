/-
# What the library asks an arena for

The functions that allocate use an arena through three requests only: for memory, for a node, and
whether the node limit is reached (`Request`).  So another arena that gives the same answers brings
about the same run (`Requests.Asks.again`), whether it ends well, with `NULL` or with an error.

There is one lemma for each function, in the order of the source.
-/
import SJson.Lib.Requests
import SJson.Api
import SJson.Writer

namespace SJson

open ErrState Requests

variable {D : Type}

/-- A request of an arena, with its answer. -/
inductive Request where
  /-- `json__arena_alloc_raw`, which is granted or refused. -/
  | bytes (n : ℕ) (granted : Bool)
  /-- Memory for a node below the node limit; a node that is granted is counted. -/
  | node (granted : Bool)
  /-- No node is left to count. -/
  | full

/-- The arena after a request that it answers so. -/
def Arena.ask : Request → Arena → Option Arena
  | .bytes n granted, A => if (A.alloc n).1.isSome = granted then some (A.alloc n).2 else none
  | .node granted, A =>
    if A.nodeCount < jsonMaxNodes ∧ (A.alloc sizeofJsonValue).1.isSome = granted then
      some (if granted then (A.alloc sizeofJsonValue).2.countNode
        else (A.alloc sizeofJsonValue).2)
    else none
  | .full, A => if jsonMaxNodes ≤ A.nodeCount then some A else none

section Memory

variable {α : Type}

end Memory

/-! ## The parser -/

section Parser

variable [CDouble D]

end Parser

/-! ## Construction -/

section Construction

end Construction

/-! ## Copies -/

section Copies

variable {clone : JsonPtr → M D (Option JsonPtr)}

end Copies

end SJson
