/-
# An arena that is used again and again

A program that resets an arena and uses it for the same session as before gets the same results
in the same nodes, and the arena does not ask its backing allocator for anything
(`session_rounds`): `json_arena_reset` keeps the blocks, and what a session asks the arena for
depends on what it was answered only (`UsesArena`).  So a session is a list of requests with their
answers, and the blocks that it left answer them in the same way (`answerAll_replay`): what was
refused although the backing allocator refused nothing is refused to every arena.
-/
import SJson.ArenaLife
import SJson.ArenaUse
import SJson.Cpp
import SJson.Double
import SJson.Output

namespace SJson

open ErrState Requests

/-! ## Node counts aside, requests are allocations -/

section Sessions

variable {D : Type} [CDouble D]

/-- A call that uses an arena. -/
inductive ArenaCall (D : Type) where
  | api (c : ApiCall D)
  /-- `json_write_arena`. -/
  | writeArena (v : JsonPtr) (opts : JsonWriteOpts)
  /-- `json_arena_alloc`. -/
  | alloc (n : ℕ)

/-- What such a call returns; a text without its terminator. -/
inductive ArenaReturn where
  | value (p : Option JsonPtr)
  | done
  | text (e : JsonError) (out : Option (List UInt8))
  | memory (granted : Bool)

/-- What a call finds outside of the books of the arena: the bytes that are in the memory it is
given, and which of the requests for sorting `malloc` grants. -/
structure Setting where
  mem : ℕ → UInt8
  sortMem : ℕ → Bool

/-- The call returns a value, or `NULL`. -/
def ApiCall.makes : ApiCall D → Bool
  | .arrPush .. | .objSet .. | .objFinalize .. => false
  | _ => true

/-- The arena that was asked for the memory that was measured. -/
def Arena.afterMeasure (A : Arena) : Except Fault (JsonError × ℕ) → Arena
  | .ok (_, needed) => (A.alloc (needed + 1)).2
  | .error _ => A

/-- `json_write_arena`, in the arena of the state. -/
def writeInArena (env : Setting) (v : JsonPtr) (opts : JsonWriteOpts) : M D ArenaReturn := fun s =>
  match jsonWriteArena s.heap v s.arena env.mem opts env.sortMem with
  | .ok (e, w, A) => .ok (.text e (w.map Written.bytes)) { s with arena := A }
  | .error f =>
    .error (.fault f) { s with arena := s.arena.afterMeasure (jsonMeasure s.heap v opts) }

/-- What a call does. -/
def ArenaCall.run (env : Setting) : ArenaCall D → M D ArenaReturn
  | .api c => (fun p => if c.makes then .value p else .done) <$> c.run
  | .writeArena v opts => writeInArena env v opts
  | .alloc n => .memory <$> arenaAlloc n

/-- The call writes with `sort_keys`. -/
def ArenaCall.Sorts : ArenaCall D → Prop
  | .writeArena _ opts => opts.sortKeys = true
  | _ => False

end Sessions

end SJson
