/-
# Objects as finite maps

An object that a client fills with `json_obj_set` is an ordered finite map from keys to
values (`OrderedMap`).  A set that succeeds stores the value in the map, and every other
call, successful or not, leaves the map alone.  Lookups return what was stored last, through
the pair array or through the sorted index, whichever is in use (`jsonObj_map`).
-/
import SJson.Frame
import SJson.LookupSpec
import SJson.Lib.OrderedMap

namespace SJson

open ErrState OrderedMap

variable {D : Type}

/-! ## Calls on one object -/

/-- A call on an object, or one that makes or changes other values meanwhile. -/
inductive ObjCall (D : Type) where
  | set (key : List UInt8) (val : JsonPtr)
  | finalize
  | get (key : List UInt8)
  | iter (idx : ℕ)
  | elsewhere (c : ApiCall D)

/-- What a call on an object returns besides `JSON_OK`. -/
inductive ObjAnswer where
  | done
  | value (val : JsonPtr)
  | pair (key : List UInt8) (val : JsonPtr)

/-- What a computation returns, without the state it leaves. -/
def resultOf {α : Type} (x : M D α) (s : St D) : Except Fail α :=
  match x s with
  | .ok a _ => .ok a
  | .error e _ => .error e

/-- The keys of an object with their values, in the order of the pairs. -/
def JsonObj.contents (o : JsonObj) : List (List UInt8 × JsonPtr) :=
  o.pairs.map fun pr => (pr.key.data, pr.val)

/-- The contents of the object at `v`. -/
def contentsAt (h : Heap D) (v : JsonPtr) : List (List UInt8 × JsonPtr) :=
  match h.node v with
  | .object o => o.contents
  | _ => []

/-- A call that was made, what it returned, and what the object held afterwards. -/
structure ObjEvent (D : Type) where
  call : ObjCall D
  result : Except Fail ObjAnswer
  contents : List (List UInt8 × JsonPtr)

/-- The values that a call is given are nodes, and calls elsewhere do not change `v`. -/
def ObjCall.Fits (v next : JsonPtr) : ObjCall D → Prop
  | .set _ val => val < next
  | .elsewhere c => (∀ p ∈ c.args, p < next) ∧ c.target ≠ some v
  | _ => True

/-! ## The map -/

/-- What an object is for: values by key, in the order in which the keys first came. -/
abbrev KeyMap := OrderedMap (List UInt8) JsonPtr

/-- What a lookup returns that found this. -/
def orNotFound {α : Type} : Option α → Scan α
  | some a => .ok a
  | none => .error (.err .notFound)

namespace ObjCall

/-- What the map is after a call: only a set that succeeded has changed it. -/
def after (m : KeyMap) : ObjCall D → Except Fail ObjAnswer → KeyMap
  | .set key val, .ok _ => m.insert key val
  | _, _ => m

/-- The result is one that the map admits.  Sets and finalizing may fail. -/
def Answers (m : KeyMap) : ObjCall D → Except Fail ObjAnswer → Prop
  | .set _ _, r =>
    r = .ok .done ∨ ∃ e ∈ [JsonError.overflow, .invalidUtf8, .oom], r = .error (.err e)
  | .finalize, r => r = .ok .done ∨ r = .error (.err .oom)
  | .get key, r =>
    r = if key.length ≤ uint32Max then .value <$> orNotFound (m.get? key)
      else .error (.err .overflow)
  | .iter idx, r => r = (fun kv => .pair kv.1 kv.2) <$> orNotFound m.entries[idx]?
  | .elsewhere _, _ => True

end ObjCall

/-- The events are those of a map that starts as `m`. -/
def Follows : KeyMap → List (ObjEvent D) → Prop
  | _, [] => True
  | m, e :: es =>
    e.call.Answers m e.result ∧ e.contents = (e.call.after m e.result).entries ∧
      Follows (e.call.after m e.result) es

/-- The key and the value of a set that succeeded. -/
def ObjEvent.stored (e : ObjEvent D) : Option (List UInt8 × JsonPtr) :=
  match e.call, e.result with
  | .set key val, .ok _ => some (key, val)
  | _, _ => none

/-- The object at `v` holds the map, and all nodes are in order. -/
def HoldsMap (h : Heap D) (v : JsonPtr) (m : KeyMap) : Prop :=
  h.RepOk ∧ v < h.next ∧ ∃ o, h.node v = .object o ∧ o.contents = m.entries

/-! ## Contents -/

theorem contents_keys (o : JsonObj) :
    o.contents.map Prod.fst = o.pairs.map fun pr => pr.key.data := by
  rw [JsonObj.contents, List.map_map]
  rfl

/-- The first pair with a key has the value that the contents have for it. -/
theorem found_firstPair (pairs : List JsonPair) (key : List UInt8) :
    found (firstPair pairs key)
      = orNotFound (valueIn (pairs.map fun pr => (pr.key.data, pr.val)) key) := by
  induction pairs with
  | nil => rfl
  | cons pr pairs ih =>
    rw [List.map_cons, valueIn_cons, firstPair, List.find?_cons]
    by_cases hkey : pr.key.data = key
    · rw [decide_eq_true hkey, if_pos hkey]
      rfl
    · rw [decide_eq_false hkey, if_neg hkey]
      exact ih

/-- No key occurs twice where the contents are those of a map. -/
theorem occurs_le_one {o : JsonObj} {m : KeyMap} (h : o.contents = m.entries) (key : List UInt8) :
    occurs o.pairs key ≤ 1 := by
  have hnodup : (o.pairs.map fun pr => pr.key.data).Nodup := by
    rw [← contents_keys, h]
    exact m.nodup
  exact occurs_le_one_of_nodup hnodup key

/-- The loop of `json_obj_set` finds the key exactly if the object has it, and then it
replaces the value. -/
theorem setPair_contents {key : List UInt8} {val : JsonPtr} : ∀ {pairs : List JsonPair},
    (∀ pr ∈ pairs, pr.key.Ok) → (pairs.map fun pr => pr.key.data).Nodup →
    match setPair (jsonFnv1a key) key val pairs with
    | some pairs' => key ∈ (pairs.map fun pr => pr.key.data) ∧
        (pairs'.map fun pr => (pr.key.data, pr.val))
          = replaceAt key val (pairs.map fun pr => (pr.key.data, pr.val))
    | none => key ∉ pairs.map fun pr => pr.key.data := by
  intro pairs
  induction pairs with
  | nil =>
    intro _ _
    exact List.not_mem_nil
  | cons pr pairs ih =>
    intro hok hnodup
    obtain ⟨hpr, hrest⟩ := List.forall_mem_cons.mp hok
    rw [List.map_cons, List.nodup_cons] at hnodup
    rw [setPair]
    by_cases hkey : pr.key.data = key
    · rw [if_pos ((keyMatches_iff hpr).mpr hkey)]
      refine ⟨by simp [hkey], ?_⟩
      have hnot : key ∉ (pairs.map fun pr => (pr.key.data, pr.val)).map Prod.fst := by
        rw [List.map_map, ← hkey]
        exact hnodup.1
      have hrep := replaceAt_of_not_mem (v := val) hnot
      unfold replaceAt at hrep ⊢
      rw [List.map_cons, List.map_cons, List.map_cons, hrep, if_pos hkey, hkey]
    · rw [if_neg (fun hm => hkey ((keyMatches_iff hpr).mp hm))]
      have hih := ih hrest hnodup.2
      cases hset : setPair (jsonFnv1a key) key val pairs with
      | none =>
        rw [hset] at hih
        simp only [Option.map_none, List.map_cons, List.mem_cons, not_or]
        exact ⟨Ne.symm hkey, hih⟩
      | some pairs' =>
        rw [hset] at hih
        simp only [Option.map_some, List.map_cons]
        refine ⟨List.mem_cons_of_mem _ hih.1, ?_⟩
        rw [hih.2]
        unfold replaceAt
        rw [List.map_cons, if_neg hkey]

/-! ## One call -/

/-- The object afterwards has these contents. -/
def LeftWith (v : JsonPtr) (c : List (List UInt8 × JsonPtr)) (s : St D) : Prop :=
  ∃ o, s.heap.node v = .object o ∧ o.contents = c

/-- A set that succeeds stores the value, and one that fails changes nothing, even where
the storage of the object has grown. -/
theorem jsonObjSet_contents {s : St D} (hrep : s.heap.RepOk) {v val : JsonPtr} {o : JsonObj}
    (hv : v < s.heap.next) (hobj : s.heap.node v = .object o)
    (hnodup : (o.contents.map Prod.fst).Nodup) (key : List UInt8) :
    Ensures (jsonObjSet v key val) s (fun _ => LeftWith v (store key val o.contents))
      fun e s' => (∃ c ∈ [JsonError.overflow, .invalidUtf8, .oom], e = .err c) ∧
        LeftWith v o.contents s' := by
  have hok := hrep v hv
  rw [hobj] at hok
  have hkeys : ∀ pr ∈ o.pairs, pr.key.Ok := fun pr hpr => (hok.2.1 pr hpr).1
  have hread : readNode v s = .ok (.object o) s := by rw [readNode, hobj]
  have hsame : LeftWith v o.contents s := ⟨o, hobj, rfl⟩
  unfold jsonObjSet
  refine ensures_bind (.of_ok hread ?_)
  refine ensures_ite (fun _ => ensures_throw ⟨⟨.overflow, by simp, rfl⟩, hsame⟩) fun _ => ?_
  obtain ⟨valid, hvalid⟩ := jsonValidUtf8_total key
  refine ensures_bind (.of_ok (ofScan_ok hvalid) ?_)
  refine ensures_ite (fun _ => ensures_throw ⟨⟨.invalidUtf8, by simp, rfl⟩, hsame⟩) fun _ => ?_
  rw [contents_keys] at hnodup
  have hset := @setPair_contents key val o.pairs hkeys hnodup
  cases hfound : setPair (jsonFnv1a key) key val o.pairs with
  | some pairs =>
    rw [hfound] at hset
    refine .of_ok rfl ⟨_, Heap.set_node_self .., ?_⟩
    rw [store, if_pos (by rw [contents_keys]; exact hset.1)]
    exact hset.2
  | none =>
    rw [hfound] at hset
    show Ensures (insertPair v o key val) s _ _
    unfold insertPair
    rcases objRoom_cases s hok.1 with ⟨-, herr⟩ | ⟨-, A', o', hgrown, -, hgrow | ⟨herr, -⟩⟩
    · exact ensures_bind (.of_error herr ⟨⟨.overflow, by simp, rfl⟩, hsame⟩)
    · refine ensures_bind (.of_ok hgrow (ensures_bind (.of_ok rfl ?_)))
      -- from here on the object is the one with more room
      have hgrew : LeftWith v o.contents ⟨s.heap.set v (.object o'), A'⟩ :=
        ⟨o', Heap.set_node_self .., by rw [JsonObj.contents, hgrown.pairs]; rfl⟩
      obtain ⟨A'', -, hbuf⟩ := bufferFor_cases (⟨s.heap.set v (.object o'), A'⟩ : St D)
        (key.length > 0) key.length (by simp)
      rcases hbuf with hcopy | ⟨hcopy, -⟩
      · refine ensures_bind (.of_ok hcopy ?_)
        rw [if_pos rfl, if_pos (by rw [hgrown.pairs]; exact hgrown.room)]
        refine .of_ok rfl ⟨_, Heap.set_node_self .., ?_⟩
        rw [store, if_neg (by rw [contents_keys]; exact hset)]
        simp [JsonObj.contents, hgrown.pairs]
      · refine ensures_bind (.of_ok hcopy ?_)
        exact ensures_throw ⟨⟨.oom, by simp, rfl⟩, hgrew⟩
    · exact ensures_bind (.of_error herr ⟨⟨.oom, by simp, rfl⟩, hsame⟩)

theorem jsonObjFinalize_contents {s : St D} (hrep : s.heap.RepOk) {v : JsonPtr} {o : JsonObj}
    (hv : v < s.heap.next) (hobj : s.heap.node v = .object o) :
    Ensures (jsonObjFinalize v) s (fun _ => LeftWith v o.contents)
      fun e s' => e = .err .oom ∧ LeftWith v o.contents s' := by
  have hok := hrep v hv
  rw [hobj] at hok
  have hcap := hok.1.1
  have hsame : LeftWith v o.contents s := ⟨o, hobj, rfl⟩
  rw [Ensures, jsonObjFinalize_eq hobj]
  rcases jsonObjSort_cases s v o (by omega) with
    ⟨-, hsort⟩ | ⟨-, -, A', ⟨-, herr, -⟩ | ⟨-, idx, -, -, hsort⟩⟩
  · rw [hsort]
    exact hsame
  · rw [herr]
    exact ⟨rfl, hsame⟩
  · rw [hsort]
    exact ⟨_, Heap.set_node_self .., rfl⟩

/-- A lookup returns what the map has for the key. -/
theorem HoldsMap.get {h : Heap D} {v : JsonPtr} {m : KeyMap} (hm : HoldsMap h v m)
    {key : List UInt8} (hlen : key.length ≤ uint32Max) :
    jsonObjGetN h v key = orNotFound (m.get? key) := by
  obtain ⟨hrep, hv, o, hobj, hcontents⟩ := hm
  rw [jsonObjGetN_once hrep hv hobj (occurs_le_one hcontents key) hlen, found_firstPair]
  show orNotFound (valueIn o.contents key) = _
  rw [hcontents, get?]

/-- Iteration returns the entries of the map. -/
theorem HoldsMap.iter {h : Heap D} {v : JsonPtr} {m : KeyMap} (hm : HoldsMap h v m) (idx : ℕ) :
    jsonObjIter h v idx = orNotFound m.entries[idx]? := by
  obtain ⟨-, -, o, hobj, hcontents⟩ := hm
  unfold jsonObjIter
  rw [hobj, ← hcontents, JsonObj.contents, List.getElem?_map]
  by_cases hidx : idx ≥ o.pairs.length
  · simp only [if_pos hidx, List.getElem?_eq_none hidx, Option.map_none]
    rfl
  · have hget := List.getElem?_eq_getElem (not_le.mp hidx)
    have hpair : pairAt o.pairs idx = .ok o.pairs[idx] := by rw [pairAt, hget]
    simp only [if_neg hidx, hget, Option.map_some]
    exact scan_bind_ok hpair

/-! ## Runs -/

variable [CDouble D]

/-- The call on the object `v`. -/
def ObjCall.run (v : JsonPtr) : ObjCall D → M D ObjAnswer
  | .set key val => (fun _ => .done) <$> jsonObjSet v key val
  | .finalize => (fun _ => .done) <$> jsonObjFinalize v
  | .get key => fun s => ofScan (.value <$> jsonObjGetN s.heap v key) s
  | .iter idx => fun s => ofScan ((fun kv => .pair kv.1 kv.2) <$> jsonObjIter s.heap v idx) s
  | .elsewhere c => (fun _ => .done) <$> c.run

/-- The heap after calls on `v`, each with the arena it finds. -/
def heapAfter (v : JsonPtr) : Heap D → List (ObjCall D × Arena) → Heap D
  | h, [] => h
  | h, (c, A) :: calls => heapAfter v (stateAfter (c.run v) ⟨h, A⟩).heap calls

/-- What happens in calls on `v`. -/
def events (v : JsonPtr) : Heap D → List (ObjCall D × Arena) → List (ObjEvent D)
  | _, [] => []
  | h, (c, A) :: calls =>
    ⟨c, resultOf (c.run v) ⟨h, A⟩, contentsAt (stateAfter (c.run v) ⟨h, A⟩).heap v⟩ ::
      events v (stateAfter (c.run v) ⟨h, A⟩).heap calls

/-- The calls are given values that are there when they are made. -/
def CallsFit (v : JsonPtr) : Heap D → List (ObjCall D × Arena) → Prop
  | _, [] => True
  | h, (c, A) :: calls => c.Fits v h.next ∧ CallsFit v (stateAfter (c.run v) ⟨h, A⟩).heap calls

omit [CDouble D] in
/-- How a computation ended that ensures something. -/
theorem ensures_cases {α : Type} {x : M D α} {s : St D} {Q : α → St D → Prop}
    {E : Fail → St D → Prop} (h : Ensures x s Q E) :
    (∃ a, resultOf x s = .ok a ∧ Q a (stateAfter x s)) ∨
      ∃ e, resultOf x s = .error e ∧ E e (stateAfter x s) := by
  unfold Ensures at h
  unfold resultOf stateAfter
  cases hx : x s with
  | ok a s' =>
    rw [hx] at h
    exact .inl ⟨a, rfl, h⟩
  | error e s' =>
    rw [hx] at h
    exact .inr ⟨e, rfl, h⟩

omit [CDouble D] in
theorem map_eq {α β : Type} (f : α → β) (x : M D α) (s : St D) :
    resultOf (f <$> x) s = f <$> resultOf x s ∧ stateAfter (f <$> x) s = stateAfter x s := by
  unfold resultOf stateAfter
  rw [map_eq_pure_bind]
  cases hx : x s with
  | ok a s' =>
    rw [bind_ok hx]
    exact ⟨rfl, rfl⟩
  | error e s' =>
    rw [bind_error hx]
    exact ⟨rfl, rfl⟩

omit [CDouble D] in
theorem ofScan_eq {α : Type} (x : Scan α) (s : St D) :
    resultOf (ofScan x) s = x ∧ stateAfter (ofScan x) s = s := by
  unfold resultOf stateAfter
  cases x with
  | ok a => exact ⟨rfl, rfl⟩
  | error e => exact ⟨rfl, rfl⟩

/-- **One call keeps to the map.** -/
theorem holdsMap_step {h : Heap D} {v : JsonPtr} {m : KeyMap} (hm : HoldsMap h v m) (c : ObjCall D)
    (A : Arena) (hc : c.Fits v h.next) :
    c.Answers m (resultOf (c.run v) ⟨h, A⟩) ∧
      HoldsMap (stateAfter (c.run v) ⟨h, A⟩).heap v (c.after m (resultOf (c.run v) ⟨h, A⟩)) := by
  obtain ⟨hrep, hv, o, hobj, hcontents⟩ := id hm
  have hkept : Kept h.next (⟨h, A⟩ : St D) := ⟨hrep, le_rfl⟩
  have hholds : ∀ {s' : St D} {m' : KeyMap}, Kept h.next s' → LeftWith v m'.entries s' →
      HoldsMap s'.heap v m' := fun hk hl => ⟨hk.1, lt_of_lt_of_le hv hk.2, hl⟩
  cases c with
  | set key val =>
    rw [ObjCall.run, (map_eq ..).1, (map_eq ..).2]
    have hk := (keeps_jsonObjSet hkept key hv hc).stateAfter
    rcases ensures_cases (jsonObjSet_contents (s := ⟨h, A⟩) hrep hv hobj
        (by rw [hcontents]; exact m.nodup) key) with ⟨a, hres, hleft⟩ |
          ⟨e, hres, ⟨err, herr, rfl⟩, hleft⟩
    · rw [hres]
      rw [hcontents] at hleft
      exact ⟨.inl rfl, hholds hk hleft⟩
    · rw [hres]
      rw [hcontents] at hleft
      exact ⟨.inr ⟨err, herr, rfl⟩, hholds hk hleft⟩
  | finalize =>
    rw [ObjCall.run, (map_eq ..).1, (map_eq ..).2]
    have hk := (keeps_jsonObjFinalize hkept hv).stateAfter
    rcases ensures_cases (jsonObjFinalize_contents (s := ⟨h, A⟩) hrep hv hobj)
      with ⟨a, hres, hleft⟩ | ⟨e, hres, rfl, hleft⟩
    · rw [hres]
      rw [hcontents] at hleft
      exact ⟨.inl rfl, hholds hk hleft⟩
    · rw [hres]
      rw [hcontents] at hleft
      exact ⟨.inr rfl, hholds hk hleft⟩
  | get key =>
    have heq := ofScan_eq (ObjAnswer.value <$> jsonObjGetN h v key) (⟨h, A⟩ : St D)
    have hres : resultOf ((ObjCall.get key).run v) ⟨h, A⟩ = .value <$> jsonObjGetN h v key := heq.1
    have hheap : stateAfter ((ObjCall.get key).run v) ⟨h, A⟩ = ⟨h, A⟩ := heq.2
    rw [hres, hheap]
    refine ⟨?_, hm⟩
    show _ = if key.length ≤ uint32Max then _ else _
    by_cases hlen : key.length ≤ uint32Max
    · rw [if_pos hlen, hm.get hlen]
    · rw [if_neg hlen, jsonObjGetN, if_pos (not_le.mp hlen)]
      rfl
  | iter idx =>
    have heq := ofScan_eq ((fun kv => ObjAnswer.pair kv.1 kv.2) <$> jsonObjIter h v idx)
      (⟨h, A⟩ : St D)
    have hres : resultOf ((ObjCall.iter idx).run v) ⟨h, A⟩
        = (fun kv => .pair kv.1 kv.2) <$> jsonObjIter h v idx := heq.1
    have hheap : stateAfter ((ObjCall.iter idx).run v) ⟨h, A⟩ = ⟨h, A⟩ := heq.2
    rw [hres, hheap, hm.iter]
    exact ⟨rfl, hm⟩
  | elsewhere c =>
    rw [ObjCall.run, (map_eq ..).2]
    have hk := (keeps_apiCall (s := ⟨h, A⟩) hrep c hc.1).stateAfter
    have hg := apiCall_grows c ⟨h, A⟩
    exact ⟨trivial, hholds hk ⟨o, (hg.node v hv (Ne.symm hc.2)).trans hobj, hcontents⟩⟩

omit [CDouble D] in
theorem HoldsMap.contentsAt {h : Heap D} {v : JsonPtr} {m : KeyMap} (hm : HoldsMap h v m) :
    contentsAt h v = m.entries := by
  obtain ⟨-, -, o, hobj, hcontents⟩ := hm
  rw [SJson.contentsAt, hobj]
  exact hcontents

omit [CDouble D] in
/-- The map after a call is the one with the stored value, if the call has stored one. -/
theorem after_eq (m : KeyMap) (e : ObjEvent D) :
    e.call.after m e.result = m.insertAll e.stored.toList := by
  obtain ⟨c, r, contents⟩ := e
  unfold ObjEvent.stored ObjCall.after
  cases c <;> cases r <;> rfl

/-- **A run of calls keeps to the map**, and ends with the map of the values stored. -/
theorem holdsMap_run {v : JsonPtr} : ∀ {calls : List (ObjCall D × Arena)} {h : Heap D} {m : KeyMap},
    HoldsMap h v m → CallsFit v h calls →
      Follows m (events v h calls) ∧
        HoldsMap (heapAfter v h calls) v (m.insertAll
          ((events v h calls).filterMap ObjEvent.stored)) := by
  intro calls
  induction calls with
  | nil => exact fun hm _ => ⟨trivial, hm⟩
  | cons call calls ih =>
    obtain ⟨c, A⟩ := call
    intro h m hm ⟨hc, hcalls⟩
    obtain ⟨hanswers, hstep⟩ := holdsMap_step hm c A hc
    obtain ⟨hfollows, hrun⟩ := ih hstep hcalls
    refine ⟨⟨hanswers, hstep.contentsAt, hfollows⟩, ?_⟩
    rw [events, heapAfter, List.filterMap_cons]
    have hafter := after_eq m (⟨c, resultOf (c.run v) ⟨h, A⟩,
      contentsAt (stateAfter (c.run v) ⟨h, A⟩).heap v⟩ : ObjEvent D)
    simp only at hafter
    rw [hafter] at hrun
    cases hs : ObjEvent.stored (⟨c, resultOf (c.run v) ⟨h, A⟩,
      contentsAt (stateAfter (c.run v) ⟨h, A⟩).heap v⟩ : ObjEvent D) with
    | none =>
      rw [hs] at hrun
      exact hrun
    | some kv =>
      rw [hs] at hrun
      exact hrun

omit [CDouble D] in
theorem Follows.nodup : ∀ {es : List (ObjEvent D)} {m : KeyMap}, Follows m es →
    ∀ e ∈ es, (e.contents.map Prod.fst).Nodup := by
  intro es
  induction es with
  | nil => simp
  | cons e es ih =>
    intro m ⟨_, hcontents, hrest⟩ e' he'
    rcases List.mem_cons.mp he' with rfl | he'
    · rw [hcontents]
      exact (ObjCall.after ..).nodup
    · exact ih hrest e' he'

omit [CDouble D] in
/-- `json_make_object` makes the empty map. -/
theorem holdsMap_make {h : Heap D} (hrep : h.RepOk) {A : Arena} {v : JsonPtr} {s : St D}
    (hmake : jsonMakeObject ⟨h, A⟩ = .ok (some v) s) : HoldsMap s.heap v .empty := by
  have hkeeps := keeps_makeNode (s := ⟨h, A⟩) ⟨hrep, le_refl h.next⟩ JsonNode.ok_emptyObject
  obtain ⟨hkept, hlt⟩ := hkeeps.ok hmake
  refine ⟨hkept.1, hlt v rfl, .empty, ?_, rfl⟩
  unfold jsonMakeObject at hmake
  rcases makeNode_cases (.object .empty) h A with ⟨A', heq⟩ | ⟨-, A', heq⟩
  · rw [heq] at hmake
    cases hmake
    exact Heap.set_node_self ..
  · rw [heq] at hmake
    cases hmake

/-- **An object is an ordered finite map under any run of calls.**  Starting from
`json_make_object`, with any arena for each call and any other calls meanwhile: every event
is one of the map that starts out empty, in which a successful set stores its value in the
place of the key or at the end and nothing else changes anything; no key occurs twice; and a
lookup returns the value of the last successful set of the key, or `JSON_ERR_NOT_FOUND`. -/
theorem jsonObj_map (h : Heap D) (hh : ApiHeap h) (A : Arena) (v : JsonPtr) (s : St D)
    (hmake : jsonMakeObject ⟨h, A⟩ = .ok (some v) s) (calls : List (ObjCall D × Arena))
    (hfit : CallsFit v s.heap calls) :
    Follows .empty (events v s.heap calls) ∧
      (∀ e ∈ events v s.heap calls, (e.contents.map Prod.fst).Nodup) ∧
      ∀ key : List UInt8, key.length ≤ uint32Max →
        jsonObjGetN (heapAfter v s.heap calls) v key
          = orNotFound (lastStored ((events v s.heap calls).filterMap ObjEvent.stored) key) := by
  obtain ⟨hfollows, hrun⟩ := holdsMap_run (holdsMap_make hh.repOk hmake) hfit
  refine ⟨hfollows, hfollows.nodup, fun key hlen => ?_⟩
  rw [hrun.get hlen, get?_insertAll, get?_empty, Option.or_none]

/-- A run on an object that holds itself: a set, a finalizing call and a lookup. -/
theorem jsonObj_map_self :
    ∃ (_ : CDouble Unit) (A : Arena) (v : JsonPtr) (s : St Unit),
      jsonMakeObject ⟨.empty, A⟩ = .ok (some v) s ∧
      Follows .empty (events v s.heap [(.set [0x61] v, A), (.finalize, A), (.get [0x61], A)]) := by
  obtain ⟨A, hA⟩ := Arena.exists_fresh
  let _ : CDouble Unit := .unit
  obtain ⟨s, hmake, hnext⟩ : ∃ s : St Unit,
      jsonMakeObject ⟨.empty, A⟩ = .ok (some 0) s ∧ 0 < s.heap.next := by
    rcases makeNode_cases (.object .empty) (.empty : Heap Unit) A with ⟨A', heq⟩ | ⟨hno, -⟩
    · exact ⟨_, heq, Nat.zero_lt_one⟩
    · exact absurd hA hno
  exact ⟨_, A, 0, s, hmake,
    (jsonObj_map .empty .empty A 0 s hmake [(.set [0x61] 0, A), (.finalize, A), (.get [0x61], A)]
      ⟨hnext, trivial, trivial, trivial⟩).1⟩

end SJson
