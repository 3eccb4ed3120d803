/-
# Arrays as growing lists

An array of any heap that clients can bring about is a list that only grows at its end, with
any other calls in between and any call running out of memory: a push that succeeds appends
its item, a push that fails changes nothing, and reading returns what the list has there
(`jsonArr_list`).  The storage doubles, so that growing copies at most two slots for each
item (`ArrInv`), `src/sJson.c` lines 1402-1428, 1873-1897 and 2509-2524.
-/
import SJson.ObjectMap
import SJson.Path

namespace SJson

open ErrState

variable {D : Type}

/-! ## Calls on one array -/

/-- `json_get_arr_len`. -/
def jsonGetArrLen (h : Heap D) (v : JsonPtr) : Scan ℕ :=
  match h.node v with
  | .array a => .ok a.items.length
  | _ => .error (.err .typeMismatch)

/-- A call on an array, or one that makes or changes other values meanwhile. -/
inductive ArrCall (D : Type) where
  | push (item : JsonPtr)
  | get (idx : ℕ)
  | len
  | elsewhere (c : ApiCall D)

/-- What a call on an array returns besides `JSON_OK`. -/
inductive ArrAnswer where
  | done
  | value (item : JsonPtr)
  | len (n : ℕ)

/-- The array at `v`, empty where there is none. -/
def arrAt (h : Heap D) (v : JsonPtr) : JsonArr :=
  match h.node v with
  | .array a => a
  | _ => .empty

/-- A call that was made, what it returned, and the array before and after it. -/
structure ArrEvent (D : Type) where
  call : ArrCall D
  result : Except Fail ArrAnswer
  before : JsonArr
  after : JsonArr

/-- The item of a push that succeeded. -/
def ArrEvent.pushed (e : ArrEvent D) : Option JsonPtr :=
  match e.call, e.result with
  | .push item, .ok _ => some item
  | _, _ => none

/-- The slots that `json__arr_grow` has copied: all items, where the storage is new. -/
def ArrEvent.copied (e : ArrEvent D) : ℕ :=
  if e.after.cap = e.before.cap then 0 else e.before.items.length

namespace ArrCall

/-- The values that a call is given are nodes, and calls elsewhere do not change `v`. -/
def Fits (v next : JsonPtr) : ArrCall D → Prop
  | .push item => item < next
  | .elsewhere c => (∀ p ∈ c.args, p < next) ∧ c.target ≠ some v
  | _ => True

/-- What the list is after a call: only a push that succeeded has changed it. -/
def after (l : List JsonPtr) : ArrCall D → Except Fail ArrAnswer → List JsonPtr
  | .push item, .ok _ => l ++ [item]
  | _, _ => l

/-- The result is one that the list admits.  A push fails at the length limit, and else only
where memory runs out. -/
def Answers (l : List JsonPtr) : ArrCall D → Except Fail ArrAnswer → Prop
  | .push _, r =>
    if l.length = jsonMaxArrayLen then r = .error (.err .overflow)
    else r = .ok .done ∨ r = .error (.err .oom)
  | .get idx, r => r = .value <$> orNotFound l[idx]?
  | .len, r => r = .ok (.len l.length)
  | .elsewhere _, _ => True

/-- The call on the array `v`. -/
def run [CDouble D] (v : JsonPtr) : ArrCall D → M D ArrAnswer
  | .push item => (fun _ => .done) <$> jsonArrPush v item
  | .get idx => fun s => ofScan (.value <$> jsonArrGet s.heap v idx) s
  | .len => fun s => ofScan (.len <$> jsonGetArrLen s.heap v) s
  | .elsewhere c => (fun _ => .done) <$> c.run

end ArrCall

/-- The events are those of a list that starts as `l`. -/
def FollowsList : List JsonPtr → List (ArrEvent D) → Prop
  | _, [] => True
  | l, e :: es =>
    e.call.Answers l e.result ∧ e.before.items = l ∧ e.after.items = e.call.after l e.result ∧
      FollowsList (e.call.after l e.result) es

/-- The array at `v` holds the list, and all nodes are in order. -/
def HoldsList (h : Heap D) (v : JsonPtr) (l : List JsonPtr) : Prop :=
  h.RepOk ∧ v < h.next ∧ ∃ a, h.node v = .array a ∧ a.items = l

/-- **The potential of an array.**  Of the slots copied so far, the storage pays for one each
as long as it has doubled every time. -/
def ArrInv (a : JsonArr) (copied : ℕ) : Prop :=
  copied ≤ 2 * a.items.length ∧ (copied ≤ a.cap ∨ a.cap = jsonMaxArrayLen)

theorem HoldsList.arrAt {h : Heap D} {v : JsonPtr} {l : List JsonPtr} (hl : HoldsList h v l) :
    h.node v = .array (arrAt h v) ∧ (arrAt h v).items = l ∧ (arrAt h v).Ok := by
  obtain ⟨hrep, hv, a, ha, hitems⟩ := hl
  have hok := hrep v hv
  rw [ha] at hok
  have hat : SJson.arrAt h v = a := by rw [SJson.arrAt, ha]
  rw [hat]
  exact ⟨ha, hitems, hok.1⟩

/-! ## One call -/

/-- Storage that grows doubles, up to the limit. -/
theorem nextCap_double {elem cap c : ℕ} (h : nextCap elem cap = some c)
    (hcap : cap < jsonMaxArrayLen) : 2 * cap ≤ c ∨ c = jsonMaxArrayLen := by
  unfold nextCap at h
  set c0 := if cap = 0 then 8 else cap * 2 % 2 ^ 32 with hc0
  set c1 := if c0 > jsonMaxArrayLen then jsonMaxArrayLen else c0 with hc1
  have h0 : 2 * cap ≤ c0 := by
    unfold jsonMaxArrayLen at hcap
    split_ifs at hc0 <;> omega
  have h1 : c = c1 := by
    by_contra hne
    have : (if c0 < cap then none else if cap ≥ jsonMaxArrayLen then none else
      if c1 * elem % 2 ^ 64 / elem ≠ c1 then none else some c1) = some c := h
    rw [if_neg (by omega), if_neg (by omega)] at this
    split_ifs at this
    exact hne (Option.some.inj this).symm
  rw [h1]
  split_ifs at hc1 <;> omega

/-- The storage is the old one, or was full and has doubled up to the limit. -/
def JsonArr.Grew (a : JsonArr) (c : ℕ) : Prop :=
  c = a.cap ∨ a.items.length = a.cap ∧ a.cap < jsonMaxArrayLen ∧
    (2 * a.cap ≤ c ∨ c = jsonMaxArrayLen)

/-- Why a push fails. -/
def PushFails (a : JsonArr) (e : Fail) : Prop :=
  (e = .err .overflow ∧ a.items.length = jsonMaxArrayLen) ∨
    (e = .err .oom ∧ a.items.length ≠ jsonMaxArrayLen)

/-- Making room for one more item keeps the items, and fails only at the limit or for want of
memory. -/
theorem arrRoom_grew (s : St D) {a : JsonArr} (ha : a.Ok) :
    Ensures (arrRoom a) s
      (fun a' s' => s'.heap = s.heap ∧ a.items.length ≠ jsonMaxArrayLen ∧ a'.items = a.items ∧
        a.items.length < a'.cap ∧ a.Grew a'.cap)
      fun e s' => s'.heap = s.heap ∧ PushFails a e := by
  obtain ⟨hlen, hmax⟩ := ha
  unfold arrRoom
  apply ensures_ite
  · intro hfull
    unfold jsonArrGrow growCap
    rcases Nat.lt_or_ge a.cap jsonMaxArrayLen with hlt | hge
    · obtain ⟨c, hc, hgt, -⟩ := nextCap_of_lt (by decide : 0 < sizeofPtr) (by decide) hlt
      have hne : a.items.length ≠ jsonMaxArrayLen := by omega
      have hdouble := nextCap_double hc hlt
      rw [hc]
      apply ensures_bind
      apply ensures_bind
      refine .of_ok rfl ?_
      apply ensures_ite
      · intro _
        apply ensures_pure
        apply ensures_pure
        refine ⟨rfl, hne, rfl, ?_, .inr ⟨?_, hlt, hdouble⟩⟩
        · show a.items.length < c
          omega
        · omega
      · intro _
        apply ensures_throw
        exact ⟨rfl, .inr ⟨rfl, hne⟩⟩
    · rw [nextCap_full hge]
      apply ensures_bind
      apply ensures_throw
      exact ⟨rfl, .inl ⟨rfl, by omega⟩⟩
  · intro hroom
    apply ensures_pure
    refine ⟨rfl, ?_, rfl, not_le.mp hroom, .inl rfl⟩
    omega

/-- A push that succeeds appends its item, and one that fails changes nothing. -/
theorem jsonArrPush_appends {s : St D} {v item : JsonPtr} {a : JsonArr}
    (harr : s.heap.node v = .array a) (ha : a.Ok) :
    Ensures (jsonArrPush v item) s
      (fun _ s' => a.items.length ≠ jsonMaxArrayLen ∧
        ∃ c, a.Grew c ∧ s'.heap.node v = .array ⟨a.items ++ [item], c⟩)
      fun e s' => PushFails a e ∧ s'.heap.node v = .array a := by
  have hread : readNode v s = .ok (.array a) s := by rw [readNode, harr]
  unfold jsonArrPush
  refine ensures_bind (.of_ok hread ?_)
  show Ensures (arrStore v item) s _ _
  unfold arrStore
  refine ensures_bind (.of_ok hread ?_)
  apply ensures_bind
  refine (arrRoom_grew s ha).mono ?_ ?_
  · rintro a' s' ⟨hheap, hne, hitems, hcap, hgrew⟩
    apply ensures_ite
    · intro _
      refine .of_ok rfl ⟨hne, a'.cap, hgrew, ?_⟩
      rw [← hitems]
      exact Heap.set_node_self ..
    · intro hfull
      rw [hitems] at hfull
      exact absurd hcap hfull
  · rintro e s' ⟨hheap, hfails⟩
    rw [hheap]
    exact ⟨hfails, harr⟩

/-- An array that is left with these items keeps to its potential. -/
theorem ArrInv.grew {a : JsonArr} {copied c : ℕ} (h : ArrInv a copied) (hc : a.Grew c)
    (item : JsonPtr) :
    ArrInv ⟨a.items ++ [item], c⟩ (copied + if c = a.cap then 0 else a.items.length) := by
  obtain ⟨htwice, hcap⟩ := h
  have hlen : (a.items ++ [item]).length = a.items.length + 1 := by simp
  unfold ArrInv
  rw [hlen]
  rcases hc with rfl | ⟨hfull, hlt, hdouble⟩
  · rw [if_pos rfl]
    constructor
    · omega
    · exact hcap
  · split_ifs with hsame
    · constructor
      · omega
      · show _ ≤ c ∨ c = _
        rwa [hsame, Nat.add_zero]
    · have hpaid : copied ≤ a.cap := by
        rcases hcap with hle | hmax
        · exact hle
        · omega
      constructor
      · omega
      · show _ ≤ c ∨ c = _
        omega

/-! ## Runs -/

variable [CDouble D]

/-- The event of a call. -/
def ArrCall.event (v : JsonPtr) (c : ArrCall D) (s : St D) : ArrEvent D :=
  ⟨c, resultOf (c.run v) s, arrAt s.heap v, arrAt (stateAfter (c.run v) s).heap v⟩

/-- The heap after calls on `v`, each with the arena it finds. -/
def arrHeapAfter (v : JsonPtr) : Heap D → List (ArrCall D × Arena) → Heap D
  | h, [] => h
  | h, (c, A) :: calls => arrHeapAfter v (stateAfter (c.run v) ⟨h, A⟩).heap calls

/-- What happens in calls on `v`. -/
def arrEvents (v : JsonPtr) : Heap D → List (ArrCall D × Arena) → List (ArrEvent D)
  | _, [] => []
  | h, (c, A) :: calls =>
    c.event v ⟨h, A⟩ :: arrEvents v (stateAfter (c.run v) ⟨h, A⟩).heap calls

/-- The calls are given values that are there when they are made. -/
def ArrCallsFit (v : JsonPtr) : Heap D → List (ArrCall D × Arena) → Prop
  | _, [] => True
  | h, (c, A) :: calls =>
    c.Fits v h.next ∧ ArrCallsFit v (stateAfter (c.run v) ⟨h, A⟩).heap calls

/-- The slots copied in a run. -/
def slotsCopied (es : List (ArrEvent D)) : ℕ := (es.map ArrEvent.copied).sum

omit [CDouble D] in
theorem arrAt_eq {h : Heap D} {v : JsonPtr} {a : JsonArr} (ha : h.node v = .array a) :
    arrAt h v = a := by
  rw [arrAt, ha]

/-- A call that leaves the array as it is. -/
theorem holdsList_same {h : Heap D} {v : JsonPtr} {l : List JsonPtr} (hl : HoldsList h v l)
    {c : ArrCall D} {A : Arena} (hk : Kept h.next (stateAfter (c.run v) ⟨h, A⟩))
    (hnode : (stateAfter (c.run v) ⟨h, A⟩).heap.node v = h.node v) :
    HoldsList (stateAfter (c.run v) ⟨h, A⟩).heap v l ∧
      ∀ copied, ArrInv (arrAt h v) copied →
        ArrInv (arrAt (stateAfter (c.run v) ⟨h, A⟩).heap v)
          (copied + (c.event v ⟨h, A⟩).copied) := by
  obtain ⟨harr, hitems, -⟩ := hl.arrAt
  have hleft := hnode.trans harr
  constructor
  · exact ⟨hk.1, lt_of_lt_of_le hl.2.1 hk.2, _, hleft, hitems⟩
  · intro copied hinv
    have hsame := arrAt_eq hleft
    have hnone : (c.event v ⟨h, A⟩).copied = 0 := by
      unfold ArrEvent.copied ArrCall.event
      rw [hsame, if_pos rfl]
    rw [hsame, hnone]
    exact hinv

/-- **One call keeps to the list**, and to the potential of the array. -/
theorem holdsList_step {h : Heap D} {v : JsonPtr} {l : List JsonPtr} (hl : HoldsList h v l)
    (c : ArrCall D) (A : Arena) (hc : c.Fits v h.next) :
    c.Answers l (resultOf (c.run v) ⟨h, A⟩) ∧
      HoldsList (stateAfter (c.run v) ⟨h, A⟩).heap v
        (c.after l (resultOf (c.run v) ⟨h, A⟩)) ∧
      ∀ copied, ArrInv (arrAt h v) copied →
        ArrInv (arrAt (stateAfter (c.run v) ⟨h, A⟩).heap v)
          (copied + (c.event v ⟨h, A⟩).copied) := by
  obtain ⟨harr, hitems, hok⟩ := hl.arrAt
  have hkept : Kept h.next (⟨h, A⟩ : St D) := ⟨hl.1, le_rfl⟩
  cases c with
  | push item =>
    have hafter : stateAfter ((ArrCall.push item).run v) ⟨h, A⟩
        = stateAfter (jsonArrPush v item) ⟨h, A⟩ := (map_eq ..).2
    have hres : resultOf ((ArrCall.push item).run v) ⟨h, A⟩
        = (fun _ => ArrAnswer.done) <$> resultOf (jsonArrPush v item) ⟨h, A⟩ := (map_eq ..).1
    have hk : Kept h.next (stateAfter ((ArrCall.push item).run v) ⟨h, A⟩) := by
      rw [hafter]
      exact (keeps_jsonArrPush hkept hl.2.1 hc).stateAfter
    rcases ensures_cases (@jsonArrPush_appends D ⟨h, A⟩ v item _ harr hok) with
      ⟨_, hret, hne, cap, hgrew, hnode⟩ | ⟨e, hret, hfails, hnode⟩
    · rw [hres, hret]
      rw [← hafter] at hnode
      have hat := arrAt_eq hnode
      refine ⟨?_, ?_, ?_⟩
      · show if l.length = _ then _ else _
        rw [← hitems, if_neg hne]
        exact .inl rfl
      · refine ⟨hk.1, lt_of_lt_of_le hl.2.1 hk.2, _, hnode, ?_⟩
        rw [← hitems]
        rfl
      · intro copied hinv
        have hcopied : ((ArrCall.push item).event v ⟨h, A⟩).copied
            = if cap = (arrAt h v).cap then 0 else (arrAt h v).items.length := by
          unfold ArrEvent.copied ArrCall.event
          rw [hat]
        rw [hat, hcopied]
        exact hinv.grew hgrew item
    · rw [← hafter] at hnode
      have hsame := holdsList_same hl hk (hnode.trans harr.symm)
      rw [hres, hret]
      refine ⟨?_, hsame⟩
      show if l.length = _ then _ else _
      rw [← hitems]
      rcases hfails with ⟨rfl, hmax⟩ | ⟨rfl, hne⟩
      · rw [if_pos hmax]
        rfl
      · rw [if_neg hne]
        exact .inr rfl
  | get idx =>
    have heq := ofScan_eq (ArrAnswer.value <$> jsonArrGet h v idx) (⟨h, A⟩ : St D)
    have hres : resultOf ((ArrCall.get idx).run v) ⟨h, A⟩ = .value <$> jsonArrGet h v idx := heq.1
    have hheap : stateAfter ((ArrCall.get idx).run v) ⟨h, A⟩ = ⟨h, A⟩ := heq.2
    refine ⟨?_, holdsList_same hl (by rw [hheap]; exact hkept) (by rw [hheap])⟩
    rw [hres]
    show _ = ArrAnswer.value <$> orNotFound l[idx]?
    unfold jsonArrGet
    rw [harr, ← hitems]
    cases hget : (arrAt h v).items[idx]? <;> simp only [hget] <;> rfl
  | len =>
    have heq := ofScan_eq (ArrAnswer.len <$> jsonGetArrLen h v) (⟨h, A⟩ : St D)
    have hres : resultOf (ArrCall.len.run v) ⟨h, A⟩ = .len <$> jsonGetArrLen h v := heq.1
    have hheap : stateAfter (ArrCall.len.run v) ⟨h, A⟩ = ⟨h, A⟩ := heq.2
    refine ⟨?_, holdsList_same hl (by rw [hheap]; exact hkept) (by rw [hheap])⟩
    rw [hres]
    unfold jsonGetArrLen
    rw [harr]
    show _ = Except.ok (ArrAnswer.len l.length)
    rw [← hitems]
    rfl
  | elsewhere c =>
    have hafter : stateAfter ((ArrCall.elsewhere c).run v) ⟨h, A⟩ = stateAfter c.run ⟨h, A⟩ :=
      (map_eq ..).2
    have hk := (keeps_apiCall (s := ⟨h, A⟩) hl.1 c hc.1).stateAfter
    have hg := apiCall_grows c ⟨h, A⟩
    refine ⟨trivial, holdsList_same hl (by rw [hafter]; exact hk) ?_⟩
    rw [hafter]
    exact hg.node v hl.2.1 (Ne.symm hc.2)

/-- The list after a call is the one with the pushed item, if the call has pushed one. -/
theorem arrAfter_eq (l : List JsonPtr) (v : JsonPtr) (c : ArrCall D) (s : St D) :
    c.after l (resultOf (c.run v) s) = l ++ (c.event v s).pushed.toList := by
  unfold ArrEvent.pushed ArrCall.after ArrCall.event
  cases c <;> cases resultOf (ArrCall.run v _) s <;> simp

/-- **A run of calls keeps to the list**, and ends with the items pushed behind those that
were there. -/
theorem holdsList_run {v : JsonPtr} : ∀ {calls : List (ArrCall D × Arena)} {h : Heap D}
    {l : List JsonPtr}, HoldsList h v l → ArrCallsFit v h calls →
      FollowsList l (arrEvents v h calls) ∧
        HoldsList (arrHeapAfter v h calls) v
          (l ++ (arrEvents v h calls).filterMap ArrEvent.pushed) ∧
        ∀ copied, ArrInv (arrAt h v) copied →
          ArrInv (arrAt (arrHeapAfter v h calls) v)
            (copied + slotsCopied (arrEvents v h calls)) := by
  intro calls
  induction calls with
  | nil =>
    intro h l hl _
    refine ⟨trivial, ?_, fun _ hinv => hinv⟩
    simpa [arrEvents, arrHeapAfter] using hl
  | cons call calls ih =>
    obtain ⟨c, A⟩ := call
    intro h l hl hfit
    obtain ⟨hc, hcalls⟩ := hfit
    obtain ⟨hanswers, hstep, hinv⟩ := holdsList_step hl c A hc
    obtain ⟨hfollows, hrun, hinvs⟩ := ih hstep hcalls
    refine ⟨⟨hanswers, hl.arrAt.2.1, hstep.arrAt.2.1, hfollows⟩, ?_, ?_⟩
    · rw [arrAfter_eq, List.append_assoc] at hrun
      rw [arrEvents, arrHeapAfter, List.filterMap_cons]
      cases hp : (c.event v ⟨h, A⟩).pushed with
      | none => simpa [hp] using hrun
      | some item => simpa [hp] using hrun
    · intro copied hold
      have hsum := hinvs _ (hinv copied hold)
      rw [arrEvents, arrHeapAfter, slotsCopied, List.map_cons, List.sum_cons, ← Nat.add_assoc]
      exact hsum

/-- **An array is a list that grows at its end under any run of calls.**  Starting from any
array that clients can bring about, with any arena for each call and any other calls
meanwhile: every event is one of that list, in which a successful push appends its item and
nothing else changes anything; reading returns what the list has, or `JSON_ERR_NOT_FOUND`
behind its end; and growing has copied at most two slots for each item. -/
theorem jsonArr_list (h : Heap D) (hh : ApiHeap h) (v : JsonPtr) (hv : v < h.next) (a : JsonArr)
    (ha : h.node v = .array a) (calls : List (ArrCall D × Arena)) (hfit : ArrCallsFit v h calls) :
    FollowsList a.items (arrEvents v h calls) ∧
      (∀ idx : ℕ, jsonArrGet (arrHeapAfter v h calls) v idx
        = orNotFound (a.items ++ (arrEvents v h calls).filterMap ArrEvent.pushed)[idx]?) ∧
      slotsCopied (arrEvents v h calls)
        ≤ 2 * (a.items ++ (arrEvents v h calls).filterMap ArrEvent.pushed).length := by
  obtain ⟨hfollows, hrun, hinv⟩ := holdsList_run ⟨hh.repOk, hv, a, ha, rfl⟩ hfit
  obtain ⟨harr, hitems, -⟩ := hrun.arrAt
  refine ⟨hfollows, ?_, ?_⟩
  · intro idx
    unfold jsonArrGet
    rw [harr, ← hitems]
    cases hget : (arrAt (arrHeapAfter v h calls) v).items[idx]? <;> simp only [hget] <;> rfl
  · have hstart : ArrInv (arrAt h v) 0 := ⟨Nat.zero_le _, .inl (Nat.zero_le _)⟩
    have hend := (hinv 0 hstart).1
    rw [Nat.zero_add, hitems] at hend
    exact hend

/-- A run on an array that holds itself: a push, a read and the length. -/
theorem jsonArr_list_self :
    ∃ (_ : CDouble Unit) (A : Arena) (s : St Unit),
      jsonMakeArray ⟨.empty, A⟩ = .ok (some 0) s ∧
      FollowsList [] (arrEvents 0 s.heap [(.push 0, A), (.get 0, A), (.len, A)]) := by
  obtain ⟨A, hA⟩ := Arena.exists_fresh
  let _ : CDouble Unit := .unit
  rcases makeNode_cases (.array .empty) (.empty : Heap Unit) A with ⟨A', heq⟩ | ⟨hno, -⟩
  · have hcall := ApiHeap.call (ApiCall.makeArray (D := Unit)) A .empty (by simp [ApiCall.args])
    have hafter : stateAfter (ApiCall.makeArray (D := Unit)).run ⟨.empty, A⟩ = _ :=
      stateAfter_ok heq
    rw [hafter] at hcall
    have hlist := jsonArr_list _ hcall 0 Nat.zero_lt_one .empty (Heap.set_node_self ..)
      [(.push 0, A), (.get 0, A), (.len, A)] ⟨Nat.zero_lt_one, trivial, trivial, trivial⟩
    exact ⟨_, A, _, heq, hlist.1⟩
  · exact absurd hA hno

end SJson
