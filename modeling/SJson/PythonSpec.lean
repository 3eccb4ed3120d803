/-
# What the Python layer returns

A document is converted to the Python value of its tree (`Json.python`), if the interpreter has
as many frames as the tree has levels (`convert_eq`), and serialized to its rendering
(`documentSerialize_eq`).  Decoding never fails: what the library accepts and what it writes is
UTF-8 in the sense of Lean's strings (`isUtf8_iff`).
-/
import SJson.Python
import SJson.Stability
import SJson.StringText

namespace SJson

open ListRel Loops OrderedMap Python

/-! ## Strings -/

theorem isUtf8_iff {b : List UInt8} : IsUtf8 b ↔ ∃ m, b = utf8Bytes m := by
  constructor
  · rintro ⟨cps, hcps, rfl⟩
    refine ⟨cps.map Char.ofNat, ?_⟩
    rw [utf8Bytes, List.flatMap_map]
    apply List.flatMap_congr
    intro cp hcp
    obtain ⟨c, rfl⟩ := (hcps cp hcp).exists_char
    rw [jsonEncodeUtf8_char, Char.ofNat_toNat]
  · rintro ⟨m, rfl⟩
    refine ⟨m.map Char.toNat, ?_, ?_⟩
    · intro cp hcp
      obtain ⟨c, -, rfl⟩ := List.mem_map.mp hcp
      exact isScalar_toNat c
    · rw [utf8Bytes, List.flatMap_map]
      exact List.flatMap_congr fun c _ => (jsonEncodeUtf8_char c).symm

theorem encodeUtf8_decode {b : List UInt8} {s : String} :
    decodeUtf8 b = some s ↔ encodeUtf8 s = b := by
  unfold decodeUtf8 encodeUtf8 String.fromUTF8?
  constructor
  · intro h
    split at h
    · obtain rfl := Option.some.inj h
      rfl
    · cases h
  · rintro rfl
    have hvalid : (⟨⟨s.toUTF8.data.toList⟩⟩ : ByteArray).IsValidUTF8 := s.isValidUTF8
    rw [dif_pos hvalid]
    rfl

theorem exists_decode {b : List UInt8} (h : IsUtf8 b) : ∃ s, decodeUtf8 b = some s := by
  obtain ⟨m, rfl⟩ := isUtf8_iff.mp h
  refine ⟨String.ofList m, encodeUtf8_decode.mpr ?_⟩
  show (String.ofList m).toByteArray.data.toList = _
  simp [utf8Bytes, List.utf8Encode]

/-- The string of a text. -/
def textOf (b : List UInt8) : String := (decodeUtf8 b).getD ""

theorem decode_eq {b : List UInt8} (h : IsUtf8 b) : decode b = .ok (textOf b) := by
  obtain ⟨s, hs⟩ := exists_decode h
  rw [decode, textOf, hs]
  rfl

theorem encodeUtf8_textOf {b : List UInt8} (h : IsUtf8 b) : encodeUtf8 (textOf b) = b := by
  obtain ⟨s, hs⟩ := exists_decode h
  rw [textOf, hs]
  exact encodeUtf8_decode.mp hs

/-- Different texts are different strings. -/
theorem textOf_inj {a b : List UInt8} (ha : IsUtf8 a) (hb : IsUtf8 b) (h : textOf a = textOf b) :
    a = b := by
  rw [← encodeUtf8_textOf ha, h, encodeUtf8_textOf hb]

/-! ## Trees as Python values -/

namespace Json

mutual

/-- The Python value of a tree. -/
def python : Json Double → PyValue
  | .null => .none
  | .bool b => .bool b
  | .int i => .int i.toInt
  | .float f => .float f
  | .str s => .str (textOf s)
  | .arr items => .list (pythonArr items)
  | .obj pairs => .dict (pythonObj pairs [])
termination_by structural j => j

/-- The Python values of a list of trees. -/
def pythonArr : List (Json Double) → List PyValue
  | [] => []
  | j :: items => python j :: pythonArr items
termination_by structural items => items

/-- The entries of a `dict` that pairs are stored in, one after the other. -/
def pythonObj : List (List UInt8 × Json Double) → List (String × PyValue) → List (String × PyValue)
  | [], entries => entries
  | (key, j) :: pairs, entries => pythonObj pairs (store (textOf key) (python j) entries)
termination_by structural pairs => pairs

end

theorem pythonArr_eq (items : List (Json Double)) : pythonArr items = items.map python := by
  induction items with
  | nil => rfl
  | cons j items ih => rw [pythonArr, ih, List.map_cons]

theorem pythonObj_eq (pairs : List (List UInt8 × Json Double)) (entries : List (String × PyValue)) :
    pythonObj pairs entries =
      pairs.foldl (fun entries kv => store (textOf kv.1) kv.2.python entries) entries := by
  induction pairs generalizing entries with
  | nil => rfl
  | cons kv pairs ih => rw [pythonObj, ih, List.foldl_cons]

end Json

/-! ## Conversion -/

theorem check_success : check .ok = .ok () := rfl

theorem checkedWrite_ok {r : Written} (h : r.status = .ok) :
    checkedWrite (some (.ok r)) = .ok r := by
  show (check r.status >>= fun _ => (pure r : Py Written)) = _
  rw [h, check_success]
  rfl

theorem checked_ok {α : Type} (a : α) : checked (some (.ok a)) = .ok a := rfl

/-- The index of an element, as a `uint32_t`. -/
theorem toNat_index {α : Type} {l : List α} (hlen : l.length ≤ uint32Max) {i : ℕ} {a : α}
    (h : l[i]? = some a) : (UInt32.ofNat i).toNat = i := by
  have hlt := (List.getElem?_eq_some_iff.mp h).1
  have hsize : UInt32.size = uint32Max + 1 := rfl
  apply UInt32.toNat_ofNat_of_lt'
  omega

/-- A tree whose containers can be indexed with a `uint32_t`. -/
def Json.Indexed (j : Json Double) : Prop := j.width ≤ uint32Max

/-- What `_convert` is to return for a tree. -/
def conversion (frames : ℕ) (j : Json Double) : Py PyValue :=
  attempt (j.levels ≤ frames) (.raised .recursionError) j.python

section Convert

variable {w : FfiState} {v : ValueRef} {frames : ℕ}

/-- The conversion of the children, in one frame less. -/
def Converts (w : FfiState) (frames : ℕ) (j : Json Double) : Prop :=
  ∀ v, w.Means v j → convert w frames (some v) = conversion frames j

/-- A list is made of the items of an array. -/
theorem convert_items {items : List (Json Double)} (h : w.Means v (.arr items))
    (hwidth : items.length ≤ uint32Max) (hitems : ∀ j ∈ items, Converts w frames j) :
    (List.range items.length).mapM (convertItem (convert w frames) w (some v))
      = attempt (∀ j ∈ items, j.levels ≤ frames) (.raised .recursionError)
          (items.map Json.python) := by
  rw [← mapM_attempt]
  apply mapM_congr
  apply forall₂_range
  intro i j hj
  have hi := toNat_index hwidth hj
  rcases h.at (.ofNat i) with ⟨p, j', hat, hitem, hmeans⟩ | ⟨-, hno⟩
  · obtain ⟨items', heq, hj'⟩ := hitem
    obtain rfl := Json.arr.inj heq
    rw [hi, hj] at hj'
    obtain rfl := Option.some.inj hj'
    unfold convertItem
    rw [hat]
    exact hitems j (List.mem_of_getElem? hj) _ hmeans
  · exact absurd ⟨items, rfl, hi.symm ▸ hj⟩ (hno j)

/-- A `dict` is made of the pairs of an object. -/
theorem convert_pairs {pairs : List (List UInt8 × Json Double)} (h : w.Means v (.obj pairs))
    (hwidth : pairs.length ≤ uint32Max) (hkeys : ∀ kv ∈ pairs, IsUtf8 kv.1)
    (hpairs : ∀ kv ∈ pairs, Converts w frames kv.2) :
    (List.range pairs.length).foldlM (convertEntry (convert w frames) w (some v)) []
      = attempt (∀ kv ∈ pairs, kv.2.levels ≤ frames) (.raised .recursionError)
          (Json.pythonObj pairs []) := by
  rw [Json.pythonObj_eq, ← foldlM_attempt]
  apply foldlM_congr
  apply forall₂_range
  intro i kv hkv entries
  have hi := toNat_index hwidth hkv
  have hmem := List.mem_of_getElem? hkv
  have hget : pairs[(UInt32.ofNat i).toNat]? = some (kv.1, kv.2) := by rw [hi, hkv]
  obtain ⟨p, hentry, hmeans⟩ := h.entry hget
  unfold convertEntry
  rw [hentry, checked_ok]
  show (convert w frames (some ⟨v.arena, p⟩) >>= fun child => _) = _
  rw [hpairs kv hmem _ hmeans, conversion]
  by_cases hlevels : kv.2.levels ≤ frames
  · rw [attempt_pos hlevels, attempt_pos hlevels]
    show (decode kv.1 >>= fun key => _) = _
    rw [decode_eq (hkeys kv hmem)]
    rfl
  · rw [attempt_neg hlevels, attempt_neg hlevels]
    rfl

/-- A method that looks at the kind of a value first. -/
theorem convert_succ {j : Json Double} (h : w.Means v j) :
    convert w (frames + 1) (some v) =
      if j.type = 0 then .ok .none
      else if j.type = 1 then do
        let scalar ← checked (some (j.getBool.map fun b => if b then (1 : ℤ) else 0))
        return .bool (scalar ≠ 0)
      else if j.type = 2 then do
        let scalar ← checked (some j.getInt)
        return .int scalar.toInt
      else if j.type = 3 then do
        let scalar ← checked (some j.getNumber)
        return .float scalar
      else if j.type = 4 then do
        let data ← checked (some j.getString)
        let s ← decode data
        return .str s
      else convertContainer (convert w frames) w (some v) j.type := by
  obtain ⟨hkind, -⟩ := h.shape
  obtain ⟨hbool, hint, hnumber, hstring⟩ := h.getters
  rw [convert, hkind, hbool, hint, hnumber, hstring]
  rfl

/-- **`_convert` copies the tree**, or is refused the frames. -/
theorem convert_eq {j : Json Double} : j.TextsOk → j.Indexed → ∀ frames, Converts w frames j := by
  have hzero : ∀ {j : Json Double} {v}, convert w 0 (some v) = conversion 0 j := by
    intro j v
    exact (attempt_neg (not_le.mpr j.levels_pos) _).symm
  have hleaf : ∀ {j : Json Double} {n : ℕ}, j.levels = 1 → conversion (n + 1) j = .ok j.python :=
    fun h => attempt_pos (by rw [h]; exact Nat.succ_le_succ (Nat.zero_le _)) _
  induction j using Json.tree_induction with
  | arr items ih =>
    intro htexts hwidth frames v h
    cases frames with
    | zero => exact hzero
    | succ frames =>
      have htexts := Json.textsOkArr_iff.mp htexts
      rw [Json.Indexed, Json.width, max_le_iff, Json.widthArr_le] at hwidth
      have hitems : ∀ j ∈ items, Converts w frames j := fun j hj =>
        ih j hj (htexts j hj) (hwidth.2 j hj) frames
      obtain ⟨-, hsize⟩ := h.shape
      rw [convert_succ h]
      show convertContainer (convert w frames) w (some v) 5 = _
      rw [convertContainer, hsize]
      show ((List.range items.length).mapM (convertItem (convert w frames) w (some v)) >>=
        fun items => (pure (.list items) : Py PyValue)) = _
      rw [convert_items h hwidth.1 hitems, attempt_map, conversion, Json.python, Json.pythonArr_eq]
      apply attempt_congr
      rw [Json.levels, Nat.succ_le_succ_iff, Json.levelsArr_le]
  | obj pairs ih =>
    intro htexts hwidth frames v h
    cases frames with
    | zero => exact hzero
    | succ frames =>
      have htexts := Json.textsOkObj_iff.mp htexts
      rw [Json.Indexed, Json.width, max_le_iff, Json.widthObj_le] at hwidth
      have hpairs : ∀ kv ∈ pairs, Converts w frames kv.2 := fun kv hkv =>
        ih kv hkv (htexts kv hkv).2 (hwidth.2 kv hkv) frames
      obtain ⟨-, hsize⟩ := h.shape
      rw [convert_succ h]
      show convertContainer (convert w frames) w (some v) 6 = _
      rw [convertContainer, hsize]
      show ((List.range pairs.length).foldlM (convertEntry (convert w frames) w (some v)) [] >>=
        fun result => (pure (.dict result) : Py PyValue)) = _
      rw [convert_pairs h hwidth.1 (fun kv hkv => (htexts kv hkv).1.1) hpairs, attempt_map,
        conversion, Json.python]
      apply attempt_congr
      rw [Json.levels, Nat.succ_le_succ_iff, Json.levelsObj_le]
  | str s =>
    intro htexts _ frames v h
    cases frames with
    | zero => exact hzero
    | succ frames =>
      rw [convert_succ h, hleaf rfl]
      show (decode s >>= fun s => (pure (.str s) : Py PyValue)) = _
      rw [decode_eq htexts.1]
      rfl
  | bool b =>
    intro _ _ frames v h
    cases frames with
    | zero => exact hzero
    | succ frames =>
      rw [convert_succ h, hleaf rfl]
      cases b <;> rfl
  | _ =>
    intro _ _ frames v h
    cases frames with
    | zero => exact hzero
    | succ frames =>
      rw [convert_succ h, hleaf rfl]
      rfl

end Convert

theorem Json.InLimits.indexed {j : Json Double} (h : j.InLimits) : j.Indexed :=
  h.width.trans (by decide)

/-- `Document.to_python`, of a document that is there. -/
theorem documentToPython_eq {w : FfiState} {k : DocPtr} {j : Json Double} (h : w.Holds k j)
    (frames : ℕ) : documentToPython frames (some k) w = conversion frames j := by
  obtain ⟨v, hroot, hmeans⟩ := h.root
  rw [documentToPython, documentRoot, hroot]
  exact convert_eq h.1.texts h.1.limits.indexed frames v hmeans

/-- `Document.serialize`, of a document that is there. -/
theorem documentSerialize_eq {w : FfiState} {k : DocPtr} {j : Json Double} (h : w.Holds k j) :
    documentSerialize (some k) w = .ok (textOf (j.render kDefaultOpts)) ∧
      encodeUtf8 (textOf (j.render kDefaultOpts)) = j.render kDefaultOpts := by
  obtain ⟨v, hroot, hmeans⟩ := h.root
  obtain ⟨⟨buf, hmeasure⟩, hlen, htext, hwrite⟩ := hmeans.write h.1.finite h.1.limits
  have hcap : (j.render kDefaultOpts).length + 1 ≤ sizeMax :=
    (Nat.succ_le_succ hlen).trans (by decide)
  obtain ⟨r, hr, hok, hbytes⟩ := hwrite (fun _ => 0) _ (Nat.lt_succ_self _) hcap
  refine ⟨?_, encodeUtf8_textOf htext.utf8⟩
  have hchecked : checkedWrite (some (.ok r)) = .ok r := checkedWrite_ok hok
  rw [documentSerialize, documentRoot, hroot]
  show (checkedWrite (sjsonValueWrite (some v) none 0 w) >>= fun size => _) = _
  rw [hmeasure]
  show (checkedWrite (sjsonValueWrite (some v) (some fun _ => 0)
    ((j.render kDefaultOpts).length + 1) w) >>= fun output => _) = _
  rw [hr, hchecked]
  show decode (r.bytes.take ((j.render kDefaultOpts).length + 1)) = _
  rw [hbytes, List.take_of_length_le (Nat.le_succ _)]
  exact decode_eq htext.utf8

end SJson
