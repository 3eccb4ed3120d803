/-
# Entries of containers

What looking up an item or a key ends with: an entry of the container (`Heap.FindsChild`), which
denotes an entry of its tree, and there is one to be found if the tree has one (`Finds`).
-/
import SJson.EqualSpec
import SJson.Path
import SJson.Traversal

namespace SJson

open ListRel

variable {D : Type}

/-! ## Children -/

/-- A lookup that ends with an entry of the container, or with an error code. -/
def Heap.FindsChild (h : Heap D) (p : JsonPtr) (x : Scan JsonPtr) : Prop :=
  (∀ f, x ≠ .error (.fault f)) ∧ ∀ out, x = .ok out → h.Child p out

theorem jsonArrGet_findsChild (h : Heap D) (p : JsonPtr) (idx : ℕ) :
    h.FindsChild p (jsonArrGet h p idx) := by
  unfold jsonArrGet
  cases hnode : h.node p with
  | array a =>
    simp only
    cases hidx : a.items[idx]? with
    | none => exact ⟨fun _ heq => (by cases heq), fun _ heq => (by cases heq)⟩
    | some q =>
      refine ⟨fun _ heq => (by cases heq), fun out heq => ?_⟩
      obtain rfl : q = out := Except.ok.inj heq
      rw [Heap.Child, hnode]
      exact List.mem_of_getElem? hidx
  | _ => exact ⟨fun _ heq => (by cases heq), fun _ heq => (by cases heq)⟩

theorem jsonObjGetN_findsChild {h : Heap D} (hrep : h.RepOk) {p : JsonPtr} (hp : p < h.next)
    (key : List UInt8) : h.FindsChild p (jsonObjGetN h p key) := by
  refine ⟨(jsonObjGetN_finds hrep hp key).1, ?_⟩
  intro out hout
  by_cases hlen : key.length ≤ uint32Max
  · cases hobj : h.node p with
    | object o =>
      obtain ⟨pr, hmem, -, hval⟩ := jsonObjGetN_mem hrep hp hobj hlen hout
      rw [Heap.Child, hobj]
      exact ⟨pr, hmem, hval⟩
    | _ =>
      rw [jsonObjGetN, if_neg (not_lt.mpr hlen), hobj] at hout
      cases hout
  · rw [jsonObjGetN, if_pos (not_le.mp hlen)] at hout
    cases hout

/-! ## Entries of trees -/

/-- An item of an array. -/
def Json.Item (i : ℕ) (j j' : Json D) : Prop := ∃ items, j = .arr items ∧ items[i]? = some j'

/-- A value that an object has for a key. -/
def Json.Member (key : List UInt8) (j j' : Json D) : Prop :=
  ∃ pairs, j = .obj pairs ∧ (key, j') ∈ pairs

/-- A lookup finds an entry, if there is one. -/
structure Finds (ok : JsonPtr → Prop) (h : Heap D) (entry : Json D → Prop) (x : Scan JsonPtr) :
    Prop where
  sound : ∀ out, x = .ok out → ∃ j, entry j ∧ DenotesIn ok h j out
  complete : ∀ j, entry j → ∃ out, x = .ok out

theorem jsonArrGet_item {ok : JsonPtr → Prop} {h : Heap D} {j : Json D} {p : JsonPtr}
    (hj : DenotesIn ok h j p) (i : ℕ) : Finds ok h (j.Item i) (jsonArrGet h p i) := by
  constructor
  · intro out hout
    unfold jsonArrGet at hout
    cases hnode : h.node p with
    | array a =>
      obtain ⟨items, rfl, -⟩ := hj.denotes.of_array hnode
      obtain ⟨-, a', ha', hall⟩ := denotesIn_arr.mp hj
      obtain rfl : a = a' := JsonNode.array.inj (hnode.symm.trans ha')
      rw [hnode] at hout
      rcases getElem?_rel hall i with ⟨j', q, hj', hq, hden⟩ | ⟨-, hnone⟩
      · simp only [hq, Except.ok.injEq] at hout
        exact ⟨j', ⟨items, rfl, hj'⟩, hout ▸ hden⟩
      · simp only [hnone] at hout
        cases hout
    | _ =>
      rw [hnode] at hout
      cases hout
  · rintro j' ⟨items, rfl, hj'⟩
    obtain ⟨-, a, ha, hall⟩ := denotesIn_arr.mp hj
    rcases getElem?_rel hall i with ⟨-, q, -, hq, -⟩ | ⟨hnone, -⟩
    · refine ⟨q, ?_⟩
      simp only [jsonArrGet, ha, hq]
    · rw [hj'] at hnone
      cases hnone

theorem jsonObjGetN_member {ok : JsonPtr → Prop} {h : Heap D} (hrep : h.RepOk) {j : Json D}
    {p : JsonPtr} (hp : p < h.next) (hj : DenotesIn ok h j p) (key : List UInt8) :
    Finds ok h (j.Member key) (jsonObjGetN h p key) := by
  constructor
  · intro out hout
    have hout' : jsonObjGetN h p key = .ok out := hout
    by_cases hlen : key.length ≤ uint32Max
    · cases hnode : h.node p with
      | object o =>
        obtain ⟨pairs, rfl, -⟩ := hj.denotes.of_object hnode
        obtain ⟨-, o', ho', hall⟩ := denotesIn_obj.mp hj
        obtain rfl : o = o' := JsonNode.object.inj (hnode.symm.trans ho')
        obtain ⟨pr, hmem, hkey, rfl⟩ := jsonObjGetN_mem hrep hp hnode hlen hout'
        obtain ⟨kv, hkv, hkv', hden⟩ := forall₂_mem_right hall hmem
        exact ⟨kv.2, ⟨pairs, rfl, by rwa [← hkey, hkv']⟩, hden⟩
      | _ =>
        rw [jsonObjGetN, if_neg (not_lt.mpr hlen), hnode] at hout'
        cases hout'
    · rw [jsonObjGetN, if_pos (not_le.mp hlen)] at hout'
      cases hout'
  · rintro j' ⟨pairs, rfl, hmem⟩
    obtain ⟨-, o, ho, hall⟩ := denotesIn_obj.mp hj
    obtain ⟨pr, hpr, hkey, -⟩ := forall₂_mem_left hall hmem
    have hok := hrep p hp
    rw [ho] at hok
    have hdata : pr.key.data = key := hkey
    have hlen : key.length ≤ uint32Max := hdata ▸ (hok.2.1 pr hpr).1.lookable
    rcases jsonObjGetN_cases hrep hp ho hlen with ⟨pr', -, -, hget⟩ | ⟨hno, -⟩
    · exact ⟨pr'.val, hget⟩
    · exact absurd hdata (hno pr hpr)

end SJson
