import Mathlib

/-!
# Self-delimiting wire formats for object trees

`Obj` is the object tree of a MessagePack-like serializer and `Wire` is a byte format for it, with the
three facts its documentation promises: an object is read back whatever bytes follow it, an object cut
short is not read at all, and the length of a container is the length of a header that depends on the
number of its items only, plus the lengths of the items. Reading the first `n` bytes of a record therefore
finds it exactly when it fits (`dec_take_append`).
-/

/-- An object of the serializer. -/
inductive Obj where
  | bool (b : Bool)
  | int (z : Int)
  | str (s : List UInt8)
  | array (items : List Obj)
  | map (entries : List (Obj × Obj))

/-- A self-delimiting byte format for objects. -/
class Wire where
  enc : Obj → List UInt8
  dec : List UInt8 → Option (Obj × List UInt8)
  dec_enc : ∀ o rest, dec (enc o ++ rest) = some (o, rest)
  dec_short : ∀ o n, n < (enc o).length → dec ((enc o).take n) = none
  arrayHeader : Nat → Nat
  mapHeader : Nat → Nat
  mapHeader_mono : Monotone mapHeader
  length_array : ∀ items : List Obj,
    (enc (.array items)).length = arrayHeader items.length + (items.map fun o => (enc o).length).sum
  length_map : ∀ entries : List (Obj × Obj), (enc (.map entries)).length =
    mapHeader entries.length + (entries.map fun e => (enc e.1).length + (enc e.2).length).sum

namespace Wire

variable [Wire]

theorem enc_ne_nil (o : Obj) : enc o ≠ [] := by
  intro h
  -- an empty encoding would make every object decode as `o`
  have key : ∀ o', o' = o := by
    intro o'
    have ho := dec_enc o (enc o')
    have ho' := dec_enc o' []
    rw [h, List.nil_append] at ho
    rw [List.append_nil, ho] at ho'
    exact (Prod.ext_iff.mp (Option.some.inj ho')).1.symm
  have h1 := key (.bool true)
  have h2 := key (.bool false)
  rw [← h1] at h2
  simp at h2

theorem enc_length_pos (o : Obj) : 0 < (enc o).length :=
  List.length_pos_iff.mpr (enc_ne_nil o)

/-- Reading the first `n` bytes of a record that starts with `o` finds `o` exactly when it fits. -/
theorem dec_take_append (o : Obj) (rest : List UInt8) (n : Nat) :
    dec ((enc o ++ rest).take n) =
      if (enc o).length ≤ n then some (o, rest.take (n - (enc o).length)) else none := by
  split
  · rename_i hn
    rw [List.take_append, List.take_of_length_le hn, dec_enc]
  · rename_i hn
    rw [List.take_append_of_le_length (by omega), dec_short o n (by omega)]

/-- A map with one more entry is strictly longer. -/
theorem length_map_cons_lt (entry : Obj × Obj) (entries : List (Obj × Obj)) :
    (enc (.map entries)).length < (enc (.map (entry :: entries))).length := by
  have hheader := mapHeader_mono (Nat.le_succ entries.length)
  have hpos := enc_length_pos entry.1
  simp only [length_map, List.length_cons, List.map_cons, List.sum_cons, Nat.succ_eq_add_one] at hheader ⊢
  omega

end Wire
