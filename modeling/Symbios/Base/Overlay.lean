import Mathlib

/-!
# Writing into the middle of a sequence

`overlay pad old pos new` is what a positional write leaves behind: the first `pos` items of `old`
(padded with `pad` where `old` is shorter), then `new`, then what `old` had past the end of `new`.
Nothing is ever truncated, so a record rewritten in place keeps the tail of a longer predecessor
(`overlay_zero`), and a positional read sees the last write (`overlay_get_inside`,
`overlay_get_outside`).
-/

namespace Overlay

variable {α : Type} (pad : α)

/-- The sequence after writing `new` at offset `pos` of `old`. -/
def overlay (old : List α) (pos : Nat) (new : List α) : List α :=
  (old ++ List.replicate (pos - old.length) pad).take pos ++ new ++ old.drop (pos + new.length)

/-- Writing at the start keeps exactly the old tail. -/
theorem overlay_zero (old new : List α) : overlay pad old 0 new = new ++ old.drop new.length := by
  simp [overlay]

/-- Writing nothing changes nothing. -/
theorem overlay_nil {old : List α} {pos : Nat} (h : pos ≤ old.length) : overlay pad old pos [] = old := by
  rw [overlay, Nat.sub_eq_zero_of_le h, List.replicate_zero, List.append_nil, List.append_nil, List.length_nil,
    Nat.add_zero, List.take_append_drop]

/-- Writing behind the end fills the gap. -/
theorem overlay_behind {old : List α} {pos : Nat} (h : old.length ≤ pos) (new : List α) :
    overlay pad old pos new = old ++ List.replicate (pos - old.length) pad ++ new := by
  rw [overlay, List.drop_eq_nil_of_le (by omega), List.append_nil, List.take_of_length_le]
  rw [List.length_append, List.length_replicate]
  omega

/-- Padding that the write covers or would add makes no difference. -/
theorem overlay_padded {old new : List α} {pos m : Nat} (h : old.length + m ≤ pos + new.length) :
    overlay pad (old ++ List.replicate m pad) pos new = overlay pad old pos new := by
  have hhead : (old ++ List.replicate m pad ++ List.replicate (pos - (old.length + m)) pad).take pos =
      (old ++ List.replicate (pos - old.length) pad).take pos := by
    rw [List.append_assoc, ← List.replicate_add, List.take_append, List.take_append, List.take_replicate,
      List.take_replicate]
    congr 2
    omega
  rw [overlay, overlay, List.length_append, List.length_replicate, hhead, List.drop_eq_nil_of_le (by simpa using h),
    List.drop_eq_nil_of_le (by omega)]

theorem head_length (old : List α) (pos : Nat) :
    ((old ++ List.replicate (pos - old.length) pad).take pos).length = pos := by
  simp only [List.length_take, List.length_append, List.length_replicate]
  omega

theorem overlay_length (old : List α) (pos : Nat) (new : List α) :
    (overlay pad old pos new).length = max old.length (pos + new.length) := by
  rw [overlay, List.length_append, List.length_append, head_length, List.length_drop]
  omega

/-- Inside the written range the sequence holds the new items. -/
theorem overlay_get_inside (old : List α) (pos : Nat) (new : List α) (i : Nat) (hi : i < new.length) :
    (overlay pad old pos new)[pos + i]? = new[i]? := by
  rw [overlay, List.append_assoc, List.getElem?_append_right (by rw [head_length]; omega), head_length,
    List.getElem?_append_left (by omega)]
  congr 1
  omega

/-- Outside the written range every item that was there is still there. -/
theorem overlay_get_outside (old : List α) (pos : Nat) (new : List α) (i : Nat) (hi : i < old.length)
    (hout : i < pos ∨ pos + new.length ≤ i) : (overlay pad old pos new)[i]? = old[i]? := by
  rcases hout with hlt | hge
  · rw [overlay, List.append_assoc, List.getElem?_append_left (by rw [head_length]; omega),
      List.getElem?_take_of_lt hlt, List.getElem?_append_left hi]
  · rw [overlay, List.getElem?_append_right (by rw [List.length_append, head_length]; omega),
      List.length_append, head_length, List.getElem?_drop]
    congr 1
    omega

/-- Outside the written range every item is what it was, with the padding for what is not there. -/
theorem overlay_getD_outside (old : List α) (pos : Nat) (new : List α) (i : Nat)
    (hout : i < pos ∨ pos + new.length ≤ i) : (overlay pad old pos new).getD i pad = old.getD i pad := by
  rw [List.getD_eq_getElem?_getD, List.getD_eq_getElem?_getD]
  by_cases hi : i < old.length
  · rw [overlay_get_outside pad old pos new i hi hout]
  · have hnone : old[i]? = none := List.getElem?_eq_none (by omega)
    rcases hout with hlt | hge
    · rw [overlay, List.append_assoc, List.getElem?_append_left (by rw [head_length]; omega),
        List.getElem?_take_of_lt hlt, List.getElem?_append_right (by omega), List.getElem?_replicate, hnone]
      split_ifs <;> rfl
    · rw [overlay, List.getElem?_append_right (by rw [List.length_append, head_length]; omega),
        List.length_append, head_length, List.getElem?_drop, List.getElem?_eq_none (by omega), hnone]

end Overlay
