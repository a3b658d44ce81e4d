import Symbios.Base.Overlay

/-!
# A sequence cut into segments

A sequence of unbounded length, of which every position may hold an item, is kept in segments of `size` items:
position `o` is item `o % size` of segment `o / size`. A write inside one segment is an `Overlay.overlay` of that
segment (`Covers.patch`), and a range of items that are all there, inside one segment, is a slice of it
(`Covers.slice`).
-/

namespace Segments

variable {α : Type} {size : Nat} {f : Nat → Option α} {segments : Nat → Option (List α)}

/-- The sequence after writing `new` at `pos`. -/
def patch (f : Nat → Option α) (pos : Nat) (new : List α) : Nat → Option α :=
  fun o => if pos ≤ o ∧ o < pos + new.length then new[o - pos]? else f o

/-- Every item of `f` is in its place in the segments. -/
def Covers (size : Nat) (f : Nat → Option α) (segments : Nat → Option (List α)) : Prop :=
  ∀ o b, f o = some b → ∃ segment, segments (o / size) = some segment ∧ segment[o % size]? = some b

theorem patch_of_mem {pos o : Nat} {new : List α} (hle : pos ≤ o) (hlt : o < pos + new.length) :
    patch f pos new o = new[o - pos]? := if_pos ⟨hle, hlt⟩

theorem patch_of_not_mem {pos o : Nat} {new : List α} (h : o < pos ∨ pos + new.length ≤ o) :
    patch f pos new o = f o := if_neg (by omega)

theorem patch_nil (f : Nat → Option α) (pos : Nat) : patch f pos [] = f := by
  funext o
  exact patch_of_not_mem (by rw [List.length_nil]; omega)

/-- Two writes one after the other, and behind it, are one. -/
theorem patch_patch (f : Nat → Option α) (pos : Nat) (a b : List α) :
    patch (patch f pos a) (pos + a.length) b = patch f pos (a ++ b) := by
  funext o
  have hlength : (a ++ b).length = a.length + b.length := List.length_append
  by_cases hmem : pos ≤ o ∧ o < pos + (a ++ b).length
  · rw [patch_of_mem hmem.1 hmem.2]
    by_cases hb : pos + a.length ≤ o
    · rw [patch_of_mem hb (by omega), List.getElem?_append_right (by omega)]
      congr 1
      omega
    · rw [patch_of_not_mem (Or.inl (by omega)), patch_of_mem hmem.1 (by omega), List.getElem?_append_left (by omega)]
  · rw [patch_of_not_mem (by omega), patch_of_not_mem (by omega), patch_of_not_mem (by omega)]

/-- A write into a list, without a gap. -/
theorem patch_overlay (pad : α) {l : List α} {pos : Nat} (hpos : pos ≤ l.length) (new : List α) :
    patch (fun o => l[o]?) pos new = fun o => (Overlay.overlay pad l pos new)[o]? := by
  funext o
  have hlength := Overlay.overlay_length pad l pos new
  by_cases hmem : pos ≤ o ∧ o < pos + new.length
  · obtain ⟨k, rfl⟩ := Nat.exists_eq_add_of_le hmem.1
    rw [patch_of_mem hmem.1 hmem.2, Nat.add_sub_cancel_left, Overlay.overlay_get_inside _ _ _ _ _ (by omega)]
  · rw [patch_of_not_mem (by omega)]
    by_cases hold : o < l.length
    · exact (Overlay.overlay_get_outside pad l pos new o hold (by omega)).symm
    · rw [List.getElem?_eq_none (by omega), List.getElem?_eq_none (by omega)]

theorem mem_of_patch {pos o : Nat} {new : List α} {b : α} (h : patch f pos new o = some b) :
    (pos ≤ o ∧ o < pos + new.length) ∨ f o = some b := by
  unfold patch at h
  split_ifs at h with hin
  · exact Or.inl hin
  · exact Or.inr h

/-- Positions of one segment differ as their offsets do. -/
theorem div_mod_of_mem {pos n o : Nat} (hin : pos % size + n ≤ size) (hle : pos ≤ o) (hlt : o < pos + n) :
    o / size = pos / size ∧ o % size = pos % size + (o - pos) := by
  have hpos := Nat.div_add_mod pos size
  have hdiv : o / size = pos / size := by
    refine Nat.div_eq_of_lt_le ?_ ?_
    · rw [Nat.mul_comm]
      omega
    · rw [Nat.mul_comm, Nat.mul_add]
      omega
  refine ⟨hdiv, ?_⟩
  have ho := Nat.div_add_mod o size
  rw [hdiv] at ho
  omega

/-- The start of the next segment. -/
theorem next_segment (hsize : 0 < size) (pos : Nat) : pos + (size - pos % size) = (pos / size + 1) * size := by
  have hcut := Nat.div_add_mod pos size
  have hoff := Nat.mod_lt pos hsize
  rw [Nat.add_mul, Nat.one_mul, Nat.mul_comm (pos / size)]
  omega

theorem next_segment_div (hsize : 0 < size) (pos : Nat) : (pos + (size - pos % size)) / size = pos / size + 1 := by
  rw [next_segment hsize, Nat.mul_div_cancel _ hsize]

theorem next_segment_mod (hsize : 0 < size) (pos : Nat) : (pos + (size - pos % size)) % size = 0 := by
  rw [next_segment hsize, Nat.mul_mod_left]

theorem offset_of_not_mem {pos n o : Nat} (hdiv : o / size = pos / size) (hout : o < pos ∨ pos + n ≤ o) :
    o % size < pos % size ∨ pos % size + n ≤ o % size := by
  have hpos := Nat.div_add_mod pos size
  have ho := Nat.div_add_mod o size
  rw [hdiv] at ho
  omega

theorem Covers.empty (size : Nat) (segments : Nat → Option (List α)) : Covers size (fun _ => none) segments := by
  intro o b h
  cases h

/-- A write inside one segment. -/
theorem Covers.patch (h : Covers size f segments) (pad : α) {pos : Nat} {new : List α}
    (hin : pos % size + new.length ≤ size) :
    Covers size (patch f pos new) (Function.update segments (pos / size)
      (some (Overlay.overlay pad ((segments (pos / size)).getD []) (pos % size) new))) := by
  intro o b hb
  by_cases hmem : pos ≤ o ∧ o < pos + new.length
  · obtain ⟨hdiv, hmod⟩ := div_mod_of_mem hin hmem.1 hmem.2
    rw [patch_of_mem hmem.1 hmem.2] at hb
    refine ⟨_, by rw [hdiv, Function.update_self], ?_⟩
    rw [hmod, Overlay.overlay_get_inside _ _ _ _ _ (by omega), hb]
  · have hout : o < pos ∨ pos + new.length ≤ o := by omega
    rw [patch_of_not_mem hout] at hb
    obtain ⟨segment, hsegment, hget⟩ := h o b hb
    by_cases hdiv : o / size = pos / size
    · -- the same segment: it keeps its items outside the range
      refine ⟨_, by rw [hdiv, Function.update_self], ?_⟩
      rw [← hdiv, hsegment, Option.getD_some, Overlay.overlay_get_outside, hget]
      · exact (List.getElem?_eq_some_iff.mp hget).1
      · exact offset_of_not_mem hdiv hout
    · exact ⟨segment, by rw [Function.update_of_ne hdiv, hsegment], hget⟩

/-- Fewer items, with the segments they are in. -/
theorem Covers.mono (h : Covers size f segments) {g : Nat → Option α} {segments' : Nat → Option (List α)}
    (hg : ∀ o b, g o = some b → f o = some b ∧ segments' (o / size) = segments (o / size)) : Covers size g segments' := by
  intro o b hb
  obtain ⟨hf, hsame⟩ := hg o b hb
  rw [hsame]
  exact h o b hf

/-- A range inside one segment. -/
theorem Covers.slice (h : Covers size f segments) {pos n : Nat} (hn : 0 < n) (hin : pos % size + n ≤ size)
    (hall : ∀ o, pos ≤ o → o < pos + n → (f o).isSome) :
    ∃ segment, segments (pos / size) = some segment ∧ pos % size + n ≤ segment.length ∧
      ∀ k < n, ((segment.drop (pos % size)).take n)[k]? = f (pos + k) := by
  have hitem : ∀ k < n, ∃ segment b, segments (pos / size) = some segment ∧ segment[pos % size + k]? = some b ∧
      f (pos + k) = some b := by
    intro k hk
    obtain ⟨b, hb⟩ := Option.isSome_iff_exists.mp (hall (pos + k) (by omega) (by omega))
    obtain ⟨segment, hsegment, hget⟩ := h _ b hb
    obtain ⟨hdiv, hmod⟩ := div_mod_of_mem hin (show pos ≤ pos + k by omega) (by omega)
    rw [hdiv] at hsegment
    rw [hmod, show pos + k - pos = k by omega] at hget
    exact ⟨segment, b, hsegment, hget, hb⟩
  obtain ⟨segment, b, hsegment, hlast, -⟩ := hitem (n - 1) (by omega)
  have hlen := (List.getElem?_eq_some_iff.mp hlast).1
  refine ⟨segment, hsegment, by omega, ?_⟩
  intro k hk
  obtain ⟨segment', b', hsegment', hget, hb'⟩ := hitem k hk
  obtain rfl : segment' = segment := Option.some.inj (hsegment'.symm.trans hsegment)
  rw [List.getElem?_take_of_lt hk, List.getElem?_drop, hget, hb']

/-! ## Sequences without gaps -/

/-- The number of items that segment `s` has of a sequence of `n` items. -/
def filled (size n s : Nat) : Nat := min size (n - s * size)

theorem sum_filled (size n k : Nat) : ((List.range k).map (filled size n)).sum = min (k * size) n := by
  induction k with
  | zero => simp
  | succ k ih =>
    rw [List.range_succ, List.map_append, List.sum_append, ih, List.map_singleton, List.sum_singleton, filled,
      Nat.succ_mul]
    omega

/-- A write into a segment that the sequence reaches leaves no gap. -/
theorem filled_write {n s offset count : Nat} (hfront : s * size ≤ n) (hin : offset + count ≤ size) (s' : Nat) :
    filled size (max n (s * size + (offset + count))) s' =
      if s' = s then max (filled size n s) (offset + count) else filled size n s' := by
  split_ifs with hs
  · rw [hs, filled, filled]
    omega
  · rcases Nat.lt_or_gt_of_ne hs with hlt | hgt
    · have hle : (s' + 1) * size ≤ s * size := Nat.mul_le_mul_right _ hlt
      rw [Nat.succ_mul] at hle
      rw [filled, filled]
      omega
    · have hle : (s + 1) * size ≤ s' * size := Nat.mul_le_mul_right _ hgt
      rw [Nat.succ_mul] at hle
      rw [filled, filled]
      omega

theorem le_of_filled_zero (hsize : 0 < size) {n s : Nat} (h : filled size n s = 0) : n ≤ s * size := by
  unfold filled at h
  omega

/-! ## A list in pieces -/

/-- Segment `s` of a list, if the list reaches it. -/
def pieces (size : Nat) (l : List α) (s : Nat) : Option (List α) :=
  if s * size < l.length then some ((l.drop (s * size)).take size) else none

theorem pieces_nil (size s : Nat) : pieces size ([] : List α) s = none := if_neg (Nat.not_lt_zero _)

theorem pieces_isSome {l : List α} {s : Nat} : (pieces size l s).isSome ↔ s * size < l.length := by
  unfold pieces
  split_ifs with h
  · simp [h]
  · simp [h]

theorem pieces_getD (size : Nat) (l : List α) (s : Nat) :
    (pieces size l s).getD [] = (l.drop (s * size)).take size := by
  unfold pieces
  split_ifs with h
  · rfl
  · rw [List.drop_eq_nil_of_le (by omega), List.take_nil, Option.getD_none]

theorem pieces_length (size : Nat) (l : List α) (s : Nat) :
    ((pieces size l s).getD []).length = filled size l.length s := by
  rw [pieces_getD, List.length_take, List.length_drop, filled]

/-- Every item of the list is in its place. -/
theorem pieces_covers (hsize : 0 < size) (l : List α) : Covers size (fun o => l[o]?) (pieces size l) := by
  intro o b hb
  have hlt := (List.getElem?_eq_some_iff.mp hb).1
  have hcut := Nat.div_add_mod o size
  have hoff := Nat.mod_lt o hsize
  rw [Nat.mul_comm] at hcut
  refine ⟨(l.drop (o / size * size)).take size, if_pos (by omega), ?_⟩
  rw [List.getElem?_take_of_lt hoff, List.getElem?_drop, hcut]
  exact hb

/-- What stands in a segment behind another one, or in front of it, is not reached by a write into that one. -/
theorem pieces_overlay_ne (pad : α) {l new : List α} {pos s : Nat} (hpos : pos ≤ l.length)
    (hin : pos % size + new.length ≤ size) (hs : s ≠ pos / size) :
    pieces size (Overlay.overlay pad l pos new) s = pieces size l s := by
  have hcut := Nat.div_add_mod pos size
  rw [Nat.mul_comm] at hcut
  have hlength := Overlay.overlay_length pad l pos new
  have hapart : (s + 1) * size ≤ pos ∨ pos + new.length ≤ s * size := by
    rcases Nat.lt_or_gt_of_ne hs with hlt | hgt
    · have hle : (s + 1) * size ≤ pos / size * size := Nat.mul_le_mul_right _ hlt
      omega
    · have hle : (pos / size + 1) * size ≤ s * size := Nat.mul_le_mul_right _ hgt
      rw [Nat.succ_mul] at hle
      omega
  rw [Nat.succ_mul] at hapart
  unfold pieces
  by_cases hlt : s * size < l.length
  · rw [if_pos hlt, if_pos (by omega)]
    congr 1
    apply List.ext_getElem?
    intro k
    rw [List.getElem?_take, List.getElem?_take]
    split_ifs with hk
    · rw [List.getElem?_drop, List.getElem?_drop]
      by_cases hold : s * size + k < l.length
      · exact Overlay.overlay_get_outside pad l pos new _ hold (by omega)
      · rw [List.getElem?_eq_none (by omega), List.getElem?_eq_none (by omega)]
    · rfl
  · rw [if_neg hlt, if_neg (by omega)]

/-- A write inside one segment, without a gap, is a write into its piece. -/
theorem pieces_overlay (pad : α) {l new : List α} {pos : Nat} (hpos : pos ≤ l.length) (hnew : new ≠ [])
    (hin : pos % size + new.length ≤ size) :
    pieces size (Overlay.overlay pad l pos new) = Function.update (pieces size l) (pos / size)
      (some (Overlay.overlay pad ((pieces size l (pos / size)).getD []) (pos % size) new)) := by
  have hcut := Nat.div_add_mod pos size
  rw [Nat.mul_comm] at hcut
  have hcount := List.length_pos_of_ne_nil hnew
  have hlength := Overlay.overlay_length pad l pos new
  funext s
  by_cases hs : s = pos / size
  · subst hs
    have hpiece := pieces_length size l (pos / size)
    rw [Function.update_self, pieces, if_pos (by omega), pieces_getD]
    rw [pieces_getD, filled] at hpiece
    congr 1
    apply List.ext_getElem?
    intro k
    rw [List.getElem?_take, List.getElem?_drop]
    by_cases hk : pos % size ≤ k ∧ k < pos % size + new.length
    · obtain ⟨j, rfl⟩ := Nat.exists_eq_add_of_le hk.1
      rw [if_pos (by omega), Overlay.overlay_get_inside _ _ _ _ _ (by omega), ← Nat.add_assoc, hcut,
        Overlay.overlay_get_inside _ _ _ _ _ (by omega)]
    · by_cases hold : k < ((l.drop (pos / size * size)).take size).length
      · rw [if_pos (by omega), Overlay.overlay_get_outside _ _ _ _ _ hold (by omega),
          Overlay.overlay_get_outside _ _ _ _ _ (by omega) (by omega), List.getElem?_take_of_lt (by omega),
          List.getElem?_drop]
      · have hbehind : (Overlay.overlay pad ((l.drop (pos / size * size)).take size) (pos % size) new)[k]? = none := by
          apply List.getElem?_eq_none
          rw [Overlay.overlay_length]
          omega
        rw [hbehind]
        split_ifs with hsize
        · exact List.getElem?_eq_none (by omega)
        · rfl
  · rw [Function.update_of_ne hs]
    exact pieces_overlay_ne pad hpos hin hs

end Segments
