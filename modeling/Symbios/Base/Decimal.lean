import Mathlib

/-!
# Decimal numerals as byte strings

`decimal n` is the usual decimal numeral of `n`: no sign, no leading zero, `0` for zero. Numerals are
injective (`decimal_injective`), consist of digits only (`decimal_digits`), and a non-empty digit string
`front` can stand before a numeral and give a numeral again exactly when it does not start with `0`
(`exists_decimal_append_iff`). This is what decides when two names of the form `base ++ decimal n`
coincide (`append_decimal_clash`).
-/

namespace Decimal

/-- The byte of a digit. -/
def digitByte (d : Nat) : UInt8 := UInt8.ofNat (48 + d)

/-- A byte is a decimal digit. -/
def IsDigit (c : UInt8) : Prop := ∃ d < 10, c = digitByte d

/-- The decimal numeral of `n`. -/
def decimal (n : Nat) : List UInt8 :=
  if n = 0 then [digitByte 0] else ((Nat.digits 10 n).map digitByte).reverse

theorem digitByte_injOn {a b : Nat} (ha : a < 10) (hb : b < 10) (h : digitByte a = digitByte b) : a = b := by
  have := congrArg UInt8.toNat h
  simp only [digitByte, UInt8.toNat_ofNat'] at this
  omega

theorem map_digitByte_inj : ∀ {l r : List Nat}, (∀ d ∈ l, d < 10) → (∀ d ∈ r, d < 10) →
    l.map digitByte = r.map digitByte → l = r
  | [], [], _, _, _ => rfl
  | [], _ :: _, _, _, h => by simp at h
  | _ :: _, [], _, _, h => by simp at h
  | a :: l, b :: r, hl, hr, h => by
    simp only [List.map_cons, List.cons.injEq] at h
    rw [digitByte_injOn (hl a (by simp)) (hr b (by simp)) h.1,
      map_digitByte_inj (fun d hd => hl d (by simp [hd])) (fun d hd => hr d (by simp [hd])) h.2]

/-- The little-endian digits behind a numeral: never empty, below ten, and ending in a non-zero digit
unless the numeral is `0`. -/
def digitList (n : Nat) : List Nat := if n = 0 then [0] else Nat.digits 10 n

theorem decimal_eq (n : Nat) : decimal n = ((digitList n).map digitByte).reverse := by
  unfold decimal digitList
  split <;> rfl

theorem digitList_lt (n : Nat) : ∀ d ∈ digitList n, d < 10 := by
  intro d hd
  unfold digitList at hd
  split at hd
  · simp only [List.mem_singleton] at hd
    omega
  · exact Nat.digits_lt_base (by norm_num) hd

theorem digitList_ne_nil (n : Nat) : digitList n ≠ [] := by
  unfold digitList
  split
  · simp
  · rename_i h
    exact Nat.digits_ne_nil_iff_ne_zero.mpr h

theorem ofDigits_digitList (n : Nat) : Nat.ofDigits 10 (digitList n) = n := by
  unfold digitList
  split
  · rename_i h
    simp [h]
  · exact Nat.ofDigits_digits 10 n

theorem decimal_ne_nil (n : Nat) : decimal n ≠ [] := by
  simpa [decimal_eq] using digitList_ne_nil n

theorem decimal_length_le {n k : Nat} (hk : 0 < k) (h : n < 10 ^ k) : (decimal n).length ≤ k := by
  unfold decimal
  split_ifs
  · exact hk
  · rw [List.length_reverse, List.length_map]
    exact (Nat.digits_length_le_iff (by norm_num) n).mpr h

theorem decimal_digits (n : Nat) : ∀ c ∈ decimal n, IsDigit c := by
  intro c hc
  rw [decimal_eq, List.mem_reverse, List.mem_map] at hc
  obtain ⟨d, hd, rfl⟩ := hc
  exact ⟨d, digitList_lt n d hd, rfl⟩

theorem decimal_injective : Function.Injective decimal := by
  intro a b h
  rw [decimal_eq, decimal_eq, List.reverse_inj] at h
  rw [← ofDigits_digitList a, map_digitByte_inj (digitList_lt a) (digitList_lt b) h, ofDigits_digitList]

/-- A numeral of more than one digit does not start with `0`. -/
theorem decimal_head_ne_zero {n : Nat} {c : UInt8} {rest : List UInt8} (h : decimal n = c :: rest)
    (hrest : rest ≠ []) : c ≠ digitByte 0 := by
  intro hc
  by_cases hn : n = 0
  · subst hn
    rw [decimal, if_pos rfl, List.cons.injEq] at h
    exact hrest h.2.symm
  · rw [decimal, if_neg hn] at h
    have hne := Nat.digits_ne_nil_iff_ne_zero (b := 10) |>.mpr hn
    have hlast := Nat.getLast_digit_ne_zero 10 hn
    have hhead : ((Nat.digits 10 n).map digitByte).getLast (by simpa using hne) = c := by
      rw [← List.head_reverse (by simpa using hne)]
      simp only [h, List.head_cons]
    rw [List.getLast_map, hc] at hhead
    exact hlast (digitByte_injOn (Nat.digits_lt_base (by norm_num) (List.getLast_mem hne)) (by norm_num) hhead)

/-- A digit string that does not start with `0`, put before a numeral, gives a numeral. -/
theorem decimal_append {front : List UInt8} {c : UInt8} {tail : List UInt8} (hfront : front = c :: tail)
    (hdigits : ∀ x ∈ front, IsDigit x) (hc : c ≠ digitByte 0) (n : Nat) :
    ∃ m, decimal m = front ++ decimal n := by
  obtain ⟨ds, hds, rfl⟩ : ∃ ds : List Nat, (∀ d ∈ ds, d < 10) ∧ front = (ds.map digitByte).reverse := by
    clear hfront
    induction front with
    | nil => exact ⟨[], by simp, rfl⟩
    | cons x front ih =>
      obtain ⟨ds, hds, rfl⟩ := ih (fun y hy => hdigits y (by simp [hy]))
      obtain ⟨d, hd, rfl⟩ := hdigits x (by simp)
      refine ⟨ds ++ [d], fun y hy => ?_, by simp⟩
      rcases List.mem_append.mp hy with hy | hy
      · exact hds y hy
      · rw [List.mem_singleton] at hy
        omega
  have hne : ds ≠ [] := by
    rintro rfl
    simp at hfront
  have hlast : (digitList n ++ ds).getLast (by simp [hne]) ≠ 0 := by
    rw [List.getLast_append_of_ne_nil _ hne]
    intro hzero
    apply hc
    have hhead : ((ds.map digitByte).reverse).head (by simpa using hne) = c := by simp only [hfront, List.head_cons]
    rw [List.head_reverse, List.getLast_map, hzero] at hhead
    exact hhead.symm
  refine ⟨Nat.ofDigits 10 (digitList n ++ ds), ?_⟩
  have hdigitsEq := Nat.digits_ofDigits 10 (by norm_num) (digitList n ++ ds)
    (fun d hd => (List.mem_append.mp hd).elim (digitList_lt n d) (hds d)) (fun _ => hlast)
  have hpos : Nat.ofDigits 10 (digitList n ++ ds) ≠ 0 := by
    intro hzero
    rw [hzero, Nat.digits_zero] at hdigitsEq
    exact digitList_ne_nil n (List.append_eq_nil_iff.mp hdigitsEq.symm).1
  rw [decimal, if_neg hpos, hdigitsEq, decimal_eq, List.map_append, List.reverse_append]

theorem exists_decimal_append_iff (front : List UInt8) (hne : front ≠ []) (n : Nat) :
    (∃ m, decimal m = front ++ decimal n) ↔ (∀ x ∈ front, IsDigit x) ∧ front.head? ≠ some (digitByte 0) := by
  obtain ⟨c, tail, rfl⟩ := List.exists_cons_of_ne_nil hne
  constructor
  · rintro ⟨m, hm⟩
    refine ⟨fun x hx => decimal_digits m x (by rw [hm]; exact List.mem_append_left _ hx), ?_⟩
    simp only [List.head?_cons, ne_eq, Option.some.injEq]
    exact decimal_head_ne_zero hm (by simp [decimal_ne_nil])
  · rintro ⟨hdigits, hhead⟩
    exact decimal_append rfl hdigits (by simpa using hhead) n

/-- `longer` is `shorter` followed by a non-empty digit string that does not start with `0`. -/
def Extends (shorter longer : List UInt8) : Prop :=
  ∃ front, longer = shorter ++ front ∧ front ≠ [] ∧ (∀ x ∈ front, IsDigit x) ∧
    front.head? ≠ some (digitByte 0)

/-- **When numbered names clash.** Two different bases produce a common name `base ++ decimal n` exactly
when one of them extends the other by a digit string without leading zero. -/
theorem append_decimal_clash (a b : List UInt8) (hab : a ≠ b) :
    (∃ m n, a ++ decimal m = b ++ decimal n) ↔ Extends a b ∨ Extends b a := by
  constructor
  · rintro ⟨m, n, h⟩
    rcases List.append_eq_append_iff.mp h with ⟨front, hb, hm⟩ | ⟨front, ha, hn⟩
    · have hne : front ≠ [] := fun h0 => hab (by rw [hb, h0, List.append_nil])
      exact Or.inl ⟨front, hb, hne, (exists_decimal_append_iff front hne n).mp ⟨m, hm⟩⟩
    · have hne : front ≠ [] := fun h0 => hab (by rw [ha, h0, List.append_nil])
      exact Or.inr ⟨front, ha, hne, (exists_decimal_append_iff front hne m).mp ⟨n, hn⟩⟩
  · rintro (⟨front, hb, hne, hfront⟩ | ⟨front, ha, hne, hfront⟩)
    · obtain ⟨m, hm⟩ := (exists_decimal_append_iff front hne 0).mpr hfront
      exact ⟨m, 0, by rw [hm, hb, List.append_assoc]⟩
    · obtain ⟨n, hn⟩ := (exists_decimal_append_iff front hne 0).mpr hfront
      exact ⟨0, n, by rw [hn, ha, List.append_assoc]⟩

end Decimal
