import Symbios.Base.Decimal
import Symbios.Model.Arguments

/-!
# What a size argument denotes

`ToSize` takes the number at the front of its argument, as `std::stoul` finds it (`leadingNumber_iff`), and the unit of its
last character; what stands between them is not looked at. Of digits with at most one suffix that is the number they spell.
-/

namespace Symbios.Sizes

/-! ## Numbers at the front of a string -/

/-- The number that decimal digits spell. -/
def number (digits : List UInt8) : Nat := Nat.ofDigits 10 (digits.reverse.map fun c => c.toNat - 48)

/-- A sign, if there is one, and whether it is a minus. -/
def IsSign (sign : List UInt8) (negative : Bool) : Prop :=
  sign = [45] ∧ negative = true ∨ (sign = [] ∨ sign = [43]) ∧ negative = false

/-- Behind white space and at most one sign, up to a character that is no digit, `s` has digits that spell `n`. -/
def Leads (s : List UInt8) (negative : Bool) (n : Nat) : Prop :=
  ∃ space sign digits rest, s = space ++ (sign ++ (digits ++ rest)) ∧ (∀ c ∈ space, isSpace c) ∧
    IsSign sign negative ∧ digits ≠ [] ∧ (∀ c ∈ digits, isDigit c) ∧ (∀ c, rest.head? = some c → ¬ isDigit c) ∧
    n = number digits

theorem number_concat (digits : List UInt8) (c : UInt8) : number (digits ++ [c]) = 10 * number digits + (c.toNat - 48) := by
  rw [number, List.reverse_concat, List.map_cons, Nat.ofDigits_cons, ← number]
  simp [Nat.add_comm]

theorem foldl_number (digits : List UInt8) : digits.foldl (fun n c => 10 * n + (c.toNat - 48)) 0 = number digits := by
  induction digits using List.reverseRecOn with
  | nil => rfl
  | append_singleton digits c ih => rw [List.foldl_append, ih, number_concat, List.foldl_cons, List.foldl_nil]

theorem takeWhile_front {p : UInt8 → Bool} {front rest : List UInt8} (hfront : ∀ c ∈ front, p c)
    (hrest : ∀ c, rest.head? = some c → ¬ p c) : (front ++ rest).takeWhile p = front := by
  rw [List.takeWhile_append_of_pos hfront]
  cases rest with
  | nil => simp
  | cons c rest => rw [List.takeWhile_cons_of_neg (hrest c rfl), List.append_nil]

theorem dropWhile_front {p : UInt8 → Bool} {front rest : List UInt8} (hfront : ∀ c ∈ front, p c)
    (hrest : ∀ c, rest.head? = some c → ¬ p c) : (front ++ rest).dropWhile p = rest := by
  rw [List.dropWhile_append_of_pos hfront]
  cases rest with
  | nil => rfl
  | cons c rest => exact List.dropWhile_cons_of_neg (hrest c rfl)

/-- The sign of a number, and what is behind it. -/
def afterSign : List UInt8 → Bool × List UInt8
  | 45 :: rest => (true, rest)
  | 43 :: rest => (false, rest)
  | s => (false, s)

theorem leadingNumber_eq (s : List UInt8) :
    leadingNumber s =
      if (afterSign (s.dropWhile isSpace)).2.takeWhile isDigit = [] then none
      else some ((afterSign (s.dropWhile isSpace)).1, number ((afterSign (s.dropWhile isSpace)).2.takeWhile isDigit)) := by
  rw [← foldl_number]
  unfold leadingNumber
  generalize s.dropWhile isSpace = t
  dsimp only
  split
  next => rfl
  next => rfl
  next hminus hplus => rw [afterSign.eq_3 t hminus hplus]

theorem afterSign_split (s : List UInt8) : ∃ sign, s = sign ++ (afterSign s).2 ∧ IsSign sign (afterSign s).1 := by
  unfold afterSign
  split
  · exact ⟨[45], rfl, Or.inl ⟨rfl, rfl⟩⟩
  · exact ⟨[43], rfl, Or.inr ⟨Or.inr rfl, rfl⟩⟩
  · exact ⟨[], rfl, Or.inr ⟨Or.inl rfl, rfl⟩⟩

theorem afterSign_digit {sign rest : List UInt8} {negative : Bool} {c : UInt8} (hsign : IsSign sign negative)
    (hc : isDigit c) : afterSign (sign ++ c :: rest) = (negative, c :: rest) := by
  rcases hsign with ⟨rfl, rfl⟩ | ⟨rfl | rfl, rfl⟩
  · rfl
  · unfold afterSign
    split
    next heq =>
      obtain rfl := (List.cons.inj heq).1
      exact absurd hc (by decide)
    next heq =>
      obtain rfl := (List.cons.inj heq).1
      exact absurd hc (by decide)
    next => rfl
  · rfl

theorem isSpace_of_isDigit {c : UInt8} (hc : isDigit c) : ¬ isSpace c := by
  revert c
  decide +kernel

/-- `std::stoul` and `std::stoi` find the number at the front. -/
theorem leadingNumber_iff (s : List UInt8) (negative : Bool) (n : Nat) :
    leadingNumber s = some (negative, n) ↔ Leads s negative n := by
  constructor
  · intro h
    rw [leadingNumber_eq] at h
    split_ifs at h with hdigits
    obtain ⟨hnegative, hnumber⟩ := Prod.mk.inj (Option.some.inj h)
    obtain ⟨sign, hsplit, hsign⟩ := afterSign_split (s.dropWhile isSpace)
    generalize afterSign (s.dropWhile isSpace) = signed at *
    refine ⟨s.takeWhile isSpace, sign, signed.2.takeWhile isDigit, signed.2.dropWhile isDigit, ?_, ?_, ?_, hdigits, ?_, ?_,
      hnumber.symm⟩
    · rw [List.takeWhile_append_dropWhile, ← hsplit, List.takeWhile_append_dropWhile]
    · exact fun c hc => List.mem_takeWhile_imp hc
    · rwa [hnegative] at hsign
    · exact fun c hc => List.mem_takeWhile_imp hc
    · intro c hc
      have hhead := List.head?_dropWhile_not isDigit signed.2
      rw [hc] at hhead
      simpa using hhead
  · rintro ⟨space, sign, digits, rest, rfl, hspace, hsign, hne, hdigits, hrest, rfl⟩
    obtain ⟨d, digits, rfl⟩ := List.exists_cons_of_ne_nil hne
    have hd := hdigits d List.mem_cons_self
    have hdrop : (space ++ (sign ++ (d :: digits ++ rest))).dropWhile isSpace = sign ++ (d :: digits ++ rest) := by
      apply dropWhile_front hspace
      intro c hc
      rcases hsign with ⟨rfl, -⟩ | ⟨rfl | rfl, -⟩
      · obtain rfl := Option.some.inj hc
        decide
      · obtain rfl := Option.some.inj hc
        exact isSpace_of_isDigit hd
      · obtain rfl := Option.some.inj hc
        decide
    rw [leadingNumber_eq, hdrop, List.cons_append, afterSign_digit hsign hd]
    dsimp only
    rw [← List.cons_append, takeWhile_front hdigits hrest, if_neg hne]

theorem number_decimal (n : Nat) : number (Decimal.decimal n) = n := by
  have hdigit : ∀ d ∈ Decimal.digitList n, (Decimal.digitByte d).toNat - 48 = d := by
    intro d hd
    have hlt := Decimal.digitList_lt n d hd
    rw [Decimal.digitByte, UInt8.toNat_ofNat']
    omega
  have hmap : (Decimal.digitList n).map ((fun c : UInt8 => c.toNat - 48) ∘ Decimal.digitByte) = Decimal.digitList n :=
    (List.map_congr_left hdigit).trans (List.map_id _)
  rw [number, Decimal.decimal_eq, List.reverse_reverse, List.map_map, hmap, Decimal.ofDigits_digitList]

theorem isDigit_of_decimal {n : Nat} {c : UInt8} (hc : c ∈ Decimal.decimal n) : isDigit c := by
  obtain ⟨d, hd, rfl⟩ := Decimal.decimal_digits n c hc
  have hall : ∀ d < 10, isDigit (Decimal.digitByte d) := by decide
  exact hall d hd

/-- A numeral behind a sign is read back, whatever is behind it, as long as that is no digit. -/
theorem leads_decimal {sign : List UInt8} {negative : Bool} (hsign : IsSign sign negative) (n : Nat) {rest : List UInt8}
    (hrest : ∀ c, rest.head? = some c → ¬ isDigit c) : Leads (sign ++ (Decimal.decimal n ++ rest)) negative n :=
  ⟨[], sign, Decimal.decimal n, rest, rfl, by simp, hsign, Decimal.decimal_ne_nil n, fun _ hc => isDigit_of_decimal hc,
    hrest, (number_decimal n).symm⟩

theorem Leads.unique {s : List UInt8} {negative negative' : Bool} {n n' : Nat} (h : Leads s negative n)
    (h' : Leads s negative' n') : negative = negative' ∧ n = n' := by
  rw [← leadingNumber_iff] at h h'
  exact Prod.mk.inj (Option.some.inj (h.symm.trans h'))

/-! ## Sizes -/

/-- The size is `m`, without overflow. -/
def Returns (result : Except ArgFault UInt64) (m : Nat) : Prop := ∃ size, result = .ok size ∧ size.toNat = m

/-- An exception; nothing is undefined. -/
def Raises (result : Except ArgFault UInt64) : Prop := ∃ fault, result = .error fault ∧ fault ≠ .undefined

/-- What `std::stoul` makes of a number: with a minus it is negated modulo `2 ^ 64`. -/
def signed (negative : Bool) (n : Nat) : Nat := if negative then (2 ^ 64 - n) % 2 ^ 64 else n

/-- The unit a character stands for. -/
def unitOf (c : UInt8) : Nat :=
  if c = 107 ∨ c = 75 then 2 ^ 10 else if c = 109 ∨ c = 77 then 2 ^ 20 else if c = 103 ∨ c = 71 then 2 ^ 30 else 1

/-- The suffixes, and none, with their units. -/
def units : List (List UInt8 × Nat) :=
  [([], 1), ([107], 2 ^ 10), ([75], 2 ^ 10), ([109], 2 ^ 20), ([77], 2 ^ 20), ([103], 2 ^ 30), ([71], 2 ^ 30)]

/-- Digits that spell `n`, and at most one suffix, for `unit`. -/
def Spells (s : List UInt8) (n unit : Nat) : Prop :=
  ∃ digits suffix, s = digits ++ suffix ∧ digits ≠ [] ∧ (∀ c ∈ digits, isDigit c) ∧ n = number digits ∧
    (suffix, unit) ∈ units

/-- A size argument denotes the number it spells, if that fits, and is refused otherwise and if it spells none. -/
def DenotesSize (s : List UInt8) : Prop :=
  (∀ n unit, Spells s n unit →
    if n * unit < 2 ^ 64 then Returns (toSizeArg s) (n * unit) else Raises (toSizeArg s)) ∧
  ((∀ n unit, ¬ Spells s n unit) → Raises (toSizeArg s))

section sizes

variable {s : List UInt8} {c : UInt8} {negative : Bool} {n unit : Nat}

theorem stoul_returns (h : Leads s negative n) (hn : n < 2 ^ 64) : Returns (stoul s) (signed negative n) := by
  rw [← leadingNumber_iff] at h
  rw [stoul, h]
  dsimp only
  rw [if_pos hn]
  refine ⟨_, rfl, ?_⟩
  cases negative with
  | false => exact UInt64.toNat_ofNat_of_lt' hn
  | true =>
    rw [if_pos rfl, UInt64.toNat_neg, UInt64.toNat_ofNat_of_lt' hn]
    rfl

/-- A number that does not fit is refused, and so is a string without one. -/
theorem stoul_raises (h : ∀ negative n, Leads s negative n → 2 ^ 64 ≤ n) : Raises (stoul s) := by
  rw [stoul]
  cases hnumber : leadingNumber s with
  | none => exact ⟨.invalidArgument, rfl, by decide⟩
  | some found =>
    obtain ⟨negative, n⟩ := found
    have hlarge := h negative n ((leadingNumber_iff s negative n).mp hnumber)
    dsimp only
    rw [if_neg (not_lt.mpr hlarge)]
    exact ⟨.outOfRange, rfl, by decide⟩

theorem unitOf_pos (c : UInt8) : 0 < unitOf c := by
  unfold unitOf
  split_ifs <;> norm_num

theorem unitOf_lt (c : UInt8) : unitOf c < 2 ^ 64 := by
  unfold unitOf
  split_ifs <;> norm_num

theorem toSizeArg_eq (h : s.getLast? = some c) : toSizeArg s = (stoul s).map fun size => size * .ofNat (unitOf c) := by
  rw [toSizeArg, h]
  dsimp only
  unfold unitOf
  split_ifs
  · rfl
  · rfl
  · rfl
  · cases stoul s with
    | error fault => rfl
    | ok size => simp [Except.map]

theorem toSizeArg_raises (h : s.getLast? = some c) (hraises : Raises (stoul s)) : Raises (toSizeArg s) := by
  obtain ⟨fault, hfault, hdefined⟩ := hraises
  exact ⟨fault, by rw [toSizeArg_eq h, hfault]; rfl, hdefined⟩

theorem toSizeArg_returns (h : s.getLast? = some c) {v : Nat} (hv : Returns (stoul s) v) (hfits : v * unitOf c < 2 ^ 64) :
    Returns (toSizeArg s) (v * unitOf c) := by
  obtain ⟨size, hsize, rfl⟩ := hv
  refine ⟨size * .ofNat (unitOf c), by rw [toSizeArg_eq h, hsize]; rfl, ?_⟩
  rw [UInt64.toNat_mul, UInt64.toNat_ofNat_of_lt' (unitOf_lt c), Nat.mod_eq_of_lt hfits]

theorem unitOf_digit (h : isDigit c) : unitOf c = 1 := by
  revert c
  decide +kernel

/-- The number of a string that spells one is at its front, and its unit at its end. -/
theorem Spells.reads (h : Spells s n unit) : Leads s false n ∧
    ∃ c, s.getLast? = some c ∧ unitOf c = unit ∧ (isDigit c ∨ ([c], unit) ∈ units) := by
  obtain ⟨digits, suffix, rfl, hne, hdigits, rfl, hunit⟩ := h
  constructor
  · refine ⟨[], [], digits, suffix, rfl, by simp, Or.inr ⟨Or.inl rfl, rfl⟩, hne, hdigits, ?_, rfl⟩
    intro c hc
    have hsuffix : ∀ e ∈ units, ∀ c, e.1.head? = some c → ¬ isDigit c := by decide +kernel
    exact hsuffix _ hunit c hc
  · have hends : ∀ e ∈ units, e.1 = [] ∧ e.2 = 1 ∨ ∃ c, e.1 = [c] ∧ unitOf c = e.2 := by
      intro e he
      simp only [units, List.mem_cons, List.not_mem_nil, or_false] at he
      rcases he with rfl | rfl | rfl | rfl | rfl | rfl | rfl <;> simp [unitOf]
    rcases hends _ hunit with ⟨hsuffix, hone⟩ | ⟨c, hsuffix, hc⟩
    · obtain ⟨front, c, rfl⟩ := (List.eq_nil_or_concat digits).resolve_left hne
      dsimp only at hsuffix hone
      rw [hsuffix, hone]
      have hc := hdigits c (by simp)
      exact ⟨c, by simp, unitOf_digit hc, Or.inl hc⟩
    · dsimp only at hsuffix hc
      rw [hsuffix] at hunit ⊢
      exact ⟨c, by simp, hc, Or.inr hunit⟩

theorem toSizeArg_spelled (h : Spells s n unit) (hfits : n * unit < 2 ^ 64) : Returns (toSizeArg s) (n * unit) := by
  obtain ⟨hleads, c, hlast, rfl, -⟩ := h.reads
  have hn : n < 2 ^ 64 := (Nat.le_mul_of_pos_right n (unitOf_pos c)).trans_lt hfits
  exact toSizeArg_returns hlast (stoul_returns hleads hn) hfits

theorem Spells.unit_unique {n' unit' : Nat} (h : Spells s n unit) (h' : Spells s n' unit') : unit = unit' := by
  obtain ⟨-, c, hlast, rfl, -⟩ := h.reads
  obtain ⟨-, c', hlast', rfl, -⟩ := h'.reads
  rw [Option.some.inj (hlast.symm.trans hlast')]

/-- A number that is too large by itself is refused. -/
theorem Spells.raises (h : Spells s n unit) (hn : 2 ^ 64 ≤ n) : Raises (toSizeArg s) := by
  obtain ⟨hleads, c, hlast, -, -⟩ := h.reads
  apply toSizeArg_raises hlast
  apply stoul_raises
  intro negative n' h'
  exact (hleads.unique h').2 ▸ hn

/-- A number that converts is not refused, whatever the unit. -/
theorem Leads.not_raises (h : Leads s negative n) (hn : n < 2 ^ 64) (hne : s ≠ []) : ¬ Raises (toSizeArg s) := by
  rintro ⟨fault, hfault, -⟩
  obtain ⟨size, hsize, -⟩ := stoul_returns h hn
  rw [toSizeArg_eq (List.getLast?_eq_some_getLast hne), hsize] at hfault
  cases hfault

theorem not_denotesSize_nil : ¬ DenotesSize [] := by
  intro h
  obtain ⟨fault, hfault, hdefined⟩ := h.2 fun n unit hspells => by
    obtain ⟨-, c, hc, -⟩ := hspells.reads
    cases hc
  cases hfault
  exact hdefined rfl

end sizes

/-- A size argument is the number at its front times the unit of its last character. -/
theorem toSizeArg_reads (s : List UInt8) (c : UInt8) (hlast : s.getLast? = some c) :
    ((∀ negative n, Leads s negative n → 2 ^ 64 ≤ n) → Raises (toSizeArg s)) ∧
    (∀ negative n, Leads s negative n → n < 2 ^ 64 → signed negative n * unitOf c < 2 ^ 64 →
      Returns (toSizeArg s) (signed negative n * unitOf c)) ∧
    ∀ n unit, Spells s n unit →
      (n * unit < 2 ^ 64 → Returns (toSizeArg s) (n * unit)) ∧ (2 ^ 64 ≤ n → Raises (toSizeArg s)) := by
  refine ⟨?_, ?_, ?_⟩
  · intro h
    exact toSizeArg_raises hlast (stoul_raises h)
  · intro negative n h hn
    exact toSizeArg_returns hlast (stoul_returns h hn)
  · intro n unit h
    exact ⟨toSizeArg_spelled h, h.raises⟩

/-- `35k`. -/
theorem toSizeArg_reads_kilo : Returns (toSizeArg [51, 53, 107]) (35 * 2 ^ 10) := by
  obtain ⟨-, -, hspells⟩ := toSizeArg_reads [51, 53, 107] 107 rfl
  have hkilo : Spells [51, 53, 107] 35 (2 ^ 10) :=
    ⟨[51, 53], [107], rfl, by simp, by decide +kernel, by decide +kernel, by simp [units]⟩
  exact (hspells 35 (2 ^ 10) hkilo).1 (by norm_num)

/-- Which strings denote their size: not the empty one; and a number at the front of another either fits with the unit and
nothing else in the string, or is too large by itself. -/
theorem denotesSize_iff (s : List UInt8) :
    DenotesSize s ↔ s ≠ [] ∧ ∀ negative n, Leads s negative n → 2 ^ 64 ≤ n ∨ ∃ unit, Spells s n unit ∧ n * unit < 2 ^ 64 := by
  constructor
  · intro h
    have hne : s ≠ [] := by
      rintro rfl
      exact not_denotesSize_nil h
    refine ⟨hne, fun negative n hleads => or_iff_not_imp_left.mpr fun hn => ?_⟩
    have hreturned := hleads.not_raises (not_le.mp hn) hne
    by_contra hnone
    apply hreturned
    by_cases hspells : ∃ n' unit, Spells s n' unit
    · obtain ⟨n', unit, hspells⟩ := hspells
      obtain ⟨-, rfl⟩ := hspells.reads.1.unique hleads
      have hresult := h.1 n' unit hspells
      rwa [if_neg fun hfits => hnone ⟨unit, hspells, hfits⟩] at hresult
    · exact h.2 fun n' unit hspelled => hspells ⟨n', unit, hspelled⟩
  · rintro ⟨hne, hleads⟩
    constructor
    · intro n unit hspells
      split_ifs with hfits
      · exact toSizeArg_spelled hspells hfits
      · rcases hleads false n hspells.reads.1 with hn | ⟨unit', hspells', hfits'⟩
        · exact hspells.raises hn
        · rw [hspells.unit_unique hspells'] at hfits
          exact absurd hfits' hfits
    · intro hnone
      apply toSizeArg_raises (List.getLast?_eq_some_getLast hne)
      apply stoul_raises
      intro negative n h
      exact (hleads negative n h).resolve_right fun ⟨unit, hspells, _⟩ => hnone n unit hspells

/-- `1b` is taken for 1. -/
theorem size_with_letter : ¬ ∀ s, DenotesSize s := by
  intro h
  obtain ⟨fault, hfault, -⟩ := (h [49, 98]).2 fun n unit hspells => by
    obtain ⟨-, c, hc, -, hend⟩ := hspells.reads
    obtain rfl := Option.some.inj hc
    rcases hend with hdigit | hsuffix
    · exact absurd hdigit (by decide)
    · simp [units] at hsuffix
  have hsize : toSizeArg [49, 98] = .ok 1 := by decide +kernel
  rw [hsize] at hfault
  cases hfault

end Symbios.Sizes
