import Symbios.Base.Wire

/-!
# The MessagePack format

The byte format of the MessagePack specification as an instance of `Wire`. A `Token` is the lead of an
object (its kind and a number: the value of an integer, or the length of a string, array or map) and is
written in the shortest form the specification has for it. Numbers beyond the largest form (integers of
more than 64 bits, lengths of more than 32 bits) have no MessagePack form at all; they are written in
unary behind the reserved byte `0xc1`, so that the format is total.
-/

namespace Msgpack

/-! ## Tokens -/

inductive Kind where
  | nat | neg | str | arr | map
deriving DecidableEq

/-- The lead of an object. `num .neg n` is the integer `-n - 1`. -/
inductive Token where
  | bool (b : Bool)
  | num (kind : Kind) (n : Nat)
deriving DecidableEq

/-- Big-endian, `w` bytes. -/
def bigEndian : Nat → Nat → List UInt8
  | 0, _ => []
  | w + 1, n => UInt8.ofNat (n / 256 ^ w) :: bigEndian w (n % 256 ^ w)

def ofBigEndian (bytes : List UInt8) : Nat := bytes.foldl (fun acc c => 256 * acc + c.toNat) 0

/-- The forms with an explicit number: lead byte and width in bytes. -/
def forms : Kind → List (UInt8 × Nat)
  | .nat => [(0xcc, 1), (0xcd, 2), (0xce, 4), (0xcf, 8)]
  | .neg => [(0xd0, 1), (0xd1, 2), (0xd2, 4), (0xd3, 8)]
  | .str => [(0xd9, 1), (0xda, 2), (0xdb, 4)]
  | .arr => [(0xdc, 2), (0xdd, 4)]
  | .map => [(0xde, 2), (0xdf, 4)]

/-- How many numbers of a kind fit into a lead byte. -/
def fixCount : Kind → Nat
  | .nat => 128
  | .neg => 32
  | .str => 32
  | .arr => 16
  | .map => 16

/-- The lead byte that holds the number itself. -/
def fixByte (kind : Kind) (n : Nat) : UInt8 :=
  match kind with
  | .nat => UInt8.ofNat n
  | .neg => UInt8.ofNat (0xff - n)
  | .str => UInt8.ofNat (0xa0 + n)
  | .arr => UInt8.ofNat (0x90 + n)
  | .map => UInt8.ofNat (0x80 + n)

/-- The numbers a `w`-byte form holds: negative integers keep the sign bit. -/
def formLimit (kind : Kind) (w : Nat) : Nat := if kind = .neg then 256 ^ w / 2 else 256 ^ w

/-- The number as it stands in a `w`-byte form: two's complement for negative integers. -/
def payload (kind : Kind) (w n : Nat) : Nat := if kind = .neg then 256 ^ w - 1 - n else n

def kindByte : Kind → UInt8
  | .nat => 0 | .neg => 1 | .str => 2 | .arr => 3 | .map => 4

/-- The first form that holds `n`. -/
def pickForm (kind : Kind) (n : Nat) : Option (UInt8 × Nat) :=
  (forms kind).find? fun form => n < formLimit kind form.2

def encToken : Token → List UInt8
  | .bool false => [0xc2]
  | .bool true => [0xc3]
  | .num kind n =>
    if n < fixCount kind then [fixByte kind n]
    else match pickForm kind n with
      | some form => form.1 :: bigEndian form.2 (payload kind form.2 n)
      | none => 0xc1 :: kindByte kind :: (List.replicate n 1 ++ [0])

/-- Number of leading ones, and what follows the zero behind them. -/
def unary : List UInt8 → Option (Nat × List UInt8)
  | [] => none
  | c :: rest => if c = 0 then some (0, rest) else (unary rest).map fun r => (r.1 + 1, r.2)

/-- The form a lead byte announces. -/
def leadForm (c : UInt8) : Option (Kind × Nat) :=
  [Kind.nat, .neg, .str, .arr, .map].findSome? fun kind =>
    ((forms kind).find? fun form => form.1 = c).map fun form => (kind, form.2)

def kindOf (c : UInt8) : Option Kind := [Kind.nat, .neg, .str, .arr, .map].find? fun kind => kindByte kind = c

/-- What follows the reserved byte: a kind and a number in unary. -/
def decReserved : List UInt8 → Option (Token × List UInt8)
  | [] => none
  | k :: rest => (kindOf k).bind fun kind => (unary rest).map fun r => (.num kind r.1, r.2)

def decToken : List UInt8 → Option (Token × List UInt8)
  | [] => none
  | c :: rest =>
    if c < 0x80 then some (.num .nat c.toNat, rest)
    else if c < 0x90 then some (.num .map (c.toNat - 0x80), rest)
    else if c < 0xa0 then some (.num .arr (c.toNat - 0x90), rest)
    else if c < 0xc0 then some (.num .str (c.toNat - 0xa0), rest)
    else if 0xe0 ≤ c then some (.num .neg (0xff - c.toNat), rest)
    else if c = 0xc2 then some (.bool false, rest)
    else if c = 0xc3 then some (.bool true, rest)
    else if c = 0xc1 then decReserved rest
    else (leadForm c).bind fun form =>
      if form.2 ≤ rest.length then
        some (.num form.1 (payload form.1 form.2 (ofBigEndian (rest.take form.2))), rest.drop form.2)
      else none

/-! ### Tokens round-trip and are self-delimiting -/

theorem bigEndian_length (w n : Nat) : (bigEndian w n).length = w := by
  induction w generalizing n with
  | zero => rfl
  | succ w ih => simp [bigEndian, ih]

theorem foldl_bigEndian (w n acc : Nat) (h : n < 256 ^ w) :
    (bigEndian w n).foldl (fun acc c => 256 * acc + c.toNat) acc = 256 ^ w * acc + n := by
  induction w generalizing n acc with
  | zero =>
    simp only [bigEndian, List.foldl_nil, pow_zero] at h ⊢
    omega
  | succ w ih =>
    have hq : n / 256 ^ w < 256 := Nat.div_lt_of_lt_mul (by rw [pow_succ] at h; exact h)
    rw [bigEndian, List.foldl_cons, ih _ _ (Nat.mod_lt _ (Nat.pow_pos (by norm_num))), UInt8.toNat_ofNat',
      Nat.mod_eq_of_lt hq, Nat.mul_add, Nat.add_assoc, Nat.div_add_mod, pow_succ]
    ring

theorem ofBigEndian_bigEndian (w n : Nat) (h : n < 256 ^ w) : ofBigEndian (bigEndian w n) = n := by
  rw [ofBigEndian, foldl_bigEndian w n 0 h, Nat.mul_zero, Nat.zero_add]

theorem foldl_bytes (bytes : List UInt8) (acc : Nat) :
    bytes.foldl (fun acc c => 256 * acc + c.toNat) acc = 256 ^ bytes.length * acc + ofBigEndian bytes := by
  induction bytes generalizing acc with
  | nil => simp [ofBigEndian]
  | cons c bytes ih =>
    rw [ofBigEndian, List.foldl_cons, List.foldl_cons, ih, ih, List.length_cons, pow_succ]
    ring

theorem ofBigEndian_cons (c : UInt8) (bytes : List UInt8) :
    ofBigEndian (c :: bytes) = 256 ^ bytes.length * c.toNat + ofBigEndian bytes := by
  rw [ofBigEndian, List.foldl_cons, foldl_bytes, Nat.mul_zero, Nat.zero_add]

theorem ofBigEndian_lt (bytes : List UInt8) : ofBigEndian bytes < 256 ^ bytes.length := by
  induction bytes with
  | nil => exact Nat.one_pos
  | cons c bytes ih =>
    rw [ofBigEndian_cons, List.length_cons, pow_succ]
    calc 256 ^ bytes.length * c.toNat + ofBigEndian bytes
        < 256 ^ bytes.length * c.toNat + 256 ^ bytes.length := Nat.add_lt_add_left ih _
      _ = 256 ^ bytes.length * (c.toNat + 1) := rfl
      _ ≤ 256 ^ bytes.length * 256 := Nat.mul_le_mul_left _ c.toNat_lt

theorem bigEndian_ofBigEndian (bytes : List UInt8) : bigEndian bytes.length (ofBigEndian bytes) = bytes := by
  induction bytes with
  | nil => rfl
  | cons c bytes ih =>
    have hlt := ofBigEndian_lt bytes
    rw [List.length_cons, bigEndian, ofBigEndian_cons, Nat.mul_add_div (Nat.pow_pos (by norm_num)),
      Nat.div_eq_of_lt hlt, Nat.add_zero, UInt8.ofNat_toNat, Nat.mul_add_mod, Nat.mod_eq_of_lt hlt, ih]

theorem formLimit_le (kind : Kind) (w : Nat) : formLimit kind w ≤ 256 ^ w := by
  unfold formLimit
  split
  · exact Nat.div_le_self _ _
  · exact le_refl _

theorem payload_lt {kind : Kind} {w n : Nat} (h : n < formLimit kind w) : payload kind w n < 256 ^ w := by
  have := formLimit_le kind w
  unfold payload
  split <;> omega

theorem payload_payload {kind : Kind} {w n : Nat} (h : n < formLimit kind w) :
    payload kind w (payload kind w n) = n := by
  have := formLimit_le kind w
  unfold payload
  split <;> omega

theorem pickForm_spec {kind : Kind} {n : Nat} {form : UInt8 × Nat} (h : pickForm kind n = some form) :
    form ∈ forms kind ∧ n < formLimit kind form.2 :=
  ⟨List.mem_of_find?_eq_some h, by simpa using List.find?_some h⟩

/-- A lead byte with an explicit number is none of the short leads, and announces its form. -/
theorem leadForm_forms : ∀ kind : Kind, ∀ form ∈ forms kind, leadForm form.1 = some (kind, form.2) ∧
    ¬ form.1 < 0x80 ∧ ¬ form.1 < 0x90 ∧ ¬ form.1 < 0xa0 ∧ ¬ form.1 < 0xc0 ∧ ¬ 0xe0 ≤ form.1 ∧
    form.1 ≠ 0xc2 ∧ form.1 ≠ 0xc3 ∧ form.1 ≠ 0xc1 := by
  intro kind
  cases kind <;> decide

theorem decToken_form {kind : Kind} {form : UInt8 × Nat} (h : form ∈ forms kind) (rest : List UInt8) :
    decToken (form.1 :: rest) =
      if form.2 ≤ rest.length then
        some (.num kind (payload kind form.2 (ofBigEndian (rest.take form.2))), rest.drop form.2)
      else none := by
  obtain ⟨hlead, h1, h2, h3, h4, h5, h6, h7, h8⟩ := leadForm_forms kind form h
  rw [decToken, if_neg h1, if_neg h2, if_neg h3, if_neg h4, if_neg h5, if_neg h6, if_neg h7, if_neg h8, hlead]
  rfl

theorem decToken_fix {kind : Kind} {n : Nat} (h : n < fixCount kind) (rest : List UInt8) :
    decToken (fixByte kind n :: rest) = some (.num kind n, rest) := by
  have hlt : ∀ a b : Nat, UInt8.ofNat a < UInt8.ofNat b ↔ a % 256 < b % 256 := fun a b => by
    rw [UInt8.lt_iff_toNat_lt, UInt8.toNat_ofNat', UInt8.toNat_ofNat']
  have hle : ∀ a b : Nat, UInt8.ofNat a ≤ UInt8.ofNat b ↔ a % 256 ≤ b % 256 := fun a b => by
    rw [UInt8.le_iff_toNat_le, UInt8.toNat_ofNat', UInt8.toNat_ofNat']
  have h80 : (0x80 : UInt8) = UInt8.ofNat 0x80 := rfl
  have h90 : (0x90 : UInt8) = UInt8.ofNat 0x90 := rfl
  have ha0 : (0xa0 : UInt8) = UInt8.ofNat 0xa0 := rfl
  have hc0 : (0xc0 : UInt8) = UInt8.ofNat 0xc0 := rfl
  have he0 : (0xe0 : UInt8) = UInt8.ofNat 0xe0 := rfl
  cases kind <;> simp only [fixCount] at h <;> simp only [fixByte, decToken, h80, h90, ha0, hc0, he0, hlt, hle]
  case nat => rw [if_pos (by omega), UInt8.toNat_ofNat', Nat.mod_eq_of_lt (by omega)]
  case neg =>
    rw [if_neg (by omega), if_neg (by omega), if_neg (by omega), if_neg (by omega), if_pos (by omega),
      UInt8.toNat_ofNat', Nat.mod_eq_of_lt (by omega), Nat.sub_sub_self (by omega)]
  case str =>
    rw [if_neg (by omega), if_neg (by omega), if_neg (by omega), if_pos (by omega), UInt8.toNat_ofNat',
      Nat.mod_eq_of_lt (by omega), Nat.add_sub_cancel_left]
  case arr =>
    rw [if_neg (by omega), if_neg (by omega), if_pos (by omega), UInt8.toNat_ofNat',
      Nat.mod_eq_of_lt (by omega), Nat.add_sub_cancel_left]
  case map =>
    rw [if_neg (by omega), if_pos (by omega), UInt8.toNat_ofNat', Nat.mod_eq_of_lt (by omega),
      Nat.add_sub_cancel_left]

theorem unary_replicate (n : Nat) (rest : List UInt8) :
    unary (List.replicate n 1 ++ 0 :: rest) = some (n, rest) := by
  induction n with
  | zero => simp [unary]
  | succ n ih =>
    rw [List.replicate_succ, List.cons_append, unary, if_neg (by decide), ih]
    rfl

theorem unary_short (n k : Nat) : unary (List.replicate n 1 |>.take k) = none := by
  rw [List.take_replicate]
  generalize min k n = m
  induction m with
  | zero => rfl
  | succ m ih =>
    rw [List.replicate_succ, unary, if_neg (by decide), ih]
    rfl

theorem decToken_reserved (kind : Kind) (rest : List UInt8) :
    decToken (0xc1 :: kindByte kind :: rest) = (unary rest).map fun r => (.num kind r.1, r.2) := by
  cases kind <;> rfl

theorem decToken_encToken (token : Token) (rest : List UInt8) :
    decToken (encToken token ++ rest) = some (token, rest) := by
  cases token with
  | bool b => cases b <;> rfl
  | num kind n =>
    by_cases hfix : n < fixCount kind
    · rw [encToken, if_pos hfix]
      exact decToken_fix hfix rest
    · rw [encToken, if_neg hfix]
      cases hform : pickForm kind n with
      | none =>
        simp only [List.cons_append, List.append_assoc, List.nil_append]
        rw [decToken_reserved, unary_replicate]
        rfl
      | some form =>
        obtain ⟨hmem, hlimit⟩ := pickForm_spec hform
        simp only [List.cons_append]
        have hlen := bigEndian_length form.2 (payload kind form.2 n)
        rw [decToken_form hmem, if_pos (by rw [List.length_append]; omega),
          List.take_left' hlen, List.drop_left' hlen, ofBigEndian_bigEndian _ _ (payload_lt hlimit),
          payload_payload hlimit]

theorem encToken_ne_nil (token : Token) : encToken token ≠ [] := by
  cases token with
  | bool b => cases b <;> simp [encToken]
  | num kind n =>
    rw [encToken]
    split
    · simp
    · split <;> simp

theorem decToken_short (token : Token) (n : Nat) (h : n < (encToken token).length) :
    decToken ((encToken token).take n) = none := by
  cases n with
  | zero => rfl
  | succ n =>
    cases token with
    | bool b => cases b <;> simp [encToken] at h
    | num kind k =>
      by_cases hfix : k < fixCount kind
      · simp [encToken, if_pos hfix] at h
      · rw [encToken, if_neg hfix] at h ⊢
        cases hform : pickForm kind k with
        | none =>
          simp only [hform, List.length_cons, List.length_append, List.length_replicate,
            List.length_nil] at h
          cases n with
          | zero => rfl
          | succ n =>
            simp only [List.take_succ_cons]
            rw [decToken_reserved, List.take_append_of_le_length (by simp; omega), unary_short]
            rfl
        | some form =>
          obtain ⟨hmem, -⟩ := pickForm_spec hform
          simp only [hform, List.length_cons, bigEndian_length] at h
          simp only [List.take_succ_cons]
          rw [decToken_form hmem, if_neg (by rw [List.length_take, bigEndian_length]; omega)]

/-! ## Objects -/

/-- The lead of an object. -/
def leadOf : Obj → Token
  | .bool b => .bool b
  | .int (.ofNat n) => .num .nat n
  | .int (.negSucc n) => .num .neg n
  | .str s => .num .str s.length
  | .array items => .num .arr items.length
  | .map entries => .num .map entries.length

mutual

def enc : Obj → List UInt8
  | .bool b => encToken (leadOf (.bool b))
  | .int z => encToken (leadOf (.int z))
  | .str s => encToken (leadOf (.str s)) ++ s
  | .array items => encToken (leadOf (.array items)) ++ encItems items
  | .map entries => encToken (leadOf (.map entries)) ++ encEntries entries

def encItems : List Obj → List UInt8
  | [] => []
  | o :: items => enc o ++ encItems items

def encEntry : Obj × Obj → List UInt8
  | (k, v) => enc k ++ enc v

def encEntries : List (Obj × Obj) → List UInt8
  | [] => []
  | e :: entries => encEntry e ++ encEntries entries

end

/-- Reads `count` consecutive values with `read`. -/
def decMany {α : Type} (read : List UInt8 → Option (α × List UInt8)) :
    Nat → List UInt8 → Option (List α × List UInt8)
  | 0, bytes => some ([], bytes)
  | count + 1, bytes =>
    (read bytes).bind fun r => (decMany read count r.2).map fun q => (r.1 :: q.1, q.2)

/-- Reads a key and a value. -/
def decEntry (read : List UInt8 → Option (Obj × List UInt8)) (bytes : List UInt8) :
    Option ((Obj × Obj) × List UInt8) :=
  (read bytes).bind fun k => (read k.2).map fun v => ((k.1, v.1), v.2)

/-- What follows a lead. -/
def decBody (read : List UInt8 → Option (Obj × List UInt8)) : Token → List UInt8 → Option (Obj × List UInt8)
  | .bool b, rest => some (.bool b, rest)
  | .num .nat n, rest => some (.int (.ofNat n), rest)
  | .num .neg n, rest => some (.int (.negSucc n), rest)
  | .num .str n, rest => if n ≤ rest.length then some (.str (rest.take n), rest.drop n) else none
  | .num .arr n, rest => (decMany read n rest).map fun r => (.array r.1, r.2)
  | .num .map n, rest => (decMany (decEntry read) n rest).map fun r => (.map r.1, r.2)

/-- Reads an object nested at most `depth` deep. -/
def decDepth : Nat → List UInt8 → Option (Obj × List UInt8)
  | 0, _ => none
  | depth + 1, bytes => (decToken bytes).bind fun r => decBody (decDepth depth) r.1 r.2

/-- The nesting of an object is bounded by the bytes it takes, so the length of the input is depth enough. -/
def dec (bytes : List UInt8) : Option (Obj × List UInt8) := decDepth bytes.length bytes

/-! ### Reading back a sequence of values -/

section many

variable {α : Type} (read : List UInt8 → Option (α × List UInt8)) (f : α → List UInt8)

/-- `read` finds what `f` wrote, or gives up. -/
def Sound (x : α) : Prop := ∀ rest, read (f x ++ rest) = none ∨ read (f x ++ rest) = some (x, rest)

/-- `read` does not find a value cut short. -/
def Strict (x : α) : Prop := ∀ n < (f x).length, read ((f x).take n) = none

variable {read f}

theorem decMany_complete (l : List α) (h : ∀ x ∈ l, ∀ rest, read (f x ++ rest) = some (x, rest))
    (rest : List UInt8) : decMany read l.length (l.flatMap f ++ rest) = some (l, rest) := by
  induction l with
  | nil => rfl
  | cons x l ih =>
    rw [List.length_cons, decMany, List.flatMap_cons, List.append_assoc, h x (by simp)]
    simp only [Option.bind_some]
    rw [ih (fun y hy => h y (by simp [hy]))]
    rfl

theorem decMany_sound (l : List α) (h : ∀ x ∈ l, Sound read f x) (rest : List UInt8) :
    decMany read l.length (l.flatMap f ++ rest) = none ∨
      decMany read l.length (l.flatMap f ++ rest) = some (l, rest) := by
  induction l with
  | nil => exact Or.inr rfl
  | cons x l ih =>
    rw [List.length_cons, decMany, List.flatMap_cons, List.append_assoc]
    rcases h x (by simp) (l.flatMap f ++ rest) with hx | hx
    · rw [hx]
      exact Or.inl rfl
    · rw [hx, Option.bind_some]
      rcases ih (fun y hy => h y (by simp [hy])) with hl | hl <;> rw [hl]
      · exact Or.inl rfl
      · exact Or.inr rfl

theorem decMany_short (l : List α) (hsound : ∀ x ∈ l, Sound read f x)
    (hstrict : ∀ x ∈ l, Strict read f x) (n : Nat) (hn : n < (l.flatMap f).length) :
    decMany read l.length ((l.flatMap f).take n) = none := by
  induction l generalizing n with
  | nil => simp at hn
  | cons x l ih =>
    rw [List.flatMap_cons, List.length_append] at hn
    rw [List.length_cons, decMany, List.flatMap_cons]
    by_cases hcut : n < (f x).length
    · rw [List.take_append_of_le_length (by omega), hstrict x (by simp) n hcut]
      rfl
    · rw [List.take_append, List.take_of_length_le (by omega)]
      rcases hsound x (by simp) ((l.flatMap f).take (n - (f x).length)) with hx | hx
      · rw [hx]
        rfl
      · rw [hx, Option.bind_some,
          ih (fun y hy => hsound y (by simp [hy])) (fun y hy => hstrict y (by simp [hy])) _ (by omega)]
        rfl

end many

theorem decEntry_sound {read : List UInt8 → Option (Obj × List UInt8)} {e : Obj × Obj}
    (hk : Sound read enc e.1) (hv : Sound read enc e.2) : Sound (decEntry read) encEntry e := by
  intro rest
  obtain ⟨k, v⟩ := e
  rw [encEntry, decEntry, List.append_assoc]
  rcases hk (enc v ++ rest) with h | h <;> rw [h]
  · exact Or.inl rfl
  · rw [Option.bind_some]
    rcases hv rest with h | h <;> rw [h]
    · exact Or.inl rfl
    · exact Or.inr rfl

theorem decEntry_strict {read : List UInt8 → Option (Obj × List UInt8)} {e : Obj × Obj}
    (hk : Sound read enc e.1) (hks : Strict read enc e.1) (hvs : Strict read enc e.2) :
    Strict (decEntry read) encEntry e := by
  intro n hn
  obtain ⟨k, v⟩ := e
  rw [encEntry, List.length_append] at hn
  rw [encEntry, decEntry]
  by_cases hcut : n < (enc k).length
  · rw [List.take_append_of_le_length (by omega), hks n hcut]
    rfl
  · rw [List.take_append, List.take_of_length_le (by omega)]
    rcases hk ((enc v).take (n - (enc k).length)) with h | h <;> rw [h]
    · rfl
    · rw [Option.bind_some, hvs _ (show n - (enc k).length < (enc v).length by omega)]
      rfl

theorem encItems_eq (items : List Obj) : encItems items = items.flatMap enc := by
  induction items with
  | nil => rfl
  | cons o items ih => rw [encItems, ih, List.flatMap_cons]

theorem encEntries_eq (entries : List (Obj × Obj)) : encEntries entries = entries.flatMap encEntry := by
  induction entries with
  | nil => rfl
  | cons e entries ih => rw [encEntries, ih, List.flatMap_cons]

/-- The bytes behind the lead of an object. -/
def body : Obj → List UInt8
  | .bool _ => []
  | .int _ => []
  | .str s => s
  | .array items => items.flatMap enc
  | .map entries => entries.flatMap encEntry

theorem enc_eq (o : Obj) : enc o = encToken (leadOf o) ++ body o := by
  cases o with
  | bool b => rw [enc, body, List.append_nil]
  | int z => rw [enc, body, List.append_nil]
  | str s => rw [enc, body]
  | array items => rw [enc, body, encItems_eq]
  | map entries => rw [enc, body, encEntries_eq]

/-! ### Objects round-trip and are self-delimiting -/

theorem decDepth_enc (depth : Nat) (o : Obj) (rest : List UInt8) :
    decDepth (depth + 1) (enc o ++ rest) = decBody (decDepth depth) (leadOf o) (body o ++ rest) := by
  rw [decDepth, enc_eq, List.append_assoc, decToken_encToken]
  rfl

theorem length_mem_flatMap {α : Type} {f : α → List UInt8} {l : List α} {x : α} (h : x ∈ l) :
    (f x).length ≤ (l.flatMap f).length := by
  obtain ⟨front, back, rfl⟩ := List.append_of_mem h
  simp only [List.flatMap_append, List.flatMap_cons, List.length_append]
  omega

theorem decDepth_complete (depth : Nat) : ∀ o, (enc o).length ≤ depth → ∀ rest,
    decDepth depth (enc o ++ rest) = some (o, rest) := by
  induction depth with
  | zero =>
    intro o h
    have := encToken_ne_nil (leadOf o)
    rw [enc_eq, List.length_append, Nat.le_zero, Nat.add_eq_zero_iff, List.length_eq_zero_iff] at h
    exact absurd h.1 this
  | succ depth ih =>
    intro o h rest
    have hlead := List.length_pos_iff.mpr (encToken_ne_nil (leadOf o))
    rw [enc_eq, List.length_append] at h
    have hbody : (body o).length ≤ depth := by omega
    clear h hlead
    rw [decDepth_enc]
    cases o with
    | bool b => rfl
    | int z => cases z <;> rfl
    | str s =>
      simp only [leadOf, body, decBody]
      rw [if_pos (by simp), List.take_left' rfl, List.drop_left' rfl]
    | array items =>
      simp only [leadOf, body, decBody] at hbody ⊢
      rw [decMany_complete items fun x hx => ih x (by have := length_mem_flatMap (f := enc) hx; omega)]
      rfl
    | map entries =>
      simp only [leadOf, body, decBody] at hbody ⊢
      rw [decMany_complete entries (f := encEntry)]
      · rfl
      · rintro ⟨k, v⟩ he rest'
        have hlen := length_mem_flatMap (f := encEntry) he
        rw [encEntry, List.length_append] at hlen
        rw [encEntry, decEntry, List.append_assoc, ih k (by omega), Option.bind_some, ih v (by omega)]
        rfl

theorem decDepth_sound (depth : Nat) : ∀ o, Sound (decDepth depth) enc o := by
  induction depth with
  | zero => exact fun o rest => Or.inl rfl
  | succ depth ih =>
    intro o rest
    rw [decDepth_enc]
    cases o with
    | bool b => exact Or.inr rfl
    | int z => cases z <;> exact Or.inr rfl
    | str s =>
      simp only [leadOf, body, decBody]
      rw [if_pos (by simp), List.take_left' rfl, List.drop_left' rfl]
      exact Or.inr rfl
    | array items =>
      simp only [leadOf, body, decBody]
      rcases decMany_sound items (fun x _ => ih x) rest with h | h <;> rw [h]
      · exact Or.inl rfl
      · exact Or.inr rfl
    | map entries =>
      simp only [leadOf, body, decBody]
      rcases decMany_sound entries (fun e _ => decEntry_sound (ih e.1) (ih e.2)) rest with h | h <;> rw [h]
      · exact Or.inl rfl
      · exact Or.inr rfl

theorem decDepth_strict (depth : Nat) : ∀ o, Strict (decDepth depth) enc o := by
  induction depth with
  | zero => exact fun o n _ => rfl
  | succ depth ih =>
    intro o n hn
    rw [enc_eq, List.length_append] at hn
    by_cases hlead : n < (encToken (leadOf o)).length
    · rw [decDepth, enc_eq, List.take_append_of_le_length (by omega), decToken_short _ _ hlead]
      rfl
    · rw [decDepth, enc_eq, List.take_append, List.take_of_length_le (by omega), decToken_encToken,
        Option.bind_some]
      have hcut : n - (encToken (leadOf o)).length < (body o).length := by omega
      revert hcut
      generalize n - (encToken (leadOf o)).length = m
      intro hcut
      cases o with
      | bool b => simp [body] at hcut
      | int z => simp [body] at hcut
      | str s =>
        simp only [leadOf, body, decBody] at hcut ⊢
        rw [if_neg (by rw [List.length_take]; omega)]
      | array items =>
        simp only [leadOf, body, decBody] at hcut ⊢
        rw [decMany_short items (fun x _ => decDepth_sound depth x) (fun x _ => ih x) m hcut]
        rfl
      | map entries =>
        simp only [leadOf, body, decBody] at hcut ⊢
        rw [decMany_short entries (f := encEntry)
          (fun e _ => decEntry_sound (decDepth_sound depth e.1) (decDepth_sound depth e.2))
          (fun e _ => decEntry_strict (decDepth_sound depth e.1) (ih e.1) (ih e.2)) m hcut]
        rfl

theorem length_flatMap_sum {α : Type} (write : α → List UInt8) (l : List α) :
    (l.flatMap write).length = (l.map fun x => (write x).length).sum := by
  simp [List.length_flatMap]

/-! ### Header lengths -/

/-- The length of the lead of a container with `n` items. -/
def headerLength (kind : Kind) (n : Nat) : Nat := (encToken (.num kind n)).length

theorem headerLength_map_eq (n : Nat) : headerLength .map n =
    if n < 16 then 1 else if n < 256 ^ 2 then 3 else if n < 256 ^ 4 then 5 else n + 3 := by
  have h2 : formLimit .map 2 = 256 ^ 2 := rfl
  have h4 : formLimit .map 4 = 256 ^ 4 := rfl
  rw [headerLength, encToken, pickForm, forms]
  by_cases h16 : n < 16
  · rw [if_pos (show n < fixCount .map from h16), if_pos h16]
    rfl
  · rw [if_neg (show ¬ n < fixCount .map from h16), if_neg h16]
    by_cases hw2 : n < 256 ^ 2
    · rw [if_pos hw2, List.find?_cons_of_pos (by rw [h2]; simpa using hw2)]
      simp [bigEndian_length]
    · rw [if_neg hw2, List.find?_cons_of_neg (by rw [h2]; simpa using hw2)]
      by_cases hw4 : n < 256 ^ 4
      · rw [if_pos hw4, List.find?_cons_of_pos (by rw [h4]; simpa using hw4)]
        simp [bigEndian_length]
      · rw [if_neg hw4, List.find?_cons_of_neg (by rw [h4]; simpa using hw4)]
        simp

theorem headerLength_map_mono : Monotone (headerLength .map) := by
  intro a b hab
  rw [headerLength_map_eq, headerLength_map_eq]
  split_ifs <;> omega

/-- MessagePack as a wire format. -/
instance format : Wire where
  enc := enc
  dec := dec
  dec_enc o rest := decDepth_complete _ o (by rw [List.length_append]; omega) rest
  dec_short o n h := decDepth_strict _ o n h
  arrayHeader := headerLength .arr
  mapHeader := headerLength .map
  mapHeader_mono := headerLength_map_mono
  length_array items := by
    rw [enc_eq, List.length_append, body, length_flatMap_sum]
    rfl
  length_map entries := by
    rw [enc_eq, List.length_append, body, length_flatMap_sum]
    congr 3
    funext e
    rw [encEntry, List.length_append]

end Msgpack
