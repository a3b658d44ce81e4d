import Symbios.Model.RedisFile

/-!
# What a benchmark file on Redis keeps

`Write` copies into a string that it has just declared, and that is empty: the first turn of its loop leaves the string, at
every offset and for every buffer with a byte. So `Write` is defined when it has nothing to write (`write_isSome_iff`), and
these are the files that come back (`roundTrips_iff`). `Read` over blocks that are there in full is right when it starts
with a block or stays inside of one (`read_filled`); its first turn does not get shorter by the remainder (`read_leaves`).
-/

namespace Symbios

namespace RedisFile

/-! ## Turns -/

theorem bufSize_pos {size i : Nat} (hi : i < size) : 0 < bufSize size i := by
  unfold bufSize kBlockSize
  split <;> omega

theorem bufSize_le (size i : Nat) : bufSize size i ≤ size - i := by
  unfold bufSize
  split <;> omega

theorem bufSize_le_block (size i : Nat) : bufSize size i ≤ kBlockSize := by
  unfold bufSize
  split <;> omega

theorem copyOut_length {memory bytes : List UInt8} {pos n : Nat} (h : copyOut memory pos n = some bytes) :
    bytes.length = n := by
  by_cases hin : pos + n ≤ memory.length
  · rw [copyOut, if_pos hin] at h
    rw [← Option.some.inj h]
    simp only [List.length_take, List.length_drop]
    omega
  · rw [copyOut, if_neg hin] at h
    simp at h

theorem copyIn_nil {pos : Nat} {bytes : List UInt8} (hbytes : 0 < bytes.length) : copyIn [] pos bytes = none := by
  rw [copyIn, if_neg]
  simp only [List.length_nil]
  omega

/-- A turn of `Write` over an empty string. -/
theorem writeBlocks_nil {path buffer : List UInt8} {size i suffix rem : Nat} {context : RedisContext} (hi : i < size) :
    writeBlocks path buffer size i suffix rem [] context = none := by
  rw [writeBlocks, if_pos hi]
  rw [Option.bind_eq_bind, Option.bind_eq_none_iff]
  intro bytes hout
  have hbytes : 0 < bytes.length := copyOut_length hout ▸ bufSize_pos hi
  rw [copyIn_nil hbytes]
  rfl

theorem writeBlocks_done {path buffer block : List UInt8} {size i suffix rem : Nat} {context : RedisContext}
    (hi : ¬ i < size) : writeBlocks path buffer size i suffix rem block context = some context := by
  rw [writeBlocks, if_neg hi]

theorem readBlocks_done {path buffer : List UInt8} {size i suffix rem : Nat} {context : RedisContext}
    (hi : ¬ i < size) : readBlocks context path size i suffix rem buffer = some buffer := by
  rw [readBlocks, if_neg hi]

theorem write_isSome_iff (f : RedisFile) (context : RedisContext) (buffer : List UInt8) (size : Nat) :
    (f.write context buffer size).isSome ↔ size = 0 := by
  rw [write, Option.isSome_map]
  by_cases hsize : 0 < size
  · rw [writeBlocks_nil hsize]
    exact iff_of_false (by simp) (Nat.ne_of_gt hsize)
  · rw [writeBlocks_done hsize]
    simp only [Option.isSome_some, true_iff]
    omega

/-! ## Reads -/

/-- The bytes of a file at the positions from `x` on. -/
def bytesFrom (content : Nat → UInt8) (x n : Nat) : List UInt8 := (List.range' x n).map content

theorem bytesFrom_length (content : Nat → UInt8) (x n : Nat) : (bytesFrom content x n).length = n := by
  simp [bytesFrom]

theorem bytesFrom_append (content : Nat → UInt8) (x n k : Nat) :
    bytesFrom content x n ++ bytesFrom content (x + n) k = bytesFrom content x (n + k) := by
  rw [bytesFrom, bytesFrom, bytesFrom, ← List.map_append, List.range'_append_1]

/-- All blocks with a position before `e` are there in full. -/
def Filled (path : List UInt8) (context : RedisContext) (content : Nat → UInt8) (e : Nat) : Prop :=
  ∀ suffix, suffix * kBlockSize < e →
    context (blockPath path suffix) = some (bytesFrom content (suffix * kBlockSize) kBlockSize)

/-- Inside a block `memcpy` finds the bytes of the file. -/
theorem copyOut_block {content : Nat → UInt8} {x rem n : Nat} (h : rem + n ≤ kBlockSize) :
    copyOut (bytesFrom content x kBlockSize ++ [0]) rem n = some (bytesFrom content (x + rem) n) := by
  rw [copyOut, if_pos]
  · rw [List.drop_append_of_le_length, List.take_append_of_le_length, bytesFrom, bytesFrom, ← List.map_drop,
      ← List.map_take, List.drop_range', List.take_range'_of_length_ge (by omega), Nat.mul_one]
    · rw [List.length_drop, bytesFrom_length]
      omega
    · rw [bytesFrom_length]
      omega
  · rw [List.length_append, bytesFrom_length, List.length_singleton]
    omega

/-- The bytes of a turn come behind those of the turns before. -/
theorem copyIn_front {front rest bytes : List UInt8} {n : Nat} (hn : front.length = n) (h : bytes.length ≤ rest.length) :
    copyIn (front ++ rest) n bytes = some (front ++ bytes ++ rest.drop bytes.length) := by
  subst hn
  rw [copyIn, if_pos]
  · rw [List.take_left, List.drop_append, List.drop_eq_nil_of_le (by omega), Nat.add_sub_cancel_left, List.nil_append]
  · rw [List.length_append]
    omega

theorem bind_of_some {α β : Type} {o : Option α} {f : α → Option β} {a : α} (h : o = some a) : o.bind f = f a := by
  rw [h]
  rfl

section loop

variable {path rest : List UInt8} {context : RedisContext} {content : Nat → UInt8} {o size n suffix rem : Nat}

/-- A turn that stays inside its block. -/
theorem readBlocks_turn
    (hblock : context (blockPath path suffix) = some (bytesFrom content (suffix * kBlockSize) kBlockSize))
    (hlength : n + rest.length = size) (hn : n < size) (hplace : suffix * kBlockSize + rem = o + n)
    (hrem : rem + bufSize size n ≤ kBlockSize) :
    readBlocks context path size n suffix rem (bytesFrom content o n ++ rest) =
      readBlocks context path size (n + kBlockSize) (suffix + 1) 0
        (bytesFrom content o (n + bufSize size n) ++ rest.drop (bufSize size n)) := by
  have hbytes := bytesFrom_length content (o + n) (bufSize size n)
  have hrest : bufSize size n ≤ rest.length := by
    apply (bufSize_le size n).trans
    rw [← hlength, Nat.add_sub_cancel_left]
  have hout := @copyOut_block content (suffix * kBlockSize) rem (bufSize size n) hrem
  rw [hplace] at hout
  have hin : copyIn (bytesFrom content o n ++ rest) n (bytesFrom content (o + n) (bufSize size n)) =
      some (bytesFrom content o (n + bufSize size n) ++ rest.drop (bufSize size n)) := by
    rw [copyIn_front (bytesFrom_length content o n) (hbytes.trans_le hrest), hbytes, bytesFrom_append]
  rw [readBlocks, if_pos hn]
  exact (bind_of_some hblock).trans ((bind_of_some hout).trans (bind_of_some hin))

/-- The turns together, from one that stays inside its block: those behind it start with a block. -/
theorem readBlocks_filled (hfilled : Filled path context content (o + size)) (hlength : n + rest.length = size)
    (hplace : suffix * kBlockSize + rem = o + n) (hrem : n < size → rem + bufSize size n ≤ kBlockSize) :
    readBlocks context path size n suffix rem (bytesFrom content o n ++ rest) = some (bytesFrom content o size) := by
  induction hleft : size - n using Nat.strong_induction_on generalizing n suffix rem rest with
  | _ left ih =>
    by_cases hn : n < size
    · rw [readBlocks_turn (hfilled suffix (by omega)) hlength hn hplace (hrem hn)]
      have hpos := kBlockSize_pos
      by_cases hmore : n + kBlockSize < size
      · have hfull : bufSize size n = kBlockSize := if_pos hmore
        have hzero : rem = 0 := by
          have hturn := hrem hn
          omega
        rw [hfull]
        apply ih (size - (n + kBlockSize)) (by omega) _ _ _ rfl
        · rw [List.length_drop]
          omega
        · rw [Nat.succ_mul]
          omega
        · intro _
          rw [Nat.zero_add]
          exact bufSize_le_block _ _
      · have hlast : bufSize size n = size - n := if_neg hmore
        rw [hlast, readBlocks_done hmore, Nat.add_sub_cancel' hn.le, List.drop_eq_nil_of_le (by omega), List.append_nil]
    · have hsize : n = size := by omega
      have hnil : rest = [] := List.length_eq_zero_iff.mp (by omega)
      rw [readBlocks_done hn, hsize, hnil, List.append_nil]

end loop

/-- A read that starts with a block, or stays inside of one, returns the bytes of the file. -/
theorem read_filled (f : RedisFile) {context : RedisContext} {content : Nat → UInt8} (out : List UInt8)
    (hfilled : Filled f.path context content (f.off + out.length))
    (hfits : f.off % kBlockSize = 0 ∨ f.off % kBlockSize + out.length ≤ kBlockSize) :
    f.read context out out.length =
      some (bytesFrom content f.off out.length, f.seek ((f.off + out.length) % 2 ^ 64)) := by
  have hloop : readBlocks context f.path out.length 0 (f.off / kBlockSize) (f.off % kBlockSize)
      (bytesFrom content f.off 0 ++ out) = some (bytesFrom content f.off out.length) := by
    have hplace : f.off / kBlockSize * kBlockSize + f.off % kBlockSize = f.off + 0 := Nat.div_add_mod' _ _
    apply readBlocks_filled hfilled (Nat.zero_add _) hplace
    intro _
    rcases hfits with haligned | hinside
    · rw [haligned, Nat.zero_add]
      exact bufSize_le_block _ _
    · have hle := bufSize_le out.length 0
      omega
  rw [read]
  change (readBlocks context f.path out.length 0 _ _ (bytesFrom content f.off 0 ++ out)).map _ = _
  rw [hloop]
  rfl

/-- A first turn that passes the zero behind its block leaves the string. -/
theorem read_leaves (f : RedisFile) {context : RedisContext} {content : Nat → UInt8} (out : List UInt8)
    (hfilled : Filled f.path context content (f.off + out.length))
    (hleaves : kBlockSize + 1 < f.off % kBlockSize + bufSize out.length 0) :
    f.read context out out.length = none := by
  have hpos := kBlockSize_pos
  have hrem := Nat.mod_lt f.off hpos
  have hsize : 0 < out.length := by
    have hle := bufSize_le out.length 0
    omega
  have hplace := Nat.div_add_mod' f.off kBlockSize
  have hblock := hfilled (f.off / kBlockSize) (by omega)
  have hout : copyOut (bytesFrom content (f.off / kBlockSize * kBlockSize) kBlockSize ++ [0]) (f.off % kBlockSize)
      (bufSize out.length 0) = none := by
    rw [copyOut, if_neg]
    rw [List.length_append, bytesFrom_length, List.length_singleton]
    omega
  rw [read, readBlocks, if_pos hsize, Option.bind_eq_bind, bind_of_some hblock, hout]
  rfl

/-! ## Round trips -/

/-- The byte of a file at a position. -/
def byteAt (path : List UInt8) (context : RedisContext) (x : Nat) : Option UInt8 :=
  (context (blockPath path (x / kBlockSize))).bind fun block => block[x % kBlockSize]?

/-- What a write at `o` leaves outside its range. -/
def KeepsOutside (path : List UInt8) (before after : RedisContext) (o n : Nat) : Prop :=
  ∀ x, x < o ∨ o + n ≤ x → ∀ b, byteAt path before x = some b → byteAt path after x = some b

/-- `Seek`, `Write`, `Seek` and `Read` bring a buffer back. -/
def RoundTrips (f : RedisFile) (context : RedisContext) (o : Nat) (buffer : List UInt8) : Prop :=
  ∃ after g, (f.seek o).write context buffer buffer.length = some (after, g) ∧
    KeepsOutside f.path context after o buffer.length ∧
    ∀ out : List UInt8, out.length = buffer.length →
      ∃ g', (g.seek o).read after out buffer.length = some (buffer, g')

theorem not_roundTrips {f : RedisFile} {context : RedisContext} {o : Nat} {buffer : List UInt8} (h : buffer ≠ []) :
    ¬ RoundTrips f context o buffer := by
  rintro ⟨after, g, hwrite, -, -⟩
  have hsize : buffer.length = 0 := by
    rw [← write_isSome_iff (f.seek o) context buffer, hwrite]
    rfl
  exact h (List.length_eq_zero_iff.mp hsize)

theorem roundTrips_nil (f : RedisFile) (context : RedisContext) (o : Nat) : RoundTrips f context o [] := by
  refine ⟨context, { f.seek o with off := (o + 0) % 2 ^ 64 }, ?_, ?_, ?_⟩
  · rw [write, writeBlocks_done (by simp)]
    rfl
  · intro x _ b hb
    exact hb
  · intro out hout
    rw [List.length_nil, List.length_eq_zero_iff] at hout
    subst hout
    refine ⟨{ f.seek o with off := (o + 0) % 2 ^ 64 }, ?_⟩
    rw [read, readBlocks_done (by simp)]
    rfl

/-- **Benchmark files**: every file and store, every offset and every buffer. -/
theorem roundTrips_iff (f : RedisFile) (context : RedisContext) (o : Nat) (buffer : List UInt8) :
    RoundTrips f context o buffer ↔ buffer = [] := by
  constructor
  · intro h
    by_contra hbuffer
    exact not_roundTrips hbuffer h
  · intro h
    subst h
    exact roundTrips_nil f context o

theorem one_byte_lost :
    ¬ ∀ (f : RedisFile) (context : RedisContext) (o : Nat) (buffer : List UInt8), RoundTrips f context o buffer := by
  intro h
  have hbyte : [(1 : UInt8)] ≠ [] := by simp
  exact not_roundTrips hbyte (h ⟨[102], 0⟩ (fun _ => some []) 0 [1])

end RedisFile

end Symbios
