import Symbios.Proof.Posix

/-!
# Seeks and the guard of a read

`UpdateOnSeek` adds a signed offset to an unsigned pointer, subtracts it from the size, and ignores it in append mode.
`Reaches` says for which offsets the pointer is then where `stdio` has it (`seeksTo_iff`), and along runs of such seeks
it is the cursor computed over the integers (`pointer_eq_cursor`). The guard of `fread` adds and multiplies modulo
2^64, so it keeps reads inside the file exactly as long as the sum does not wrap below the size (`request_inside_iff`).
-/

namespace Symbios

/-! ## Signed offsets -/

section offsets

variable (p : UInt64) (offset : Int64)

theorem toUInt64_toNat : (offset.toUInt64.toNat : ℤ) = offset.toInt % 2 ^ 64 := by
  have hcond : offset.toInt = _ := BitVec.toInt_eq_toNat_cond offset.toBitVec
  have hlt := offset.toUInt64.toNat_lt
  have heq : offset.toBitVec.toNat = offset.toUInt64.toNat := rfl
  rw [heq] at hcond
  split at hcond <;> omega

theorem add_offset_toNat : ((p + offset.toUInt64).toNat : ℤ) = (p.toNat + offset.toInt) % 2 ^ 64 := by
  have hoffset := toUInt64_toNat offset
  rw [UInt64.toNat_add]
  omega

theorem sub_offset_toNat : ((p - offset.toUInt64).toNat : ℤ) = (p.toNat - offset.toInt) % 2 ^ 64 := by
  have hoffset := toUInt64_toNat offset
  have hlt := offset.toUInt64.toNat_lt
  rw [UInt64.toNat_sub]
  omega

end offsets

/-! ## One seek -/

/-- Where an origin counts from. -/
def PosixStat.base (stat : PosixStat) : Origin → Option UInt64
  | .seekSet => some 0
  | .seekCur => some stat.filePointer
  | .seekEnd => some stat.fileSize
  | .other => none

/-- `a` and `a+`. -/
def PosixStat.Appends (stat : PosixStat) : Prop := stat.mode = .aPlus ∨ stat.mode = .a

instance (stat : PosixStat) : Decidable stat.Appends := inferInstanceAs (Decidable (_ ∨ _))

/-- The law of `stdio` for a seek: a position that is not negative is taken and 0 returned, any other is refused. -/
def SeeksTo (s : Posix) (stream : Nat) (offset : Int64) (origin : Origin) : Prop :=
  ∀ stat base, s.fileDescriptorMap stream = some stat → stat.base origin = some base →
    if 0 ≤ (base.toNat : ℤ) + offset.toInt then
      ∃ p : UInt64, (p.toNat : ℤ) = base.toNat + offset.toInt ∧
        s.updateOnSeek stream offset origin = (0, s.updateStat stream { stat with filePointer := p })
    else s.updateOnSeek stream offset origin = (-1, s)

/-- When `UpdateOnSeek` keeps that law. An append stream stays where it is and returns its size as an `int`; any other
takes every position modulo 2^64, and counts backwards from the end. -/
def PosixStat.Reaches (stat : PosixStat) (base : UInt64) (offset : Int64) (origin : Origin) : Prop :=
  if stat.Appends then
    if 0 ≤ (base.toNat : ℤ) + offset.toInt then
      (stat.filePointer.toNat : ℤ) = base.toNat + offset.toInt ∧ stat.fileSize.toNat % 2 ^ 32 = 0
    else stat.fileSize.toNat % 2 ^ 32 = 2 ^ 32 - 1
  else
    0 ≤ (base.toNat : ℤ) + offset.toInt ∧ (base.toNat : ℤ) + offset.toInt < 2 ^ 64 ∧
      (origin = .seekEnd → offset.toInt = 0 ∨ offset.toInt = -2 ^ 63)

/-- The pointer that `UpdateOnSeek` leaves. -/
def PosixStat.moved (stat : PosixStat) (offset : Int64) : Origin → UInt64
  | .seekCur => stat.filePointer + offset.toUInt64
  | .seekSet => offset.toUInt64
  | .seekEnd => stat.fileSize - offset.toUInt64
  | .other => stat.filePointer

section seek

variable {s : Posix} {stream : Nat} {stat : PosixStat} {offset : Int64} {origin : Origin} {base : UInt64}

theorem updateStat_self (h : s.fileDescriptorMap stream = some stat) : s.updateStat stream stat = s := by
  rw [Posix.updateStat, ← h, Function.update_eq_self]

theorem updateStat_inj {stat' : PosixStat} : s.updateStat stream stat = s.updateStat stream stat' ↔ stat = stat' := by
  constructor
  · intro h
    have hmap := congrFun (congrArg Posix.fileDescriptorMap h) stream
    simpa [Posix.updateStat] using hmap
  · intro h
    rw [h]

theorem updateOnSeek_append (h : s.fileDescriptorMap stream = some stat) (hmode : stat.Appends) :
    s.updateOnSeek stream offset origin = (stat.fileSize.toUInt32.toInt32, s) := by
  simp only [Posix.updateOnSeek, h]
  exact if_pos hmode

theorem updateOnSeek_moved (h : s.fileDescriptorMap stream = some stat) (hmode : ¬ stat.Appends) :
    s.updateOnSeek stream offset origin =
      (0, s.updateStat stream { stat with filePointer := stat.moved offset origin }) := by
  simp only [Posix.updateOnSeek, h]
  refine (if_neg hmode).trans ?_
  cases origin with
  | seekSet => rfl
  | seekCur => rfl
  | seekEnd => rfl
  | other => exact congrArg (Prod.mk 0) (updateStat_self h).symm

/-- The size as an `int`. -/
theorem toInt32_eq_iff (size : UInt64) (value : Int32) :
    size.toUInt32.toInt32 = value ↔ size.toNat % 2 ^ 32 = value.toUInt32.toNat := by
  rw [← UInt64.toNat_toUInt32, UInt32.toNat_inj]
  constructor
  · intro h
    rw [← h, UInt32.toUInt32_toInt32]
  · intro h
    rw [h, Int32.toInt32_toUInt32]

/-- The pointer is where it was meant to be. -/
theorem moved_eq_iff (hbase : stat.base origin = some base) :
    (stat.moved offset origin).toNat = (base.toNat : ℤ) + offset.toInt ↔
      0 ≤ (base.toNat : ℤ) + offset.toInt ∧ (base.toNat : ℤ) + offset.toInt < 2 ^ 64 ∧
        (origin = .seekEnd → offset.toInt = 0 ∨ offset.toInt = -2 ^ 63) := by
  have hlt := offset.toInt_lt
  have hge := offset.le_toInt
  cases origin with
  | seekSet =>
    cases hbase
    have hsum := toUInt64_toNat offset
    simp only [PosixStat.moved, reduceCtorEq, false_imp_iff, and_true, UInt64.toNat_zero]
    omega
  | seekCur =>
    cases hbase
    have hsum := add_offset_toNat stat.filePointer offset
    simp only [PosixStat.moved, reduceCtorEq, false_imp_iff, and_true]
    omega
  | seekEnd =>
    cases hbase
    have hsum := sub_offset_toNat stat.fileSize offset
    simp only [PosixStat.moved, true_imp_iff]
    omega
  | other => cases hbase

theorem seeksTo_of_base (h : s.fileDescriptorMap stream = some stat) (hbase : stat.base origin = some base) :
    SeeksTo s stream offset origin ↔
      if 0 ≤ (base.toNat : ℤ) + offset.toInt then
        ∃ p : UInt64, (p.toNat : ℤ) = base.toNat + offset.toInt ∧
          s.updateOnSeek stream offset origin = (0, s.updateStat stream { stat with filePointer := p })
      else s.updateOnSeek stream offset origin = (-1, s) := by
  constructor
  · intro hseek
    exact hseek stat base h hbase
  · intro hseek stat' base' h' hbase'
    cases h.symm.trans h'
    cases hbase.symm.trans hbase'
    exact hseek

/-- An append stream has to be there already, and its size has to look like the value to return. -/
theorem seeksTo_append_iff (h : s.fileDescriptorMap stream = some stat) (hbase : stat.base origin = some base)
    (hmode : stat.Appends) :
    SeeksTo s stream offset origin ↔
      if 0 ≤ (base.toNat : ℤ) + offset.toInt then
        (stat.filePointer.toNat : ℤ) = base.toNat + offset.toInt ∧ stat.fileSize.toNat % 2 ^ 32 = 0
      else stat.fileSize.toNat % 2 ^ 32 = 2 ^ 32 - 1 := by
  rw [seeksTo_of_base h hbase]
  simp only [updateOnSeek_append h hmode, Prod.mk.injEq, toInt32_eq_iff]
  split
  · constructor
    · rintro ⟨p, hp, hsize, hself⟩
      have hpointer : stat.filePointer = p :=
        congrArg PosixStat.filePointer (updateStat_inj.mp ((updateStat_self h).trans hself))
      rw [hpointer]
      exact ⟨hp, hsize⟩
    · rintro ⟨hp, hsize⟩
      exact ⟨stat.filePointer, hp, hsize, (updateStat_self h).symm⟩
  · exact and_iff_left trivial

/-- Any other stream has to take the position that was meant; it never refuses one. -/
theorem seeksTo_moved_iff (h : s.fileDescriptorMap stream = some stat) (hbase : stat.base origin = some base)
    (hmode : ¬ stat.Appends) :
    SeeksTo s stream offset origin ↔ (stat.moved offset origin).toNat = (base.toNat : ℤ) + offset.toInt := by
  rw [seeksTo_of_base h hbase, updateOnSeek_moved h hmode]
  split
  · constructor
    · rintro ⟨p, hp, heq⟩
      have hpointer : stat.moved offset origin = p :=
        congrArg PosixStat.filePointer (updateStat_inj.mp (congrArg Prod.snd heq))
      rw [hpointer, hp]
    · intro hp
      exact ⟨_, hp, rfl⟩
  · rename_i hneg
    constructor
    · intro heq
      cases congrArg Prod.fst heq
    · intro hp
      omega

/-- A seek is as in `stdio` exactly when the position is one that the stream reaches. -/
theorem seeksTo_iff (h : s.fileDescriptorMap stream = some stat) (hbase : stat.base origin = some base) :
    SeeksTo s stream offset origin ↔ stat.Reaches base offset origin := by
  rw [PosixStat.Reaches]
  by_cases hmode : stat.Appends
  · rw [if_pos hmode]
    exact seeksTo_append_iff h hbase hmode
  · rw [if_neg hmode, ← moved_eq_iff hbase]
    exact seeksTo_moved_iff h hbase hmode

end seek

/-! ## The cursor -/

/-- The cursor over the integers after a seek, in a file of `size` bytes: it is never negative. -/
def cursor (size pointer : ℤ) (seek : Int64 × Origin) : ℤ :=
  match seek.2 with
  | .seekSet => if 0 ≤ 0 + seek.1.toInt then 0 + seek.1.toInt else pointer
  | .seekCur => if 0 ≤ pointer + seek.1.toInt then pointer + seek.1.toInt else pointer
  | .seekEnd => if 0 ≤ size + seek.1.toInt then size + seek.1.toInt else pointer
  | .other => pointer

/-- The stream has this size, and its pointer is at `position`. -/
def PointsAt (s : Posix) (stream : Nat) (size : UInt64) (position : ℤ) : Prop :=
  ∃ stat, s.fileDescriptorMap stream = some stat ∧ stat.fileSize = size ∧ stat.filePointer.toNat = position

section cursor

variable {s : Posix} {stream : Nat} {size : UInt64} {position : ℤ} {offset : Int64} {origin : Origin}

/-- A seek that keeps the law moves the pointer like the cursor. -/
theorem SeeksTo.pointsAt {stat : PosixStat} {base : UInt64} (hlaw : SeeksTo s stream offset origin)
    (h : s.fileDescriptorMap stream = some stat) (hbase : stat.base origin = some base) :
    PointsAt (s.updateOnSeek stream offset origin).2 stream stat.fileSize
      (if 0 ≤ (base.toNat : ℤ) + offset.toInt then (base.toNat : ℤ) + offset.toInt else stat.filePointer.toNat) := by
  have hseek := hlaw stat base h hbase
  by_cases hle : 0 ≤ (base.toNat : ℤ) + offset.toInt
  · rw [if_pos hle] at hseek ⊢
    obtain ⟨p, hp, heq⟩ := hseek
    rw [heq]
    exact ⟨_, Function.update_self .., rfl, hp⟩
  · rw [if_neg hle] at hseek ⊢
    rw [hseek]
    exact ⟨stat, h, rfl, rfl⟩

/-- An unknown origin moves nothing. -/
theorem updateOnSeek_other : (s.updateOnSeek stream offset .other).2 = s := by
  unfold Posix.updateOnSeek
  split
  · rfl
  · split <;> rfl

theorem PointsAt.seek (h : PointsAt s stream size position) (hlaw : SeeksTo s stream offset origin) :
    PointsAt (s.updateOnSeek stream offset origin).2 stream size (cursor size.toNat position (offset, origin)) := by
  obtain ⟨stat, hstat, rfl, rfl⟩ := h
  cases origin with
  | seekSet => exact hlaw.pointsAt hstat rfl
  | seekCur => exact hlaw.pointsAt hstat rfl
  | seekEnd => exact hlaw.pointsAt hstat rfl
  | other =>
    rw [updateOnSeek_other]
    exact ⟨stat, hstat, rfl, rfl⟩

end cursor

/-! ## Runs -/

/-- Every seek is as in `stdio`. -/
def SeekLaw (s : Posix) : PosixCall → Prop
  | .fseek stream offset origin => SeeksTo s stream offset origin
  | _ => True

/-- Every seek goes where its stream reaches. -/
def SeekReaches (s : Posix) : PosixCall → Prop
  | .fseek stream offset origin => ∀ stat base, s.fileDescriptorMap stream = some stat → stat.base origin = some base →
      stat.Reaches base offset origin
  | _ => True

/-- A read that is handed to the client ends inside the file, and asks for the bytes that were asked for. -/
def ReadInside (s : Posix) : PosixCall → Prop
  | .fread size count stream => ∀ stat source, s.fileDescriptorMap stream = some stat →
      stat.request size count = some source →
      stat.filePointer.toNat + size.toNat * count.toNat ≤ stat.fileSize.toNat ∧
        source.dataSize = size.toNat * count.toNat
  | _ => True

/-- The end of a read fits a `size_t`, unless what is left of it lies behind the end of the file. -/
def ReadFits (s : Posix) : PosixCall → Prop
  | .fread size count stream => ∀ stat, s.fileDescriptorMap stream = some stat →
      stat.filePointer.toNat + size.toNat * count.toNat < 2 ^ 64 ∨
        stat.fileSize.toNat < (stat.filePointer.toNat + size.toNat * count.toNat) % 2 ^ 64
  | _ => True

theorem seekLaw_iff (s : Posix) (call : PosixCall) : SeekLaw s call ↔ SeekReaches s call := by
  cases call with
  | fseek stream offset origin =>
    constructor
    · intro hlaw stat base h hbase
      exact (seeksTo_iff h hbase).mp hlaw
    · intro hreaches stat base h hbase
      exact (seeksTo_iff h hbase).mpr (hreaches stat base h hbase) stat base h hbase
  | _ => exact Iff.rfl

/-- The guard of a read is as good as the sum it computes. -/
theorem request_inside_iff (stat : PosixStat) (size count : UInt64) :
    (∀ source, stat.request size count = some source →
      stat.filePointer.toNat + size.toNat * count.toNat ≤ stat.fileSize.toNat ∧
        source.dataSize = size.toNat * count.toNat) ↔
      stat.filePointer.toNat + size.toNat * count.toNat < 2 ^ 64 ∨
        stat.fileSize.toNat < (stat.filePointer.toNat + size.toNat * count.toNat) % 2 ^ 64 := by
  have hsum : (stat.filePointer + size * count).toNat =
      (stat.filePointer.toNat + size.toNat * count.toNat) % 2 ^ 64 := by
    rw [UInt64.toNat_add, UInt64.toNat_mul, Nat.add_mod_mod]
  have hsize := stat.fileSize.toNat_lt
  simp only [PosixStat.request, UInt64.lt_iff_toNat_lt, hsum]
  by_cases hlt : stat.fileSize.toNat < (stat.filePointer.toNat + size.toNat * count.toNat) % 2 ^ 64
  · simp only [hlt, if_true, or_true, reduceCtorEq, false_imp_iff, implies_true]
  · simp only [hlt, if_false, or_false, Option.some.injEq, forall_eq', UInt64.toNat_mul]
    constructor
    · rintro ⟨hle, -⟩
      omega
    · intro hfits
      rw [Nat.mod_eq_of_lt hfits] at hlt
      exact ⟨by omega, Nat.mod_eq_of_lt (by omega)⟩

theorem readInside_iff (s : Posix) (call : PosixCall) : ReadInside s call ↔ ReadFits s call := by
  cases call with
  | fread size count stream =>
    constructor
    · intro hinside stat h
      exact (request_inside_iff stat size count).mp fun source => hinside stat source h
    · intro hfits stat source h
      exact (request_inside_iff stat size count).mpr (hfits stat h) source
  | _ => exact Iff.rfl

/-- The calls of a list of seeks. -/
def seekCalls (stream : Nat) (seeks : List (Int64 × Origin)) : List PosixCall :=
  seeks.map fun seek => .fseek stream seek.1 seek.2

/-- After seeks that keep the law the pointer is where the cursor is. -/
theorem pointer_eq_cursor {conf : MountPoints} {stream : Nat} {size : UInt64} (seeks : List (Int64 × Origin)) {s : Posix}
    {position : ℤ} (h : PointsAt s stream size position) (hlaw : Along conf SeekLaw s (seekCalls stream seeks)) :
    PointsAt ((seekCalls stream seeks).foldl (Posix.after conf) s) stream size
      (seeks.foldl (cursor size.toNat) position) := by
  induction seeks generalizing s position with
  | nil => exact h
  | cons seek seeks ih =>
    obtain ⟨hseek, hrest⟩ := hlaw
    have hafter : s.after conf (.fseek stream seek.1 seek.2) = (s.updateOnSeek stream seek.1 seek.2).2 := by
      obtain ⟨stat, hstat, -⟩ := h
      simp [Posix.after, Posix.fseek, hstat]
    apply ih _ hrest
    rw [hafter]
    exact h.seek hseek

theorem Along.of_append {conf : MountPoints} {P : Posix → PosixCall → Prop} {done rest : List PosixCall} {s : Posix}
    (h : Along conf P s (done ++ rest)) : Along conf P s done := by
  induction done generalizing s with
  | nil => trivial
  | cons call done ih => exact ⟨h.1, ih h.2⟩

/-- **Along every run the seeks are as in `stdio` if and only if each goes where its stream reaches; and in every state
of a list of such seeks the pointer is the cursor over the integers.** -/
theorem seeks_iff_reach (conf : MountPoints) (s : Posix) :
    (∀ calls, Along conf SeekLaw s calls ↔ Along conf SeekReaches s calls) ∧
    ∀ stream size position seeks, PointsAt s stream size position →
      Along conf SeekReaches s (seekCalls stream seeks) → ∀ done rest, done ++ rest = seeks →
        PointsAt ((seekCalls stream done).foldl (Posix.after conf) s) stream size
          (done.foldl (cursor size.toNat) position) := by
  refine ⟨Along.congr seekLaw_iff s, ?_⟩
  rintro stream size position seeks h hreaches done rest rfl
  rw [seekCalls, List.map_append] at hreaches
  exact pointer_eq_cursor done h ((Along.congr seekLaw_iff s _).mpr hreaches.of_append)

/-- **Along every run the reads that are handed to the client end inside the file and keep their length if and only if
the end of each fits a `size_t`, or is refused after the wrap.** -/
theorem reads_inside_iff (conf : MountPoints) (s : Posix) (calls : List PosixCall) :
    Along conf ReadInside s calls ↔ Along conf ReadFits s calls :=
  Along.congr readInside_iff s calls

/-! ## Forward, back and behind the start -/

/-- A file `/f` without bytes, opened to be read. -/
def openedFile : Posix := unopened.updateStat 1 ⟨[47, 102], 0, 0, .r, 0⟩

/-- Five bytes forward and two back. -/
theorem seek_forward :
    PointsAt ((seekCalls 1 [(5, .seekSet), (-2, .seekCur)]).foldl (Posix.after rootMount) openedFile) 1 0 3 := by
  refine (seeks_iff_reach rootMount openedFile).2 1 0 0 [(5, .seekSet), (-2, .seekCur)] ⟨_, rfl, rfl, rfl⟩
    ⟨?_, ?_, trivial⟩ _ [] rfl
  · intro stat base h hbase
    cases h
    cases hbase
    rw [PosixStat.Reaches, if_neg (by decide)]
    decide
  · intro stat base h hbase
    cases h
    cases hbase
    rw [PosixStat.Reaches, if_neg (by decide)]
    decide

/-- A file `/f` that is not there, opened to be read: the position -1 is taken as the largest `size_t`. -/
theorem seek_behind_start :
    ¬ Along rootMount SeekLaw unopened [.fopen 1 [47, 102] .r, .fseek 1 (-1) .seekSet] ∧
    ((([.fopen 1 [47, 102] .r, .fseek 1 (-1) .seekSet] : List PosixCall).foldl (Posix.after rootMount)
      unopened).fileDescriptorMap 1).map PosixStat.filePointer = some 18446744073709551615 := by
  constructor
  · rintro ⟨-, hseek, -⟩
    have hopened : (Posix.after rootMount unopened (.fopen 1 [47, 102] .r)).fileDescriptorMap 1 =
      some ⟨[47, 102], 0, 0, .r, 0⟩ := by decide +kernel
    have hreaches := (seeksTo_iff hopened rfl).mp hseek
    rw [PosixStat.Reaches, if_neg (by decide)] at hreaches
    exact absurd hreaches.1 (by decide)
  · decide +kernel

/-- One byte from there is handed on: its end is computed as 0. -/
theorem read_behind_start :
    ¬ Along rootMount ReadInside unopened [.fopen 1 [47, 102] .r, .fseek 1 (-1) .seekSet, .fread 1 1 1] := by
  rintro ⟨-, -, hread, -⟩
  have hinside := hread ⟨[47, 102], 18446744073709551615, 0, .r, 0⟩
    { id := [47, 102], position := 18446744073709551615, dataSize := 1 } (by decide +kernel) (by decide)
  revert hinside
  decide

end Symbios
