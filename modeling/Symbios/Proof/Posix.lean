import Symbios.Model.Posix

/-!
# Cursor and size of intercepted streams

`fread` and `fwrite` hand a request on only when it ends inside `file_size_`, so `fwrite` never makes a file longer,
and no call but `fopen` and `fseek` moves `file_pointer_` (`fwrite_keeps`). Of the laws of `stdio` that leaves the calls
that have nothing to move: `Still` says which, and along a run the laws hold as long as every call is one of these.
-/

namespace Symbios

open Overlay

/-! ## The laws -/

/-- The laws of `stdio` for one call: `w` and `w+` start from an empty file; a write at the pointer stores its `n`
bytes, moves the pointer behind them, extends the size and returns the count; a read of `n` bytes that the file has
delivers them, moves the pointer and returns the count. -/
def KeepsCursor (conf : MountPoints) (s : Posix) : PosixCall → Prop
  | .fopen fh filename mode =>
    ∀ s', s.fopen conf fh filename mode = some s' → mode = .w ∨ mode = .wPlus →
      s'.files.content filename = [] ∧
      ∃ stat, s'.fileDescriptorMap fh = some stat ∧ stat.filename = filename ∧ stat.filePointer = 0 ∧ stat.fileSize = 0
  | .fwrite ptr size count stream =>
    ∀ stat, s.fileDescriptorMap stream = some stat → stat.mode ≠ .r →
      ∀ n, size.toNat * count.toNat = n → n < 2 ^ 64 → n ≤ ptr.length →
      ∃ s' stat', s.fwrite ptr size count stream = some (count, s') ∧
        s'.files = s.files.storeRequest (ptr.take n) { id := stat.filename, position := stat.filePointer.toNat } ∧
        s'.fileDescriptorMap stream = some stat' ∧ stat'.filePointer.toNat = stat.filePointer.toNat + n ∧
        stat'.fileSize.toNat = max stat.fileSize.toNat (stat.filePointer.toNat + n)
  | .fread size count stream =>
    ∀ stat, s.fileDescriptorMap stream = some stat →
      ∀ n, size.toNat * count.toNat = n → stat.filePointer.toNat + n ≤ (s.files.content stat.filename).length →
      s.fread size count stream =
        some (count, ((s.files.content stat.filename).drop stat.filePointer.toNat).take n) ∧
      ∃ stat', (s.after conf (.fread size count stream)).fileDescriptorMap stream = some stat' ∧
        stat'.filePointer.toNat = stat.filePointer.toNat + n ∧ stat'.fileSize = stat.fileSize
  | .fseek _ _ _ => True
  | .fclose _ => True

/-- The calls that have nothing to move: `w` of a file without bytes, a write of count 0 inside the size, a read of no
bytes that returns its count (which is 0 inside the size, and behind it the -1 of the refusal). -/
def Still (conf : MountPoints) (s : Posix) : PosixCall → Prop
  | .fopen _ filename mode => mode = .w → (conf.intercept filename).isSome → s.files.content filename = []
  | .fwrite ptr size count stream =>
    ∀ stat, s.fileDescriptorMap stream = some stat → stat.mode ≠ .r → size.toNat * count.toNat < 2 ^ 64 →
      size.toNat * count.toNat ≤ ptr.length → count = 0 ∧ stat.filePointer ≤ stat.fileSize
  | .fread size count stream =>
    ∀ stat, s.fileDescriptorMap stream = some stat →
      stat.filePointer.toNat + size.toNat * count.toNat ≤ (s.files.content stat.filename).length →
      size.toNat * count.toNat = 0 ∧ if stat.filePointer ≤ stat.fileSize then count = 0 else count = -1
  | .fseek _ _ _ => True
  | .fclose _ => True

/-- Every call of a run is as `P` says, in the state it is made in. -/
def Along (conf : MountPoints) (P : Posix → PosixCall → Prop) : Posix → List PosixCall → Prop
  | _, [] => True
  | s, call :: calls => P s call ∧ Along conf P (s.after conf call) calls

theorem Along.congr {conf : MountPoints} {P Q : Posix → PosixCall → Prop} (h : ∀ s call, P s call ↔ Q s call)
    (s : Posix) (calls : List PosixCall) : Along conf P s calls ↔ Along conf Q s calls := by
  induction calls generalizing s with
  | nil => exact Iff.rfl
  | cons call calls ih => exact and_congr (h s call) (ih _)

/-! ## The calls -/

section calls

variable {conf : MountPoints} {s : Posix}

theorem fopen_w {fh : Nat} {filename : CharStruct} {index : UInt16} (h : conf.intercept filename = some index) :
    s.fopen conf fh filename .w = some (s.updateStat fh
      { filename, fileSize := s.files.size { id := filename, storageIndex := index.toNat }, mode := .w,
        storageIndex := index }) := by
  simp [Posix.fopen, h, Posix.updateOnOpen]

theorem fopen_wPlus {fh : Nat} {filename : CharStruct} {index : UInt16} (h : conf.intercept filename = some index) :
    s.fopen conf fh filename .wPlus = some
      (({ s with files := s.files.delete { id := filename, storageIndex := index.toNat } } : Posix).updateStat fh
        { filename, mode := .wPlus, storageIndex := index }) := by
  simp [Posix.fopen, h, Posix.updateOnOpen]

/-- Without bytes to move a request is only turned down with the pointer behind the size. -/
theorem request_nothing (stat : PosixStat) {size count : UInt64} (h : size * count = 0) :
    stat.request size count =
      if stat.filePointer ≤ stat.fileSize then some { id := stat.filename, position := stat.filePointer.toNat }
      else none := by
  rw [PosixStat.request, h, UInt64.add_zero]
  by_cases hle : stat.filePointer ≤ stat.fileSize
  · rw [if_neg (UInt64.not_lt.mpr hle), if_pos hle]
    rfl
  · rw [if_pos (UInt64.not_le.mp hle), if_neg hle]

/-- What `request` lets through never makes the file longer, so a write changes no entry of the table. -/
theorem fwrite_keeps {ptr : List UInt8} {size count value : UInt64} {stream : Nat} {s' : Posix}
    (h : s.fwrite ptr size count stream = some (value, s')) : s'.fileDescriptorMap = s.fileDescriptorMap := by
  obtain ⟨stat, -, hstat⟩ := Option.map_eq_some_iff.mp h
  by_cases hlt : stat.fileSize < stat.filePointer + size * count
  · simp only [PosixStat.request, hlt, if_true, Prod.mk.injEq] at hstat
    rw [← hstat.2]
  · have hsum : ¬ size * count + stat.filePointer > stat.fileSize := by rwa [UInt64.add_comm]
    simp only [PosixStat.request, hlt, if_false, hsum, Prod.mk.injEq] at hstat
    rw [← hstat.2]

theorem fwrite_nothing {ptr : List UInt8} {size count : UInt64} {stream : Nat} {stat : PosixStat}
    (hstat : s.fileDescriptorMap stream = some stat) (h : size * count = 0) :
    s.fwrite ptr size count stream = some (if stat.filePointer ≤ stat.fileSize then 0 else -1, s) := by
  rw [Posix.fwrite, hstat, Option.map_some, request_nothing stat h]
  by_cases hle : stat.filePointer ≤ stat.fileSize
  · have hsum : ¬ stat.filePointer > stat.fileSize := UInt64.not_lt.mpr hle
    simp [hle, h, hsum, Files.storeRequest]
  · simp [hle]

theorem fread_nothing {size count : UInt64} {stream : Nat} {stat : PosixStat}
    (hstat : s.fileDescriptorMap stream = some stat) (h : size * count = 0) :
    s.fread size count stream = some (if stat.filePointer ≤ stat.fileSize then 0 else -1, []) := by
  rw [Posix.fread, hstat, Option.map_some, request_nothing stat h]
  by_cases hle : stat.filePointer ≤ stat.fileSize
  · simp [hle, h, Files.locateRequest]
  · simp [hle]

theorem mul_eq_zero_of_toNat {size count : UInt64} (h : size.toNat * count.toNat = 0) : size * count = 0 := by
  rw [← UInt64.toNat_inj, UInt64.toNat_mul, h]
  rfl

/-! ## When a call keeps the laws -/

theorem keepsCursor_fopen (fh : Nat) (filename : CharStruct) (mode : OpenMode) :
    KeepsCursor conf s (.fopen fh filename mode) ↔ Still conf s (.fopen fh filename mode) := by
  constructor
  · intro h hw hsome
    obtain ⟨index, hindex⟩ := Option.isSome_iff_exists.mp hsome
    subst hw
    exact (h _ (fopen_w hindex) (.inl rfl)).1
  · intro h s' hopen hmode
    obtain ⟨index, hindex, -⟩ := Option.map_eq_some_iff.mp hopen
    rcases hmode with hw | hwPlus
    · have hempty : s.files.content filename = [] := h hw (by rw [hindex]; rfl)
      rw [hw, fopen_w hindex, Option.some.injEq] at hopen
      subst hopen
      refine ⟨hempty, _, Function.update_self .., rfl, rfl, ?_⟩
      simp [Files.size, hempty]
    · rw [hwPlus, fopen_wPlus hindex, Option.some.injEq] at hopen
      subst hopen
      refine ⟨?_, _, Function.update_self .., rfl, rfl, rfl⟩
      simp [Posix.updateStat, Files.content, Files.delete]

theorem keepsCursor_fwrite (ptr : List UInt8) (size count : UInt64) (stream : Nat) :
    KeepsCursor conf s (.fwrite ptr size count stream) ↔ Still conf s (.fwrite ptr size count stream) := by
  constructor
  · intro h stat hstat hmode hfits hptr
    obtain ⟨s', stat', hwrite, -, hstat', hpointer, hsize⟩ := h stat hstat hmode _ rfl hfits hptr
    -- the entry is the old one, so nothing was written
    rw [fwrite_keeps hwrite, hstat, Option.some.injEq] at hstat'
    subst hstat'
    have hzero : size.toNat * count.toNat = 0 := by omega
    have hle : stat.filePointer ≤ stat.fileSize := UInt64.le_iff_toNat_le.mpr (by omega)
    rw [fwrite_nothing hstat (mul_eq_zero_of_toNat hzero), if_pos hle, Option.some.injEq, Prod.mk.injEq] at hwrite
    exact ⟨hwrite.1.symm, hle⟩
  · rintro h stat hstat hmode n hn hfits hptr
    subst hn
    obtain ⟨hcount, hle⟩ := h stat hstat hmode hfits hptr
    have hzero : size.toNat * count.toNat = 0 := by
      rw [hcount]
      rfl
    have hle' := UInt64.le_iff_toNat_le.mp hle
    refine ⟨s, stat, ?_, ?_, hstat, by omega, by omega⟩
    · rw [fwrite_nothing hstat (mul_eq_zero_of_toNat hzero), if_pos hle, hcount]
    · rw [hzero, List.take_zero, Files.storeRequest, if_pos rfl]

theorem keepsCursor_fread (size count : UInt64) (stream : Nat) :
    KeepsCursor conf s (.fread size count stream) ↔ Still conf s (.fread size count stream) := by
  constructor
  · intro h stat hstat havailable
    obtain ⟨hread, stat', hstat', hpointer, -⟩ := h stat hstat _ rfl havailable
    rw [Posix.after, hstat, Option.some.injEq] at hstat'
    subst hstat'
    have hzero : size.toNat * count.toNat = 0 := by omega
    refine ⟨hzero, ?_⟩
    rw [fread_nothing hstat (mul_eq_zero_of_toNat hzero), Option.some.injEq, Prod.mk.injEq] at hread
    by_cases hle : stat.filePointer ≤ stat.fileSize
    · rw [if_pos hle] at hread ⊢
      exact hread.1.symm
    · rw [if_neg hle] at hread ⊢
      exact hread.1.symm
  · intro h stat hstat n hn havailable
    subst hn
    obtain ⟨hzero, hcount⟩ := h stat hstat havailable
    refine ⟨?_, stat, hstat, by omega, rfl⟩
    rw [fread_nothing hstat (mul_eq_zero_of_toNat hzero), hzero, List.take_zero]
    by_cases hle : stat.filePointer ≤ stat.fileSize
    · rw [if_pos hle] at hcount ⊢
      rw [hcount]
    · rw [if_neg hle] at hcount ⊢
      rw [hcount]

theorem keepsCursor_iff_still (s : Posix) (call : PosixCall) : KeepsCursor conf s call ↔ Still conf s call := by
  cases call with
  | fopen fh filename mode => exact keepsCursor_fopen fh filename mode
  | fseek stream offset origin => exact Iff.rfl
  | fread size count stream => exact keepsCursor_fread size count stream
  | fwrite ptr size count stream => exact keepsCursor_fwrite ptr size count stream
  | fclose stream => exact Iff.rfl

end calls

/-! ## Runs -/

/-- Along every run, whatever the streams and files are at the start: the calls keep the laws of `stdio` if and only if
each of them has nothing to move. -/
theorem stdio_iff_still (conf : MountPoints) (s : Posix) (calls : List PosixCall) :
    Along conf (KeepsCursor conf) s calls ↔ Along conf (Still conf) s calls :=
  Along.congr keepsCursor_iff_still s calls

/-- No stream and no file. -/
def unopened : Posix := ⟨fun _ => none, fun _ => none⟩

/-- The configuration file is `c`, and files under `/` are intercepted. -/
def rootMount : MountPoints := ⟨[99], [(0, .fileIo, [47])]⟩

/-- A file `/f` is opened with `w+` and one byte is written: the write is turned down. -/
theorem stdio_first_write :
    ¬ Along rootMount (KeepsCursor rootMount) unopened [.fopen 1 [47, 102] .wPlus, .fwrite [7] 1 1 1] := by
  rintro ⟨-, hwrite, -⟩
  obtain ⟨s', -, hresult, -⟩ := hwrite ⟨[47, 102], 0, 0, .wPlus, 0⟩ (by decide +kernel) (by decide) 1 (by decide)
    (by decide) (by decide)
  have hvalue : (Posix.fwrite _ [7] 1 1 1).map Prod.fst = some 1 := congrArg (Option.map Prod.fst) hresult
  exact absurd hvalue (by decide +kernel)

end Symbios
