import Symbios.Model.PosixReplay
import Symbios.Proof.Replayer
import Symbios.Proof.Seeks

/-!
# A replay in POSIX mode moves no byte

The replayer opens its file with `w+`, and a stream that is opened so has size 0 and keeps it: `fwrite` and `fread`
refuse every byte (`Refusing`, `posixLine_idle`). So under the interception a whole replay stores nothing and reads
nothing, and all that the servers do for it is to delete the file (`posix_replay_idle`).
-/

namespace Symbios

open TraceReplayer
open Steps (Holding Apart)

/-! ## Calls in a row -/

section append

variable {mounts : MountPoints} {a b : List PosixCall} {s : Posix}

theorem idealCalls_append : idealCalls mounts (a ++ b) s =
    ((idealCalls mounts a s).1 ++ (idealCalls mounts b (idealCalls mounts a s).2).1,
      (idealCalls mounts b (idealCalls mounts a s).2).2) := by
  induction a generalizing s with
  | nil => rfl
  | cons call a ih =>
    rw [List.cons_append, idealCalls, ih]
    rfl

theorem allAdmissible_append {conf : ConfigurationManager} {names : Set CharStruct} :
    AllAdmissible conf mounts names (a ++ b) s ↔
      AllAdmissible conf mounts names a s ∧ AllAdmissible conf mounts names b (idealCalls mounts a s).2 := by
  induction a generalizing s with
  | nil => exact ⟨fun h => ⟨trivial, h⟩, And.right⟩
  | cons call a ih =>
    rw [List.cons_append, AllAdmissible, AllAdmissible, ih, and_assoc]
    rfl

end append

/-! ## Streams of size 0 -/

/-- No byte is moved. -/
def PosixReply.Refused : PosixReply → Prop
  | .readData (some r) => r = (-1, [])
  | .wrote (some value) => value = -1
  | _ => True

/-- Every tracked stream was opened with `w+` and has size 0. -/
def Refusing (s : Posix) : Prop :=
  ∀ stream stat, s.fileDescriptorMap stream = some stat → stat.fileSize = 0 ∧ stat.mode = .wPlus

/-- The file is gone once it was opened, if it is intercepted. -/
def emptied (mounts : MountPoints) (filename : CharStruct) (opened : Bool) (files : Files) : Files :=
  if opened ∧ (mounts.intercept filename).isSome then Function.update files filename none else files

theorem emptied_emptied (mounts : MountPoints) (filename : CharStruct) (a b : Bool) (files : Files) :
    emptied mounts filename b (emptied mounts filename a files) = emptied mounts filename (a || b) files := by
  unfold emptied
  by_cases hsome : (mounts.intercept filename).isSome
  · cases a <;> cases b <;> simp [hsome]
  · simp [hsome]

/-- The calls are refused wherever streams have size 0: no byte is moved, streams stay as they are, and the files are
those that the openings leave. -/
structure Idle (conf : ConfigurationManager) (mounts : MountPoints) (filename : CharStruct) (opened : Bool)
    (calls : List PosixCall) (s : Posix) : Prop where
  replies : ∀ r ∈ (idealCalls mounts calls s).1, r.Refused
  refusing : Refusing (idealCalls mounts calls s).2
  files : (idealCalls mounts calls s).2.files = emptied mounts filename opened s.files
  admissible : AllAdmissible conf mounts {filename} calls s

section idle

variable {conf : ConfigurationManager} {mounts : MountPoints} {filename : CharStruct} {s : Posix}

theorem Idle.nil (h : Refusing s) : Idle conf mounts filename false [] s :=
  ⟨fun _ hr => absurd hr List.not_mem_nil, h, (if_neg (by simp)).symm, trivial⟩

theorem Idle.append {a b : List PosixCall} {opened opened' : Bool} (ha : Idle conf mounts filename opened a s)
    (hb : Idle conf mounts filename opened' b (idealCalls mounts a s).2) :
    Idle conf mounts filename (opened || opened') (a ++ b) s where
  replies r hr := by
    rw [idealCalls_append] at hr
    exact (List.mem_append.mp hr).elim (ha.replies r) (hb.replies r)
  refusing := by
    rw [idealCalls_append]
    exact hb.refusing
  files := by
    rw [idealCalls_append, hb.files, ha.files, emptied_emptied]
  admissible := allAdmissible_append.mpr ⟨ha.admissible, hb.admissible⟩

/-- One call. -/
theorem Idle.single {call : PosixCall} {opened : Bool} (hreply : (call.reply mounts s).Refused)
    (hrefusing : Refusing (s.after mounts call)) (hfiles : (s.after mounts call).files = emptied mounts filename opened s.files)
    (hadmissible : call.Admissible conf mounts {filename} s) : Idle conf mounts filename opened [call] s where
  replies r hr := by
    rw [List.mem_singleton.mp hr]
    exact hreply
  refusing := hrefusing
  files := hfiles
  admissible := ⟨hadmissible, trivial⟩

theorem emptied_false (mounts : MountPoints) (filename : CharStruct) (files : Files) :
    emptied mounts filename false files = files := if_neg (by simp)

/-- A stream that is set to size 0. -/
theorem Refusing.updateStat (h : Refusing s) (fh : Nat) {stat : PosixStat} (hsize : stat.fileSize = 0)
    (hmode : stat.mode = .wPlus) : Refusing (s.updateStat fh stat) := by
  intro stream stat' hstat'
  have hupdate : Function.update s.fileDescriptorMap fh (some stat) stream = some stat' := hstat'
  rw [Function.update_apply] at hupdate
  split_ifs at hupdate with hstream
  · obtain rfl := Option.some.inj hupdate
    exact ⟨hsize, hmode⟩
  · exact h stream stat' hupdate

/-- An opening. -/
theorem fopen_idle (h : Refusing s) (fh : Nat) : Idle conf mounts filename true [.fopen fh filename .wPlus] s := by
  refine Idle.single trivial ?_ ?_ fun _ => rfl
  · show Refusing ((s.fopen mounts fh filename .wPlus).getD s)
    unfold Posix.fopen
    cases mounts.intercept filename with
    | none => exact h
    | some index => exact Refusing.updateStat (s := { s with files := s.files.delete _ }) h fh rfl rfl
  · show ((s.fopen mounts fh filename .wPlus).getD s).files = _
    unfold Posix.fopen emptied
    cases mounts.intercept filename with
    | none => rfl
    | some index => rfl

/-- A closing. -/
theorem fclose_idle (h : Refusing s) (fh : Nat) : Idle conf mounts filename false [.fclose fh] s := by
  refine Idle.single trivial ?_ ?_ trivial
  · show Refusing (((s.fclose fh).map Prod.snd).getD s)
    unfold Posix.fclose
    cases s.fileDescriptorMap fh with
    | none => exact h
    | some stat =>
      intro stream stat' hstat'
      have hupdate : Function.update s.fileDescriptorMap fh none stream = some stat' := hstat'
      rw [Function.update_apply] at hupdate
      split_ifs at hupdate with hstream
      exact h stream stat' hupdate
  · rw [emptied_false]
    show (((s.fclose fh).map Prod.snd).getD s).files = s.files
    unfold Posix.fclose
    cases s.fileDescriptorMap fh with
    | none => rfl
    | some stat => rfl

/-- What a seek from the start leaves. -/
theorem after_seek (mounts : MountPoints) (h : Refusing s) (fh : Nat) (offset : Int64) :
    s.after mounts (.fseek fh offset .seekSet) = match s.fileDescriptorMap fh with
      | none => s
      | some stat => s.updateStat fh { stat with filePointer := offset.toUInt64 } := by
  show ((s.fseek fh offset .seekSet).map Prod.snd).getD s = _
  unfold Posix.fseek Posix.updateOnSeek
  cases hstat : s.fileDescriptorMap fh with
  | none => rfl
  | some stat =>
    dsimp only [Option.map_some, Option.getD_some]
    rw [if_neg (by simp [(h fh stat hstat).2])]

/-- A seek from the start. -/
theorem fseek_idle (h : Refusing s) (fh : Nat) (offset : Int64) :
    Idle conf mounts filename false [.fseek fh offset .seekSet] s := by
  refine Idle.single trivial ?_ ?_ trivial
  · rw [after_seek mounts h]
    cases hstat : s.fileDescriptorMap fh with
    | none => exact h
    | some stat => exact h.updateStat fh (h fh stat hstat).1 (h fh stat hstat).2
  · rw [after_seek mounts h, emptied_false]
    cases s.fileDescriptorMap fh with
    | none => rfl
    | some stat => rfl

/-- The pointer of a stream is so far in front of the end of all numbers. -/
def PointerBelow (s : Posix) (fh n : Nat) : Prop :=
  ∀ stat, s.fileDescriptorMap fh = some stat → stat.filePointer.toNat + n < 2 ^ 64

theorem request_refused (h : Refusing s) {fh n : Nat} (hn : 0 < n) (hpointer : PointerBelow s fh n) {stat : PosixStat}
    (hstat : s.fileDescriptorMap fh = some stat) : stat.request 1 (.ofNat n) = none := by
  have hbelow := hpointer stat hstat
  have hsize : (1 * UInt64.ofNat n).toNat = n := by
    rw [UInt64.one_mul, UInt64.toNat_ofNat', Nat.mod_eq_of_lt (by omega)]
  have hlt : stat.fileSize < stat.filePointer + 1 * .ofNat n := by
    rw [(h fh stat hstat).1, UInt64.lt_iff_toNat_lt, UInt64.toNat_add, hsize, Nat.mod_eq_of_lt hbelow]
    exact Nat.lt_of_lt_of_le hn (Nat.le_add_left _ _)
  unfold PosixStat.request
  exact if_pos hlt

/-- A write of at least one byte. -/
theorem fwrite_idle (h : Refusing s) {fh n : Nat} (ptr : List UInt8) (hn : 0 < n) (hpointer : PointerBelow s fh n) :
    Idle conf mounts filename false [.fwrite ptr 1 (.ofNat n) fh] s := by
  have hfwrite : s.fwrite ptr 1 (.ofNat n) fh = (s.fileDescriptorMap fh).map fun _ => (-1, s) := by
    unfold Posix.fwrite
    cases hstat : s.fileDescriptorMap fh with
    | none => rfl
    | some stat => simp only [Option.map_some, request_refused h hn hpointer hstat]
  have hafter : s.after mounts (.fwrite ptr 1 (.ofNat n) fh) = s := by
    show ((s.fwrite ptr 1 (.ofNat n) fh).map Prod.snd).getD s = s
    rw [hfwrite]
    cases s.fileDescriptorMap fh with
    | none => rfl
    | some stat => rfl
  refine Idle.single ?_ (hafter.symm ▸ h) (by rw [hafter, emptied_false]) fun stat destination hstat hrequest => ?_
  · show (PosixReply.wrote ((s.fwrite ptr 1 (.ofNat n) fh).map Prod.fst)).Refused
    rw [hfwrite]
    cases s.fileDescriptorMap fh with
    | none => trivial
    | some stat => exact rfl
  · rw [request_refused h hn hpointer hstat] at hrequest
    cases hrequest

/-- A read of at least one byte. -/
theorem fread_idle (h : Refusing s) {fh n : Nat} (hn : 0 < n) (hpointer : PointerBelow s fh n) :
    Idle conf mounts filename false [.fread 1 (.ofNat n) fh] s := by
  refine Idle.single ?_ h (emptied_false _ _ _).symm fun stat source hstat hrequest => ?_
  · show (PosixReply.readData (s.fread 1 (.ofNat n) fh)).Refused
    unfold Posix.fread
    cases hstat : s.fileDescriptorMap fh with
    | none => trivial
    | some stat =>
      simp only [Option.map_some, request_refused h hn hpointer hstat]
      exact rfl
  · rw [request_refused h hn hpointer hstat] at hrequest
    cases hrequest

/-! ## Lines and repetitions -/

/-- The pointer that a line seeks to. -/
theorem seek_pointer (mounts : MountPoints) (h : Refusing s) (fh : Nat) {offset n : Nat} (hoffset : offset < 2 ^ 63)
    (hn : n < 2 ^ 63) : PointerBelow (s.after mounts (.fseek fh (.ofInt offset) .seekSet)) fh n := by
  have hpointer : (Int64.ofInt (offset : ℤ)).toUInt64.toNat = offset := by
    have hnat := toUInt64_toNat (Int64.ofInt (offset : ℤ))
    rw [Int64.toInt_ofInt_of_le (by omega) (by omega), Int.emod_eq_of_lt (by omega) (by omega)] at hnat
    exact_mod_cast hnat
  intro stat hstat
  rw [after_seek mounts h] at hstat
  cases hfound : s.fileDescriptorMap fh with
  | none =>
    rw [hfound] at hstat
    cases hfound.symm.trans hstat
  | some old =>
    rw [hfound] at hstat
    have hupdate : Function.update s.fileDescriptorMap fh (some { old with filePointer := (Int64.ofInt offset).toUInt64 })
        fh = some stat := hstat
    rw [Function.update_self] at hupdate
    obtain rfl := Option.some.inj hupdate
    rw [hpointer]
    omega

/-- Step: a line moves no byte. -/
theorem posixLine_idle {e : TraceEntry} (he : e.Plain)
    (hsize : e.operation = writeWord ∨ e.operation = readWord → 0 < e.size) (h : Refusing s) (handle : Nat)
    (rand : Nat → Nat) (fh : Nat) : ∃ calls fh', posixLine filename handle rand e.line (some fh) = some (calls, some fh') ∧
      Idle conf mounts filename (decide (e.operation = openWord)) calls s := by
  have hseek : Idle conf mounts filename false [.fseek fh (.ofInt e.offset) .seekSet] s := fseek_idle h fh _
  have hbelow := seek_pointer mounts h fh he.offset_lt he.size_lt
  have hnonneg : (0 : ℤ) ≤ e.line.requestSize := Int.natCast_nonneg e.size
  have htoNat : e.line.requestSize.toNat = e.size := Int.toNat_natCast e.size
  unfold posixLine
  rw [TraceEntry.line_operation, if_pos hnonneg, if_pos hnonneg, htoNat]
  by_cases hopen : e.operation = openWord
  · rw [if_pos hopen, decide_eq_true hopen]
    exact ⟨_, handle, rfl, fopen_idle h handle⟩
  rw [if_neg hopen, decide_eq_false hopen]
  by_cases hclose : e.operation = closeWord
  · rw [if_pos hclose]
    exact ⟨_, fh, rfl, fclose_idle h fh⟩
  rw [if_neg hclose]
  by_cases hwrite : e.operation = writeWord
  · rw [if_pos hwrite]
    exact ⟨_, fh, rfl, hseek.append (fwrite_idle hseek.refusing _ (hsize (Or.inl hwrite)) hbelow)⟩
  rw [if_neg hwrite]
  by_cases hread : e.operation = readWord
  · rw [if_pos hread]
    exact ⟨_, fh, rfl, hseek.append (fread_idle hseek.refusing (hsize (Or.inr hread)) hbelow)⟩
  rw [if_neg hread]
  by_cases hlseek : e.operation = seekWord
  · rw [if_pos hlseek]
    exact ⟨_, fh, rfl, hseek⟩
  · rw [if_neg hlseek]
    exact ⟨_, fh, rfl, Idle.nil h⟩

variable {lines : List (List UInt8)} {entries : List TraceEntry} (hplain : ∀ e ∈ entries, e.Plain)
  (hsizes : ∀ e ∈ entries, e.operation = writeWord ∨ e.operation = readWord → 0 < e.size)
  (handles : Nat → Nat) (rand : Nat → Nat → Nat)

include hplain hsizes

/-- Run: so do the lines of a repetition. -/
theorem posixLines_idle (hlines : List.Forall₂ Says lines entries) (h : Refusing s) (n fh : Nat) :
    ∃ calls fh' opened, posixLines filename handles rand lines n (some fh) = some (calls, some fh') ∧
      Idle conf mounts filename opened calls s := by
  induction hlines generalizing s n fh with
  | nil => exact ⟨[], fh, false, rfl, Idle.nil h⟩
  | @cons line e lines entries hsays _ ih =>
    obtain ⟨first, fh₁, hfirst, hidle⟩ : ∃ calls fh',
        posixLine filename (handles n) (rand n) e.line (some fh) = some (calls, some fh') ∧
          Idle conf mounts filename (decide (e.operation = openWord)) calls s :=
      posixLine_idle (hplain e List.mem_cons_self) (hsizes e List.mem_cons_self) h (handles n) (rand n) fh
    obtain ⟨rest, fh₂, opened, hrest, hidle'⟩ := ih (fun e he => hplain e (List.mem_cons_of_mem _ he))
      (fun e he => hsizes e (List.mem_cons_of_mem _ he)) hidle.refusing (n + 1) fh₁
    refine ⟨first ++ rest, fh₂, _, ?_, hidle.append hidle'⟩
    rw [posixLines, if_neg (not_lt.mpr hsays.1), hsays.2]
    show (posixLine filename (handles n) (rand n) e.line (some fh)).bind _ = _
    rw [hfirst]
    show (posixLines filename handles rand lines (n + 1) (some fh₁)).bind _ = _
    rw [hrest]
    rfl

/-- Run: and any number of repetitions. -/
theorem posixReplay_idle {text : List UInt8} (htrace : IsTrace entries text) (h : Refusing s) (rep n fh : Nat) :
    ∃ calls fh' opened, posixReplay filename handles rand text rep n (some fh) = some (calls, some fh') ∧
      Idle conf mounts filename opened calls s := by
  induction rep generalizing s n fh with
  | zero => exact ⟨[], fh, false, rfl, Idle.nil h⟩
  | succ rep ih =>
    obtain ⟨first, fh₁, opened, hfirst, hidle⟩ : ∃ calls fh' opened,
        posixLines filename handles rand (getlines text) n (some fh) = some (calls, some fh') ∧
          Idle conf mounts filename opened calls s :=
      posixLines_idle hplain hsizes handles rand (getlines_trace hplain htrace) h n fh
    obtain ⟨rest, fh₂, opened', hrest, hidle'⟩ := ih hidle.refusing (n + (getlines text).length) fh₁
    refine ⟨first ++ rest, fh₂, _, ?_, hidle.append hidle'⟩
    show (posixLines filename handles rand (getlines text) n (some fh)).bind _ = _
    rw [hfirst]
    show (posixReplay filename handles rand text rep (n + (getlines text).length) (some fh₁)).bind _ = _
    rw [hrest]
    rfl

omit hplain hsizes in
/-- A trace that opens its file first needs no stream. -/
theorem posixReplay_open {e : TraceEntry} {text : List UInt8} (hlines : List.Forall₂ Says (getlines text) (e :: entries))
    (hopen : e.operation = openWord) {rep : Nat} (hrep : 0 < rep) (n fh : Nat) :
    posixReplay filename handles rand text rep n none = posixReplay filename handles rand text rep n (some fh) := by
  obtain ⟨rep, rfl⟩ : ∃ rep', rep = rep' + 1 := ⟨rep - 1, by omega⟩
  have hlines' : posixLines filename handles rand (getlines text) n none =
      posixLines filename handles rand (getlines text) n (some fh) := by
    generalize getlines text = lines at hlines ⊢
    cases hlines with
    | cons hsays _ =>
      have hline : ∀ file, posixLine filename (handles n) (rand n) e.line file =
          some ([.fopen (handles n) filename .wPlus], some (handles n)) := fun file => if_pos hopen
      rw [posixLines, posixLines, if_neg (not_lt.mpr hsays.1), if_neg (not_lt.mpr hsays.1), hsays.2]
      show (posixLine filename (handles n) (rand n) e.line none).bind _ =
        (posixLine filename (handles n) (rand n) e.line (some fh)).bind _
      rw [hline, hline]
  rw [posixReplay, posixReplay, hlines']

omit hplain hsizes in
/-- What `prepare_data` finds behind the last read. -/
theorem maxOffset_entries (hlong : ∀ e ∈ entries, e.operation = readWord → e.offset + e.size < 2 ^ 63)
    (hlines : List.Forall₂ Says lines entries) {bound : Nat} (hbound : bound < 2 ^ 63) :
    ∃ last : Nat, maxOffset lines bound = some (last : ℤ) ∧ bound ≤ last ∧ last < 2 ^ 63 ∧
      ∀ e ∈ entries, e.operation = readWord → e.offset + e.size ≤ last := by
  induction hlines generalizing bound with
  | nil => exact ⟨bound, rfl, le_rfl, hbound, fun e he => absurd he List.not_mem_nil⟩
  | @cons line e lines entries hsays _ ih =>
    have ih := fun {bound} => @ih (fun e he => hlong e (List.mem_cons_of_mem _ he)) bound
    have hturn : maxOffset (line :: lines) bound = if e.operation = readWord then
        if 0 ≤ e.line.requestSize ∧ e.line.offset + e.line.requestSize < 2 ^ 63 then
          maxOffset lines (if e.line.offset + e.line.requestSize > bound then e.line.offset + e.line.requestSize else bound)
        else none
      else maxOffset lines bound := by
      rw [maxOffset, hsays.2]
      rfl
    rw [hturn]
    by_cases hread : e.operation = readWord
    · have hend : e.line.offset + e.line.requestSize = ((e.offset + e.size : Nat) : ℤ) := rfl
      have hlt := hlong e List.mem_cons_self hread
      have hlarger : (if ((e.offset + e.size : Nat) : ℤ) > bound then ((e.offset + e.size : Nat) : ℤ) else bound) =
          ((max (e.offset + e.size) bound : Nat) : ℤ) := by
        split_ifs <;> omega
      rw [if_pos hread, hend, if_pos ⟨Int.natCast_nonneg _, by omega⟩, hlarger]
      obtain ⟨last, hrun, hle, hlast, hends⟩ := ih (Nat.max_lt.mpr ⟨hlt, hbound⟩)
      refine ⟨last, hrun, (Nat.le_max_right _ _).trans hle, hlast, fun e' he' hread' => ?_⟩
      rcases List.mem_cons.mp he' with rfl | he'
      · exact (Nat.le_max_left _ _).trans hle
      · exact hends e' he' hread'
    · rw [if_neg hread]
      obtain ⟨last, hrun, hle, hlast, hends⟩ := ih hbound
      refine ⟨last, hrun, hle, hlast, fun e' he' hread' => ?_⟩
      rcases List.mem_cons.mp he' with rfl | he'
      · exact absurd hread' hread
      · exact hends e' he' hread'

/-- `prepare_data` moves no byte either. -/
theorem posixPrepare_idle {text : List UInt8} (htrace : IsTrace entries text)
    (hlong : ∀ e ∈ entries, e.operation = readWord → e.offset + e.size < 2 ^ 63)
    (hread : ∃ e ∈ entries, e.operation = readWord) (files : Files) (n : Nat) :
    ∃ calls, posixPrepare filename handles rand text n = some calls ∧
      Idle conf mounts filename true calls ⟨fun _ => none, files⟩ := by
  obtain ⟨last, hlast, -, hlt, hends⟩ := maxOffset_entries hlong (getlines_trace hplain htrace) (Nat.two_pow_pos 63)
  have hpos : 0 < last := by
    obtain ⟨e, he, hop⟩ := hread
    have := hends e he hop
    have := hsizes e he (Or.inr hop)
    omega
  have hrefusing : Refusing ⟨fun _ => none, files⟩ := fun _ _ h => by cases h
  have hopen : Idle conf mounts filename true [.fopen (handles n) filename .wPlus] ⟨fun _ => none, files⟩ :=
    fopen_idle hrefusing (handles n)
  refine ⟨_, congrArg (Option.map _) hlast, hopen.append (fwrite_idle hopen.refusing _ ?_ fun stat hstat => ?_)⟩
  · rwa [Int.toNat_natCast]
  · replace hstat : (((⟨fun _ => none, files⟩ : Posix).fopen mounts (handles n) filename .wPlus).getD
        ⟨fun _ => none, files⟩).fileDescriptorMap (handles n) = some stat := hstat
    unfold Posix.fopen at hstat
    cases hfound : mounts.intercept filename with
    | none =>
      rw [hfound] at hstat
      cases hstat
    | some index =>
      rw [hfound] at hstat
      have hupdate : Function.update (fun _ => none) (handles n)
          (some { filename, mode := .wPlus, storageIndex := index }) (handles n) = some stat := hstat
      rw [Function.update_self] at hupdate
      rw [← Option.some.inj hupdate, Int.toNat_natCast]
      show 0 + last < 2 ^ 64
      omega

end idle

/-! ## Over the servers -/

/-- The file is opened, and one byte is written and read. -/
def openedTrace : List TraceEntry := [⟨openWord, 0, 0⟩, ⟨writeWord, 0, 1⟩, ⟨readWord, 0, 1⟩]

/-- Its text. -/
def openedText : List UInt8 := openedTrace.flatMap fun e => e.render ++ [10]

theorem openedTrace_cases {e : TraceEntry} (he : e ∈ openedTrace) :
    e = ⟨openWord, 0, 0⟩ ∨ e = ⟨writeWord, 0, 1⟩ ∨ e = ⟨readWord, 0, 1⟩ := by
  simpa [openedTrace] using he

theorem openedTrace_plain : ∀ e ∈ openedTrace, e.Plain := by
  intro e he
  rcases openedTrace_cases he with rfl | rfl | rfl
  · exact ⟨by decide, by simp [openWord], by norm_num, by norm_num⟩
  · exact ⟨by decide, by simp [writeWord], by norm_num, by norm_num⟩
  · exact ⟨by decide, by simp [readWord], by norm_num, by norm_num⟩

end Symbios
