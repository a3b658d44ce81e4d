import Symbios.Model.Client
import Symbios.Proof.Posix
import Symbios.Proof.Refinement

/-!
# The interception over the servers

A `Data` whose buffer has exactly `data_size_` bytes crosses the wire unchanged (`transfer_portable`), so a call of the
client is the operation of the server, and what the application sees of its intercepted `fopen`, `fseek`, `fread`,
`fwrite` and `fclose` calls is what it would see over a map of files (`calls_ideal`).
-/

namespace Symbios

open EStateM Steps

section client

variable [Wire] {conf : ConfigurationManager} {w w' : Backends} {names : Set CharStruct} {files : Files}

omit [Wire] in
theorem discard_ok {α : Type} {x : Prog α} {a : α} (h : x w = .ok a w') :
    (discard x : Prog PUnit) w = .ok ⟨⟩ w' := by
  show (Functor.mapConst PUnit.unit x : Prog PUnit) w = _
  rw [map_const, Function.comp_apply, map_eq_pure_bind, bind_ok h]
  rfl

theorem received_pack {d : Data} (h : d.Portable) (w : Backends) : Client.received d.pack w = .ok d w := by
  have hdecoded : Wire.dec (Wire.enc d.pack) = some (d.pack, []) := by
    rw [← List.append_nil (Wire.enc d.pack), Wire.dec_enc]
  unfold Client.received
  rw [hdecoded]
  dsimp only
  rw [Data.convert_pack h]
  rfl

theorem transfer_portable {d : Data} (h : d.Portable) (w : Backends) : Client.transfer d w = .ok d w := by
  have hreceived := received_pack h w
  unfold Client.transfer
  rcases h with hnone | ⟨bytes, hsome, hlength, -⟩
  · rw [hnone]
    exact hreceived
  · have hslice : slice d.buffer 0 d.dataSize w = .ok bytes w := by
      rw [slice, hsome, Option.getD_some, if_pos (by omega), List.drop_zero, List.take_of_length_le (by omega)]
      rfl
    rw [hsome] at hslice ⊢
    dsimp only
    rw [bind_ok (discard_ok hslice)]
    exact hreceived

omit [Wire] in
/-- What is found behind a constructor. -/
theorem of_bind_pure {α β : Type} {x : Prog α} {f : α → β} (hf : Function.Injective f) {a : α}
    (h : (x >>= fun a => (pure (f a) : Prog β)) w = .ok (f a) w') : x w = .ok a w' := by
  obtain ⟨b, w₁, hrun, hpure⟩ := bind_eq_ok h
  obtain ⟨hvalue, hstate⟩ := Result.ok.inj hpure
  rw [hrun, hf hvalue, hstate]

/-! ## Calls of the client -/

variable (hconf : conf.storageSolutions = [(0, .fileIo)]) {id : CharStruct}

include hconf

theorem client_size (h : Holding conf names files w) (hid : id ∈ names) :
    Client.size conf Env.calm { id } w = .ok (files.content id).length w :=
  (bind_ok (transfer_portable (Or.inl rfl) w)).trans (FileHeld.size hconf (h id hid))

theorem client_delete (hpolicy : conf.dataDistributionPolicy ≠ .dynamicProgrammingPolicy) (hapart : Apart names)
    (h : Holding conf names files w) (hid : id ∈ names) :
    ∃ b w', Client.delete conf Env.calm { id } w = .ok b w' ∧ Holding conf names (files.delete { id }) w' := by
  have hname : (Request.deleteRequest Env.calm { id }).id ∈ names := hid
  obtain ⟨w', hrun, hheld⟩ := Request.serve_ideal hconf hpolicy hapart h hname ⟨rfl, rfl⟩
  have hdelete := of_bind_pure (fun _ _ heq => Reply.deleted.inj heq) hrun
  exact ⟨_, w', (bind_ok (transfer_portable (Or.inl rfl) w)).trans hdelete, hheld⟩

/-- **The client leaves in the destination the bytes of the range.** -/
theorem client_locate (h : Holding conf names files w) {source : Data} (hid : source.id ∈ names)
    (hbuffer : source.buffer = none)
    (hadmissible : Request.Admissible conf files (.locateRequest Env.calm source { source with position := 0 })) :
    Client.locateRequest conf Env.calm source { source with position := 0 } w =
      .ok { source with position := 0, buffer := some (files.locateRequest source) } w := by
  obtain ⟨-, hindex, hsize, hin, hend, hfits⟩ := hadmissible
  have hlocate := (h _ hid).locate hconf rfl hindex hsize hin hend hfits { source with position := 0 }
  have hlength : (files.locateRequest source).length = source.dataSize := by
    rw [Files.locateRequest, List.length_take, List.length_drop]
    omega
  have hportable : ({ source with position := 0, buffer := some (files.locateRequest source) } : Data).Portable :=
    Or.inr ⟨_, rfl, hlength, List.ne_nil_of_length_pos (by omega)⟩
  have hslice : slice (some (files.locateRequest source)) 0 source.dataSize w =
      .ok (files.locateRequest source) w := by
    rw [slice, Option.getD_some, if_pos (by omega), List.drop_zero, List.take_of_length_le (by omega)]
    rfl
  rw [Client.locateRequest, bind_ok (transfer_portable (Or.inl hbuffer) w),
    bind_ok (transfer_portable (d := { source with position := 0 }) (Or.inl hbuffer) w), bind_ok hlocate]
  refine (bind_ok (transfer_portable hportable w)).trans ((bind_ok hslice).trans ?_)
  rw [hbuffer]
  rfl

theorem client_store (hpolicy : conf.dataDistributionPolicy ≠ .dynamicProgrammingPolicy) (hapart : Apart names)
    (h : Holding conf names files w) (draw : Nat) {source destination : Data} (hid : destination.id ∈ names)
    (hsource : source.Portable) (hdestination : destination.Portable)
    (hadmissible : Request.Admissible conf files (.storeRequest Env.calm draw source destination)) :
    ∃ w', Client.storeRequest conf Env.calm draw source destination w = .ok () w' ∧
      Holding conf names (files.storeRequest (sourceBytes source) destination) w' := by
  have hname : (Request.storeRequest Env.calm draw source destination).id ∈ names := hid
  obtain ⟨w', hrun, hheld⟩ := Request.serve_ideal hconf hpolicy hapart h hname hadmissible
  have hstore := of_bind_pure (fun _ _ heq => Reply.stored.inj heq) hrun
  refine ⟨w', ?_, hheld⟩
  rw [Client.storeRequest, bind_ok (transfer_portable hsource w), bind_ok (transfer_portable hdestination w)]
  exact discard_ok hstore

end client

/-! ## Intercepted calls -/

/-- What a request of a stream is over the servers: the locate of an `fread`. -/
def readRequest (source : Data) : Request := .locateRequest Env.calm source { source with position := 0 }

/-- The store of an `fwrite`. -/
def writeRequest (draw : Nat) (ptr : List UInt8) (destination : Data) : Request :=
  .storeRequest Env.calm draw
    { destination with position := 0, buffer := some (ptr.take destination.dataSize) } destination

/-- The calls of an application that the servers have the resources for: a file that is opened is one of `names`, a
stream reads and writes ranges whose requests are admissible, and what is written is at `ptr`. -/
def PosixCall.Admissible (conf : ConfigurationManager) (mounts : MountPoints) (names : Set CharStruct) (s : Posix) :
    PosixCall → Prop
  | .fopen _ filename _ => (mounts.intercept filename).isSome → filename ∈ names
  | .fread size count stream => ∀ stat source, s.fileDescriptorMap stream = some stat →
      stat.request size count = some source → (readRequest source).Admissible conf s.files
  | .fwrite ptr size count stream => ∀ stat destination, s.fileDescriptorMap stream = some stat →
      stat.request size count = some destination → destination.dataSize ≤ ptr.length ∧
        (writeRequest 0 ptr destination).Admissible conf s.files
  | .fseek _ _ _ => True
  | .fclose _ => True

/-- Every call is admissible when its turn comes. -/
def AllAdmissible (conf : ConfigurationManager) (mounts : MountPoints) (names : Set CharStruct) :
    List PosixCall → Posix → Prop
  | [], _ => True
  | call :: calls, s => call.Admissible conf mounts names s ∧ AllAdmissible conf mounts names calls (s.after mounts call)

section calls

variable [Wire] {conf : ConfigurationManager} {mounts : MountPoints} {w : Backends} {names : Set CharStruct} {s : Posix}

/-- The state holds the files, and the streams are open on them. -/
structure Served (conf : ConfigurationManager) (names : Set CharStruct) (s : Posix) (w : Backends) : Prop where
  holding : Holding conf names s.files w
  named : ∀ stream stat, s.fileDescriptorMap stream = some stat → stat.filename ∈ names

omit [Wire] in
/-- The request of a stream is about its file, and has no buffer. -/
theorem request_eq {stat : PosixStat} {size count : UInt64} {r : Data} (h : stat.request size count = some r) :
    r = { id := stat.filename, position := stat.filePointer.toNat, dataSize := (size * count).toNat } := by
  unfold PosixStat.request at h
  dsimp only at h
  split at h
  · cases h
  · exact (Option.some.inj h).symm

omit [Wire] in
theorem update_named {map : FileDescriptorMap} (h : ∀ stream stat, map stream = some stat → stat.filename ∈ names)
    (stream : Nat) {entry : Option PosixStat} (hentry : ∀ stat, entry = some stat → stat.filename ∈ names) :
    ∀ stream' stat, Function.update map stream entry stream' = some stat → stat.filename ∈ names := by
  intro stream' stat hstat
  by_cases heq : stream' = stream
  · rw [heq, Function.update_self] at hstat
    exact hentry stat hstat
  · rw [Function.update_of_ne heq] at hstat
    exact h stream' stat hstat

/-- What a call over the servers does: the reply over the ideal client, and the descriptors and files it leaves. -/
def CallIdeal (conf : ConfigurationManager) (mounts : MountPoints) (names : Set CharStruct) (draw : Nat) (s : Posix)
    (call : PosixCall) (w : Backends) : Prop :=
  ∃ w', call.serve conf Env.calm mounts draw s.fileDescriptorMap w =
      .ok (call.reply mounts s, (s.after mounts call).fileDescriptorMap) w' ∧
    Served conf names (s.after mounts call) w'

variable (hconf : conf.storageSolutions = [(0, .fileIo)])

include hconf

theorem fread_ideal (h : Served conf names s w) {size count : UInt64} {stream : Nat}
    (hadmissible : (PosixCall.fread size count stream).Admissible conf mounts names s) (draw : Nat) :
    CallIdeal conf mounts names draw s (.fread size count stream) w := by
  refine ⟨w, ?_, h⟩
  have hread : FileDescriptorMap.fread conf Env.calm s.fileDescriptorMap size count stream w =
      .ok (s.fread size count stream) w := by
    unfold FileDescriptorMap.fread Posix.fread
    cases hstat : s.fileDescriptorMap stream with
    | none => rfl
    | some stat =>
      dsimp only [Option.map_some]
      cases hrequest : stat.request size count with
      | none => rfl
      | some source =>
        have heq := request_eq hrequest
        have hrange := hadmissible stat source hstat hrequest
        have hlength : (s.files.locateRequest source).length = source.dataSize := by
          obtain ⟨-, -, -, hin, -⟩ := hrange
          rw [Files.locateRequest, List.length_take, List.length_drop]
          omega
        have hsize : UInt64.ofNat source.dataSize = size * count := by
          rw [heq]
          exact UInt64.ofNat_toNat
        have hname : source.id ∈ names := by
          rw [heq]
          exact h.named _ _ hstat
        have hlocate := client_locate hconf h.holding hname (by rw [heq]) hrange
        have hslice : slice (some (s.files.locateRequest source)) 0 source.dataSize w =
            .ok (s.files.locateRequest source) w := by
          rw [slice, Option.getD_some, if_pos (by omega), List.drop_zero, List.take_of_length_le (by omega)]
          rfl
        dsimp only
        rw [bind_ok hlocate]
        dsimp only
        rw [hlength, hsize, if_neg (not_not_intro rfl), if_neg (not_not_intro rfl), bind_ok hslice]
        rfl
  exact bind_ok hread

theorem fwrite_ideal (hpolicy : conf.dataDistributionPolicy ≠ .dynamicProgrammingPolicy) (hapart : Apart names)
    (h : Served conf names s w) {ptr : List UInt8} {size count : UInt64} {stream : Nat}
    (hadmissible : (PosixCall.fwrite ptr size count stream).Admissible conf mounts names s) (draw : Nat) :
    CallIdeal conf mounts names draw s (.fwrite ptr size count stream) w := by
  cases hstat : s.fileDescriptorMap stream with
  | none =>
    refine ⟨w, ?_, ?_⟩
    · simp only [PosixCall.serve, FileDescriptorMap.fwrite, PosixCall.reply, Posix.after, Posix.fwrite, hstat]
      rfl
    · simp only [Posix.after, Posix.fwrite, hstat]
      exact h
  | some stat =>
    cases hrequest : stat.request size count with
    | none =>
      refine ⟨w, ?_, ?_⟩
      · simp only [PosixCall.serve, FileDescriptorMap.fwrite, PosixCall.reply, Posix.after, Posix.fwrite, hstat,
          hrequest, Option.map_some]
        rfl
      · simp only [Posix.after, Posix.fwrite, hstat, hrequest, Option.map_some]
        exact h
    | some destination =>
      have heq := request_eq hrequest
      obtain ⟨hptr, hstored⟩ := hadmissible stat destination hstat hrequest
      have hlength : (ptr.take destination.dataSize).length = destination.dataSize := by
        rw [List.length_take]
        omega
      have hname : destination.id ∈ names := by
        rw [heq]
        exact h.named _ _ hstat
      have hbuffer : destination.buffer = none := by rw [heq]
      have hpositive : 0 < destination.dataSize := hstored.2.2.1
      have hsource : ({ destination with position := 0, buffer := some (ptr.take destination.dataSize) } : Data).Portable :=
        Or.inr ⟨_, rfl, hlength, List.ne_nil_of_length_pos (by omega)⟩
      have hslice : slice (some ptr) 0 destination.dataSize w = .ok (ptr.take destination.dataSize) w := by
        rw [slice, Option.getD_some, if_pos (by omega), List.drop_zero]
        rfl
      obtain ⟨w', hrun, hheld⟩ := client_store hconf hpolicy hapart h.holding draw hname hsource (Or.inl hbuffer) hstored
      have hbytes : sourceBytes { destination with position := 0, buffer := some (ptr.take destination.dataSize) } =
          ptr.take destination.dataSize := by
        rw [sourceBytes, Option.getD_some, List.take_take, min_self]
      rw [hbytes] at hheld
      by_cases hgrow : size * count + stat.filePointer > stat.fileSize
      · refine ⟨w', ?_, ?_⟩
        · simp only [PosixCall.serve, FileDescriptorMap.fwrite, PosixCall.reply, Posix.after, Posix.fwrite, hstat,
            hrequest, Option.map_some, if_pos hgrow]
          rw [bind_assoc, bind_ok hslice, bind_assoc, bind_ok hrun]
          rfl
        · simp only [Posix.after, Posix.fwrite, hstat, hrequest, Option.map_some, if_pos hgrow]
          have hown := h.named _ _ hstat
          refine ⟨hheld, update_named h.named stream fun stat' hstat' => ?_⟩
          cases hstat'
          exact hown
      · refine ⟨w', ?_, ?_⟩
        · simp only [PosixCall.serve, FileDescriptorMap.fwrite, PosixCall.reply, Posix.after, Posix.fwrite, hstat,
            hrequest, Option.map_some, if_neg hgrow]
          rw [bind_assoc, bind_ok hslice, bind_assoc, bind_ok hrun]
          rfl
        · simp only [Posix.after, Posix.fwrite, hstat, hrequest, Option.map_some, if_neg hgrow]
          exact ⟨hheld, h.named⟩

theorem fopen_ideal (hpolicy : conf.dataDistributionPolicy ≠ .dynamicProgrammingPolicy) (hapart : Apart names)
    (hmounts : ∀ filename index, mounts.intercept filename = some index → index = 0) (h : Served conf names s w)
    {fh : Nat} {filename : CharStruct} {mode : OpenMode}
    (hadmissible : (PosixCall.fopen fh filename mode).Admissible conf mounts names s) (draw : Nat) :
    CallIdeal conf mounts names draw s (.fopen fh filename mode) w := by
  cases hintercept : mounts.intercept filename with
  | none =>
    refine ⟨w, ?_, ?_⟩
    · simp only [PosixCall.serve, FileDescriptorMap.fopen, PosixCall.reply, Posix.after, Posix.fopen, hintercept]
      rfl
    · simp only [Posix.after, Posix.fopen, hintercept]
      exact h
  | some index =>
    obtain rfl := hmounts filename index hintercept
    have hname : filename ∈ names := hadmissible (by rw [hintercept]; rfl)
    have hsize := client_size hconf h.holding hname
    obtain ⟨b, w', hdelete, hheld⟩ := client_delete hconf hpolicy hapart h.holding hname
    have hopened : ∃ w', FileDescriptorMap.updateOnOpen conf Env.calm s.fileDescriptorMap fh
          { filename, mode, storageIndex := 0 } w =
        .ok (s.updateOnOpen fh { filename, mode, storageIndex := 0 }).fileDescriptorMap w' ∧
          Holding conf names (s.updateOnOpen fh { filename, mode, storageIndex := 0 }).files w' := by
      cases mode with
      | wPlus =>
        exact ⟨w', (bind_ok hsize).trans (bind_ok (discard_ok hdelete)), hheld⟩
      | r => exact ⟨w, bind_ok hsize, h.holding⟩
      | rPlus => exact ⟨w, bind_ok hsize, h.holding⟩
      | w => exact ⟨w, bind_ok hsize, h.holding⟩
      | a => exact ⟨w, bind_ok hsize, h.holding⟩
      | aPlus => exact ⟨w, bind_ok hsize, h.holding⟩
    obtain ⟨w'', hrun, hholding⟩ := hopened
    refine ⟨w'', ?_, ?_⟩
    · simp only [PosixCall.serve, FileDescriptorMap.fopen, PosixCall.reply, Posix.after, Posix.fopen, hintercept,
        Option.map_some]
      rw [map_eq_pure_bind, bind_assoc, bind_ok hrun]
      rfl
    · simp only [Posix.after, Posix.fopen, hintercept, Option.map_some, Option.getD_some]
      refine ⟨hholding, update_named h.named fh fun stat hstat => ?_⟩
      cases hstat
      cases mode <;> exact hname

omit hconf in
theorem fseek_ideal (h : Served conf names s w) (stream : Nat) (offset : Int64) (origin : Origin) (draw : Nat) :
    CallIdeal conf mounts names draw s (.fseek stream offset origin) w := by
  have hseek : FileDescriptorMap.fseek s.fileDescriptorMap stream offset origin =
      (s.fseek stream offset origin).map fun r => (r.1, r.2.fileDescriptorMap) := by
    unfold FileDescriptorMap.fseek Posix.fseek Posix.updateOnSeek
    cases s.fileDescriptorMap stream with
    | none => rfl
    | some stat =>
      dsimp only [Option.map_some]
      split_ifs
      · rfl
      · cases origin <;> rfl
  cases hstat : s.fileDescriptorMap stream with
  | none =>
    refine ⟨w, ?_, ?_⟩
    · simp only [PosixCall.serve, hseek, PosixCall.reply, Posix.after, Posix.fseek, hstat]
      rfl
    · simp only [Posix.after, Posix.fseek, hstat]
      exact h
  | some stat =>
    have hname := h.named stream stat hstat
    have hmoved : Served conf names (s.updateOnSeek stream offset origin).2 w := by
      unfold Posix.updateOnSeek
      rw [hstat]
      dsimp only
      split_ifs
      · exact h
      · have hupdated : ∀ stat' : PosixStat, stat'.filename = stat.filename →
            Served conf names (s.updateStat stream stat') w := fun stat' heq =>
          ⟨h.holding, update_named h.named stream fun _ hentry => by
            cases hentry
            exact heq ▸ hname⟩
        cases origin with
        | seekCur => exact hupdated _ rfl
        | seekSet => exact hupdated _ rfl
        | seekEnd => exact hupdated _ rfl
        | other => exact h
    refine ⟨w, ?_, ?_⟩
    · simp only [PosixCall.serve, hseek, PosixCall.reply, Posix.after, Posix.fseek, hstat, Option.map_some]
      rfl
    · simp only [Posix.after, Posix.fseek, hstat, Option.map_some, Option.getD_some]
      exact hmoved

omit hconf in
theorem fclose_ideal (h : Served conf names s w) (stream : Nat) (draw : Nat) :
    CallIdeal conf mounts names draw s (.fclose stream) w := by
  cases hstat : s.fileDescriptorMap stream with
  | none =>
    refine ⟨w, ?_, ?_⟩
    · simp only [PosixCall.serve, FileDescriptorMap.fclose, PosixCall.reply, Posix.after, Posix.fclose, hstat]
      rfl
    · simp only [Posix.after, Posix.fclose, hstat]
      exact h
  | some stat =>
    refine ⟨w, ?_, ?_⟩
    · simp only [PosixCall.serve, FileDescriptorMap.fclose, PosixCall.reply, Posix.after, Posix.fclose, hstat]
      rfl
    · simp only [Posix.after, Posix.fclose, hstat, Option.map_some, Option.getD_some]
      exact ⟨h.holding, update_named h.named stream fun _ hentry => by cases hentry⟩

/-- Step: an intercepted call over the servers. -/
theorem call_ideal (hpolicy : conf.dataDistributionPolicy ≠ .dynamicProgrammingPolicy) (hapart : Apart names)
    (hmounts : ∀ filename index, mounts.intercept filename = some index → index = 0) (h : Served conf names s w)
    {call : PosixCall} (hadmissible : call.Admissible conf mounts names s) (draw : Nat) :
    CallIdeal conf mounts names draw s call w := by
  cases call with
  | fopen fh filename mode => exact fopen_ideal hconf hpolicy hapart hmounts h hadmissible draw
  | fseek stream offset origin => exact fseek_ideal h stream offset origin draw
  | fread size count stream => exact fread_ideal hconf h hadmissible draw
  | fwrite ptr size count stream => exact fwrite_ideal hconf hpolicy hapart h hadmissible draw
  | fclose stream => exact fclose_ideal h stream draw

/-- Run: the calls of an application, from the first to the last. -/
theorem serveCalls_run (hpolicy : conf.dataDistributionPolicy ≠ .dynamicProgrammingPolicy) (hapart : Apart names)
    (hmounts : ∀ filename index, mounts.intercept filename = some index → index = 0) (h : Served conf names s w)
    (draws : Nat → Nat) (calls : List PosixCall) (n : Nat) (hadmissible : AllAdmissible conf mounts names calls s) :
    ∃ w', serveCalls conf mounts draws calls n s.fileDescriptorMap w =
        .ok ((idealCalls mounts calls s).1, (idealCalls mounts calls s).2.fileDescriptorMap) w' ∧
      Served conf names (idealCalls mounts calls s).2 w' := by
  induction calls generalizing s w n with
  | nil => exact ⟨w, rfl, h⟩
  | cons call calls ih =>
    obtain ⟨w₁, hrun, hserved⟩ := call_ideal hconf hpolicy hapart hmounts h hadmissible.1 (draws n)
    obtain ⟨w₂, hrest, hserved'⟩ := ih hserved (n + 1) hadmissible.2
    exact ⟨w₂, (bind_ok hrun).trans (bind_ok hrest), hserved'⟩

end calls

/-! ## A file of one byte -/

/-- A file `/f` with one byte, and no stream. -/
def byteInF : Posix := ⟨fun _ => none, Function.update (fun _ => none) [47, 102] (some [7])⟩

/-- The byte of `/f` is read, overwritten and read again. -/
def overwriteF : List PosixCall :=
  [.fopen 1 [47, 102] .rPlus, .fread 1 1 1, .fwrite [8] 1 1 1, .fread 1 1 1, .fclose 1]

theorem overwriteF_admissible : AllAdmissible oneFile rootMount {[47, 102]} overwriteF byteInF := by
  refine ⟨fun _ => rfl, fun stat source hstat hsource => ?_, fun stat destination hstat hdestination => ?_,
    fun stat source hstat hsource => ?_, trivial, trivial⟩
  · obtain rfl : stat = ⟨[47, 102], 0, 1, .rPlus, 0⟩ := Option.some.inj (hstat.symm.trans (by decide +kernel))
    obtain rfl : source = { id := [47, 102], dataSize := 1 } := Option.some.inj (hsource.symm.trans (by decide +kernel))
    exact ⟨rfl, rfl, by decide, by decide +kernel, by decide +kernel, by decide +kernel⟩
  · obtain rfl : stat = ⟨[47, 102], 0, 1, .rPlus, 0⟩ := Option.some.inj (hstat.symm.trans (by decide +kernel))
    obtain rfl : destination = { id := [47, 102], dataSize := 1 } :=
      Option.some.inj (hdestination.symm.trans (by decide +kernel))
    exact ⟨by decide, rfl, ⟨rfl, rfl, rfl, rfl, by decide, by decide⟩, by decide, by decide +kernel, by decide +kernel⟩
  · obtain rfl : stat = ⟨[47, 102], 0, 1, .rPlus, 0⟩ := Option.some.inj (hstat.symm.trans (by decide +kernel))
    obtain rfl : source = { id := [47, 102], dataSize := 1 } := Option.some.inj (hsource.symm.trans (by decide +kernel))
    exact ⟨rfl, rfl, by decide, by decide +kernel, by decide +kernel, by decide +kernel⟩

theorem byteInF_held : ∃ w, Served oneFile {[47, 102]} byteInF w := by
  have hissued : IssuedStore oneFile [47, 102] { buffer := some [7], dataSize := 1 }
    { id := [47, 102], dataSize := 1 } := ⟨rfl, rfl, rfl, rfl, by decide, by decide⟩
  obtain ⟨w, -, hheld⟩ := (fileHeld_empty oneFile [47, 102]).store rfl (by decide) 0 hissued (by decide) (by decide)
    (by decide)
  refine ⟨w, fun id hid => ?_, fun _ _ h => by cases h⟩
  rw [Set.mem_singleton_iff.mp hid]
  exact hheld

theorem rootMount_index {filename : CharStruct} {index : UInt16} (h : rootMount.intercept filename = some index) :
    index = 0 := by
  unfold MountPoints.intercept at h
  split at h
  · cases h
  · obtain ⟨solution, hfind, rfl⟩ := Option.map_eq_some_iff.mp h
    rw [List.mem_singleton.mp (List.mem_of_find?_eq_some hfind)]

end Symbios
