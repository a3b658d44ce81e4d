import Symbios.Model.Ranks
import Symbios.Proof.Replayer
import Symbios.Proof.Sessions

/-!
# Ranks at work at the same time

A handler's thread is its run (`program_run`), and every step of it stays inside the keys of its file (`run_confined`).
The data files of the ranks have no keys in common (`dataFile_apart`), so every rank ends as if it were alone
(`ranks_isolated`); in IRIS mode it reads what its own producer wrote and cleans up behind it (`ranks_emulate`).
-/

namespace Symbios.Ranks

open Thread (atom program program_atom program_bind program_pure program_discard program_forM Separated)
open EStateM (ReadOnly AgreeOn bind_ok)
open Steps (ServerThread)

/-! ## Threads are runs -/

section program

theorem program_writeChunks (client : IoClientType) (dbType : Nat) (data : List UInt8) (objs : List DataDescriptor)
    (sourcePosition : Nat) : program (writeChunks client dbType data objs sourcePosition) =
      LibHandler.writeChunks client dbType data objs sourcePosition := by
  induction objs generalizing sourcePosition with
  | nil => rfl
  | cons obj objs ih =>
    rw [writeChunks, program_bind, program_atom, LibHandler.writeChunks]
    congr 1
    funext _
    exact ih _

theorem program_doMappedWrite (client : IoClientType) (dbType maxObjSize : Nat) (file : CharStruct)
    (offset requestSize : Nat) (data : List UInt8) :
    program (doMappedWrite client dbType maxObjSize file offset requestSize data) =
      LibHandler.doMappedWrite client dbType maxObjSize file offset requestSize data := by
  unfold doMappedWrite LibHandler.doMappedWrite
  cases DataMapper.map (maxObjSize % 2 ^ 32) { id := file, position := offset, size := requestSize } with
  | none => rfl
  | some objs =>
    cases objs with
    | nil => rfl
    | cons obj objs => exact program_writeChunks _ _ _ _ _

theorem program_readChunks (client : IoClientType) (dbType : Nat) (printP : Bool) (requestSize : Nat)
    (objs : List DataDescriptor) (dataOffset : Int) :
    program (readChunks client dbType printP requestSize objs dataOffset) =
      LibHandler.readChunks client dbType printP requestSize objs dataOffset := by
  induction objs generalizing dataOffset with
  | nil => rfl
  | cons obj objs ih =>
    rw [readChunks, program_bind, program_atom, LibHandler.readChunks]
    congr 1
    funext destination
    dsimp only
    split_ifs
    · rfl
    · rfl
    · rw [program_bind, ih]
      rfl

theorem program_removeChunks (client : IoClientType) (dbType : Nat) (objs : List DataDescriptor) :
    program (removeChunks client dbType objs) = LibHandler.removeChunks client dbType objs := by
  rw [removeChunks, program_forM, LibHandler.removeChunks]
  congr 1
  funext obj
  rw [program_discard, program_atom]

variable [Wire] (conf : ConfigurationManager) (env : Env) (draw : Nat) (lh : LibHandler)

theorem program_storeRequest (source destination : Data) :
    program (storeRequest conf env draw source destination) = Client.storeRequest conf env draw source destination := by
  rw [storeRequest, Client.storeRequest]
  simp only [program_bind, program_atom, program_discard, Steps.program_store]

theorem program_locateRequest (source destination : Data) :
    program (locateRequest conf env source destination) = Client.locateRequest conf env source destination := by
  rw [locateRequest, Client.locateRequest]
  cases destination.buffer with
  | none => simp only [program_bind, program_atom, Steps.program_locateData, program_pure]
  | some buffer => simp only [program_bind, program_atom, Steps.program_locateData, program_pure]

theorem program_deleteRequest (request : Data) :
    program (deleteRequest conf env request) = Client.delete conf env request := by
  rw [deleteRequest, Client.delete]
  simp only [program_bind, program_atom, Steps.program_delete]

theorem program_write (offset requestSize : Nat) (data : Option (List UInt8)) :
    program (write conf env draw lh offset requestSize data) = lh.write conf env draw offset requestSize data := by
  unfold write LibHandler.write
  cases lh.libType with
  | iris => simp only [program_bind, program_atom, program_doMappedWrite, program_pure]
  | posix => rfl
  | niobe => simp only [program_bind, program_storeRequest, program_pure]
  | symbios => simp only [program_bind, program_storeRequest, program_pure]

theorem program_delete (offset requestSize : Nat) (data : Option (List UInt8)) :
    program (delete conf env lh offset requestSize data) = lh.delete conf env offset requestSize data := by
  unfold delete LibHandler.delete
  cases lh.mapRequest offset requestSize with
  | none => rfl
  | some objs =>
    cases objs with
    | nil => rfl
    | cons obj objs =>
      cases lh.libType with
      | iris => simp only [program_bind, program_atom, program_removeChunks, program_pure]
      | posix => rfl
      | niobe => simp only [program_bind, program_discard, program_deleteRequest, program_pure]
      | symbios => simp only [program_bind, program_discard, program_deleteRequest, program_pure]

theorem program_read (offset requestSize : Nat) (data : Option (List UInt8)) :
    program (read conf env lh offset requestSize data) = lh.read conf env offset requestSize data := by
  unfold read LibHandler.read
  cases lh.mapRequest offset requestSize with
  | none => rfl
  | some objs =>
    cases lh.libType with
    | iris => simp only [program_bind, program_atom, program_readChunks, program_pure]
    | posix => rfl
    | niobe => simp only [program_bind, program_locateRequest, program_pure]
    | symbios => simp only [program_bind, program_locateRequest, program_pure]

/-- A call that is not interrupted is a call of the handler. -/
theorem program_run (call : LibCall) : program (run conf env draw lh call) =
    lh.run conf env draw call.opType call.offset call.requestSize call.data := by
  unfold run LibHandler.run
  cases call.opType with
  | read => exact program_read conf env lh _ _ _
  | write => exact program_write conf env draw lh _ _ _
  | delete => exact program_delete conf env lh _ _ _

variable (draws : Nat → Nat) (rand : Nat → Nat → Nat)

theorem program_eachLine (short : Nat) (call : (Nat → Nat) → TraceLine → Option (Option LibCall))
    (lines : List (List UInt8)) (n : Nat) : program (eachLine conf env draws rand lh short call lines n) =
      TraceReplayer.eachLine conf env draws rand lh short call lines n := by
  induction lines generalizing n with
  | nil => rfl
  | cons line lines ih =>
    rw [eachLine, TraceReplayer.eachLine]
    split_ifs
    · rfl
    · cases (parseLine line).bind (call (rand n)) with
      | none => rfl
      | some found =>
        cases found with
        | none => exact ih n
        | some libCall =>
          dsimp only
          rw [program_bind, program_run]
          congr 1
          funext ran
          cases ran with
          | none => rfl
          | some ran =>
            dsimp only
            rw [program_bind, ih]
            rfl

theorem program_replayTrace (trace : List UInt8) (rep n : Nat) :
    program (replayTrace conf env draws rand lh trace rep n) =
      TraceReplayer.replayTrace conf env draws rand lh trace rep n := by
  induction rep generalizing n with
  | zero => rfl
  | succ rep ih =>
    rw [replayTrace, TraceReplayer.replayTrace, program_bind, program_eachLine]
    congr 1
    funext found
    cases found with
    | none => rfl
    | some rans =>
      dsimp only
      rw [program_bind, ih]
      rfl

theorem program_cleanData (trace : List UInt8) (n : Nat) :
    program (cleanData conf env draws rand lh trace n) = TraceReplayer.cleanData conf env draws rand lh trace n :=
  program_eachLine conf env lh draws rand 0 _ _ n

end program

/-! ## What a call touches -/

section confined

variable {I : Backends → Prop} {K W : Set CharStruct}

/-- A local step. -/
theorem local_confined {α : Type} {P : α → Prop} {x : Prog α}
    (hx : EStateM.Confined (fun _ : Backends => True) (∅ : Set CharStruct) P x) (hro : ReadOnly x) :
    Thread.Confined I K W P (atom x) := by
  refine Thread.Confined.atom (hx.widen (Set.empty_subset _) fun w hw => ?_) fun w _ t k _ => ?_
  · rw [hro w]
    exact hw
  · rw [hro w]

theorem getIoClient_local (conf : ConfigurationManager) (i : Nat) :
    Thread.Confined I K W (fun _ => True) (atom (IoFactory.getIoClient conf i)) := by
  refine local_confined ((getIoClient_confined i).returning fun _ _ _ _ _ => trivial) ?_
  unfold IoFactory.getIoClient
  split
  · exact ReadOnly.pure _
  · exact ReadOnly.raise _

theorem slice_local (buffer : Option (List UInt8)) (offset length : Nat) :
    Thread.Confined I K W (fun _ => True) (atom (slice buffer offset length)) :=
  local_confined (slice_confined _ _ _) (slice_readOnly _ _ _)

theorem blit_local (target : List UInt8) (offset : Nat) (bytes : List UInt8) :
    Thread.Confined I K W (fun _ => True) (atom (blit target offset bytes)) := by
  refine local_confined (blit_confined _ _ _) ?_
  unfold blit
  split
  · exact ReadOnly.pure _
  · exact ReadOnly.raise _

/-- What is converted from a packed `Data` has its name. -/
theorem convert_pack_id {d d' : Data} (h : Data.convert d.pack = .ok d') : d'.id = d.id := by
  have hconvert : ∃ packed : List UInt8, Data.convert d.pack = copyBuffer packed d.dataSize >>= fun buffer =>
      .ok { id := d.id, position := d.position, buffer, dataSize := d.dataSize, storageIndex := d.storageIndex } :=
    ⟨_, rfl⟩
  obtain ⟨packed, hconvert⟩ := hconvert
  rw [hconvert] at h
  cases hcopy : copyBuffer packed d.dataSize with
  | error fault =>
    rw [hcopy] at h
    cases h
  | ok buffer =>
    rw [hcopy] at h
    rw [← Except.ok.inj h]

/-- A `Data` keeps its name on the wire. -/
theorem transfer_local [Wire] (d : Data) : Thread.Confined I K W (fun d' => d'.id = d.id) (atom (Client.transfer d)) := by
  have hdecoded : Wire.dec (Wire.enc d.pack) = some (d.pack, []) := by
    rw [← List.append_nil (Wire.enc d.pack), Wire.dec_enc]
  have hreceived : EStateM.Confined (fun _ : Backends => True) (∅ : Set CharStruct) (fun d' => d'.id = d.id)
      (Client.received d.pack) ∧ ReadOnly (Client.received d.pack) := by
    unfold Client.received
    rw [hdecoded]
    dsimp only
    cases hconvert : Data.convert d.pack with
    | ok d' => exact ⟨EStateM.Confined.pure (convert_pack_id hconvert), ReadOnly.pure _⟩
    | error fault => exact ⟨EStateM.Confined.raise _, ReadOnly.raise _⟩
  unfold Client.transfer
  cases d.buffer with
  | none => exact local_confined hreceived.1 hreceived.2
  | some buffer =>
    have hdiscard : ∀ x : Prog (List UInt8), (discard x : Prog PUnit) = x >>= fun _ => pure ⟨⟩ := fun x => by
      show Functor.mapConst PUnit.unit x = _
      rw [map_const, Function.comp_apply, map_eq_pure_bind]
    dsimp only
    rw [hdiscard, bind_assoc]
    refine local_confined ((slice_confined _ _ _).bind fun _ _ => ?_) ((slice_readOnly _ _ _).bind fun _ => ?_)
    · rw [pure_bind]
      exact hreceived.1
    · rw [pure_bind]
      exact hreceived.2

end confined

/-! ### The chunks of a file -/

section handler

variable [Wire] {conf : ConfigurationManager} {env : Env} {id : CharStruct}

/-- The step touches the keys of the file only, and keeps its records good. -/
abbrev Keeps (conf : ConfigurationManager) (id : CharStruct) {α : Type} (P : α → Prop) (t : ServerThread α) : Prop :=
  Thread.Confined (MetaInv conf id) (keys id) (keys id) P t

/-- The write of an object of the file. -/
theorem writeObject_keeps (t : IoClientType) {source destination : Data} {s : Nat}
    (hid : destination.id = objectId id s) :
    Keeps conf id (fun _ => True) (atom (IoClient.write t source destination)) := by
  have hkey : destination.id ∈ keys id := hid ▸ objectId_mem_keys id s
  refine Steps.atom_confined ((write_confined t source destination).widen (Set.singleton_subset_iff.mpr hkey)
    fun w hw => hw.congr fun t' => ?_)
  refine (write_confined t source destination).outside w trivial t' _ ?_
  rw [Set.mem_singleton_iff, hid]
  exact (objectId_ne_metaId id s).symm

/-- The removal of one. -/
theorem removeObject_keeps (t : IoClientType) {source : Data} {s : Nat} (hid : source.id = objectId id s) :
    Keeps conf id (fun _ => True) (atom (IoClient.remove t source)) := by
  have hkey : source.id ∈ keys id := hid ▸ objectId_mem_keys id s
  refine Steps.atom_confined ((remove_confined t source).widen (Set.singleton_subset_iff.mpr hkey) fun w hw => ?_)
  rw [remove_run]
  exact hw.remove source.id

/-- The read of one. -/
theorem readObject_keeps (t : IoClientType) {source destination : Data} {s : Nat} (hid : source.id = objectId id s) :
    Keeps conf id (fun _ => True) (atom (IoClient.read t source destination)) :=
  Steps.look (read_confined t source destination) (read_readOnly t source destination)
    (hid ▸ objectId_mem_keys id s) fun _ _ _ _ _ => trivial

/-- The chunks are objects of the file. -/
def Objects (id : CharStruct) (objs : List DataDescriptor) : Prop := ∀ obj ∈ objs, ∃ s, obj.id = objectId id s

omit [Wire] in
theorem map_objects {m offset n : Nat} {objs : List DataDescriptor}
    (h : DataMapper.map m { id, position := offset, size := n } = some objs) : Objects id objs := fun obj hobj => by
  obtain ⟨s, -, hs⟩ := chunks_ids h obj hobj
  exact ⟨s, hs⟩

theorem writeChunks_keeps (t : IoClientType) (dbType : Nat) (data : List UInt8) {objs : List DataDescriptor}
    (h : Objects id objs) (sourcePosition : Nat) :
    Keeps conf id (fun _ => True) (writeChunks t dbType data objs sourcePosition) := by
  induction objs generalizing sourcePosition with
  | nil => exact Thread.Confined.pure trivial
  | cons obj objs ih =>
    obtain ⟨s, hs⟩ := h obj List.mem_cons_self
    exact (writeObject_keeps t hs).bind fun _ _ => ih (fun obj hobj => h obj (List.mem_cons_of_mem _ hobj)) _

theorem readChunks_keeps (t : IoClientType) (dbType : Nat) (printP : Bool) (requestSize : Nat)
    {objs : List DataDescriptor} (h : Objects id objs) (dataOffset : Int) :
    Keeps conf id (fun _ => True) (readChunks t dbType printP requestSize objs dataOffset) := by
  induction objs generalizing dataOffset with
  | nil => exact Thread.Confined.pure trivial
  | cons obj objs ih =>
    obtain ⟨s, hs⟩ := h obj List.mem_cons_self
    refine (readObject_keeps t hs).bind fun destination _ => ?_
    dsimp only
    split_ifs
    · exact Thread.Confined.raise _
    · exact Thread.Confined.pure trivial
    · exact (ih (fun obj hobj => h obj (List.mem_cons_of_mem _ hobj)) _).bind fun _ _ => Thread.Confined.pure trivial

theorem removeChunks_keeps (t : IoClientType) (dbType : Nat) {objs : List DataDescriptor} (h : Objects id objs) :
    Keeps conf id (fun _ => True) (removeChunks t dbType objs) := by
  refine Thread.Confined.forM fun obj hobj => ?_
  obtain ⟨s, hs⟩ := h obj hobj
  exact (removeObject_keeps t hs).discard

/-! ### The calls of the client -/

theorem storeRequest_keeps {draw : Nat} {source destination : Data} (hid : destination.id = id) :
    Keeps conf id (fun _ => True) (storeRequest conf env draw source destination) := by
  refine (transfer_local source).bind fun _ _ => (transfer_local destination).bind fun destination' hid' => ?_
  exact (Steps.store_confined (hid'.trans hid)).discard

theorem locateRequest_keeps {source destination : Data} (hid : source.id = id) :
    Keeps conf id (fun _ => True) (locateRequest conf env source destination) := by
  refine (transfer_local source).bind fun source' hid' => (transfer_local destination).bind fun destination' _ => ?_
  have hlocate : Keeps conf id (fun _ => True) (Steps.locateData conf env source' destination') := by
    refine Steps.locateData_confined ?_
    refine (Steps.locate_confined (fun _ hw => hw) (metaId_mem_keys id) (hid'.trans hid)).mono fun r hr d hd => ?_
    obtain ⟨-, s, hs⟩ := hr.names d hd
    exact hs ▸ objectId_mem_keys id s
  refine hlocate.bind fun located _ => (transfer_local located).bind fun ret _ => ?_
  refine (slice_local _ _ _).bind fun bytes _ => ?_
  cases destination.buffer with
  | none => exact Thread.Confined.pure trivial
  | some buffer => exact (blit_local _ _ _).bind fun _ _ => Thread.Confined.pure trivial

theorem deleteRequest_keeps {request : Data} (hid : request.id = id) :
    Keeps conf id (fun _ => True) (deleteRequest conf env request) :=
  (transfer_local request).bind fun _ hid' => Steps.delete_confined (hid'.trans hid)

/-! ### The calls of the handler -/

variable {lh : LibHandler}

theorem read_keeps (offset requestSize : Nat) (data : Option (List UInt8)) :
    Keeps conf lh.file (fun _ => True) (read conf env lh offset requestSize data) := by
  have hrequest : ∀ source destination : Data, source.id = lh.file → ∀ f : Data → Ran,
      Keeps conf lh.file (fun _ => True) (do
        let destination ← locateRequest conf env source destination
        return some (f destination)) :=
    fun _ _ hid _ => (locateRequest_keeps hid).bind fun _ _ => Thread.Confined.pure trivial
  unfold read
  cases hmap : lh.mapRequest offset requestSize with
  | none => exact Thread.Confined.raise _
  | some objs =>
    cases lh.libType with
    | iris =>
      exact (getIoClient_local conf _).bind fun t _ =>
        (readChunks_keeps t _ _ _ (map_objects hmap) 0).bind fun _ _ => Thread.Confined.pure trivial
    | posix => exact Thread.Confined.pure trivial
    | niobe => exact hrequest _ _ rfl _
    | symbios => exact hrequest _ _ rfl _

theorem write_keeps (draw offset requestSize : Nat) (data : Option (List UInt8)) :
    Keeps conf lh.file (fun _ => True) (write conf env draw lh offset requestSize data) := by
  have hrequest : ∀ source destination : Data, destination.id = lh.file → ∀ ran : Option Ran,
      Keeps conf lh.file (fun _ => True) (do
        storeRequest conf env draw source destination
        return ran) :=
    fun _ _ hid _ => (storeRequest_keeps hid).bind fun _ _ => Thread.Confined.pure trivial
  unfold write
  cases lh.libType with
  | iris =>
    refine (getIoClient_local conf _).bind fun t _ =>
      Thread.Confined.bind (P := fun _ => True) ?_ fun _ _ => Thread.Confined.pure trivial
    unfold doMappedWrite
    cases hmap : DataMapper.map (lh.maxObjSize % 2 ^ 32) { id := lh.file, position := offset, size := requestSize } with
    | none => exact Thread.Confined.raise _
    | some objs =>
      cases objs with
      | nil => exact Thread.Confined.raise _
      | cons obj objs => exact writeChunks_keeps t _ _ (map_objects hmap) 0
  | posix => exact Thread.Confined.pure trivial
  | niobe => exact hrequest _ _ rfl _
  | symbios => exact hrequest _ _ rfl _

theorem delete_keeps (offset requestSize : Nat) (data : Option (List UInt8)) :
    Keeps conf lh.file (fun _ => True) (delete conf env lh offset requestSize data) := by
  have hrequest : ∀ request : Data, request.id = lh.file → ∀ ran : Option Ran,
      Keeps conf lh.file (fun _ => True) (do
        discard (deleteRequest conf env request)
        return ran) :=
    fun _ hid _ => (deleteRequest_keeps hid).discard.bind fun _ _ => Thread.Confined.pure trivial
  unfold delete
  cases hmap : lh.mapRequest offset requestSize with
  | none => exact Thread.Confined.raise _
  | some objs =>
    cases objs with
    | nil => exact Thread.Confined.raise _
    | cons obj objs =>
      cases lh.libType with
      | iris =>
        exact (getIoClient_local conf _).bind fun t _ =>
          (removeChunks_keeps t _ (map_objects hmap)).bind fun _ _ => Thread.Confined.pure trivial
      | posix => exact Thread.Confined.pure trivial
      | niobe => exact hrequest _ rfl _
      | symbios => exact hrequest _ rfl _

/-- **Every step of a call touches the keys of the handler's file only, in whichever mode.** -/
theorem run_keeps (draw : Nat) (call : LibCall) :
    Keeps conf lh.file (fun _ => True) (run conf env draw lh call) := by
  unfold run
  cases call.opType with
  | read => exact read_keeps _ _ _
  | write => exact write_keeps draw _ _ _
  | delete => exact delete_keeps _ _ _

variable (draws : Nat → Nat) (rand : Nat → Nat → Nat)

theorem eachLine_keeps (short : Nat) (call : (Nat → Nat) → TraceLine → Option (Option LibCall))
    (lines : List (List UInt8)) (n : Nat) :
    Keeps conf lh.file (fun _ => True) (eachLine conf env draws rand lh short call lines n) := by
  induction lines generalizing n with
  | nil => exact Thread.Confined.pure trivial
  | cons line lines ih =>
    rw [eachLine]
    split_ifs
    · exact Thread.Confined.pure trivial
    · cases (parseLine line).bind (call (rand n)) with
      | none => exact Thread.Confined.raise _
      | some found =>
        cases found with
        | none => exact ih n
        | some libCall =>
          refine (run_keeps (draws n) libCall).bind fun ran _ => ?_
          cases ran with
          | none => exact Thread.Confined.pure trivial
          | some ran => exact (ih (n + 1)).bind fun _ _ => Thread.Confined.pure trivial

theorem replayTrace_keeps (trace : List UInt8) (rep n : Nat) :
    Keeps conf lh.file (fun _ => True) (replayTrace conf env draws rand lh trace rep n) := by
  induction rep generalizing n with
  | zero => exact Thread.Confined.pure trivial
  | succ rep ih =>
    refine (eachLine_keeps draws rand 4 _ _ n).bind fun found _ => ?_
    cases found with
    | none => exact Thread.Confined.pure trivial
    | some rans => exact (ih _).bind fun _ _ => Thread.Confined.pure trivial

end handler

/-! ## The data files -/

theorem dataFile_injective (output : CharStruct) : Function.Injective (dataFile output) := by
  intro a b h
  exact Decimal.decimal_injective (List.append_cancel_left (List.append_cancel_right h))

/-- No data file is another one followed by digits: they all end in `t`. -/
theorem dataFile_extends (output : CharStruct) (a b : Nat) :
    ¬ Decimal.Extends (dataFile output a) (dataFile output b) := by
  rintro ⟨front, hfront, hne, hdigits, -⟩
  have hlast : front.getLast? = some 0x74 := by
    have hend := congrArg List.getLast? hfront
    rw [List.getLast?_append_of_ne_nil _ hne] at hend
    rw [← hend, dataFile, List.getLast?_append_of_ne_nil _ (by decide)]
    rfl
  obtain ⟨d, hd, hdigit⟩ := hdigits _ (List.mem_of_getLast? hlast)
  have hno : ∀ d < 10, (0x74 : UInt8) ≠ Decimal.digitByte d := by decide
  exact hno d hd hdigit

/-- **The data files of two ranks have no keys in common.** -/
theorem dataFile_apart (output : CharStruct) {a b : Nat} (hab : a ≠ b) :
    Disjoint (keys (dataFile output a)) (keys (dataFile output b)) :=
  (keys_disjoint_iff fun h => hab (dataFile_injective output h)).mpr
    ⟨dataFile_extends output a b, dataFile_extends output b a⟩

/-! ## Any schedule -/

namespace Application

section ranks

variable [Wire] (conf : ConfigurationManager) (env : Env) (app : Application)

theorem program_main (draws : Nat → Nat → Nat) (rand : Nat → Nat → Nat → Nat) (rank : Nat) :
    program (app.main conf env draws rand rank) = app.mainAlone conf env draws rand rank := by
  rw [main, mainAlone, program_bind, program_replayTrace]
  congr 1
  funext produced
  cases produced with
  | none => rfl
  | some produced =>
    dsimp only
    rw [program_bind, program_replayTrace]
    congr 1
    funext consumed
    cases consumed with
    | none => rfl
    | some consumed =>
      dsimp only
      rw [program_bind, program_cleanData]
      congr 1
      funext cleaned
      cases cleaned with
      | none => rfl
      | some cleaned => rfl

theorem main_keeps (draws : Nat → Nat → Nat) (rand : Nat → Nat → Nat → Nat) (rank : Nat) :
    Keeps conf (dataFile app.output rank) (fun _ => True) (app.main conf env draws rand rank) := by
  have hreplay : ∀ p trace, Keeps conf (app.handler rank).file (fun _ => True)
      (replayTrace conf env (draws p) (rand p) (app.handler rank) trace app.reps 0) :=
    fun p trace => replayTrace_keeps (draws p) (rand p) trace app.reps 0
  have hclean : Keeps conf (app.handler rank).file (fun _ => True)
      (cleanData conf env (draws 2) (rand 2) (app.handler rank) app.producer 0) :=
    eachLine_keeps (draws 2) (rand 2) 0 _ _ 0
  refine (hreplay 0 app.producer).bind fun produced _ => ?_
  cases produced with
  | none => exact Thread.Confined.pure trivial
  | some produced =>
    refine (hreplay 1 app.consumer).bind fun consumed _ => ?_
    cases consumed with
    | none => exact Thread.Confined.pure trivial
    | some consumed =>
      refine hclean.bind fun cleaned _ => ?_
      cases cleaned with
      | none => exact Thread.Confined.pure trivial
      | some cleaned => exact Thread.Confined.pure trivial

variable (draws : Nat → Nat → Nat → Nat) (rand : Nat → Nat → Nat → Nat → Nat) {w : Backends}

theorem ranks_separated (hw : ∀ rank, MetaInv conf (dataFile app.output rank) w) :
    Separated (fun rank w => MetaInv conf (dataFile app.output rank) w) (fun rank => keys (dataFile app.output rank))
      (fun rank => keys (dataFile app.output rank)) (fun _ _ => True) (app.ranks conf env draws rand w) where
  confined rank := app.main_keeps conf env (draws rank) (rand rank) rank
  holds := hw
  disjoint _ _ hne := dataFile_apart app.output hne.symm
  respects _ s s' hagree hs := metaInv_of_agree s s' hagree hs

end ranks

section emulation

open TraceReplayer

variable {t : IoClientType} {m : Nat} {f : Nat → Option UInt8} {producer consumer : List TraceEntry}

/-- The lines of both traces suit the client. The producer reads what is there when it starts, and what the consumer
reads is there then or written by the producer. -/
structure Workflow (t : IoClientType) (m : Nat) (f : Nat → Option UInt8) (producer consumer : List TraceEntry) :
    Prop where
  producer_suits : ∀ e ∈ producer, e.operation = writeWord ∨ e.operation = readWord → Suits t m e
  consumer_suits : ∀ e ∈ consumer, e.operation = writeWord ∨ e.operation = readWord → Suits t m e
  starts : ∀ e ∈ producer, e.operation = readWord → AllThere f e.offset e.size
  follows : ∀ e ∈ consumer, e.operation = readWord → ∀ o, e.offset ≤ o → o < e.offset + e.size →
    (f o).isSome ∨ ∃ e' ∈ producer, e'.operation = writeWord ∧ e'.offset ≤ o ∧ o < e'.offset + e'.size

theorem repeatCalls_mem (rand : Nat → Nat → Nat) {entries : List TraceEntry} {e : TraceEntry} (he : e ∈ entries)
    {c : (Nat → Nat) → LibCall} (hcall : ∀ r, replayCall r e.line = some (some (c r))) {rep : Nat} (hrep : 0 < rep)
    (n : Nat) : ∃ r, c r ∈ repeatCalls rand entries rep n := by
  obtain ⟨rep, rfl⟩ : ∃ rep', rep = rep' + 1 := ⟨rep - 1, by omega⟩
  obtain ⟨r, hr⟩ := callsOf_mem rand he hcall n
  exact ⟨r, List.mem_append_left _ hr⟩

/-- After the producer, what the consumer reads is there. -/
theorem Workflow.there (h : Workflow t m f producer consumer) {reps : Nat} (hreps : 0 < reps) (rand : Nat → Nat → Nat)
    {e : TraceEntry} (he : e ∈ consumer) (hread : e.operation = readWord) :
    AllThere (LibCall.ideal m (repeatCalls rand producer reps 0) f).2 e.offset e.size := by
  have hkeeping : ∀ c ∈ repeatCalls rand producer reps 0, c.opType ≠ .delete :=
    fun c hc => (replay_steady h.producer_suits h.starts c hc).1
  intro o hle hlt
  rcases h.follows e he hread o hle hlt with ho | ⟨e', he', hwrite, hle', hlt'⟩
  · exact ideal_keeps hkeeping ho
  · have hcall : ∀ r, replayCall r e'.line = some (some ⟨.write, e'.offset, e'.size, randstring r e'.size⟩) := fun r => by
      rw [replayCall_line, if_pos hwrite]
    obtain ⟨r, hr⟩ := repeatCalls_mem rand he' hcall hreps 0
    exact ideal_there hkeeping hr rfl (randstring_length r e'.size) o hle' hlt'

variable [Wire] {conf : ConfigurationManager} {app : Application}

/-- A rank on its own: the producer, the consumer, and the cleaning. -/
theorem mainAlone_emulates (hiris : app.libType = .iris) (hbackend : conf.backend app.dbType = some t)
    (hsize : app.chunk % 2 ^ 32 = m) (hm : 0 < m) (hreps : 0 < app.reps)
    (hplain : ∀ e ∈ producer, e.Plain) (hplain' : ∀ e ∈ consumer, e.Plain) (hproducer : IsTrace producer app.producer)
    (hconsumer : IsTrace consumer app.consumer) (h : Workflow t m f producer consumer) (env : Env)
    (draws : Nat → Nat → Nat) (rand : Nat → Nat → Nat → Nat) (rank : Nat) {w : Backends}
    (hheld : Emulates t m (dataFile app.output rank) f w) :
    ∃ produced consumed cleaned w',
      app.mainAlone conf env draws rand rank w = .ok (some (produced, consumed, cleaned)) w' ∧
      produced.map (fun ran => ran.buffers.flatten) = (LibCall.ideal m (repeatCalls (rand 0) producer app.reps 0) f).1 ∧
      consumed.map (fun ran => ran.buffers.flatten) = (LibCall.ideal m (repeatCalls (rand 1) consumer app.reps 0)
        (LibCall.ideal m (repeatCalls (rand 0) producer app.reps 0) f).2).1 ∧
      ∀ e ∈ producer, e.operation = writeWord → ∀ s, e.Touches m s →
        w' t (objectId (dataFile app.output rank) s) = none := by
  have hlh : Emulator conf (app.handler rank) t m := ⟨hiris, hbackend, hsize, hm⟩
  obtain ⟨produced, w₁, hproduce, hproduced, -, hheld₁⟩ := runAll_iris env hlh rfl hheld (draws 0) _ 0
    (allAdmissible_of_steady (replay_steady h.producer_suits h.starts))
  obtain ⟨consumed, w₂, hconsume, hconsumed, -, -⟩ := runAll_iris env hlh rfl hheld₁ (draws 1) _ 0
    (allAdmissible_of_steady (replay_steady h.consumer_suits fun e he hread => h.there hreps (rand 0) he hread))
  obtain ⟨cleaned, w₃, hclean, hgone, -⟩ := cleanData_run hlh hplain hproducer
    (fun e he hwrite => h.producer_suits e he (Or.inl hwrite)) env (draws 2) (rand 2) 0 w₂
  refine ⟨produced, consumed, cleaned, w₃, ?_, hproduced, hconsumed, hgone⟩
  rw [← replayTrace_calls (rand 0) conf env (draws 0) (app.handler rank) hplain hproducer] at hproduce
  rw [← replayTrace_calls (rand 1) conf env (draws 1) (app.handler rank) hplain' hconsumer] at hconsume
  exact (bind_ok hproduce).trans ((bind_ok hconsume).trans (bind_ok hclean))

end emulation

/-! ## Two bytes for each rank -/

section short

open TraceReplayer

/-- Every rank writes two bytes and reads them. -/
def twoBytes (libType : IoLib) : Application :=
  { libType, dbType := 0, chunk := 4, reps := 1, output := [0x66],
    producer := [87, 82, 73, 84, 69, 44, 48, 44, 50, 10], consumer := [82, 69, 65, 68, 44, 48, 44, 50] }

/-- The bytes are drawn by the number of the rank. -/
def byRank : Nat → Nat → Nat → Nat → Nat := fun rank _ _ _ => rank

/-- The two lines of `twoLines`, one for the producer and one for the consumer. -/
theorem twoBytes_workflow (f : Nat → Option UInt8) :
    Workflow .redisIo 4 f [⟨writeWord, 0, 2⟩] [⟨readWord, 0, 2⟩] where
  producer_suits e he _ := twoLines_suits e (List.mem_cons.mpr (Or.inl (List.mem_singleton.mp he)))
  consumer_suits e he _ := twoLines_suits e (List.mem_cons_of_mem _ he)
  starts e he hread := by
    obtain rfl := List.mem_singleton.mp he
    cases hread
  follows e he _ o hle hlt := by
    obtain rfl := List.mem_singleton.mp he
    exact Or.inr ⟨_, List.mem_cons_self, rfl, hle, hlt⟩

end short

end Application

end Symbios.Ranks
