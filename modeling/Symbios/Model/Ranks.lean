import Symbios.Model.Replayer
import Symbios.Model.Steps

/-!
# The ranks of an application

The replay applications run on many ranks at once, each with a library handler and a data file of its own, over the
same backends. Here the calls of `Symbios.Model.LibHandler` and of `Symbios.Model.Replayer` are threads: every call of
a storage client is one step, made by the rank itself in IRIS mode and by the server thread that serves it in the
others.
-/

namespace Symbios.Ranks

open Thread (atom)
open Steps (ServerThread)

/-! ## The library handler -/

/-- The loop of `do_mapped_write` in IRIS mode. -/
def writeChunks (client : IoClientType) (dbType : Nat) (data : List UInt8) :
    List DataDescriptor → Nat → ServerThread Unit
  | [], _ => pure ()
  | obj :: objs, sourcePosition => do
    atom (IoClient.write client { buffer := some data, position := sourcePosition, dataSize := obj.size }
      { id := obj.id, position := obj.position, dataSize := obj.size, storageIndex := dbType })
    writeChunks client dbType data objs (sourcePosition + obj.size)

/-- `do_mapped_write` in IRIS mode. -/
def doMappedWrite (client : IoClientType) (dbType maxObjSize : Nat) (file : CharStruct) (offset requestSize : Nat)
    (data : List UInt8) : ServerThread Unit :=
  match DataMapper.map (maxObjSize % 2 ^ 32) { id := file, position := offset, size := requestSize } with
  | none => throw .undefined
  | some [] => throw .undefined
  | some (obj :: objs) => writeChunks client dbType data (obj :: objs) 0

/-- The loop of `do_mapped_read` in IRIS mode. -/
def readChunks (client : IoClientType) (dbType : Nat) (printP : Bool) (requestSize : Nat) :
    List DataDescriptor → Int → ServerThread (List (List UInt8))
  | [], _ => return []
  | obj :: objs, dataOffset => do
    let destinationSize :=
      if requestSize < toSize (dataOffset + obj.size) then toSize (requestSize - dataOffset) else obj.size
    let destination ← atom (IoClient.read client
      { id := obj.id, position := obj.position, dataSize := obj.size, storageIndex := dbType }
      { dataSize := destinationSize })
    let buffer := destination.buffer.getD []
    if printP ∧ buffer.length ≤ obj.size then throw .undefined
    else
      let dataOffset := toInt (dataOffset + obj.size)
      if requestSize < toSize dataOffset then return [buffer]
      else return buffer :: (← readChunks client dbType printP requestSize objs dataOffset)

/-- The loop of `do_mapped_delete` in IRIS mode. -/
def removeChunks (client : IoClientType) (dbType : Nat) (objs : List DataDescriptor) : ServerThread Unit :=
  objs.forM fun obj =>
    discard (atom (IoClient.remove client { id := obj.id, position := obj.position, storageIndex := dbType }))

section calls

variable [Wire] (conf : ConfigurationManager) (env : Env)

/-- `Client::StoreRequest`. -/
def storeRequest (draw : Nat) (source destination : Data) : ServerThread Unit := do
  let source ← atom (Client.transfer source)
  let destination ← atom (Client.transfer destination)
  discard (Steps.store conf env draw source destination)

/-- `Client::LocateRequest`. -/
def locateRequest (source destination : Data) : ServerThread Data := do
  let remoteSource ← atom (Client.transfer source)
  let remoteDestination ← atom (Client.transfer destination)
  let located ← Steps.locateData conf env remoteSource remoteDestination
  let ret ← atom (Client.transfer located)
  let bytes ← atom (slice ret.buffer 0 ret.dataSize)
  match destination.buffer with
  | none => return { destination with buffer := some bytes }
  | some buffer => return { destination with buffer := some (← atom (blit buffer 0 bytes)) }

/-- `Client::Delete`. -/
def deleteRequest (request : Data) : ServerThread Bool := do
  let request ← atom (Client.transfer request)
  Steps.delete conf env request

variable (draw : Nat) (lh : LibHandler)

/-- `LibHandler::do_mapped_write`. -/
def write (offset requestSize : Nat) (data : Option (List UInt8)) : ServerThread (Option Ran) :=
  match lh.libType with
  | .iris => do
    let client ← atom (IoFactory.getIoClient conf lh.dbType)
    doMappedWrite client lh.dbType lh.maxObjSize lh.file offset requestSize (data.getD [])
    return some { data }
  | .posix => return none
  | _ => do
    let destination : Data := { id := lh.file, position := offset, dataSize := requestSize, storageIndex := lh.dbType }
    storeRequest conf env draw { destination with buffer := data, position := 0 } destination
    return some { data }

/-- `LibHandler::do_mapped_delete`. -/
def delete (offset requestSize : Nat) (data : Option (List UInt8)) : ServerThread (Option Ran) :=
  match lh.mapRequest offset requestSize with
  | none => throw .undefined
  | some [] => throw .undefined
  | some (obj :: objs) =>
    match lh.libType with
    | .iris => do
      let client ← atom (IoFactory.getIoClient conf lh.dbType)
      removeChunks client lh.dbType (obj :: objs)
      return some { data }
    | .posix => return none
    | _ => do
      discard (deleteRequest conf env
        { buffer := data, id := lh.file, position := offset, dataSize := requestSize, storageIndex := lh.dbType })
      return some { data }

/-- `LibHandler::do_mapped_read`. -/
def read (offset requestSize : Nat) (data : Option (List UInt8)) : ServerThread (Option Ran) :=
  match lh.mapRequest offset requestSize with
  | none => throw .undefined
  | some objs =>
    match lh.libType with
    | .iris => do
      let client ← atom (IoFactory.getIoClient conf lh.dbType)
      let buffers ← readChunks client lh.dbType lh.printP requestSize objs 0
      return some { buffers, data }
    | .posix => return none
    | _ => do
      let source : Data :=
        { buffer := data, id := lh.file, position := offset, dataSize := requestSize, storageIndex := lh.dbType }
      let destination ← locateRequest conf env source { source with position := 0 }
      return some { data := if data.isSome then destination.buffer else none }

/-- `LibHandler::run`. -/
def run (call : LibCall) : ServerThread (Option Ran) :=
  match call.opType with
  | .read => read conf env lh call.offset call.requestSize call.data
  | .write => write conf env draw lh call.offset call.requestSize call.data
  | .delete => delete conf env lh call.offset call.requestSize call.data

end calls

/-! ## The replayer -/

section replay

variable [Wire] (conf : ConfigurationManager) (env : Env) (draws : Nat → Nat) (rand : Nat → Nat → Nat) (lh : LibHandler)

/-- The loop over the lines of a trace. -/
def eachLine (short : Nat) (call : (Nat → Nat) → TraceLine → Option (Option LibCall)) :
    List (List UInt8) → Nat → ServerThread (Option (List Ran))
  | [], _ => return some []
  | line :: lines, n =>
    if line.length < short then return some []
    else
      match (parseLine line).bind (call (rand n)) with
      | none => throw .undefined
      | some none => eachLine short call lines n
      | some (some libCall) => do
        match ← run conf env (draws n) lh libCall with
        | none => return none
        | some ran => return (← eachLine short call lines (n + 1)).map (ran :: ·)

/-- `replay_trace`. -/
def replayTrace (trace : List UInt8) : Nat → Nat → ServerThread (Option (List Ran))
  | 0, _ => return some []
  | rep + 1, n => do
    match ← eachLine conf env draws rand lh 4 TraceReplayer.replayCall (getlines trace) n with
    | none => return none
    | some rans => return (← replayTrace trace rep (n + rans.length)).map (rans ++ ·)

/-- `clean_data`. -/
def cleanData (trace : List UInt8) (n : Nat) : ServerThread (Option (List Ran)) :=
  eachLine conf env draws rand lh 0 TraceReplayer.cleanCall (getlines trace) n

end replay

/-! ## The application -/

/-- The data file of a rank: `output + "/data_" + std::to_string(rank) + ".bat"`. -/
def dataFile (output : CharStruct) (rank : Nat) : CharStruct :=
  output ++ [0x2f, 0x64, 0x61, 0x74, 0x61, 0x5f] ++ Decimal.decimal rank ++ [0x2e, 0x62, 0x61, 0x74]

/-- What the ranks of an application share: the options of the command line, and the two traces. -/
structure Application where
  libType : IoLib
  dbType : Nat
  chunk : Nat
  reps : Nat
  output : CharStruct
  producer : List UInt8
  consumer : List UInt8

namespace Application

variable [Wire] (conf : ConfigurationManager) (env : Env) (draws : Nat → Nat → Nat) (rand : Nat → Nat → Nat → Nat)
  (app : Application)

/-- The handler of a rank. All three passes of it build the same one. -/
def handler (rank : Nat) : LibHandler :=
  { libType := app.libType, dbType := app.dbType, maxObjSize := app.chunk, file := dataFile app.output rank }

/-- `main` of `wrf` and of `cm1_kmeans`, for one rank in a mode other than POSIX: the producer's trace, the consumer's,
and the cleaning of what the producer wrote. Pass `p` draws from `draws p` and `rand p`. -/
def main (rank : Nat) : ServerThread (Option (List Ran × List Ran × List Ran)) := do
  let lh := app.handler rank
  match ← replayTrace conf env (draws 0) (rand 0) lh app.producer app.reps 0 with
  | none => return none
  | some produced =>
    match ← replayTrace conf env (draws 1) (rand 1) lh app.consumer app.reps 0 with
    | none => return none
    | some consumed =>
      match ← cleanData conf env (draws 2) (rand 2) lh app.producer 0 with
      | none => return none
      | some cleaned => return some (produced, consumed, cleaned)

/-- The same for a rank that is on its own. -/
def mainAlone (rank : Nat) : Prog (Option (List Ran × List Ran × List Ran)) := do
  let lh := app.handler rank
  match ← TraceReplayer.replayTrace conf env (draws 0) (rand 0) lh app.producer app.reps 0 with
  | none => return none
  | some produced =>
    match ← TraceReplayer.replayTrace conf env (draws 1) (rand 1) lh app.consumer app.reps 0 with
    | none => return none
    | some consumed =>
      match ← TraceReplayer.cleanData conf env (draws 2) (rand 2) lh app.producer 0 with
      | none => return none
      | some cleaned => return some (produced, consumed, cleaned)

/-- All ranks over one store. Every rank draws for itself. -/
def ranks (draws : Nat → Nat → Nat → Nat) (rand : Nat → Nat → Nat → Nat → Nat) (w : Backends) :
    Thread.Pool Nat Fault Backends (Option (List Ran × List Ran × List Ran)) where
  state := w
  threads rank := app.main conf env (draws rank) (rand rank) rank

end Application

end Symbios.Ranks
