import Symbios.Model.Posix
import Symbios.Model.Server

/-!
# The client, and the interception over it

`client.cpp`: every call goes to the procedure of the same name at a server that `rand()` picks. All servers work on
the same backends, so that the choice makes no difference and is left out; the RPC delivers the call and the reply. A
`Data` crosses the wire as a msgpack object (`transfer`), numbers and booleans as they are.

The second half is `posix.cpp` as it is: over this client, where `Symbios.Model.Posix` has it over an ideal one.
-/

namespace Symbios

namespace Client

variable [Wire] (conf : ConfigurationManager) (env : Env)

/-- What an object is at the other end of the wire. -/
def received (o : Obj) : Prog Data :=
  match Wire.dec (Wire.enc o) with
  | none => throw .unpack
  | some (o, _) =>
    match Data.convert o with
    | .ok d => return d
    | .error fault => throw fault

/-- A `Data` that crosses the wire. A buffer is packed as `data_size_` bytes, whatever its length is. -/
def transfer (d : Data) : Prog Data :=
  match d.buffer with
  | none => received d.pack
  | some _ => do
    discard (slice d.buffer 0 d.dataSize)
    received d.pack

/-- `Client::StoreRequest`. The number of servers that comes back is not used. -/
def storeRequest (draw : Nat) (source destination : Data) : Prog Unit := do
  let source ← transfer source
  let destination ← transfer destination
  discard (Server.store conf env draw source destination)

/-- `Client::LocateRequest`, with the destination as it leaves it: only the buffer is filled, with as many bytes as the
reply says. -/
def locateRequest (source destination : Data) : Prog Data := do
  let remoteSource ← transfer source
  let remoteDestination ← transfer destination
  let ret ← transfer (← Server.locate conf env remoteSource remoteDestination)
  let bytes ← slice ret.buffer 0 ret.dataSize
  match destination.buffer with
  | none => return { destination with buffer := some bytes }
  | some buffer => return { destination with buffer := some (← blit buffer 0 bytes) }

/-- `Client::Delete`. -/
def delete (request : Data) : Prog Bool := do
  Server.delete conf env (← transfer request)

/-- `Client::Size`. -/
def size (request : Data) : Prog Nat := do
  Server.size conf env (← transfer request)

end Client

/-! ## The interception -/

/-- `fileDescriptorMap_`. -/
abbrev FileDescriptorMap := Nat → Option PosixStat

namespace FileDescriptorMap

variable [Wire] (conf : ConfigurationManager) (env : Env) (map : FileDescriptorMap)

/-- `UpdateStat`. -/
def updateStat (fh : Nat) (stat : PosixStat) : FileDescriptorMap := Function.update map fh (some stat)

/-- `UpdateOnOpen`. -/
def updateOnOpen (fh : Nat) (stat : PosixStat) : Prog FileDescriptorMap := do
  let source : Data := { id := stat.filename, storageIndex := stat.storageIndex.toNat }
  let stat : PosixStat :=
    if stat.mode = .w ∨ stat.mode = .wPlus ∨ stat.mode = .r ∨ stat.mode = .rPlus then { stat with filePointer := 0 }
    else stat
  let fileSize ← Client.size conf env source
  let stat : PosixStat := { stat with fileSize := .ofNat fileSize }
  let stat ← if stat.mode = .wPlus then do
      discard (Client.delete conf env source)
      pure { stat with fileSize := 0 }
    else pure stat
  let stat : PosixStat :=
    if stat.mode = .aPlus ∨ stat.mode = .a then { stat with filePointer := stat.fileSize } else stat
  return map.updateStat fh stat

/-- `fopen`, where `fh` is the stream that `fmemopen` gives. -/
def fopen (mounts : MountPoints) (fh : Nat) (filename : CharStruct) (mode : OpenMode) :
    Prog (Option FileDescriptorMap) :=
  match mounts.intercept filename with
  | none => return none
  | some storageIndex => some <$> map.updateOnOpen conf env fh { filename, mode, storageIndex }

/-- `fclose`. -/
def fclose (stream : Nat) : Option (Int32 × FileDescriptorMap) :=
  (map stream).map fun _ => (0, Function.update map stream none)

/-- `fseek`. No file is looked at, so this is the ideal interception's. -/
def fseek (stream : Nat) (offset : Int64) (origin : Origin) : Option (Int32 × FileDescriptorMap) :=
  (Posix.fseek ⟨map, fun _ => none⟩ stream offset origin).map fun r => (r.1, r.2.fileDescriptorMap)

/-- `fread`: the value it returns and the bytes at `ptr`. -/
def fread (size count : UInt64) (stream : Nat) : Prog (Option (UInt64 × List UInt8)) :=
  match map stream with
  | none => return none
  | some stat =>
    match stat.request size count with
    | none => return some (-1, [])
    | some source => do
      let destination ← Client.locateRequest conf env source { source with position := 0 }
      if UInt64.ofNat destination.dataSize ≠ size * count then return some (.ofNat destination.dataSize, [])
      else return some (.ofNat destination.dataSize, ← slice destination.buffer 0 destination.dataSize)

/-- `fwrite`, with the bytes at `ptr`. -/
def fwrite (draw : Nat) (ptr : List UInt8) (size count : UInt64) (stream : Nat) :
    Prog (Option (UInt64 × FileDescriptorMap)) :=
  match map stream with
  | none => return none
  | some stat =>
    match stat.request size count with
    | none => return some (-1, map)
    | some destination => do
      let dataSize := size * count
      let data ← slice (some ptr) 0 destination.dataSize
      Client.storeRequest conf env draw { destination with position := 0, buffer := some data } destination
      if dataSize + stat.filePointer > stat.fileSize then
        return some (dataSize, map.updateStat stream { stat with fileSize := dataSize + stat.filePointer })
      else return some (dataSize, map)

end FileDescriptorMap

/-- What the application sees of a call; `none` is the C library's own answer. -/
inductive PosixReply where
  | opened (tracked : Bool)
  | sought (value : Option Int32)
  | readData (value : Option (UInt64 × List UInt8))
  | wrote (value : Option UInt64)
  | closed (value : Option Int32)
deriving DecidableEq

/-- A call over the servers. -/
def PosixCall.serve [Wire] (conf : ConfigurationManager) (env : Env) (mounts : MountPoints) (draw : Nat)
    (map : FileDescriptorMap) : PosixCall → Prog (PosixReply × FileDescriptorMap)
  | .fopen fh filename mode => do
    let r ← map.fopen conf env mounts fh filename mode
    return (.opened r.isSome, r.getD map)
  | .fseek stream offset origin =>
    let r := map.fseek stream offset origin
    return (.sought (r.map Prod.fst), (r.map Prod.snd).getD map)
  | .fread size count stream => do
    return (.readData (← map.fread conf env size count stream), map)
  | .fwrite ptr size count stream => do
    let r ← map.fwrite conf env draw ptr size count stream
    return (.wrote (r.map Prod.fst), (r.map Prod.snd).getD map)
  | .fclose stream =>
    let r := map.fclose stream
    return (.closed (r.map Prod.fst), (r.map Prod.snd).getD map)

/-- A call over the ideal client. -/
def PosixCall.reply (mounts : MountPoints) (s : Posix) : PosixCall → PosixReply
  | .fopen fh filename mode => .opened (s.fopen mounts fh filename mode).isSome
  | .fseek stream offset origin => .sought ((s.fseek stream offset origin).map Prod.fst)
  | .fread size count stream => .readData (s.fread size count stream)
  | .fwrite ptr size count stream => .wrote ((s.fwrite ptr size count stream).map Prod.fst)
  | .fclose stream => .closed ((s.fclose stream).map Prod.fst)

/-- The replies to the calls of an application over the servers; call `k` from `n` on gets the draw `draws k`. -/
def serveCalls [Wire] (conf : ConfigurationManager) (mounts : MountPoints) (draws : Nat → Nat) :
    List PosixCall → Nat → FileDescriptorMap → Prog (List PosixReply × FileDescriptorMap)
  | [], _, map => return ([], map)
  | call :: calls, n, map => do
    let r ← call.serve conf Env.calm mounts (draws n) map
    let rest ← serveCalls conf mounts draws calls (n + 1) r.2
    return (r.1 :: rest.1, rest.2)

/-- The replies over the ideal client, and the interception at the end. -/
def idealCalls (mounts : MountPoints) : List PosixCall → Posix → List PosixReply × Posix
  | [], s => ([], s)
  | call :: calls, s =>
    let rest := idealCalls mounts calls (s.after mounts call)
    (call.reply mounts s :: rest.1, rest.2)

end Symbios
