import Symbios.Model.Client
import Symbios.Model.Iris

/-!
# The library handler

`LibHandler` of `iris.cpp`, the way applications are replayed over a library. In IRIS mode the chunks of the mapper go
through the storage client of `db_type`; in SYMBIOS and in NIOBE mode the request goes to the Symbios client as it is;
for any other mode the process ends (`none`). The configuration that the constructor leaves behind is the one of the
client's process, at which no server looks.
-/

namespace Symbios

/-- `IOLib`. -/
inductive IoLib where
  | posix | iris | niobe | symbios
deriving DecidableEq, Repr

/-- `OPType`. -/
inductive OpType where
  | read | write | delete
deriving DecidableEq, Repr

/-- `LibHandler`. -/
structure LibHandler where
  libType : IoLib
  dbType : Nat
  maxObjSize : Nat
  printP : Bool := false
  file : CharStruct

/-- What an operation leaves: the buffers that were read and freed again, and the caller's buffer. -/
structure Ran where
  buffers : List (List UInt8) := []
  data : Option (List UInt8)
deriving DecidableEq, Repr

namespace LibHandler

/-- The loop of `do_mapped_read` in IRIS mode, with its running `data_offset`, an `int`. The size of the destination is
computed and not used. To print a buffer is to end it with a zero first. -/
def readChunks (client : IoClientType) (dbType : Nat) (printP : Bool) (requestSize : Nat) :
    List DataDescriptor → Int → Prog (List (List UInt8))
  | [], _ => return []
  | obj :: objs, dataOffset => do
    let destinationSize :=
      if requestSize < toSize (dataOffset + obj.size) then toSize (requestSize - dataOffset) else obj.size
    let destination ← IoClient.read client
      { id := obj.id, position := obj.position, dataSize := obj.size, storageIndex := dbType }
      { dataSize := destinationSize }
    let buffer := destination.buffer.getD []
    if printP ∧ buffer.length ≤ obj.size then throw .undefined
    else
      let dataOffset := toInt (dataOffset + obj.size)
      if requestSize < toSize dataOffset then return [buffer]
      else return buffer :: (← readChunks client dbType printP requestSize objs dataOffset)

/-- The loop of `do_mapped_delete` in IRIS mode. -/
def removeChunks (client : IoClientType) (dbType : Nat) (objs : List DataDescriptor) : Prog Unit :=
  objs.forM fun obj => discard (IoClient.remove client { id := obj.id, position := obj.position, storageIndex := dbType })

variable [Wire] (conf : ConfigurationManager) (env : Env) (draw : Nat) (lh : LibHandler)

/-- The chunks of a request. -/
def mapRequest (offset requestSize : Nat) : Option (List DataDescriptor) :=
  DataMapper.map (lh.maxObjSize % 2 ^ 32) { id := lh.file, position := offset, size := requestSize }

/-- `LibHandler::do_mapped_write`. -/
def write (offset requestSize : Nat) (data : Option (List UInt8)) : Prog (Option Ran) :=
  match lh.libType with
  | .iris => do
    let client ← IoFactory.getIoClient conf lh.dbType
    doMappedWrite client lh.dbType lh.maxObjSize lh.file offset requestSize (data.getD [])
    return some { data }
  | .posix => return none
  | _ => do
    let destination : Data := { id := lh.file, position := offset, dataSize := requestSize, storageIndex := lh.dbType }
    Client.storeRequest conf env draw { destination with buffer := data, position := 0 } destination
    return some { data }

/-- `LibHandler::do_mapped_delete`. Before the mode is looked at, the first chunk is. -/
def delete (offset requestSize : Nat) (data : Option (List UInt8)) : Prog (Option Ran) :=
  match lh.mapRequest offset requestSize with
  | none => throw .undefined
  | some [] => throw .undefined
  | some (obj :: objs) =>
    match lh.libType with
    | .iris => do
      let client ← IoFactory.getIoClient conf lh.dbType
      removeChunks client lh.dbType (obj :: objs)
      return some { data }
    | .posix => return none
    | _ => do
      discard (Client.delete conf env
        { buffer := data, id := lh.file, position := offset, dataSize := requestSize, storageIndex := lh.dbType })
      return some { data }

/-- `LibHandler::do_mapped_read`. What the client allocates for a caller without a buffer is lost. -/
def read (offset requestSize : Nat) (data : Option (List UInt8)) : Prog (Option Ran) :=
  match lh.mapRequest offset requestSize with
  | none => throw .undefined
  | some objs =>
    match lh.libType with
    | .iris => do
      let client ← IoFactory.getIoClient conf lh.dbType
      return some { buffers := ← readChunks client lh.dbType lh.printP requestSize objs 0, data }
    | .posix => return none
    | _ => do
      let source : Data :=
        { buffer := data, id := lh.file, position := offset, dataSize := requestSize, storageIndex := lh.dbType }
      let destination ← Client.locateRequest conf env source { source with position := 0 }
      return some { data := if data.isSome then destination.buffer else none }

/-- `LibHandler::run`. -/
def run (opType : OpType) (offset requestSize : Nat) (data : Option (List UInt8)) : Prog (Option Ran) :=
  match opType with
  | .read => lh.read conf env offset requestSize data
  | .write => lh.write conf env draw offset requestSize data
  | .delete => lh.delete conf env offset requestSize data

end LibHandler

/-- A call of `LibHandler::run`. -/
structure LibCall where
  opType : OpType
  offset : Nat
  requestSize : Nat
  data : Option (List UInt8) := none
deriving DecidableEq, Repr

/-- The calls of an application, one after the other; `none` is the end of the process. Call `n` gets the draw
`draws n`. -/
def LibHandler.runAll [Wire] (conf : ConfigurationManager) (env : Env) (draws : Nat → Nat) (lh : LibHandler) :
    List LibCall → Nat → Prog (Option (List Ran))
  | [], _ => return some []
  | call :: calls, n => do
    match ← lh.run conf env (draws n) call.opType call.offset call.requestSize call.data with
    | none => return none
    | some ran => return (← runAll conf env draws lh calls (n + 1)).map (ran :: ·)

end Symbios
