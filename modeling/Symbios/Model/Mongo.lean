import Symbios.Model.Writers

/-!
# `MongoIOClient`, call by call

`mongo_io.cpp` over a collection of documents, with every call of the driver one that may raise. `Write` takes any
exception of its own `Read` for a document that is not there, builds the new value of what it has read, and replaces the
document by `delete_many` and `insert_one`. Sizes are added modulo `2 ^ 64`; a copy outside of its buffers is undefined.
-/

namespace Symbios

/-- How a call of the client ends without returning: with an `ErrorException`, with an exception of the driver, or
undefined. -/
inductive MongoFault where
  | error (code : ErrorCode)
  | driver
  | undefined
deriving DecidableEq, Repr

/-- A call of the client: it keeps what it did to the collection when it raises. -/
abbrev MongoProg := EStateM MongoFault MongoCollection

/-- The calls of the driver that raise. A call that raises has done nothing. -/
structure DriverFaults where
  findOne : Bool := false
  deleteMany : Bool := false
  insertOne : Bool := false
deriving DecidableEq, Repr

namespace MongoIoClient

/-- A copy between buffers, which looks at no backend. -/
def copying {α : Type} (x : Prog α) : MongoProg α :=
  match x fun _ _ => none with
  | .ok a _ => pure a
  | .error _ _ => throw .undefined

variable (faults : DriverFaults)

/-- `file.find_one`. -/
def findOne (key : CharStruct) : MongoProg (Option (List UInt8)) := do
  if faults.findOne then throw .driver
  return (← get).findOne key

/-- `file.delete_many`. -/
def deleteMany (key : CharStruct) : MongoProg Unit := do
  if faults.deleteMany then throw .driver
  modify (·.deleteMany key)

/-- `file.insert_one`. -/
def insertOne (key : CharStruct) (value : List UInt8) : MongoProg Unit := do
  if faults.insertOne then throw .driver
  modify (·.insertOne key value)

/-- `MongoIOClient::Read`. -/
def readCalls (source destination : Data) : MongoProg Data := do
  match ← findOne faults source.id with
  | some data =>
    let sourceSize := if source.dataSize = 0 then data.length else source.dataSize
    let bytes ← copying (slice (some (data ++ [0])) source.position (subSize sourceSize source.position))
    return { destination with
      buffer := some (bytes ++ List.replicate source.position 0), dataSize := sourceSize }
  | none => throw (.error readMongodbDataFailed)

/-- The document that `Write` finds: none after any exception. -/
def existing (key : CharStruct) : MongoProg (Option Data) :=
  tryCatch (some <$> readCalls faults { id := key } { id := key }) fun
    | .undefined => throw .undefined
    | _ => return none

/-- A new value of `size` bytes, with the bytes of the old one in front of the position. -/
def resized (readSource : Data) (position size : Nat) : Prog (List UInt8) :=
  let newVal := List.replicate size 0
  if position > 0 then do
    let kept ← slice readSource.buffer 0 (if position > readSource.dataSize then readSource.dataSize else position - 1)
    blit newVal 0 kept
  else return newVal

/-- The new value of a document that was read. -/
def newDocument (readSource source destination : Data) : Prog (List UInt8) := do
  if readSource.dataSize ≤ source.dataSize ∨
      readSource.dataSize ≤ (source.dataSize + destination.position) % 2 ^ 64 then
    let newVal ← resized readSource destination.position ((destination.position + source.dataSize) % 2 ^ 64)
    let data ← slice source.buffer source.position source.dataSize
    blit newVal destination.position data
  else
    let newVal ← slice readSource.buffer 0 readSource.dataSize
    let data ← slice source.buffer source.position source.dataSize
    blit newVal destination.position data

/-- `MongoIOClient::Write`. -/
def writeCalls (source destination : Data) : MongoProg Unit := do
  match ← existing faults destination.id with
  | some readSource =>
    let newVal ← copying (newDocument readSource source destination)
    deleteMany faults destination.id
    insertOne faults destination.id newVal
  | none =>
    let newVal ← copying (slice source.buffer source.position source.dataSize)
    insertOne faults destination.id newVal

end MongoIoClient

end Symbios
