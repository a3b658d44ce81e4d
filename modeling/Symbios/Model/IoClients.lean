import Symbios.Base.Overlay
import Symbios.Model.Data

/-!
# The storage clients

`file_io.cpp`, `redis_io.cpp`, `mongo_io.cpp` and the factory of `io_factory.h`. A backend is a map from
names to byte strings, one for each client class: the factory hands out one singleton per class, and no
client puts its end point into the names it uses, so two storage indices of one type share a backend.

A call runs over the backends (`Prog`) and keeps what it wrote when it raises. Reads and copies outside
the buffers of the source are `Fault.undefined`. Bytes that the source leaves uninitialised stand as `0`.
`open`, `lseek`, `read` and `write` transfer what they are asked to; a call that is to raise does so
because the environment says so (`Env`).
-/

namespace Symbios

/-- The contents of the three backends. -/
abbrev Backends := IoClientType → CharStruct → Option (List UInt8)

/-- A call of the source: it raises or returns, and leaves the backends changed either way. -/
abbrev Prog := EStateM Fault Backends

/-- The backends with `value` under `key` of `client`. -/
def Backends.put (w : Backends) (client : IoClientType) (key : CharStruct) (value : Option (List UInt8)) :
    Backends :=
  fun client' key' => if client' = client ∧ key' = key then value else w client' key'

/-- `a - b` of two `size_t` values, which wraps when `b` is the larger one. -/
def subSize (a b : Nat) : Nat := if b ≤ a then a - b else 2 ^ 64 - (b - a)

/-- The bytes `[offset, offset + length)` of a buffer, if they lie inside it. -/
def slice (buffer : Option (List UInt8)) (offset length : Nat) : Prog (List UInt8) :=
  if offset + length ≤ (buffer.getD []).length then pure (((buffer.getD []).drop offset).take length)
  else throw .undefined

/-- `memcpy(target + offset, bytes)`, if it stays inside the target. -/
def blit (target : List UInt8) (offset : Nat) (bytes : List UInt8) : Prog (List UInt8) :=
  if offset + bytes.length ≤ target.length then pure (Overlay.overlay 0 target offset bytes)
  else throw .undefined

/-! ## Files -/

namespace FileIoClient

/-- `FileIOClient::Read`. -/
def read (source destination : Data) : Prog Data := do
  match (← get) .fileIo source.id with
  | none => throw (.error openFileFailed)
  | some file =>
    if 2 ^ 63 ≤ source.position then throw (.error seekFileFailed)
    else
      let sourceDataSize :=
        if source.dataSize = 0 then subSize file.length source.position else source.dataSize
      let bytes := (file.drop source.position).take sourceDataSize
      -- a position this large is a negative `int`: `read` would store in front of the allocation
      if bytes ≠ [] ∧ 2 ^ 63 ≤ destination.position then throw .undefined
      else if bytes.length = sourceDataSize then
        return { destination with
          buffer := some (List.replicate destination.position 0 ++ bytes)
          dataSize := destination.position + bytes.length }
      else throw (.error readDataFromFileFailed)

/-- `FileIOClient::Write`. The file is created when it is opened, and never truncated. -/
def write (source destination : Data) : Prog Unit := do
  let file := ((← get) .fileIo destination.id).getD []
  if 2 ^ 63 ≤ destination.position then
    modify (·.put .fileIo destination.id (some file))
    throw (.error seekFileFailed)
  else
    let bytes ← slice source.buffer source.position (subSize source.dataSize source.position)
    -- writing nothing does not extend the file
    let file' := if bytes = [] then file else Overlay.overlay 0 file destination.position bytes
    modify (·.put .fileIo destination.id (some file'))

/-- `FileIOClient::Remove`. -/
def remove (source : Data) : Prog Bool := do
  modify (·.put .fileIo source.id none)
  return true

/-- `FileIOClient::Size`. -/
def size (source : Data) : Prog Nat := do
  return (((← get) .fileIo source.id).getD []).length

end FileIoClient

/-! ## Object stores -/

/-- The value a `Write` over an existing object of Redis or MongoDB stores (the two clients share this
code): a write that reaches the end of the old value builds a new one and copies `position_ - 1` bytes of
the old one into it; any other write goes into the old value. -/
def newValue (old : List UInt8) (source destination : Data) : Prog (List UInt8) := do
  let data ← slice source.buffer source.position source.dataSize
  -- the sum of position and size wraps, and the copy leaves the value on either branch
  if 0 < destination.position ∧ 2 ^ 64 ≤ destination.position + source.dataSize then throw .undefined
  else if old.length ≤ source.dataSize ∨ old.length ≤ source.dataSize + destination.position then
    let fresh := List.replicate (destination.position + source.dataSize) 0
    let kept :=
      if destination.position > 0 then
        old.take (if destination.position > old.length then old.length else destination.position - 1)
      else []
    let fresh ← blit fresh 0 kept
    blit fresh destination.position data
  else blit old destination.position data

namespace RedisIoClient

/-- `RedisIOClient::Read`. The position of the destination is not used, and only the requested size is
compared with the length of the value. -/
def read (source destination : Data) : Prog Data := do
  match (← get) .redisIo source.id with
  | none => throw (.error readRedisDataFailed)
  | some value =>
    let sourceSize := if source.dataSize = 0 then value.length else source.dataSize
    if sourceSize > value.length then throw (.error readRedisPositionOrSizeFailed)
    else
      -- `value.c_str()` ends in a zero byte that may be read
      let bytes ← slice (some (value ++ [0])) source.position sourceSize
      return { destination with buffer := some bytes, dataSize := sourceSize }

/-- `RedisIOClient::Write`. A new object starts at offset 0 whatever the position is. -/
def write (source destination : Data) : Prog Unit := do
  match (← get) .redisIo destination.id with
  | some old =>
    let value ← newValue old source destination
    modify (·.put .redisIo destination.id (some value))
  | none =>
    let value ← slice source.buffer source.position source.dataSize
    modify (·.put .redisIo destination.id (some value))

/-- `RedisIOClient::Remove`. -/
def remove (source : Data) : Prog Bool := do
  modify (·.put .redisIo source.id none)
  return true

/-- `RedisIOClient::Size`. -/
def size (source : Data) : Prog Nat := do
  return (((← get) .redisIo source.id).getD []).length

end RedisIoClient

namespace MongoIoClient

/-- `MongoIOClient::Read`: `source_size - position_` bytes are copied, and nothing is compared with the
length of the value. -/
def read (source destination : Data) : Prog Data := do
  match (← get) .mongoIo source.id with
  | none => throw (.error readMongodbDataFailed)
  | some value =>
    let sourceSize := if source.dataSize = 0 then value.length else source.dataSize
    let bytes ← slice (some (value ++ [0])) source.position (subSize sourceSize source.position)
    return { destination with
      buffer := some (bytes ++ List.replicate source.position 0), dataSize := sourceSize }

/-- `MongoIOClient::Write`: read the whole document, delete it, insert the new one. (The source object's
`position_` is reset on the way; no caller looks at it again.) -/
def write (source destination : Data) : Prog Unit := do
  match (← get) .mongoIo destination.id with
  | some old =>
    let value ← newValue old source destination
    modify (·.put .mongoIo destination.id none)
    modify (·.put .mongoIo destination.id (some value))
  | none =>
    let value ← slice source.buffer source.position source.dataSize
    modify (·.put .mongoIo destination.id (some value))

/-- `MongoIOClient::Remove`. -/
def remove (source : Data) : Prog Bool := do
  modify (·.put .mongoIo source.id none)
  return true

/-- `MongoIOClient::Size`. -/
def size (source : Data) : Prog Nat := do
  return (((← get) .mongoIo source.id).getD []).length

end MongoIoClient

/-! ## The interface and the factory -/

namespace IoClient

/-- `IOClient::Read`. -/
def read : IoClientType → Data → Data → Prog Data
  | .fileIo => FileIoClient.read
  | .redisIo => RedisIoClient.read
  | .mongoIo => MongoIoClient.read

/-- `IOClient::Write`. -/
def write : IoClientType → Data → Data → Prog Unit
  | .fileIo => FileIoClient.write
  | .redisIo => RedisIoClient.write
  | .mongoIo => MongoIoClient.write

/-- `IOClient::Remove`. -/
def remove : IoClientType → Data → Prog Bool
  | .fileIo => FileIoClient.remove
  | .redisIo => RedisIoClient.remove
  | .mongoIo => MongoIoClient.remove

/-- `IOClient::Size`. -/
def size : IoClientType → Data → Prog Nat
  | .fileIo => FileIoClient.size
  | .redisIo => RedisIoClient.size
  | .mongoIo => MongoIoClient.size

end IoClient

/-- The environment of one operation: which reads and writes, by storage index and name, raise an
`ErrorException`. A write that raises leaves its backend as it was. -/
structure Env where
  readFault : Nat → CharStruct → Option ErrorCode := fun _ _ => none
  writeFault : Nat → CharStruct → Option ErrorCode := fun _ _ => none

/-- Nothing fails. -/
def Env.calm : Env := {}

namespace IoFactory

variable (conf : ConfigurationManager) (env : Env)

/-- `IOFactory::GetIOClient`: an index that is not configured dereferences a null pointer. -/
def getIoClient (index : Nat) : Prog IoClientType :=
  match conf.backend index with
  | some client => pure client
  | none => throw .undefined

/-- `GetIOClient(index)->Read(source, destination)`. -/
def read (index : Nat) (source destination : Data) : Prog Data := do
  let client ← getIoClient conf index
  match env.readFault index source.id with
  | some code => throw (.error code)
  | none => IoClient.read client source destination

/-- `GetIOClient(index)->Write(source, destination)`. -/
def write (index : Nat) (source destination : Data) : Prog Unit := do
  let client ← getIoClient conf index
  match env.writeFault index destination.id with
  | some code => throw (.error code)
  | none => IoClient.write client source destination

/-- `GetIOClient(index)->Remove(source)`. -/
def remove (index : Nat) (source : Data) : Prog Bool := do
  let client ← getIoClient conf index
  IoClient.remove client source

/-- `GetIOClient(index)->Size(source)`. -/
def size (index : Nat) (source : Data) : Prog Nat := do
  let client ← getIoClient conf index
  IoClient.size client source

end IoFactory

end Symbios
