import Symbios.Model.Orchestrator

/-!
# The IRIS emulation

The write path of `iris.cpp` in IRIS mode: `LibHandler::run` with `WRITE` is `do_mapped_write`, which has the
`DataMapper` cut the request into chunks and writes each through the client of its storage type. Chunks are named as
the objects of a file are (`objectId`). Offsets are not negative; a `long` that leaves its range is undefined, and so
are a division by zero and the first element of an empty vector. The mapper is modelled twice: over natural numbers,
and over the mixed machine words of the source (`wordChunks`).
-/

namespace Symbios

/-- `DataDescriptor`. -/
structure DataDescriptor where
  id : CharStruct
  position : Nat
  size : Nat
  chunkIndex : Nat := 0
deriving DecidableEq, Repr

namespace DataMapper

/-- The loop of `DataMapper::map`. A turn takes at least one byte, so as many turns as there are bytes are enough. -/
def chunks (maxObjSize : Nat) (id : CharStruct) : Nat → Nat → Nat → Option (List DataDescriptor)
  | 0, _, _ => some []
  | turns + 1, remainingOperationSize, currPos =>
    if remainingOperationSize = 0 then some []
    else if maxObjSize = 0 then none
    else
      let index := currPos / maxObjSize
      let position := currPos % maxObjSize
      let size :=
        if remainingOperationSize > maxObjSize - position then maxObjSize - position else remainingOperationSize
      if currPos + size < 2 ^ 63 then
        (chunks maxObjSize id turns (remainingOperationSize - size) (currPos + size)).map
          ({ id := objectId id index, position, size, chunkIndex := index % 2 ^ 32 } :: ·)
      else none

/-- `DataMapper::map`. -/
def map (maxObjSize : Nat) (src : DataDescriptor) : Option (List DataDescriptor) :=
  chunks maxObjSize src.id src.size src.size src.position

/-! ### In machine words -/

/-- `DataDescriptor` with the types of the source: `long`, `long` and `unsigned int`. -/
structure WordDescriptor where
  id : CharStruct
  position : Int64
  size : Int64
  chunkIndex : UInt32 := 0
deriving DecidableEq

/-- `std::to_string(long)`. -/
def toString (index : Int64) : CharStruct :=
  if index < 0 then 45 :: Decimal.decimal index.toInt.natAbs else Decimal.decimal index.toInt.natAbs

/-- The loop of `DataMapper::map` as it is computed: an `unsigned int` beside a `long` becomes a `long`, and a `long`
beside a `size_t` becomes a `size_t`. It has `turns` turns to end in. -/
def wordChunks (maxObjSize : UInt32) (id : CharStruct) : Nat → UInt64 → Int64 → Option (List WordDescriptor)
  | 0, remainingOperationSize, _ => if remainingOperationSize = 0 then some [] else none
  | turns + 1, remainingOperationSize, currPos =>
    if remainingOperationSize = 0 then some []
    else if maxObjSize = 0 then none
    else
      let bound : Int64 := maxObjSize.toUInt64.toInt64
      let index := currPos / bound
      let position := currPos % bound
      let room := (bound - position).toUInt64
      let size : Int64 := (if remainingOperationSize > room then room else remainingOperationSize).toInt64
      if -2 ^ 63 ≤ currPos.toInt + size.toInt ∧ currPos.toInt + size.toInt < 2 ^ 63 then
        (wordChunks maxObjSize id turns (remainingOperationSize - size.toUInt64) (currPos + size)).map
          ({ id := id ++ toString index, position, size, chunkIndex := index.toUInt64.toUInt32 } :: ·)
      else none

/-- `DataMapper::map` with that many turns. -/
def wordMap (maxObjSize : UInt32) (src : WordDescriptor) (turns : Nat) : Option (List WordDescriptor) :=
  wordChunks maxObjSize src.id turns src.size.toUInt64 src.position

end DataMapper

namespace LibHandler

/-- The loop of `do_mapped_write` over the chunks, with its running `source_position`. -/
def writeChunks (client : IoClientType) (dbType : Nat) (data : List UInt8) : List DataDescriptor → Nat → Prog Unit
  | [], _ => pure ()
  | obj :: objs, sourcePosition => do
    IoClient.write client { buffer := some data, position := sourcePosition, dataSize := obj.size }
      { id := obj.id, position := obj.position, dataSize := obj.size, storageIndex := dbType }
    writeChunks client dbType data objs (sourcePosition + obj.size)

/-- `LibHandler::do_mapped_write` in IRIS mode. The mapper has its chunk size in an `unsigned int`. The smallest chunk
index is computed from the first element on and not used. -/
def doMappedWrite (client : IoClientType) (dbType maxObjSize : Nat) (file : CharStruct) (offset requestSize : Nat)
    (data : List UInt8) : Prog Unit :=
  match DataMapper.map (maxObjSize % 2 ^ 32) { id := file, position := offset, size := requestSize } with
  | none => throw .undefined
  | some [] => throw .undefined
  | some (obj :: objs) => writeChunks client dbType data (obj :: objs) 0

end LibHandler

end Symbios
