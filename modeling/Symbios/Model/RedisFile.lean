import Symbios.Base.Decimal
import Mathlib.Data.Nat.Notation

/-!
# Files of the benchmark on Redis

`redis.h` of the benchmark, over an ideal key-value store. A string has its bytes and a terminating zero; a `memcpy` that
leaves the bytes of a string (or, to read, its zero) or a caller's buffer is undefined, and so is the value of a key that
is not there. What is undefined is `none`.
-/

namespace Symbios

/-- The keys of the store. -/
abbrev RedisContext := List UInt8 → Option (List UInt8)

/-- `memcpy` out of memory of these bytes. -/
def copyOut (memory : List UInt8) (pos n : Nat) : Option (List UInt8) :=
  if pos + n ≤ memory.length then some ((memory.drop pos).take n) else none

/-- `memcpy` into memory of these bytes. -/
def copyIn (memory : List UInt8) (pos : Nat) (bytes : List UInt8) : Option (List UInt8) :=
  if pos + bytes.length ≤ memory.length then
    some (memory.take pos ++ bytes ++ memory.drop (pos + bytes.length))
  else none

/-- `RedisFile`. -/
structure RedisFile where
  path : List UInt8
  off : Nat := 0

namespace RedisFile

def kBlockSize : Nat := 2 ^ 20

theorem kBlockSize_pos : 0 < kBlockSize := by decide

/-- The bytes of a turn that starts with byte `i` of `size`. -/
def bufSize (size i : Nat) : Nat := if i + kBlockSize < size then kBlockSize else size - i

/-- The key of a block. -/
def blockPath (path : List UInt8) (suffix : Nat) : List UInt8 := path ++ Decimal.decimal suffix

/-- The loop of `Read`. -/
def readBlocks (context : RedisContext) (path : List UInt8) (size i suffix rem : Nat) (buffer : List UInt8) :
    Option (List UInt8) :=
  if i < size then do
    let block ← context (blockPath path suffix)
    let bytes ← copyOut (block ++ [0]) rem (bufSize size i)
    let buffer ← copyIn buffer i bytes
    readBlocks context path size (i + kBlockSize) (suffix + 1) 0 buffer
  else some buffer
termination_by size - i
decreasing_by exact Nat.sub_lt_sub_left ‹i < size› (Nat.lt_add_of_pos_right kBlockSize_pos)

/-- `Read`, with what it leaves in the caller's buffer. -/
def read (f : RedisFile) (context : RedisContext) (buffer : List UInt8) (size : Nat) :
    Option (List UInt8 × RedisFile) :=
  (readBlocks context f.path size 0 (f.off / kBlockSize) (f.off % kBlockSize) buffer).map
    fun buffer => (buffer, { f with off := (f.off + size) % 2 ^ 64 })

/-- The loop of `Write`. -/
def writeBlocks (path buffer : List UInt8) (size i suffix rem : Nat) (block : List UInt8) (context : RedisContext) :
    Option RedisContext :=
  if i < size then do
    let bytes ← copyOut buffer i (bufSize size i)
    let block ← copyIn block rem bytes
    writeBlocks path buffer size (i + kBlockSize) (suffix + 1) 0 block
      (Function.update context (blockPath path suffix) (some block))
  else some context
termination_by size - i
decreasing_by exact Nat.sub_lt_sub_left ‹i < size› (Nat.lt_add_of_pos_right kBlockSize_pos)

/-- `Write`. The string `block` is declared empty. -/
def write (f : RedisFile) (context : RedisContext) (buffer : List UInt8) (size : Nat) :
    Option (RedisContext × RedisFile) :=
  (writeBlocks f.path buffer size 0 (f.off / kBlockSize) (f.off % kBlockSize) [] context).map
    fun context => (context, { f with off := (f.off + size) % 2 ^ 64 })

/-- `Seek`. -/
def seek (f : RedisFile) (off : Nat) : RedisFile := { f with off }

end RedisFile

end Symbios
