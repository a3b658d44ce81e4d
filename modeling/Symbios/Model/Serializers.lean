import Symbios.Base.Msgpack
import Symbios.Model.RedisFile

/-!
# Binary serializers

`serializers.h`, with every type that is written and the buffer as it is in memory. A number is copied to and from it as
it is in memory, its lowest byte first; a `float` is its object representation. What `malloc` returned is a `Block`. A
`memcpy` outside of it is undefined, and so is a function with a result that runs off its end; what is undefined is `none`.
(The loader of the cost model is modelled as if such a call came back.)
-/

namespace Symbios.Serializers

/-- The bytes of a number in memory. -/
def objectBytes (width n : Nat) : List UInt8 := (Msgpack.bigEndian width n).reverse

def ofObjectBytes (bytes : List UInt8) : Nat := Msgpack.ofBigEndian bytes.reverse

/-- Memory that `malloc` returned, with whatever is in it. No object has `2 ^ 63` bytes. -/
structure Block where
  bytes : List UInt8
  small : bytes.length < 2 ^ 63

/-- The types that are written and parsed. -/
inductive ItemType where
  | int | ulong | float
deriving DecidableEq, Repr

/-- `sizeof`. -/
def ItemType.width : ItemType → Nat
  | .int => 4
  | .ulong => 8
  | .float => 4

inductive Item where
  | int (num : Int32)
  | ulong (num : UInt64)
  | float (bits : UInt32)
deriving DecidableEq

def Item.type : Item → ItemType
  | .int _ => .int
  | .ulong _ => .ulong
  | .float _ => .float

/-! ## `BinarySerializer` -/

structure BinarySerializer where
  data : List UInt8
  bufOff : UInt64 := 0
  bufSize : UInt64

namespace BinarySerializer

/-- The constructor. -/
def new (block : Block) : BinarySerializer := { data := block.bytes, bufSize := .ofNat block.bytes.length }

/-- A write of a number of this width, and what it returns. -/
def write (s : BinarySerializer) (width n : Nat) : Option (Bool × BinarySerializer) :=
  if s.bufOff + .ofNat width > s.bufSize then some (false, s)
  else (copyIn s.data s.bufOff.toNat (objectBytes width n)).map fun data =>
    (true, { s with data, bufOff := s.bufOff + .ofNat width })

/-- `WriteInt`. -/
def writeInt (s : BinarySerializer) (num : Int32) : Option (Bool × BinarySerializer) := s.write 4 num.toUInt32.toNat

/-- `WriteUlong`. -/
def writeUlong (s : BinarySerializer) (num : UInt64) : Option (Bool × BinarySerializer) := s.write 8 num.toNat

/-- `WriteFloat`. -/
def writeFloat (s : BinarySerializer) (bits : UInt32) : Option (Bool × BinarySerializer) := s.write 4 bits.toNat

/-- `GetSize`. -/
def getSize (s : BinarySerializer) : UInt64 := s.bufOff

def writeItem (s : BinarySerializer) : Item → Option (Bool × BinarySerializer)
  | .int num => s.writeInt num
  | .ulong num => s.writeUlong num
  | .float bits => s.writeFloat bits

/-- The next call, after calls of which these returned true. -/
def writeNext (state : List Item × BinarySerializer) (item : Item) : Option (List Item × BinarySerializer) :=
  (state.2.writeItem item).map fun result => (if result.1 then state.1 ++ [item] else state.1, result.2)

/-- One call after the other, with the items of those that returned true. -/
def writeItems (s : BinarySerializer) (items : List Item) : Option (List Item × BinarySerializer) :=
  items.foldlM writeNext ([], s)

end BinarySerializer

/-! ## `BinaryDeserializer` -/

structure BinaryDeserializer where
  data : List UInt8
  bufOff : UInt64 := 0
  bufSize : UInt64

namespace BinaryDeserializer

/-- The constructor. What the buffer is filled with is given with it. -/
def new (block : Block) : BinaryDeserializer := { data := block.bytes, bufSize := .ofNat block.bytes.length }

/-- What the parse functions do before they return: the number, if there is room for one. -/
def parse (d : BinaryDeserializer) (width : Nat) : Option (Option Nat × BinaryDeserializer) :=
  if d.bufOff + .ofNat width > d.bufSize then some (none, d)
  else (copyOut d.data d.bufOff.toNat width).map fun bytes =>
    (some (ofObjectBytes bytes), { d with bufOff := d.bufOff + .ofNat width })

/-- `ParseInt`. One that returns false leaves its argument alone. -/
def parseInt (d : BinaryDeserializer) : Option (Option Int32 × BinaryDeserializer) :=
  (d.parse 4).map fun result => (result.1.map fun n => (UInt32.ofNat n).toInt32, result.2)

/-- `ParseUlong`. -/
def parseUlong (d : BinaryDeserializer) : Option (Option UInt64 × BinaryDeserializer) :=
  (d.parse 8).map fun result => (result.1.map fun n => .ofNat n, result.2)

/-- `ParseFloat`. There is no `return` behind the number. -/
def parseFloat (d : BinaryDeserializer) : Option (Option UInt32 × BinaryDeserializer) :=
  (d.parse 4).bind fun result =>
    match result.1 with
    | none => some (none, result.2)
    | some _ => none

def parseItem (d : BinaryDeserializer) : ItemType → Option (Option Item × BinaryDeserializer)
  | .int => d.parseInt.map fun result => (result.1.map .int, result.2)
  | .ulong => d.parseUlong.map fun result => (result.1.map .ulong, result.2)
  | .float => d.parseFloat.map fun result => (result.1.map .float, result.2)

/-- One call after the other. -/
def parseItems (d : BinaryDeserializer) : List ItemType → Option (List (Option Item) × BinaryDeserializer)
  | [] => some ([], d)
  | type :: types =>
    (d.parseItem type).bind fun result =>
      (parseItems result.2 types).map fun rest => (result.1 :: rest.1, rest.2)

end BinaryDeserializer

end Symbios.Serializers
