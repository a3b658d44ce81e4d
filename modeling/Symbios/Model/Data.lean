import Symbios.Base.Decimal
import Symbios.Base.Msgpack

/-!
# Data structures, errors and the serialized form of the metadata

`data_structure.h`, `enumerations.h` and the error codes of `error_codes.h` that the storage path raises.
The unordered maps of the source are association lists in some iteration order: `links_` is an `AList`,
so a key occurs once. `size_t` fields are natural numbers; where the source's arithmetic can wrap, the
model writes the modulus out.

The msgpack adaptors `pack`, `object_with_zone` and `convert` of `Data` and `Metadata` work on object trees
(`Obj`); the bytes are those of the wire format (`Wire`).
-/

namespace Symbios

/-- Names of files and keys of objects, as the bytes of the C string. -/
abbrev CharStruct := List UInt8

/-- `IOClientType`. -/
inductive IoClientType where
  | fileIo | redisIo | mongoIo
deriving DecidableEq, Repr

/-- `DataDistributionPolicy`. -/
inductive DataDistributionPolicy where
  | randomPolicy | roundRobinPolicy | heuristicsPolicy | dynamicProgrammingPolicy
deriving DecidableEq, Repr

/-- `Data`. A `NULL` buffer is `none`. -/
structure Data where
  id : CharStruct := []
  position : Nat := 0
  buffer : Option (List UInt8) := none
  dataSize : Nat := 0
  storageIndex : Nat := 0
deriving DecidableEq, Repr

/-- `DataDistribution`: for a write the memory buffer and where it goes, for a read the other way round. -/
structure DataDistribution where
  sourceData : Data := {}
  destinationData : Data := {}
  storageIndex : Nat := 0
deriving DecidableEq, Repr

/-- The map from segment numbers to the objects that hold them. -/
abbrev Links := AList (fun _ : Int => Data)

/-- `Metadata`: the primary record of a file, or (`isLink`) a pointer to it under key `-1`. -/
structure Metadata where
  isLink : Bool := false
  links : Links := ∅
  storageIndex : Nat := 0

/-! ## Errors -/

/-- `ErrorCode`. -/
structure ErrorCode where
  code : Nat
  message : String
deriving DecidableEq, Repr

def openFileFailed : ErrorCode := ⟨1000, "Open file failed"⟩
def seekFileFailed : ErrorCode := ⟨1001, "Seek the position from file failed"⟩
def readDataFromFileFailed : ErrorCode := ⟨1002, "Read data from file failed"⟩
def readRedisPositionOrSizeFailed : ErrorCode :=
  ⟨1005, "Error read position or data size when reading data from Redis Cluster"⟩
def readRedisDataFailed : ErrorCode := ⟨1006, "Read data from Redis Cluster failed"⟩
def readMongodbDataFailed : ErrorCode := ⟨1008, "Read data from Mongodb failed"⟩

/-- How a call can fail to return: an `ErrorException`, an exception of the msgpack library (which no
handler of the source catches), or behaviour the language leaves undefined. -/
inductive Fault where
  | error (code : ErrorCode)
  | unpack
  | undefined
deriving DecidableEq, Repr

/-! ## Configuration -/

/-- `ConfigurationManager`. The table of storage solutions is in its iteration order; its keys are the
positions of the entries in the configuration file, so they are `0..n-1` in some order. -/
structure ConfigurationManager where
  maxObjSize : Nat
  storageSolutions : List (Nat × IoClientType)
  dataDistributionPolicy : DataDistributionPolicy
  serverCount : Nat := 1
  maxObjSize_pos : 0 < maxObjSize
  maxObjSize_lt : maxObjSize < 2 ^ 63
  keys_perm : (storageSolutions.map Prod.fst).Perm (List.range storageSolutions.length)
  solutions_pos : 0 < storageSolutions.length
  solutions_le : storageSolutions.length ≤ 2 ^ 16

/-- `ConfigurationManager::config` of the table of storage solutions: entry `i` of the file has key `i`. -/
def ConfigurationManager.config (maxObjSize : Nat) (types : List IoClientType) (policy : DataDistributionPolicy)
    (hsize : 0 < maxObjSize ∧ maxObjSize < 2 ^ 63) (htypes : 0 < types.length ∧ types.length ≤ 2 ^ 16) :
    ConfigurationManager where
  maxObjSize := maxObjSize
  storageSolutions := types.zipIdx.map Prod.swap
  dataDistributionPolicy := policy
  maxObjSize_pos := hsize.1
  maxObjSize_lt := hsize.2
  keys_perm := by
    have hkeys : (types.zipIdx.map Prod.swap).map Prod.fst = List.range types.length := by
      rw [List.map_map, List.range_eq_range', ← List.zipIdx_map_snd]
      rfl
    rw [hkeys, List.length_map, List.length_zipIdx]
  solutions_pos := by simpa using htypes.1
  solutions_le := by simpa using htypes.2

/-- The backend type of a storage index, if it is configured. -/
def ConfigurationManager.backend (conf : ConfigurationManager) (index : Nat) : Option IoClientType :=
  (conf.storageSolutions.find? fun solution => solution.1 = index).map Prod.snd

/-! ## The msgpack adaptors -/

/-- `pack<Data>`. A `NULL` buffer is packed as the empty string. -/
def Data.pack (d : Data) : Obj :=
  .array [.str d.id, .int d.position,
    .str (match d.buffer with
      | none => []
      | some buffer => buffer.take d.dataSize),
    .int d.dataSize, .int d.storageIndex]

/-- `object_with_zone<Data>`: the object built in the zone, and the buffers the adaptor frees behind it. -/
def Data.objectWithZone (d : Data) : Obj × List (List UInt8) :=
  match d.buffer with
  | none => (.array [.str d.id, .int d.position, .str [], .int d.dataSize, .int d.storageIndex], [])
  | some buffer =>
    (.array [.str d.id, .int d.position, .str (buffer.take d.dataSize), .int d.dataSize, .int d.storageIndex],
      [buffer])

/-- `object::as<std::string>` and `object::as<CharStruct>`. -/
def asStr : Obj → Except Fault (List UInt8)
  | .str s => .ok s
  | _ => .error .unpack

/-- `object::as` for the unsigned integer types. -/
def asNat : Obj → Except Fault Nat
  | .int (.ofNat n) => .ok n
  | _ => .error .unpack

/-- `object::as<int64_t>`. -/
def asInt : Obj → Except Fault Int
  | .int z => .ok z
  | _ => .error .unpack

/-- `object::as<bool>`. -/
def asBool : Obj → Except Fault Bool
  | .bool b => .ok b
  | _ => .error .unpack

/-- The buffer `convert<Data>` leaves: a non-empty string is copied as `data_size_` bytes, whatever its own
length is. Up to its terminating zero byte that is defined. -/
def copyBuffer (data : List UInt8) (dataSize : Nat) : Except Fault (Option (List UInt8)) :=
  if data = [] then .ok none
  else if dataSize ≤ data.length + 1 then .ok (some ((data ++ [0]).take dataSize))
  else .error .undefined

/-- `convert<Data>`. -/
def Data.convert : Obj → Except Fault Data
  | .array (id :: position :: data :: size :: index :: _) => do
    let id ← asStr id
    let position ← asNat position
    let data ← asStr data
    let dataSize ← asNat size
    let buffer ← copyBuffer data dataSize
    let storageIndex ← asNat index
    return { id, position, buffer, dataSize, storageIndex }
  | _ => .error .undefined

/-- `pack<Metadata>`. -/
def Metadata.pack (m : Metadata) : Obj :=
  .array [.bool m.isLink, .map (m.links.entries.map fun e => (.int e.1, e.2.pack)), .int m.storageIndex]

/-- `object_with_zone<std::unordered_map<int64_t, Data>>`. -/
def linksWithZone : List (Sigma fun _ : Int => Data) → List (Obj × Obj) × List (List UInt8)
  | [] => ([], [])
  | e :: entries =>
    let value := e.2.objectWithZone
    let rest := linksWithZone entries
    ((.int e.1, value.1) :: rest.1, value.2 ++ rest.2)

/-- `object_with_zone<Metadata>`. -/
def Metadata.objectWithZone (m : Metadata) : Obj × List (List UInt8) :=
  let links := linksWithZone m.links.entries
  (.array [.bool m.isLink, .map links.1, .int m.storageIndex], links.2)

/-- `object::as<std::unordered_map<int64_t, Data>>`. -/
def convertLinks : List (Obj × Obj) → Except Fault Links
  | [] => .ok ∅
  | (key, value) :: entries => do
    let key ← asInt key
    let value ← Data.convert value
    let links ← convertLinks entries
    return links.insert key value

def asLinks : Obj → Except Fault Links
  | .map entries => convertLinks entries
  | _ => .error .unpack

/-- `convert<Metadata>`. -/
def Metadata.convert : Obj → Except Fault Metadata
  | .array (isLink :: links :: index :: _) => do
    let isLink ← asBool isLink
    let links ← asLinks links
    let storageIndex ← asNat index
    return { isLink, links, storageIndex }
  | _ => .error .undefined

variable [Wire]

/-- The bytes `clmdep_msgpack::pack` leaves in the string stream. -/
def Metadata.serialize (m : Metadata) : List UInt8 := Wire.enc m.pack

/-- `clmdep_msgpack::unpack` of a byte string, converted to a `Metadata`. Bytes behind the first object are
ignored; a string that ends before the object does raises. -/
def Metadata.deserialize (bytes : List UInt8) : Except Fault Metadata :=
  match Wire.dec bytes with
  | none => .error .unpack
  | some (o, _) => Metadata.convert o

/-! ### Serialized metadata is read back -/

/-- A buffer the adaptors carry over: none, or exactly `dataSize` bytes and at least one. -/
def Data.Portable (d : Data) : Prop :=
  d.buffer = none ∨ ∃ bytes, d.buffer = some bytes ∧ bytes.length = d.dataSize ∧ bytes ≠ []

omit [Wire] in
theorem Data.convert_pack {d : Data} (h : d.Portable) : Data.convert d.pack = .ok d := by
  obtain ⟨id, position, buffer, dataSize, storageIndex⟩ := d
  rcases h with hnone | ⟨bytes, hsome, hlen, hne⟩
  · simp only at hnone
    subst hnone
    rfl
  · simp only at hsome hlen
    subst hsome hlen
    have hcopy : copyBuffer bytes bytes.length = .ok (some bytes) := by
      rw [copyBuffer, if_neg hne, if_pos (Nat.le_succ _), List.take_left' rfl]
    simp only [Data.pack, Data.convert, List.take_length, asStr, asNat, bind, Except.bind, hcopy]
    rfl

/-- Every link of a metadata record is portable. -/
def Metadata.Portable (m : Metadata) : Prop := ∀ e ∈ m.links.entries, Data.Portable e.2

omit [Wire] in
theorem convertLinks_entries : ∀ (l : List (Sigma fun _ : Int => Data)) (hl : l.NodupKeys),
    (∀ e ∈ l, Data.Portable e.2) →
      convertLinks (l.map fun e => (.int e.1, e.2.pack)) = .ok ⟨l, hl⟩
  | [], _, _ => rfl
  | ⟨key, value⟩ :: l, hl, h => by
    have ih := convertLinks_entries l (List.nodupKeys_cons.mp hl).2 (fun e he => h e (by simp [he]))
    simp only [List.map_cons, convertLinks, Data.convert_pack (h _ List.mem_cons_self), ih]
    rw [AList.mk_cons_eq_insert]
    rfl

omit [Wire] in
theorem Metadata.convert_pack {m : Metadata} (h : m.Portable) : Metadata.convert m.pack = .ok m := by
  obtain ⟨isLink, links, storageIndex⟩ := m
  simp only [Metadata.pack, Metadata.convert, asLinks, convertLinks_entries links.entries links.nodupKeys h]
  rfl

/-- A record is read back whatever follows it. -/
theorem Metadata.deserialize_serialize {m : Metadata} (h : m.Portable) (rest : List UInt8) :
    Metadata.deserialize (m.serialize ++ rest) = .ok m := by
  simp only [Metadata.deserialize, Metadata.serialize, Wire.dec_enc, Metadata.convert_pack h]

/-- The first `n` bytes of a record, possibly followed by older bytes, are the record exactly when it fits. -/
theorem Metadata.deserialize_take {m : Metadata} (h : m.Portable) (rest : List UInt8) (n : Nat) :
    Metadata.deserialize ((m.serialize ++ rest).take n) =
      if m.serialize.length ≤ n then .ok m else .error .unpack := by
  rw [Metadata.deserialize, Metadata.serialize, Wire.dec_take_append]
  by_cases hfit : (Wire.enc m.pack).length ≤ n
  · rw [if_pos hfit, if_pos hfit]
    exact Metadata.convert_pack h
  · rw [if_neg hfit, if_neg hfit]

theorem Metadata.serialize_length_pos (m : Metadata) : 0 < m.serialize.length := Wire.enc_length_pos _

/-- One more link makes the record strictly longer. -/
theorem Metadata.serialize_insert_lt (m : Metadata) {key : Int} (hkey : key ∉ m.links) (link : Data) :
    m.serialize.length < ({ m with links := m.links.insert key link } : Metadata).serialize.length := by
  have hentries := AList.entries_insert_of_notMem (b := link) hkey
  have := Wire.length_map_cons_lt (.int key, link.pack) (m.links.entries.map fun e => (.int e.1, e.2.pack))
  simp only [Metadata.serialize, Metadata.pack, Wire.length_array, hentries, List.map_cons,
    List.map_nil, List.sum_cons, List.sum_nil, List.length_cons, List.length_nil]
  omega

end Symbios
