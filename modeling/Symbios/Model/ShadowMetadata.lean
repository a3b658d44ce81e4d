import Symbios.Base.Tokens
import Symbios.Base.Thread
import Symbios.Model.Arguments
import Symbios.Model.Data

/-!
# The records of the shadow-link prototype

`shadow_link` of the internal components: `symbios_metadata`, the text that a record is stored as, and the test that
creates records on a Redis cluster in one run and queries them in another, on many ranks at once. What is undefined
(`strcat` behind the 1024 bytes, `atoi` of no token or outside of `int`, a key that is not there) is `none` for a pure
function and `.undefined` for a command. `rand rank n` is the draw `n` of a rank; the seed is made of the rank and the
count, so it is the same in both runs.
-/

namespace Symbios

/-- A string of C. -/
@[ext] structure CString where
  bytes : List UInt8
  noZero : 0 ∉ bytes
deriving DecidableEq

/-- What C sees of bytes with a zero behind them. -/
def CString.ofBytes (bytes : List UInt8) : CString :=
  ⟨bytes.takeWhile (· ≠ 0), fun h => by simpa using List.mem_takeWhile_imp h⟩

/-- `symbios_metadata`. The target is one of `target_stor`, or whatever number was read for it. -/
structure SymbiosMetadata where
  primary : Bool
  dataId : CString
  targetStor : Int32
  server : Option CString
  port : Int32
  offset : UInt64
deriving DecidableEq

/-! ## Texts -/

/-- `%d` of `sprintf`. -/
def printInt (i : Int32) : List UInt8 := (if i.toInt < 0 then [45] else []) ++ Decimal.decimal i.toInt.natAbs

/-- `atoi`, where it is defined. -/
def atoi (word : List UInt8) : Option Int32 :=
  match leadingNumber word with
  | none => some 0
  | some (negative, n) =>
    let value : Int := if negative then -n else n
    if -2 ^ 31 ≤ value ∧ value < 2 ^ 31 then some (.ofInt value) else none

/-- `SERDE_MD_SEP`. -/
def serdeMdSep : UInt8 := 35

namespace SymbiosMetadata

/-- The fields of the text. Of the `size_t`, `%d` prints the lower half as an `int`. -/
def fields (m : SymbiosMetadata) : List (List UInt8) :=
  [m.dataId.bytes, if m.primary then [49] else [48], printInt m.targetStor, (m.server.map CString.bytes).getD [],
    printInt m.port, printInt (.ofInt m.offset.toNat)]

/-- Each field with a separator behind it. -/
def text (m : SymbiosMetadata) : List UInt8 := m.fields.flatMap fun field => field ++ [serdeMdSep]

end SymbiosMetadata

/-- `serialize_metadata`: the buffer has 1024 bytes, one of them for the zero. -/
def serializeMetadata (m : SymbiosMetadata) : Option (List UInt8) :=
  if m.text.length < 1024 then some m.text else none

/-- The end of `deserialize_metadata`: `PFS1` and `PFS2` have an offset, an `int` that is read into a `size_t`. -/
def deserializeOffset (targetStor : Int32) (rest : List UInt8) : Option UInt64 :=
  if targetStor = 0 ∨ targetStor = 1 then do
    let (word, _) ← Tokens.next serdeMdSep rest
    let offset ← atoi word
    return .ofInt offset.toInt
  else some (-1)

/-- `deserialize_metadata`. -/
def deserializeMetadata (text : CString) : Option SymbiosMetadata := do
  let (dataId, rest) ← Tokens.next serdeMdSep text.bytes
  let (word, rest) ← Tokens.next serdeMdSep rest
  let primary ← atoi word
  if primary ≠ 0 then
    return { primary := true, dataId := .ofBytes dataId, targetStor := -1, server := none, port := -1, offset := -1 }
  else
    let (word, rest) ← Tokens.next serdeMdSep rest
    let targetStor ← atoi word
    let (server, rest) ← Tokens.next serdeMdSep rest
    let (word, rest) ← Tokens.next serdeMdSep rest
    let port ← atoi word
    let offset ← deserializeOffset targetStor rest
    return { primary := false, dataId := .ofBytes dataId, targetStor, server := some (.ofBytes server), port, offset }

/-! ## Records on Redis -/

/-- The one Redis cluster. -/
abbrev LinkCluster := Unit → List UInt8 → Option (List UInt8)

/-- A value that may be undefined. -/
def defined {α : Type} : Option α → EStateM Fault LinkCluster α
  | none => throw .undefined
  | some a => pure a

/-- `strcpy` of a reply into 1024 bytes; without a value its string is a null pointer. -/
def copyReply (reply : Option (List UInt8)) : Option CString :=
  reply.bind fun value => if (CString.ofBytes value).bytes.length < 1024 then some (.ofBytes value) else none

/-- `create_symbios_metadata_redis`. -/
def createSymbiosMetadataRedis (m : SymbiosMetadata) : EStateM Fault LinkCluster PUnit := do
  let text ← defined (serializeMetadata m)
  modify fun s i => Function.update (s i) m.dataId.bytes (some text)

/-- `query_symbios_metadata_by_id_redis`. -/
def querySymbiosMetadataByIdRedis (dataId : CString) : EStateM Fault LinkCluster SymbiosMetadata := do
  let s ← get
  defined ((copyReply (s () dataId.bytes)).bind deserializeMetadata)

/-! ## The test -/

/-- The options of the test. -/
structure LinkTest where
  count : Int32
  primary : Bool

namespace LinkTest

/-- `KEY_BASE_STR`, `"test"`. -/
def keyBase : List UInt8 := [116, 101, 115, 116]

/-- `"%s_%d_%d_%d"`. -/
def key (rank draw i : Int32) : CString :=
  .ofBytes (keyBase ++ 95 :: (printInt rank ++ 95 :: (printInt draw ++ 95 :: printInt i)))

/-- `"ares-stor-15"`. -/
def server : CString := ⟨[97, 114, 101, 115, 45, 115, 116, 111, 114, 45, 49, 53], by decide⟩

/-- A primary record of the test. -/
def primaryMetadata (key : CString) : SymbiosMetadata :=
  { primary := true, dataId := key, targetStor := -1, server := none, port := -1, offset := -1 }

/-- A shadow record of the test. -/
def shadowMetadata (key : CString) (offset : Int) : SymbiosMetadata :=
  { primary := false, dataId := key, targetStor := 0, server := some server, port := 3334, offset := .ofInt offset }

/-- The record of a turn of `write_test`. The product is one of `int`. -/
def metadata (conf : LinkTest) (key : CString) : Option SymbiosMetadata :=
  if conf.primary then some (primaryMetadata key)
  else
    let offset := conf.count.toInt * 16384
    if -2 ^ 31 ≤ offset ∧ offset < 2 ^ 31 then some (shadowMetadata key offset) else none

/-- The values of the loop variable. -/
def turns (conf : LinkTest) : List Nat := List.range conf.count.toInt.toNat

/-- `write_test`. -/
def writeTest (conf : LinkTest) (rank : Int32) (rand : Nat → Int32) : Thread Fault LinkCluster PUnit :=
  conf.turns.forM fun i => Thread.atom do
    let m ← defined (conf.metadata (key rank (rand i) (.ofNat i)))
    createSymbiosMetadataRedis m

/-- `read_test`, with what it finds. -/
def readTest (conf : LinkTest) (rank : Int32) (rand : Nat → Int32) :
    Thread Fault LinkCluster (List SymbiosMetadata) :=
  conf.turns.mapM fun i => Thread.atom (querySymbiosMetadataByIdRedis (key rank (rand i) (.ofNat i)))

/-- A run with `-m 0`, on all ranks. -/
def writers (conf : LinkTest) (rand : Int32 → Nat → Int32) (s : LinkCluster) :
    Thread.Pool Int32 Fault LinkCluster PUnit where
  state := s
  threads rank := conf.writeTest rank (rand rank)

/-- A run with `-m 1`, on all ranks. -/
def readers (conf : LinkTest) (rand : Int32 → Nat → Int32) (s : LinkCluster) :
    Thread.Pool Int32 Fault LinkCluster (List SymbiosMetadata) where
  state := s
  threads rank := conf.readTest rank (rand rank)

end LinkTest

end Symbios
