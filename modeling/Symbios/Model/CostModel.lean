import Mathlib

/-!
# Saving and loading the cost model

`serializers.h` and the parts of `storage_cost_predictor.h` that write and read the coefficients of the storage
models. Values go through the buffers by `memcpy`, so a `float` or an `int` is its object representation, four bytes.
The bytes `malloc` leaves in the buffer of a deserializer are an argument of the call (`uninitialised`).

`ParseFloat` has no `return` behind its copy, which leaves it undefined. No caller looks at what it returns, and the model
lets it go on: it is about the records, and follows a build in which the call comes back.
-/

namespace Symbios

/-- The four bytes of a `float` or an `int`. -/
structure Word where
  b0 : UInt8
  b1 : UInt8
  b2 : UInt8
  b3 : UInt8
deriving DecidableEq, Repr

def Word.bytes (word : Word) : List UInt8 := [word.b0, word.b1, word.b2, word.b3]

/-- One record of the model file: three `float` coefficients and the `int` of the storage configuration. -/
structure ModelRow where
  nprocsCoeff : Word
  totReadCoeff : Word
  totWriteCoeff : Word
  conf : Word
deriving DecidableEq, Repr

/-- `RECORD_SIZE`. -/
def recordSize : Nat := 16

/-- `buffer_size_`. -/
def bufferSize : Nat := 2 ^ 21

/-! ## `BinarySerializer` -/

/-- The bytes written so far; `buf_off_` is their number. -/
structure BinarySerializer where
  data : List UInt8 := []
  bufSize : Nat

namespace BinarySerializer

/-- `WriteInt` and `WriteFloat`: a value that does not fit is left out, and no caller asks. -/
def writeWord (s : BinarySerializer) (word : Word) : BinarySerializer :=
  if s.data.length + 4 > s.bufSize then s else { s with data := s.data ++ word.bytes }

/-- The four writes of `SaveModelCSV` for one record. -/
def writeRow (s : BinarySerializer) (row : ModelRow) : BinarySerializer :=
  (((s.writeWord row.nprocsCoeff).writeWord row.totReadCoeff).writeWord row.totWriteCoeff).writeWord row.conf

end BinarySerializer

/-- The bytes `SaveModelCSV` puts into the file for the records it takes from the queues of its models. -/
def saveModelCsv (rows : List ModelRow) : List UInt8 :=
  (rows.foldl BinarySerializer.writeRow { bufSize := bufferSize }).data

/-! ## `BinaryDeserializer` -/

/-- The buffer, all of it, and the offset behind what was parsed. -/
structure BinaryDeserializer where
  data : List UInt8
  bufOff : Nat := 0

namespace BinaryDeserializer

/-- `ParseInt` and `ParseFloat`. Past the end of the buffer the number keeps the value it had, which no caller has
given it. -/
def parseWord (d : BinaryDeserializer) : Option (Word × BinaryDeserializer) :=
  match d.data.drop d.bufOff with
  | b0 :: b1 :: b2 :: b3 :: _ => some (⟨b0, b1, b2, b3⟩, { d with bufOff := d.bufOff + 4 })
  | _ => none

/-- `fread` into `GetBuf()`: the bytes go to the start of the buffer, wherever the offset is. -/
def fill (d : BinaryDeserializer) (bytes : List UInt8) : BinaryDeserializer :=
  { d with data := bytes ++ d.data.drop bytes.length }

end BinaryDeserializer

/-! ## `StorageCostPredictor` -/

/-- The configurations a predictor knows, and the calls of `UpdateCoeffs` on its models. -/
structure StorageCostPredictor where
  storageConfigs : List Word := []
  updates : List ModelRow := []

/-- How `LoadModelCSV_part` can fail to return. -/
inductive LoadFault where
  | thrown
  | undefined
deriving DecidableEq, Repr

namespace StorageCostPredictor

/-- `storage_models_[conf].UpdateCoeffs(...)`, after the configuration was entered if it is new. -/
def updateCoeffs (p : StorageCostPredictor) (row : ModelRow) : StorageCostPredictor where
  storageConfigs := if row.conf ∈ p.storageConfigs then p.storageConfigs else p.storageConfigs ++ [row.conf]
  updates := p.updates ++ [row]

/-- `ParseModelRow`. -/
def parseModelRow (p : StorageCostPredictor) (d : BinaryDeserializer) :
    Option (StorageCostPredictor × BinaryDeserializer) := do
  let (nprocsCoeff, d) ← d.parseWord
  let (totReadCoeff, d) ← d.parseWord
  let (totWriteCoeff, d) ← d.parseWord
  let (conf, d) ← d.parseWord
  return (p.updateCoeffs { nprocsCoeff, totReadCoeff, totWriteCoeff, conf }, d)

/-- The inner loop over the rows of one `fread`. -/
def parseModelRows : Nat → StorageCostPredictor → BinaryDeserializer →
    Option (StorageCostPredictor × BinaryDeserializer)
  | 0, p, d => some (p, d)
  | nrows + 1, p, d => do
    let (p, d) ← p.parseModelRow d
    parseModelRows nrows p d

/-- The loop of `LoadModelCSV_part` over what is left of the file. A turn takes at least one byte, so as many turns
as there are bytes are enough. -/
def loadRows : Nat → List UInt8 → StorageCostPredictor → BinaryDeserializer → Option StorageCostPredictor
  | 0, _, p, _ => some p
  | turns + 1, file, p, d =>
    let bytes := file.take recordSize
    if bytes.length = 0 then some p
    else do
      let (p, d) ← parseModelRows (bytes.length / recordSize) p (d.fill bytes)
      loadRows turns (file.drop recordSize) p d

/-- `LoadModelCSV_part`. -/
def loadModelCsvPart (uninitialised : List UInt8) (file : Option (List UInt8)) (required : Bool)
    (p : StorageCostPredictor) : Except LoadFault (Bool × StorageCostPredictor) :=
  match file with
  | none => if required then .error .thrown else .ok (false, p)
  | some bytes =>
    match loadRows bytes.length bytes p { data := uninitialised } with
    | none => .error .undefined
    | some p => .ok (true, p)

end StorageCostPredictor

end Symbios
