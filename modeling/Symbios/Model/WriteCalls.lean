import Symbios.Model.Server

/-!
# Results of `write(2)`

`FileIOClient::Write` with what `write` returns: the number of bytes it has stored, which may be short of what it was
asked for, or -1. The `ssize_t` is compared with an unsigned difference, so it is converted first. `storeWith` and
`Server.storeWith` are `Store` over this client.
-/

namespace Symbios

def writeDataToFileFailed : ErrorCode := ⟨1003, "Write data to file failed"⟩

/-- `FileIOClient::Write`, where `write` returns `result`. -/
def FileIoClient.writeResult (result : Int) (source destination : Data) : Prog Unit := do
  let file := ((← get) .fileIo destination.id).getD []
  if 2 ^ 63 ≤ destination.position then
    modify (·.put .fileIo destination.id (some file))
    throw (.error seekFileFailed)
  else
    let count := subSize source.dataSize source.position
    let bytes ← slice source.buffer source.position count
    let written := bytes.take result.toNat
    let file' := if written = [] then file else Overlay.overlay 0 file destination.position written
    modify (·.put .fileIo destination.id (some file'))
    if toSize result < count then throw (.error writeDataToFileFailed)

/-- What `write` returns for the record or object at a storage index, in the state it is called in. -/
structure WriteResults where
  result : Backends → Nat → Data → Data → Int
  bounds : ∀ w index source destination,
    -1 ≤ result w index source destination ∧
      result w index source destination ≤ subSize source.dataSize source.position

/-- No call of `write` returns -1. -/
def WriteResults.NeverFails (results : WriteResults) : Prop :=
  ∀ w index source destination, results.result w index source destination ≠ -1

section store

variable [Wire] (conf : ConfigurationManager) (results : WriteResults)

/-- `GetIOClient(index)->Write(source, destination)`. -/
def IoFactory.writeWith (index : Nat) (source destination : Data) : Prog Unit := do
  match ← IoFactory.getIoClient conf index with
  | .fileIo => FileIoClient.writeResult (results.result (← get) index source destination) source destination
  | client => IoClient.write client source destination

/-- `MetadataOrchestrator::Store`. -/
def MetadataOrchestrator.storeWith (request : Data) (distributions : List DataDistribution) :
    Prog (List DataDistribution) := do
  match ← lookupFile conf Env.calm request with
  | some primary =>
    let (distributions, links, isMetadataUpdated) := updateLinks conf.maxObjSize distributions primary.links
    let primary := { primary with links }
    if isMetadataUpdated then
      let record := recordData request.id primary primary.storageIndex
      IoFactory.writeWith conf results record.storageIndex record record
    return distributions
  | none =>
    let (distributions, links) := createLinks conf.maxObjSize distributions ∅
    let primary : Metadata := { isLink := false, links, storageIndex := request.storageIndex }
    let record := recordData request.id primary primary.storageIndex
    IoFactory.writeWith conf results record.storageIndex record record
    conf.storageSolutions.forM fun solution =>
      if solution.1 = request.storageIndex then pure ()
      else
        let link := recordData request.id (linkMetadata request.id primary) solution.1
        IoFactory.writeWith conf results link.storageIndex link link
    return distributions

/-- `Server::Store`. -/
def Server.storeWith (draw : Nat) (source destination : Data) : Prog Nat := do
  let distributions := DataDistributionEngine.distribute conf draw source destination
  let distributions ← MetadataOrchestrator.storeWith conf results destination distributions
  distributions.forM fun d =>
    IoFactory.writeWith conf results d.destinationData.storageIndex d.sourceData d.destinationData
  return conf.serverCount

end store

end Symbios
