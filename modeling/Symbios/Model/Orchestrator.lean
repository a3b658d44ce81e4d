import Symbios.Model.IoClients

/-!
# The metadata orchestrator

`metadata_orchestrator.cpp`. The record of a file `id` is stored under `id + "_meta"`: the primary record in
the storage of the request that created the file, a link to it in every other configured storage. Segment
`s` of the file is the object `id + to_string(s)`.

`locate` turns a request into one distribution per segment. Its loop counter is an `int`, the array of
links has as many elements as there are links, and both are indexed by segment numbers.
-/

namespace Symbios

/-- `id + "_meta"`. -/
def metaId (id : CharStruct) : CharStruct := id ++ [0x5f, 0x6d, 0x65, 0x74, 0x61]

/-- `id + std::to_string(segment)`. -/
def objectId (id : CharStruct) (segment : Nat) : CharStruct := id ++ Decimal.decimal segment

/-- An `unsigned long` segment number as the `int64_t` key of a link. -/
def linkKey (segment : Nat) : Int := Int.bmod segment (2 ^ 64)

/-- The conversion to `int`. -/
def toInt (z : Int) : Int := Int.bmod z (2 ^ 32)

/-- The conversion of a signed value to `size_t`. -/
def toSize (z : Int) : Nat := (z % 2 ^ 64).toNat

namespace MetadataOrchestrator

variable [Wire] (conf : ConfigurationManager) (env : Env)

/-! ## Locate -/

/-- The primary metadata of a request: the record under its storage index, or the one that record links to. -/
def primaryMetadata (request : Data) : Prog Metadata := do
  let originalMetadata : Data := { id := metaId request.id, storageIndex := request.storageIndex }
  let originalMetadata ← IoFactory.read conf env originalMetadata.storageIndex originalMetadata originalMetadata
  let metadata ← unpack originalMetadata
  if metadata.isLink = false then return metadata
  else
    -- `operator[]` default-constructs a missing link
    let originalMetadata := (metadata.links.lookup (-1)).getD {}
    let originalMetadata ← IoFactory.read conf env originalMetadata.storageIndex originalMetadata originalMetadata
    unpack originalMetadata
where
  /-- The string of `data_size_` bytes of the buffer, unpacked. -/
  unpack (record : Data) : Prog Metadata := do
    let bytes ← slice record.buffer 0 record.dataSize
    match Metadata.deserialize bytes with
    | .ok metadata => return metadata
    | .error fault => throw fault

/-- `Data links[links_.size()]`, filled from the map; `none` when a key is outside the array. -/
def linkArray (links : Links) : Option (List Data) :=
  links.entries.foldlM
    (fun array e => if 0 ≤ e.1 ∧ e.1 < (array.length : Int) then some (array.set e.1.toNat e.2) else none)
    (List.replicate links.entries.length {})

/-- One distribution of the loop of `Locate`. -/
def tileAt (link : Data) (relativeOffset dataSize : Nat) (destinationPosition : Int) : DataDistribution :=
  { sourceData := { link with position := relativeOffset, dataSize }
    destinationData := { link with position := toSize destinationPosition, dataSize }
    storageIndex := link.storageIndex }

/-- The loop of `Locate` from index `i` on, over the rest of the array; `none` when `++i` overflows. -/
def tile (maxObjSize : Nat) (getAll : Bool) (endSegment : Nat) :
    List Data → Nat → Nat → Nat → Int → Option (List DataDistribution)
  | [], _, _, _, _ => some []
  | link :: rest, i, startOffset, sizeLeft, destinationPosition =>
    if getAll = true ∨ i ≤ endSegment then
      let relativeOffset := if getAll then 0 else startOffset % maxObjSize
      let dataSize := if maxObjSize - relativeOffset > sizeLeft then sizeLeft else maxObjSize - relativeOffset
      if i + 1 < 2 ^ 31 then
        (tile maxObjSize getAll endSegment rest (i + 1) ((startOffset + dataSize) % 2 ^ 64)
            (sizeLeft - dataSize) (toInt (destinationPosition + dataSize))).map
          (tileAt link relativeOffset dataSize destinationPosition :: ·)
      else none
    else some []

/-- The distributions of a request, given the links of the primary metadata. A negative counter is huge as
a `size_t`; should it ever pass the bound it would index in front of the array. -/
def tiles (links : Links) (request : Data) : Option (List DataDistribution) := do
  let array ← linkArray links
  let getAll := decide (request.dataSize = 0)
  let startSegment := request.position / conf.maxObjSize
  let endSegment := (request.position + request.dataSize) % 2 ^ 64 / conf.maxObjSize
  let i := toInt startSegment
  if i < 0 then
    if (getAll = true ∨ toSize i ≤ endSegment) ∧ toSize i < array.length then none else some []
  else
    tile conf.maxObjSize getAll endSegment (array.drop i.toNat) i.toNat request.position request.dataSize 0

/-- `MetadataOrchestrator::Locate`, with the primary metadata it hands back. -/
def locate (request : Data) : Prog (List DataDistribution × Metadata) := do
  let primary ← primaryMetadata conf env request
  match tiles conf primary.links request with
  | some distributions => return (distributions, primary)
  | none => throw .undefined

/-! ## Store -/

/-- The destination of a distribution, inside its segment. -/
def placed (maxObjSize : Nat) (destination : Data) : Data :=
  { destination with
    id := objectId destination.id (destination.position / maxObjSize)
    position := destination.position % maxObjSize }

/-- The loop of `Store` over an existing file: a segment that is linked goes where its link says, any other
gets a link. The flag says that a link was added. -/
def updateLinks (maxObjSize : Nat) : List DataDistribution → Links → List DataDistribution × Links × Bool
  | [], links => ([], links, false)
  | d :: distributions, links =>
    let key := linkKey (d.destinationData.position / maxObjSize)
    match links.lookup key with
    | none =>
      let destination := { placed maxObjSize d.destinationData with buffer := none }
      let r := updateLinks maxObjSize distributions (links.insert key destination)
      ({ d with destinationData := destination } :: r.1, r.2.1, true)
    | some link =>
      let destination := { d.destinationData with
        id := link.id, position := d.destinationData.position % maxObjSize, storageIndex := link.storageIndex }
      let r := updateLinks maxObjSize distributions links
      ({ d with destinationData := destination } :: r.1, r.2.1, r.2.2)

/-- The loop of `Store` over a new file: every distribution goes where it was sent; the first one of a
segment is linked. -/
def createLinks (maxObjSize : Nat) : List DataDistribution → Links → List DataDistribution × Links
  | [], links => ([], links)
  | d :: distributions, links =>
    let key := linkKey (d.destinationData.position / maxObjSize)
    let destination := placed maxObjSize d.destinationData
    let links := if key ∈ links then links else links.insert key { destination with buffer := none }
    let r := createLinks maxObjSize distributions links
    ({ d with destinationData := destination } :: r.1, r.2)

/-- The existence check of `Store`: every `ErrorException` of `Locate` means that there is no file yet. -/
def lookupFile (request : Data) : Prog (Option Metadata) :=
  tryCatch (do
    let r ← locate conf env request
    return some r.2)
    fun
      | .error _ => return none
      | fault => throw fault

/-- A record as `Data`, ready to be written. -/
def recordData (id : CharStruct) (m : Metadata) (storageIndex : Nat) : Data :=
  { id := metaId id, buffer := some m.serialize, dataSize := m.serialize.length, storageIndex }

/-- The record that links to the primary record `primary` of `id`. -/
def linkMetadata (id : CharStruct) (primary : Metadata) : Metadata :=
  { isLink := true
    links := AList.singleton (-1) { recordData id primary primary.storageIndex with buffer := none } }

/-- `MetadataOrchestrator::Store`, with the distributions as it leaves them. -/
def store (request : Data) (distributions : List DataDistribution) : Prog (List DataDistribution) := do
  match ← lookupFile conf env request with
  | some primary =>
    let (distributions, links, isMetadataUpdated) := updateLinks conf.maxObjSize distributions primary.links
    let primary := { primary with links }
    if isMetadataUpdated then
      let record := recordData request.id primary primary.storageIndex
      IoFactory.write conf env record.storageIndex record record
    return distributions
  | none =>
    let (distributions, links) := createLinks conf.maxObjSize distributions ∅
    let primary : Metadata := { isLink := false, links, storageIndex := request.storageIndex }
    let record := recordData request.id primary primary.storageIndex
    IoFactory.write conf env record.storageIndex record record
    conf.storageSolutions.forM fun solution =>
      if solution.1 = request.storageIndex then pure ()
      else
        let link := recordData request.id (linkMetadata request.id primary) solution.1
        IoFactory.write conf env link.storageIndex link link
    return distributions

/-! ## Delete -/

/-- `MetadataOrchestrator::Delete`. -/
def delete (request : Data) : Prog Bool := do
  conf.storageSolutions.forM fun solution => do
    discard <| IoFactory.remove conf solution.1 { id := metaId request.id, storageIndex := solution.1 }
  return true

end MetadataOrchestrator

end Symbios
