import Symbios.Model.Server

/-!
# Two server threads

Servers share the backends, every server runs several RPC threads, and nothing is locked. A thread that serves a
`Store` reads the record and decides on its writes (`plan`), and then makes them one after the other; each of these
steps is atomic at the backend. `exec` runs two threads under a schedule, which says whose turn it is.
-/

namespace Symbios

/-- A `Write` that is still to be made. -/
structure PendingWrite where
  index : Nat
  source : Data
  destination : Data

/-- A call of `Server::Store`. -/
structure StoreCall where
  draw : Nat := 0
  source : Data
  destination : Data

/-- The segment a call stores into. -/
def StoreCall.segment (conf : ConfigurationManager) (call : StoreCall) : Nat :=
  call.destination.position / conf.maxObjSize

section threads

variable [Wire] (conf : ConfigurationManager)

/-- The write of a record. -/
def recordWrite (id : CharStruct) (m : Metadata) (index : Nat) : PendingWrite where
  index := index
  source := MetadataOrchestrator.recordData id m index
  destination := MetadataOrchestrator.recordData id m index

/-- The write of an object. -/
def objectWrite (d : DataDistribution) : PendingWrite where
  index := d.destinationData.storageIndex
  source := d.sourceData
  destination := d.destinationData

/-- The existence check of a store, and the writes that follow from it, in their order. -/
def StoreCall.plan (call : StoreCall) (env : Env) : Prog (List PendingWrite) := do
  let distributions := DataDistributionEngine.distribute conf call.draw call.source call.destination
  match ← MetadataOrchestrator.lookupFile conf env call.destination with
  | some primary =>
    let (distributions, links, isMetadataUpdated) :=
      MetadataOrchestrator.updateLinks conf.maxObjSize distributions primary.links
    let record := recordWrite call.destination.id { primary with links } primary.storageIndex
    return (if isMetadataUpdated then [record] else []) ++ distributions.map objectWrite
  | none =>
    let (distributions, links) := MetadataOrchestrator.createLinks conf.maxObjSize distributions ∅
    let primary : Metadata := { isLink := false, links, storageIndex := call.destination.storageIndex }
    let others := conf.storageSolutions.filter fun solution => solution.1 ≠ call.destination.storageIndex
    return recordWrite call.destination.id primary primary.storageIndex ::
      (others.map fun solution =>
        recordWrite call.destination.id (MetadataOrchestrator.linkMetadata call.destination.id primary) solution.1) ++
      distributions.map objectWrite

/-- One pending write. -/
def PendingWrite.call (write : PendingWrite) (env : Env) : Prog Unit :=
  IoFactory.write conf env write.index write.source write.destination

/-- The shared backends, and what each of the two threads has still to write; a thread that has not read yet has no
list. -/
structure Concurrent where
  backends : Backends
  pending : Bool → Option (List PendingWrite)

/-- One step of a thread. A step that raises, or a step of a thread that has finished, is none. -/
def Concurrent.move (calls : Bool → StoreCall) (c : Concurrent) (thread : Bool) : Option Concurrent :=
  match c.pending thread with
  | none =>
    match (calls thread).plan conf Env.calm c.backends with
    | .ok writes w => some ⟨w, Function.update c.pending thread (some writes)⟩
    | .error _ _ => none
  | some [] => none
  | some (write :: writes) =>
    match write.call conf Env.calm c.backends with
    | .ok _ w => some ⟨w, Function.update c.pending thread (some writes)⟩
    | .error _ _ => none

/-- The steps of a schedule. -/
def exec (calls : Bool → StoreCall) (schedule : List Bool) (c : Concurrent) : Option Concurrent :=
  schedule.foldlM (Concurrent.move conf calls) c

/-- Both threads have made all their writes. -/
def Concurrent.Complete (c : Concurrent) : Prop := ∀ thread, c.pending thread = some []

end threads

end Symbios
