import Symbios.Base.Thread
import Symbios.Model.Server

/-!
# The steps of the server threads

`Server::Store`, `Locate`, `Size` and `Delete` once more, as threads that share the backends: every call of a storage
client is one step, with what the thread makes of its result, and between two steps any other thread of any server may
make its own. A session is what one client does: it calls one of the four procedures `server.cpp` binds, waits for the
reply, and chooses the next call by it. What a call raises is a reply too.
-/

namespace Symbios.Steps

/-- A thread of a server. -/
abbrev ServerThread := Thread Fault Backends

open Thread (atom)

variable [Wire] (conf : ConfigurationManager) (env : Env)

/-! ## The orchestrator -/

/-- The read of a record, and what is unpacked from it. -/
def readRecord (record : Data) : ServerThread Metadata := atom do
  let record ← IoFactory.read conf env record.storageIndex record record
  MetadataOrchestrator.primaryMetadata.unpack record

/-- The primary metadata of a request. -/
def primaryMetadata (request : Data) : ServerThread Metadata := do
  let metadata ← readRecord conf env { id := metaId request.id, storageIndex := request.storageIndex }
  if metadata.isLink = false then return metadata
  else readRecord conf env ((metadata.links.lookup (-1)).getD {})

/-- `MetadataOrchestrator::Locate`. -/
def locate (request : Data) : ServerThread (List DataDistribution × Metadata) := do
  let primary ← primaryMetadata conf env request
  match MetadataOrchestrator.tiles conf primary.links request with
  | some distributions => return (distributions, primary)
  | none => throw .undefined

/-- The existence check of `Store`. -/
def lookupFile (request : Data) : ServerThread (Option Metadata) :=
  tryCatch (do
    let r ← locate conf env request
    return some r.2)
    fun
      | .error _ => return none
      | fault => throw fault

/-- The write of a record. -/
def writeRecord (record : Data) : ServerThread Unit :=
  atom (IoFactory.write conf env record.storageIndex record record)

/-- `MetadataOrchestrator::Store`. -/
def storeMetadata (request : Data) (distributions : List DataDistribution) : ServerThread (List DataDistribution) := do
  match ← lookupFile conf env request with
  | some primary =>
    let (distributions, links, isMetadataUpdated) :=
      MetadataOrchestrator.updateLinks conf.maxObjSize distributions primary.links
    let primary := { primary with links }
    if isMetadataUpdated then
      writeRecord conf env (MetadataOrchestrator.recordData request.id primary primary.storageIndex)
    return distributions
  | none =>
    let (distributions, links) := MetadataOrchestrator.createLinks conf.maxObjSize distributions ∅
    let primary : Metadata := { isLink := false, links, storageIndex := request.storageIndex }
    writeRecord conf env (MetadataOrchestrator.recordData request.id primary primary.storageIndex)
    conf.storageSolutions.forM fun solution =>
      if solution.1 = request.storageIndex then pure ()
      else
        let link := MetadataOrchestrator.linkMetadata request.id primary
        writeRecord conf env (MetadataOrchestrator.recordData request.id link solution.1)
    return distributions

/-- `MetadataOrchestrator::Delete`. -/
def deleteMetadata (request : Data) : ServerThread Bool := do
  conf.storageSolutions.forM fun solution => do
    discard <| atom (IoFactory.remove conf solution.1 { id := metaId request.id, storageIndex := solution.1 })
  return true

/-! ## The server -/

/-- `Server::Store`. -/
def store (draw : Nat) (source destination : Data) : ServerThread Nat := do
  let distributions := DataDistributionEngine.distribute conf draw source destination
  let distributions ← storeMetadata conf env destination distributions
  distributions.forM fun d =>
    atom (IoFactory.write conf env d.destinationData.storageIndex d.sourceData d.destinationData)
  return conf.serverCount

/-- `Server::Locate`. -/
def locateData (source destination : Data) : ServerThread Data := do
  let r ← locate conf env source
  let parts ← r.1.mapM fun d =>
    atom (IoFactory.read conf env d.destinationData.storageIndex d.sourceData d.destinationData)
  let windows ← parts.mapM fun part => atom (Server.window part)
  if (windows.flatten.length : Int) ≤ Server.totalSize (parts.map (·.dataSize)) then
    return { destination with buffer := some windows.flatten }
  else throw .undefined

/-- `Locate` of the orchestrator, with every `ErrorException` caught. -/
def tryLocate (request : Data) : ServerThread (Option (List DataDistribution)) :=
  tryCatch (do
    let r ← locate conf env request
    return some r.1)
    fun
      | .error _ => return none
      | fault => throw fault

/-- `Server::Size`. -/
def size (request : Data) : ServerThread Nat := do
  match ← tryLocate conf env request with
  | none => return 0
  | some distributions =>
    let sizes ← distributions.mapM fun d =>
      atom (IoFactory.size conf d.destinationData.storageIndex d.destinationData)
    return toSize (Server.totalSize sizes)

/-- `Server::Delete`. -/
def delete (request : Data) : ServerThread Bool := do
  match ← tryLocate conf env request with
  | none => return false
  | some distributions =>
    let status ← distributions.foldlM (fun status d =>
      if status then atom (IoFactory.remove conf d.destinationData.storageIndex d.sourceData) else pure false) true
    if status then deleteMetadata conf request else return false

/-! ## Sessions -/

/-- A call of one of the bound procedures, with the environment it meets. -/
inductive Request where
  | storeRequest (env : Env) (draw : Nat) (source destination : Data)
  | locateRequest (env : Env) (source destination : Data)
  | sizeRequest (env : Env) (request : Data)
  | deleteRequest (env : Env) (request : Data)

/-- The file of a request. -/
def Request.id : Request → CharStruct
  | .storeRequest _ _ _ destination => destination.id
  | .locateRequest _ source _ => source.id
  | .sizeRequest _ request => request.id
  | .deleteRequest _ request => request.id

/-- What a call returns. -/
inductive Reply where
  | stored (serverCount : Nat)
  | located (destination : Data)
  | size (size : Nat)
  | deleted (status : Bool)
deriving DecidableEq

/-- The thread that serves a request. -/
def Request.steps : Request → ServerThread Reply
  | .storeRequest env draw source destination => return .stored (← store conf env draw source destination)
  | .locateRequest env source destination => return .located (← locateData conf env source destination)
  | .sizeRequest env request => return .size (← size conf env request)
  | .deleteRequest env request => return .deleted (← delete conf env request)

/-- The same request at a server that nobody else uses. -/
def Request.serve : Request → Prog Reply
  | .storeRequest env draw source destination => return .stored (← Server.store conf env draw source destination)
  | .locateRequest env source destination => return .located (← Server.locate conf env source destination)
  | .sizeRequest env request => return .size (← Server.size conf env request)
  | .deleteRequest env request => return .deleted (← Server.delete conf env request)

/-- What one client does. -/
inductive Session where
  | close
  | call (request : Request) (next : Except Fault Reply → Session)

/-- The replies of a session, which other sessions may interrupt between any two steps. -/
def Session.steps : Session → ServerThread (List (Except Fault Reply))
  | .close => return []
  | .call request next => do
    let reply ← tryCatch (do return .ok (← request.steps conf)) fun fault => return .error fault
    return reply :: (← (next reply).steps)

/-- The replies of a session on its own. -/
def Session.serve : Session → Prog (List (Except Fault Reply))
  | .close => return []
  | .call request next => do
    let reply ← tryCatch (do return .ok (← request.serve conf)) fun fault => return .error fault
    return reply :: (← (next reply).serve)

/-- Every request of the session has the property, whatever is replied. -/
def Session.Every (p : Request → Prop) : Session → Prop
  | .close => True
  | .call request next => p request ∧ ∀ reply, (next reply).Every p

/-- A shared store and one session for each client. -/
def pool {τ : Type} (sessions : τ → Session) (w : Backends) :
    Thread.Pool τ Fault Backends (List (Except Fault Reply)) where
  state := w
  threads client := (sessions client).steps conf

end Symbios.Steps
