import Symbios.Model.Orchestrator

/-!
# Data distribution engines and the server

`random_dde.cpp`, `round_robin_dde.cpp`, `heuristics_dde.cpp`, `dp_dde.cpp` and `server.cpp`. The value of
`rand()` or of the global sequence is an argument of the call (`draw`).
-/

namespace Symbios

/-! ## Data distribution -/

namespace DataDistributionEngine

variable (conf : ConfigurationManager)

/-- The first storage index of a type in iteration order; a type that is not configured gives the
default-constructed pair, index 0. -/
def heuristicsIndex (client : IoClientType) : Nat :=
  ((conf.storageSolutions.find? fun solution => solution.2 = client).map Prod.fst).getD 0

/-- The storage index a policy selects. It passes through an `int16_t` on its way to the `uint16_t` field,
which is the remainder modulo `2 ^ 16`. -/
def selectedIndex (draw : Nat) (destination : Data) : Nat :=
  match conf.dataDistributionPolicy with
  | .randomPolicy => draw % conf.storageSolutions.length % 2 ^ 16
  | .roundRobinPolicy => draw % conf.storageSolutions.length % 2 ^ 16
  | .heuristicsPolicy =>
    (if destination.dataSize < 16 * 1024 then heuristicsIndex conf .mongoIo
      else if destination.dataSize < 128 * 1024 then heuristicsIndex conf .redisIo
      else heuristicsIndex conf .fileIo) % 2 ^ 16
  | .dynamicProgrammingPolicy => 0

/-- `DataDistributionEngine::Distribute`: the whole request goes to the selected storage. The dynamic
programming engine distributes nothing. -/
def distribute (draw : Nat) (source destination : Data) : List DataDistribution :=
  if conf.dataDistributionPolicy = .dynamicProgrammingPolicy then []
  else [{ sourceData := source
          destinationData := { destination with storageIndex := selectedIndex conf draw destination }
          storageIndex := source.storageIndex }]

end DataDistributionEngine

/-! ## Server -/

namespace Server

variable [Wire] (conf : ConfigurationManager) (env : Env)

/-- `Server::Store`. -/
def store (draw : Nat) (source destination : Data) : Prog Nat := do
  let distributions := DataDistributionEngine.distribute conf draw source destination
  let distributions ← MetadataOrchestrator.store conf env destination distributions
  distributions.forM fun d => IoFactory.write conf env d.destinationData.storageIndex d.sourceData d.destinationData
  return conf.serverCount

/-- The bytes `Server::Locate` copies out of a part it has read. -/
def window (part : Data) : Prog (List UInt8) :=
  if part.dataSize < part.position then throw .undefined
  else slice part.buffer part.position (part.dataSize - part.position)

/-- The `int` accumulator over the sizes of the parts. -/
def totalSize (sizes : List Nat) : Int := sizes.foldl (fun total (size : Nat) => toInt (total + size)) 0

/-- `Server::Locate`. The returned buffer is given by the bytes copied into it; they have to fit into the
`total_size` bytes that were allocated. -/
def locate (source destination : Data) : Prog Data := do
  let r ← MetadataOrchestrator.locate conf env source
  let parts ← r.1.mapM fun d => IoFactory.read conf env d.destinationData.storageIndex d.sourceData d.destinationData
  let windows ← parts.mapM window
  if (windows.flatten.length : Int) ≤ totalSize (parts.map (·.dataSize)) then
    return { destination with buffer := some windows.flatten }
  else throw .undefined

/-- `Locate` of the orchestrator, with every `ErrorException` caught. -/
def tryLocate (request : Data) : Prog (Option (List DataDistribution)) :=
  tryCatch (do
    let r ← MetadataOrchestrator.locate conf env request
    return some r.1)
    fun
      | .error _ => return none
      | fault => throw fault

/-- `Server::Size`. -/
def size (request : Data) : Prog Nat := do
  match ← tryLocate conf env request with
  | none => return 0
  | some distributions =>
    let sizes ← distributions.mapM fun d => IoFactory.size conf d.destinationData.storageIndex d.destinationData
    return toSize (totalSize sizes)

/-- `Server::Delete`: the objects of the request's range go, and then the metadata in every storage. -/
def delete (request : Data) : Prog Bool := do
  match ← tryLocate conf env request with
  | none => return false
  | some distributions =>
    let status ← distributions.foldlM (fun status d =>
      if status then IoFactory.remove conf d.destinationData.storageIndex d.sourceData else pure false) true
    if status then MetadataOrchestrator.delete conf request else return false

end Server

end Symbios
