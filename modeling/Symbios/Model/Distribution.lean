import Symbios.Base.UnorderedMap
import Symbios.Model.Server

/-!
# The engines over the table of storage solutions

The three implemented policies as they use `STORAGE_SOLUTIONS`: through `operator[]`, which inserts what it does not
find, and with the selected index in an `int16_t`. What `rand()` and the global sequence return is part of a call. The
iteration order of an unordered map is the order of its entries.
-/

namespace Symbios

open UnorderedMap

/-- `STORAGE_SOLUTIONS`, of a solution its `io_client_type_`. A null pointer is `none`. -/
abbrev StorageSolutions := AList fun _ : UInt16 => Option IoClientType

namespace StorageSolutions

/-- `ConfigurationManager::config` of the table. An entry whose `TYPE` is not known gets a null pointer. -/
def config (types : List (Option IoClientType)) : StorageSolutions :=
  types.zipIdx.foldl (fun table entry => insertNew table (UInt16.ofNat entry.2) entry.1) ∅

/-- `STORAGE_SOLUTIONS.size()`. -/
def size (table : StorageSolutions) : UInt64 := .ofNat table.entries.length

end StorageSolutions

/-! ## The policies -/

/-- The end of every `Distribute`, from the selected index on. -/
def distributeTo (selectedSolutionIndex : Int16) (table : StorageSolutions) (source destination : Data) :
    List DataDistribution × StorageSolutions :=
  ([{ sourceData := source
      destinationData := { destination with storageIndex := selectedSolutionIndex.toUInt16.toNat }
      storageIndex := source.storageIndex }],
    (subscript none table selectedSolutionIndex.toUInt16).2)

/-- `RandomDDE::Distribute`. The `int` of `rand()` becomes a `size_t`. -/
def RandomDDE.distribute (randomNumber : Int32) (table : StorageSolutions) (source destination : Data) :
    List DataDistribution × StorageSolutions :=
  distributeTo (randomNumber.toInt64.toUInt64 % table.size).toUInt16.toInt16 table source destination

/-- `RoundRobinDDE::Distribute`. -/
def RoundRobinDDE.distribute (nextValue : UInt64) (table : StorageSolutions) (source destination : Data) :
    List DataDistribution × StorageSolutions :=
  distributeTo (nextValue % table.size).toUInt16.toInt16 table source destination

/-- `HeuristicsDDE::maps`. -/
abbrev HeuristicsDDE := AList fun _ : IoClientType => UInt16 × Option IoClientType

namespace HeuristicsDDE

/-- The constructor. A null pointer in the table is dereferenced, which is undefined. -/
def new (table : StorageSolutions) : Option HeuristicsDDE :=
  table.entries.foldlM (fun maps entry => entry.2.map fun type => insertNew maps type (entry.1, entry.2)) ∅

/-- The backend a request prefers. -/
def preferred (destination : Data) : IoClientType :=
  if destination.dataSize < 16 * 1024 then .mongoIo
  else if 16 * 1024 ≤ destination.dataSize ∧ destination.dataSize < 128 * 1024 then .redisIo
  else .fileIo

/-- `HeuristicsDDE::Distribute`. -/
def distribute (maps : HeuristicsDDE) (table : StorageSolutions) (source destination : Data) :
    List DataDistribution × HeuristicsDDE × StorageSolutions :=
  let entry := subscript (0, none) maps (preferred destination)
  let result := distributeTo entry.1.1.toInt16 table source destination
  (result.1, entry.2, result.2)

end HeuristicsDDE

/-! ## Runs -/

/-- An engine and its state. -/
inductive Engine where
  | random
  | roundRobin
  | heuristics (maps : HeuristicsDDE)
  | dynamicProgramming

/-- A call of `Distribute`, with what `rand()` and the sequence return in it. -/
structure Call where
  randomNumber : Int32
  nextValue : UInt64
  source : Data
  destination : Data

namespace Engine

/-- `GetDataDistributionEngine`. -/
def new (table : StorageSolutions) : DataDistributionPolicy → Option Engine
  | .randomPolicy => some random
  | .roundRobinPolicy => some roundRobin
  | .heuristicsPolicy => (HeuristicsDDE.new table).map heuristics
  | .dynamicProgrammingPolicy => some dynamicProgramming

def distribute (engine : Engine) (table : StorageSolutions) (call : Call) :
    List DataDistribution × Engine × StorageSolutions :=
  match engine with
  | random =>
    let result := RandomDDE.distribute call.randomNumber table call.source call.destination
    (result.1, random, result.2)
  | roundRobin =>
    let result := RoundRobinDDE.distribute call.nextValue table call.source call.destination
    (result.1, roundRobin, result.2)
  | heuristics maps =>
    let result := maps.distribute table call.source call.destination
    (result.1, heuristics result.2.1, result.2.2)
  | dynamicProgramming => ([], dynamicProgramming, table)

/-- The results of one call after the other, and the engine and the table they leave. -/
def run (engine : Engine) (table : StorageSolutions) :
    List Call → List (List DataDistribution) × Engine × StorageSolutions
  | [] => ([], engine, table)
  | call :: calls =>
    let result := engine.distribute table call
    let rest := run result.2.1 result.2.2 calls
    (result.1 :: rest.1, rest.2)

end Engine

end Symbios
