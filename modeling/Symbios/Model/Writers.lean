import Symbios.Base.Replace
import Symbios.Model.IoClients

/-!
# The steps of a write into an object store

`RedisIOClient::Write` is `get` and then `set`; `MongoIOClient::Write` is `find_one`, `delete_many` where a document was
found, and `insert_one`. Each of these is one request to its database, and nothing holds the key between them. The value
is made as soon as the old one is there (`newValue`, or the source alone).
-/

namespace Symbios

open Replace

/-- A `Write`: its source, and the position of its destination. -/
structure ObjectWrite where
  source : Data
  position : Nat

/-- The destination of the write under `key`. -/
def ObjectWrite.destination (call : ObjectWrite) (key : CharStruct) : Data := { id := key, position := call.position }

/-- The value that `Write` of either client stores, by what it finds. -/
def ObjectWrite.newVal (call : ObjectWrite) : Option (List UInt8) → Prog (List UInt8)
  | some old => newValue old call.source (call.destination [])
  | none => slice call.source.buffer call.source.position call.source.dataSize

/-- The value, if it is defined. No backend is looked at on the way. -/
def ObjectWrite.value (call : ObjectWrite) (old : Option (List UInt8)) : Option (List UInt8) :=
  match call.newVal old fun _ _ => none with
  | .ok value _ => some value
  | .error _ _ => none

/-! ## Redis -/

/-- The values of the cluster. -/
abbrev RedisCluster := CharStruct → Option (List UInt8)

/-- `RedisCluster::set`. -/
def RedisCluster.set (cluster : RedisCluster) (key : CharStruct) (value : List UInt8) : RedisCluster :=
  Function.update cluster key (some value)

/-- `get` and `set` of one key. -/
def redisStore (key : CharStruct) : Store RedisCluster (List UInt8) where
  values cluster := (cluster key).toList
  look cluster := cluster key
  clear cluster := cluster
  put value cluster := cluster.set key value
  clears := false
  look_eq cluster := by cases cluster key <;> rfl
  values_clear h := by cases h
  values_put value cluster := by simp [RedisCluster.set]

/-! ## MongoDB -/

/-- The documents of the collection, in the order they were inserted in. -/
abbrev MongoCollection := List (CharStruct × List UInt8)

namespace MongoCollection

/-- The values of the documents of a key. -/
def documents (file : MongoCollection) (key : CharStruct) : List (List UInt8) :=
  (file.filter fun document => document.1 = key).map Prod.snd

/-- `find_one`. -/
def findOne (file : MongoCollection) (key : CharStruct) : Option (List UInt8) :=
  (file.find? fun document => document.1 = key).map Prod.snd

/-- `delete_many`. -/
def deleteMany (file : MongoCollection) (key : CharStruct) : MongoCollection :=
  file.filter fun document => document.1 ≠ key

/-- `insert_one`. -/
def insertOne (file : MongoCollection) (key : CharStruct) (value : List UInt8) : MongoCollection := file ++ [(key, value)]

theorem findOne_eq (file : MongoCollection) (key : CharStruct) : file.findOne key = (file.documents key).head? := by
  rw [findOne, documents, List.head?_map, List.head?_filter]

@[simp] theorem documents_deleteMany (file : MongoCollection) (key : CharStruct) :
    (file.deleteMany key).documents key = [] := by
  simp [documents, deleteMany]

@[simp] theorem documents_insertOne (file : MongoCollection) (key : CharStruct) (value : List UInt8) :
    (file.insertOne key value).documents key = file.documents key ++ [value] := by
  simp [documents, insertOne]

end MongoCollection

/-- `find_one`, `delete_many` and `insert_one` of one key. -/
def mongoStore (key : CharStruct) : Store MongoCollection (List UInt8) where
  values file := file.documents key
  look file := file.findOne key
  clear file := file.deleteMany key
  put value file := file.insertOne key value
  clears := true
  look_eq file := file.findOne_eq key
  values_clear _ file := file.documents_deleteMany key
  values_put value file := file.documents_insertOne key value

end Symbios
