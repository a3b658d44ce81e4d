import Symbios.Model.Writers
import Symbios.Proof.Clients

/-!
# Concurrent writes to one object

The steps of a writer alone are `Write` of its client (`redisWrite_steps`, `mongoWrite_steps`). With two writers nothing
keeps the steps of one together, and `Replace` says what is left: in Redis the value of the writer that sets last,
in MongoDB the document of the writer that inserts last and, unless that one deletes after the other has inserted, the
other document too (`concurrent_writes`).
-/

namespace Symbios

open EStateM Replace

/-! ## One writer -/

section alone

variable {call : ObjectWrite} {old : Option (List UInt8)} {value : List UInt8}

theorem newVal_eq (call : ObjectWrite) (old : Option (List UInt8)) (key : CharStruct) :
    call.newVal old = storedValue old call.source (call.destination key) := by
  cases old with
  | none => rfl
  | some old => rfl

/-- The value is the same over all backends. -/
theorem newVal_of_value (h : call.value old = some value) (w : Backends) : call.newVal old w = .ok value w := by
  have hagree : AgreeOn ∅ (fun _ _ => none) w := fun _ _ hk => absurd hk (Set.notMem_empty _)
  unfold ObjectWrite.value at h
  split at h
  next hrun =>
    rw [newVal_eq call old []] at hrun ⊢
    apply (storedValue_readOnly _ _ _).run_of_ok
    rw [← ((storedValue_confined _ _ _).agrees (fun _ _ => none) w trivial trivial hagree).1, hrun, Result.outcome_ok,
      Option.some.inj h]
  next => cases h

theorem write_of_value {t : IoClientType} (ht : t ≠ .fileIo) {key : CharStruct} {w : Backends}
    (h : call.value (w t key) = some value) :
    IoClient.write t call.source (call.destination key) w = .ok () (w.put t key (some value)) := by
  have hvalue := newVal_of_value h w
  rw [newVal_eq call _ key] at hvalue
  rw [objectWrite_eq ht]
  exact bind_ok hvalue

variable {f : Bool → Option (List UInt8) → Option (List UInt8)} {t : Bool} {key : CharStruct} {w : Backends}

/-- `get` and `set` are `RedisIOClient::Write`. -/
theorem redisWrite_steps (h : call.value (w .redisIo key) = some value) (hf : f t = call.value) :
    RedisIoClient.write call.source (call.destination key) w = .ok () (w.put .redisIo key (some value)) ∧
      perform (redisStore key) f [(t, .look), (t, .put)] (start (w .redisIo)) =
        some ⟨RedisCluster.set (w .redisIo) key value, Function.update (fun _ => .look) t (.done value)⟩ := by
  refine ⟨write_of_value (t := .redisIo) (by decide) h, ?_⟩
  have hlook : move (redisStore key) f (start (w .redisIo)) (t, .look) =
      some ⟨w .redisIo, Function.update (fun _ => .look) t (.put value)⟩ := by
    simp [move, start, redisStore, hf, h]
  rw [perform, List.foldlM_cons, hlook]
  simp [move, redisStore]

/-- `find_one`, `delete_many` where there is a document, and `insert_one` are `MongoIOClient::Write`. -/
theorem mongoWrite_steps {file : MongoCollection} (hfile : file.documents key = (w .mongoIo key).toList)
    (h : call.value (w .mongoIo key) = some value) (hf : f t = call.value) :
    MongoIoClient.write call.source (call.destination key) w = .ok () (w.put .mongoIo key (some value)) ∧
      ∃ file', file'.documents key = [value] ∧
        perform (mongoStore key) f ((t, .look) :: if (w .mongoIo key).isSome then [(t, .clear), (t, .put)] else [(t, .put)])
          (start file) = some ⟨file', Function.update (fun _ => .look) t (.done value)⟩ := by
  have hfind : file.findOne key = w .mongoIo key := by
    rw [file.findOne_eq, hfile]
    cases w .mongoIo key <;> rfl
  refine ⟨write_of_value (t := .mongoIo) (by decide) h, ?_⟩
  cases hold : w .mongoIo key with
  | none =>
    rw [hold] at h hfind hfile
    refine ⟨file.insertOne key value, ?_, ?_⟩
    · rw [MongoCollection.documents_insertOne, hfile]
      rfl
    · have hlook : move (mongoStore key) f (start file) (t, .look) =
          some ⟨file, Function.update (fun _ => .look) t (.put value)⟩ := by
        simp [move, start, mongoStore, hfind, hf, h]
      rw [perform, List.foldlM_cons, hlook]
      simp [move, mongoStore]
  | some old =>
    rw [hold] at h hfind
    refine ⟨(file.deleteMany key).insertOne key value, ?_, ?_⟩
    · rw [MongoCollection.documents_insertOne, MongoCollection.documents_deleteMany]
      rfl
    · have hlook : move (mongoStore key) f (start file) (t, .look) =
          some ⟨file, Function.update (fun _ => .look) t (.clear value)⟩ := by
        simp [move, start, mongoStore, hfind, hf, h]
      rw [perform, List.foldlM_cons, hlook]
      simp [move, mongoStore]

end alone

/-! ## Two writers -/

/-- Two `Write`s to one key, and any order of their steps. When both have completed, each has made its value of what it
found. Redis has the value of the one that sets last. MongoDB has the document of the one that inserts last, and with
it that of the other one unless the last one deleted it. If the last one has looked after the other was done, both have
what the two calls leave one after the other. -/
theorem concurrent_writes (calls : Bool → ObjectWrite) (key : CharStruct) (old : Option (List UInt8))
    (l : List (Bool × Turn)) :
    (∀ (cluster : RedisCluster) c, cluster key = old →
      perform (redisStore key) (fun t => (calls t).value) l (start cluster) = some c → c.Complete →
      ∃ b v, Before l (!b, .put) (b, .put) ∧ (∀ t, (calls t).value (found old v l t) = some (v t)) ∧
        c.store key = some (v b) ∧
        (Before l (!b, .put) (b, .look) →
          (calls !b).value old = some (v !b) ∧ (calls b).value (some (v !b)) = some (v b))) ∧
    (∀ (file : MongoCollection) c, file.documents key = old.toList →
      perform (mongoStore key) (fun t => (calls t).value) l (start file) = some c → c.Complete →
      ∃ b v, Before l (!b, .put) (b, .put) ∧ (∀ t, (calls t).value (found old v l t) = some (v t)) ∧
        c.store.documents key = (if Before l (!b, .put) (b, .clear) then [v b] else [v !b, v b]) ∧
        (Before l (!b, .put) (b, .look) →
          (calls !b).value old = some (v !b) ∧ (calls b).value (some (v !b)) = some (v b) ∧
            c.store.documents key = [v b])) := by
  constructor
  · intro cluster c hold hperform hdone
    have hrun : Run (redisStore key) (fun t => (calls t).value) cluster l c := Run.start.perform hperform
    obtain ⟨b, v, hlast, hmade, hvalues, hserial⟩ :=
      hrun.final (show (redisStore key).values cluster = old.toList from congrArg Option.toList hold) hdone
    refine ⟨b, v, hlast, hmade, ?_, fun hb => ⟨(hserial hb).1, (hserial hb).2.1⟩⟩
    rw [if_neg fun hclears => by cases hclears.1] at hvalues
    exact Option.toList_eq_singleton_iff.mp hvalues
  · intro file c hold hperform hdone
    have hrun : Run (mongoStore key) (fun t => (calls t).value) file l c := Run.start.perform hperform
    obtain ⟨b, v, hlast, hmade, hvalues, hserial⟩ :=
      hrun.final (show (mongoStore key).values file = old.toList from hold) hdone
    refine ⟨b, v, hlast, hmade, ?_, hserial⟩
    rw [show c.store.documents key = _ from hvalues]
    by_cases hdeleted : Before l (!b, .put) (b, .clear)
    · rw [if_neg fun hclears => hclears.2 hdeleted, if_pos hdeleted]
    · rw [if_pos ⟨rfl, hdeleted⟩, if_neg hdeleted]

/-- One byte each, at offsets 0 and 1. -/
def byteWrites (t : Bool) : ObjectWrite :=
  if t then ⟨{ buffer := some [8], dataSize := 1 }, 1⟩ else ⟨{ buffer := some [9], dataSize := 1 }, 0⟩

/-- The second writer starts when the first is done: Redis has the value of the second, MongoDB its document alone. -/
theorem concurrent_writes_serial :
    (∃ c, perform (redisStore [107]) (fun t => (byteWrites t).value)
        [(false, .look), (false, .put), (true, .look), (true, .put)] (start fun _ => some [0, 0, 0]) = some c ∧
      ∃ b, ∃ v : Bool → List UInt8, (byteWrites b).value (some (v !b)) = some (v b) ∧ c.store [107] = some (v b)) ∧
    ∃ c, perform (mongoStore [107]) (fun t => (byteWrites t).value)
        [(false, .look), (false, .put), (true, .look), (true, .clear), (true, .put)] (start []) = some c ∧
      ∃ b, ∃ v : Bool → List UInt8, (byteWrites b).value (some (v !b)) = some (v b) ∧
        c.store.documents [107] = [v b] := by
  constructor
  · refine ⟨_, rfl, ?_⟩
    obtain ⟨b, v, hlast, -, hstore, hserial⟩ := (concurrent_writes byteWrites [107] (some [0, 0, 0])
      [(false, .look), (false, .put), (true, .look), (true, .put)]).1 (fun _ => some [0, 0, 0]) _ rfl rfl
      fun t => by cases t <;> exact ⟨_, rfl⟩
    cases b with
    | false => exact absurd hlast (by decide)
    | true => exact ⟨true, v, (hserial (by decide)).2, hstore⟩
  · refine ⟨_, rfl, ?_⟩
    obtain ⟨b, v, hlast, -, -, hserial⟩ := (concurrent_writes byteWrites [107] none
      [(false, .look), (false, .put), (true, .look), (true, .clear), (true, .put)]).2 [] _ rfl rfl
      fun t => by cases t <;> exact ⟨_, rfl⟩
    cases b with
    | false => exact absurd hlast (by decide)
    | true => exact ⟨true, v, (hserial (by decide)).2⟩

/-- Two writers that both look before either puts: of the two bytes only the second one is in Redis, whereas either
order of the calls leaves both; and MongoDB, where there was no document, has two. -/
theorem concurrent_writes_lost :
    (∃ c, perform (redisStore [107]) (fun t => (byteWrites t).value)
        [(false, .look), (true, .look), (false, .put), (true, .put)] (start fun _ => some [0, 0, 0]) = some c ∧
      c.Complete ∧
      ∀ b, c.store [107] ≠ ((byteWrites !b).value (some [0, 0, 0])).bind fun x => (byteWrites b).value (some x)) ∧
    ∃ c, perform (mongoStore [107]) (fun t => (byteWrites t).value)
        [(false, .look), (true, .look), (false, .put), (true, .put)] (start []) = some c ∧
      c.Complete ∧ (c.store.documents [107]).length = 2 := by
  refine ⟨⟨_, rfl, ?_, ?_⟩, ⟨_, rfl, ?_, ?_⟩⟩
  · intro t
    cases t <;> exact ⟨_, rfl⟩
  · decide +kernel
  · intro t
    cases t <;> exact ⟨_, rfl⟩
  · decide +kernel

end Symbios
