import Symbios.Model.Mongo
import Symbios.Proof.Server
import Symbios.Proof.Splice

/-!
# Replacing a document

`MongoIOClient::Write` reads the whole document, so what it builds is what Redis builds of the same value
(`newDocument_eq`), and over runs of writes the two databases stay equal (`mongo_matches_redis`). With calls of the
driver that raise, the document is lost between `delete_many` and `insert_one`, and gets a second one beside it when the
first `find_one` raises (`allOrNothing_iff`).
-/

namespace Symbios

open EStateM MongoIoClient

/-! ## The new value -/

section value

variable {old : List UInt8} {source destination : Data}

/-- The document as `Write` reads it. -/
def wholeDocument (key : CharStruct) (old : List UInt8) : Data := { id := key, buffer := some old, dataSize := old.length }

theorem blit_undefined {target bytes : List UInt8} {offset : Nat} (h : ¬ offset + bytes.length ≤ target.length)
    (w : Backends) : blit target offset bytes w = .error .undefined w := by
  rw [blit, if_neg h]
  rfl

theorem resized_cases (key : CharStruct) (old : List UInt8) (position size : Nat) (w : Backends) :
    resized (wholeDocument key old) position size w =
      if (keptBytes old position).length ≤ size then
        .ok (Overlay.overlay 0 (List.replicate size 0) 0 (keptBytes old position)) w
      else .error .undefined w := by
  by_cases hpos : position > 0
  · have hslice : slice (wholeDocument key old).buffer 0 (if position > (wholeDocument key old).dataSize then
        (wholeDocument key old).dataSize else position - 1) w = .ok (keptBytes old position) w := by
      rw [slice_of_le, keptBytes, if_pos hpos]
      · rfl
      · show 0 + (if position > old.length then old.length else position - 1) ≤ old.length
        split_ifs <;> omega
    rw [resized, if_pos hpos, bind_ok hslice]
    split_ifs with hle
    · exact blit_of_le (by simpa using hle) w
    · exact blit_undefined (by simpa using hle) w
  · rw [resized, if_neg hpos, keptBytes, if_neg hpos, Overlay.overlay_nil 0 (Nat.zero_le _), List.length_nil,
      if_pos (Nat.zero_le _)]
    rfl

theorem slice_wholeDocument (key : CharStruct) (old : List UInt8) (w : Backends) :
    slice (wholeDocument key old).buffer 0 (wholeDocument key old).dataSize w = .ok old w := by
  rw [slice_of_le (by simp [wholeDocument])]
  simp [wholeDocument]

/-- A copy of the data that is undefined for every new value makes the new value undefined. -/
theorem newDocument_undefined (key : CharStruct) (hold : old.length < 2 ^ 64) {w : Backends}
    (hcopy : ∀ newVal : List UInt8, newVal.length < 2 ^ 64 →
      (slice source.buffer source.position source.dataSize >>= fun data => blit newVal destination.position data) w =
        .error .undefined w) :
    newDocument (wholeDocument key old) source destination w = .error .undefined w := by
  rw [newDocument]
  split_ifs
  · have hresized := resized_cases key old destination.position ((destination.position + source.dataSize) % 2 ^ 64) w
    split_ifs at hresized with hle
    · rw [bind_ok hresized]
      apply hcopy
      rw [Overlay.overlay_length, List.length_replicate, Nat.zero_add, Nat.max_eq_left hle]
      exact Nat.mod_lt _ (by norm_num)
    · exact bind_error hresized
  · rw [bind_ok (slice_wholeDocument key old w)]
    exact hcopy _ hold

/-- MongoDB builds what Redis builds. -/
theorem newDocument_eq (key : CharStruct) (hold : old.length < 2 ^ 64) (hsize : source.dataSize < 2 ^ 64)
    (w : Backends) :
    newDocument (wholeDocument key old) source destination w = newValue old source destination w := by
  by_cases hslice : source.position + source.dataSize ≤ (source.buffer.getD []).length
  · obtain ⟨data, hdata, hdataSize⟩ : ∃ data, slice source.buffer source.position source.dataSize w = .ok data w ∧
        data.length = source.dataSize := by
      refine ⟨_, slice_of_le hslice w, ?_⟩
      rw [List.length_take, List.length_drop]
      omega
    by_cases hwrap : 0 < destination.position ∧ 2 ^ 64 ≤ destination.position + source.dataSize
    · -- the sum wraps, and the copy of the data leaves the value on either branch
      rw [newValue, bind_ok hdata, if_pos hwrap]
      apply newDocument_undefined key hold
      intro newVal hlt
      rw [bind_ok hdata]
      exact blit_undefined (by omega) w
    · have hmod : (destination.position + source.dataSize) % 2 ^ 64 = destination.position + source.dataSize :=
        Nat.mod_eq_of_lt (by omega)
      have hkept := keptBytes_length_le old destination.position
      have hlength : (wholeDocument key old).dataSize = old.length := rfl
      rw [newDocument, newValue, bind_ok hdata, if_neg hwrap, hlength, Nat.add_comm source.dataSize, hmod]
      by_cases hend : old.length ≤ source.dataSize ∨ old.length ≤ destination.position + source.dataSize
      · have hresized := resized_cases key old destination.position (destination.position + source.dataSize) w
        rw [if_pos (by omega)] at hresized
        rw [if_pos hend, if_pos hend, bind_ok hresized, bind_ok hdata, ← keptBytes,
          bind_ok (blit_of_le (by simp; omega) w)]
      · rw [if_neg hend, if_neg hend, ← hlength, bind_ok (slice_wholeDocument key old w), bind_ok hdata]
  · -- there is nothing to copy from
    rw [newValue, bind_error (slice_undefined hslice w)]
    exact newDocument_undefined key hold fun _ _ => bind_error (slice_undefined hslice w)

end value

/-! ## The calls -/

section calls

variable {faults : DriverFaults} {key : CharStruct} {file : MongoCollection} {old : List UInt8} {source destination : Data}

theorem copying_ok {α : Type} {x : Prog α} {a : α} {w : Backends} (h : x (fun _ _ => none) = .ok a w)
    (file : MongoCollection) : copying x file = .ok a file := by
  rw [copying, h]
  rfl

theorem copying_error {α : Type} {x : Prog α} {e : Fault} {w : Backends} (h : x (fun _ _ => none) = .error e w)
    (file : MongoCollection) : copying x file = .error .undefined file := by
  rw [copying, h]
  rfl

theorem findOne_raises (h : faults.findOne = true) (key : CharStruct) (file : MongoCollection) :
    findOne faults key file = .error .driver file := by
  rw [findOne, h]
  rfl

theorem findOne_ok (h : faults.findOne = false) (key : CharStruct) (file : MongoCollection) :
    findOne faults key file = .ok (file.documents key).head? file := by
  rw [findOne, h, ← MongoCollection.findOne_eq]
  rfl

/-- An exception of any kind stands for a document that is not there. -/
theorem existing_none (h : faults.findOne = true ∨ file.documents key = []) :
    existing faults key file = .ok none file := by
  by_cases hfind : faults.findOne = true
  · exact attempt_error (bind_error (bind_error (findOne_raises hfind _ _)))
  · have hnone := findOne_ok (Bool.not_eq_true _ ▸ hfind) key file
    rw [h.resolve_left hfind] at hnone
    have hread : readCalls faults { id := key } { id := key } file = .error (.error readMongodbDataFailed) file :=
      bind_ok hnone
    exact attempt_error (bind_error hread)

/-- Without a size the whole document is read. -/
theorem existing_some (hfind : faults.findOne = false) (hdoc : file.documents key = [old]) :
    existing faults key file = .ok (some (wholeDocument key old)) file := by
  have hfound := findOne_ok hfind key file
  rw [hdoc, List.head?_cons] at hfound
  have hbytes : slice (some (old ++ [0])) 0 (subSize old.length 0) (fun _ _ => none) = .ok old (fun _ _ => none) := by
    have hsub : subSize old.length 0 = old.length := by simp [subSize]
    rw [hsub, slice_of_le (by simp)]
    simp
  have hread : readCalls faults { id := key } { id := key } file = .ok (wholeDocument key old) file := by
    refine (bind_ok hfound).trans ?_
    refine (bind_ok (copying_ok hbytes file)).trans ?_
    simp only [List.replicate_zero, List.append_nil]
    rfl
  exact attempt_ok (bind_ok hread)

theorem writeCalls_found (hfind : faults.findOne = false) (hdoc : file.documents destination.id = [old])
    (hold : old.length < 2 ^ 64) (hsize : source.dataSize < 2 ^ 64) :
    writeCalls faults source destination file = (copying (newValue old source destination) >>= fun value => do
      deleteMany faults destination.id
      insertOne faults destination.id value) file := by
  have hcopy : copying (newDocument (wholeDocument destination.id old) source destination) =
      copying (newValue old source destination) := by
    rw [copying, copying, newDocument_eq destination.id hold hsize]
  rw [writeCalls, bind_ok (existing_some hfind hdoc)]
  show (copying (newDocument (wholeDocument destination.id old) source destination) >>= _) file = _
  rw [hcopy]

theorem writeCalls_notFound (h : faults.findOne = true ∨ file.documents destination.id = []) :
    writeCalls faults source destination file =
      (copying (slice source.buffer source.position source.dataSize) >>= insertOne faults destination.id) file := by
  rw [writeCalls, bind_ok (existing_none h)]

end calls

/-! ## The same values in both object stores -/

theorem MongoCollection.documents_deleteMany_of_ne (file : MongoCollection) {key key' : CharStruct} (h : key' ≠ key) :
    (file.deleteMany key).documents key' = file.documents key' := by
  rw [MongoCollection.documents, MongoCollection.documents, MongoCollection.deleteMany, List.filter_filter]
  congr 2
  funext document
  by_cases hkey : document.1 = key'
  · simp [hkey, h]
  · simp [hkey]

theorem MongoCollection.documents_insertOne_of_ne (file : MongoCollection) {key key' : CharStruct} (value : List UInt8)
    (h : key' ≠ key) : (file.insertOne key value).documents key' = file.documents key' := by
  simp [MongoCollection.documents, MongoCollection.insertOne, h.symm]

/-- The backend and the collection have the same value for every key, and no key has two documents. -/
def SameValues (t : IoClientType) (w : Backends) (file : MongoCollection) : Prop :=
  ∀ key, file.documents key = (w t key).toList

/-- The values have the length of a string. -/
def ShortValues (t : IoClientType) (w : Backends) : Prop := ∀ key value, w t key = some value → value.length < 2 ^ 64

section matching

variable {t : IoClientType} {source destination : Data} {w w' : Backends} {file : MongoCollection} {old : Option (List UInt8)}
  {value : List UInt8}

theorem storedValue_anywhere (h : storedValue old source destination w = .ok value w) (w' : Backends) :
    storedValue old source destination w' = .ok value w' := by
  have hagree : AgreeOn ∅ w w' := fun _ _ hk => absurd hk (Set.notMem_empty _)
  apply (storedValue_readOnly _ _ _).run_of_ok
  rw [← ((storedValue_confined old source destination).agrees w w' trivial trivial hagree).1, h]
  rfl

theorem storedValue_undefined (h : ∀ value, storedValue old source destination w ≠ .ok value w) (w' : Backends) :
    storedValue old source destination w' = .error .undefined w' := by
  rcases (storedValue_readOnly old source destination).run_cases w' with ⟨value, hrun⟩ | ⟨e, hrun⟩
  · exact absurd (storedValue_anywhere hrun w) (h value)
  · rw [hrun, show e = .undefined from storedValue_raises old source destination w' e w' hrun]

theorem storedValue_short (hold : ∀ v, old = some v → v.length < 2 ^ 64) (hsize : source.dataSize < 2 ^ 64)
    (h : storedValue old source destination w = .ok value w) : value.length < 2 ^ 64 := by
  cases old with
  | none =>
    rw [slice_length h]
    exact hsize
  | some old =>
    have hvalue : newValue old source destination w = .ok value w := h
    obtain ⟨data, w₁, hdata, hrest⟩ := bind_eq_ok hvalue
    obtain rfl : w = w₁ := by
      have hfinal := slice_readOnly source.buffer source.position source.dataSize w
      rw [hdata] at hfinal
      exact hfinal.symm
    have hlength := slice_length hdata
    have hlt : destination.position = 0 ∨ destination.position + source.dataSize < 2 ^ 64 := by
      by_contra hwrap
      rw [if_pos (by omega)] at hrest
      cases hrest
    rw [newValue_eq hdata hlength hlt] at hvalue
    rw [← (Result.ok.inj hvalue).1, Overlay.overlay_length]
    have hkept := keptBytes_length_le old destination.position
    have hlong := hold old rfl
    split_ifs <;> omega

theorem SameValues.put (hsame : SameValues t w file) (key : CharStruct) (value : List UInt8) {file' : MongoCollection}
    (hkey : file'.documents key = [value]) (hout : ∀ key', key' ≠ key → file'.documents key' = file.documents key') :
    SameValues t (w.put t key (some value)) file' := by
  intro key'
  by_cases h : key' = key
  · rw [h, hkey, Backends.put_same]
    rfl
  · rw [hout key' h, hsame key', Backends.put_of_key_ne _ _ _ _ h]

/-- The collection after a write over an old value. -/
def replaced (old : Option (List UInt8)) (key : CharStruct) (value : List UInt8) (file : MongoCollection) :
    MongoCollection :=
  (if old.isSome then file.deleteMany key else file).insertOne key value

theorem replaced_documents {key : CharStruct} (hdoc : file.documents key = old.toList) (value : List UInt8) :
    (replaced old key value file).documents key = [value] := by
  rw [replaced, MongoCollection.documents_insertOne]
  cases old with
  | none => simp [hdoc]
  | some old => simp [MongoCollection.documents_deleteMany]

theorem replaced_of_ne {key key' : CharStruct} (old : Option (List UInt8)) (value : List UInt8) (h : key' ≠ key)
    (file : MongoCollection) : (replaced old key value file).documents key' = file.documents key' := by
  rw [replaced, MongoCollection.documents_insertOne_of_ne _ _ h]
  split
  · exact MongoCollection.documents_deleteMany_of_ne _ h
  · rfl

theorem writeCalls_stored (hdoc : file.documents destination.id = old.toList)
    (hold : ∀ v, old = some v → v.length < 2 ^ 64) (hsize : source.dataSize < 2 ^ 64) :
    writeCalls {} source destination file = (copying (storedValue old source destination) >>= fun value =>
      modify (replaced old destination.id value)) file := by
  cases old with
  | none => exact writeCalls_notFound (Or.inr hdoc)
  | some old => exact writeCalls_found rfl hdoc (hold old rfl) hsize

/-- One write leaves the same value in either object store and in the collection, or is undefined in both. -/
theorem writeCalls_matches (ht : t ≠ .fileIo) (hsame : SameValues t w file) (hshort : ShortValues t w)
    (hsize : source.dataSize < 2 ^ 64) :
    (∃ value file', value.length < 2 ^ 64 ∧
      IoClient.write t source destination w = .ok () (w.put t destination.id (some value)) ∧
      writeCalls {} source destination file = .ok () file' ∧
      SameValues t (w.put t destination.id (some value)) file') ∨
    IoClient.write t source destination w = .error .undefined w ∧
      writeCalls {} source destination file = .error .undefined file := by
  have hwrite := objectWrite_eq ht source destination w
  have hdoc := hsame destination.id
  have hcalls := writeCalls_stored hdoc (hshort destination.id) hsize
  by_cases hdefined : ∃ value, storedValue (w t destination.id) source destination w = .ok value w
  · obtain ⟨value, hvalue⟩ := hdefined
    rw [bind_ok hvalue, modify_run] at hwrite
    rw [bind_ok (copying_ok (storedValue_anywhere hvalue fun _ _ => none) file), modify_run] at hcalls
    refine Or.inl ⟨value, _, storedValue_short (hshort destination.id) hsize hvalue, hwrite, hcalls, ?_⟩
    exact hsame.put _ _ (replaced_documents hdoc value) fun key' h => replaced_of_ne _ value h file
  · have hnever : ∀ value, storedValue (w t destination.id) source destination w ≠ .ok value w :=
      fun value h => hdefined ⟨value, h⟩
    have hundefined := storedValue_undefined hnever fun _ _ => none
    rw [bind_error (storedValue_undefined hnever w)] at hwrite
    rw [bind_error (copying_error hundefined file)] at hcalls
    exact Or.inr ⟨hwrite, hcalls⟩

theorem ShortValues.put (hshort : ShortValues t w) {key : CharStruct} (hvalue : value.length < 2 ^ 64) :
    ShortValues t (w.put t key (some value)) := by
  intro key' value' h
  by_cases hkey : key' = key
  · rw [hkey, Backends.put_same, Option.some.injEq] at h
    exact h ▸ hvalue
  · rw [Backends.put_of_key_ne _ _ _ _ hkey] at h
    exact hshort key' value' h

/-- Runs of writes leave the same values, or become undefined at the same write. -/
theorem runs_match (ht : t ≠ .fileIo) {writes : List (Data × Data)} (hsizes : ∀ call ∈ writes, call.1.dataSize < 2 ^ 64)
    (hsame : SameValues t w file) (hshort : ShortValues t w) :
    (∃ w' file', writes.forM (fun call => IoClient.write t call.1 call.2) w = .ok () w' ∧
      writes.forM (fun call => writeCalls {} call.1 call.2) file = .ok () file' ∧ SameValues t w' file' ∧
      ∀ key, (w t key).isSome ∨ (∃ call ∈ writes, call.2.id = key) → (w' t key).isSome) ∨
    ∃ w' file', writes.forM (fun call => IoClient.write t call.1 call.2) w = .error .undefined w' ∧
      writes.forM (fun call => writeCalls {} call.1 call.2) file = .error .undefined file' ∧ SameValues t w' file' := by
  induction writes generalizing w file with
  | nil => exact Or.inl ⟨w, file, rfl, rfl, hsame, fun key h => by simpa using h⟩
  | cons call writes ih =>
    rw [forM_cons, forM_cons]
    rcases writeCalls_matches ht hsame hshort (hsizes call (by simp)) with
      ⟨value, file₁, hvalue, hwrite, hmongo, hsame₁⟩ | ⟨hwrite, hmongo⟩
    · rw [bind_ok hwrite, bind_ok hmongo]
      rcases ih (fun c hc => hsizes c (by simp [hc])) hsame₁ (hshort.put hvalue) with
        ⟨w', file', hruns, hruns', hsame', hkeys⟩ | hundefined
      · refine Or.inl ⟨w', file', hruns, hruns', hsame', ?_⟩
        intro key hkey
        apply hkeys key
        by_cases h : key = call.2.id
        · rw [h, Backends.put_same]
          exact Or.inl rfl
        · rw [Backends.put_of_key_ne _ _ _ _ h]
          refine hkey.imp_right ?_
          rintro ⟨c, hc, hid⟩
          rcases List.mem_cons.mp hc with rfl | hc
          · exact absurd hid.symm h
          · exact ⟨c, hc, hid⟩
      · exact Or.inr hundefined
    · rw [bind_error hwrite, bind_error hmongo]
      exact Or.inr ⟨w, file, rfl, rfl, hsame⟩

/-- **For every sequence of writes MongoDB and Redis stay equal.** Where the writes are defined, MongoDB holds exactly
one document for every key that was written, and its value is the one of Redis. -/
theorem mongo_matches_redis {writes : List (Data × Data)} (hsizes : ∀ call ∈ writes, call.1.dataSize < 2 ^ 64)
    (hsame : SameValues .redisIo w file) (hshort : ShortValues .redisIo w) :
    (∃ w' file', writes.forM (fun call => RedisIoClient.write call.1 call.2) w = .ok () w' ∧
      writes.forM (fun call => writeCalls {} call.1 call.2) file = .ok () file' ∧ SameValues .redisIo w' file' ∧
      ∀ call ∈ writes, ∃ value, w' .redisIo call.2.id = some value ∧ file'.documents call.2.id = [value]) ∨
    ∃ w' file', writes.forM (fun call => RedisIoClient.write call.1 call.2) w = .error .undefined w' ∧
      writes.forM (fun call => writeCalls {} call.1 call.2) file = .error .undefined file' ∧ SameValues .redisIo w' file' := by
  refine (runs_match (t := .redisIo) (by decide) hsizes hsame hshort).imp_left ?_
  rintro ⟨w', file', hruns, hruns', hsame', hkeys⟩
  refine ⟨w', file', hruns, hruns', hsame', ?_⟩
  intro call hcall
  obtain ⟨value, hvalue⟩ := Option.isSome_iff_exists.mp (hkeys call.2.id (Or.inr ⟨call, hcall, rfl⟩))
  exact ⟨value, hvalue, by rw [hsame', hvalue]; rfl⟩

/-- The client of the backends is what the calls do when none raises. -/
theorem mongoWrite_refines_calls (hsame : SameValues .mongoIo w file) (hshort : ShortValues .mongoIo w)
    (hsize : source.dataSize < 2 ^ 64) :
    (∃ value file', value.length < 2 ^ 64 ∧
      MongoIoClient.write source destination w = .ok () (w.put .mongoIo destination.id (some value)) ∧
      writeCalls {} source destination file = .ok () file' ∧
      SameValues .mongoIo (w.put .mongoIo destination.id (some value)) file') ∨
    MongoIoClient.write source destination w = .error .undefined w ∧
      writeCalls {} source destination file = .error .undefined file :=
  writeCalls_matches (t := .mongoIo) (by decide) hsame hshort hsize

end matching

/-- Two bytes and one behind them. -/
def writeAndAppend : List (Data × Data) :=
  [({ buffer := some [1, 2], dataSize := 2 }, { id := [0x66] }),
    ({ buffer := some [3], dataSize := 1 }, { id := [0x66], position := 2 })]

theorem writeAndAppend_matches :
    ∃ w' file', writeAndAppend.forM (fun call => RedisIoClient.write call.1 call.2) (fun _ _ => none) = .ok () w' ∧
      writeAndAppend.forM (fun call => writeCalls {} call.1 call.2) [] = .ok () file' ∧ SameValues .redisIo w' file' ∧
      ∀ call ∈ writeAndAppend, ∃ value, w' .redisIo call.2.id = some value ∧ file'.documents call.2.id = [value] := by
  have hsizes : ∀ call ∈ writeAndAppend, call.1.dataSize < 2 ^ 64 := by decide
  have hsame : SameValues .redisIo (fun _ _ => none) [] := fun _ => rfl
  have hshort : ShortValues .redisIo fun _ _ => none := by
    intro key value h
    cases h
  rcases mongo_matches_redis hsizes hsame hshort with h | ⟨w', file', hredis, -⟩
  · exact h
  · cases hredis

/-! ## Calls that raise -/

section raising

variable {faults : DriverFaults} {source destination : Data} {w : Backends} {file : MongoCollection}
  {old value : List UInt8}

/-- A call of the driver raises. Over a document that is there each of them is made, unless one in front of it has
raised. -/
def DriverFaults.Raised (faults : DriverFaults) : Prop :=
  faults.findOne = true ∨ faults.deleteMany = true ∨ faults.insertOne = true

/-- After a call has raised the document is still there with its old value; after any write it has the old value or the
new one, and there is no other document beside it. -/
def AllOrNothing (faults : DriverFaults) (source destination : Data) (file : MongoCollection) (old value : List UInt8) :
    Prop :=
  (faults.Raised → (writeCalls faults source destination file).final.documents destination.id = [old]) ∧
    ((writeCalls faults source destination file).final.documents destination.id = [old] ∨
      (writeCalls faults source destination file).final.documents destination.id = [value])

theorem insertOne_run (key : CharStruct) (value : List UInt8) (file : MongoCollection) :
    (insertOne faults key value file).final = if faults.insertOne then file else file.insertOne key value := by
  rw [insertOne]
  cases faults.insertOne <;> rfl

theorem replaceDocument_run (key : CharStruct) (value : List UInt8) (file : MongoCollection) :
    ((deleteMany faults key >>= fun _ => insertOne faults key value) file).final =
      if faults.deleteMany then file
      else if faults.insertOne then file.deleteMany key
      else (file.deleteMany key).insertOne key value := by
  cases hdelete : faults.deleteMany with
  | false =>
    rw [if_neg Bool.false_ne_true, ← insertOne_run, deleteMany, hdelete]
    rfl
  | true =>
    rw [if_pos rfl, deleteMany, hdelete]
    rfl

/-- What a write over a document leaves, whatever raises. -/
theorem writeCalls_final (hdoc : file.documents destination.id = [old]) (hold : old.length < 2 ^ 64)
    (hsize : source.dataSize < 2 ^ 64)
    (hvalue : newValue old source destination (fun _ _ => none) = .ok value fun _ _ => none) :
    ∃ data, (writeCalls faults source destination file).final =
      if faults.findOne then if faults.insertOne then file else file.insertOne destination.id data
      else if faults.deleteMany then file
      else if faults.insertOne then file.deleteMany destination.id
      else (file.deleteMany destination.id).insertOne destination.id value := by
  obtain ⟨data, w₁, hdata, -⟩ := bind_eq_ok hvalue
  refine ⟨data, ?_⟩
  by_cases hfind : faults.findOne = true
  · -- the document is taken for one that is not there
    rw [writeCalls_notFound (Or.inl hfind), bind_ok (copying_ok hdata file), insertOne_run, if_pos hfind]
  · rw [writeCalls_found (Bool.not_eq_true _ ▸ hfind) hdoc hold hsize, bind_ok (copying_ok hvalue file),
      replaceDocument_run, if_neg hfind]

/-- **A write over a document is all or nothing exactly when its `insert_one` raises after a `find_one` that has raised,
and does not raise after a `delete_many` that has not.** -/
theorem allOrNothing_iff (hdoc : file.documents destination.id = [old]) (hold : old.length < 2 ^ 64)
    (hsize : source.dataSize < 2 ^ 64) (hvalue : newValue old source destination w = .ok value w) :
    AllOrNothing faults source destination file old value ↔
      if faults.findOne then faults.insertOne = true else faults.deleteMany = true ∨ faults.insertOne = false := by
  have hstored : storedValue (some old) source destination w = .ok value w := hvalue
  obtain ⟨data, hfinal⟩ := @writeCalls_final faults source destination file old value hdoc hold hsize
    (storedValue_anywhere hstored _)
  rw [AllOrNothing, hfinal, DriverFaults.Raised]
  cases hfind : faults.findOne with
  | true => cases hinsert : faults.insertOne <;> simp [hdoc]
  | false =>
    cases hdelete : faults.deleteMany with
    | true => simp [hdoc]
    | false => cases hinsert : faults.insertOne <;> simp

end raising

/-- The document `f` with the value `01`. -/
def oneDocument : MongoCollection := [([0x66], [1])]

theorem oneDocument_replaced :
    AllOrNothing {} { buffer := some [2], dataSize := 1 } { id := [0x66] } oneDocument [1] [2] :=
  (allOrNothing_iff (w := fun _ _ => none) rfl (by decide) (by decide) rfl).mpr (Or.inr rfl)

/-- An `insert_one` that raises leaves no document, a `find_one` that raises leaves two. -/
theorem oneDocument_lost :
    (writeCalls { insertOne := true } { buffer := some [2], dataSize := 1 } { id := [0x66] }
        oneDocument).final.documents [0x66] = [] ∧
      (writeCalls { findOne := true } { buffer := some [2], dataSize := 1 } { id := [0x66] }
        oneDocument).final.documents [0x66] = [[1], [2]] :=
  ⟨rfl, rfl⟩

end Symbios
