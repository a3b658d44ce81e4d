import Symbios.Base.Confined
import Symbios.Model.Server

/-!
# What the storage clients do

Each client has one equation for a read that finds its value (`fileRead_eq`, `redisRead_eq`, `mongoRead_eq`) and one
for a write (`fileWrite_eq`, `objectWrite_eq`). The clients differ at an offset, but at offset 0 they agree: a read
gives the first bytes of the value (`read_start`), and a write replaces the first bytes of the value and keeps the
rest (`write_start`). That is all the metadata records need. Every call touches the one key it names
(`write_confined`, `read_confined`).
-/

namespace Symbios

open EStateM

/-! ## Backends and the table of storage solutions -/

@[simp] theorem Backends.put_same (w : Backends) (t : IoClientType) (k : CharStruct) (v : Option (List UInt8)) :
    w.put t k v t k = v := by
  simp [Backends.put]

theorem Backends.put_of_key_ne (w : Backends) (t t' : IoClientType) {k k' : CharStruct}
    (v : Option (List UInt8)) (h : k' ≠ k) : w.put t k v t' k' = w t' k' := by
  simp [Backends.put, h]

theorem Backends.put_of_client_ne (w : Backends) {t t' : IoClientType} (k k' : CharStruct)
    (v : Option (List UInt8)) (h : t' ≠ t) : w.put t k v t' k' = w t' k' := by
  simp [Backends.put, h]

@[simp] theorem Backends.put_put (w : Backends) (t : IoClientType) (k : CharStruct)
    (v v' : Option (List UInt8)) : (w.put t k v).put t k v' = w.put t k v' := by
  funext t' k'
  simp only [Backends.put]
  split <;> rfl

theorem keys_nodup (conf : ConfigurationManager) : (conf.storageSolutions.map Prod.fst).Nodup :=
  conf.keys_perm.nodup_iff.mpr List.nodup_range

/-- A storage index has the type its entry in the table gives it. -/
theorem backend_eq_some_iff (conf : ConfigurationManager) {i : Nat} {t : IoClientType} :
    conf.backend i = some t ↔ (i, t) ∈ conf.storageSolutions := by
  have hnodup := keys_nodup conf
  unfold ConfigurationManager.backend
  generalize conf.storageSolutions = l at hnodup ⊢
  induction l with
  | nil => simp
  | cons e l ih =>
    rw [List.map_cons, List.nodup_cons] at hnodup
    rw [List.find?_cons]
    by_cases he : e.1 = i
    · subst he
      have hno : (e.1, t) ∉ l := fun h => hnodup.1 (List.mem_map.mpr ⟨_, h, rfl⟩)
      simp only [decide_true, Option.map_some, Option.some.injEq, List.mem_cons, hno, or_false]
      exact ⟨fun h => by rw [← h], fun h => by rw [← h]⟩
    · have hne : (i, t) ≠ e := fun h => he (by rw [← h])
      simp only [decide_eq_false he, List.mem_cons, hne, false_or]
      exact ih hnodup.2

theorem backend_of_mem (conf : ConfigurationManager) {s : Nat × IoClientType}
    (h : s ∈ conf.storageSolutions) : conf.backend s.1 = some s.2 :=
  (backend_eq_some_iff conf).mpr h

/-! ## Reads -/

/-- The error of a read that finds nothing. -/
def absentError : IoClientType → ErrorCode
  | .fileIo => openFileFailed
  | .redisIo => readRedisDataFailed
  | .mongoIo => readMongodbDataFailed

theorem slice_of_le {buffer : Option (List UInt8)} {offset length : Nat}
    (h : offset + length ≤ (buffer.getD []).length) (w : Backends) :
    slice buffer offset length w = .ok (((buffer.getD []).drop offset).take length) w := by
  rw [slice, if_pos h]
  rfl

theorem slice_undefined {buffer : Option (List UInt8)} {offset length : Nat}
    (h : ¬ offset + length ≤ (buffer.getD []).length) (w : Backends) :
    slice buffer offset length w = .error .undefined w := by
  rw [slice, if_neg h]
  rfl

theorem slice_length {buffer : Option (List UInt8)} {offset length : Nat} {value : List UInt8} {w w' : Backends}
    (h : slice buffer offset length w = .ok value w') : value.length = length := by
  by_cases hle : offset + length ≤ (buffer.getD []).length
  · rw [slice_of_le hle] at h
    rw [← (Result.ok.inj h).1, List.length_take, List.length_drop]
    omega
  · rw [slice_undefined hle] at h
    cases h

theorem slice_readOnly (buffer : Option (List UInt8)) (offset length : Nat) : ReadOnly (slice buffer offset length) := by
  unfold slice
  split
  · exact ReadOnly.pure _
  · exact ReadOnly.raise _

theorem read_absent (t : IoClientType) {source : Data} (destination : Data) {w : Backends}
    (h : w t source.id = none) : IoClient.read t source destination w = .error (.error (absentError t)) w := by
  cases t with
  | fileIo =>
    show FileIoClient.read source destination w = _
    rw [FileIoClient.read, get_bind, h]
    rfl
  | redisIo =>
    show RedisIoClient.read source destination w = _
    rw [RedisIoClient.read, get_bind, h]
    rfl
  | mongoIo =>
    show MongoIoClient.read source destination w = _
    rw [MongoIoClient.read, get_bind, h]
    rfl

section found

variable {v : List UInt8} {source : Data} {w : Backends}

/-- The number of bytes a file is asked for. -/
def fileRequest (v : List UInt8) (source : Data) : Nat :=
  if source.dataSize = 0 then subSize v.length source.position else source.dataSize

theorem fileRead_eq (hv : w .fileIo source.id = some v) (destination : Data) :
    IoClient.read .fileIo source destination w =
      if 2 ^ 63 ≤ source.position then .error (.error seekFileFailed) w
      else if (v.drop source.position).take (fileRequest v source) ≠ [] ∧ 2 ^ 63 ≤ destination.position then
        .error .undefined w
      else if ((v.drop source.position).take (fileRequest v source)).length = fileRequest v source then
        .ok { destination with
          buffer := some (List.replicate destination.position 0 ++
            (v.drop source.position).take (fileRequest v source))
          dataSize := destination.position + ((v.drop source.position).take (fileRequest v source)).length } w
      else .error (.error readDataFromFileFailed) w := by
  show FileIoClient.read source destination w = _
  rw [FileIoClient.read, get_bind, hv]
  dsimp only
  rw [← fileRequest]
  generalize fileRequest v source = n
  split
  · rfl
  · split
    · rfl
    · split <;> rfl

/-- The number of bytes an object store is asked for: without a size it is the whole value, wherever the request
starts. -/
def objectRequest (v : List UInt8) (source : Data) : Nat :=
  if source.dataSize = 0 then v.length else source.dataSize

theorem fileRequest_start (h : source.position = 0) : fileRequest v source = objectRequest v source := by
  rw [fileRequest, objectRequest, h, subSize, if_pos (Nat.zero_le _), Nat.sub_zero]

theorem redisRead_eq (hv : w .redisIo source.id = some v) (destination : Data) :
    IoClient.read .redisIo source destination w =
      if v.length < objectRequest v source then .error (.error readRedisPositionOrSizeFailed) w
      else if source.position + objectRequest v source ≤ v.length + 1 then
        .ok { destination with
          buffer := some (((v ++ [0]).drop source.position).take (objectRequest v source))
          dataSize := objectRequest v source } w
      else .error .undefined w := by
  show RedisIoClient.read source destination w = _
  rw [RedisIoClient.read, get_bind, hv]
  dsimp only
  rw [← objectRequest]
  by_cases hsize : v.length < objectRequest v source
  · rw [if_pos hsize, if_pos hsize]
    rfl
  · rw [if_neg hsize, if_neg hsize, slice]
    by_cases hslice : source.position + objectRequest v source ≤ v.length + 1
    · rw [if_pos (by simpa using hslice), if_pos hslice]
      rfl
    · rw [if_neg (by simpa using hslice), if_neg hslice]
      rfl

theorem mongoRead_eq (hv : w .mongoIo source.id = some v) (destination : Data) :
    IoClient.read .mongoIo source destination w =
      if source.position + subSize (objectRequest v source) source.position ≤ v.length + 1 then
        .ok { destination with
          buffer := some (((v ++ [0]).drop source.position).take
            (subSize (objectRequest v source) source.position) ++ List.replicate source.position 0)
          dataSize := objectRequest v source } w
      else .error .undefined w := by
  show MongoIoClient.read source destination w = _
  rw [MongoIoClient.read, get_bind, hv]
  dsimp only
  rw [← objectRequest, slice]
  by_cases hslice : source.position + subSize (objectRequest v source) source.position ≤ v.length + 1
  · rw [if_pos (by simpa using hslice), if_pos hslice]
    rfl
  · rw [if_neg (by simpa using hslice), if_neg hslice]
    rfl

end found

/-- A read of `n` bytes from the start of a value that has them. -/
theorem read_start (t : IoClientType) {d : Data} {w : Backends} {b : List UInt8} {n : Nat}
    (hb : w t d.id = some b) (hpos : d.position = 0) (hn : n ≤ b.length)
    (hsize : d.dataSize = n ∧ 0 < n ∨ d.dataSize = 0 ∧ n = b.length) :
    IoClient.read t d d w = .ok { d with buffer := some (b.take n), dataSize := n } w := by
  have hobject : objectRequest b d = n := by
    unfold objectRequest
    split <;> omega
  have hlen : (b.take n).length = n := by
    rw [List.length_take]
    omega
  have hzero : ((b ++ [0]).take n) = b.take n := List.take_append_of_le_length hn
  cases t with
  | fileIo =>
    rw [fileRead_eq hb, fileRequest_start hpos, hobject, hpos, List.drop_zero, if_neg (by norm_num), if_neg (by norm_num),
      if_pos hlen]
    simp [hlen]
  | redisIo =>
    rw [redisRead_eq hb, hobject, hpos, List.drop_zero, hzero, if_neg (by omega), if_pos (by omega)]
  | mongoIo =>
    have hsub : subSize n 0 = n := by simp [subSize]
    rw [mongoRead_eq hb, hobject, hpos, hsub, List.drop_zero, hzero, if_pos (by omega), List.replicate_zero,
      List.append_nil]

theorem read_readOnly (t : IoClientType) (source destination : Data) : ReadOnly (IoClient.read t source destination) := by
  cases t with
  | fileIo =>
    refine ReadOnly.bind (fun w => rfl) fun w => ?_
    split
    · exact ReadOnly.raise _
    · split
      · exact ReadOnly.raise _
      · generalize (if source.dataSize = 0 then _ else source.dataSize) = n
        dsimp only
        split
        · exact ReadOnly.raise _
        · split
          · exact ReadOnly.pure _
          · exact ReadOnly.raise _
  | redisIo =>
    refine ReadOnly.bind (fun w => rfl) fun w => ?_
    split
    · exact ReadOnly.raise _
    · generalize (if source.dataSize = 0 then _ else source.dataSize) = n
      dsimp only
      split
      · exact ReadOnly.raise _
      · exact (slice_readOnly _ _ _).bind fun _ => ReadOnly.pure _
  | mongoIo =>
    refine ReadOnly.bind (fun w => rfl) fun w => ?_
    split
    · exact ReadOnly.raise _
    · exact (slice_readOnly _ _ _).bind fun _ => ReadOnly.pure _

/-! ## Writes -/

/-- What a write at offset 0 leaves under its key. -/
def overwritten (old : Option (List UInt8)) (b : List UInt8) : List UInt8 := b ++ (old.getD []).drop b.length

theorem blit_of_le {target : List UInt8} {offset : Nat} {bytes : List UInt8}
    (h : offset + bytes.length ≤ target.length) (w : Backends) :
    blit target offset bytes w = .ok (Overlay.overlay 0 target offset bytes) w := by
  rw [blit, if_pos h]
  rfl

theorem newValue_readOnly (old : List UInt8) (source destination : Data) : ReadOnly (newValue old source destination) := by
  have hblit : ∀ target offset bytes, ReadOnly (blit target offset bytes) := by
    intro target offset bytes
    unfold blit
    split
    · exact ReadOnly.pure _
    · exact ReadOnly.raise _
  refine (slice_readOnly _ _ _).bind fun data => ?_
  split
  · exact ReadOnly.raise _
  · split
    · exact (hblit _ _ _).bind fun _ => hblit _ _ _
    · exact hblit _ _ _

/-- The value that a write of Redis or MongoDB stores, by what it finds. -/
def storedValue (old : Option (List UInt8)) (source destination : Data) : Prog (List UInt8) :=
  match old with
  | none => slice source.buffer source.position source.dataSize
  | some old => newValue old source destination

theorem storedValue_readOnly (old : Option (List UInt8)) (source destination : Data) :
    ReadOnly (storedValue old source destination) := by
  cases old with
  | none => exact slice_readOnly _ _ _
  | some old => exact newValue_readOnly _ _ _

/-- The object stores put one value; MongoDB deletes the old one first. -/
theorem objectWrite_eq {t : IoClientType} (ht : t ≠ .fileIo) (source destination : Data) (w : Backends) :
    IoClient.write t source destination w =
      (storedValue (w t destination.id) source destination >>= fun value =>
        modify (·.put t destination.id (some value))) w := by
  cases t with
  | fileIo => exact absurd rfl ht
  | redisIo =>
    show RedisIoClient.write source destination w = _
    rw [RedisIoClient.write, get_bind]
    cases w .redisIo destination.id with
    | none => rfl
    | some old => rfl
  | mongoIo =>
    show MongoIoClient.write source destination w = _
    rw [MongoIoClient.write, get_bind]
    cases w .mongoIo destination.id with
    | none => rfl
    | some old =>
      have hput : ∀ value : List UInt8, (do
          modify (·.put .mongoIo destination.id none)
          modify (·.put .mongoIo destination.id (some value)) : Prog Unit) =
            modify (·.put .mongoIo destination.id (some value)) := by
        intro value
        funext w'
        rw [modify_bind, modify_run, modify_run, Backends.put_put]
      dsimp only [storedValue]
      simp only [hput]

/-- What is left of the old value in front of a write that builds a new one. -/
def keptBytes (old : List UInt8) (position : Nat) : List UInt8 :=
  if position > 0 then old.take (if position > old.length then old.length else position - 1) else []

theorem keptBytes_length_le (old : List UInt8) (position : Nat) : (keptBytes old position).length ≤ position := by
  unfold keptBytes
  split_ifs
  · rw [List.length_take]
    omega
  · rw [List.length_take]
    omega
  · exact Nat.zero_le _

/-- A write over an old value is a positional write into what is kept of it. -/
theorem newValue_eq {old data : List UInt8} {source destination : Data} {w : Backends}
    (hslice : slice source.buffer source.position source.dataSize w = .ok data w) (hsize : data.length = source.dataSize)
    (hlt : destination.position = 0 ∨ destination.position + source.dataSize < 2 ^ 64) :
    newValue old source destination w =
      .ok (Overlay.overlay 0 (if old.length ≤ destination.position + source.dataSize then
        keptBytes old destination.position else old) destination.position data) w := by
  rw [newValue, bind_ok hslice, if_neg (by omega)]
  by_cases hend : old.length ≤ destination.position + source.dataSize
  · rw [if_pos (Or.inr (by omega)), if_pos hend, ← keptBytes]
    have hkept := keptBytes_length_le old destination.position
    rw [bind_ok (blit_of_le (by simp; omega) w), Overlay.overlay_zero, List.drop_replicate,
      blit_of_le (by simp; omega) w, Overlay.overlay_padded 0 (by omega)]
  · rw [if_neg (by omega), if_neg hend, blit_of_le (by omega) w]

theorem newValue_start {old b : List UInt8} {source destination : Data} (hbuf : source.buffer = some b)
    (hpos : source.position = 0) (hsize : source.dataSize = b.length) (hdest : destination.position = 0)
    (w : Backends) : newValue old source destination w = .ok (overwritten (some old) b) w := by
  have hslice : slice source.buffer source.position source.dataSize w = .ok b w := by
    rw [hbuf, hpos, hsize, slice_of_le (by simp) w]
    simp
  rw [newValue_eq hslice hsize.symm (Or.inl hdest), hdest, Overlay.overlay_zero, overwritten, Option.getD_some]
  split_ifs with hle
  · rw [show keptBytes old 0 = [] from rfl, List.drop_nil, List.drop_eq_nil_of_le (by omega)]
  · rfl

/-- A file after `bytes` were written at `position`; writing nothing does not extend it. -/
def fileWritten (old : List UInt8) (position : Nat) (bytes : List UInt8) : List UInt8 :=
  if bytes = [] then old else Overlay.overlay 0 old position bytes

/-- The file client writes what its source has between `position_` and `data_size_`. -/
theorem fileWrite_eq (source : Data) {destination : Data} (hdest : destination.position < 2 ^ 63) (w : Backends) :
    IoClient.write .fileIo source destination w =
      if source.position + subSize source.dataSize source.position ≤ (source.buffer.getD []).length then
        .ok () (w.put .fileIo destination.id (some (fileWritten ((w .fileIo destination.id).getD []) destination.position
          (((source.buffer.getD []).drop source.position).take (subSize source.dataSize source.position)))))
      else .error .undefined w := by
  show FileIoClient.write source destination w = _
  rw [FileIoClient.write, get_bind, if_neg (not_le.mpr hdest), slice]
  split
  · rfl
  · rfl

/-- A source whose buffer is written whole. -/
theorem fileWrite_whole {source destination : Data} {bytes : List UInt8} (hbuf : source.buffer = some bytes)
    (hpos : source.position = 0) (hsize : source.dataSize = bytes.length) (hdest : destination.position < 2 ^ 63)
    (w : Backends) :
    IoClient.write .fileIo source destination w = .ok () (w.put .fileIo destination.id
      (some (fileWritten ((w .fileIo destination.id).getD []) destination.position bytes))) := by
  have hsub : subSize source.dataSize source.position = bytes.length := by simp [subSize, hpos, hsize]
  rw [fileWrite_eq source hdest, hsub, hbuf, hpos, if_pos (by simp)]
  simp

/-- A write at offset 0 replaces the start of the value and keeps the rest. -/
theorem write_start (t : IoClientType) {source destination : Data} {b : List UInt8} (w : Backends)
    (hbuf : source.buffer = some b) (hpos : source.position = 0) (hsize : source.dataSize = b.length)
    (hdest : destination.position = 0) :
    IoClient.write t source destination w =
      .ok () (w.put t destination.id (some (overwritten (w t destination.id) b))) := by
  by_cases ht : t = .fileIo
  · rw [ht, fileWrite_whole hbuf hpos hsize (by omega), hdest, fileWritten, Overlay.overlay_zero]
    by_cases hnil : b = []
    · rw [if_pos hnil, hnil]
      rfl
    · rw [if_neg hnil]
      rfl
  · have hvalue : storedValue (w t destination.id) source destination w = .ok (overwritten (w t destination.id) b) w := by
      cases w t destination.id with
      | none =>
        rw [storedValue, hbuf, hpos, hsize, slice_of_le (by simp) w]
        simp [overwritten]
      | some old => exact newValue_start hbuf hpos hsize hdest w
    rw [objectWrite_eq ht, bind_ok hvalue, modify_run]

/-! ## Footprints -/

section footprint

variable {K : Set CharStruct}

theorem slice_confined (buffer : Option (List UInt8)) (offset length : Nat) :
    Confined (fun _ : Backends => True) K (fun _ => True) (slice buffer offset length) := by
  unfold slice
  split
  · exact Confined.pure trivial
  · exact Confined.raise _

theorem blit_confined (target : List UInt8) (offset : Nat) (bytes : List UInt8) :
    Confined (fun _ : Backends => True) K (fun _ => True) (blit target offset bytes) := by
  unfold blit
  split
  · exact Confined.pure trivial
  · exact Confined.raise _

theorem newValue_confined (old : List UInt8) (source destination : Data) :
    Confined (fun _ : Backends => True) K (fun _ => True) (newValue old source destination) := by
  refine (slice_confined _ _ _).bind fun data _ => ?_
  split
  · exact Confined.raise _
  · split
    · exact (blit_confined _ _ _).bind fun _ _ => blit_confined _ _ _
    · exact blit_confined _ _ _

theorem storedValue_confined (old : Option (List UInt8)) (source destination : Data) :
    Confined (fun _ : Backends => True) K (fun _ => True) (storedValue old source destination) := by
  cases old with
  | none => exact slice_confined _ _ _
  | some old => exact newValue_confined _ _ _

theorem put_confined (t : IoClientType) {k : CharStruct} (hk : k ∈ K) (v : Option (List UInt8)) :
    Confined (fun _ : Backends => True) K (fun _ => True) (modify (·.put t k v) : Prog Unit) := by
  refine Confined.change trivial (fun _ _ => trivial) ?_ ?_
  · intro w t' k' hk'
    exact Backends.put_of_key_ne w t t' v fun h => hk' (h ▸ hk)
  · intro w w' h t' k' hk'
    simp only [Backends.put]
    rw [h t' k' hk']

/-- A read looks at the key of its source only. -/
theorem read_confined (t : IoClientType) (source destination : Data) :
    Confined (fun _ : Backends => True) {source.id} (fun _ => True) (IoClient.read t source destination) := by
  apply Confined.inspect t (Set.mem_singleton source.id)
  intro v
  cases t with
  | fileIo =>
    apply Exists.intro
    apply And.intro
    · intro w h
      show FileIoClient.read source destination w = _
      rw [FileIoClient.read, get_bind, h]
    · cases v with
      | none => exact Confined.raise _
      | some file =>
        dsimp only
        split
        · exact Confined.raise _
        · generalize (if source.dataSize = 0 then _ else source.dataSize) = n
          split
          · exact Confined.raise _
          · split
            · exact Confined.pure trivial
            · exact Confined.raise _
  | redisIo =>
    apply Exists.intro
    apply And.intro
    · intro w h
      show RedisIoClient.read source destination w = _
      rw [RedisIoClient.read, get_bind, h]
    · cases v with
      | none => exact Confined.raise _
      | some value =>
        dsimp only
        generalize (if source.dataSize = 0 then _ else source.dataSize) = n
        split
        · exact Confined.raise _
        · exact (slice_confined _ _ _).bind fun _ _ => Confined.pure trivial
  | mongoIo =>
    apply Exists.intro
    apply And.intro
    · intro w h
      show MongoIoClient.read source destination w = _
      rw [MongoIoClient.read, get_bind, h]
    · cases v with
      | none => exact Confined.raise _
      | some value => exact (slice_confined _ _ _).bind fun _ _ => Confined.pure trivial

/-- A write looks at and changes the key of its destination only. -/
theorem write_confined (t : IoClientType) (source destination : Data) :
    Confined (fun _ : Backends => True) {destination.id} (fun _ => True)
      (IoClient.write t source destination) := by
  have hk : destination.id ∈ ({destination.id} : Set CharStruct) := Set.mem_singleton _
  apply Confined.inspect t hk
  intro v
  by_cases ht : t = .fileIo
  · subst ht
    apply Exists.intro
    apply And.intro
    · intro w h
      show FileIoClient.write source destination w = _
      rw [FileIoClient.write, get_bind, h]
    · dsimp only
      split
      · exact (put_confined _ hk _).bind fun _ _ => Confined.raise _
      · exact (slice_confined _ _ _).bind fun _ _ => put_confined _ hk _
  · refine ⟨storedValue v source destination >>= fun value => modify fun w : Backends => w.put t destination.id value,
      ?_, ?_⟩
    · intro w h
      rw [objectWrite_eq ht, h]
    · exact (storedValue_confined _ _ _).bind fun _ _ => put_confined _ hk _

theorem remove_run (t : IoClientType) (source : Data) (w : Backends) :
    IoClient.remove t source w = .ok true (w.put t source.id none) := by
  cases t <;> rfl

theorem remove_confined (t : IoClientType) (source : Data) :
    Confined (fun _ : Backends => True) {source.id} (fun _ => True) (IoClient.remove t source) := by
  have hk : source.id ∈ ({source.id} : Set CharStruct) := Set.mem_singleton _
  cases t with
  | fileIo => exact (put_confined _ hk _).bind fun _ _ => Confined.pure trivial
  | redisIo => exact (put_confined _ hk _).bind fun _ _ => Confined.pure trivial
  | mongoIo => exact (put_confined _ hk _).bind fun _ _ => Confined.pure trivial

theorem size_run (t : IoClientType) (source : Data) (w : Backends) :
    IoClient.size t source w = .ok ((w t source.id).getD []).length w := by
  cases t <;> rfl

theorem size_confined (t : IoClientType) (source : Data) :
    Confined (fun _ : Backends => True) {source.id} (fun _ => True) (IoClient.size t source) := by
  apply Confined.inspect t (Set.mem_singleton source.id)
  intro v
  refine ⟨pure (v.getD []).length, fun w h => ?_, Confined.pure trivial⟩
  rw [size_run, h]
  rfl

end footprint

/-! ## Calls through the factory -/

section factory

variable {conf : ConfigurationManager} {env : Env} {i : Nat} {t : IoClientType}

theorem IoFactory.read_eq (hi : conf.backend i = some t) {source : Data} (hfault : env.readFault i source.id = none)
    (destination : Data) : IoFactory.read conf env i source destination = IoClient.read t source destination := by
  simp only [IoFactory.read, IoFactory.getIoClient, hi, hfault]
  rfl

theorem IoFactory.write_eq (hi : conf.backend i = some t) (source : Data) {destination : Data}
    (hfault : env.writeFault i destination.id = none) :
    IoFactory.write conf env i source destination = IoClient.write t source destination := by
  simp only [IoFactory.write, IoFactory.getIoClient, hi, hfault]
  rfl

theorem IoFactory.write_fault (hi : conf.backend i = some t) (source : Data) {destination : Data} {code : ErrorCode}
    (hfault : env.writeFault i destination.id = some code) (w : Backends) :
    IoFactory.write conf env i source destination w = .error (.error code) w := by
  simp only [IoFactory.write, IoFactory.getIoClient, hi, hfault]
  rfl

theorem IoFactory.remove_eq (hi : conf.backend i = some t) (source : Data) :
    IoFactory.remove conf i source = IoClient.remove t source := by
  simp only [IoFactory.remove, IoFactory.getIoClient, hi]
  rfl

end factory

end Symbios
