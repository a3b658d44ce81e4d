import Symbios.Base.Segments
import Symbios.Model.Iris
import Symbios.Proof.Objects

/-!
# Where an IRIS write puts its bytes

A request inside one chunk is written as it should be (`doMappedWrite_single`). Of the second chunk of a request the
file client writes `data_size_ - position_` bytes, which is short of the chunk by what went before (`map_split`,
`writeChunks_split`), so no request of several chunks is complete; and the mapper counts with the chunk size modulo `2 ^ 32`.
-/

namespace Symbios

open EStateM LibHandler DataMapper

/-! ## Bytes of files -/

/-- The byte at offset `x` under a key, 0 where there is none: a write behind the end of a file leaves zeros. -/
def byteAt (w : Backends) (t : IoClientType) (key : CharStruct) (x : Nat) : UInt8 := ((w t key).getD []).getD x 0

/-- The bytes `data` are at `offset` of the file that is cut into chunks of `maxObjSize` bytes, and all others are
what they were. -/
structure Places (maxObjSize : Nat) (file : CharStruct) (offset : Nat) (data : List UInt8) (w w' : Backends) : Prop where
  placed : ∀ k b, data[k]? = some b → ∃ object,
    w' .fileIo (objectId file ((offset + k) / maxObjSize)) = some object ∧ object[(offset + k) % maxObjSize]? = some b
  kept : ∀ t key x, (∀ k < data.length,
      ¬ (t = .fileIo ∧ key = objectId file ((offset + k) / maxObjSize) ∧ x = (offset + k) % maxObjSize)) →
    byteAt w' t key x = byteAt w t key x

/-- The write completes and places its bytes, whatever the files hold before. -/
def IrisWrites (maxObjSize : Nat) (file : CharStruct) (offset : Nat) (data : List UInt8) : Prop :=
  ∀ (dbType : Nat) (w : Backends), ∃ w',
    doMappedWrite .fileIo dbType maxObjSize file offset data.length data w = .ok () w' ∧
      Places maxObjSize file offset data w w'

/-- The requests of `n` bytes at `offset` that are written right: not empty, inside one chunk and inside `long`; with
a chunk size that does not fit into 32 bits, inside as many bytes as are left of it. -/
def IrisRight (maxObjSize offset n : Nat) : Prop :=
  0 < n ∧ if maxObjSize < 2 ^ 32 then offset % maxObjSize + n ≤ maxObjSize ∧ offset + n < 2 ^ 63
    else offset + n ≤ maxObjSize % 2 ^ 32

/-! ## Chunks -/

section chunks

variable {m : Nat} {id : CharStruct}

theorem chunks_zero (m : Nat) (id : CharStruct) (turns pos : Nat) : chunks m id turns 0 pos = some [] := by
  cases turns with
  | zero => rfl
  | succ turns => rw [chunks, if_pos rfl]

/-- One turn of the mapper. -/
theorem chunks_turn (hm : 0 < m) {remaining : Nat} (hremaining : 0 < remaining) (turns pos : Nat) {size : Nat}
    (hsize : size = min remaining (m - pos % m)) :
    chunks m id (turns + 1) remaining pos =
      if pos + size < 2 ^ 63 then
        (chunks m id turns (remaining - size) (pos + size)).map
          ({ id := objectId id (pos / m), position := pos % m, size, chunkIndex := pos / m % 2 ^ 32 } :: ·)
      else none := by
  have hcut : (if remaining > m - pos % m then m - pos % m else remaining) = size := by
    rw [hsize]
    split_ifs <;> omega
  rw [chunks, if_neg (by omega), if_neg (by omega)]
  dsimp only
  rw [hcut]

/-- The chunks from `pos` on are those of its segment or of later ones. -/
theorem chunks_ids {turns remaining pos : Nat} {objs : List DataDescriptor}
    (h : chunks m id turns remaining pos = some objs) : ∀ obj ∈ objs, ∃ i, pos / m ≤ i ∧ obj.id = objectId id i := by
  induction turns generalizing remaining pos objs with
  | zero =>
    cases h
    simp
  | succ turns ih =>
    rcases Nat.eq_zero_or_pos remaining with hzero | hpos
    · rw [hzero, chunks_zero] at h
      cases h
      simp
    · rcases Nat.eq_zero_or_pos m with hm | hm
      · rw [chunks, if_neg (by omega), if_pos hm] at h
        cases h
      · rw [chunks_turn hm hpos turns pos rfl] at h
        split at h
        · obtain ⟨rest, hrest, rfl⟩ := Option.map_eq_some_iff.mp h
          intro obj hobj
          rcases List.mem_cons.mp hobj with rfl | hobj
          · exact ⟨pos / m, le_rfl, rfl⟩
          · obtain ⟨i, hi, hid⟩ := ih hrest obj hobj
            exact ⟨i, (Nat.div_le_div_right (Nat.le_add_right _ _)).trans hi, hid⟩
        · cases h

/-- A request inside one chunk. -/
theorem map_single (hm : 0 < m) {offset n : Nat} (hn : 0 < n) (hin : offset % m + n ≤ m) (hlong : offset + n < 2 ^ 63) :
    map m { id, position := offset, size := n } =
      some [{ id := objectId id (offset / m), position := offset % m, size := n, chunkIndex := offset / m % 2 ^ 32 }] := by
  obtain ⟨turns, rfl⟩ : ∃ turns, n = turns + 1 := ⟨n - 1, by omega⟩
  rw [map, chunks_turn hm hn turns offset (show turns + 1 = min (turns + 1) (m - offset % m) by omega), if_pos hlong,
    Nat.sub_self, chunks_zero]
  rfl

/-- A request that goes on behind its first chunk. -/
theorem map_split (hm : 0 < m) {offset n : Nat} (hout : m < offset % m + n) {objs : List DataDescriptor}
    (h : map m { id, position := offset, size := n } = some objs) :
    ∃ first second rest, objs = first :: second :: rest ∧
      first.id = objectId id (offset / m) ∧ first.position = offset % m ∧ first.size = m - offset % m ∧
      second.id = objectId id (offset / m + 1) ∧ second.position = 0 ∧
      second.size = min (n - (m - offset % m)) m ∧
      ∀ obj ∈ rest, ∃ i, offset / m + 2 ≤ i ∧ obj.id = objectId id i := by
  have hoff := Nat.mod_lt offset hm
  obtain ⟨turns, rfl⟩ : ∃ turns, n = turns + 2 := ⟨n - 2, by omega⟩
  have hdiv := Segments.next_segment_div hm offset
  have hmod := Segments.next_segment_mod hm offset
  obtain ⟨size, hsize⟩ : ∃ size, size = min (turns + 2 - (m - offset % m)) m := ⟨_, rfl⟩
  rw [map, chunks_turn hm (by omega) (turns + 1) offset
    (show m - offset % m = min (turns + 2) (m - offset % m) by omega)] at h
  split at h
  case isFalse => cases h
  obtain ⟨objs', hobjs', rfl⟩ := Option.map_eq_some_iff.mp h
  rw [chunks_turn hm (by omega) turns _ (show size = min (turns + 2 - (m - offset % m))
    (m - (offset + (m - offset % m)) % m) by rw [hmod]; omega)] at hobjs'
  split at hobjs'
  case isFalse => cases hobjs'
  obtain ⟨rest, hrest, rfl⟩ := Option.map_eq_some_iff.mp hobjs'
  refine ⟨_, _, rest, rfl, rfl, rfl, rfl, by rw [hdiv], by rw [hmod], hsize, ?_⟩
  by_cases hmore : m ≤ turns + 2 - (m - offset % m)
  · intro obj hobj
    obtain ⟨i, hi, hid⟩ := chunks_ids hrest obj hobj
    refine ⟨i, ?_, hid⟩
    rwa [show size = m by omega, Nat.add_div_right _ hm, hdiv] at hi
  · rw [show turns + 2 - (m - offset % m) - size = 0 by omega, chunks_zero] at hrest
    cases hrest
    simp

end chunks

/-! ## Writing the chunks -/

section write

variable {maxObjSize : Nat} {file : CharStruct} {offset dbType : Nat} {data : List UInt8} {w w' : Backends}

theorem writeChunks_cons {obj : DataDescriptor} {objs : List DataDescriptor} {position : Nat} {t : IoClientType}
    (h : writeChunks t dbType data (obj :: objs) position w = .ok () w') : ∃ w₁,
      IoClient.write t { buffer := some data, position := position, dataSize := obj.size }
        { id := obj.id, position := obj.position, dataSize := obj.size, storageIndex := dbType } w = .ok () w₁ ∧
      writeChunks t dbType data objs (position + obj.size) w₁ = .ok () w' := by
  obtain ⟨_, w₁, hwrite, hrest⟩ := bind_eq_ok h
  exact ⟨w₁, hwrite, hrest⟩

theorem writeChunks_outside {objs : List DataDescriptor} {position : Nat} {t : IoClientType}
    (h : writeChunks t dbType data objs position w = .ok () w') {key : CharStruct} (hkey : ∀ obj ∈ objs, obj.id ≠ key) :
    w' t key = w t key := by
  induction objs generalizing position w with
  | nil =>
    cases h
    rfl
  | cons obj objs ih =>
    obtain ⟨w₁, hwrite, hrest⟩ := writeChunks_cons h
    obtain ⟨b, rfl⟩ := write_ok hwrite
    rw [ih hrest fun obj' hobj' => hkey obj' (List.mem_cons_of_mem _ hobj')]
    exact Backends.put_of_key_ne _ _ _ _ (hkey obj List.mem_cons_self).symm

/-- A write that completes has chunks to write. -/
theorem doMappedWrite_ok (h : doMappedWrite .fileIo dbType maxObjSize file offset data.length data w = .ok () w') :
    ∃ objs, map (maxObjSize % 2 ^ 32) { id := file, position := offset, size := data.length } = some objs ∧
      objs ≠ [] ∧ writeChunks .fileIo dbType data objs 0 w = .ok () w' := by
  unfold doMappedWrite at h
  cases hmap : map (maxObjSize % 2 ^ 32) { id := file, position := offset, size := data.length } with
  | none =>
    rw [hmap] at h
    cases h
  | some objs =>
    rw [hmap] at h
    cases objs with
    | nil => cases h
    | cons obj objs => exact ⟨obj :: objs, rfl, List.cons_ne_nil _ _, h⟩

/-- A request inside one chunk of the mapper. -/
theorem doMappedWrite_single (hm : 0 < maxObjSize % 2 ^ 32) (hn : 0 < data.length)
    (hin : offset % (maxObjSize % 2 ^ 32) + data.length ≤ maxObjSize % 2 ^ 32) (hlong : offset + data.length < 2 ^ 63) :
    doMappedWrite .fileIo dbType maxObjSize file offset data.length data w =
      .ok () (w.put .fileIo (objectId file (offset / (maxObjSize % 2 ^ 32)))
        (some (fileWritten ((w .fileIo (objectId file (offset / (maxObjSize % 2 ^ 32)))).getD [])
          (offset % (maxObjSize % 2 ^ 32)) data))) := by
  rw [doMappedWrite, map_single hm hn hin hlong]
  dsimp only
  rw [writeChunks, bind_ok (fileWrite_whole rfl rfl rfl (by dsimp only; omega) w)]
  rfl

/-- Bytes that belong behind offset `x` of one chunk, written there. -/
theorem places_single {i x : Nat} (htarget : ∀ k < data.length, (offset + k) / maxObjSize = i ∧ (offset + k) % maxObjSize = x + k)
    (hne : data ≠ []) (w : Backends) :
    Places maxObjSize file offset data w
      (w.put .fileIo (objectId file i) (some (fileWritten ((w .fileIo (objectId file i)).getD []) x data))) where
  placed := by
    intro k b hb
    have hk : k < data.length := (List.getElem?_eq_some_iff.mp hb).1
    obtain ⟨hdiv, hmod⟩ := htarget k hk
    refine ⟨_, by rw [hdiv, Backends.put_same], ?_⟩
    rw [hmod, fileWritten, if_neg hne, Overlay.overlay_get_inside _ _ _ _ _ hk, hb]
  kept := by
    intro t key y hnot
    by_cases hkey : t = .fileIo ∧ key = objectId file i
    · obtain ⟨rfl, rfl⟩ := hkey
      unfold byteAt
      rw [Backends.put_same, fileWritten, if_neg hne]
      apply Overlay.overlay_getD_outside
      by_contra hin
      have hk : y - x < data.length := by omega
      obtain ⟨hdiv, hmod⟩ := htarget (y - x) hk
      exact hnot (y - x) hk ⟨rfl, by rw [hdiv], by omega⟩
    · unfold byteAt
      rw [Backends.put, if_neg hkey]

theorem length_fileWritten {old bytes : List UInt8} {x : Nat} (hle : old.length ≤ x) (hne : bytes ≠ []) :
    (fileWritten old x bytes).length = x + bytes.length := by
  rw [fileWritten, if_neg hne, Overlay.overlay, List.length_append, List.length_append, Overlay.head_length,
    List.length_drop]
  omega

/-- A write that creates a file: it has `data_size_ - position_` bytes behind the offset it is written at. -/
theorem fileWrite_creates {source destination : Data} (hbuf : source.buffer = some data) (hlength : data.length < 2 ^ 64)
    (hdest : destination.position < 2 ^ 63) (hnone : w .fileIo destination.id = none)
    (h : IoClient.write .fileIo source destination w = .ok () w') :
    source.position ≤ source.dataSize ∧ ∃ object, w' = w.put .fileIo destination.id (some object) ∧
      object.length =
        if source.position = source.dataSize then 0 else destination.position + (source.dataSize - source.position) := by
  rw [fileWrite_eq source hdest, hbuf, hnone, Option.getD_some] at h
  split at h
  case isFalse => cases h
  case isTrue hread =>
    have hle : source.position ≤ source.dataSize := by
      by_contra hwrap
      rw [subSize, if_neg hwrap] at hread
      omega
    rw [subSize, if_pos hle] at h hread
    obtain ⟨-, rfl⟩ := Result.ok.inj h
    refine ⟨hle, _, rfl, ?_⟩
    have htaken : ((data.drop source.position).take (source.dataSize - source.position)).length =
        source.dataSize - source.position := by
      rw [List.length_take, List.length_drop]
      omega
    by_cases heq : source.position = source.dataSize
    · rw [if_pos heq, fileWritten, if_pos (List.eq_nil_of_length_eq_zero (by omega))]
      rfl
    · rw [if_neg heq, length_fileWritten (by simp) (List.ne_nil_of_length_pos (by omega)), htaken]

/-- A request of several chunks, into no files: the first chunk is whole, and the second one lacks as many bytes as the
first one has. -/
theorem writeChunks_split {m : Nat} (hm : 0 < m) (hm' : m < 2 ^ 32) (hout : m < offset % m + data.length)
    (hlength : data.length < 2 ^ 64) {objs : List DataDescriptor}
    (hmap : map m { id := file, position := offset, size := data.length } = some objs)
    (h : writeChunks .fileIo dbType data objs 0 (fun _ _ => none) = .ok () w') :
    (∃ object, w' .fileIo (objectId file (offset / m)) = some object ∧ object.length = m) ∧
      ∃ object, w' .fileIo (objectId file (offset / m + 1)) = some object ∧
        object.length + (m - offset % m) = min (data.length - (m - offset % m)) m := by
  have hoff := Nat.mod_lt offset hm
  obtain ⟨first, second, rest, rfl, hid₁, hpos₁, hsize₁, hid₂, hpos₂, hsize₂, hrest⟩ := map_split hm hout hmap
  obtain ⟨w₁, hwrite₁, h₁⟩ := writeChunks_cons h
  obtain ⟨w₂, hwrite₂, h₂⟩ := writeChunks_cons h₁
  have hlater : ∀ i, i < offset / m + 2 → w' .fileIo (objectId file i) = w₂ .fileIo (objectId file i) := by
    intro i hi
    apply writeChunks_outside h₂
    intro obj hobj heq
    obtain ⟨j, hj, hid⟩ := hrest obj hobj
    have := objectId_injective file (hid.symm.trans heq)
    omega
  have hdistinct : objectId file (offset / m + 1) ≠ objectId file (offset / m) := by
    intro heq
    have := objectId_injective file heq
    omega
  rw [hid₁, hpos₁, hsize₁] at hwrite₁
  rw [hid₂, hpos₂, hsize₁, hsize₂, Nat.zero_add] at hwrite₂
  obtain ⟨-, object₁, rfl, hobject₁⟩ := fileWrite_creates rfl hlength (by dsimp only; omega) rfl hwrite₁
  obtain ⟨hle, object₂, rfl, hobject₂⟩ := fileWrite_creates rfl hlength (by dsimp only; norm_num)
    (Backends.put_of_key_ne _ _ _ _ hdistinct) hwrite₂
  dsimp only at hobject₁ hobject₂ hle
  constructor
  · refine ⟨object₁, ?_, ?_⟩
    · rw [hlater _ (by omega), Backends.put_of_key_ne _ _ _ _ hdistinct.symm, Backends.put_same]
    · rw [hobject₁, if_neg (by omega)]
      omega
  · refine ⟨object₂, ?_, ?_⟩
    · rw [hlater _ (by omega), Backends.put_same]
    · rw [hobject₂]
      split_ifs <;> omega

/-- A chunk size beyond 32 bits puts what is behind the first chunk of the mapper into a later one. -/
theorem mapped_later (hM : 2 ^ 32 ≤ maxObjSize) (hm : 0 < maxObjSize % 2 ^ 32) (hoff : maxObjSize % 2 ^ 32 ≤ offset) :
    offset / maxObjSize < offset / (maxObjSize % 2 ^ 32) := by
  have hcut := Nat.div_add_mod maxObjSize (2 ^ 32)
  have hpos : 0 < maxObjSize / 2 ^ 32 := Nat.div_pos hM (by norm_num)
  have hlt := Nat.mod_lt maxObjSize (show 0 < 2 ^ 32 by norm_num)
  have hle := Nat.div_mul_le_self offset maxObjSize
  generalize maxObjSize % 2 ^ 32 = m at *
  apply (Nat.le_div_iff_mul_le hm).mpr
  rcases Nat.eq_zero_or_pos (offset / maxObjSize) with hzero | hq
  · rw [hzero]
    omega
  · generalize offset / maxObjSize = q at *
    have hgap : 2 * m ≤ maxObjSize := by omega
    calc (q + 1) * m ≤ q * (2 * m) := by nlinarith
      _ ≤ q * maxObjSize := Nat.mul_le_mul_left q hgap
      _ ≤ offset := hle

theorem places_not_later (hn : 0 < data.length) (hM : 2 ^ 32 ≤ maxObjSize) (hm : 0 < maxObjSize % 2 ^ 32)
    (hoff : maxObjSize % 2 ^ 32 ≤ offset) {objs : List DataDescriptor}
    (hmap : map (maxObjSize % 2 ^ 32) { id := file, position := offset, size := data.length } = some objs)
    (h : writeChunks .fileIo dbType data objs 0 (fun _ _ => none) = .ok () w') :
    ¬ Places maxObjSize file offset data (fun _ _ => none) w' := by
  intro hplaces
  obtain ⟨b, hb⟩ : ∃ b, data[0]? = some b := ⟨data[0], List.getElem?_eq_getElem hn⟩
  obtain ⟨object, hobject, -⟩ := hplaces.placed 0 b hb
  have hlater := mapped_later hM hm hoff
  rw [Nat.add_zero, writeChunks_outside h] at hobject
  · cases hobject
  · intro obj hobj heq
    obtain ⟨i, hi, hid⟩ := chunks_ids hmap obj hobj
    have hsame := objectId_injective file (hid.symm.trans heq)
    exact absurd hi (not_le.mpr (hsame ▸ hlater))

/-- An object reaches up to the bytes that are placed in it. -/
theorem Places.lt_length (h : Places maxObjSize file offset data w w') {k : Nat} (hk : k < data.length)
    {object : List UInt8} (hobject : w' .fileIo (objectId file ((offset + k) / maxObjSize)) = some object) :
    (offset + k) % maxObjSize < object.length := by
  obtain ⟨object', hobject', hbyte⟩ := h.placed k data[k] (List.getElem?_eq_getElem hk)
  obtain rfl := Option.some.inj (hobject'.symm.trans hobject)
  exact (List.getElem?_eq_some_iff.mp hbyte).1

/-- Data that leaves its first chunk reaches through the second as far as it goes. -/
theorem Places.second_length (h : Places maxObjSize file offset data w w') (hM : 0 < maxObjSize)
    (hout : maxObjSize < offset % maxObjSize + data.length) {second : List UInt8}
    (hsecond : w' .fileIo (objectId file (offset / maxObjSize + 1)) = some second) :
    min (data.length - (maxObjSize - offset % maxObjSize)) maxObjSize ≤ second.length := by
  have hoff := Nat.mod_lt offset hM
  have hnext := Segments.next_segment hM offset
  -- the last byte of the second chunk, in the data and in the chunk
  obtain ⟨k, hk⟩ : ∃ k, k = maxObjSize - offset % maxObjSize +
      min (data.length - (maxObjSize - offset % maxObjSize)) maxObjSize - 1 := ⟨_, rfl⟩
  obtain ⟨x, hx⟩ : ∃ x, x = min (data.length - (maxObjSize - offset % maxObjSize)) maxObjSize - 1 := ⟨_, rfl⟩
  have htarget : offset + k = x + (offset / maxObjSize + 1) * maxObjSize := by omega
  have hlast : x < maxObjSize := by omega
  have hdiv : (offset + k) / maxObjSize = offset / maxObjSize + 1 := by
    rw [htarget, Nat.add_mul_div_right _ _ hM, Nat.div_eq_of_lt hlast, Nat.zero_add]
  have hmod : (offset + k) % maxObjSize = x := by
    rw [htarget, Nat.add_mul_mod_self_right, Nat.mod_eq_of_lt hlast]
  have hin := h.lt_length (show k < data.length by omega) (by rw [hdiv, hsecond])
  rw [hmod] at hin
  omega

theorem places_not_split (hm : 0 < maxObjSize % 2 ^ 32) (hlength : data.length < 2 ^ 64)
    (hout : maxObjSize % 2 ^ 32 < offset % (maxObjSize % 2 ^ 32) + data.length) {objs : List DataDescriptor}
    (hmap : map (maxObjSize % 2 ^ 32) { id := file, position := offset, size := data.length } = some objs)
    (h : writeChunks .fileIo dbType data objs 0 (fun _ _ => none) = .ok () w') :
    ¬ Places maxObjSize file offset data (fun _ _ => none) w' := by
  intro hplaces
  have hm' : maxObjSize % 2 ^ 32 < 2 ^ 32 := Nat.mod_lt _ (by norm_num)
  have hoff := Nat.mod_lt offset hm
  obtain ⟨⟨first, hfirst, hlength₁⟩, second, hsecond, hlength₂⟩ := writeChunks_split hm hm' hout hlength hmap h
  by_cases hM : maxObjSize < 2 ^ 32
  · -- the end of the second chunk is missing
    rw [Nat.mod_eq_of_lt hM] at *
    have hfull := hplaces.second_length hm hout hsecond
    omega
  · by_cases hbeyond : maxObjSize % 2 ^ 32 ≤ offset
    · exact places_not_later (by omega) (not_lt.mp hM) hm hbeyond hmap h hplaces
    · -- the byte behind the first chunk of the mapper belongs into the same file
      have hsmall : offset % (maxObjSize % 2 ^ 32) = offset := Nat.mod_eq_of_lt (by omega)
      have hzero : offset / (maxObjSize % 2 ^ 32) = 0 := Nat.div_eq_of_lt (by omega)
      rw [hsmall] at hout
      have hend : offset + (maxObjSize % 2 ^ 32 - offset) = maxObjSize % 2 ^ 32 := by omega
      have hin := @Places.lt_length _ _ _ _ _ _ hplaces (maxObjSize % 2 ^ 32 - offset) (by omega) first (by
        rw [hend, Nat.div_eq_of_lt (by omega), ← hzero, hfirst])
      rw [hend, Nat.mod_eq_of_lt (by omega)] at hin
      omega

/-- The mapper only makes chunks of data, and with a chunk size. -/
theorem map_pos {m : Nat} {objs : List DataDescriptor}
    (hmap : map m { id := file, position := offset, size := data.length } = some objs) (hne : objs ≠ []) :
    0 < data.length ∧ 0 < m := by
  have hn : 0 < data.length := by
    by_contra hzero
    rw [show data.length = 0 by omega] at hmap
    exact hne (Option.some.inj hmap).symm
  refine ⟨hn, ?_⟩
  by_contra hzero
  obtain ⟨turns, hturns⟩ : ∃ turns, data.length = turns + 1 := ⟨data.length - 1, by omega⟩
  rw [map, hturns, chunks, if_neg (Nat.succ_ne_zero turns), if_pos (by omega)] at hmap
  cases hmap

/-- A range inside a chunk is only mapped when it ends inside `long`. -/
theorem map_end {m : Nat} {objs : List DataDescriptor} (hm : 0 < m) (hn : 0 < data.length)
    (hin : offset % m + data.length ≤ m)
    (hmap : map m { id := file, position := offset, size := data.length } = some objs) :
    offset + data.length < 2 ^ 63 := by
  obtain ⟨turns, hturns⟩ : ∃ turns, data.length = turns + 1 := ⟨data.length - 1, by omega⟩
  by_contra hover
  rw [hturns] at hmap hin hover
  rw [map, chunks_turn hm (by omega) turns offset (show turns + 1 = min (turns + 1) (m - offset % m) by omega),
    if_neg hover] at hmap
  cases hmap

theorem irisRight_of_writes (hlength : data.length < 2 ^ 64)
    (h : IrisWrites maxObjSize file offset data) : IrisRight maxObjSize offset data.length := by
  obtain ⟨w', hrun, hplaces⟩ := h 0 fun _ _ => none
  obtain ⟨objs, hmap, hne, hwrite⟩ := doMappedWrite_ok hrun
  obtain ⟨hn, hm⟩ := map_pos hmap hne
  have hin : offset % (maxObjSize % 2 ^ 32) + data.length ≤ maxObjSize % 2 ^ 32 := by
    by_contra hout
    exact places_not_split hm hlength (not_le.mp hout) hmap hwrite hplaces
  have hlong := map_end hm hn hin hmap
  refine ⟨hn, ?_⟩
  split_ifs with hsmall
  · rw [Nat.mod_eq_of_lt hsmall] at hin
    exact ⟨hin, hlong⟩
  · by_contra hbeyond
    have hoff : maxObjSize % 2 ^ 32 ≤ offset := by
      by_contra hbefore
      rw [Nat.mod_eq_of_lt (not_le.mp hbefore)] at hin
      exact hbeyond hin
    exact places_not_later hn (not_lt.mp hsmall) hm hoff hmap hwrite hplaces

theorem irisWrites_of_right (hM : 0 < maxObjSize) (h : IrisRight maxObjSize offset data.length) :
    IrisWrites maxObjSize file offset data := by
  obtain ⟨hn, h⟩ := h
  intro dbType w
  have hne : data ≠ [] := List.ne_nil_of_length_pos hn
  split_ifs at h with hsmall
  · have hmod : maxObjSize % 2 ^ 32 = maxObjSize := Nat.mod_eq_of_lt hsmall
    refine ⟨_, doMappedWrite_single (by omega) hn (by rw [hmod]; exact h.1) h.2, ?_⟩
    rw [hmod]
    apply places_single _ hne
    intro k hk
    have := Segments.div_mod_of_mem h.1 (Nat.le_add_right offset k) (by omega)
    rwa [Nat.add_sub_cancel_left] at this
  · have hoff : offset < maxObjSize % 2 ^ 32 := by omega
    refine ⟨_, doMappedWrite_single (by omega) hn (by rw [Nat.mod_eq_of_lt hoff]; exact h) (by omega), ?_⟩
    rw [Nat.div_eq_of_lt hoff, Nat.mod_eq_of_lt hoff]
    apply places_single _ hne
    intro k hk
    exact ⟨Nat.div_eq_of_lt (by omega), Nat.mod_eq_of_lt (by omega)⟩

/-- An IRIS write through the file client places its bytes exactly when it is inside one chunk. -/
theorem irisWrites_iff (hM : 0 < maxObjSize) (hlength : data.length < 2 ^ 64) :
    IrisWrites maxObjSize file offset data ↔ IrisRight maxObjSize offset data.length :=
  ⟨irisRight_of_writes hlength, irisWrites_of_right hM⟩

end write

/-- Two bytes inside a chunk of four. -/
theorem irisWrites_inside : IrisRight 4 1 2 ∧ IrisWrites 4 [0x66] 1 [1, 2] :=
  ⟨⟨by decide, by decide⟩, (irisWrites_iff (by decide) (by decide)).mpr ⟨by decide, by decide⟩⟩

/-- Two chunks of two bytes: the second one is created and left empty. -/
theorem irisWrites_two_chunks : ¬ IrisWrites 2 [0x66] 0 [1, 2, 3, 4] := by
  intro h
  obtain ⟨w', hrun, hplaces⟩ := h 0 fun _ _ => none
  have hempty : (doMappedWrite .fileIo 0 2 [0x66] 0 ([1, 2, 3, 4] : List UInt8).length [1, 2, 3, 4] fun _ _ => none).final .fileIo
      (objectId [0x66] 1) = some [] := by decide +kernel
  obtain ⟨object, hobject, hbyte⟩ := hplaces.placed 2 3 rfl
  rw [hrun] at hempty
  obtain rfl := Option.some.inj (hempty.symm.trans hobject)
  cases hbyte

end Symbios
