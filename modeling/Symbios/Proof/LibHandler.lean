import Symbios.Model.LibHandler
import Symbios.Proof.Chunks
import Symbios.Proof.Client
import Symbios.Proof.Splice

/-!
# The emulation as a file

What an application is to see of a library handler in IRIS mode: a file of which some bytes are there. A request that
the storage client can serve (`LibCall.Admissible`) writes, reads or removes exactly its bytes, chunk by chunk
(`LibCall.run_iris`), and so does every run of requests (`runAll_iris`). Over the requests that Symbios serves too, its
handler gives the application the same bytes (`modes_agree`).
-/

namespace Symbios

open EStateM LibHandler DataMapper

open Segments (patch)

section pieces

variable {t : IoClientType} {m p n : Nat} {file : CharStruct} {w : Backends} {f : Nat → Option UInt8}
  {pieces : List Piece}

/-- The chunks of the file have these bytes, each in its place. -/
def Emulates (t : IoClientType) (m : Nat) (file : CharStruct) (f : Nat → Option UInt8) (w : Backends) : Prop :=
  Segments.Covers m f fun s => w t (objectId file s)

theorem emulates_empty (t : IoClientType) (m : Nat) (file : CharStruct) (w : Backends) :
    Emulates t m file (fun _ => none) w := Segments.Covers.empty _ _

/-! ## Reads -/

/-- A read inside a value. -/
theorem read_inside {v : List UInt8} {source destination : Data} (hv : w t source.id = some v)
    (hsize : 0 < source.dataSize) (hin : source.position + source.dataSize ≤ v.length)
    (hposition : source.position < 2 ^ 63) (hmongo : t = .mongoIo → source.position = 0)
    (hdestination : destination.position = 0) :
    IoClient.read t source destination w =
      .ok { destination with
        buffer := some ((v.drop source.position).take source.dataSize), dataSize := source.dataSize } w := by
  have hobject : objectRequest v source = source.dataSize := if_neg (by omega)
  have hfile : fileRequest v source = source.dataSize := if_neg (by omega)
  have hlength : ((v.drop source.position).take source.dataSize).length = source.dataSize := by
    rw [List.length_take, List.length_drop]
    omega
  have hzero : ((v ++ [0]).drop source.position).take source.dataSize = (v.drop source.position).take source.dataSize := by
    rw [List.drop_append_of_le_length (by omega), List.take_append_of_le_length (by rw [List.length_drop]; omega)]
  cases t with
  | fileIo =>
    rw [fileRead_eq hv, hfile, if_neg (by omega), if_neg (fun h => absurd h.2 (by omega)), if_pos hlength, hlength,
      hdestination, Nat.zero_add, List.replicate_zero, List.nil_append]
  | redisIo => rw [redisRead_eq hv, hobject, hzero, if_neg (by omega), if_pos (by omega)]
  | mongoIo =>
    have hstart := hmongo rfl
    have hsub : subSize source.dataSize source.position = source.dataSize := by
      rw [hstart, subSize, if_pos (Nat.zero_le _), Nat.sub_zero]
    rw [mongoRead_eq hv, hobject, hsub, hzero, if_pos (by omega), hstart, List.replicate_zero, List.append_nil]

/-- What is read of a file. -/
def bytesOf (f : Nat → Option UInt8) (p n : Nat) : List UInt8 := (List.range n).filterMap fun k => f (p + k)

theorem filterMap_getElem? (bytes : List UInt8) :
    (List.range bytes.length).filterMap (fun k => bytes[k]?) = bytes := by
  induction bytes with
  | nil => rfl
  | cons b bytes ih =>
    rw [List.length_cons, List.range_succ_eq_map, List.filterMap_cons_some (List.getElem?_cons_zero ..),
      List.filterMap_map]
    congr 1

/-- A list that has the bytes is what is read. -/
theorem bytesOf_eq {bytes : List UInt8} (hlength : bytes.length = n) (hbytes : ∀ k < n, bytes[k]? = f (p + k)) :
    bytesOf f p n = bytes := by
  have hmap : (List.range n).filterMap (fun k => f (p + k)) = (List.range n).filterMap fun k => bytes[k]? :=
    List.filterMap_congr fun k hk => (hbytes k (List.mem_range.mp hk)).symm
  rw [bytesOf, hmap, ← hlength, filterMap_getElem?]

theorem bytesOf_add (f : Nat → Option UInt8) (p n k : Nat) : bytesOf f p (n + k) = bytesOf f p n ++ bytesOf f (p + n) k := by
  rw [bytesOf, List.range_add, List.filterMap_append, List.filterMap_map, bytesOf, bytesOf]
  congr 2
  funext j
  rw [Function.comp_apply, Nat.add_assoc]

/-- The whole range is there. -/
def AllThere (f : Nat → Option UInt8) (p n : Nat) : Prop := ∀ o, p ≤ o → o < p + n → (f o).isSome

/-- A turn of the loop of `do_mapped_read`. -/
theorem readChunk_run (dbType : Nat) (h : Emulates t m file f w) (hn : 0 < n) (hin : p % m + n ≤ m)
    (hthere : AllThere f p n) (hmongo : t = .mongoIo → p % m = 0) (hlong : p < 2 ^ 63) (destinationSize : Nat) :
    IoClient.read t { id := objectId file (p / m), position := p % m, dataSize := n, storageIndex := dbType }
      { dataSize := destinationSize } w = .ok { buffer := some (bytesOf f p n), dataSize := n } w := by
  obtain ⟨v, hv, hfits, hbytes⟩ := h.slice hn hin hthere
  have hlength : ((v.drop (p % m)).take n).length = n := by
    rw [List.length_take, List.length_drop]
    omega
  have hmod := Nat.mod_le p m
  rw [bytesOf_eq hlength hbytes]
  exact read_inside hv hn hfits (by dsimp only; omega) hmongo rfl

theorem readChunks_cons {dbType : Nat} {obj : DataDescriptor} {objs : List DataDescriptor} {requestSize : Nat} {offset : Int}
    {buffer : List UInt8} {buffers : List (List UInt8)}
    (hread : ∀ destinationSize, IoClient.read t
      { id := obj.id, position := obj.position, dataSize := obj.size, storageIndex := dbType }
      { dataSize := destinationSize } w = .ok { buffer := some buffer, dataSize := obj.size } w)
    (hgo : toSize (toInt (offset + obj.size)) ≤ requestSize)
    (hrest : readChunks t dbType false requestSize objs (toInt (offset + obj.size)) w = .ok buffers w) :
    readChunks t dbType false requestSize (obj :: objs) offset w = .ok (buffer :: buffers) w := by
  rw [readChunks]
  refine (bind_ok (hread _)).trans ?_
  refine (congrFun (if_neg fun hprint => Bool.false_ne_true hprint.1) w).trans ?_
  exact (congrFun (if_neg (not_lt.mpr hgo)) w).trans (bind_ok hrest)

/-- The loop of `do_mapped_read`. Up to 2 GiB the `int` keeps up with the chunks. -/
theorem readChunks_run (dbType : Nat) (hm : 0 < m) (hchunked : Chunked m p n pieces) (h : Emulates t m file f w)
    (hthere : AllThere f p n) (hmongo : t = .mongoIo → m ∣ p ∨ n = 0) (hlong : p + n < 2 ^ 63) {requestSize offset : Nat}
    (hoffset : offset + n = requestSize) (hint : requestSize < 2 ^ 31) :
    ∃ buffers, readChunks t dbType false requestSize (pieces.map (Piece.descriptor file)) offset w = .ok buffers w ∧
      buffers.flatten = bytesOf f p n := by
  induction hchunked generalizing offset with
  | done => exact ⟨[], rfl, rfl⟩
  | @turn p n size rest hn hsize hrest ih =>
    have hpos := turn_size_pos hm hn hsize
    have hmod := Nat.mod_lt p hm
    have hcount : toInt ((offset : Int) + (size : Nat)) = (offset + size : Nat) := by
      rw [← Nat.cast_add, toInt_of_lt (by omega)]
    have hread := readChunk_run dbType h hpos (by omega) (fun o hle hlt => hthere o hle (by omega))
      (fun ht => Nat.mod_eq_zero_of_dvd ((hmongo ht).resolve_right (by omega))) (by omega)
    have hstart : t = .mongoIo → m ∣ p + size ∨ n - size = 0 := by
      intro ht
      by_cases hleft : n - size = 0
      · exact Or.inr hleft
      · exact Or.inl (Dvd.intro_left _ (turn_full hm hsize hleft).2.symm)
    have hnext : offset + size + (n - size) = requestSize := by omega
    obtain ⟨buffers, hrun, hflatten⟩ := ih (fun o hle hlt => hthere o (by omega) (by omega)) hstart (by omega) hnext
    refine ⟨bytesOf f p size :: buffers, ?_, ?_⟩
    · refine readChunks_cons hread ?_ ?_
      · rw [show (Piece.descriptor file ⟨p / m, p % m, size⟩).size = size from rfl, hcount, toSize_natCast (by omega)]
        omega
      · rw [show (Piece.descriptor file ⟨p / m, p % m, size⟩).size = size from rfl, hcount]
        exact hrun
    · rw [List.flatten_cons, hflatten, ← bytesOf_add, show size + (n - size) = n by omega]

/-! ## Writes -/

/-- The writes that the storage client makes as they are: to a file, inside one chunk; to an object, from the start of a
chunk on, or in front of a byte that is there. -/
def Writable (t : IoClientType) (m : Nat) (f : Nat → Option UInt8) (p n : Nat) : Prop :=
  if t = .fileIo then p % m + n ≤ m else m ∣ p ∨ p % m + n < m ∧ (f (p + n)).isSome

/-- Behind the first chunk an object is written from its start. -/
theorem Writable.next (hm : 0 < m) {size : Nat} (hn : 0 < n) (hsize : size = min n (m - p % m))
    (h : Writable t m f p n) (hleft : n - size ≠ 0) {g : Nat → Option UInt8} :
    t ≠ .fileIo ∧ Writable t m g (p + size) (n - size) := by
  unfold Writable at h ⊢
  split_ifs at h ⊢ with ht
  · omega
  · exact ⟨ht, Or.inl (Dvd.intro_left _ (turn_full hm hsize hleft).2.symm)⟩

/-- The object that a chunk goes to is spliced. -/
theorem Writable.splices {size : Nat} (hsize : size = min n (m - p % m)) (h : Writable t m f p n)
    (ht : t ≠ .fileIo) (hcovers : Emulates t m file f w) : Splices (w t (objectId file (p / m))) (p % m) size := by
  rw [Writable, if_neg ht] at h
  unfold Splices
  rcases h with hdvd | ⟨hlt, hthere⟩
  · have hzero : p % m = 0 := Nat.mod_eq_zero_of_dvd hdvd
    cases w t (objectId file (p / m)) with
    | none => exact hzero
    | some v => exact Or.inl hzero
  · obtain ⟨b, hb⟩ := Option.isSome_iff_exists.mp hthere
    obtain ⟨v, hv, hget⟩ := hcovers _ b hb
    obtain ⟨hdiv, hmod⟩ := @Segments.div_mod_of_mem m p (n + 1) (p + n) (by omega) (by omega) (by omega)
    have hvalue : w t (objectId file (p / m)) = some v := hdiv ▸ hv
    have hlength := (List.getElem?_eq_some_iff.mp hget).1
    rw [hvalue]
    exact Or.inr (Or.inr (Or.inl (by omega)))

/-- A turn of the loop of `do_mapped_write`. -/
theorem writeChunk_run (dbType : Nat) (hm : 0 < m) {size position : Nat} (data : List UInt8) (hn : 0 < n)
    (hsize : size = min n (m - p % m)) (hlong : p + n < 2 ^ 63) (h : Emulates t m file f w)
    (hwritable : Writable t m f p n) (hfile : t = .fileIo → position = 0) (hdata : position + size ≤ data.length) :
    IoClient.write t { buffer := some data, position, dataSize := size }
      { id := objectId file (p / m), position := p % m, dataSize := size, storageIndex := dbType } w =
        .ok () (w.put t (objectId file (p / m)) (some (Overlay.overlay 0 ((w t (objectId file (p / m))).getD []) (p % m)
          ((data.drop position).take size)))) := by
  have hmod := Nat.mod_le p m
  have hpos := turn_size_pos hm hn hsize
  have hlength : ((data.drop position).take size).length = size := by
    rw [List.length_take, List.length_drop]
    omega
  by_cases ht : t = .fileIo
  · have hzero := hfile ht
    subst ht hzero
    have hsub : subSize size 0 = size := by rw [subSize, if_pos (Nat.zero_le _), Nat.sub_zero]
    rw [fileWrite_eq _ (by dsimp only; omega)]
    dsimp only [Option.getD_some]
    rw [hsub, if_pos hdata, fileWritten, if_neg (List.ne_nil_of_length_pos (by omega))]
  · have hslice : slice (some data) position size w = .ok ((data.drop position).take size) w :=
      slice_of_le hdata w
    have hsplice := (@storedValue_splice_iff { buffer := some data, position, dataSize := size }
      { id := objectId file (p / m), position := p % m, dataSize := size, storageIndex := dbType } w _ hslice hlength
      (by dsimp only; omega) (w t (objectId file (p / m)))).mpr (hwritable.splices hsize ht h)
    rw [objectWrite_eq ht]
    exact (bind_ok hsplice).trans (modify_run _ _)

/-- What a write of a chunk does to the chunks of the file. -/
theorem Emulates.put (h : Emulates t m file f w) {bytes : List UInt8} (hin : p % m + bytes.length ≤ m) :
    Emulates t m file (patch f p bytes) (w.put t (objectId file (p / m))
      (some (Overlay.overlay 0 ((w t (objectId file (p / m))).getD []) (p % m) bytes))) := by
  have hobjects : (fun s => w.put t (objectId file (p / m)) (some (Overlay.overlay 0
      ((w t (objectId file (p / m))).getD []) (p % m) bytes)) t (objectId file s)) =
      Function.update (fun s => w t (objectId file s)) (p / m)
        (some (Overlay.overlay 0 ((w t (objectId file (p / m))).getD []) (p % m) bytes)) := by
    funext s
    by_cases hs : s = p / m
    · subst hs
      rw [Function.update_self, Backends.put_same]
    · rw [Function.update_of_ne hs]
      exact Backends.put_of_key_ne _ _ _ _ fun heq => hs (objectId_injective file heq)
  rw [Emulates, hobjects]
  exact Segments.Covers.patch h 0 hin

/-- The loop of `do_mapped_write`. -/
theorem writeChunks_run (dbType : Nat) (hm : 0 < m) (hchunked : Chunked m p n pieces) {data : List UInt8}
    {position : Nat} (hlong : p + n < 2 ^ 63) (h : Emulates t m file f w) (hwritable : n ≠ 0 → Writable t m f p n)
    (hfile : t = .fileIo → n ≠ 0 → position = 0) (hdata : position + n ≤ data.length) :
    ∃ w', writeChunks t dbType data (pieces.map (Piece.descriptor file)) position w = .ok () w' ∧
      Emulates t m file (patch f p ((data.drop position).take n)) w' := by
  induction hchunked generalizing position f w with
  | done p =>
    rw [List.take_zero, Segments.patch_nil]
    exact ⟨w, rfl, h⟩
  | @turn p n size rest hn hsize hrest ih =>
    have hpos := turn_size_pos hm hn hsize
    have hmod := Nat.mod_lt p hm
    have hwrite := writeChunk_run dbType hm data hn hsize hlong h (hwritable (by omega))
      (fun ht => hfile ht (by omega)) (by omega)
    have hlength : ((data.drop position).take size).length = size := by
      rw [List.length_take, List.length_drop]
      omega
    have hin : p % m + ((data.drop position).take size).length ≤ m := by omega
    have hrest : position + size + (n - size) ≤ data.length := by omega
    obtain ⟨w', hrun, hheld⟩ := ih (by omega) (h.put hin)
      (fun hleft => ((hwritable (by omega)).next hm hn hsize hleft).2)
      (fun ht hleft => absurd ht ((hwritable (by omega)).next (g := f) hm hn hsize hleft).1) hrest
    refine ⟨w', (bind_ok hwrite).trans hrun, ?_⟩
    have hjoin : (data.drop position).take size ++ (data.drop (position + size)).take (n - size) =
        (data.drop position).take n := by
      rw [← List.drop_drop, ← List.take_add, show size + (n - size) = n by omega]
    have hpatch := Segments.patch_patch f p ((data.drop position).take size) ((data.drop (position + size)).take (n - size))
    rw [hlength, hjoin] at hpatch
    rwa [hpatch] at hheld

/-! ## Deletes -/

/-- The chunks of a request are those from the first to the last byte. -/
theorem Chunked.mem_index (hm : 0 < m) (hchunked : Chunked m p n pieces) (s : Nat) :
    s ∈ pieces.map Piece.index ↔ 0 < n ∧ p / m ≤ s ∧ s ≤ (p + n - 1) / m := by
  induction hchunked with
  | done => simp
  | @turn p n size rest hn hsize hrest ih =>
    have hpos := turn_size_pos hm hn hsize
    have hle : p / m ≤ (p + n - 1) / m := Nat.div_le_div_right (by omega)
    rw [List.map_cons, List.mem_cons, ih]
    by_cases hleft : n - size = 0
    · have hlast : (p + n - 1) / m = p / m :=
        (@Segments.div_mod_of_mem m p n _ (by have hmod := Nat.mod_lt p hm; omega) (by omega) (by omega)).1
      dsimp only
      omega
    · have hnext : (p + size) / m = p / m + 1 := by
        rw [(turn_full hm hsize hleft).2, Nat.mul_div_cancel _ hm]
      rw [hnext, show p + size + (n - size) - 1 = p + n - 1 by omega]
      dsimp only
      omega

/-- A file without the chunks of a request. -/
def erase (m p n : Nat) (f : Nat → Option UInt8) : Nat → Option UInt8 :=
  fun o => if p / m ≤ o / m ∧ o / m ≤ (p + n - 1) / m then none else f o

theorem removeChunks_run (t : IoClientType) (dbType : Nat) (objs : List DataDescriptor) (w : Backends) :
    removeChunks t dbType objs w =
      .ok () fun t' key => if t' = t ∧ key ∈ objs.map DataDescriptor.id then none else w t' key := by
  induction objs generalizing w with
  | nil =>
    rw [show (fun t' key => if t' = t ∧ key ∈ ([] : List DataDescriptor).map DataDescriptor.id then none
      else w t' key) = w from funext fun t' => funext fun key => if_neg fun h => List.not_mem_nil h.2]
    rfl
  | cons obj objs ih =>
    refine (bind_ok (discard_ok (remove_run t _ w))).trans ((ih _).trans ?_)
    congr 1
    funext t' key
    rw [List.map_cons, Backends.put]
    by_cases ht : t' = t
    · by_cases hk : key = obj.id
      · simp [ht, hk]
      · simp [ht, hk]
    · simp [ht]

/-- What a delete does to the chunks of the file. -/
theorem Emulates.erase (hm : 0 < m) (hchunked : Chunked m p n pieces) (h : Emulates t m file f w) :
    Emulates t m file (Symbios.erase m p n f) fun t' key =>
      if t' = t ∧ key ∈ (pieces.map (Piece.descriptor file)).map DataDescriptor.id then none else w t' key := by
  refine Segments.Covers.mono h fun o b hb => ?_
  unfold Symbios.erase at hb
  split_ifs at hb with hout
  refine ⟨hb, if_neg fun hmem => ?_⟩
  obtain ⟨obj, hobj, hid⟩ := List.mem_map.mp hmem.2
  obtain ⟨c, hc, rfl⟩ := List.mem_map.mp hobj
  have hindex := (hchunked.mem_index hm (o / m)).mp (List.mem_map.mpr ⟨c, hc, objectId_injective file hid⟩)
  exact hout hindex.2

end pieces

/-! ## Requests -/

namespace LibCall

/-- The bytes that a call reads. -/
def reads (f : Nat → Option UInt8) (call : LibCall) : List UInt8 :=
  match call.opType with
  | .read => bytesOf f call.offset call.requestSize
  | _ => []

/-- The file after a call. -/
def after (m : Nat) (f : Nat → Option UInt8) (call : LibCall) : Nat → Option UInt8 :=
  match call.opType with
  | .read => f
  | .write => patch f call.offset ((call.data.getD []).take call.requestSize)
  | .delete => erase m call.offset call.requestSize f

/-- The calls that the storage client has the resources for. A write and a delete take at least one byte; what is
written is at `data`, and what is read has been written; offsets stay inside `long`, and a read below 2 GiB. -/
def Admissible (t : IoClientType) (m : Nat) (f : Nat → Option UInt8) (call : LibCall) : Prop :=
  call.offset + call.requestSize < 2 ^ 63 ∧
    match call.opType with
    | .read => call.requestSize < 2 ^ 31 ∧ AllThere f call.offset call.requestSize ∧
        (t = .mongoIo → m ∣ call.offset ∨ call.requestSize = 0)
    | .write => 0 < call.requestSize ∧ call.requestSize ≤ (call.data.getD []).length ∧
        Writable t m f call.offset call.requestSize
    | .delete => 0 < call.requestSize

/-- Every call is admissible when its turn comes. -/
def AllAdmissible (t : IoClientType) (m : Nat) : List LibCall → (Nat → Option UInt8) → Prop
  | [], _ => True
  | call :: calls, f => call.Admissible t m f ∧ AllAdmissible t m calls (call.after m f)

/-- What a run reads, and the file at its end. -/
def ideal (m : Nat) : List LibCall → (Nat → Option UInt8) → List (List UInt8) × (Nat → Option UInt8)
  | [], f => ([], f)
  | call :: calls, f => (call.reads f :: (ideal m calls (call.after m f)).1, (ideal m calls (call.after m f)).2)

end LibCall

/-- A handler in IRIS mode, with objects of `m` bytes at a client of type `t`. -/
structure Emulator (conf : ConfigurationManager) (lh : LibHandler) (t : IoClientType) (m : Nat) : Prop where
  iris : lh.libType = .iris
  backend : conf.backend lh.dbType = some t
  size : lh.maxObjSize % 2 ^ 32 = m
  size_pos : 0 < m

/-- The chunks of a request, and the pieces they are. -/
theorem LibHandler.mapRequest_chunked {lh : LibHandler} {m : Nat} (hsize : lh.maxObjSize % 2 ^ 32 = m) (hm : 0 < m) {p n : Nat}
    (hlong : p + n < 2 ^ 63) :
    ∃ pieces, Chunked m p n pieces ∧ lh.mapRequest p n = some (pieces.map (Piece.descriptor lh.file)) := by
  obtain ⟨pieces, hchunked⟩ := exists_chunked hm n p
  refine ⟨pieces, hchunked, ?_⟩
  rw [LibHandler.mapRequest, hsize]
  exact hchunked.chunks hm hlong lh.file n le_rfl

section iris

variable [Wire] {conf : ConfigurationManager} {env : Env} {lh : LibHandler} {t : IoClientType} {m : Nat} {w : Backends}
  {f : Nat → Option UInt8} {call : LibCall}

omit [Wire] in
theorem Emulator.client (hlh : Emulator conf lh t m) (w : Backends) :
    IoFactory.getIoClient conf lh.dbType w = .ok t w := by
  rw [IoFactory.getIoClient, hlh.backend]
  rfl

/-- Step: **a call in IRIS mode reads, writes or removes its bytes.** -/
theorem LibCall.run_iris (env : Env) (hlh : Emulator conf lh t m) (hprint : lh.printP = false) (h : Emulates t m lh.file f w)
    (hadmissible : call.Admissible t m f) (draw : Nat) :
    ∃ ran w', lh.run conf env draw call.opType call.offset call.requestSize call.data w = .ok (some ran) w' ∧
      ran.buffers.flatten = call.reads f ∧ ran.data = call.data ∧ Emulates t m lh.file (call.after m f) w' := by
  obtain ⟨op, p, n, data⟩ := call
  obtain ⟨hlong, hcall⟩ := hadmissible
  obtain ⟨pieces, hchunked, hmap⟩ := LibHandler.mapRequest_chunked hlh.size hlh.size_pos hlong
  cases op with
  | read =>
    obtain ⟨hint, hthere, hmongo⟩ := hcall
    obtain ⟨buffers, hrun, hflatten⟩ := readChunks_run lh.dbType hlh.size_pos hchunked h hthere hmongo hlong
      (Nat.zero_add n) hint
    refine ⟨{ buffers, data }, w, ?_, hflatten, rfl, h⟩
    show lh.read conf env p n data w = _
    rw [LibHandler.read, hmap, hlh.iris]
    dsimp only
    rw [bind_ok (hlh.client w), hprint]
    exact bind_ok hrun
  | write =>
    obtain ⟨hn, hdata, hwritable⟩ := hcall
    obtain ⟨w', hrun, hheld⟩ := writeChunks_run lh.dbType hlh.size_pos hchunked hlong h (fun _ => hwritable)
      (fun _ _ => rfl) ((Nat.zero_add n).le.trans hdata)
    have hwrite : doMappedWrite t lh.dbType lh.maxObjSize lh.file p n (data.getD []) w = .ok () w' := by
      rw [doMappedWrite, show DataMapper.map (lh.maxObjSize % 2 ^ 32) { id := lh.file, position := p, size := n } = _ from hmap]
      obtain ⟨c, rest, rfl⟩ := List.exists_cons_of_ne_nil (hchunked.length_pos hn)
      exact hrun
    refine ⟨{ data }, w', ?_, rfl, rfl, hheld⟩
    show lh.write conf env draw p n data w = _
    rw [LibHandler.write, hlh.iris]
    exact (bind_ok (hlh.client w)).trans (bind_ok hwrite)
  | delete =>
    refine ⟨{ data }, _, ?_, rfl, rfl, h.erase hlh.size_pos hchunked⟩
    show lh.delete conf env p n data w = _
    rw [LibHandler.delete, hmap]
    obtain ⟨c, rest, rfl⟩ := List.exists_cons_of_ne_nil (hchunked.length_pos hcall)
    rw [List.map_cons, hlh.iris]
    dsimp only
    rw [bind_ok (hlh.client w)]
    exact bind_ok (removeChunks_run t lh.dbType _ w)

/-- Run: **a handler in IRIS mode is a file**, through whichever storage client, from the first call to the last. -/
theorem runAll_iris (env : Env) (hlh : Emulator conf lh t m) (hprint : lh.printP = false) (h : Emulates t m lh.file f w)
    (draws : Nat → Nat) (calls : List LibCall) (n : Nat) (hadmissible : LibCall.AllAdmissible t m calls f) :
    ∃ rans w', lh.runAll conf env draws calls n w = .ok (some rans) w' ∧
      rans.map (fun ran => ran.buffers.flatten) = (LibCall.ideal m calls f).1 ∧
      rans.map Ran.data = calls.map LibCall.data ∧ Emulates t m lh.file (LibCall.ideal m calls f).2 w' := by
  induction calls generalizing f w n with
  | nil => exact ⟨[], w, rfl, rfl, rfl, h⟩
  | cons call calls ih =>
    obtain ⟨ran, w₁, hrun, hreads, hdata, hheld⟩ := call.run_iris env hlh hprint h hadmissible.1 (draws n)
    obtain ⟨rans, w₂, hrest, hreads', hdata', hheld'⟩ := ih hheld (n + 1) hadmissible.2
    refine ⟨ran :: rans, w₂, (bind_ok hrun).trans (bind_ok hrest), ?_, ?_, hheld'⟩
    · rw [List.map_cons, hreads, hreads']
      rfl
    · rw [List.map_cons, hdata, hdata', List.map_cons]

omit [Wire] in
/-- Only a delete depends on where the chunks end. -/
theorem LibCall.ideal_congr {m' : Nat} {calls : List LibCall} (h : m = m' ∨ ∀ call ∈ calls, call.opType ≠ .delete)
    (f : Nat → Option UInt8) : LibCall.ideal m calls f = LibCall.ideal m' calls f := by
  induction calls generalizing f with
  | nil => rfl
  | cons call calls ih =>
    have hafter : call.after m f = call.after m' f := by
      rcases h with rfl | h
      · rfl
      · unfold LibCall.after
        cases hop : call.opType with
        | read => rfl
        | write => rfl
        | delete => exact absurd hop (h call List.mem_cons_self)
    rw [LibCall.ideal, LibCall.ideal, hafter, ih (h.imp id fun h call hcall => h call (List.mem_cons_of_mem _ hcall))]

end iris

/-! ## Deletes in a row -/

/-- A call takes this key away. -/
def LibCall.Removes (m : Nat) (file : CharStruct) (call : LibCall) (key : CharStruct) : Prop :=
  ∃ s, call.offset / m ≤ s ∧ s ≤ (call.offset + call.requestSize - 1) / m ∧ key = objectId file s

open Classical in
/-- What the deletes of a run leave. -/
noncomputable def withoutKeys (t : IoClientType) (m : Nat) (file : CharStruct) (calls : List LibCall) (w : Backends) :
    Backends :=
  fun t' key => if t' = t ∧ ∃ call ∈ calls, call.Removes m file key then none else w t' key

section deletes

variable [Wire] {conf : ConfigurationManager} {lh : LibHandler} {t : IoClientType} {m : Nat}

theorem LibCall.run_delete (env : Env) (hlh : Emulator conf lh t m) {call : LibCall} (hop : call.opType = .delete)
    (hpos : 0 < call.requestSize) (hlong : call.offset + call.requestSize < 2 ^ 63) (draw : Nat) (w : Backends) :
    lh.run conf env draw call.opType call.offset call.requestSize call.data w =
      .ok (some { data := call.data }) (withoutKeys t m lh.file [call] w) := by
  classical
  obtain ⟨pieces, hchunked, hmap⟩ := LibHandler.mapRequest_chunked hlh.size hlh.size_pos hlong
  have hstate : withoutKeys t m lh.file [call] w = fun t' key =>
      if t' = t ∧ key ∈ (pieces.map (Piece.descriptor lh.file)).map DataDescriptor.id then none else w t' key := by
    funext t' key
    refine if_congr (and_congr_right fun _ => ?_) rfl rfl
    rw [List.map_map, List.mem_map]
    constructor
    · rintro ⟨c, hc, s, hle, hge, rfl⟩
      obtain rfl := List.mem_singleton.mp hc
      obtain ⟨piece, hpiece, rfl⟩ := List.mem_map.mp ((hchunked.mem_index hlh.size_pos s).mpr ⟨hpos, hle, hge⟩)
      exact ⟨piece, hpiece, rfl⟩
    · rintro ⟨piece, hpiece, rfl⟩
      obtain ⟨-, hle, hge⟩ := (hchunked.mem_index hlh.size_pos piece.index).mp (List.mem_map_of_mem hpiece)
      exact ⟨call, List.mem_singleton_self call, piece.index, hle, hge, rfl⟩
  rw [hop, hstate]
  show lh.delete conf env call.offset call.requestSize call.data w = _
  rw [LibHandler.delete, hmap]
  obtain ⟨c, rest, rfl⟩ := List.exists_cons_of_ne_nil (hchunked.length_pos hpos)
  rw [List.map_cons, hlh.iris]
  exact (bind_ok (hlh.client w)).trans (bind_ok (removeChunks_run t lh.dbType _ w))

omit [Wire] in
theorem withoutKeys_cons (t : IoClientType) (m : Nat) (file : CharStruct) (call : LibCall) (calls : List LibCall)
    (w : Backends) : withoutKeys t m file calls (withoutKeys t m file [call] w) = withoutKeys t m file (call :: calls) w := by
  funext t' key
  by_cases hrest : t' = t ∧ ∃ c ∈ calls, c.Removes m file key
  · obtain ⟨ht, c, hc, hkey⟩ := hrest
    exact (if_pos ⟨ht, c, hc, hkey⟩).trans (if_pos ⟨ht, c, List.mem_cons_of_mem _ hc, hkey⟩).symm
  · refine (if_neg hrest).trans ?_
    by_cases hfirst : t' = t ∧ call.Removes m file key
    · exact (if_pos ⟨hfirst.1, call, List.mem_singleton_self call, hfirst.2⟩).trans
        (if_pos ⟨hfirst.1, call, List.mem_cons_self, hfirst.2⟩).symm
    · refine (if_neg ?_).trans (if_neg ?_).symm
      · rintro ⟨ht, c, hc, hkey⟩
        exact hfirst ⟨ht, List.mem_singleton.mp hc ▸ hkey⟩
      · rintro ⟨ht, c, hc, hkey⟩
        rcases List.mem_cons.mp hc with rfl | hc
        · exact hfirst ⟨ht, hkey⟩
        · exact hrest ⟨ht, c, hc, hkey⟩

theorem runAll_deletes (env : Env) (hlh : Emulator conf lh t m) (draws : Nat → Nat) {calls : List LibCall}
    (hcalls : ∀ call ∈ calls, call.opType = .delete ∧ 0 < call.requestSize ∧ call.offset + call.requestSize < 2 ^ 63)
    (n : Nat) (w : Backends) :
    ∃ rans, lh.runAll conf env draws calls n w = .ok (some rans) (withoutKeys t m lh.file calls w) := by
  induction calls generalizing n w with
  | nil =>
    have hnone : withoutKeys t m lh.file [] w = w := by
      funext t' key
      exact if_neg fun h => by simp at h
    rw [hnone]
    exact ⟨[], rfl⟩
  | cons call calls ih =>
    obtain ⟨hop, hpos, hlong⟩ := hcalls call List.mem_cons_self
    obtain ⟨rans, hrest⟩ := ih (fun call' hcall' => hcalls call' (List.mem_cons_of_mem _ hcall')) (n + 1)
      (withoutKeys t m lh.file [call] w)
    rw [withoutKeys_cons] at hrest
    exact ⟨_, (bind_ok (call.run_delete env hlh hop hpos hlong (draws n) w)).trans (bind_ok hrest)⟩

end deletes

/-! ## Printing -/

/-- What Redis and a file read with a size is as long as the size. -/
theorem read_length_le {t : IoClientType} (ht : t ≠ .mongoIo) {source destination d : Data} {w w' : Backends}
    (hsize : 0 < source.dataSize) (hdestination : destination.position = 0)
    (h : IoClient.read t source destination w = .ok d w') : (d.buffer.getD []).length ≤ source.dataSize := by
  cases hv : w t source.id with
  | none =>
    rw [read_absent t destination hv] at h
    cases h
  | some v =>
    have hobject : objectRequest v source = source.dataSize := if_neg (by omega)
    have hfile : fileRequest v source = source.dataSize := if_neg (by omega)
    cases t with
    | fileIo =>
      rw [fileRead_eq hv, hfile, hdestination, List.replicate_zero, List.nil_append] at h
      split_ifs at h
      rw [← (Result.ok.inj h).1, Option.getD_some]
      exact List.length_take_le _ _
    | redisIo =>
      rw [redisRead_eq hv, hobject] at h
      split_ifs at h
      rw [← (Result.ok.inj h).1, Option.getD_some]
      exact List.length_take_le _ _
    | mongoIo => exact absurd rfl ht

/-- **A handler that prints completes no read of at least one byte**, over files and over Redis, whatever is stored: the
zero behind the first chunk is written behind its buffer. -/
theorem print_undefined [Wire] {conf : ConfigurationManager} {lh : LibHandler} {t : IoClientType} {m : Nat}
    (hlh : Emulator conf lh t m) (ht : t ≠ .mongoIo) (hprint : lh.printP = true) {p n : Nat} (hn : 0 < n)
    (hlong : p + n < 2 ^ 63) (env : Env) (draw : Nat) (data : Option (List UInt8)) (w : Backends) (ran : Option Ran)
    (w' : Backends) : lh.run conf env draw .read p n data w ≠ .ok ran w' := by
  intro h
  obtain ⟨pieces, hchunked, hmap⟩ := LibHandler.mapRequest_chunked hlh.size hlh.size_pos hlong
  obtain ⟨c, rest, rfl⟩ := List.exists_cons_of_ne_nil (hchunked.length_pos hn)
  have hrun : lh.read conf env p n data w = .ok ran w' := h
  rw [LibHandler.read, hmap, hlh.iris] at hrun
  dsimp only at hrun
  rw [bind_ok (hlh.client w), hprint] at hrun
  obtain ⟨buffers, w₁, hchunks, -⟩ := bind_eq_ok hrun
  rw [List.map_cons, readChunks] at hchunks
  obtain ⟨d, w₂, hread, hzero⟩ := bind_eq_ok hchunks
  have hle := read_length_le ht (hchunked.size_pos hlh.size_pos c List.mem_cons_self) rfl hread
  dsimp only at hzero
  rw [if_pos ⟨rfl, hle⟩] at hzero
  cases hzero

/-! ## Over Symbios -/

section symbios

open Steps (FileHeld)

variable [Wire] {conf : ConfigurationManager} {lh : LibHandler} {w : Backends} {file : Option (List UInt8)} {m : Nat}
  {call : LibCall}

/-- The bytes behind `data_size_` do not cross the wire. -/
theorem transfer_front {d : Data} {buffer : List UInt8} (hbuffer : d.buffer = some buffer) (hsize : 0 < d.dataSize)
    (hle : d.dataSize ≤ buffer.length) (w : Backends) :
    Client.transfer d w = .ok { d with buffer := some (buffer.take d.dataSize) } w := by
  have hlength : (buffer.take d.dataSize).length = d.dataSize := by
    rw [List.length_take]
    omega
  have hportable : ({ d with buffer := some (buffer.take d.dataSize) } : Data).Portable :=
    Or.inr ⟨_, rfl, hlength, List.ne_nil_of_length_pos (by omega)⟩
  have hpack : d.pack = ({ d with buffer := some (buffer.take d.dataSize) } : Data).pack := by
    rw [Data.pack, Data.pack, hbuffer]
    dsimp only
    rw [List.take_take, min_self]
  have hslice : slice (some buffer) 0 d.dataSize w = .ok (buffer.take d.dataSize) w := by
    rw [slice_of_le (by rw [Option.getD_some]; omega), Option.getD_some, List.drop_zero]
  unfold Client.transfer
  rw [hbuffer]
  dsimp only
  rw [bind_ok (discard_ok hslice), hpack]
  exact received_pack hportable w

/-- A handler in SYMBIOS or NIOBE mode. -/
structure Forwarder (lh : LibHandler) (m : Nat) : Prop where
  symbios : lh.libType = .symbios ∨ lh.libType = .niobe
  first : lh.dbType = 0
  size : lh.maxObjSize % 2 ^ 32 = m
  size_pos : 0 < m

namespace LibCall

/-- The calls that the servers have the resources for, as `Request.Admissible` says, with the caller's buffer. -/
def Forwarded (conf : ConfigurationManager) (content : List UInt8) (call : LibCall) : Prop :=
  0 < call.requestSize ∧ call.requestSize ≤ (call.data.getD []).length ∧
    match call.opType with
    | .read => call.offset + call.requestSize ≤ content.length ∧
        ¬ (conf.maxObjSize ∣ call.offset + call.requestSize ∧ call.offset + call.requestSize < content.length) ∧
        (partSizes conf.maxObjSize call.offset call.requestSize).sum < 2 ^ 31
    | .write => call.offset ≤ content.length ∧ call.offset % conf.maxObjSize + call.requestSize ≤ conf.maxObjSize ∧
        call.offset + call.requestSize < 2 ^ 31
    | .delete => False

/-- The file after a call. -/
def extend (content : List UInt8) (call : LibCall) : List UInt8 :=
  match call.opType with
  | .write => Overlay.overlay 0 content call.offset ((call.data.getD []).take call.requestSize)
  | _ => content

/-- Every call is served when its turn comes. -/
def AllForwarded (conf : ConfigurationManager) : List LibCall → List UInt8 → Prop
  | [], _ => True
  | call :: calls, content => call.Forwarded conf content ∧ AllForwarded conf calls (call.extend content)

/-- What the caller finds in its buffer. -/
def seen (call : LibCall) (ran : Ran) : List UInt8 :=
  match call.opType with
  | .read => (ran.data.getD []).take call.requestSize
  | _ => []

omit [Wire] in
/-- The file as the bytes that are there. -/
theorem extend_after {content : List UInt8} (h : call.Forwarded conf content) (m : Nat) :
    (fun o => (call.extend content)[o]?) = call.after m fun o => content[o]? := by
  obtain ⟨op, p, n, data⟩ := call
  cases op with
  | read => rfl
  | delete => exact h.2.2.elim
  | write =>
    obtain ⟨-, -, hgap, -, -⟩ := h
    exact (Segments.patch_overlay 0 hgap _).symm

variable (hconf : conf.storageSolutions = [(0, .fileIo)])

include hconf

/-- A located range goes to the front of the caller's buffer. -/
theorem client_locate_into {source : Data} {buffer : List UInt8} (hbuffer : source.buffer = some buffer)
    (hdata : source.dataSize ≤ buffer.length) (hindex : source.storageIndex = 0) (hsize : 0 < source.dataSize)
    (h : FileHeld conf source.id file w) (hin : source.position + source.dataSize ≤ (file.getD []).length)
    (hend : ¬ (conf.maxObjSize ∣ source.position + source.dataSize ∧
      source.position + source.dataSize < (file.getD []).length))
    (hfits : (partSizes conf.maxObjSize source.position source.dataSize).sum < 2 ^ 31) :
    Client.locateRequest conf Env.calm source { source with position := 0 } w =
      .ok { source with
        position := 0
        buffer := some (((file.getD []).drop source.position).take source.dataSize ++ buffer.drop source.dataSize) } w := by
  have hlength : (((file.getD []).drop source.position).take source.dataSize).length = source.dataSize := by
    rw [List.length_take, List.length_drop]
    omega
  have hremote := transfer_front hbuffer hsize hdata w
  have hremote' := transfer_front (d := { source with position := 0 }) hbuffer hsize hdata w
  have hid : ({ source with buffer := some (buffer.take source.dataSize) } : Data).id = source.id := rfl
  have hlocate := h.locate hconf hid hindex hsize hin hend hfits
    { source with position := 0, buffer := some (buffer.take source.dataSize) }
  have hret : ({ source with
      position := 0, buffer := some (((file.getD []).drop source.position).take source.dataSize) } : Data).Portable :=
    Or.inr ⟨_, rfl, hlength, List.ne_nil_of_length_pos (by omega)⟩
  have hslice : slice (some (((file.getD []).drop source.position).take source.dataSize)) 0 source.dataSize w =
      .ok (((file.getD []).drop source.position).take source.dataSize) w := by
    rw [slice_of_le (by rw [Option.getD_some]; omega), Option.getD_some, List.drop_zero,
      List.take_of_length_le (by omega)]
  rw [Client.locateRequest, bind_ok hremote, bind_ok hremote', bind_ok hlocate]
  refine (bind_ok (transfer_portable hret w)).trans ((bind_ok hslice).trans ?_)
  rw [hbuffer]
  dsimp only
  rw [bind_ok (blit_of_le (by omega) w), Overlay.overlay_zero, hlength]
  rfl

/-- Step: **a call in SYMBIOS mode reads or writes its bytes.** -/
theorem run_symbios (hpolicy : conf.dataDistributionPolicy ≠ .dynamicProgrammingPolicy) (hlh : Forwarder lh m)
    (h : FileHeld conf lh.file file w) (hforwarded : call.Forwarded conf (file.getD [])) (draw : Nat) :
    ∃ ran w' file', lh.run conf Env.calm draw call.opType call.offset call.requestSize call.data w = .ok (some ran) w' ∧
      call.seen ran = call.reads (fun o => (file.getD [])[o]?) ∧ FileHeld conf lh.file file' w' ∧
      file'.getD [] = call.extend (file.getD []) := by
  obtain ⟨op, p, n, data⟩ := call
  obtain ⟨hn, hdata, hcall⟩ := hforwarded
  obtain ⟨buffer, rfl⟩ : ∃ buffer, data = some buffer := by
    cases data with
    | none => exact absurd (hn.trans_le hdata) (Nat.not_lt_zero _)
    | some buffer => exact ⟨buffer, rfl⟩
  cases op with
  | delete => exact hcall.elim
  | read =>
    obtain ⟨hin, hend, hfits⟩ := hcall
    have hsmall := h.small
    have hlong : p + n < 2 ^ 63 := hin.trans_lt (hsmall.trans (by norm_num))
    obtain ⟨pieces, -, hmap⟩ := LibHandler.mapRequest_chunked hlh.size hlh.size_pos hlong
    let source : Data := { buffer := some buffer, id := lh.file, position := p, dataSize := n, storageIndex := lh.dbType }
    have hbuffer : source.buffer = some buffer := rfl
    have hlocate := client_locate_into hconf hbuffer hdata hlh.first hn h hin hend hfits
    have hlength : (((file.getD []).drop p).take n).length = n := by
      rw [List.length_take, List.length_drop]
      exact min_eq_left (Nat.le_sub_of_add_le (Nat.add_comm p n ▸ hin))
    refine ⟨{ data := some (((file.getD []).drop p).take n ++ buffer.drop n) }, w, file, ?_, ?_, h, rfl⟩
    · show lh.read conf Env.calm p n (some buffer) w = _
      rw [LibHandler.read, hmap]
      rcases hlh.symbios with hmode | hmode
      · rw [hmode]
        exact bind_ok hlocate
      · rw [hmode]
        exact bind_ok hlocate
    · refine (List.take_left' hlength).trans (bytesOf_eq hlength fun k hk => ?_).symm
      rw [List.getElem?_take_of_lt hk, List.getElem?_drop]
  | write =>
    obtain ⟨hgap, hinside, hend⟩ := hcall
    let destination : Data := { id := lh.file, position := p, dataSize := n, storageIndex := lh.dbType }
    let source : Data := { destination with buffer := some buffer, position := 0 }
    let received : Data := { source with buffer := some (buffer.take n) }
    have hbytes : sourceBytes received = buffer.take n := by
      rw [sourceBytes, Option.getD_some, List.take_take, min_self]
    have hissued : IssuedStore conf lh.file received destination := by
      refine ⟨rfl, hlh.first, rfl, rfl, ?_, hinside⟩
      rw [Option.getD_some, List.length_take]
      exact le_min le_rfl hdata
    obtain ⟨w', hstore, hheld⟩ := h.store hconf hpolicy draw hissued hn hgap hend
    have hbuffer : source.buffer = some buffer := rfl
    have hforward : Client.storeRequest conf Env.calm draw source destination w = .ok () w' := by
      rw [Client.storeRequest, bind_ok (transfer_front hbuffer hn hdata w),
        bind_ok (transfer_portable (Or.inl rfl) w)]
      exact discard_ok hstore
    rw [hbytes] at hheld
    refine ⟨{ data := some buffer }, w', _, ?_, rfl, hheld, rfl⟩
    show lh.write conf Env.calm draw p n (some buffer) w = _
    rw [LibHandler.write]
    rcases hlh.symbios with hmode | hmode
    · rw [hmode]
      exact bind_ok hforward
    · rw [hmode]
      exact bind_ok hforward

end LibCall

end symbios

/-! ## Small handlers -/

/-- One Redis. -/
def oneRedis : ConfigurationManager := .config 4 [.redisIo] .randomPolicy fourBytes (by decide)

/-- A handler in IRIS mode with chunks of four bytes. -/
def fourByteChunks : LibHandler := { libType := .iris, dbType := 0, maxObjSize := 4, file := [0x66] }

/-- The same file in chunks of eight bytes. -/
def eightByteChunks : LibHandler := { libType := .iris, dbType := 0, maxObjSize := 8, file := [0x66] }

/-- Six bytes are written and the four in the middle are read. -/
def sixBytes : List LibCall := [⟨.write, 0, 6, some [1, 2, 3, 4, 5, 6]⟩, ⟨.read, 1, 4, none⟩]

theorem sixBytes_admissible {t : IoClientType} {m : Nat} (ht : t ≠ .mongoIo)
    (hwritable : Writable t m (fun _ => none) 0 6) : LibCall.AllAdmissible t m sixBytes fun _ => none := by
  refine ⟨⟨by decide, by decide, by decide, hwritable⟩,
    ⟨by decide, by decide, fun o hle hlt => ?_, fun h => absurd h ht⟩, trivial⟩
  obtain rfl | rfl | rfl | rfl : o = 1 ∨ o = 2 ∨ o = 3 ∨ o = 4 := by
    dsimp only at hle hlt
    omega
  all_goals rfl

/-- The handler of the unit test prints what it reads. -/
theorem print_undefined_fourBytes : ¬ ∃ ran w', ({ fourByteChunks with printP := true } : LibHandler).run oneRedis
    Env.calm 0 .read 0 4 none (fun _ _ => some [1, 2, 3, 4]) = .ok ran w' := by
  rintro ⟨ran, w', h⟩
  have hlh : Emulator oneRedis { fourByteChunks with printP := true } .redisIo 4 := ⟨rfl, rfl, rfl, by decide⟩
  exact print_undefined hlh (by decide) rfl (by decide) (by decide) Env.calm 0 none _ ran w' h

/-- The same file over Symbios. -/
def throughSymbios : LibHandler := { libType := .symbios, dbType := 0, maxObjSize := 4, file := [0x66] }

/-- Three bytes are written and the last two of them read. -/
def threeBytes : List LibCall := [⟨.write, 0, 3, some [1, 2, 3]⟩, ⟨.read, 1, 2, some [0, 0]⟩]

end Symbios
