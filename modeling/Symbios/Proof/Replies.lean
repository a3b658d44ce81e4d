import Symbios.Proof.Allocation
import Symbios.Proof.Isolation
import Symbios.Proof.Reads

/-!
# The length of a reply

`Server::Locate` returns the `data_size_` of its destination, whatever it has assembled. The two agree when the
destination asks for the linked part of the range (`RangeAnswerable`), or for the length of the file when the request is
for the whole file (`WholeAnswerable`). Every part then raises or fills its place (`Yields`).
-/

namespace Symbios

open EStateM MetadataOrchestrator

/-! ## Parts that raise or fill their place -/

/-- The read of a distribution. -/
def readPart (conf : ConfigurationManager) (d : DataDistribution) : Prog Data :=
  IoFactory.read conf Env.calm d.destinationData.storageIndex d.sourceData d.destinationData

/-- The read raises an `ErrorException`. -/
def RaisesPart (conf : ConfigurationManager) (w : Backends) (d : DataDistribution) : Prop :=
  ∃ code, readPart conf d w = .error (.error code) w

/-- The read returns a part with `bytes` behind its position. -/
def Yields (conf : ConfigurationManager) (w : Backends) (d : DataDistribution) (bytes : List UInt8) : Prop :=
  ∃ part, readPart conf d w = .ok part w ∧ Server.window part w = .ok bytes w ∧
    part.dataSize = d.destinationData.position + bytes.length

section assembly

variable {conf : ConfigurationManager} {w : Backends} {Y : DataDistribution → List UInt8 → Prop}
  (hY : ∀ d bytes, Y d bytes → Yields conf w d bytes)

include hY

/-- Reads that do not go wrong raise, or all of them return. -/
theorem mapM_readPart {ds : List DataDistribution} (h : ∀ d ∈ ds, RaisesPart conf w d ∨ ∃ bytes, Y d bytes) :
    (∃ code, ds.mapM (readPart conf) w = .error (.error code) w) ∨
      ∃ parts chunks, ds.mapM (readPart conf) w = .ok parts w ∧ parts.mapM Server.window w = .ok chunks w ∧
        List.Forall₂ Y ds chunks ∧
        parts.map (·.dataSize) = List.zipWith (fun d bytes => d.destinationData.position + bytes.length) ds chunks := by
  induction ds with
  | nil => exact Or.inr ⟨[], [], rfl, rfl, .nil, rfl⟩
  | cons d ds ih =>
    rcases h d (by simp) with ⟨code, hcode⟩ | ⟨bytes, hbytes⟩
    · left
      refine ⟨code, ?_⟩
      rw [List.mapM_cons, bind_error hcode]
    obtain ⟨part, hread, hwindow, hsize⟩ := hY d bytes hbytes
    rcases ih fun d' hd' => h d' (by simp [hd']) with ⟨code, hcode⟩ | ⟨parts, chunks, hparts, hchunks, hyields, hsizes⟩
    · left
      refine ⟨code, ?_⟩
      rw [List.mapM_cons, bind_ok hread, bind_error hcode]
    · right
      refine ⟨part :: parts, bytes :: chunks, ?_, ?_, .cons hbytes hyields, ?_⟩
      · rw [List.mapM_cons, bind_ok hread, bind_ok hparts]
        rfl
      · rw [List.mapM_cons, bind_ok hwindow, bind_ok hchunks]
        rfl
      · rw [List.map_cons, hsizes, hsize]
        rfl

/-- `Server::Locate` of such parts raises, or returns what they hold. -/
theorem server_locate_parts [Wire] {source destination : Data} {ds : List DataDistribution} {m : Metadata}
    (hlocate : MetadataOrchestrator.locate conf Env.calm source w = .ok (ds, m) w)
    (h : ∀ d ∈ ds, RaisesPart conf w d ∨ ∃ bytes, Y d bytes)
    (hfits : ∀ chunks, List.Forall₂ Y ds chunks → (chunks.flatten.length : Int) ≤
      Server.totalSize (List.zipWith (fun d bytes => d.destinationData.position + bytes.length) ds chunks)) :
    (∃ code, Server.locate conf Env.calm source destination w = .error (.error code) w) ∨
      ∃ chunks, List.Forall₂ Y ds chunks ∧
        Server.locate conf Env.calm source destination w = .ok { destination with buffer := some chunks.flatten } w := by
  rcases mapM_readPart hY h with ⟨code, hcode⟩ | ⟨parts, chunks, hparts, hchunks, hyields, hsizes⟩
  · exact Or.inl ⟨code, (bind_ok hlocate).trans (bind_error hcode)⟩
  · refine Or.inr ⟨chunks, hyields, ?_⟩
    have hreads : ds.mapM (fun d => IoFactory.read conf Env.calm d.destinationData.storageIndex d.sourceData
      d.destinationData) w = .ok parts w := hparts
    rw [Server.locate, bind_ok hlocate, bind_ok hreads, bind_ok hchunks, hsizes, if_pos (hfits chunks hyields)]
    rfl

end assembly

/-! ## One part -/

/-- The read of `size` bytes at `offset` of a value, for the place `position` of the reply, raises or fills its place:
only the file client puts bytes anywhere but at the start of its buffer, and the others copy what the value does not
have. -/
def Deliverable (t : IoClientType) (value : Option (List UInt8)) (offset size position : Nat) : Prop :=
  match t, value with
  | _, none => True
  | .fileIo, some _ => True
  | .redisIo, some v => v.length < size ∨ position = 0 ∧ offset + size ≤ v.length + 1
  | .mongoIo, some v => position = 0 ∧ offset ≤ size ∧ size ≤ v.length + 1

section part

variable {conf : ConfigurationManager} {w : Backends} {t : IoClientType} {link : Data} {offset size : Nat} {position : Int}

theorem readPart_eq (ht : conf.backend link.storageIndex = some t) :
    readPart conf (tileAt link offset size position) = IoClient.read t { link with position := offset, dataSize := size }
      { link with position := toSize position, dataSize := size } :=
  IoFactory.read_eq ht rfl _

theorem tileAt_absent (ht : conf.backend link.storageIndex = some t) (h : w t link.id = none) :
    RaisesPart conf w (tileAt link offset size position) := by
  refine ⟨absentError t, ?_⟩
  rw [readPart_eq ht]
  exact read_absent t _ h

/-- A part that is returned with its bytes behind its position. -/
theorem tileAt_returns {bytes buffer : List UInt8} {n : Nat} (ht : conf.backend link.storageIndex = some t)
    (hread : IoClient.read t { link with position := offset, dataSize := size }
      { link with position := toSize position, dataSize := size } w = .ok
        { link with position := toSize position, buffer := some buffer, dataSize := n } w)
    (hbuffer : buffer.drop (toSize position) = bytes) (hle : toSize position ≤ buffer.length) (hn : n = buffer.length) :
    Yields conf w (tileAt link offset size position) bytes := by
  have hlength := congrArg List.length hbuffer
  rw [List.length_drop] at hlength
  refine ⟨_, (congrFun (readPart_eq ht) w).trans hread, ?_, ?_⟩
  · rw [window_eq]
    dsimp only
    rw [Option.getD_some, if_pos (by omega), hn, hlength, hbuffer, List.take_length]
  · show n = toSize position + bytes.length
    omega

theorem file_yields (ht : conf.backend link.storageIndex = some .fileIo) (hsize : 0 < size) (hoffset : offset < 2 ^ 63)
    (hposition : toSize position < 2 ^ 63) :
    RaisesPart conf w (tileAt link offset size position) ∨
      ∃ bytes, Yields conf w (tileAt link offset size position) bytes ∧ bytes.length = size := by
  cases hv : w .fileIo link.id with
  | none => exact Or.inl (tileAt_absent ht hv)
  | some v =>
    have hread := @fileRead_eq v { link with position := offset, dataSize := size } w hv
      { link with position := toSize position, dataSize := size }
    have hrequest : fileRequest v { link with position := offset, dataSize := size } = size :=
      if_neg (Nat.pos_iff_ne_zero.mp hsize)
    rw [hrequest, if_neg (not_le.mpr hoffset), if_neg (fun h => absurd h.2 (not_le.mpr hposition))] at hread
    by_cases hlength : ((v.drop offset).take size).length = size
    · rw [if_pos hlength] at hread
      exact Or.inr ⟨_, tileAt_returns ht hread (by simp) (by simp) (by simp), hlength⟩
    · rw [if_neg hlength] at hread
      exact Or.inl ⟨_, (congrFun (readPart_eq ht) w).trans hread⟩

theorem redis_yields (ht : conf.backend link.storageIndex = some .redisIo) (hsize : 0 < size)
    (h : Deliverable .redisIo (w .redisIo link.id) offset size (toSize position)) :
    RaisesPart conf w (tileAt link offset size position) ∨
      ∃ bytes, Yields conf w (tileAt link offset size position) bytes ∧ bytes.length = size := by
  cases hv : w .redisIo link.id with
  | none => exact Or.inl (tileAt_absent ht hv)
  | some v =>
    have hread := @redisRead_eq v { link with position := offset, dataSize := size } w hv
      { link with position := toSize position, dataSize := size }
    have hrequest : objectRequest v { link with position := offset, dataSize := size } = size :=
      if_neg (Nat.pos_iff_ne_zero.mp hsize)
    rw [hrequest] at hread
    by_cases hshort : v.length < size
    · rw [if_pos hshort] at hread
      exact Or.inl ⟨_, (congrFun (readPart_eq ht) w).trans hread⟩
    · rw [hv] at h
      obtain ⟨hzero, hin⟩ := Or.resolve_left h hshort
      have hlength : (((v ++ [0]).drop offset).take size).length = size := by
        simp only [List.length_take, List.length_drop, List.length_append, List.length_singleton]
        omega
      rw [if_neg hshort, if_pos hin] at hread
      exact Or.inr ⟨_, tileAt_returns ht hread (by rw [hzero]; rfl) (by omega) hlength.symm, hlength⟩

theorem mongo_yields (ht : conf.backend link.storageIndex = some .mongoIo) (hsize : 0 < size)
    (h : Deliverable .mongoIo (w .mongoIo link.id) offset size (toSize position)) :
    RaisesPart conf w (tileAt link offset size position) ∨
      ∃ bytes, Yields conf w (tileAt link offset size position) bytes ∧ bytes.length = size := by
  cases hv : w .mongoIo link.id with
  | none => exact Or.inl (tileAt_absent ht hv)
  | some v =>
    rw [hv] at h
    obtain ⟨hzero, hoffset, hin⟩ := h
    have hread := @mongoRead_eq v { link with position := offset, dataSize := size } w hv
      { link with position := toSize position, dataSize := size }
    have hrequest : objectRequest v { link with position := offset, dataSize := size } = size :=
      if_neg (Nat.pos_iff_ne_zero.mp hsize)
    have hcount : subSize size offset = size - offset := if_pos hoffset
    rw [hrequest, hcount, if_pos (show offset + (size - offset) ≤ v.length + 1 by omega)] at hread
    have hlength : (((v ++ [0]).drop offset).take (size - offset) ++ List.replicate offset 0).length = size := by
      simp only [List.length_take, List.length_drop, List.length_append, List.length_singleton, List.length_replicate]
      omega
    exact Or.inr ⟨_, tileAt_returns ht hread (by rw [hzero]; rfl) (by omega) hlength.symm, hlength⟩

theorem tileAt_yields (ht : conf.backend link.storageIndex = some t) (hsize : 0 < size) (hoffset : offset < 2 ^ 63)
    (hposition : toSize position < 2 ^ 63) (h : Deliverable t (w t link.id) offset size (toSize position)) :
    RaisesPart conf w (tileAt link offset size position) ∨
      ∃ bytes, Yields conf w (tileAt link offset size position) bytes ∧ bytes.length = size := by
  cases t with
  | fileIo => exact file_yields ht hsize hoffset hposition
  | redisIo => exact redis_yields ht hsize h
  | mongoIo => exact mongo_yields ht hsize h

/-- Without a size every client reads the whole value. -/
theorem wholeObject_yields (ht : conf.backend link.storageIndex = some t) {v : List UInt8} (hv : w t link.id = some v) :
    Yields conf w (tileAt link 0 0 0) v := by
  cases t with
  | fileIo =>
    have hread := @fileRead_eq v { link with position := 0, dataSize := 0 } w hv
      { link with position := 0, dataSize := 0 }
    have hrequest : fileRequest v { link with position := 0, dataSize := 0 } = v.length := by
      rw [fileRequest_start rfl]
      rfl
    rw [hrequest] at hread
    dsimp only at hread
    rw [if_neg (by decide), if_neg (fun h => absurd h.2 (by decide)), List.drop_zero, List.take_length, if_pos rfl] at hread
    exact tileAt_returns ht hread rfl (Nat.zero_le _) (by simp)
  | redisIo =>
    have hread := @redisRead_eq v { link with position := 0, dataSize := 0 } w hv
      { link with position := 0, dataSize := 0 }
    have hrequest : objectRequest v { link with position := 0, dataSize := 0 } = v.length := rfl
    rw [hrequest] at hread
    dsimp only at hread
    rw [if_neg (lt_irrefl _), if_pos (by omega), List.drop_zero, List.take_left] at hread
    exact tileAt_returns ht hread rfl (Nat.zero_le _) rfl
  | mongoIo =>
    have hread := @mongoRead_eq v { link with position := 0, dataSize := 0 } w hv
      { link with position := 0, dataSize := 0 }
    have hrequest : objectRequest v { link with position := 0, dataSize := 0 } = v.length := rfl
    have hcount : subSize v.length 0 = v.length := rfl
    rw [hrequest] at hread
    dsimp only at hread
    rw [hcount, if_pos (by omega), List.drop_zero, List.take_left, List.replicate_zero, List.append_nil] at hread
    exact tileAt_returns ht hread rfl (Nat.zero_le _) rfl

end part

/-! ## Ranges -/

section range

variable {maxObjSize : Nat} {links : Links} {p e start : Nat} {position : Int} {ds : List DataDistribution}

/-- The parts of a cut end where their segments or the range end. -/
theorem Cut.sizes (hM : 0 < maxObjSize) (hsmall : e - p < 2 ^ 31) (hcut : Cut maxObjSize links e start position ds) :
    p ≤ start → start < e → position = ((start - p : Nat) : Int) →
      ds.map (fun d => d.destinationData.position + partSize d) =
        (List.range ((e - 1) / maxObjSize - start / maxObjSize + 1)).map fun j =>
          min ((start / maxObjSize + j + 1) * maxObjSize) e - p := by
  induction hcut with
  | done =>
    intro _ hlt
    exact absurd hlt (lt_irrefl _)
  | @turn start size position link ds hstart hlink hsize hrest ih =>
    intro hp _ hposition
    subst hposition
    have hle := hrest.start_le
    rw [List.map_cons, tileAt_position, tileAt_size, toSize_natCast (by omega)]
    by_cases hmore : start + size < e
    · obtain rfl : size = maxObjSize - start % maxObjSize := by omega
      rw [ih (by omega) hmore, ends_cons hM hmore]
      · congr 1
        omega
      · rw [← Int.natCast_add, toInt_of_lt (by omega)]
        congr 1
        omega
    · rw [show start + size = e by omega] at hrest
      rw [hrest.eq_nil, ends_last hM hstart (by omega), List.map_nil]
      congr 1
      omega

/-- A range behind the last segment is cut like one that ends with it. -/
theorem tile_truncated (hM : 0 < maxObjSize) (endSegment endSegment' : Nat) :
    ∀ (rest : List Data) (i start left left' : Nat) (position : Int), start / maxObjSize = i →
      start + left' = (i + rest.length) * maxObjSize → (i + rest.length) * maxObjSize < 2 ^ 64 → left' ≤ left →
      i + rest.length ≤ endSegment + 1 → i + rest.length ≤ endSegment' + 1 →
      tile maxObjSize false endSegment rest i start left position =
        tile maxObjSize false endSegment' rest i start left' position
  | [], _, _, _, _, _, _, _, _, _, _, _ => rfl
  | link :: rest, i, start, left, left', position, hi, hleft, hlt, hle, hend, hend' => by
    have hnext := Segments.next_segment hM start
    have hdiv := Segments.next_segment_div hM start
    rw [List.length_cons] at hleft hlt hend hend'
    have hbound : (i + 1) * maxObjSize ≤ (i + (rest.length + 1)) * maxObjSize := Nat.mul_le_mul_right _ (by omega)
    rw [hi] at hnext hdiv
    have hsize : tileSize maxObjSize false start left = maxObjSize - start % maxObjSize := by
      rw [tileSize_eq]
      omega
    have hsize' : tileSize maxObjSize false start left' = maxObjSize - start % maxObjSize := by
      rw [tileSize_eq]
      omega
    rw [tile_cons, tile_cons, if_pos (Or.inr (by omega)), if_pos (Or.inr (by omega)), hsize, hsize']
    have hrec := tile_truncated hM endSegment endSegment' rest (i + 1) (start + (maxObjSize - start % maxObjSize))
      (left - (maxObjSize - start % maxObjSize)) (left' - (maxObjSize - start % maxObjSize))
      (toInt (position + (maxObjSize - start % maxObjSize : Nat))) hdiv
      (by rw [show i + 1 + rest.length = i + (rest.length + 1) by omega]; omega)
      (by rw [show i + 1 + rest.length = i + (rest.length + 1) by omega]; omega) (by omega) (by omega) (by omega)
    have hwrap : (start + (maxObjSize - start % maxObjSize)) % 2 ^ 64 = start + (maxObjSize - start % maxObjSize) :=
      Nat.mod_eq_of_lt (by omega)
    rw [hwrap, hrec]

section request

variable {conf : ConfigurationManager} {source : Data} (hsize : 0 < source.dataSize) (horder : InOrder links)
  (hlen : links.entries.length < 2 ^ 31) (hlt : source.position + source.dataSize < 2 ^ 64)
  (hstart : source.position < links.entries.length * conf.maxObjSize)

include hsize horder hlen hlt hstart

/-- A request that leaves the linked segments is tiled like the one up to their end. -/
theorem tiles_truncated (hout : links.entries.length * conf.maxObjSize ≤ source.position + source.dataSize) :
    tiles conf links source =
      tiles conf links { source with dataSize := links.entries.length * conf.maxObjSize - source.position } := by
  have hM := conf.maxObjSize_pos
  have hfirst : source.position / conf.maxObjSize < links.entries.length := (Nat.div_lt_iff_lt_mul hM).mpr hstart
  have hpositive : 0 ≤ toInt (source.position / conf.maxObjSize : Nat) := by
    rw [toInt_of_lt (by omega)]
    exact Int.natCast_nonneg _
  obtain ⟨array, harray⟩ := (linkArray_isSome_iff links).mpr horder
  have hreach : source.position + (links.entries.length * conf.maxObjSize - source.position) =
    links.entries.length * conf.maxObjSize := by omega
  have hcount : source.position / conf.maxObjSize + (array.drop (source.position / conf.maxObjSize)).length =
      links.entries.length := by
    rw [List.length_drop, linkArray_length harray]
    omega
  have hbehind : links.entries.length ≤ (source.position + source.dataSize) / conf.maxObjSize :=
    (Nat.le_div_iff_mul_le hM).mpr hout
  have hsame := @tiles_eq_tile links conf
    { source with dataSize := links.entries.length * conf.maxObjSize - source.position } (Nat.sub_pos_of_lt hstart) _
    harray hpositive
  rw [tiles_eq_tile hsize harray hpositive, hsame]
  dsimp only
  rw [hreach, Nat.mod_eq_of_lt hlt, Nat.mod_eq_of_lt (show links.entries.length * conf.maxObjSize < 2 ^ 64 by omega),
    Nat.mul_div_cancel _ hM, Nat.mod_eq_of_lt (show source.position / conf.maxObjSize < 2 ^ 32 by omega)]
  apply tile_truncated hM
  · rfl
  · rw [hcount, hreach]
  · rw [hcount]
    omega
  · omega
  · omega
  · omega

/-- The distributions of a request, as a cut of its linked part. -/
theorem tiles_cut_truncated (hend : ¬ (conf.maxObjSize ∣ source.position + source.dataSize ∧
      (source.position + source.dataSize) / conf.maxObjSize < links.entries.length)) :
    ∃ ds, tiles conf links source = some ds ∧ Cut conf.maxObjSize links
      (min (source.position + source.dataSize) (links.entries.length * conf.maxObjSize)) source.position 0 ds := by
  have hM := conf.maxObjSize_pos
  by_cases hin : source.position + source.dataSize ≤ links.entries.length * conf.maxObjSize
  · rw [min_eq_left hin]
    have hlast : (source.position + source.dataSize - 1) / conf.maxObjSize < links.entries.length :=
      (Nat.div_lt_iff_lt_mul hM).mpr (by omega)
    exact tiles_cut hsize horder hlt hlast (by omega) hend
  · rw [min_eq_right (not_le.mp hin).le, tiles_truncated hsize horder hlen hlt hstart (not_le.mp hin).le]
    have hcut := @tiles_cut links conf { source with dataSize := links.entries.length * conf.maxObjSize - source.position }
      (Nat.sub_pos_of_lt hstart) horder
    dsimp only at hcut
    rw [show source.position + (links.entries.length * conf.maxObjSize - source.position) =
      links.entries.length * conf.maxObjSize by omega, Nat.mul_div_cancel _ hM] at hcut
    have hlast : (links.entries.length * conf.maxObjSize - 1) / conf.maxObjSize < links.entries.length :=
      (Nat.div_lt_iff_lt_mul hM).mpr (by omega)
    exact hcut (by omega) hlast (by omega) fun h => lt_irrefl _ h.2

end request

/-- A part begins where the range does, or with a segment. -/
def Begins (maxObjSize p start : Nat) : Prop := start = p ∨ p ≤ start ∧ maxObjSize ∣ start

theorem Cut.yields {conf : ConfigurationManager} {w : Backends} (hsmall : e - p < 2 ^ 31)
    (hparts : ∀ start link, Begins conf.maxObjSize p start → start < e →
      links.lookup ((start / conf.maxObjSize : Nat) : Int) = some link →
      ∃ t, conf.backend link.storageIndex = some t ∧ Deliverable t (w t link.id) (start % conf.maxObjSize)
        (min (e - start) (conf.maxObjSize - start % conf.maxObjSize)) (start - p))
    (hcut : Cut conf.maxObjSize links e start position ds) :
    Begins conf.maxObjSize p start → position = ((start - p : Nat) : Int) →
      ∀ d ∈ ds, RaisesPart conf w d ∨ ∃ bytes, Yields conf w d bytes ∧ bytes.length = partSize d := by
  induction hcut with
  | done => simp
  | @turn start size position link ds hstart hlink hsize hrest ih =>
    intro hbegins hposition d hd
    subst hposition
    have hle := hrest.start_le
    have hoff := Nat.mod_lt start conf.maxObjSize_pos
    have hmax := conf.maxObjSize_lt
    have hp : p ≤ start := hbegins.elim (fun h => h ▸ le_rfl) fun h => h.1
    have hplace : toSize ((start - p : Nat) : Int) = start - p := toSize_natCast (by omega)
    rcases List.mem_cons.mp hd with rfl | hd
    · obtain ⟨t, ht, hdeliverable⟩ := hparts start link hbegins hstart hlink
      rw [← hsize, ← hplace] at hdeliverable
      exact tileAt_yields ht (by omega) (by omega) (by omega) hdeliverable
    · have hmore : start + size < e := by
        by_contra hnot
        rw [show start + size = e by omega] at hrest
        rw [hrest.eq_nil] at hd
        cases hd
      have hnext := cut_next conf.maxObjSize_pos hsize hmore
      apply ih (Or.inr ⟨by omega, ?_⟩) ?_ d hd
      · rw [hnext]
        exact Nat.dvd_mul_left _ _
      · rw [← Int.natCast_add, toInt_of_lt (by omega)]
        congr 1
        omega

end range

/-- The request is for a part of the file, the destination asks for what is linked of it, and every object of the range
can be read into its place. -/
structure RangeAnswerable (conf : ConfigurationManager) (w : Backends) (links : Links) (source destination : Data) :
    Prop where
  size_pos : 0 < source.dataSize
  end_lt : source.position + source.dataSize < 2 ^ 64
  start_lt : source.position / conf.maxObjSize < 2 ^ 32
  ends : ¬ (conf.maxObjSize ∣ source.position + source.dataSize ∧
    (source.position + source.dataSize) / conf.maxObjSize < links.entries.length)
  advertised : destination.dataSize =
    min (source.position + source.dataSize) (links.entries.length * conf.maxObjSize) - source.position
  fits : (partSizes conf.maxObjSize source.position destination.dataSize).sum < 2 ^ 31
  parts : ∀ start link, Begins conf.maxObjSize source.position start → start < source.position + destination.dataSize →
    links.lookup ((start / conf.maxObjSize : Nat) : Int) = some link →
    ∃ t, conf.backend link.storageIndex = some t ∧ Deliverable t (w t link.id) (start % conf.maxObjSize)
      (min (source.position + destination.dataSize - start) (conf.maxObjSize - start % conf.maxObjSize))
      (start - source.position)

/-- `Locate` raises, or its reply holds as many bytes as it says, with the property `P`. -/
def Replies [Wire] (conf : ConfigurationManager) (source destination : Data) (w : Backends) (P : List UInt8 → Prop) :
    Prop :=
  (∃ fault, fault ≠ .undefined ∧ Server.locate conf Env.calm source destination w = .error fault w) ∨
    ∃ bytes, Server.locate conf Env.calm source destination w = .ok { destination with buffer := some bytes } w ∧
      bytes.length = destination.dataSize ∧ P bytes

section answers

variable [Wire] {conf : ConfigurationManager} {w : Backends} {m : Metadata} {source destination : Data}

omit [Wire] in
theorem forall₂_sizes {ds : List DataDistribution} {chunks : List (List UInt8)}
    (h : List.Forall₂ (fun d bytes => Yields conf w d bytes ∧ bytes.length = partSize d) ds chunks) :
    chunks.flatten.length = (ds.map partSize).sum ∧
      List.zipWith (fun d bytes => d.destinationData.position + bytes.length) ds chunks =
        ds.map fun d => d.destinationData.position + partSize d := by
  induction h with
  | nil => exact ⟨rfl, rfl⟩
  | cons hd _ ih =>
    refine ⟨?_, ?_⟩
    · rw [List.flatten_cons, List.length_append, ih.1, hd.2, List.map_cons, List.sum_cons]
    · rw [List.zipWith_cons_cons, ih.2, hd.2, List.map_cons]

omit [Wire] in
theorem sum_le_sum_add (ds : List DataDistribution) :
    (ds.map partSize).sum ≤ (ds.map fun d => d.destinationData.position + partSize d).sum := by
  induction ds with
  | nil => exact le_rfl
  | cons d ds ih =>
    simp only [List.map_cons, List.sum_cons]
    omega

/-- A range that starts in a linked segment. -/
theorem RangeAnswerable.replies_inside (h : RangeAnswerable conf w m.links source destination)
    (hprimary : primaryMetadata conf Env.calm source w = .ok m w) (horder : InOrder m.links)
    (hlen : m.links.entries.length < 2 ^ 31) (hstart : source.position < m.links.entries.length * conf.maxObjSize) :
    Replies conf source destination w fun _ => True := by
  have hM := conf.maxObjSize_pos
  have hadvertised := h.advertised
  obtain ⟨ds, htiles, hcut⟩ := tiles_cut_truncated h.size_pos horder hlen h.end_lt hstart h.ends
  have hsize := h.size_pos
  have hreach : min (source.position + source.dataSize) (m.links.entries.length * conf.maxObjSize) =
    source.position + destination.dataSize := by omega
  have hlt : source.position < source.position + destination.dataSize := by omega
  rw [hreach] at hcut
  have hsmall : source.position + destination.dataSize - source.position < 2 ^ 31 := by
    have hle := List.le_sum_of_mem (@mem_partSizes _ source.position destination.dataSize hM (by omega))
    have hfits := h.fits
    omega
  have htotal : (ds.map partSize).sum = destination.dataSize := by
    rw [hcut.total, Nat.add_sub_cancel_left]
  have hsizes : ds.map (fun d => d.destinationData.position + partSize d) =
      partSizes conf.maxObjSize source.position destination.dataSize :=
    hcut.sizes hM hsmall le_rfl hlt (by simp)
  have hle := sum_le_sum_add ds
  rw [hsizes] at hle
  rcases server_locate_parts (fun d bytes h => h.1) (locate_ok hprimary htiles)
    (hcut.yields hsmall h.parts (Or.inl rfl) (by simp)) (fun chunks hchunks => by
      rw [(forall₂_sizes hchunks).1, (forall₂_sizes hchunks).2, hsizes, totalSize_eq h.fits]
      exact_mod_cast hle) with hraise | ⟨chunks, hchunks, hlocate⟩
  · obtain ⟨code, hraise⟩ := hraise
    exact Or.inl ⟨_, by simp, hraise⟩
  · refine Or.inr ⟨_, hlocate, ?_, trivial⟩
    rw [(forall₂_sizes hchunks).1, htotal]

/-- A range behind the linked segments. -/
theorem RangeAnswerable.replies_beyond (h : RangeAnswerable conf w m.links source destination)
    (hprimary : primaryMetadata conf Env.calm source w = .ok m w) (horder : InOrder m.links)
    (hstart : m.links.entries.length * conf.maxObjSize ≤ source.position) :
    Replies conf source destination w fun _ => True := by
  have hadvertised := h.advertised
  have hbeyond : m.links.entries.length ≤ source.position / conf.maxObjSize :=
    (Nat.le_div_iff_mul_le conf.maxObjSize_pos).mpr hstart
  refine Or.inr ⟨[], bind_ok (locate_ok hprimary (tiles_beyond horder hbeyond h.start_lt)), ?_, trivial⟩
  rw [List.length_nil]
  omega

theorem RangeAnswerable.replies (h : RangeAnswerable conf w m.links source destination)
    (hprimary : primaryMetadata conf Env.calm source w = .ok m w) (horder : InOrder m.links)
    (hlen : m.links.entries.length < 2 ^ 31) : Replies conf source destination w fun _ => True := by
  by_cases hstart : source.position < m.links.entries.length * conf.maxObjSize
  · exact h.replies_inside hprimary horder hlen hstart
  · exact h.replies_beyond hprimary horder (not_lt.mp hstart)

/-! ## Whole files -/

/-- The objects of the links, in the order of the segments. -/
def wholeFile (conf : ConfigurationManager) (w : Backends) (links : Links) : List UInt8 :=
  ((linkArray links).getD []).flatMap fun link => (linkObject conf w link).getD []

/-- The request is for the whole file, and the destination asks for as much as there is; or an object is missing. -/
structure WholeAnswerable (conf : ConfigurationManager) (w : Backends) (links : Links) (source destination : Data) :
    Prop where
  size_eq : source.dataSize = 0
  start_eq : source.position / conf.maxObjSize = 0
  configured : ∀ (s : Int) link, links.lookup s = some link → ∃ t, conf.backend link.storageIndex = some t
  advertised : (∃ (s : Int) (link : Data), links.lookup s = some link ∧ linkObject conf w link = none) ∨
    destination.dataSize = (wholeFile conf w links).length ∧ (wholeFile conf w links).length < 2 ^ 31

omit [Wire] in
/-- Chunks that are the objects of the links make up the file. -/
theorem forall₂_objects {array : List Data} {chunks : List (List UInt8)}
    (h : List.Forall₂ (fun d bytes => Yields conf w d bytes ∧ linkObject conf w d.destinationData = some bytes)
      (array.map fun link => tileAt link 0 0 0) chunks) :
    (∀ link ∈ array, linkObject conf w link ≠ none) ∧
      chunks.flatten = array.flatMap fun link => (linkObject conf w link).getD [] := by
  induction array generalizing chunks with
  | nil =>
    cases h
    exact ⟨by simp, rfl⟩
  | cons link array ih =>
    cases h with
    | cons hd hrest =>
      obtain ⟨hobjects, hflatten⟩ := ih hrest
      have hobject : linkObject conf w link = some _ := hd.2
      refine ⟨?_, ?_⟩
      · intro link' hlink'
        rcases List.mem_cons.mp hlink' with rfl | hlink'
        · rw [hobject]
          exact Option.some_ne_none _
        · exact hobjects link' hlink'
      · rw [List.flatten_cons, hflatten, List.flatMap_cons, hobject, Option.getD_some]

omit [Wire] in
theorem zipWith_start {array : List Data} {chunks : List (List UInt8)} (h : array.length = chunks.length) :
    List.zipWith (fun d bytes => d.destinationData.position + bytes.length)
      (array.map fun link => tileAt link 0 0 0) chunks = chunks.map List.length := by
  induction array generalizing chunks with
  | nil =>
    rw [List.length_nil, eq_comm, List.length_eq_zero_iff] at h
    rw [h]
    rfl
  | cons link array ih =>
    cases chunks with
    | nil => cases h
    | cons bytes chunks =>
      rw [List.map_cons, List.zipWith_cons_cons, ih (Nat.succ.inj h), List.map_cons]
      congr 1
      exact Nat.zero_add _

section whole

variable {array : List Data} (h : WholeAnswerable conf w m.links source destination) (horder : InOrder m.links)
  (harray : linkArray m.links = some array)

include h harray

omit [Wire] in
/-- Every object is read from its start into the start of its part. -/
theorem WholeAnswerable.parts : ∀ d ∈ array.map (fun link => tileAt link 0 0 0), RaisesPart conf w d ∨
    ∃ bytes, Yields conf w d bytes ∧ linkObject conf w d.destinationData = some bytes := by
  intro d hd
  obtain ⟨link, hlink, rfl⟩ := List.mem_map.mp hd
  obtain ⟨s, hs⟩ := List.mem_iff_getElem?.mp hlink
  rw [linkArray_get harray] at hs
  obtain ⟨t, ht⟩ := h.configured _ link hs
  cases hv : w t link.id with
  | none => exact Or.inl (tileAt_absent ht hv)
  | some v =>
    refine Or.inr ⟨v, wholeObject_yields ht hv, ?_⟩
    show (conf.backend link.storageIndex).bind (fun t => w t link.id) = some v
    rw [ht, Option.bind_some, hv]

include horder

omit [Wire] in
/-- When all the reads return, the objects are there and make up the file. -/
theorem WholeAnswerable.chunks {chunks : List (List UInt8)}
    (hchunks : List.Forall₂ (fun d bytes => Yields conf w d bytes ∧ linkObject conf w d.destinationData = some bytes)
      (array.map fun link => tileAt link 0 0 0) chunks) :
    chunks.flatten = wholeFile conf w m.links ∧ chunks.flatten.length = destination.dataSize ∧
      chunks.flatten.length < 2 ^ 31 := by
  obtain ⟨hobjects, hflatten⟩ := forall₂_objects hchunks
  have hwhole : chunks.flatten = wholeFile conf w m.links := by
    rw [hflatten, wholeFile, harray, Option.getD_some]
  rw [hwhole]
  rcases h.advertised with ⟨s, link, hlink, hmissing⟩ | ⟨hsize, hsmall⟩
  · obtain ⟨hs, -⟩ := (horder s).mp (AList.lookup_isSome.mp (by rw [hlink]; rfl))
    lift s to Nat using hs
    rw [← linkArray_get harray] at hlink
    exact absurd hmissing (hobjects link (List.mem_of_getElem? hlink))
  · exact ⟨rfl, hsize.symm, hsmall⟩

end whole

theorem WholeAnswerable.replies (h : WholeAnswerable conf w m.links source destination)
    (hprimary : primaryMetadata conf Env.calm source w = .ok m w) (horder : InOrder m.links)
    (hlen : m.links.entries.length < 2 ^ 31) :
    Replies conf source destination w fun bytes => bytes = wholeFile conf w m.links := by
  obtain ⟨array, harray⟩ := (linkArray_isSome_iff m.links).mpr horder
  obtain ⟨ds, htiles⟩ := @tiles_isSome conf _ source horder hlen
  obtain rfl := tiles_getAll harray h.size_eq h.start_eq htiles
  have hfits : ∀ chunks, List.Forall₂ (fun d bytes => Yields conf w d bytes ∧
      linkObject conf w d.destinationData = some bytes) (array.map fun link => tileAt link 0 0 0) chunks →
      (chunks.flatten.length : Int) ≤ Server.totalSize (List.zipWith
        (fun d bytes => d.destinationData.position + bytes.length) (array.map fun link => tileAt link 0 0 0) chunks) := by
    intro chunks hchunks
    obtain ⟨-, -, hsmall⟩ := h.chunks horder harray hchunks
    have hlength := hchunks.length_eq
    rw [List.length_map] at hlength
    rw [List.length_flatten] at hsmall ⊢
    rw [zipWith_start hlength, totalSize_eq hsmall]
  rcases server_locate_parts (fun d bytes h => h.1) (locate_ok hprimary htiles) (h.parts harray) hfits with
    hraise | ⟨chunks, hchunks, hlocate⟩
  · obtain ⟨code, hraise⟩ := hraise
    exact Or.inl ⟨_, by simp, hraise⟩
  · obtain ⟨hbytes, hlength, -⟩ := h.chunks horder harray hchunks
    exact Or.inr ⟨_, hlocate, hlength, hbytes⟩

/-- The requests that `Locate` answers in the state `w`: there is no record, or its links can be counted and the request
is for the linked part of a range or for the whole file. -/
def Answerable (conf : ConfigurationManager) (w : Backends) (source destination : Data) : Prop :=
  (∃ fault, fault ≠ .undefined ∧ primaryMetadata conf Env.calm source w = .error fault w) ∨
    ∃ m, primaryMetadata conf Env.calm source w = .ok m w ∧ InOrder m.links ∧ m.links.entries.length < 2 ^ 31 ∧
      (RangeAnswerable conf w m.links source destination ∨ WholeAnswerable conf w m.links source destination)

theorem Replies.imp {P Q : List UInt8 → Prop} (h : Replies conf source destination w P) (hPQ : ∀ bytes, P bytes → Q bytes) :
    Replies conf source destination w Q := by
  rcases h with hraise | ⟨bytes, hlocate, hlength, hP⟩
  · exact Or.inl hraise
  · exact Or.inr ⟨bytes, hlocate, hlength, hPQ bytes hP⟩

theorem Answerable.replies (h : Answerable conf w source destination) :
    Replies conf source destination w fun bytes => source.dataSize = 0 →
      ∃ m, primaryMetadata conf Env.calm source w = .ok m w ∧ bytes = wholeFile conf w m.links := by
  rcases h with ⟨fault, hfault, hprimary⟩ | ⟨m, hprimary, horder, hlen, hrange | hwhole⟩
  · exact Or.inl ⟨fault, hfault, bind_error (locate_error hprimary)⟩
  · apply (hrange.replies hprimary horder hlen).imp
    intro bytes _ hzero
    have hpos := hrange.size_pos
    omega
  · apply (hwhole.replies hprimary horder hlen).imp
    intro bytes hbytes _
    exact ⟨m, hprimary, hbytes⟩

/-- **After any stores and deletes, faults included, an answerable request raises or gets a reply that is as long as it
says; a request without a size gets the whole file.** -/
theorem locate_replies (ops : List Op) (h : Answerable conf (runOps conf ops) source destination) :
    Replies conf source destination (runOps conf ops) fun bytes => source.dataSize = 0 →
      ∃ m, primaryMetadata conf Env.calm source (runOps conf ops) = .ok m (runOps conf ops) ∧
        bytes = wholeFile conf (runOps conf ops) m.links :=
  h.replies

theorem not_replies {bytes : List UInt8} {P : List UInt8 → Prop}
    (h : (Server.locate conf Env.calm source destination w).outcome = .ok { destination with buffer := some bytes })
    (hne : bytes.length ≠ destination.dataSize) : ¬ Replies conf source destination w P := by
  rintro (⟨fault, -, hraise⟩ | ⟨bytes', hlocate, hlength, -⟩)
  · rw [hraise] at h
    cases h
  · rw [hlocate] at h
    have hbytes := congrArg Data.buffer (Except.ok.inj h)
    rw [Option.some.inj hbytes] at hlength
    exact hne hlength

end answers

/-! ## A file of one byte -/

/-- One byte at the start of `f`. -/
def storeSeven : Op := .store Env.calm 0 (storeBytes 0 [7]).source (storeBytes 0 [7]).destination

theorem storeSeven_held :
    ∃ m, Held oneFile [0x66] (Segments.patch (fun _ => none) 0 [7]) m (runOps oneFile [storeSeven]) ∧
      ∀ s, s < m.links.entries.length ↔ s = 0 := by
  obtain ⟨m, w', hrun, hheld, hlength⟩ := @Held.create _ oneFile [0x66] (fun _ _ => none) (storeBytes 0 [7]) rfl (by decide)
    (fun _ => rfl) (storeBytes_supported (by decide) (by decide)) rfl
  have hfinal : runOps oneFile [storeSeven] = w' := by
    have hstep : storeSeven.call oneFile (fun _ _ => none) = (pure () : Prog PUnit) w' :=
      @bind_ok _ _ _ _ _ (fun _ => pure ()) _ _ _ hrun
    exact congrArg Result.final hstep
  exact ⟨m, hfinal ▸ hheld, hlength⟩

/-- The request for the byte. -/
def sevenRequest : Data := { id := [0x66], dataSize := 1 }

theorem sevenRequest_answerable : Answerable oneFile (runOps oneFile [storeSeven]) sevenRequest sevenRequest := by
  obtain ⟨m, hheld, hlength⟩ := storeSeven_held
  have hone : m.links.entries.length = 1 := by
    have hzero := (hlength 0).mpr rfl
    have hlast := (hlength (m.links.entries.length - 1)).mp (by omega)
    omega
  have hprimary : primaryMetadata oneFile Env.calm sevenRequest (runOps oneFile [storeSeven]) =
      .ok m (runOps oneFile [storeSeven]) :=
    primaryMetadata_primary (t := .fileIo) rfl rfl hheld.filed.primary.portable hheld.filed.primary.isLink_eq
      hheld.filed.primary.holds
  refine Or.inr ⟨m, hprimary, hheld.inOrder, by omega, Or.inl ⟨by decide, by decide, by decide, ?_, ?_, by decide, ?_⟩⟩
  · rintro ⟨hdvd, -⟩
    revert hdvd
    decide
  · rw [hone]
    rfl
  · intro start link _ _ hlink
    obtain ⟨-, hindex⟩ := hheld.addressed _ link hlink
    refine ⟨.fileIo, by rw [hindex]; rfl, ?_⟩
    cases runOps oneFile [storeSeven] .fileIo link.id with
    | none => exact trivial
    | some v => exact trivial

theorem sevenRequest_replied :
    Replies oneFile sevenRequest sevenRequest (runOps oneFile [storeSeven]) fun bytes => sevenRequest.dataSize = 0 →
      ∃ m, primaryMetadata oneFile Env.calm sevenRequest (runOps oneFile [storeSeven]) =
        .ok m (runOps oneFile [storeSeven]) ∧ bytes = wholeFile oneFile (runOps oneFile [storeSeven]) m.links :=
  locate_replies [storeSeven] sevenRequest_answerable

/-- A request without a size gets the byte, and a size of 0; one behind the end gets nothing, and a size of 4. -/
theorem otherRequests_not_replied :
    ¬ Replies oneFile { id := [0x66] } {} (runOps oneFile [storeSeven]) (fun _ => True) ∧
    ¬ Replies oneFile { id := [0x66], position := 4, dataSize := 4 } { dataSize := 4 } (runOps oneFile [storeSeven])
      fun _ => True := by
  refine ⟨@not_replies _ _ _ _ _ [7] _ ?_ (by decide), @not_replies _ _ _ _ _ [] _ ?_ (by decide)⟩
  · decide +kernel
  · decide +kernel

end Symbios
