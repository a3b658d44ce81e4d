import Symbios.Proof.ReadYourWrites

/-!
# What `Locate` allocates

`Server::Locate` adds up the `data_size_` of its parts in an `int`. A file part has its own position in its
`data_size_`, so `K` full segments add up to `K (K + 1) / 2` segment sizes: the sum leaves `int` long before the
request does (`locate_allocates_iff`).
-/

namespace Symbios

open EStateM MetadataOrchestrator

/-! ## The accumulator -/

/-- The size passed to `malloc` is the sum of the sizes of the parts, and what is copied out of them fits. -/
def Allocates (parts : List Data) : Prop :=
  toSize (Server.totalSize (parts.map (·.dataSize))) = (parts.map (·.dataSize)).sum ∧
    (parts.map fun part => part.dataSize - part.position).sum ≤ toSize (Server.totalSize (parts.map (·.dataSize)))

theorem windows_le_sizes (parts : List Data) :
    (parts.map fun part => part.dataSize - part.position).sum ≤ (parts.map (·.dataSize)).sum := by
  induction parts with
  | nil => exact le_rfl
  | cons part parts ih =>
    simp only [List.map_cons, List.sum_cons]
    omega

/-- A sum that leaves `int` does not come back. -/
theorem allocates_iff {parts : List Data} (h : (parts.map (·.dataSize)).sum < 2 ^ 63) :
    Allocates parts ↔ (parts.map (·.dataSize)).sum < 2 ^ 31 := by
  have hwindows := windows_le_sizes parts
  rw [Allocates, totalSize_toInt]
  constructor
  · rintro ⟨hsum, -⟩
    by_contra hlarge
    exact toSize_toInt_ne (not_lt.mp hlarge) (by omega) hsum
  · intro hsmall
    rw [toInt_of_lt hsmall, toSize_natCast (by omega)]
    exact ⟨rfl, hwindows⟩

theorem sum_multiples (maxObjSize K : Nat) :
    ((List.range K).map fun j => (j + 1) * maxObjSize).sum = maxObjSize * (K * (K + 1) / 2) := by
  induction K with
  | zero => simp
  | succ K ih =>
    have htriangle : (K + 1) * (K + 1 + 1) / 2 = K * (K + 1) / 2 + (K + 1) := by
      rw [show (K + 1) * (K + 1 + 1) = K * (K + 1) + (K + 1) * 2 by ring, Nat.add_mul_div_right _ _ (by decide)]
    rw [List.range_succ, List.map_append, List.sum_append, ih, htriangle]
    simp only [List.map_singleton, List.sum_singleton]
    ring

theorem triangle_lt {maxObjSize K : Nat} (hM : 0 < maxObjSize) (h : K * maxObjSize < 2 ^ 32) :
    maxObjSize * (K * (K + 1) / 2) < 2 ^ 63 := by
  have hK : K ≤ K * maxObjSize := Nat.le_mul_of_pos_right K hM
  have hproduct : K * maxObjSize * (K + 1) < 2 ^ 32 * 2 ^ 32 := Nat.mul_lt_mul_of_lt_of_le h (by omega) (by decide)
  have hhalf : maxObjSize * (K * (K + 1) / 2) * 2 ≤ K * maxObjSize * (K + 1) := by
    calc maxObjSize * (K * (K + 1) / 2) * 2 = maxObjSize * (K * (K + 1) / 2 * 2) := Nat.mul_assoc ..
      _ ≤ maxObjSize * (K * (K + 1)) := Nat.mul_le_mul_left _ (Nat.div_mul_le_self _ _)
      _ = K * maxObjSize * (K + 1) := by ring
  omega

/-! ## The loop over full segments -/

section loop

variable {maxObjSize f n : Nat}

theorem tileSize_whole (maxObjSize i f n : Nat) :
    tileSize maxObjSize false ((f + i) * maxObjSize) ((n - i) * maxObjSize) = if i < n then maxObjSize else 0 := by
  rw [tileSize_eq, Nat.mul_mod_left, Nat.sub_zero]
  split_ifs with hlt
  · exact min_eq_right (Nat.le_mul_of_pos_left _ (by omega))
  · rw [show n - i = 0 by omega, Nat.zero_mul, Nat.zero_min]

/-- A range of whole segments, from its `i`-th segment on: every turn takes a segment, and the one behind the range, if
there is one, takes nothing. -/
theorem tile_wholeSegments (hM : 0 < maxObjSize) (hsmall : n * maxObjSize < 2 ^ 31) (hend : (f + n) * maxObjSize < 2 ^ 64) :
    ∀ (rest : List Data) (i : Nat) (ds : List DataDistribution), i ≤ n →
      tile maxObjSize false (f + n) rest (f + i) ((f + i) * maxObjSize) ((n - i) * maxObjSize)
        ((i * maxObjSize : Nat) : Int) = some ds →
      ∀ j d, ds[j]? = some d → i + j ≤ n ∧ ∃ link, rest[j]? = some link ∧
        d = tileAt link 0 (if i + j < n then maxObjSize else 0) (((i + j) * maxObjSize : Nat) : Int)
  | [], i, ds, hi, h, j, d, hd => by
    cases h
    cases hd
  | link :: rest, i, ds, hi, h, j, d, hd => by
    have hoffset : tileOffset maxObjSize false ((f + i) * maxObjSize) = 0 := by
      simp [tileOffset]
    rw [tile_cons, if_pos (Or.inr (by omega)), hoffset, tileSize_whole] at h
    split at h
    case isFalse => cases h
    obtain ⟨ds', h', rfl⟩ := Option.map_eq_some_iff.mp h
    cases j with
    | zero =>
      rw [List.getElem?_cons_zero] at hd
      exact ⟨hi, link, rfl, (Option.some.inj hd).symm⟩
    | succ j =>
      rw [List.getElem?_cons_succ] at hd
      by_cases hlt : i < n
      · have hle : (i + 1) * maxObjSize ≤ n * maxObjSize := Nat.mul_le_mul_right _ hlt
        have hle' : (f + (i + 1)) * maxObjSize ≤ (f + n) * maxObjSize := Nat.mul_le_mul_right _ (by omega)
        have hposition : ((i * maxObjSize : Nat) : Int) + maxObjSize = (((i + 1) * maxObjSize : Nat) : Int) := by
          push_cast
          ring
        have hstart : (f + i) * maxObjSize + maxObjSize = (f + (i + 1)) * maxObjSize := by ring
        have hleft : (n - i) * maxObjSize - maxObjSize = (n - (i + 1)) * maxObjSize := by
          rw [← Nat.sub_one_mul, Nat.sub_sub]
        rw [if_pos hlt, hposition, toInt_of_lt (by omega), hstart, Nat.mod_eq_of_lt (by omega), hleft,
          Nat.add_assoc f i 1] at h'
        obtain ⟨hle, link', hlink', hd'⟩ := tile_wholeSegments hM hsmall hend rest (i + 1) ds' hlt h' j d hd
        rw [show i + 1 + j = i + (j + 1) by omega] at hle hd'
        exact ⟨hle, link', hlink', hd'⟩
      · rw [tile_stop (Or.inr (by omega))] at h'
        cases h'
        cases hd

/-- A loop that ends, from a linked segment on, starts inside `int`. -/
theorem tile_first_small {getAll : Bool} {endSegment start sizeLeft : Nat} {position : Int} {array : List Data}
    {ds : List DataDistribution} (hpositive : 0 ≤ toInt f) (hlinked : f ≤ array.length) (hend : f ≤ endSegment)
    (h : tile maxObjSize getAll endSegment (array.drop (f % 2 ^ 32)) (f % 2 ^ 32) start sizeLeft position = some ds) :
    f < 2 ^ 31 := by
  by_contra hge
  have hbounds := (toInt_bounds f).2
  have hnonneg := toInt_nonneg hpositive
  rw [tile_overflows (Or.inr (by omega)) _ _ _ _ _ (by omega) (by rw [List.length_drop]; omega)] at h
  cases h

/-- The loop over the whole file asks for everything of every segment. -/
theorem tile_getAll (hM : 0 < maxObjSize) {endSegment : Nat} :
    ∀ (rest : List Data) (i start : Nat) (ds : List DataDistribution),
      tile maxObjSize true endSegment rest i start 0 0 = some ds → ds = rest.map fun link => tileAt link 0 0 0
  | [], i, start, ds, h => by
    cases h
    rfl
  | link :: rest, i, start, ds, h => by
    have hsize : tileSize maxObjSize true start 0 = 0 := by
      simp [tileSize, tileOffset, hM]
    rw [tile_cons, if_pos (Or.inl rfl), hsize] at h
    split at h
    · obtain ⟨ds', h', rfl⟩ := Option.map_eq_some_iff.mp h
      rw [tile_getAll hM rest _ _ ds' h']
      rfl
    · cases h

end loop

/-! ## Full segments -/

/-- The object a link leads to. -/
def linkObject (conf : ConfigurationManager) (w : Backends) (link : Data) : Option (List UInt8) :=
  (conf.backend link.storageIndex).bind fun t => w t link.id

/-- The object of a link is a file of a whole segment. -/
structure FullSegment (conf : ConfigurationManager) (w : Backends) (link : Data) : Prop where
  backend_eq : conf.backend link.storageIndex = some .fileIo
  object : ∃ object, w .fileIo link.id = some object ∧ object.length = conf.maxObjSize

/-- The part that is read of a full segment: the segment behind the position of the part. -/
def fullPart (w : Backends) (d : DataDistribution) : Data :=
  { d.destinationData with
    buffer := some (List.replicate d.destinationData.position 0 ++ (w .fileIo d.sourceData.id).getD [])
    dataSize := d.destinationData.position + ((w .fileIo d.sourceData.id).getD []).length }

section request

variable {conf : ConfigurationManager} {w : Backends}

theorem FullSegment.read {link : Data} (h : FullSegment conf w link) {size : Nat} {position : Int}
    (hsize : size = conf.maxObjSize ∨ size = 0) (hposition : toSize position < 2 ^ 63) :
    IoFactory.read conf Env.calm (tileAt link 0 size position).destinationData.storageIndex
      (tileAt link 0 size position).sourceData (tileAt link 0 size position).destinationData w =
        .ok (fullPart w (tileAt link 0 size position)) w := by
  obtain ⟨object, hobject, hlength⟩ := h.object
  have hv : w .fileIo (tileAt link 0 size position).sourceData.id = some object := hobject
  have hrequest : fileRequest object (tileAt link 0 size position).sourceData = object.length := by
    show (if size = 0 then subSize object.length 0 else size) = object.length
    rw [show subSize object.length 0 = object.length by simp [subSize]]
    split_ifs <;> omega
  have hbackend : conf.backend (tileAt link 0 size position).destinationData.storageIndex = some .fileIo := h.backend_eq
  have htake : (object.drop (tileAt link 0 size position).sourceData.position).take object.length = object :=
    List.take_length
  have hseek : ¬ 2 ^ 63 ≤ (tileAt link 0 size position).sourceData.position :=
    fun h : 2 ^ 63 ≤ 0 => absurd h (by decide)
  rw [IoFactory.read_eq hbackend rfl, fileRead_eq hv, hrequest, htake, if_neg hseek, if_neg, if_pos rfl]
  · rw [fullPart, hv, Option.getD_some]
  · rintro ⟨-, hlarge⟩
    exact absurd hlarge (not_le.mpr hposition)

theorem FullSegment.dataSize {link : Data} (h : FullSegment conf w link) (size : Nat) (position : Int) :
    (fullPart w (tileAt link 0 size position)).dataSize = toSize position + conf.maxObjSize := by
  obtain ⟨object, hobject, hlength⟩ := h.object
  show toSize position + ((w .fileIo link.id).getD []).length = _
  rw [hobject, Option.getD_some, hlength]

variable {links : Links} {source : Data} {ds : List DataDistribution} {f n : Nat}

/-- A request without a size, from the first segment on, reads every object from its start to the start of its part. -/
theorem tiles_getAll {array : List Data} (harray : linkArray links = some array) (hsize : source.dataSize = 0)
    (hstart : source.position / conf.maxObjSize = 0) (htiles : tiles conf links source = some ds) :
    ds = array.map fun link => tileAt link 0 0 0 := by
  rw [tiles, harray, Option.bind_eq_bind, Option.bind_some] at htiles
  dsimp only at htiles
  rw [hstart, if_neg (by decide), decide_eq_true hsize, hsize] at htiles
  exact tile_getAll conf.maxObjSize_pos _ _ _ _ htiles

/-- The distributions of a request for `n` whole segments from segment `f` on; a request for none of them is one for the
whole file. -/
theorem tiles_wholeSegments (hne : ds ≠ []) (htiles : tiles conf links source = some ds)
    (hposition : source.position = f * conf.maxObjSize) (hsize : source.dataSize = n * conf.maxObjSize)
    (hlinked : f + n ≤ links.entries.length) (htotal : n * conf.maxObjSize < 2 ^ 31)
    (hend : (f + n) * conf.maxObjSize < 2 ^ 64) :
    ∀ j d, ds[j]? = some d → ∃ link size, links.lookup ((f + j : Nat) : Int) = some link ∧
      (size = conf.maxObjSize ∨ size = 0) ∧ (n = 0 ∨ j * conf.maxObjSize < 2 ^ 31) ∧
      d = tileAt link 0 size ((if n = 0 then 0 else j * conf.maxObjSize : Nat) : Int) := by
  have hM := conf.maxObjSize_pos
  obtain ⟨array, harray, hpositive, htile⟩ := tiles_loop hne htiles
  have hlength := linkArray_length harray
  have hfirst : source.position / conf.maxObjSize = f := by rw [hposition, Nat.mul_div_cancel _ hM]
  have hlast : (source.position + source.dataSize) % 2 ^ 64 / conf.maxObjSize = f + n := by
    rw [hposition, hsize, ← Nat.add_mul, Nat.mod_eq_of_lt hend, Nat.mul_div_cancel _ hM]
  rw [hfirst] at hpositive
  rw [hfirst, hlast] at htile
  have hsmall := tile_first_small hpositive (by omega) (Nat.le_add_right f n) htile
  have hempty : decide (source.dataSize = 0) = true ↔ n = 0 := by
    rw [decide_eq_true_iff, hsize, Nat.mul_eq_zero, or_iff_left (by omega)]
  rw [Nat.mod_eq_of_lt (by omega)] at htile
  intro j d hd
  by_cases hn : n = 0
  · rw [hempty.mpr hn, hsize, hn, Nat.zero_mul] at htile
    rw [tile_getAll hM _ _ _ _ htile, List.getElem?_map, Option.map_eq_some_iff] at hd
    obtain ⟨link, hlink, rfl⟩ := hd
    rw [List.getElem?_drop, linkArray_get harray] at hlink
    exact ⟨link, 0, hlink, Or.inr rfl, Or.inl hn, by rw [if_pos hn]; rfl⟩
  · rw [Bool.eq_false_iff.mpr fun h => hn (hempty.mp h), hposition, hsize] at htile
    obtain ⟨hle, link, hlink, rfl⟩ := tile_wholeSegments hM htotal hend _ 0 ds (Nat.zero_le n) (by simpa using htile) j d hd
    rw [List.getElem?_drop, linkArray_get harray] at hlink
    have hj : j * conf.maxObjSize ≤ n * conf.maxObjSize := Nat.mul_le_mul_right _ (by omega)
    refine ⟨link, _, hlink, ?_, Or.inr (by omega), by rw [if_neg hn, Nat.zero_add]⟩
    split_ifs
    · exact Or.inl rfl
    · exact Or.inr rfl

/-- There is at most one distribution more than segments asked for. -/
theorem wholeSegments_length_le (hne : ds ≠ []) (htiles : tiles conf links source = some ds)
    (hposition : source.position = f * conf.maxObjSize) (hsize : source.dataSize = n * conf.maxObjSize)
    (hlinked : f + n ≤ links.entries.length) (htotal : n * conf.maxObjSize < 2 ^ 31)
    (hend : (f + n) * conf.maxObjSize < 2 ^ 64) (hn : 0 < n) : ds.length * conf.maxObjSize < 2 ^ 32 := by
  have hlast : ds[ds.length - 1]? = some (ds.getLast hne) := by
    rw [← List.getLast?_eq_getElem?, List.getLast?_eq_getLast_of_ne_nil hne]
  obtain ⟨-, -, -, -, hsmall, -⟩ := tiles_wholeSegments hne htiles hposition hsize hlinked htotal hend _ _ hlast
  have hle : conf.maxObjSize ≤ n * conf.maxObjSize := Nat.le_mul_of_pos_left _ hn
  have hpos := List.length_pos_of_ne_nil hne
  have hsplit : ds.length * conf.maxObjSize = (ds.length - 1) * conf.maxObjSize + conf.maxObjSize := by
    rw [← Nat.succ_mul, Nat.succ_eq_add_one, Nat.sub_add_cancel hpos]
  omega

/-- Each part of such a request is the one of a full segment. -/
theorem wholeSegments_part (hne : ds ≠ []) (htiles : tiles conf links source = some ds)
    (hposition : source.position = f * conf.maxObjSize) (hsize : source.dataSize = n * conf.maxObjSize)
    (hlinked : f + n ≤ links.entries.length) (htotal : n * conf.maxObjSize < 2 ^ 31)
    (hend : (f + n) * conf.maxObjSize < 2 ^ 64)
    (hfull : ∀ (s : Nat) link, f ≤ s → s < f + ds.length → links.lookup (s : Int) = some link → FullSegment conf w link)
    {j : Nat} {d : DataDistribution} (hd : ds[j]? = some d) :
    IoFactory.read conf Env.calm d.destinationData.storageIndex d.sourceData d.destinationData w = .ok (fullPart w d) w ∧
      (fullPart w d).dataSize = if n = 0 then conf.maxObjSize else (j + 1) * conf.maxObjSize := by
  have hlt := (List.getElem?_eq_some_iff.mp hd).1
  obtain ⟨link, size, hlookup, hkind, hsmall, rfl⟩ :=
    tiles_wholeSegments hne htiles hposition hsize hlinked htotal hend j d hd
  have hsegment := hfull (f + j) link (by omega) (by omega) hlookup
  have hstart : toSize ((if n = 0 then 0 else j * conf.maxObjSize : Nat) : Int) =
      if n = 0 then 0 else j * conf.maxObjSize := by
    apply toSize_natCast
    split_ifs <;> omega
  refine ⟨hsegment.read hkind ?_, ?_⟩
  · rw [hstart]
    split_ifs <;> omega
  · rw [hsegment.dataSize, hstart]
    split_ifs
    · rw [Nat.zero_add]
    · rw [Nat.succ_mul]

/-- The parts that are read for such a request, and their sizes. -/
theorem wholeSegments_parts (hne : ds ≠ []) (htiles : tiles conf links source = some ds)
    (hposition : source.position = f * conf.maxObjSize) (hsize : source.dataSize = n * conf.maxObjSize)
    (hlinked : f + n ≤ links.entries.length) (htotal : n * conf.maxObjSize < 2 ^ 31)
    (hend : (f + n) * conf.maxObjSize < 2 ^ 64)
    (hfull : ∀ (s : Nat) link, f ≤ s → s < f + ds.length → links.lookup (s : Int) = some link → FullSegment conf w link) :
    ds.mapM (fun d => IoFactory.read conf Env.calm d.destinationData.storageIndex d.sourceData d.destinationData) w =
        .ok (ds.map (fullPart w)) w ∧
      (ds.map (fullPart w)).map (·.dataSize) =
        (List.range ds.length).map fun j => if n = 0 then conf.maxObjSize else (j + 1) * conf.maxObjSize := by
  have hpart := fun j d => @wholeSegments_part conf w links source ds f n hne htiles hposition hsize hlinked htotal hend
    hfull j d
  refine ⟨?_, ?_⟩
  · have h := @mapM_map_ok w _ _ _
      (fun d => IoFactory.read conf Env.calm d.destinationData.storageIndex d.sourceData d.destinationData) id (fullPart w)
      ds ?_
    · rwa [List.map_id] at h
    intro d hd
    obtain ⟨j, hj⟩ := List.mem_iff_getElem?.mp hd
    exact (hpart j d hj).1
  · apply List.ext_getElem
    · simp
    intro j hj hj'
    rw [List.length_map, List.length_map] at hj
    simpa using (hpart j ds[j] (List.getElem?_eq_getElem hj)).2

end request

/-- **`Locate` of `K` full file segments allocates the sum of their sizes exactly when `K (K + 1) / 2` segment sizes fit
into an `int`;** a request for the whole file has all its parts at position 0. -/
theorem locate_allocates_iff [Wire] {conf : ConfigurationManager} {source : Data} {w : Backends} {m : Metadata}
    {ds : List DataDistribution} {f n K : Nat}
    (hlocate : MetadataOrchestrator.locate conf Env.calm source w = .ok (ds, m) w) (hK : ds.length = K) (hpos : 1 ≤ K)
    (hposition : source.position = f * conf.maxObjSize) (hsize : source.dataSize = n * conf.maxObjSize)
    (hlinked : f + n ≤ m.links.entries.length) (htotal : n * conf.maxObjSize < 2 ^ 31)
    (hwhole : n = 0 → K * conf.maxObjSize < 2 ^ 31) (hend : source.position + source.dataSize < 2 ^ 64)
    (hfull : ∀ (s : Nat) link, f ≤ s → s < f + K → m.links.lookup (s : Int) = some link → FullSegment conf w link) :
    ∃ parts, ds.mapM (fun d => IoFactory.read conf Env.calm d.destinationData.storageIndex d.sourceData
        d.destinationData) w = .ok parts w ∧
      (Allocates parts ↔ n = 0 ∨ conf.maxObjSize * (K * (K + 1) / 2) < 2 ^ 31) := by
  subst hK
  have hne : ds ≠ [] := List.ne_nil_of_length_pos hpos
  have htiles : tiles conf m.links source = some ds := tiles_of_locate hlocate
  have hend' : (f + n) * conf.maxObjSize < 2 ^ 64 := by
    rw [Nat.add_mul, ← hposition, ← hsize]
    exact hend
  obtain ⟨hreads, hsizes⟩ := wholeSegments_parts hne htiles hposition hsize hlinked htotal hend' hfull
  refine ⟨_, hreads, ?_⟩
  by_cases hn : n = 0
  · have hsum : ((ds.map (fullPart w)).map (·.dataSize)).sum = ds.length * conf.maxObjSize := by
      rw [hsizes]
      simp [hn]
    have hsmall := hwhole hn
    rw [allocates_iff (by omega), hsum]
    exact iff_of_true hsmall (Or.inl hn)
  · have hsum : ((ds.map (fullPart w)).map (·.dataSize)).sum = conf.maxObjSize * (ds.length * (ds.length + 1) / 2) := by
      rw [hsizes]
      simp only [if_neg hn]
      exact sum_multiples _ _
    have hlast := wholeSegments_length_le hne htiles hposition hsize hlinked htotal hend' (Nat.pos_of_ne_zero hn)
    rw [allocates_iff (hsum ▸ triangle_lt conf.maxObjSize_pos hlast), hsum, or_iff_right hn]

/-! ## A file of full segments -/

/-- The links of the segments of `f` in front of segment `k`. -/
def segmentLinks : Nat → Links
  | 0 => ∅
  | k + 1 => (segmentLinks k).insert (k : Int) { id := objectId [0x66] k }

theorem segmentLinks_mem (k : Nat) (s : Int) : s ∈ segmentLinks k ↔ 0 ≤ s ∧ s < k := by
  induction k with
  | zero =>
    refine iff_of_false (AList.notMem_empty s) ?_
    omega
  | succ k ih =>
    rw [segmentLinks, AList.mem_insert, ih]
    omega

theorem segmentLinks_length (k : Nat) : (segmentLinks k).entries.length = k := by
  induction k with
  | zero => rfl
  | succ k ih =>
    have hnew : (k : Int) ∉ segmentLinks k := by
      rw [segmentLinks_mem]
      omega
    rw [segmentLinks, AList.entries_insert_of_notMem hnew, List.length_cons, ih]

theorem segmentLinks_inOrder (k : Nat) : InOrder (segmentLinks k) := by
  intro s
  rw [segmentLinks_mem, segmentLinks_length]

theorem segmentLinks_lookup {k : Nat} {s : Int} {link : Data} (h : (segmentLinks k).lookup s = some link) :
    ∃ i : Nat, link = { id := objectId [0x66] i } := by
  induction k with
  | zero => cases h
  | succ k ih =>
    by_cases hs : s = k
    · rw [segmentLinks, hs, AList.lookup_insert] at h
      exact ⟨k, (Option.some.inj h).symm⟩
    · rw [segmentLinks, AList.lookup_insert_ne hs] at h
      exact ih h

/-- The file `f` with `k` segments, and only full files. -/
def fullFile (conf : ConfigurationManager) (k : Nat) : Backends :=
  putRecord (fun _ _ => some (List.replicate conf.maxObjSize 7)) .fileIo [0x66] { links := segmentLinks k }

section fullFile

variable {conf : ConfigurationManager} (hconf : conf.backend 0 = some .fileIo) {k : Nat}

include hconf

theorem fullFile_full {s : Int} {link : Data} (h : (segmentLinks k).lookup s = some link) :
    FullSegment conf (fullFile conf k) link := by
  obtain ⟨i, rfl⟩ := segmentLinks_lookup h
  refine ⟨hconf, List.replicate conf.maxObjSize 7, ?_, List.length_replicate⟩
  exact putRecord_of_key_ne _ _ _ _ (objectId_ne_metaId _ _)

/-- A request for the first `n` segments is accepted. -/
theorem fullFile_locate {n : Nat} (hn : 0 < n) (hk : k < 2 ^ 31) (hend : n * conf.maxObjSize < 2 ^ 64) :
    ∃ ds, MetadataOrchestrator.locate conf Env.calm { id := [0x66], dataSize := n * conf.maxObjSize } (fullFile conf k) =
        .ok (ds, { links := segmentLinks k }) (fullFile conf k) ∧ ds.length = min k (n + 1) := by
  have hM := conf.maxObjSize_pos
  have hpositive : 0 ≤ toInt (0 / conf.maxObjSize : Nat) := by
    rw [Nat.zero_div]
    decide
  obtain ⟨array, harray⟩ := (linkArray_isSome_iff _).mpr (segmentLinks_inOrder k)
  obtain ⟨ds, htiles⟩ := @tiles_isSome conf _ { id := [0x66], dataSize := n * conf.maxObjSize } (segmentLinks_inOrder k)
    (by rwa [segmentLinks_length])
  refine ⟨ds, locate_ok (primaryMetadata_primary (t := .fileIo) hconf rfl ?_ rfl (putRecord_holds _ _ _ _)) htiles, ?_⟩
  · rw [portable_iff_lookup]
    intro key link h
    obtain ⟨i, rfl⟩ := segmentLinks_lookup h
    exact Or.inl rfl
  · have hloop := @tiles_eq_tile _ conf { id := [0x66], dataSize := n * conf.maxObjSize } (Nat.mul_pos hn hM) _ harray
      hpositive
    rw [htiles] at hloop
    have hlast : (0 + n * conf.maxObjSize) % 2 ^ 64 / conf.maxObjSize = n := by
      rw [Nat.zero_add, Nat.mod_eq_of_lt hend, Nat.mul_div_cancel n hM]
    rw [tile_length hloop.symm, List.length_drop, linkArray_length harray, segmentLinks_length, hlast, Nat.zero_div]
    rfl

end fullFile

/-- Eight bytes of a file of two segments of four bytes. -/
theorem twoFull_allocate :
    ∃ ds parts, MetadataOrchestrator.locate oneFile Env.calm { id := [0x66], dataSize := 2 * 4 } (fullFile oneFile 2) =
        .ok (ds, { links := segmentLinks 2 }) (fullFile oneFile 2) ∧
      ds.mapM (fun d => IoFactory.read oneFile Env.calm d.destinationData.storageIndex d.sourceData d.destinationData)
        (fullFile oneFile 2) = .ok parts (fullFile oneFile 2) ∧ Allocates parts := by
  obtain ⟨ds, hlocate, hlength⟩ := @fullFile_locate oneFile rfl 2 2 (by decide) (by decide) (by decide)
  obtain ⟨parts, hreads, hiff⟩ := locate_allocates_iff (f := 0) (n := 2) hlocate hlength (by decide) rfl rfl (by decide)
    (by decide) (by decide) (by decide) fun s link _ _ h => fullFile_full rfl h
  exact ⟨ds, parts, hlocate, hreads, hiff.mpr (Or.inr (by decide))⟩

/-- One file system with the default size of an object. -/
def twoMebibytes : ConfigurationManager := .config (2 * 1024 * 1024) [.fileIo] .randomPolicy (by decide) oneSolution

/-- 90 MiB, in 45 segments: their sizes add up to 2070 MiB, which is no `int`. -/
theorem fortyFive_overflow :
    45 * twoMebibytes.maxObjSize < 2 ^ 31 ∧
    ∃ ds parts, MetadataOrchestrator.locate twoMebibytes Env.calm { id := [0x66], dataSize := 45 * twoMebibytes.maxObjSize }
        (fullFile twoMebibytes 45) = .ok (ds, { links := segmentLinks 45 }) (fullFile twoMebibytes 45) ∧
      ds.length = 45 ∧
      ds.mapM (fun d => IoFactory.read twoMebibytes Env.calm d.destinationData.storageIndex d.sourceData d.destinationData)
        (fullFile twoMebibytes 45) = .ok parts (fullFile twoMebibytes 45) ∧ ¬ Allocates parts := by
  refine ⟨by decide, ?_⟩
  obtain ⟨ds, hlocate, hlength⟩ := @fullFile_locate twoMebibytes rfl 45 45 (by decide) (by decide) (by decide)
  have hne : ds ≠ [] := by
    apply List.ne_nil_of_length_pos
    rw [hlength]
    decide
  obtain ⟨hreads, hsizes⟩ := @wholeSegments_parts twoMebibytes (fullFile twoMebibytes 45) _ _ ds 0 45 hne
    (tiles_of_locate hlocate) rfl rfl (by rw [segmentLinks_length]) (by decide) (by decide)
    fun s link _ _ h => fullFile_full rfl h
  refine ⟨ds, _, hlocate, hlength, hreads, ?_⟩
  have hsum : ((ds.map (fullPart (fullFile twoMebibytes 45))).map (·.dataSize)).sum = 2170552320 := by
    rw [hsizes, hlength]
    decide +kernel
  rw [allocates_iff (by omega), hsum]
  decide

end Symbios
