import Symbios.Base.Segments
import Symbios.Proof.FanOut

/-!
# The shape of what `Locate` returns

`Cut` is the range from `start` to `e` cut at the segment boundaries. The loop of `Locate` makes such a cut as long as
it stops with the range (`tile_cut`); it runs one turn further when the range ends where a linked segment starts, and
off the end of `int` when there are too many segments (`tile_overflows`). The sizes and offsets of a cut are right
whatever its positions are; the positions are right while they fit into the `int` that counts them
(`Cut.placed_iff`).
-/

namespace Symbios

open MetadataOrchestrator Segments

/-- The distributions of the bytes from `start` to `e`, the first of which has destination position `position`. -/
inductive Cut (maxObjSize : Nat) (links : Links) (e : Nat) : Nat → Int → List DataDistribution → Prop
  | done {position : Int} : Cut maxObjSize links e e position []
  | turn {start size : Nat} {position : Int} {link : Data} {ds : List DataDistribution} (hstart : start < e)
      (hlink : links.lookup ((start / maxObjSize : Nat) : Int) = some link)
      (hsize : size = min (e - start) (maxObjSize - start % maxObjSize))
      (hrest : Cut maxObjSize links e (start + size) (toInt (position + size)) ds) :
      Cut maxObjSize links e start position (tileAt link (start % maxObjSize) size position :: ds)

/-! ## The loop -/

section loop

variable {maxObjSize endSegment : Nat}

/-- The loop runs until the end of the range or of the array. -/
theorem tile_length : ∀ {rest : List Data} {i start sizeLeft : Nat} {position : Int} {ds : List DataDistribution},
    tile maxObjSize false endSegment rest i start sizeLeft position = some ds →
      ds.length = min rest.length (endSegment + 1 - i)
  | [], _, _, _, _, _, h => by
    cases h
    simp
  | link :: rest, i, start, sizeLeft, position, ds, h => by
    rw [tile_cons] at h
    by_cases hi : i ≤ endSegment
    · rw [if_pos (Or.inr hi)] at h
      split at h
      · obtain ⟨ds', h', rfl⟩ := Option.map_eq_some_iff.mp h
        have ih := tile_length h'
        rw [List.length_cons, List.length_cons, ih]
        omega
      · cases h
    · rw [if_neg (by simpa using hi)] at h
      cases h
      rw [List.length_nil]
      omega

/-- With more than `2 ^ 31 - 1` segments in the range the counter overflows. -/
theorem tile_overflows {getAll : Bool} (hend : getAll = true ∨ 2 ^ 31 ≤ endSegment + 1) :
    ∀ (rest : List Data) (i start sizeLeft : Nat) (position : Int), i < 2 ^ 31 → 2 ^ 31 ≤ i + rest.length →
      tile maxObjSize getAll endSegment rest i start sizeLeft position = none
  | [], _, _, _, _, hi, hlen => by
    rw [List.length_nil] at hlen
    omega
  | link :: rest, i, start, sizeLeft, position, hi, hlen => by
    rw [List.length_cons] at hlen
    rw [tile_cons, if_pos (hend.imp_right fun h => by omega)]
    by_cases hnext : i + 1 < 2 ^ 31
    · rw [if_pos hnext, tile_overflows hend rest (i + 1) _ _ _ hnext (by omega)]
      rfl
    · rw [if_neg hnext]

end loop

variable {maxObjSize : Nat} {links : Links} {e : Nat}

/-- The segment of a range's last byte. -/
theorem lastSegment_le (maxObjSize : Nat) {start : Nat} (hstart : start < e) :
    start / maxObjSize ≤ (e - 1) / maxObjSize ∧ (e - 1) / maxObjSize ≤ e / maxObjSize ∧
      (e / maxObjSize ≠ (e - 1) / maxObjSize → maxObjSize ∣ e ∧ e / maxObjSize = (e - 1) / maxObjSize + 1) := by
  refine ⟨Nat.div_le_div_right (by omega), Nat.div_le_div_right (by omega), ?_⟩
  intro hne
  obtain ⟨n, rfl⟩ : ∃ n, e = n + 1 := ⟨e - 1, by omega⟩
  rw [Nat.add_sub_cancel, Nat.succ_div] at hne ⊢
  split_ifs at hne ⊢ with hdvd
  · exact ⟨hdvd, rfl⟩
  · exact absurd rfl hne

section turn

variable {start size : Nat} (hM : 0 < maxObjSize) (hsize : size = min (e - start) (maxObjSize - start % maxObjSize))

include hM hsize

/-- The part behind a part that is not the last one starts a segment. -/
theorem cut_next (hmore : start + size < e) : start + size = (start / maxObjSize + 1) * maxObjSize := by
  have hoff := Nat.mod_lt start hM
  rw [← next_segment hM]
  omega

theorem cut_next_segment (hmore : start + size < e) : (start + size) / maxObjSize = start / maxObjSize + 1 := by
  rw [cut_next hM hsize hmore, Nat.mul_div_cancel _ hM]

/-- The last part ends in its own segment, or with it. -/
theorem cut_last_segment (hstart : start < e) (hreach : start + size = e) :
    (e - 1) / maxObjSize = start / maxObjSize := by
  have hoff := Nat.mod_lt start hM
  have hin : start % maxObjSize + size ≤ maxObjSize := by omega
  exact (div_mod_of_mem hin (by omega) (by omega)).1

/-- A turn takes the part of the range that lies in the segment. -/
theorem tile_turn (he : e < 2 ^ 64) (hstart : start < e) (hint : start / maxObjSize + 1 < 2 ^ 31) (link : Data)
    (rest : List Data) (position : Int) :
    tile maxObjSize false (e / maxObjSize) (link :: rest) (start / maxObjSize) start (e - start) position =
      (tile maxObjSize false (e / maxObjSize) rest (start / maxObjSize + 1) (start + size) (e - (start + size))
        (toInt (position + size))).map (tileAt link (start % maxObjSize) size position :: ·) := by
  have hoff := Nat.mod_lt start hM
  have hle : start / maxObjSize ≤ e / maxObjSize := Nat.div_le_div_right hstart.le
  rw [tile_cons, if_pos (Or.inr hle), if_pos hint, tileSize_eq, ← hsize, Nat.mod_eq_of_lt (by omega), Nat.sub_sub]
  rfl

end turn

/-- Behind the segment of the last byte the loop ends, with the range or with the file. -/
theorem stops_behind {array : List Data} (harray : linkArray links = some array)
    (hend : ¬ (maxObjSize ∣ e ∧ e / maxObjSize < links.entries.length)) {start : Nat} (hstart : start < e)
    (hsame : (e - 1) / maxObjSize = start / maxObjSize) :
    array.drop (start / maxObjSize + 1) = [] ∨ e / maxObjSize < start / maxObjSize + 1 := by
  obtain ⟨-, -, hexact⟩ := lastSegment_le maxObjSize hstart
  by_cases hedge : e / maxObjSize = (e - 1) / maxObjSize
  · right
    omega
  · left
    obtain ⟨hdvd, heq⟩ := hexact hedge
    apply List.drop_eq_nil_of_le
    rw [linkArray_length harray]
    by_contra hlinked
    exact hend ⟨hdvd, by omega⟩

/-- A loop that stops with the range cuts it. -/
theorem tile_cut (hM : 0 < maxObjSize) (he : e < 2 ^ 64) {array : List Data} (harray : linkArray links = some array)
    (hfits : (e - 1) / maxObjSize < links.entries.length) (hint : (e - 1) / maxObjSize + 1 < 2 ^ 31)
    (hend : ¬ (maxObjSize ∣ e ∧ e / maxObjSize < links.entries.length)) (rest : List Data) :
    ∀ (start : Nat) (position : Int), array.drop (start / maxObjSize) = rest → start < e →
      ∃ ds, tile maxObjSize false (e / maxObjSize) rest (start / maxObjSize) start (e - start) position = some ds ∧
        Cut maxObjSize links e start position ds := by
  induction rest with
  | nil =>
    intro start position hdrop hstart
    have hle := List.drop_eq_nil_iff.mp hdrop
    have hlast := (lastSegment_le maxObjSize hstart).1
    rw [linkArray_length harray] at hle
    omega
  | cons link rest ih =>
    intro start position hdrop hstart
    have hlink : links.lookup ((start / maxObjSize : Nat) : Int) = some link := by
      rw [← linkArray_get harray, ← List.head?_drop, hdrop]
      rfl
    have hrest : array.drop (start / maxObjSize + 1) = rest := by
      rw [← List.tail_drop, hdrop]
      rfl
    have hlast := (lastSegment_le maxObjSize hstart).1
    obtain ⟨size, hsize⟩ : ∃ size, size = min (e - start) (maxObjSize - start % maxObjSize) := ⟨_, rfl⟩
    have hturn := tile_turn hM hsize he hstart (by omega) link rest position
    by_cases hmore : start + size < e
    · -- the next segment starts where this one ends
      have hdiv := cut_next_segment hM hsize hmore
      obtain ⟨ds, htile, hcut⟩ := ih (start + size) (toInt (position + size)) (by rw [hdiv, hrest]) hmore
      rw [hdiv] at htile
      rw [htile] at hturn
      exact ⟨_, hturn, .turn hstart hlink hsize hcut⟩
    · -- the range ends in this segment, or with it and with the file
      have hoff := Nat.mod_lt start hM
      have hreach : start + size = e := by omega
      have hstop := stops_behind harray hend hstart (cut_last_segment hM hsize hstart hreach)
      rw [hrest] at hstop
      rw [tile_stop hstop] at hturn
      refine ⟨_, hturn, .turn hstart hlink hsize ?_⟩
      rw [hreach]
      exact .done

/-! ## Sizes and offsets of a cut -/

/-- The size of the part a distribution reads. -/
def partSize (d : DataDistribution) : Nat := d.sourceData.dataSize

/-- The position and the size of a segment's part, in source and destination of a distribution of `link`. -/
structure SegmentPart (maxObjSize offset : Nat) (link : Data) (d : DataDistribution) : Prop where
  source : d.sourceData = { link with position := offset, dataSize := partSize d }
  destination : d.destinationData = { link with position := d.destinationData.position, dataSize := partSize d }
  storageIndex : d.storageIndex = link.storageIndex
  size_pos : 0 < partSize d
  inside : offset + partSize d ≤ maxObjSize

theorem tileAt_segmentPart (link : Data) {offset size : Nat} (position : Int) (hsize : 0 < size)
    (hin : offset + size ≤ maxObjSize) : SegmentPart maxObjSize offset link (tileAt link offset size position) :=
  ⟨rfl, rfl, rfl, hsize, hin⟩

@[simp] theorem tileAt_size (link : Data) (offset size : Nat) (position : Int) :
    partSize (tileAt link offset size position) = size := rfl

@[simp] theorem tileAt_position (link : Data) (offset size : Nat) (position : Int) :
    (tileAt link offset size position).destinationData.position = toSize position := rfl

variable {start : Nat} {position : Int} {ds : List DataDistribution}

theorem Cut.start_le (h : Cut maxObjSize links e start position ds) : start ≤ e := by
  cases h with
  | done => exact le_rfl
  | turn hstart => exact hstart.le

theorem Cut.eq_nil (h : Cut maxObjSize links e e position ds) : ds = [] := by
  cases h with
  | done => rfl
  | turn hstart => exact absurd hstart (lt_irrefl _)

theorem Cut.total (h : Cut maxObjSize links e start position ds) : (ds.map partSize).sum = e - start := by
  induction h with
  | done => simp
  | @turn start size _ _ _ hstart _ hsize hrest ih =>
    have hle := hrest.start_le
    rw [List.map_cons, List.sum_cons, ih, tileAt_size]
    omega

theorem Cut.length_eq (hM : 0 < maxObjSize) (h : Cut maxObjSize links e start position ds) (hlt : start < e) :
    ds.length = (e - 1) / maxObjSize - start / maxObjSize + 1 := by
  induction h with
  | done => exact absurd hlt (lt_irrefl _)
  | @turn start size _ _ ds hstart _ hsize hrest ih =>
    have hle := hrest.start_le
    have hlast := (lastSegment_le maxObjSize hstart).1
    rw [List.length_cons]
    by_cases hmore : start + size < e
    · have hlast' := (lastSegment_le maxObjSize hmore).1
      rw [ih hmore]
      rw [cut_next_segment hM hsize hmore] at hlast' ⊢
      omega
    · have hreach : start + size = e := by omega
      rw [hreach] at hrest
      rw [hrest.eq_nil, cut_last_segment hM hsize hstart hreach, List.length_nil, Nat.sub_self]

/-- Every distribution is a part of the link of its own segment; all but the first start it. -/
theorem Cut.segmentPart (hM : 0 < maxObjSize) (h : Cut maxObjSize links e start position ds) :
    ∀ j d, ds[j]? = some d → ∃ link, links.lookup ((start / maxObjSize + j : Nat) : Int) = some link ∧
      SegmentPart maxObjSize (if j = 0 then start % maxObjSize else 0) link d := by
  induction h with
  | done => simp
  | @turn start size _ link ds hstart hlink hsize hrest ih =>
    have hoff := Nat.mod_lt start hM
    intro j d hd
    cases j with
    | zero =>
      rw [List.getElem?_cons_zero] at hd
      rw [← Option.some.inj hd, if_pos rfl]
      exact ⟨link, hlink, tileAt_segmentPart link _ (by omega) (by omega)⟩
    | succ j =>
      rw [List.getElem?_cons_succ] at hd
      have hle := hrest.start_le
      have hmore : start + size < e := by
        by_contra hnot
        rw [show start + size = e by omega] at hrest
        rw [hrest.eq_nil] at hd
        cases hd
      obtain ⟨link', hlink', hpart⟩ := ih j d hd
      rw [cut_next_segment hM hsize hmore, Nat.add_assoc, Nat.add_comm 1 j] at hlink'
      rw [cut_next hM hsize hmore, Nat.mul_mod_left, ite_self] at hpart
      exact ⟨link', hlink', by rwa [if_neg (Nat.succ_ne_zero j)]⟩

/-! ## Positions of a cut -/

/-- Every distribution has the sizes of those in front of it, after `base`, as its position. -/
def Placed (base : Nat) (ds : List DataDistribution) : Prop :=
  ∀ j d, ds[j]? = some d → d.destinationData.position = base + ((ds.take j).map partSize).sum

theorem placed_nil (base : Nat) : Placed base [] := by
  intro j d hd
  cases hd

theorem placed_cons {base : Nat} {d : DataDistribution} :
    Placed base (d :: ds) ↔ d.destinationData.position = base ∧ Placed (base + partSize d) ds := by
  constructor
  · intro h
    refine ⟨h 0 d rfl, ?_⟩
    intro j d' hd'
    rw [h (j + 1) d' hd', List.take_succ_cons, List.map_cons, List.sum_cons, Nat.add_assoc]
  · rintro ⟨hbase, h⟩ j d' hd'
    cases j with
    | zero => rw [← Option.some.inj hd', hbase, List.take_zero, List.map_nil, List.sum_nil, Nat.add_zero]
    | succ j => rw [h j d' hd', List.take_succ_cons, List.map_cons, List.sum_cons, Nat.add_assoc]

/-- A number that leaves `int` by less than a segment's size does not come back unchanged. -/
theorem toSize_toInt_ne {n : Nat} (h : 2 ^ 31 ≤ n) (h' : n < 2 ^ 63 + 2 ^ 31) : toSize (toInt n) ≠ n := by
  have hbounds := toInt_bounds n
  unfold toSize
  omega

/-- A distribution at a position outside of `int` has another one. -/
theorem Cut.not_placed {p : Nat} (hlt : start < e) (hover : 2 ^ 31 ≤ start - p) (hposition : start - p < 2 ^ 63 + 2 ^ 31)
    (h : Cut maxObjSize links e start (toInt (start - p : Nat)) ds) : ¬ Placed (start - p) ds := by
  have hne : toSize (toInt (start - p : Nat)) ≠ start - p := toSize_toInt_ne hover hposition
  cases h with
  | done => omega
  | turn =>
    rw [placed_cons]
    rintro ⟨hwrong, -⟩
    rw [tileAt_position] at hwrong
    exact hne hwrong

/-- The positions of a cut are right exactly when the last one fits into an `int`. -/
theorem Cut.placed_iff (hM : 0 < maxObjSize) (hM' : maxObjSize < 2 ^ 63) {p : Nat}
    (h : Cut maxObjSize links e start position ds) :
    p ≤ start → start < e → position = ((start - p : Nat) : Int) → start - p < 2 ^ 31 →
      (Placed (start - p) ds ↔
        start / maxObjSize = (e - 1) / maxObjSize ∨ (e - 1) / maxObjSize * maxObjSize - p < 2 ^ 31) := by
  induction h with
  | done =>
    intro _ hlt
    exact absurd hlt (lt_irrefl _)
  | @turn start size position link ds hstart hlink hsize hrest ih =>
    intro hp _ hposition hsmall
    have hle := hrest.start_le
    have hoff := Nat.mod_lt start hM
    have hhead : (tileAt link (start % maxObjSize) size position).destinationData.position = start - p := by
      rw [tileAt_position, hposition, toSize_natCast (by omega)]
    rw [placed_cons, tileAt_size, show start - p + size = start + size - p by omega]
    by_cases hmore : start + size < e
    · have hnext := cut_next hM hsize hmore
      have hdiv := cut_next_segment hM hsize hmore
      have hlast := (lastSegment_le maxObjSize hmore).1
      have hlater : start + size ≤ (e - 1) / maxObjSize * maxObjSize := by
        rw [hnext]
        exact Nat.mul_le_mul_right _ (by omega)
      have hint : position + size = ((start + size - p : Nat) : Int) := by
        rw [hposition]
        omega
      rw [hint] at hrest ih
      by_cases hfits : start + size - p < 2 ^ 31
      · have hih := ih (by omega) hmore (toInt_of_lt hfits) hfits
        rw [hih, hdiv]
        constructor
        · rintro ⟨-, hsame | hin⟩
          · right
            rw [← hsame, ← hnext]
            exact hfits
          · exact Or.inr hin
        · rintro (hsame | hin)
          · omega
          · exact ⟨hhead, Or.inr hin⟩
      · -- the next distribution exists and has a position outside of `int`
        have hout : ¬ Placed (start + size - p) ds := hrest.not_placed hmore (by omega) (by omega)
        constructor
        · rintro ⟨-, hplaced⟩
          exact absurd hplaced hout
        · rintro (hsame | hin) <;> omega
    · have hreach : start + size = e := by omega
      rw [hreach] at hrest
      rw [hrest.eq_nil]
      exact iff_of_true ⟨hhead, placed_nil _⟩ (Or.inl (cut_last_segment hM hsize hstart hreach).symm)

/-! ## Requests -/

/-- The distributions tile the request of `n` bytes at `p`: one for each segment it touches, in order, each with a
part of its own segment, all but the first from its start, and placed one behind the other. -/
structure Tiled (maxObjSize : Nat) (links : Links) (p n : Nat) (ds : List DataDistribution) : Prop where
  length_eq : ds.length = (p + n - 1) / maxObjSize - p / maxObjSize + 1
  segmentPart : ∀ j d, ds[j]? = some d → ∃ link, links.lookup ((p / maxObjSize + j : Nat) : Int) = some link ∧
    SegmentPart maxObjSize (if j = 0 then p % maxObjSize else 0) link d
  total : (ds.map partSize).sum = n
  placed : Placed 0 ds

/-- The requests that `Locate` tiles, by the number `k` of links: the end of the range does not wrap around and is
not the start of a linked segment, and the segments and the position of the last part fit into an `int`. -/
def TilesRight (maxObjSize k p n : Nat) : Prop :=
  p + n < 2 ^ 64 ∧ ¬ (maxObjSize ∣ p + n ∧ (p + n) / maxObjSize < k) ∧ (p + n - 1) / maxObjSize + 1 < 2 ^ 31 ∧
    (p / maxObjSize = (p + n - 1) / maxObjSize ∨ (p + n - 1) / maxObjSize * maxObjSize - p < 2 ^ 31)

theorem Tiled.ne_nil {p n : Nat} (h : Tiled maxObjSize links p n ds) : ds ≠ [] := by
  rintro rfl
  have hlength := h.length_eq
  rw [List.length_nil] at hlength
  omega

theorem toInt_nonneg {n : Nat} (h : 0 ≤ toInt n) : (toInt n).toNat = n % 2 ^ 32 := by
  unfold toInt at h ⊢
  rw [Int.bmod_def] at h ⊢
  split_ifs at h ⊢ <;> omega

section request

variable {conf : ConfigurationManager} {request : Data}

/-- The loop a request starts, when its first segment number is not negative as an `int`. -/
theorem tiles_eq_tile (hsize : 0 < request.dataSize) {array : List Data} (harray : linkArray links = some array)
    (hneg : 0 ≤ toInt (request.position / conf.maxObjSize : Nat)) :
    tiles conf links request = tile conf.maxObjSize false
      ((request.position + request.dataSize) % 2 ^ 64 / conf.maxObjSize)
      (array.drop (request.position / conf.maxObjSize % 2 ^ 32)) (request.position / conf.maxObjSize % 2 ^ 32)
      request.position request.dataSize 0 := by
  rw [tiles, harray, Option.bind_eq_bind, Option.bind_some]
  dsimp only
  rw [if_neg (not_lt.mpr hneg), toInt_nonneg hneg, decide_eq_false (by omega)]

/-- Distributions, if there are any, come out of the loop. -/
theorem tiles_loop (hne : ds ≠ []) (htiles : tiles conf links request = some ds) :
    ∃ array, linkArray links = some array ∧ 0 ≤ toInt (request.position / conf.maxObjSize : Nat) ∧
      tile conf.maxObjSize (decide (request.dataSize = 0))
        ((request.position + request.dataSize) % 2 ^ 64 / conf.maxObjSize)
        (array.drop (request.position / conf.maxObjSize % 2 ^ 32)) (request.position / conf.maxObjSize % 2 ^ 32)
        request.position request.dataSize 0 = some ds := by
  rw [tiles, Option.bind_eq_bind, Option.bind_eq_some_iff] at htiles
  obtain ⟨array, harray, htiles⟩ := htiles
  dsimp only at htiles
  by_cases hneg : toInt (request.position / conf.maxObjSize : Nat) < 0
  · rw [if_pos hneg] at htiles
    split at htiles
    · cases htiles
    · exact absurd (Option.some.inj htiles).symm hne
  · rw [if_neg hneg, toInt_nonneg (not_lt.mp hneg)] at htiles
    exact ⟨array, harray, not_lt.mp hneg, htiles⟩

/-- The number of segments of the address space is not a multiple of the range of `int`. -/
theorem segments_mod_ne {maxObjSize : Nat} (hM : 0 < maxObjSize) (hM' : maxObjSize < 2 ^ 63) :
    (2 ^ 64 - 1) / maxObjSize % 2 ^ 32 ≠ 0 := by
  intro hmod
  obtain ⟨c, hc⟩ := Nat.dvd_of_mod_eq_zero hmod
  have hcut := Nat.div_add_mod (2 ^ 64 - 1) maxObjSize
  have hlt := Nat.mod_lt (2 ^ 64 - 1) hM
  rw [hc, show maxObjSize * (2 ^ 32 * c) = 2 ^ 32 * (maxObjSize * c) by ring] at hcut
  rcases Nat.eq_zero_or_pos c with hzero | hpos
  · rw [hzero] at hcut
    omega
  · have hle : maxObjSize ≤ maxObjSize * c := Nat.le_mul_of_pos_right _ hpos
    omega

/-- A range that wraps around is not tiled: the loop would have to start in front of segment 0. -/
theorem wrapped_not_tiled {maxObjSize p n : Nat} (hM : 0 < maxObjSize) (hM' : maxObjSize < 2 ^ 63) (hp : p < 2 ^ 64)
    (hn : n < 2 ^ 64) (hwrap : 2 ^ 64 ≤ p + n) :
    (p + n) % 2 ^ 64 / maxObjSize + 1 - p / maxObjSize % 2 ^ 32 < (p + n - 1) / maxObjSize - p / maxObjSize + 1 := by
  have hend : (p + n) % 2 ^ 64 = p + n - 2 ^ 64 := by omega
  have hlast : (p + n) % 2 ^ 64 / maxObjSize + (2 ^ 64 - 1) / maxObjSize ≤ (p + n - 1) / maxObjSize := by
    rw [hend, show p + n - 1 = p + n - 2 ^ 64 + (2 ^ 64 - 1) by omega]
    exact Nat.div_add_div_le_add_div
  have hfirst : p / maxObjSize ≤ (2 ^ 64 - 1) / maxObjSize := Nat.div_le_div_right (by omega)
  have hne := segments_mod_ne hM hM'
  by_contra hnot
  obtain ⟨hzero, heq⟩ : p / maxObjSize % 2 ^ 32 = 0 ∧ p / maxObjSize = (2 ^ 64 - 1) / maxObjSize := by
    generalize (p + n) % 2 ^ 64 / maxObjSize = a at *
    generalize p / maxObjSize = b at *
    generalize (2 ^ 64 - 1) / maxObjSize = c at *
    generalize (p + n - 1) / maxObjSize = d at *
    omega
  rw [heq] at hzero
  exact hne hzero

/-- A request that ends where a linked segment starts takes that segment too. -/
theorem edge_not_tiled {maxObjSize k p n : Nat} (hn : 0 < n) (hM : 0 < maxObjSize) (hdvd : maxObjSize ∣ p + n)
    (hlinked : (p + n) / maxObjSize < k) :
    min (k - p / maxObjSize) ((p + n) / maxObjSize + 1 - p / maxObjSize) ≠
      (p + n - 1) / maxObjSize - p / maxObjSize + 1 := by
  obtain ⟨s, hs⟩ := hdvd
  have hpos : 0 < s := by
    rcases Nat.eq_zero_or_pos s with hzero | hpos
    · rw [hzero] at hs
      omega
    · exact hpos
  have hend : (p + n) / maxObjSize = s := by rw [hs, Nat.mul_div_cancel_left _ hM]
  have hlast : (p + n - 1) / maxObjSize = s - 1 := by
    apply Nat.div_eq_of_lt_le
    · have hle : (s - 1) * maxObjSize + maxObjSize = maxObjSize * s := by
        rw [← Nat.succ_mul, Nat.succ_eq_add_one, Nat.sub_add_cancel hpos, Nat.mul_comm]
      omega
    · rw [Nat.sub_add_cancel hpos, Nat.mul_comm]
      omega
  have hfirst := (lastSegment_le maxObjSize (show p < p + n by omega)).1
  rw [hend] at hlinked ⊢
  omega

/-- The distributions of a request without wrap-around, as a cut. -/
theorem tiles_cut (hsize : 0 < request.dataSize) (horder : InOrder links)
    (hlt : request.position + request.dataSize < 2 ^ 64)
    (hfits : (request.position + request.dataSize - 1) / conf.maxObjSize < links.entries.length)
    (hint : (request.position + request.dataSize - 1) / conf.maxObjSize + 1 < 2 ^ 31)
    (hend : ¬ (conf.maxObjSize ∣ request.position + request.dataSize ∧
      (request.position + request.dataSize) / conf.maxObjSize < links.entries.length)) :
    ∃ ds, tiles conf links request = some ds ∧
      Cut conf.maxObjSize links (request.position + request.dataSize) request.position 0 ds := by
  obtain ⟨array, harray⟩ := (linkArray_isSome_iff links).mpr horder
  have hfirst := (lastSegment_le conf.maxObjSize (show request.position < request.position + request.dataSize by omega)).1
  have hpositive : 0 ≤ toInt (request.position / conf.maxObjSize : Nat) := by
    rw [toInt_of_lt (by omega)]
    exact Int.natCast_nonneg _
  obtain ⟨ds, htile, hcut⟩ := tile_cut conf.maxObjSize_pos hlt harray hfits hint hend _ request.position 0 rfl (by omega)
  refine ⟨ds, ?_, hcut⟩
  rw [Nat.add_sub_cancel_left] at htile
  rw [tiles_eq_tile hsize harray hpositive, Nat.mod_eq_of_lt hlt, Nat.mod_eq_of_lt (by omega), htile]

/-- What has to hold of the numbers of a request that is tiled. -/
theorem tiled_bounds (hp : request.position < 2 ^ 64) (hn : 0 < request.dataSize) (hn' : request.dataSize < 2 ^ 64)
    (hlast : (request.position + request.dataSize - 1) / conf.maxObjSize < links.entries.length)
    (htiles : tiles conf links request = some ds)
    (htiled : Tiled conf.maxObjSize links request.position request.dataSize ds) :
    request.position + request.dataSize < 2 ^ 64 ∧
      ¬ (conf.maxObjSize ∣ request.position + request.dataSize ∧
        (request.position + request.dataSize) / conf.maxObjSize < links.entries.length) ∧
      (request.position + request.dataSize - 1) / conf.maxObjSize + 1 < 2 ^ 31 := by
  have hM := conf.maxObjSize_pos
  have hlt : request.position < request.position + request.dataSize := by omega
  obtain ⟨hfirst, hle, -⟩ := lastSegment_le conf.maxObjSize hlt
  obtain ⟨array, harray, hpositive, htile⟩ := tiles_loop htiled.ne_nil htiles
  rw [decide_eq_false (by omega)] at htile
  have hbounds := toInt_bounds (request.position / conf.maxObjSize : Nat)
  have hi := toInt_nonneg hpositive
  have hlength := (tile_length htile).symm.trans htiled.length_eq
  rw [List.length_drop, linkArray_length harray] at hlength
  have hend : request.position + request.dataSize < 2 ^ 64 := by
    by_contra hwrap
    have hless := wrapped_not_tiled hM conf.maxObjSize_lt hp hn' (not_lt.mp hwrap)
    omega
  rw [Nat.mod_eq_of_lt hend] at htile hlength
  have hint : (request.position + request.dataSize - 1) / conf.maxObjSize + 1 < 2 ^ 31 := by
    by_contra hover
    rw [tile_overflows (Or.inr (by omega)) _ _ _ _ _ (by omega)
      (by rw [List.length_drop, linkArray_length harray]; omega)] at htile
    cases htile
  have hsmall : request.position / conf.maxObjSize % 2 ^ 32 = request.position / conf.maxObjSize :=
    Nat.mod_eq_of_lt (by omega)
  rw [hsmall] at hlength
  exact ⟨hend, fun h => edge_not_tiled hn hM h.1 h.2 hlength, hint⟩

theorem tiles_tiled_iff (horder : InOrder links) (hp : request.position < 2 ^ 64) (hn : 0 < request.dataSize)
    (hn' : request.dataSize < 2 ^ 64)
    (hfits : request.position + request.dataSize ≤ links.entries.length * conf.maxObjSize) :
    (∃ ds, tiles conf links request = some ds ∧
      Tiled conf.maxObjSize links request.position request.dataSize ds) ↔
        TilesRight conf.maxObjSize links.entries.length request.position request.dataSize := by
  have hM := conf.maxObjSize_pos
  have hM' := conf.maxObjSize_lt
  have hlt : request.position < request.position + request.dataSize := by omega
  have hlast : (request.position + request.dataSize - 1) / conf.maxObjSize < links.entries.length := by
    apply (Nat.div_lt_iff_lt_mul hM).mpr
    omega
  constructor
  · rintro ⟨ds, htiles, htiled⟩
    obtain ⟨hend, hedge, hint⟩ := tiled_bounds hp hn hn' hlast htiles htiled
    obtain ⟨ds', htiles', hcut⟩ := tiles_cut hn horder hend hlast hint hedge
    obtain rfl := Option.some.inj (htiles.symm.trans htiles')
    refine ⟨hend, hedge, hint, ?_⟩
    apply (hcut.placed_iff hM hM' le_rfl hlt (by simp) (by simp)).mp
    rw [Nat.sub_self]
    exact htiled.placed
  · rintro ⟨hend, hedge, hint, hposition⟩
    obtain ⟨ds, htiles, hcut⟩ := tiles_cut hn horder hend hlast hint hedge
    have hplaced := (hcut.placed_iff hM hM' le_rfl hlt (by simp) (by simp)).mpr hposition
    rw [Nat.sub_self] at hplaced
    refine ⟨ds, htiles, hcut.length_eq hM hlt, hcut.segmentPart hM, ?_, hplaced⟩
    rw [hcut.total, Nat.add_sub_cancel_left]

/-- `Locate` tiles a request that lies in the linked segments exactly when its range does not wrap around and does
not end where a linked segment starts, and its counters stay inside `int`. -/
theorem locate_tiles_iff [Wire] {env : Env} {m : Metadata} {w : Backends}
    (hprimary : primaryMetadata conf env request w = .ok m w) (horder : InOrder m.links) (hp : request.position < 2 ^ 64)
    (hn : 0 < request.dataSize) (hn' : request.dataSize < 2 ^ 64)
    (hfits : request.position + request.dataSize ≤ m.links.entries.length * conf.maxObjSize) :
    (∃ ds, MetadataOrchestrator.locate conf env request w = .ok (ds, m) w ∧
      Tiled conf.maxObjSize m.links request.position request.dataSize ds) ↔
        TilesRight conf.maxObjSize m.links.entries.length request.position request.dataSize := by
  rw [← tiles_tiled_iff horder hp hn hn' hfits]
  constructor
  · rintro ⟨ds, hlocate, htiled⟩
    exact ⟨ds, tiles_of_locate hlocate, htiled⟩
  · rintro ⟨ds, htiles, htiled⟩
    exact ⟨ds, locate_ok hprimary htiles, htiled⟩

end request

/-- A file `f` of two segments. -/
def twoSegments : Metadata where
  links := (∅ : Links).insert 1 { id := [0x66, 0x31] } |>.insert 0 { id := [0x66, 0x30] }

/-- The record of `f` in the only file system. -/
def twoSegmentsStored : Backends := putRecord (fun _ _ => none) .fileIo [0x66] twoSegments

theorem twoSegments_entries :
    twoSegments.links.entries = [⟨0, { id := [0x66, 0x30] }⟩, ⟨1, { id := [0x66, 0x31] }⟩] := rfl

theorem twoSegments_inOrder : InOrder twoSegments.links := by
  apply inOrder_of_bounds
  intro e he
  rw [twoSegments_entries] at he ⊢
  rcases List.mem_pair.mp he with h | h <;> rw [h] <;> decide

theorem twoSegments_primary (size : Nat) :
    primaryMetadata oneFile Env.calm { id := [0x66], dataSize := size } twoSegmentsStored =
      .ok twoSegments twoSegmentsStored := by
  refine primaryMetadata_primary (t := .fileIo) rfl rfl ?_ rfl (putRecord_holds _ _ _ _)
  intro e he
  rw [twoSegments_entries] at he
  rcases List.mem_pair.mp he with h | h <;> exact h ▸ .inl rfl

/-- Six bytes from the start. -/
theorem twoSegments_tiled :
    ∃ ds, MetadataOrchestrator.locate oneFile Env.calm { id := [0x66], dataSize := 6 } twoSegmentsStored =
      .ok (ds, twoSegments) twoSegmentsStored ∧ Tiled 4 twoSegments.links 0 6 ds := by
  apply (locate_tiles_iff (twoSegments_primary 6) twoSegments_inOrder (by decide) (by decide) (by decide) (by decide)).mpr
  exact ⟨by decide, by decide, by decide, Or.inr (by decide)⟩

/-- The first segment, to its end: a distribution of no bytes follows. -/
theorem firstSegment_not_tiled :
    MetadataOrchestrator.locate oneFile Env.calm { id := [0x66], dataSize := 4 } twoSegmentsStored =
        .ok ([tileAt { id := [0x66, 0x30] } 0 4 0, tileAt { id := [0x66, 0x31] } 0 0 4], twoSegments) twoSegmentsStored ∧
      ¬ Tiled 4 twoSegments.links 0 4 [tileAt { id := [0x66, 0x30] } 0 4 0, tileAt { id := [0x66, 0x31] } 0 0 4] := by
  have htiles : tiles oneFile twoSegments.links { id := [0x66], dataSize := 4 } =
      some [tileAt { id := [0x66, 0x30] } 0 4 0, tileAt { id := [0x66, 0x31] } 0 0 4] := by decide +kernel
  refine ⟨locate_ok (twoSegments_primary 4) htiles, ?_⟩
  intro htiled
  exact absurd htiled.length_eq (by decide)

end Symbios
