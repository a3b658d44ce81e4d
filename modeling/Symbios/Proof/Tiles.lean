import Symbios.Base.UnorderedMap
import Symbios.Proof.Records

/-!
# The array of links and the loop of `Locate`

The array has one element per link and is filled at the keys. It can be filled exactly when the keys are
`0..n-1` (`linkArray_isSome_iff`), and then every element is the link of its segment (`linkArray_get`). The loop
stays inside `int` while there are fewer than `2 ^ 31` links (`tiles_isSome`).
-/

namespace Symbios

open MetadataOrchestrator

/-- The keys of the links are the numbers below their number. -/
def InOrder (links : Links) : Prop := ∀ s : Int, s ∈ links ↔ 0 ≤ s ∧ s < links.entries.length

/-! ## Filling the array -/

/-- The fold of `linkArray`, from any array on. -/
def fill (array : List Data) (l : List (Sigma fun _ : Int => Data)) : Option (List Data) :=
  l.foldlM
    (fun array e => if 0 ≤ e.1 ∧ e.1 < (array.length : Int) then some (array.set e.1.toNat e.2) else none) array

theorem fill_cons (array : List Data) (e : Sigma fun _ : Int => Data) (l : List (Sigma fun _ : Int => Data)) :
    fill array (e :: l) =
      if 0 ≤ e.1 ∧ e.1 < (array.length : Int) then fill (array.set e.1.toNat e.2) l else none := by
  rw [fill, List.foldlM_cons]
  by_cases h : 0 ≤ e.1 ∧ e.1 < (array.length : Int)
  · rw [if_pos h, if_pos h]
    rfl
  · rw [if_neg h, if_neg h]
    rfl

theorem fill_bounds {l : List (Sigma fun _ : Int => Data)} {array array' : List Data}
    (h : fill array l = some array') : ∀ e ∈ l, 0 ≤ e.1 ∧ e.1 < (array.length : Int) := by
  induction l generalizing array with
  | nil => simp
  | cons e l ih =>
    rw [fill_cons] at h
    split at h
    next he =>
      intro e' he'
      rcases List.mem_cons.mp he' with rfl | he'
      · exact he
      · simpa using ih h e' he'
    next => cases h

theorem fill_eq_some {l : List (Sigma fun _ : Int => Data)} (hnodup : l.NodupKeys) {array : List Data}
    (hbounds : ∀ e ∈ l, 0 ≤ e.1 ∧ e.1 < (array.length : Int)) :
    ∃ array', fill array l = some array' ∧ array'.length = array.length ∧
      (∀ e ∈ l, array'[e.1.toNat]? = some e.2) ∧
      ∀ k : Nat, (∀ e ∈ l, e.1.toNat ≠ k) → array'[k]? = array[k]? := by
  induction l generalizing array with
  | nil => exact ⟨array, rfl, rfl, by simp, by simp⟩
  | cons e l ih =>
    obtain ⟨hnotin, hnodup'⟩ := List.nodupKeys_cons.mp hnodup
    have he := hbounds e (by simp)
    have hset : ∀ e' ∈ l, 0 ≤ e'.1 ∧ e'.1 < ((array.set e.1.toNat e.2).length : Int) :=
      fun e' he' => by simpa using hbounds e' (by simp [he'])
    obtain ⟨array', hfill, hlen, hin, hout⟩ := ih hnodup' hset
    rw [List.length_set] at hlen
    refine ⟨array', ?_, hlen, ?_, ?_⟩
    · rw [fill_cons, if_pos he, hfill]
    · intro e' he'
      rcases List.mem_cons.mp he' with rfl | he'
      · -- a later entry of the same key would contradict `hnodup`
        have hfresh : ∀ e'' ∈ l, e''.1.toNat ≠ e'.1.toNat := by
          intro e'' he'' heq
          have hb := hbounds e'' (by simp [he''])
          have hkey : e''.1 = e'.1 := by omega
          exact hnotin (hkey ▸ List.mem_keys_of_mem he'')
        rw [hout _ hfresh, List.getElem?_set_self (by omega)]
      · exact hin e' he'
    · intro k hk
      rw [hout k fun e' he' => hk e' (by simp [he']), List.getElem?_set_ne (hk e (by simp))]

/-! ## The array of links -/

theorem linkArray_eq (links : Links) : linkArray links = fill (List.replicate links.entries.length {}) links.entries := rfl

theorem InOrder.bounds {links : Links} (h : InOrder links) :
    ∀ e ∈ links.entries, 0 ≤ e.1 ∧ e.1 < (links.entries.length : Int) :=
  fun e he => (h e.1).mp (AList.mem_keys.mpr (List.mem_keys_of_mem he))

/-- As many distinct keys as numbers below the size: the keys are these numbers. -/
theorem inOrder_of_bounds {links : Links} (h : ∀ e ∈ links.entries, 0 ≤ e.1 ∧ e.1 < (links.entries.length : Int)) :
    InOrder links := by
  have hnodup : links.entries.keys.Nodup := links.nodupKeys
  have hsub : links.entries.keys.toFinset ⊆ Finset.Ico (0 : Int) links.entries.length := by
    intro s hs
    rw [List.mem_toFinset] at hs
    obtain ⟨link, hlink⟩ := List.exists_of_mem_keys hs
    exact Finset.mem_Ico.mpr (h ⟨s, link⟩ hlink)
  have hcard : (Finset.Ico (0 : Int) links.entries.length).card ≤ links.entries.keys.toFinset.card := by
    rw [List.toFinset_card_of_nodup hnodup]
    simp [List.keys]
  have heq := Finset.eq_of_subset_of_card_le hsub hcard
  intro s
  rw [← Finset.mem_Ico, ← heq, List.mem_toFinset]
  exact AList.mem_keys

theorem linkArray_isSome_iff (links : Links) : (∃ array, linkArray links = some array) ↔ InOrder links := by
  rw [linkArray_eq]
  constructor
  · rintro ⟨array, h⟩
    refine inOrder_of_bounds fun e he => ?_
    simpa using fill_bounds h e he
  · intro h
    have hbounds : ∀ e ∈ links.entries,
        0 ≤ e.1 ∧ e.1 < ((List.replicate links.entries.length ({} : Data)).length : Int) := by
      simpa using h.bounds
    obtain ⟨array, hfill, -⟩ := fill_eq_some links.nodupKeys hbounds
    exact ⟨array, hfill⟩

theorem linkArray_length {links : Links} {array : List Data} (h : linkArray links = some array) :
    array.length = links.entries.length := by
  have hbounds := fill_bounds ((linkArray_eq links).symm.trans h)
  obtain ⟨array', hfill, hlen, -⟩ := fill_eq_some links.nodupKeys hbounds
  rw [← linkArray_eq, h] at hfill
  cases hfill
  simpa using hlen

/-- Element `s` of the array is the link of segment `s`. -/
theorem linkArray_get {links : Links} {array : List Data} (h : linkArray links = some array) (s : Nat) :
    array[s]? = links.lookup (s : Int) := by
  have horder := (linkArray_isSome_iff links).mp ⟨array, h⟩
  have hlen := linkArray_length h
  obtain ⟨array', hfill, -, hin, -⟩ := fill_eq_some links.nodupKeys (fill_bounds ((linkArray_eq links).symm.trans h))
  rw [← linkArray_eq, h] at hfill
  cases hfill
  by_cases hs : s < links.entries.length
  · have hmem : (s : Int) ∈ links := (horder s).mpr (by omega)
    obtain ⟨link, hlink⟩ := UnorderedMap.exists_lookup hmem
    rw [hlink]
    exact hin ⟨s, link⟩ (AList.mem_lookup_iff.mp hlink)
  · have hmem : (s : Int) ∉ links := fun hmem => hs (by have := (horder s).mp hmem; omega)
    rw [List.getElem?_eq_none (by omega), AList.lookup_eq_none.mpr hmem]

/-! ## The loop -/

/-- `relative_offset` of one turn of the loop. -/
def tileOffset (maxObjSize : Nat) (getAll : Bool) (startOffset : Nat) : Nat :=
  if getAll then 0 else startOffset % maxObjSize

/-- `data_size` of one turn of the loop. -/
def tileSize (maxObjSize : Nat) (getAll : Bool) (startOffset sizeLeft : Nat) : Nat :=
  if maxObjSize - tileOffset maxObjSize getAll startOffset > sizeLeft then sizeLeft
  else maxObjSize - tileOffset maxObjSize getAll startOffset

theorem tile_cons (maxObjSize : Nat) (getAll : Bool) (endSegment : Nat) (link : Data) (rest : List Data)
    (i startOffset sizeLeft : Nat) (position : Int) :
    tile maxObjSize getAll endSegment (link :: rest) i startOffset sizeLeft position =
      if getAll = true ∨ i ≤ endSegment then
        if i + 1 < 2 ^ 31 then
          (tile maxObjSize getAll endSegment rest (i + 1)
              ((startOffset + tileSize maxObjSize getAll startOffset sizeLeft) % 2 ^ 64)
              (sizeLeft - tileSize maxObjSize getAll startOffset sizeLeft)
              (toInt (position + tileSize maxObjSize getAll startOffset sizeLeft))).map
            (tileAt link (tileOffset maxObjSize getAll startOffset)
              (tileSize maxObjSize getAll startOffset sizeLeft) position :: ·)
        else none
      else some [] := rfl

theorem tileSize_eq (maxObjSize start sizeLeft : Nat) :
    tileSize maxObjSize false start sizeLeft = min sizeLeft (maxObjSize - start % maxObjSize) := by
  simp only [tileSize, tileOffset, Bool.false_eq_true, if_false]
  split_ifs <;> omega

theorem tile_stop {maxObjSize endSegment i start sizeLeft : Nat} {position : Int} {rest : List Data}
    (h : rest = [] ∨ endSegment < i) : tile maxObjSize false endSegment rest i start sizeLeft position = some [] := by
  cases rest with
  | nil => rfl
  | cons link rest =>
    rw [tile_cons, if_neg]
    simpa using h

theorem tile_isSome (maxObjSize : Nat) (getAll : Bool) (endSegment : Nat) :
    ∀ (links : List Data) (i startOffset sizeLeft : Nat) (position : Int), i + links.length < 2 ^ 31 →
      ∃ tiles, tile maxObjSize getAll endSegment links i startOffset sizeLeft position = some tiles
  | [], _, _, _, _, _ => ⟨[], rfl⟩
  | link :: rest, i, startOffset, sizeLeft, position, h => by
    rw [List.length_cons] at h
    rw [tile_cons]
    split
    · rw [if_pos (by omega)]
      obtain ⟨tiles, htiles⟩ := tile_isSome maxObjSize getAll endSegment rest (i + 1) _ _ _ (by omega)
      rw [htiles]
      exact ⟨_, rfl⟩
    · exact ⟨[], rfl⟩

/-- Every distribution is made of an element of the array. -/
theorem tile_mem {maxObjSize : Nat} {getAll : Bool} {endSegment : Nat} :
    ∀ {links : List Data} {i startOffset sizeLeft : Nat} {position : Int} {tiles : List DataDistribution},
      tile maxObjSize getAll endSegment links i startOffset sizeLeft position = some tiles →
      ∀ d ∈ tiles, ∃ link ∈ links, ∃ offset size position, d = tileAt link offset size position
  | [], _, _, _, _, tiles, h => by
    cases h
    simp
  | link :: rest, i, startOffset, sizeLeft, position, tiles, h => by
    rw [tile_cons] at h
    split at h
    · split at h
      · rw [Option.map_eq_some_iff] at h
        obtain ⟨tiles', h', rfl⟩ := h
        intro d hd
        rcases List.mem_cons.mp hd with rfl | hd
        · exact ⟨link, by simp, _, _, _, rfl⟩
        · obtain ⟨link', hlink', hex⟩ := tile_mem h' d hd
          exact ⟨link', by simp [hlink'], hex⟩
      · cases h
    · cases h
      simp

/-- A loop that is not stopped by the end of the range takes every element of the array. -/
theorem tile_covers {maxObjSize : Nat} {getAll : Bool} {endSegment : Nat} :
    ∀ {links : List Data} {i startOffset sizeLeft : Nat} {position : Int} {tiles : List DataDistribution},
      tile maxObjSize getAll endSegment links i startOffset sizeLeft position = some tiles →
      (getAll = true ∨ i + links.length ≤ endSegment + 1) →
      ∀ link ∈ links, ∃ offset size position, tileAt link offset size position ∈ tiles
  | [], _, _, _, _, _, _, _ => by simp
  | link :: rest, i, startOffset, sizeLeft, position, tiles, h, hcover => by
    rw [List.length_cons] at hcover
    rw [tile_cons] at h
    rw [if_pos (hcover.imp_right fun h => by omega)] at h
    split at h
    · rw [Option.map_eq_some_iff] at h
      obtain ⟨tiles', h', rfl⟩ := h
      intro link' hlink'
      rcases List.mem_cons.mp hlink' with rfl | hlink'
      · exact ⟨_, _, _, List.mem_cons_self⟩
      · obtain ⟨offset, size, position', hmem⟩ := tile_covers h' (hcover.imp_right fun h => by omega) link' hlink'
        exact ⟨offset, size, position', List.mem_cons_of_mem _ hmem⟩
    · cases h

theorem toInt_of_lt {n : Nat} (h : n < 2 ^ 31) : toInt n = n := by
  have hmod : (n : Int) % (2 ^ 32 : Nat) = n := Int.emod_eq_of_lt (by omega) (by norm_num; omega)
  rw [toInt, Int.bmod_def, hmod, if_pos]
  norm_num
  omega

theorem toInt_neg {n : Nat} (h : 2 ^ 31 ≤ n) (h' : n < 2 ^ 32) : toInt n < 0 := by
  have hmod : (n : Int) % (2 ^ 32 : Nat) = n := Int.emod_eq_of_lt (by omega) (by norm_num; omega)
  rw [toInt, Int.bmod_def, hmod, if_neg (by norm_num; omega)]
  norm_num
  omega

theorem toInt_bounds (z : Int) : -2 ^ 31 ≤ toInt z ∧ toInt z < 2 ^ 31 := by
  have hle := Int.le_bmod (x := z) (m := 2 ^ 32) (by norm_num)
  have hlt := Int.bmod_lt (x := z) (m := 2 ^ 32) (by norm_num)
  unfold toInt
  omega

theorem toSize_of_neg {i : Int} (h : -2 ^ 31 ≤ i) (h' : i < 0) : 2 ^ 63 ≤ toSize i := by
  rw [toSize]
  omega

theorem toSize_natCast {n : Nat} (h : n < 2 ^ 64) : toSize n = n := by
  unfold toSize
  omega

variable {conf : ConfigurationManager} {links : Links} {request : Data}

/-- A segment number that is negative as an `int` is behind every segment. -/
theorem tiles_negative (horder : InOrder links) (hlen : links.entries.length < 2 ^ 63)
    (hneg : toInt (request.position / conf.maxObjSize : Nat) < 0) : tiles conf links request = some [] := by
  obtain ⟨array, harray⟩ := (linkArray_isSome_iff links).mpr horder
  have harraylen := linkArray_length harray
  have hhuge := toSize_of_neg (toInt_bounds (request.position / conf.maxObjSize : Nat)).1 hneg
  rw [tiles, harray, Option.bind_eq_bind, Option.bind_some]
  dsimp only
  rw [if_pos hneg, if_neg (fun h => by omega)]

/-- Locate builds its distributions without leaving the array or the range of `int`. -/
theorem tiles_isSome (horder : InOrder links) (hlen : links.entries.length < 2 ^ 31) :
    ∃ ds, tiles conf links request = some ds := by
  by_cases hneg : toInt (request.position / conf.maxObjSize : Nat) < 0
  · exact ⟨[], tiles_negative horder (by omega) hneg⟩
  · obtain ⟨array, harray⟩ := (linkArray_isSome_iff links).mpr horder
    have harraylen := linkArray_length harray
    have hbounds := toInt_bounds (request.position / conf.maxObjSize : Nat)
    rw [tiles, harray, Option.bind_eq_bind, Option.bind_some]
    dsimp only
    rw [if_neg hneg]
    generalize toInt (request.position / conf.maxObjSize : Nat) = i at hbounds hneg ⊢
    by_cases hi : i.toNat ≤ array.length
    · exact tile_isSome _ _ _ _ _ _ _ _ (by rw [List.length_drop]; omega)
    · rw [List.drop_eq_nil_of_le (by omega)]
      exact ⟨[], rfl⟩

/-- There is nothing behind the last linked segment. -/
theorem tiles_beyond (horder : InOrder links) (hlen : links.entries.length ≤ request.position / conf.maxObjSize)
    (hlt : request.position / conf.maxObjSize < 2 ^ 32) : tiles conf links request = some [] := by
  by_cases hsmall : request.position / conf.maxObjSize < 2 ^ 31
  · obtain ⟨array, harray⟩ := (linkArray_isSome_iff links).mpr horder
    rw [tiles, harray, Option.bind_eq_bind, Option.bind_some]
    dsimp only
    rw [toInt_of_lt hsmall, if_neg (not_lt.mpr (Int.natCast_nonneg _)), Int.toNat_natCast,
      List.drop_eq_nil_of_le (by rw [linkArray_length harray]; exact hlen)]
    rfl
  · exact tiles_negative horder (by omega) (toInt_neg (by omega) hlt)

theorem tiles_inOrder {ds : List DataDistribution} (h : tiles conf links request = some ds) : InOrder links := by
  rw [tiles, Option.bind_eq_bind, Option.bind_eq_some_iff] at h
  obtain ⟨array, harray, -⟩ := h
  exact (linkArray_isSome_iff links).mp ⟨array, harray⟩

/-- The key of a link record is outside every array. -/
theorem tiles_linkMetadata [Wire] (id : CharStruct) (m : Metadata) : tiles conf (linkMetadata id m).links request = none := by
  cases h : tiles conf (linkMetadata id m).links request with
  | none => rfl
  | some ds =>
    have hbound := (tiles_inOrder h (-1)).mp (mem_linkMetadata.mpr rfl)
    exact absurd hbound.1 (by norm_num)

/-- Every distribution of a request is made of one of the links. -/
theorem tiles_mem {ds : List DataDistribution} (h : tiles conf links request = some ds) :
    ∀ d ∈ ds, ∃ (s : Nat) (link : Data), links.lookup (s : Int) = some link ∧
      ∃ offset size position, d = tileAt link offset size position := by
  rw [tiles, Option.bind_eq_bind, Option.bind_eq_some_iff] at h
  obtain ⟨array, harray, h⟩ := h
  have hget : ∀ link ∈ array, ∃ s : Nat, links.lookup (s : Int) = some link := by
    intro link hlink
    obtain ⟨s, hs⟩ := List.mem_iff_getElem?.mp hlink
    exact ⟨s, by rw [← linkArray_get harray, hs]⟩
  dsimp only at h
  intro d hd
  split at h
  · split at h
    · cases h
    · cases h
      cases hd
  · obtain ⟨link, hlink, hex⟩ := tile_mem h d hd
    obtain ⟨s, hs⟩ := hget link (List.mem_of_mem_drop hlink)
    exact ⟨s, link, hs, hex⟩

/-- A request that starts in segment 0 and reaches the last linked segment takes every link. -/
theorem tiles_covers {ds : List DataDistribution} (h : tiles conf links request = some ds)
    (hstart : request.position / conf.maxObjSize = 0)
    (hend : request.dataSize = 0 ∨
      links.entries.length ≤ (request.position + request.dataSize) % 2 ^ 64 / conf.maxObjSize + 1) :
    ∀ (s : Nat) (link : Data), links.lookup (s : Int) = some link →
      ∃ offset size position, tileAt link offset size position ∈ ds := by
  rw [tiles, Option.bind_eq_bind, Option.bind_eq_some_iff] at h
  obtain ⟨array, harray, h⟩ := h
  have hlen := linkArray_length harray
  have hzero : toInt (request.position / conf.maxObjSize : Nat) = 0 := by
    rw [hstart]
    rfl
  dsimp only at h
  rw [hzero, if_neg (by norm_num), Int.toNat_zero, List.drop_zero] at h
  intro s link hs
  rw [← linkArray_get harray] at hs
  refine tile_covers h ?_ link (List.mem_of_getElem? hs)
  rw [decide_eq_true_iff]
  omega

end Symbios
