import Symbios.Proof.Allocation
import Symbios.Proof.Objects
import Symbios.Proof.Placement

/-!
# The size of a file

`Server::Size` adds up the lengths of the objects in an `int`. This is the end of the last byte stored (`extent`) as
long as every write leaves the length that a file would have (`KeepsLength`), no store leaves a segment in front of it
partly filled, and the end stays below `2 ^ 31`: the segments are then filled like those of a sequence without gaps
(`Segments.filled`).
-/

namespace Symbios

open EStateM MetadataOrchestrator DataDistributionEngine

/-! ## Lengths of writes -/

/-- A write of `n` bytes at `position` leaves an object of the length that a file would have. -/
def KeepsLength (t : IoClientType) (old : Option (List UInt8)) (position n : Nat) : Prop :=
  t = .fileIo ∨
    match old with
    | none => position = 0 ∨ n = 0
    | some value => 0 < n ∨ position ≤ value.length

instance (t : IoClientType) (old : Option (List UInt8)) (position n : Nat) : Decidable (KeepsLength t old position n) :=
  match old with
  | none => inferInstanceAs (Decidable (t = .fileIo ∨ position = 0 ∨ n = 0))
  | some value => inferInstanceAs (Decidable (t = .fileIo ∨ 0 < n ∨ position ≤ value.length))

theorem fileWritten_length (old : List UInt8) (position : Nat) (bytes : List UInt8) :
    (fileWritten old position bytes).length =
      if bytes.length = 0 then old.length else max old.length (position + bytes.length) := by
  rw [fileWritten]
  split_ifs with hnil hzero hzero
  · rfl
  · exact absurd (List.length_eq_zero_iff.mpr hnil) hzero
  · exact absurd (List.length_eq_zero_iff.mp hzero) hnil
  · exact Overlay.overlay_length ..

theorem written_length {t : IoClientType} {old : Option (List UInt8)} {position : Nat} {bytes : List UInt8}
    (h : KeepsLength t old position bytes.length) :
    (written t old position bytes).length =
      if bytes.length = 0 then (old.getD []).length else max (old.getD []).length (position + bytes.length) := by
  by_cases ht : t = .fileIo
  · rw [written, if_pos ht, fileWritten_length]
  have hcases := h.resolve_left ht
  rw [written, if_neg ht]
  cases old with
  | none =>
    dsimp only at hcases
    rw [objectWritten, Option.getD_none, List.length_nil]
    split_ifs <;> omega
  | some value =>
    dsimp only at hcases
    have hkept := keptBytes_length_le value position
    rw [objectWritten, Overlay.overlay_length, Option.getD_some]
    split_ifs <;> omega

/-! ## The sum of the lengths -/

section size

variable [Wire] {conf : ConfigurationManager} {id : CharStruct} {objects : Nat → Option (List UInt8)} {m : Metadata}
  {w : Backends} {t₀ : IoClientType}

omit [Wire] in
theorem size_linkObject {link : Data} {t : IoClientType} (ht : conf.backend link.storageIndex = some t) :
    IoFactory.size conf link.storageIndex link w = .ok ((linkObject conf w link).getD []).length w := by
  rw [linkObject, ht, Option.bind_some, IoFactory.size, IoFactory.getIoClient, ht]
  cases t with
  | fileIo => rfl
  | redisIo => rfl
  | mongoIo => rfl

omit [Wire] in
/-- The link of a segment leads to its object. -/
theorem Spread.linkObject_eq (h : Spread conf id objects m.links w) {array : List Data}
    (harray : linkArray m.links = some array) {s : Nat} {link : Data} (hlink : array[s]? = some link) :
    (∃ t, conf.backend link.storageIndex = some t) ∧ linkObject conf w link = objects s := by
  rw [linkArray_get harray] at hlink
  obtain ⟨hid, t, ht, hobject⟩ := h.linked s link hlink
  refine ⟨⟨t, ht⟩, ?_⟩
  rw [linkObject, ht, Option.bind_some, hid, hobject]

omit [Wire] in
theorem Spread.lengths_eq (h : Spread conf id objects m.links w) {array : List Data}
    (harray : linkArray m.links = some array) :
    array.map (fun link => ((linkObject conf w link).getD []).length) =
      (List.range m.links.entries.length).map fun s => ((objects s).getD []).length := by
  have hlength := linkArray_length harray
  apply List.ext_getElem
  · simp [hlength]
  · intro s hs hs'
    rw [List.length_map] at hs
    simp [(h.linkObject_eq harray (List.getElem?_eq_getElem hs)).2]

/-- `Size` adds the lengths of the objects. -/
theorem Spread.size (h : Spread conf id objects m.links w) (hfirst : conf.backend 0 = some t₀)
    (hfiled : Filed conf id w m t₀) :
    Server.size conf Env.calm { id } w = .ok (toSize (Server.totalSize
      ((List.range m.links.entries.length).map fun s => ((objects s).getD []).length))) w := by
  have hprimary : primaryMetadata conf Env.calm { id } w = .ok m w :=
    primaryMetadata_primary hfirst rfl hfiled.primary.portable hfiled.primary.isLink_eq hfiled.primary.holds
  obtain ⟨array, harray⟩ := (linkArray_isSome_iff m.links).mpr h.inOrder
  obtain ⟨ds, htiles⟩ := @tiles_isSome conf _ { id } h.inOrder h.few
  obtain rfl := tiles_getAll harray rfl (Nat.zero_div _) htiles
  have hsizes := @mapM_map_ok w _ _ _ (fun d => IoFactory.size conf d.destinationData.storageIndex d.destinationData)
    (fun link => tileAt link 0 0 0) (fun link => ((linkObject conf w link).getD []).length) array (by
      intro link hlink
      obtain ⟨s, hs⟩ := List.mem_iff_getElem?.mp hlink
      obtain ⟨⟨t, ht⟩, -⟩ := h.linkObject_eq harray hs
      exact @size_linkObject conf w (tileAt link 0 0 0).destinationData t ht)
  rw [Server.size, bind_ok (tryLocate_found hprimary htiles)]
  dsimp only
  rw [bind_ok hsizes, h.lengths_eq harray]
  rfl

end size

/-! ## Runs -/

/-- One behind the last byte that a request stores. -/
def FileRequest.reach : FileRequest → Nat
  | .store source destination => if source.dataSize = 0 then 0 else destination.position + source.dataSize
  | .locate _ _ => 0

/-- One behind the last byte that was stored. -/
def extent (requests : List FileRequest) : Nat := requests.foldl (fun e request => max e request.reach) 0

theorem extent_concat (requests : List FileRequest) (request : FileRequest) :
    extent (requests ++ [request]) = max (extent requests) request.reach :=
  List.foldl_concat ..

section runs

variable [Wire] {conf : ConfigurationManager} {id : CharStruct} {w : Backends} {draws : Nat → Nat}
  {requests : List FileRequest}

/-- A request, after those of `before`, that keeps the size: a store goes to one of the segments that an `int` counts
and leaves the length that a file would have; if it stores anything, the segments in front of its own are full, and it
ends below `2 ^ 31`. -/
def KeepsExtent (conf : ConfigurationManager) (draw : Nat) (before : List FileRequest) : FileRequest → Backends → Prop
  | .store source destination, w =>
    destination.position / conf.maxObjSize + 1 < 2 ^ 31 ∧
    (∀ t ∈ target conf draw destination w,
      KeepsLength t (w t (objectId destination.id (destination.position / conf.maxObjSize)))
        (destination.position % conf.maxObjSize) source.dataSize) ∧
    (source.dataSize = 0 ∨ destination.position / conf.maxObjSize * conf.maxObjSize ≤ extent before ∧
      destination.position + source.dataSize < 2 ^ 31)
  | .locate _ _, _ => True

instance (draw : Nat) (before : List FileRequest) (request : FileRequest) (w : Backends) :
    Decidable (KeepsExtent conf draw before request w) :=
  match request with
  | .store source destination => inferInstanceAs (Decidable
      (destination.position / conf.maxObjSize + 1 < 2 ^ 31 ∧
        (∀ t ∈ target conf draw destination w,
          KeepsLength t (w t (objectId destination.id (destination.position / conf.maxObjSize)))
            (destination.position % conf.maxObjSize) source.dataSize) ∧
        (source.dataSize = 0 ∨ destination.position / conf.maxObjSize * conf.maxObjSize ≤ extent before ∧
          destination.position + source.dataSize < 2 ^ 31)))
  | .locate _ _ => inferInstanceAs (Decidable True)

/-- All the requests of a run keep the size. -/
def ExtentAlong (conf : ConfigurationManager) (draws : Nat → Nat) (requests : List FileRequest) (w : Backends) : Prop :=
  ∀ before request after, requests = before ++ request :: after →
    KeepsExtent conf (draws before.length) before request (served conf draws before w)

/-- The state after `requests`: an object for each segment that was touched, filled like a sequence without gaps. -/
def Fills (conf : ConfigurationManager) (id : CharStruct) (requests : List FileRequest) (w : Backends) : Prop :=
  ∃ objects, Reached conf id objects w ∧
    (∀ s, (objects s).isSome ↔ ∃ request ∈ requests, request.touched conf = some s) ∧
    (∀ s, ((objects s).getD []).length = Segments.filled conf.maxObjSize (extent requests) s) ∧ extent requests < 2 ^ 31

omit [Wire] in
theorem storedIn_isSome {t : IoClientType} {source destination : Data} {objects : Nat → Option (List UInt8)}
    (h : ∀ s, (objects s).isSome ↔ ∃ request ∈ requests, request.touched conf = some s) (s : Nat) :
    (storedIn conf t source destination objects s).isSome ↔
      ∃ request ∈ requests ++ [.store source destination], request.touched conf = some s := by
  have hsplit : (∃ r ∈ requests ++ [.store source destination], r.touched conf = some s) ↔
      (objects s).isSome ∨ destination.position / conf.maxObjSize = s := by
    rw [h]
    simp [or_and_right, exists_or, FileRequest.touched]
  rw [hsplit, storedIn, Function.update_apply]
  by_cases hs : s = destination.position / conf.maxObjSize
  · simp [hs]
  · simp [hs, Ne.symm hs]

omit [Wire] in
/-- The lengths after a store. -/
theorem storedIn_filled {t : IoClientType} {source destination : Data} {objects : Nat → Option (List UInt8)} {n : Nat}
    (hissued : IssuedStore conf id source destination)
    (hlengths : ∀ s, ((objects s).getD []).length = Segments.filled conf.maxObjSize n s)
    (hkeeps : KeepsLength t (objects (destination.position / conf.maxObjSize)) (destination.position % conf.maxObjSize)
      source.dataSize)
    (hfront : source.dataSize = 0 ∨ destination.position / conf.maxObjSize * conf.maxObjSize ≤ n) (s : Nat) :
    ((storedIn conf t source destination objects s).getD []).length =
      Segments.filled conf.maxObjSize (max n (FileRequest.store source destination).reach) s := by
  have hlength := sourceBytes_length hissued.size_le
  have hposition := Nat.div_add_mod' destination.position conf.maxObjSize
  rw [← hlength] at hkeeps
  rw [storedIn, Function.update_apply, FileRequest.reach]
  by_cases hzero : source.dataSize = 0
  · rw [if_pos hzero, Nat.max_zero, ← hlengths]
    split_ifs with hs
    · rw [Option.getD_some, written_length hkeeps, if_pos (by omega), hs]
    · rfl
  · rw [if_neg hzero, ← hposition, Nat.add_assoc, Segments.filled_write (hfront.resolve_left hzero) hissued.inside]
    rw [hposition]
    split_ifs with hs
    · rw [Option.getD_some, written_length hkeeps, if_neg (by omega), hlengths, hlength]
    · exact hlengths s

theorem Fills.store {source destination : Data} {draw : Nat} (hexcl : Exclusive conf 0)
    (hpolicy : conf.dataDistributionPolicy ≠ .dynamicProgrammingPolicy) (h : Fills conf id requests w)
    (hissued : IssuedStore conf id source destination)
    (horder : ∀ s < destination.position / conf.maxObjSize, ∃ earlier ∈ requests, earlier.touched conf = some s)
    (hkeeps : KeepsExtent conf draw requests (.store source destination) w) :
    Fills conf id (requests ++ [.store source destination])
      (FileRequest.serve conf draw (.store source destination) w).final := by
  obtain ⟨objects, hreached, htouched, hlengths, hsmall⟩ := h
  obtain ⟨hs, hlength, hfront⟩ := hkeeps
  obtain ⟨t, ht, hobject, hstored⟩ := hreached.store hexcl hpolicy hissued (fun s hlt => (htouched s).mpr (horder s hlt)) hs
  have hkept := hlength t ht
  rw [hissued.id_eq, hobject] at hkept
  refine ⟨_, hstored, storedIn_isSome htouched, ?_, ?_⟩
  · rw [extent_concat]
    exact storedIn_filled hissued hlengths hkept (hfront.imp_right fun h => h.1)
  · rw [extent_concat, FileRequest.reach]
    split_ifs with hzero
    · omega
    · have hend := (hfront.resolve_left hzero).2
      omega

theorem served_fills (hexcl : Exclusive conf 0) (hpolicy : conf.dataDistributionPolicy ≠ .dynamicProgrammingPolicy)
    (hunused : Unused id w) (hissued : ∀ request ∈ requests, request.Issued conf id)
    (horder : SegmentsInOrder conf requests) (halong : ExtentAlong conf draws requests w) :
    Fills conf id requests (served conf draws requests w) := by
  induction requests using List.reverseRecOn with
  | nil => exact ⟨fun _ => none, .inl ⟨hunused, rfl⟩, by simp, by simp [extent, Segments.filled], by decide⟩
  | append_singleton requests request ih =>
    have hfills := ih (fun r hr => hissued r (by simp [hr]))
      (fun before r after h => horder before r (after ++ [request]) (by simp [h]))
      (fun before r after h => halong before r (after ++ [request]) (by simp [h]))
    rw [served_concat]
    cases request with
    | store source destination =>
      have hlast : IssuedStore conf id source destination := hissued (.store source destination) (by simp)
      exact hfills.store hexcl hpolicy hlast (fun s hs => horder requests _ [] rfl _ rfl s hs) (halong requests _ [] rfl)
    | locate source destination =>
      obtain ⟨objects, hreached, htouched, hlengths, hsmall⟩ := hfills
      rw [serve_locate_final]
      refine ⟨objects, hreached, ?_, ?_, ?_⟩
      · intro s
        rw [htouched]
        simp [or_and_right, exists_or, FileRequest.touched]
      · simpa [extent_concat, FileRequest.reach] using hlengths
      · simpa [extent_concat, FileRequest.reach] using hsmall

/-- The size of a file without gaps. -/
theorem Fills.size (h : Fills conf id requests w) : Server.size conf Env.calm { id } w = .ok (extent requests) w := by
  obtain ⟨objects, hreached, -, hlengths, hsmall⟩ := h
  rcases hreached with ⟨hunused, rfl⟩ | ⟨m, t₀, hfirst, hfiled, hspread, -⟩
  · -- nothing is filled, so nothing was stored
    have hzero := Segments.le_of_filled_zero conf.maxObjSize_pos (hlengths 0).symm
    obtain ⟨t, ht⟩ := (configured_iff conf 0).mpr conf.solutions_pos
    have habsent : primaryMetadata conf Env.calm { id } w = .error (.error (absentError t)) w :=
      primaryMetadata_absent ht rfl (hunused.1 t)
    rw [Server.size, bind_ok (tryLocate_absent habsent), show extent requests = 0 by omega]
    rfl
  · have hbehind : objects m.links.entries.length = none := by
      rw [← Option.not_isSome_iff_eq_none, hspread.present]
      exact lt_irrefl _
    have hend : extent requests ≤ m.links.entries.length * conf.maxObjSize := by
      apply Segments.le_of_filled_zero conf.maxObjSize_pos
      rw [← hlengths, hbehind]
      rfl
    have hsum : ((List.range m.links.entries.length).map fun s => ((objects s).getD []).length).sum = extent requests := by
      simp only [hlengths]
      rw [Segments.sum_filled, min_eq_right hend]
    rw [hspread.size hfirst hfiled, totalSize_eq (hsum ▸ hsmall), hsum, toSize_natCast (by omega)]

/-- **In every state of a run whose requests all keep the size, `Size` is the end of the last byte stored.** -/
theorem size_is_extent (hexcl : Exclusive conf 0) (hpolicy : conf.dataDistributionPolicy ≠ .dynamicProgrammingPolicy)
    (hunused : Unused id w) (hissued : ∀ request ∈ requests, request.Issued conf id)
    (horder : SegmentsInOrder conf requests) (halong : ExtentAlong conf draws requests w) :
    ∀ before after, requests = before ++ after →
      Server.size conf Env.calm { id } (served conf draws before w) = .ok (extent before) (served conf draws before w) := by
  rintro before after rfl
  apply Fills.size
  apply served_fills hexcl hpolicy hunused (fun r hr => hissued r (by simp [hr]))
  · exact fun b r a h => horder b r (a ++ after) (by simp [h])
  · exact fun b r a h => halong b r (a ++ after) (by simp [h])

end runs

/-! ## Two segments -/

/-- A store into the first segment and one into the second. -/
def twoStoresAt (bytes : List UInt8) : List FileRequest := [storeAt 0 bytes, storeAt 4 [5]]

theorem twoStoresAt_issued {bytes : List UInt8} (h : bytes.length ≤ 4) :
    ∀ request ∈ twoStoresAt bytes, request.Issued threeBackends [0x66] := by
  intro request hrequest
  simp only [twoStoresAt, List.mem_cons, List.not_mem_nil, or_false] at hrequest
  rcases hrequest with rfl | rfl
  · exact storeAt_issued (by omega)
  · exact storeAt_issued (by decide)

theorem twoStoresAt_inOrder (bytes : List UInt8) : SegmentsInOrder threeBackends (twoStoresAt bytes) := by
  intro before request after h s hs s' hlt
  match before, h with
  | [], h =>
    cases h
    cases hs
    have hnone : s' < 0 / 4 := hlt
    omega
  | [_], h =>
    cases h
    cases hs
    have hzero : s' = 0 / 4 := Nat.lt_one_iff.mp hlt
    exact ⟨_, List.mem_singleton_self _, congrArg some hzero.symm⟩
  | _ :: _ :: _, h => simp [twoStoresAt] at h

/-- A full segment and a byte of the next one, in Redis. -/
theorem fullFirst_size :
    Server.size threeBackends Env.calm { id := [0x66] }
        (served threeBackends (fun _ => 1) (twoStoresAt [1, 2, 3, 4]) fun _ _ => none) =
      .ok 5 (served threeBackends (fun _ => 1) (twoStoresAt [1, 2, 3, 4]) fun _ _ => none) := by
  have hexcl : Exclusive threeBackends 0 := exclusive_of_nodup (by decide) 0
  have halong : ExtentAlong threeBackends (fun _ => 1) (twoStoresAt [1, 2, 3, 4]) fun _ _ => none := by
    intro before request after h
    match before, h with
    | [], h =>
      cases h
      decide +kernel
    | [_], h =>
      cases h
      decide +kernel
    | _ :: _ :: _, h => simp [twoStoresAt] at h
  exact size_is_extent hexcl (by decide) (noObjects_unused _) (twoStoresAt_issued (by decide)) (twoStoresAt_inOrder _)
    halong _ [] (List.append_nil _).symm

/-- With three bytes missing in the first segment the file ends at 5 and its size is 2. -/
theorem partFirst_size :
    (∀ request ∈ twoStoresAt [1], request.Issued threeBackends [0x66]) ∧ SegmentsInOrder threeBackends (twoStoresAt [1]) ∧
      extent (twoStoresAt [1]) = 5 ∧
      (Server.size threeBackends Env.calm { id := [0x66] }
        (served threeBackends (fun _ => 0) (twoStoresAt [1]) fun _ _ => none)).outcome = .ok 2 := by
  exact ⟨twoStoresAt_issued (by decide), twoStoresAt_inOrder _, by decide, by decide +kernel⟩

end Symbios
