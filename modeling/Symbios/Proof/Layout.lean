import Symbios.Proof.Server

/-!
# The segment layout of a first store

`Locate` looks for file offset `o` in the object linked for segment `o / M`, at offset `o % M`. A store from an
empty backend puts its bytes there (`LaidOut`) exactly when the range stays inside one segment, the selected
backend writes at an offset (or the offset is 0), and the primary record survives (`store_layout_iff`).
-/

namespace Symbios

open EStateM MetadataOrchestrator DataDistributionEngine

/-- `b` is where `Locate` looks for the byte of file offset `offset`. -/
def ByteAt (conf : ConfigurationManager) (w : Backends) (m : Metadata) (offset : Nat) (b : UInt8) : Prop :=
  ∃ link t object, m.links.lookup (linkKey (offset / conf.maxObjSize)) = some link ∧
    conf.backend link.storageIndex = some t ∧ w t link.id = some object ∧ object[offset % conf.maxObjSize]? = some b

/-- The primary metadata of the request links every segment of the range, and every byte is in its place. -/
def LaidOut [Wire] (conf : ConfigurationManager) (w : Backends) (request : Data) (bytes : List UInt8) : Prop :=
  ∃ m, primaryMetadata conf Env.calm request w = .ok m w ∧
    (∀ s, request.position / conf.maxObjSize ≤ s →
      s ≤ (request.position + bytes.length - 1) / conf.maxObjSize → linkKey s ∈ m.links) ∧
    ∀ k b, bytes[k]? = some b → ByteAt conf w m (request.position + k) b

/-! ## Arithmetic of keys and offsets -/

theorem linkKey_eq {s : Nat} (h : s < 2 ^ 64) : linkKey s = if s < 2 ^ 63 then (s : Int) else s - 2 ^ 64 := by
  split
  next hlt => exact linkKey_of_lt hlt
  next hge =>
    have hshift : linkKey s = Int.bmod ((s : Int) - 2 ^ 64) (2 ^ 64) := by
      unfold linkKey
      rw [Int.bmod_eq_bmod_iff_bmod_sub_eq_zero]
      simp
    rw [hshift]
    exact Int.bmod_eq_of_le_mul_two (by omega) (by omega)

theorem linkKey_injOn {s s' : Nat} (hs : s < 2 ^ 64) (hs' : s' < 2 ^ 64) (h : linkKey s = linkKey s') : s = s' := by
  rw [linkKey_eq hs, linkKey_eq hs'] at h
  split_ifs at h <;> omega

theorem mod_add_of_div_eq {p k M : Nat} (h : p / M = (p + k) / M) : (p + k) % M = p % M + k := by
  have h1 := Nat.div_add_mod p M
  have h2 := Nat.div_add_mod (p + k) M
  rw [← h] at h2
  omega

theorem div_eq_of_le {p k n M : Nat} (h : p / M = (p + n) / M) (hk : k ≤ n) : (p + k) / M = p / M := by
  have h1 : p / M ≤ (p + k) / M := Nat.div_le_div_right (by omega)
  have h2 : (p + k) / M ≤ (p + n) / M := Nat.div_le_div_right (by omega)
  omega

/-! ## The first store -/

section first

variable [Wire] {conf : ConfigurationManager}

omit [Wire] in
theorem newMetadata_lookup (request : Data) (d : DataDistribution) (key : Int) :
    (newMetadata conf request [d]).links.lookup key =
      if key = linkKey (d.segment conf.maxObjSize) then some (freshLink conf.maxObjSize d) else none := by
  have hextends := createLinks_extends conf.maxObjSize [d] ∅
  have hkeys : key ∈ (newMetadata conf request [d]).links ↔ key = linkKey (d.segment conf.maxObjSize) := by
    rw [show key ∈ (newMetadata conf request [d]).links ↔ _ from hextends.keys key]
    simp
  by_cases hkey : key = linkKey (d.segment conf.maxObjSize)
  · rw [if_pos hkey]
    obtain ⟨link, hlink⟩ := UnorderedMap.exists_lookup (hkeys.mpr hkey)
    rcases hextends.fresh key link hlink with hold | ⟨e, he, -, heq⟩
    · cases hold
    · rw [List.mem_singleton] at he
      rw [hlink, heq, he]
  · rw [if_neg hkey, AList.lookup_eq_none]
    exact fun h => hkey (hkeys.mp h)

/-- A record that links to itself is no primary metadata. -/
theorem primaryMetadata_self {request : Data} {t : IoClientType} {m : Metadata} {rest : List UInt8} {w : Backends}
    (ht : conf.backend request.storageIndex = some t) (hindex : m.storageIndex = request.storageIndex)
    (hlink : w t (metaId request.id) = some ((linkMetadata request.id m).serialize ++ rest))
    (hle : m.serialize.length ≤ ((linkMetadata request.id m).serialize ++ rest).length) :
    primaryMetadata conf Env.calm request w = .ok (linkMetadata request.id m) w ∨
      primaryMetadata conf Env.calm request w = .error .unpack w := by
  rw [primaryMetadata_link ht (fun _ => rfl) ⟨rest, hlink⟩ (hindex ▸ ht)
    (linkMetadata_portable _ _) hlink hle]
  split
  · exact Or.inl rfl
  · exact Or.inr rfl

theorem created_length_le (id : CharStruct) (m : Metadata) (w : Backends) {t : IoClientType} {j : Nat}
    (hj : j ≠ m.storageIndex) (ht : conf.backend j = some t) :
    ∃ rest, created conf id t m w t (metaId id) = some ((linkMetadata id m).serialize ++ rest) ∧
      m.serialize.length ≤ ((linkMetadata id m).serialize ++ rest).length := by
  refine ⟨_, created_of_linked w hj ht, ?_⟩
  rw [putRecord_same]
  have hlen := length_le_overwritten (overwritten (w t (metaId id)) m.serialize) (linkMetadata id m).serialize
  refine le_trans ?_ hlen
  simp [overwritten]

variable {draw : Nat} {source destination : Data} {bytes : List UInt8}

/-- The backends after the first store: the records, the one object in the selected backend. -/
def afterFirstStore (conf : ConfigurationManager) (destination : Data) (d : DataDistribution) (bytes : List UInt8)
    (t sel : IoClientType) : Backends :=
  (created conf destination.id t (newMetadata conf destination [d]) (fun _ _ => none)).put sel
    (objectId destination.id (destination.position / conf.maxObjSize))
    (some (freshObject sel (destination.position % conf.maxObjSize) bytes))

theorem first_store (hpolicy : conf.dataDistributionPolicy ≠ .dynamicProgrammingPolicy)
    (hbuf : source.buffer = some bytes) (hpos : source.position = 0) (hsize : source.dataSize = bytes.length)
    (hne : bytes ≠ []) {t sel : IoClientType} (ht : conf.backend destination.storageIndex = some t)
    (hsel : conf.backend (selectedIndex conf draw destination) = some sel) :
    Server.store conf Env.calm draw source destination (fun _ _ => none) =
      .ok conf.serverCount (afterFirstStore conf destination (sent conf draw source destination) bytes t sel) := by
  have hstore := store_new (lookupFile_new (w := fun _ _ => none) ht rfl) ht (fun _ => rfl)
    (distribute conf draw source destination)
  rw [server_store_eq hstore, distribute_eq hpolicy, createLinks_fst]
  apply forM_single
  show IoFactory.write conf Env.calm (selectedIndex conf draw destination) source
    (placed conf.maxObjSize (sent conf draw source destination).destinationData) _ = _
  rw [IoFactory.write_eq (t := sel) hsel _ rfl]
  refine write_fresh sel hbuf hpos hsize hne ?_ ?_
  · exact (Nat.mod_lt _ conf.maxObjSize_pos).trans conf.maxObjSize_lt
  · exact created_of_key_ne _ _ (objectId_ne_metaId _ _)

/-! ## Where the bytes are -/

omit [Wire] in
theorem freshObject_get (t : IoClientType) (position : Nat) (bytes : List UInt8) {k : Nat} {b : UInt8}
    (hb : bytes[k]? = some b) (h : t = .fileIo ∨ position = 0) : (freshObject t position bytes)[position + k]? = some b := by
  obtain ⟨hk, -⟩ := List.getElem?_eq_some_iff.mp hb
  cases t with
  | fileIo => rw [freshObject, Overlay.overlay_get_inside 0 [] position bytes k hk, hb]
  | redisIo =>
    rcases h with h | h
    · cases h
    · rw [h, Nat.zero_add]
      exact hb
  | mongoIo =>
    rcases h with h | h
    · cases h
    · rw [h, Nat.zero_add]
      exact hb

omit [Wire] in
theorem freshObject_length {t : IoClientType} (ht : t ≠ .fileIo) (position : Nat) (bytes : List UInt8) :
    (freshObject t position bytes).length = bytes.length := by
  cases t with
  | fileIo => exact absurd rfl ht
  | redisIo => rfl
  | mongoIo => rfl

variable {t sel : IoClientType} {d : DataDistribution}

/-- The primary metadata the first store leaves, if the creating index is exclusive. -/
theorem primaryMetadata_first (ht : conf.backend destination.storageIndex = some t)
    (hexcl : Exclusive conf destination.storageIndex) :
    primaryMetadata conf Env.calm destination (afterFirstStore conf destination d bytes t sel) =
      .ok (newMetadata conf destination [d]) (afterFirstStore conf destination d bytes t sel) := by
  refine primaryMetadata_primary ht rfl (newMetadata_portable _ _ _) rfl ?_
  obtain ⟨rest, hrest⟩ := created_primary (m := newMetadata conf destination [d]) (fun _ _ => none) ht hexcl
  exact ⟨rest, by rw [afterFirstStore, Backends.put_of_key_ne _ _ _ _ (objectId_ne_metaId _ _).symm, hrest]⟩

/-- What `Locate` finds, if another index shares the backend, links no segment. -/
theorem primaryMetadata_first_shared (ht : conf.backend destination.storageIndex = some t)
    (hshared : ¬ Exclusive conf destination.storageIndex) {m : Metadata} {s : Nat} (hs : s + 1 < 2 ^ 64)
    (h : primaryMetadata conf Env.calm destination (afterFirstStore conf destination d bytes t sel) =
      .ok m (afterFirstStore conf destination d bytes t sel)) :
    linkKey s ∉ m.links := by
  unfold Exclusive at hshared
  push Not at hshared
  obtain ⟨j, t', hi, hj, hjne⟩ := hshared
  cases ht.symm.trans hi
  obtain ⟨rest, hrest, hle⟩ := created_length_le destination.id (newMetadata conf destination [d]) (fun _ _ => none) hjne hj
  have hkeep : afterFirstStore conf destination d bytes t sel t (metaId destination.id) = _ :=
    (Backends.put_of_key_ne _ sel t _ (objectId_ne_metaId _ _).symm).trans hrest
  have hself := primaryMetadata_self (m := newMetadata conf destination [d]) ht rfl hkeep hle
  rw [h] at hself
  rcases hself with heq | heq
  · cases heq
    intro hmem
    have hkey := mem_linkMetadata.mp hmem
    rw [linkKey_eq (by omega)] at hkey
    split_ifs at hkey
    omega
  · cases heq

omit [Wire] in
/-- The one link of the first store. -/
theorem first_lookup (conf : ConfigurationManager) (draw : Nat) (source destination : Data) (key : Int) :
    (newMetadata conf destination [sent conf draw source destination]).links.lookup key =
      if key = linkKey (destination.position / conf.maxObjSize) then
        some (freshLink conf.maxObjSize (sent conf draw source destination)) else none :=
  newMetadata_lookup destination (sent conf draw source destination) key

/-- The layout needs one segment, an offset the backend keeps, and a record of its own. -/
theorem conditions_of_laidOut (ht : conf.backend destination.storageIndex = some t)
    (hsel : conf.backend (selectedIndex conf draw destination) = some sel) (hlen : 0 < bytes.length)
    (hend : destination.position + bytes.length < 2 ^ 64)
    (h : LaidOut conf (afterFirstStore conf destination (sent conf draw source destination) bytes t sel) destination bytes) :
    destination.position / conf.maxObjSize = (destination.position + bytes.length - 1) / conf.maxObjSize ∧
      (sel = .fileIo ∨ destination.position % conf.maxObjSize = 0) ∧ Exclusive conf destination.storageIndex := by
  have hdiv : ∀ n, n < 2 ^ 64 → n / conf.maxObjSize < 2 ^ 64 := fun n hn => (Nat.div_le_self _ _).trans_lt hn
  obtain ⟨m, hprimary, hlinks, hbytes⟩ := h
  have hexcl : Exclusive conf destination.storageIndex := by
    by_contra hshared
    refine primaryMetadata_first_shared ht hshared (s := destination.position / conf.maxObjSize) ?_ hprimary
      (hlinks _ le_rfl (Nat.div_le_div_right (by omega)))
    have := Nat.div_le_self destination.position conf.maxObjSize
    omega
  rw [primaryMetadata_first ht hexcl] at hprimary
  cases hprimary
  have hsegment : destination.position / conf.maxObjSize =
      (destination.position + bytes.length - 1) / conf.maxObjSize := by
    have hmem := hlinks _ (Nat.div_le_div_right (by omega)) le_rfl
    rw [← AList.lookup_isSome, first_lookup] at hmem
    split at hmem
    next heq => exact (linkKey_injOn (hdiv _ (by omega)) (hdiv _ (by omega)) heq).symm
    next => cases hmem
  refine ⟨hsegment, ?_, hexcl⟩
  -- an object store starts its value at offset 0, so the last byte is in its place only if the offset is 0
  by_cases hfile : sel = .fileIo
  · exact Or.inl hfile
  · right
    obtain ⟨b, hb⟩ : ∃ b, bytes[bytes.length - 1]? = some b := ⟨bytes[bytes.length - 1], by simp⟩
    obtain ⟨link, t', object, hlink, ht', hobject, hget⟩ := hbytes _ b hb
    have hlast : destination.position + (bytes.length - 1) = destination.position + bytes.length - 1 := by omega
    rw [hlast] at hlink hget
    rw [← hsegment, first_lookup, if_pos rfl] at hlink
    cases hlink
    cases ht'.symm.trans hsel
    cases hobject.symm.trans (Backends.put_same ..)
    have hlt := (List.getElem?_eq_some_iff.mp hget).1
    rw [freshObject_length hfile, ← hlast, mod_add_of_div_eq (by rw [hlast]; exact hsegment)] at hlt
    omega

/-- Under these conditions every byte is in its place. -/
theorem laidOut_of_conditions (ht : conf.backend destination.storageIndex = some t)
    (hsel : conf.backend (selectedIndex conf draw destination) = some sel)
    (hsegment : destination.position / conf.maxObjSize = (destination.position + bytes.length - 1) / conf.maxObjSize)
    (hoffset : sel = .fileIo ∨ destination.position % conf.maxObjSize = 0)
    (hexcl : Exclusive conf destination.storageIndex) :
    LaidOut conf (afterFirstStore conf destination (sent conf draw source destination) bytes t sel) destination bytes := by
  refine ⟨_, primaryMetadata_first ht hexcl, ?_, ?_⟩
  · intro s hs hs'
    have heq : s = destination.position / conf.maxObjSize := by omega
    rw [← AList.lookup_isSome, first_lookup, heq, if_pos rfl]
    rfl
  · intro k b hb
    have hk := (List.getElem?_eq_some_iff.mp hb).1
    have hsegment' : destination.position / conf.maxObjSize =
        (destination.position + (bytes.length - 1)) / conf.maxObjSize := by
      rw [hsegment]
      congr 1
      omega
    have hdivk := div_eq_of_le hsegment' (k := k) (by omega)
    refine ⟨freshLink conf.maxObjSize (sent conf draw source destination), sel, _, ?_, hsel, Backends.put_same .., ?_⟩
    · rw [hdivk, first_lookup]
      exact if_pos rfl
    · rw [mod_add_of_div_eq hdivk.symm]
      exact freshObject_get sel _ bytes hb hoffset

/-- **The first store follows the layout of `Locate` exactly when its range stays inside one segment, the
selected backend can write at the offset, and no other index shares the backend of the record.** -/
theorem store_layout_iff (hpolicy : conf.dataDistributionPolicy ≠ .dynamicProgrammingPolicy)
    (hbuf : source.buffer = some bytes) (hpos : source.position = 0) (hsize : source.dataSize = bytes.length)
    (hne : bytes ≠ []) (ht : conf.backend destination.storageIndex = some t)
    (hend : destination.position + bytes.length < 2 ^ 64) :
    (∃ r w', Server.store conf Env.calm draw source destination (fun _ _ => none) = .ok r w' ∧
      LaidOut conf w' destination bytes) ↔
    destination.position / conf.maxObjSize = (destination.position + bytes.length - 1) / conf.maxObjSize ∧
      (conf.backend (selectedIndex conf draw destination) = some .fileIo ∨
        destination.position % conf.maxObjSize = 0) ∧
      Exclusive conf destination.storageIndex := by
  obtain ⟨sel, hsel⟩ := selectedIndex_configured conf draw destination
  have hfile : conf.backend (selectedIndex conf draw destination) = some .fileIo ↔ sel = .fileIo := by
    rw [hsel, Option.some.injEq]
  rw [first_store hpolicy hbuf hpos hsize hne ht hsel, hfile]
  constructor
  · rintro ⟨r, w', hrun, hlaid⟩
    cases hrun
    exact conditions_of_laidOut ht hsel (List.length_pos_of_ne_nil hne) hend hlaid
  · rintro ⟨hsegment, hoffset, hexcl⟩
    exact ⟨_, _, rfl, laidOut_of_conditions ht hsel hsegment hoffset hexcl⟩

end first

/-- A byte at the start of a file is laid out. -/
theorem oneFile_layout :
    ∃ r w', Server.store oneFile Env.calm 0 { buffer := some [7], dataSize := 1 } { id := [0x66], dataSize := 1 }
        (fun _ _ => none) = .ok r w' ∧ LaidOut oneFile w' { id := [0x66], dataSize := 1 } [7] :=
  (store_layout_iff (by decide) rfl rfl rfl (by decide) (t := .fileIo) rfl (by decide)).mpr
    ⟨by decide, Or.inl rfl, oneFile_exclusive⟩

/-- Two bytes across the border of segments 0 and 1: segment 1 gets no link. -/
theorem oneFile_crossing :
    ∃ r w', Server.store oneFile Env.calm 0 { buffer := some [1, 2], dataSize := 2 }
        { id := [0x66], position := 3, dataSize := 2 } (fun _ _ => none) = .ok r w' ∧
      ¬ LaidOut oneFile w' { id := [0x66], position := 3, dataSize := 2 } [1, 2] := by
  refine ⟨_, _, first_store (t := .fileIo) (by decide) rfl rfl rfl (by decide)
    rfl rfl, ?_⟩
  rintro ⟨m, hprimary, hlinks, -⟩
  rw [primaryMetadata_first rfl oneFile_exclusive] at hprimary
  cases hprimary
  have hmem := hlinks 1 (by decide) (by decide)
  rw [← AList.lookup_isSome, newMetadata_lookup] at hmem
  revert hmem
  decide

end Symbios
