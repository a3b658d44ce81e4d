import Symbios.Proof.Store

/-!
# The primary record and its links

A store that creates a file writes the primary record through the storage index of the request and then a link
through every other index. The indices are names of backend *types*: an index whose type occurs a second time in
the table loses its primary record to a link. `store_keeps_record_iff` is the exact condition.
-/

namespace Symbios

open EStateM MetadataOrchestrator

/-- No other storage index has the backend of `i`. -/
def Exclusive (conf : ConfigurationManager) (i : Nat) : Prop :=
  ∀ j t, conf.backend i = some t → conf.backend j = some t → j = i

theorem exclusive_of_nodup {conf : ConfigurationManager} (h : (conf.storageSolutions.map Prod.snd).Nodup) (i : Nat) :
    Exclusive conf i := by
  intro j t hi hj
  have hmem := (backend_eq_some_iff conf).mp hi
  have hmem' := (backend_eq_some_iff conf).mp hj
  exact congrArg Prod.fst (List.inj_on_of_nodup_map h hmem' hmem rfl)

section creation

variable [Wire] {conf : ConfigurationManager} {id : CharStruct} {m : Metadata} {t : IoClientType}

/-! ## What stands where after a creation -/

theorem created_of_key_ne (w : Backends) (t' : IoClientType) {k : CharStruct} (hk : k ≠ metaId id) :
    created conf id t m w t' k = w t' k := by
  rw [created, spread_apply, if_neg (fun h => hk h.1), putRecord_of_key_ne w t t' m hk]

theorem created_of_linked (w : Backends) {t' : IoClientType} {j : Nat} (hj : j ≠ m.storageIndex)
    (ht' : conf.backend j = some t') :
    created conf id t m w t' (metaId id) =
      some (overwritten (putRecord w t id m t' (metaId id)) (linkMetadata id m).serialize) := by
  have hex : ∃ j, j ≠ m.storageIndex ∧ (j, t') ∈ conf.storageSolutions := ⟨j, hj, (backend_eq_some_iff conf).mp ht'⟩
  rw [created, spread_apply, if_pos ⟨rfl, hex⟩]

theorem created_of_not_linked (w : Backends) {t' : IoClientType}
    (h : ∀ j, j ≠ m.storageIndex → conf.backend j ≠ some t') :
    created conf id t m w t' (metaId id) = putRecord w t id m t' (metaId id) := by
  have hnot : ¬ ∃ j, j ≠ m.storageIndex ∧ (j, t') ∈ conf.storageSolutions := by
    rintro ⟨j, hj, hmem⟩
    exact h j hj ((backend_eq_some_iff conf).mpr hmem)
  rw [created, spread_apply, if_neg (fun h => hnot h.2)]

theorem created_link (w : Backends) {t' : IoClientType} {j : Nat} (hj : j ≠ m.storageIndex)
    (ht' : conf.backend j = some t') : Holds (created conf id t m w) t' id (linkMetadata id m) :=
  ⟨_, created_of_linked w hj ht'⟩

theorem created_primary (w : Backends) (ht : conf.backend m.storageIndex = some t)
    (hexcl : Exclusive conf m.storageIndex) : Holds (created conf id t m w) t id m := by
  obtain ⟨rest, hrest⟩ := putRecord_holds w t id m
  refine ⟨rest, ?_⟩
  rw [created_of_not_linked w fun j hj ht' => hj (hexcl j t ht ht')]
  exact hrest

/-- The record through the index that created the file: the primary one, or a link to itself. -/
theorem fetch_created (id : CharStruct) (w : Backends) (ht : conf.backend m.storageIndex = some t) (hm : m.Portable) :
    (Exclusive conf m.storageIndex →
      fetch conf Env.calm (recordAt id m.storageIndex) (created conf id t m w) = .ok m (created conf id t m w)) ∧
    (¬ Exclusive conf m.storageIndex →
      fetch conf Env.calm (recordAt id m.storageIndex) (created conf id t m w) =
        .ok (linkMetadata id m) (created conf id t m w)) := by
  constructor
  · intro hexcl
    obtain ⟨rest, hrest⟩ := created_primary w ht hexcl
    exact fetch_whole (d := recordAt id m.storageIndex) ht rfl rfl rfl hm hrest
  · intro hshared
    unfold Exclusive at hshared
    push Not at hshared
    obtain ⟨j, t', hi, hj, hne⟩ := hshared
    cases ht.symm.trans hi
    obtain ⟨rest, hrest⟩ := created_link (t := t) w hne hj
    exact fetch_whole (d := recordAt id m.storageIndex) ht rfl rfl rfl (linkMetadata_portable _ _) hrest

/-! ## Creating a file -/

theorem lookupFile_new {request : Data} {w : Backends} (ht : conf.backend request.storageIndex = some t)
    (hnew : w t (metaId request.id) = none) : lookupFile conf Env.calm request w = .ok none w :=
  lookupFile_absent (primaryMetadata_absent ht rfl hnew)

/-- **The primary record survives its own links exactly when no other storage index shares its backend.** -/
theorem store_keeps_record_iff (conf : ConfigurationManager) (request : Data) (ds : List DataDistribution)
    (w : Backends) {t : IoClientType} (ht : conf.backend request.storageIndex = some t)
    (hnew : ∀ t', w t' (metaId request.id) = none) :
    (∃ ds' w', MetadataOrchestrator.store conf Env.calm request ds w = .ok ds' w' ∧
      fetch conf Env.calm (recordAt request.id request.storageIndex) w' = .ok (newMetadata conf request ds) w') ↔
    Exclusive conf request.storageIndex := by
  have hstore := store_new (lookupFile_new ht (hnew t)) ht (fun _ => rfl) ds
  have hfetch := fetch_created (m := newMetadata conf request ds) request.id w ht
    (newMetadata_portable conf request ds)
  constructor
  · rintro ⟨ds', w', hrun, hread⟩
    rw [hstore] at hrun
    cases hrun
    by_contra hshared
    have hlink := hread.symm.trans (hfetch.2 hshared)
    have hflag : (newMetadata conf request ds).isLink = (linkMetadata request.id (newMetadata conf request ds)).isLink :=
      congrArg Metadata.isLink (Result.ok.inj hlink).1
    cases hflag
  · intro hexcl
    exact ⟨_, _, hstore, hfetch.1 hexcl⟩

end creation

/-! ## Two small tables -/

theorem fourBytes : 0 < 4 ∧ 4 < 2 ^ 63 := by decide

theorem oneSolution : 0 < [IoClientType.fileIo].length ∧ [IoClientType.fileIo].length ≤ 2 ^ 16 := by decide

/-- One file system, objects of four bytes. -/
def oneFile : ConfigurationManager := .config 4 [.fileIo] .randomPolicy fourBytes oneSolution

/-- Two file systems. -/
def twoFiles : ConfigurationManager := .config 4 [.fileIo, .fileIo] .randomPolicy fourBytes (by decide)

/-- A buffer of one byte that goes to the start of the file `f`. -/
def oneByte : DataDistribution where
  sourceData := { buffer := some [7], dataSize := 1 }
  destinationData := { id := [0x66], dataSize := 1 }

theorem oneFile_exclusive : Exclusive oneFile 0 := by
  intro j t _ hj
  have hmem : (j, t) ∈ [((0 : Nat), IoClientType.fileIo)] := (backend_eq_some_iff oneFile).mp hj
  rw [List.mem_singleton] at hmem
  exact congrArg Prod.fst hmem

theorem twoFiles_shared : ¬ Exclusive twoFiles 0 := fun h => absurd (h 1 .fileIo rfl rfl) (by decide)

theorem oneFile_keeps_record :
    ∃ ds' w', MetadataOrchestrator.store oneFile Env.calm { id := [0x66], dataSize := 1 } [oneByte]
        (fun _ _ => none) = .ok ds' w' ∧
      fetch oneFile Env.calm (recordAt [0x66] 0) w' =
        .ok (newMetadata oneFile { id := [0x66], dataSize := 1 } [oneByte]) w' :=
  (store_keeps_record_iff oneFile { id := [0x66], dataSize := 1 } [oneByte] (fun _ _ => none) rfl
    (fun _ => rfl)).mpr oneFile_exclusive

/-- With two file systems the record is a link that points to itself. -/
theorem twoFiles_loses_record :
    ∃ ds' w', MetadataOrchestrator.store twoFiles Env.calm { id := [0x66], dataSize := 1 } [oneByte]
        (fun _ _ => none) = .ok ds' w' ∧
      fetch twoFiles Env.calm (recordAt [0x66] 0) w' ≠
        .ok (newMetadata twoFiles { id := [0x66], dataSize := 1 } [oneByte]) w' := by
  refine ⟨_, _, store_new (lookupFile_new (t := .fileIo) rfl rfl) rfl (fun _ => rfl) _, ?_⟩
  have hlink := (fetch_created (t := .fileIo)
    (m := newMetadata twoFiles { id := [0x66], dataSize := 1 } [oneByte]) [0x66] (fun _ _ => none) rfl
    (newMetadata_portable _ _ _)).2 twoFiles_shared
  intro hread
  have hflag := congrArg Metadata.isLink (Result.ok.inj (hread.symm.trans hlink)).1
  cases hflag

end Symbios
