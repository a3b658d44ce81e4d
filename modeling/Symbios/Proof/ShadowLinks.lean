import Symbios.Proof.RecordRuns

/-!
# Locate through the links

A link embeds the size of the primary record at the time it was written, and is never written again. Through a
link the current metadata is reached as long as the record has not grown: with more than one storage, after
stores into segments that the first store linked (`shadows_stay_valid`).
-/

namespace Symbios

open EStateM MetadataOrchestrator

section shadow

variable [Wire] {conf : ConfigurationManager} {id : CharStruct} {w w' : Backends}

/-- The primary metadata is `m`, and every other storage links to it as it is now. -/
structure Shadowed (conf : ConfigurationManager) (id : CharStruct) (w : Backends) (m : Metadata) : Prop where
  primary : ∃ t, Primary w t id m ∧ conf.backend m.storageIndex = some t
  inOrder : InOrder m.links
  length_lt : m.links.entries.length < 2 ^ 31
  links : ∀ j t, conf.backend j = some t → j ≠ m.storageIndex → Holds w t id (linkMetadata id m)

/-- The stores under which the links stay valid: the segments come in order and fit the loop counter, and with
more than one storage only the first store adds links. -/
structure KeepsShadows (conf : ConfigurationManager) (request : Data) (ds : List DataDistribution) (w : Backends) :
    Prop where
  configured : ∃ t, conf.backend request.storageIndex = some t
  bounded : ∀ d ∈ ds, d.segment conf.maxObjSize + 1 < 2 ^ 31
  first : NoRecord request.id w → Sequential conf.maxObjSize 0 ds
  later : ∀ t m, Primary w t request.id m →
    (conf.storageSolutions.length = 1 ∧ Sequential conf.maxObjSize m.links.entries.length ds) ∨
      ∀ d ∈ ds, linkKey (d.segment conf.maxObjSize) ∈ m.links

/-- One store of a run. -/
def ShadowStep (conf : ConfigurationManager) (id : CharStruct) (w w' : Backends) : Prop :=
  ∃ request ds ds', request.id = id ∧ KeepsShadows conf request ds w ∧
    MetadataOrchestrator.store conf Env.calm request ds w = .ok ds' w'

/-! ## Reading through any storage -/

theorem Shadowed.primaryMetadata {m : Metadata} {request : Data} {t : IoClientType}
    (h : Shadowed conf request.id w m) (ht : conf.backend request.storageIndex = some t) :
    primaryMetadata conf Env.calm request w = .ok m w := by
  obtain ⟨t₀, hm, hindex⟩ := h.primary
  by_cases heq : request.storageIndex = m.storageIndex
  · rw [heq, hindex] at ht
    cases ht
    exact primaryMetadata_primary (heq ▸ hindex) rfl hm.portable hm.isLink_eq hm.holds
  · obtain ⟨rest, hrest⟩ := hm.holds
    rw [primaryMetadata_link ht (fun _ => rfl) (h.links _ t ht heq) hindex hm.portable hrest (by simp), if_pos le_rfl]

theorem Shadowed.locate {m : Metadata} {request : Data} {t : IoClientType}
    (h : Shadowed conf request.id w m) (ht : conf.backend request.storageIndex = some t) :
    ∃ tls, MetadataOrchestrator.locate conf Env.calm request w = .ok (tls, m) w := by
  obtain ⟨tls, htls⟩ := tiles_isSome h.inOrder h.length_lt
  exact ⟨tls, locate_ok (h.primaryMetadata ht) htls⟩

/-! ## Steps -/

omit [Wire] in
/-- New links keep the keys in order and inside the range of the loop counter. -/
theorem Extends.bounded {ds : List DataDistribution} {links links' : Links}
    (h : Extends conf.maxObjSize ds links links') (horder : InOrder links) (hlen : links.entries.length < 2 ^ 31)
    (hseq : Sequential conf.maxObjSize links.entries.length ds)
    (hbounded : ∀ d ∈ ds, d.segment conf.maxObjSize + 1 < 2 ^ 31) :
    InOrder links' ∧ links'.entries.length < 2 ^ 31 := by
  obtain ⟨horder', hcount⟩ := h.inOrder horder hseq fun d hd => by
    have := hbounded d hd
    omega
  refine ⟨horder', ?_⟩
  by_contra hge
  rcases (hcount (2 ^ 31 - 1)).mp (by omega) with hlt | ⟨d, hd, heq⟩
  · omega
  · have := hbounded d hd
    omega

/-- The first store. -/
theorem Shadowed.create (hexcl : ∀ i, Exclusive conf i) {request : Data} {ds : List DataDistribution} {t : IoClientType}
    (ht : conf.backend request.storageIndex = some t) (hnone : NoRecord request.id w)
    (hsafe : KeepsShadows conf request ds w) :
    Shadowed conf request.id (created conf request.id t (newMetadata conf request ds) w) (newMetadata conf request ds) := by
  have hextends : Extends conf.maxObjSize ds ∅ (newMetadata conf request ds).links := createLinks_extends _ _ _
  obtain ⟨horder, hlen⟩ := hextends.bounded inOrder_empty (by norm_num [show (∅ : Links).entries.length = 0 from rfl])
    (hsafe.first hnone) hsafe.bounded
  exact ⟨⟨t, ⟨created_primary w ht (hexcl _), newMetadata_portable _ _ _, rfl⟩, ht⟩, horder, hlen,
    fun j t' hj hne => created_link w hne hj⟩

/-- A store into an existing file. -/
theorem Shadowed.grow {m : Metadata} {request : Data} {ds : List DataDistribution} {t : IoClientType}
    (h : Shadowed conf request.id w m) (hm : Primary w t request.id m) (ht : conf.backend m.storageIndex = some t)
    (hsafe : KeepsShadows conf request ds w) :
    Shadowed conf request.id
      (if (updateLinks conf.maxObjSize ds m.links).2.2 then putRecord w t request.id (grownMetadata conf m ds) else w)
      (if (updateLinks conf.maxObjSize ds m.links).2.2 then grownMetadata conf m ds else m) := by
  by_cases hflag : (updateLinks conf.maxObjSize ds m.links).2.2 = true
  · rw [if_pos hflag, if_pos hflag]
    rcases hsafe.later t m hm with ⟨hone, hseq⟩ | hlinked
    · have hextends : Extends conf.maxObjSize ds m.links (grownMetadata conf m ds).links := updateLinks_extends _ _ _
      obtain ⟨horder, hlen⟩ := hextends.bounded h.inOrder h.length_lt hseq hsafe.bounded
      refine ⟨⟨t, ⟨putRecord_holds _ _ _ _, grownMetadata_portable hm.portable _ _, hm.isLink_eq⟩, ht⟩, horder, hlen, ?_⟩
      -- there is no other storage
      intro j t' hj hne
      have hj' := (configured_iff conf j).mp ⟨t', hj⟩
      have hi' := (configured_iff conf m.storageIndex).mp ⟨t, ht⟩
      exact absurd (show j = m.storageIndex by omega) hne
    · obtain ⟨d, hd, hnot⟩ := (updateLinks_flag _ _ _).mp hflag
      exact absurd (hlinked d hd) hnot
  · rw [if_neg hflag, if_neg hflag]
    exact h

/-- From empty backends or from a state with valid links, a store completes and leaves valid links. -/
theorem shadowed_step (hexcl : ∀ i, Exclusive conf i) {request : Data} {ds : List DataDistribution}
    (hw : NoRecord request.id w ∨ ∃ m, Shadowed conf request.id w m) (hsafe : KeepsShadows conf request ds w) :
    ∃ ds' w', MetadataOrchestrator.store conf Env.calm request ds w = .ok ds' w' ∧
      ∃ m, Shadowed conf request.id w' m := by
  obtain ⟨t, ht⟩ := hsafe.configured
  rcases hw with hnone | ⟨m, hm⟩
  · exact ⟨_, _, store_new (lookupFile_new ht (hnone t)) ht (fun _ => rfl) ds, _, Shadowed.create hexcl ht hnone hsafe⟩
  · obtain ⟨t₀, hprimary, hindex⟩ := hm.primary
    obtain ⟨tls, htls⟩ := tiles_isSome hm.inOrder hm.length_lt
    exact ⟨_, _, store_found (lookupFile_found (hm.primaryMetadata ht) htls) hindex rfl ds, _,
      hm.grow hprimary hindex hsafe⟩

/-! ## Runs -/

theorem shadowed_of_run (hexcl : ∀ i, Exclusive conf i)
    (h : Relation.TransGen (ShadowStep conf id) (fun _ _ => none) w) : ∃ m, Shadowed conf id w m := by
  have hstep : ∀ {w w'}, NoRecord id w ∨ (∃ m, Shadowed conf id w m) → ShadowStep conf id w w' →
      ∃ m, Shadowed conf id w' m := by
    rintro w w' hw ⟨request, ds, ds', rfl, hsafe, hrun⟩
    obtain ⟨ds'', w'', hrun', hm⟩ := shadowed_step hexcl hw hsafe
    cases hrun.symm.trans hrun'
    exact hm
  induction h with
  | single h => exact hstep (Or.inl fun _ => rfl) h
  | tail _ h ih => exact hstep (Or.inr ih) h

/-- **After every run of such stores, `Locate` through any storage succeeds and hands back the metadata that is
read through the primary storage, and every further such store completes.** -/
theorem shadows_stay_valid (hexcl : ∀ i, Exclusive conf i)
    (h : Relation.TransGen (ShadowStep conf id) (fun _ _ => none) w) :
    ∃ m, (∃ t, conf.backend m.storageIndex = some t ∧ Primary w t id m) ∧
      (∀ request : Data, request.id = id → (∃ t, conf.backend request.storageIndex = some t) →
        ∃ tls, MetadataOrchestrator.locate conf Env.calm request w = .ok (tls, m) w) ∧
      ∀ (request : Data) (ds : List DataDistribution), request.id = id → KeepsShadows conf request ds w →
        ∃ ds' w', MetadataOrchestrator.store conf Env.calm request ds w = .ok ds' w' := by
  obtain ⟨m, hm⟩ := shadowed_of_run hexcl h
  obtain ⟨t, hprimary, hindex⟩ := hm.primary
  refine ⟨m, ⟨t, hindex, hprimary⟩, ?_, ?_⟩
  · rintro request rfl ⟨t', ht'⟩
    exact hm.locate ht'
  · rintro request ds rfl hsafe
    obtain ⟨ds', w', hrun, -⟩ := shadowed_step hexcl (Or.inr ⟨m, hm⟩) hsafe
    exact ⟨ds', w', hrun⟩

end shadow

/-! ## A file system and Redis -/

/-- A file system with index 0 and Redis with index 1. -/
def fileAndRedis : ConfigurationManager := .config 4 [.fileIo, .redisIo] .randomPolicy fourBytes (by decide)

theorem fileAndRedis_exclusive (i : Nat) : Exclusive fileAndRedis i := by
  apply exclusive_of_nodup
  show [IoClientType.fileIo, .redisIo].Nodup
  decide

/-- The metadata of `f` after its first byte. -/
def firstMetadata : Metadata := newMetadata fileAndRedis { id := [0x66], dataSize := 1 } [oneByte]

/-- The backends then. -/
def afterFirst : Backends := created fileAndRedis [0x66] .fileIo firstMetadata fun _ _ => none

theorem afterFirst_run :
    MetadataOrchestrator.store fileAndRedis Env.calm { id := [0x66], dataSize := 1 } [oneByte] (fun _ _ => none) =
      .ok (createLinks fileAndRedis.maxObjSize [oneByte] ∅).1 afterFirst :=
  store_new (lookupFile_new (t := .fileIo) rfl rfl) rfl (fun _ => rfl) _

theorem oneByte_keepsShadows :
    KeepsShadows fileAndRedis { id := [0x66], dataSize := 1 } [oneByte] (fun _ _ => none) where
  configured := ⟨.fileIo, rfl⟩
  bounded := by decide
  first _ := by
    simp only [Sequential, and_true]
    decide
  later t m hm := by
    obtain ⟨rest, hrest⟩ := hm.holds
    cases hrest

theorem fileAndRedis_shadows_valid :
    ∃ m, (∃ t, fileAndRedis.backend m.storageIndex = some t ∧ Primary afterFirst t [0x66] m) ∧
      (∀ request : Data, request.id = [0x66] → (∃ t, fileAndRedis.backend request.storageIndex = some t) →
        ∃ tls, MetadataOrchestrator.locate fileAndRedis Env.calm request afterFirst = .ok (tls, m) afterFirst) ∧
      ∀ (request : Data) (ds : List DataDistribution), request.id = [0x66] → KeepsShadows fileAndRedis request ds afterFirst →
        ∃ ds' w', MetadataOrchestrator.store fileAndRedis Env.calm request ds afterFirst = .ok ds' w' :=
  shadows_stay_valid fileAndRedis_exclusive (.single ⟨_, _, _, rfl, oneByte_keepsShadows, afterFirst_run⟩)

/-- A second segment, stored through the file system, makes the link in Redis stale. -/
theorem fileAndRedis_stale_shadow :
    (∃ ds, MetadataOrchestrator.store fileAndRedis Env.calm { id := [0x66], dataSize := 1 } [oneByte] (fun _ _ => none) =
      .ok ds afterFirst) ∧
    ∃ ds' w' tls m, MetadataOrchestrator.store fileAndRedis Env.calm { id := [0x66], position := 4, dataSize := 1 }
        [nextByte] afterFirst = .ok ds' w' ∧
      MetadataOrchestrator.locate fileAndRedis Env.calm { id := [0x66], storageIndex := 0 } w' = .ok (tls, m) w' ∧
      MetadataOrchestrator.locate fileAndRedis Env.calm { id := [0x66], storageIndex := 1 } w' = .error .unpack w' := by
  have hportable : firstMetadata.Portable := newMetadata_portable _ _ _
  have hprimary : ∀ request : Data, request.id = [0x66] → request.storageIndex = 0 →
      primaryMetadata fileAndRedis Env.calm request afterFirst = .ok firstMetadata afterFirst := by
    intro request hid hindex
    refine primaryMetadata_primary (t := .fileIo) (by rw [hindex]; rfl) rfl hportable rfl ?_
    rw [hid]
    exact created_primary _ rfl (fileAndRedis_exclusive 0)
  obtain ⟨tls, htls⟩ := Option.isSome_iff_exists.mp (show (tiles fileAndRedis firstMetadata.links
    { id := [0x66], position := 4, dataSize := 1 }).isSome from by decide)
  have hstore := store_found (lookupFile_found (hprimary { id := [0x66], position := 4, dataSize := 1 } rfl rfl)
    htls) (t := .fileIo) rfl rfl [nextByte]
  have hflag : (updateLinks fileAndRedis.maxObjSize [nextByte] firstMetadata.links).2.2 = true := by decide
  rw [if_pos hflag] at hstore
  have hgrown : (grownMetadata fileAndRedis firstMetadata [nextByte]).Portable := grownMetadata_portable hportable _ _
  obtain ⟨tls', htls'⟩ := Option.isSome_iff_exists.mp (show (tiles fileAndRedis
    (grownMetadata fileAndRedis firstMetadata [nextByte]).links { id := [0x66], storageIndex := 0 }).isSome from by decide)
  refine ⟨⟨_, afterFirst_run⟩, _, _, tls', _, hstore, locate_ok (primaryMetadata_primary (t := .fileIo) rfl rfl hgrown rfl
    (putRecord_holds _ _ _ _)) htls', ?_⟩
  apply locate_error
  have hlink : Holds afterFirst .redisIo [0x66] (linkMetadata [0x66] firstMetadata) :=
    created_link _ (j := 1) (by decide) rfl
  obtain ⟨rest, hrest⟩ := hlink
  rw [primaryMetadata_link (t := .redisIo) rfl (fun _ => rfl)
    ⟨rest, (putRecord_of_client_ne _ _ _ _ (by decide)).trans hrest⟩ rfl hgrown (putRecord_same _ _ _ _) ?_]
  · exact if_neg (Nat.not_le.mpr (updateLinks_longer hflag))
  · rw [List.length_append]
    exact (updateLinks_longer hflag).le.trans (Nat.le_add_right _ _)

end Symbios
