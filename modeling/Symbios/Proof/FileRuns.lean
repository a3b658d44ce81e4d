import Symbios.Proof.ShadowLinks

/-!
# A file that was created through an exclusive storage index

Such a file has one primary record and links to it everywhere else (`Filed`). A store of the server either ends
in the `unpack` exception of a stale link and changes nothing, or creates the file, or adds the links it needs to
the record and then writes its object (`FileInv.store_cases`).
-/

namespace Symbios

open EStateM MetadataOrchestrator DataDistributionEngine

/-- Every link names the object of its own segment, in a configured storage. -/
def Named (conf : ConfigurationManager) (id : CharStruct) (links : Links) : Prop :=
  ∀ key link, links.lookup key = some link →
    ∃ s, key = linkKey s ∧ link.id = objectId id s ∧ ∃ t, conf.backend link.storageIndex = some t

theorem Extends.named {conf : ConfigurationManager} {id : CharStruct} {ds : List DataDistribution} {links links' : Links}
    (h : Extends conf.maxObjSize ds links links') (hlinks : Named conf id links)
    (hds : ∀ d ∈ ds, d.destinationData.id = id ∧ ∃ t, conf.backend d.destinationData.storageIndex = some t) :
    Named conf id links' := by
  intro key link hlookup
  rcases h.fresh key link hlookup with hold | ⟨d, hd, hkey, rfl⟩
  · exact hlinks key link hold
  · obtain ⟨hid, hindex⟩ := hds d hd
    refine ⟨d.segment conf.maxObjSize, hkey, ?_, hindex⟩
    rw [← hid]
    rfl

theorem distribute_mem {conf : ConfigurationManager} {draw : Nat} {source destination : Data} {d : DataDistribution}
    (hd : d ∈ distribute conf draw source destination) : d = sent conf draw source destination := by
  rw [distribute] at hd
  split at hd
  · cases hd
  · exact List.mem_singleton.mp hd

theorem distribute_named {conf : ConfigurationManager} {draw : Nat} {source destination : Data} :
    ∀ d ∈ distribute conf draw source destination,
      d.destinationData.id = destination.id ∧ ∃ t, conf.backend d.destinationData.storageIndex = some t := by
  intro d hd
  rw [distribute_mem hd]
  exact ⟨rfl, selectedIndex_configured conf draw destination⟩

section filed

variable [Wire] {conf : ConfigurationManager} {id : CharStruct} {w w' : Backends}

/-- The file `id` has the primary metadata `m` in backend `t`, and links to it everywhere else. -/
structure Filed (conf : ConfigurationManager) (id : CharStruct) (w : Backends) (m : Metadata) (t : IoClientType) :
    Prop where
  primary : Primary w t id m
  index : conf.backend m.storageIndex = some t
  shadows : ∀ i t', conf.backend i = some t' → t' ≠ t → ∃ p, Shadow conf w t' id p t
  only : ∀ t', (∀ i, conf.backend i ≠ some t') → w t' (metaId id) = none
  named : Named conf id m.links

/-- There is no file `id`, or there is one. -/
def FileInv (conf : ConfigurationManager) (id : CharStruct) (w : Backends) : Prop :=
  NoRecord id w ∨ ∃ m t, Filed conf id w m t

theorem Filed.allRecords {m : Metadata} {t : IoClientType} (h : Filed conf id w m t) : AllRecords conf id w where
  good := by
    intro i t' hi
    by_cases ht : t' = t
    · subst ht
      exact Or.inl ⟨m, h.primary, h.index⟩
    · obtain ⟨p, hp⟩ := h.shadows i t' hi ht
      exact Or.inr ⟨p, t, hp⟩
  only := h.only

theorem FileInv.recordInv (h : FileInv conf id w) : RecordInv conf id w := by
  rcases h with hnone | ⟨m, t, hm⟩
  · exact Or.inl hnone
  · exact Or.inr hm.allRecords

theorem Filed.congr {m : Metadata} {t : IoClientType} (hw : ∀ t', w' t' (metaId id) = w t' (metaId id))
    (h : Filed conf id w m t) : Filed conf id w' m t where
  primary := by
    obtain ⟨rest, hrest⟩ := h.primary.holds
    exact ⟨⟨rest, (hw t).trans hrest⟩, h.primary.portable, h.primary.isLink_eq⟩
  index := h.index
  shadows := by
    intro i t' hi ht
    obtain ⟨p, hp⟩ := h.shadows i t' hi ht
    obtain ⟨rest, hrest⟩ := hp.holds
    obtain ⟨b, hb, hle⟩ := hp.reach
    exact ⟨p, ⟨rest, (hw t').trans hrest⟩, hp.target_eq, b, (hw t).trans hb, hle⟩
  only t' ht' := (hw t').trans (h.only t' ht')
  named := h.named

/-- There is one primary record. -/
theorem Filed.unique {m m' : Metadata} {t t' : IoClientType} (h : Filed conf id w m t) (h' : Primary w t' id m') :
    t' = t ∧ m' = m := by
  have ht : t' = t := by
    by_contra hne
    obtain ⟨rest, hrest⟩ := h'.holds
    by_cases hconf : ∃ i, conf.backend i = some t'
    · obtain ⟨i, hi⟩ := hconf
      obtain ⟨p, hp⟩ := h.shadows i t' hi hne
      have heq := Holds.unique h'.portable (linkMetadata_portable _ _) h'.holds hp.holds
      have hflag := h'.isLink_eq
      rw [heq] at hflag
      cases hflag
    · push Not at hconf
      cases (h.only t' hconf).symm.trans hrest
  subst ht
  exact ⟨rfl, Holds.unique h'.portable h.primary.portable h'.holds h.primary.holds⟩

/-- A request finds the primary metadata, or its link is stale. -/
theorem Filed.primaryMetadata_cases {m : Metadata} {t t' : IoClientType} {request : Data}
    (h : Filed conf request.id w m t) (ht' : conf.backend request.storageIndex = some t') :
    primaryMetadata conf Env.calm request w = .ok m w ∨ primaryMetadata conf Env.calm request w = .error .unpack w := by
  by_cases ht : t' = t
  · subst ht
    exact Or.inl (primaryMetadata_primary ht' rfl h.primary.portable h.primary.isLink_eq h.primary.holds)
  · obtain ⟨p, hp⟩ := h.shadows _ t' ht' ht
    obtain ⟨b, hb, hle⟩ := hp.reach
    obtain ⟨rest, hrest⟩ := h.primary.holds
    cases hb.symm.trans hrest
    rw [primaryMetadata_link ht' (fun _ => rfl) hp.holds hp.target_eq h.primary.portable hrest hle]
    split
    · exact Or.inl rfl
    · exact Or.inr rfl

theorem Filed.create {m : Metadata} {t : IoClientType} (hnone : NoRecord id w) (ht : conf.backend m.storageIndex = some t)
    (hexcl : Exclusive conf m.storageIndex) (hm : m.Portable) (hlink : m.isLink = false) (hnamed : Named conf id m.links) :
    Filed conf id (created conf id t m w) m t where
  primary := ⟨created_primary w ht hexcl, hm, hlink⟩
  index := ht
  shadows := by
    intro i t' hi hne
    have hindex : i ≠ m.storageIndex := by
      rintro rfl
      exact hne (Option.some.inj (hi.symm.trans ht))
    have hlong : m.serialize.length ≤ (overwritten (w t (metaId id)) m.serialize).length := by simp [overwritten]
    refine ⟨m, created_link w hindex hi, ht, _, ?_, hlong⟩
    rw [created_of_not_linked w fun j hj hjt => hj (hexcl j t ht hjt), putRecord_same]
  only := (created_allRecords ht hm hlink hnone).only
  named := hnamed

theorem Filed.writeBack {m m' : Metadata} {t : IoClientType} (h : Filed conf id w m t)
    (hindex : m'.storageIndex = m.storageIndex) (hm' : m'.Portable) (hlink : m'.isLink = false)
    (hnamed : Named conf id m'.links) : Filed conf id (putRecord w t id m') m' t where
  primary := ⟨putRecord_holds w t id m', hm', hlink⟩
  index := hindex ▸ h.index
  shadows := by
    intro i t' hi hne
    obtain ⟨p, hp⟩ := h.shadows i t' hi hne
    obtain ⟨rest, hrest⟩ := hp.holds
    obtain ⟨b, hb, hle⟩ := hp.reach
    refine ⟨p, ⟨rest, (putRecord_of_client_ne w id _ m' hne).trans hrest⟩, hp.target_eq, _, putRecord_same w t id m', ?_⟩
    rw [hb]
    exact hle.trans (length_le_overwritten _ _)
  only := (putRecord_allRecords h.allRecords (hindex ▸ h.index) hm' hlink).only
  named := hnamed

/-! ## The server's store -/

/-- The loop of `Server::Store` over the objects. -/
def writeObjects (conf : ConfigurationManager) (env : Env) (ds : List DataDistribution) : Prog PUnit :=
  ds.forM fun d => IoFactory.write conf env d.destinationData.storageIndex d.sourceData d.destinationData

omit [Wire] in
theorem writeObjects_outside {env : Env} {ds : List DataDistribution} {k : CharStruct}
    (h : ∀ d ∈ ds, d.destinationData.id ≠ k) (w : Backends) (t : IoClientType) :
    (writeObjects conf env ds w).final t k = w t k := by
  induction ds generalizing w with
  | nil => rfl
  | cons d ds ih =>
    have hhead := @IoFactory.write_outside conf env d.destinationData.storageIndex d.sourceData
      d.destinationData w t k (h d (by simp)).symm
    rw [writeObjects, forM_cons]
    cases hrun : IoFactory.write conf env d.destinationData.storageIndex d.sourceData d.destinationData w with
    | ok a w' =>
      rw [hrun] at hhead
      rw [bind_ok hrun]
      exact (ih (fun e he => h e (by simp [he])) w').trans hhead
    | error e w' =>
      rw [hrun] at hhead
      rw [bind_error hrun]
      exact hhead

omit [Wire] in
theorem writeObjects_keeps {env : Env} {ds : List DataDistribution} {a : PUnit} (hrun : writeObjects conf env ds w = .ok a w')
    {k : CharStruct} (h : ∀ d ∈ ds, d.destinationData.id ≠ k) (t : IoClientType) : w' t k = w t k := by
  have hkeep := @writeObjects_outside conf env _ _ h w t
  rw [hrun] at hkeep
  exact hkeep

omit [Wire] in
theorem writeObjects_raises {ds : List DataDistribution} (h : ∀ d ∈ ds, d.destinationData.position < 2 ^ 63) :
    Raises (· = Fault.undefined) (writeObjects conf Env.calm ds) :=
  Raises.forM fun d hd => IoFactory.write_raises (fun _ _ => rfl) _ _ (h d hd)

omit [Wire] in
theorem createLinks_position {ds : List DataDistribution} {links : Links} :
    ∀ d ∈ (createLinks conf.maxObjSize ds links).1, d.destinationData.position < 2 ^ 63 := by
  intro d hd
  rw [createLinks_fst, List.mem_map] at hd
  obtain ⟨e, -, rfl⟩ := hd
  exact (Nat.mod_lt _ conf.maxObjSize_pos).trans conf.maxObjSize_lt

omit [Wire] in
theorem updateLinks_position {ds : List DataDistribution} {links : Links} :
    ∀ d ∈ (updateLinks conf.maxObjSize ds links).1, d.destinationData.position < 2 ^ 63 := by
  intro d hd
  obtain ⟨e, -, -, hpos, -⟩ := updateLinks_mem hd
  rw [hpos]
  exact (Nat.mod_lt _ conf.maxObjSize_pos).trans conf.maxObjSize_lt

variable {draw : Nat} {source destination : Data}

theorem server_store_of_objects {ds : List DataDistribution} {w₁ : Backends}
    (h : MetadataOrchestrator.store conf Env.calm destination (distribute conf draw source destination) w = .ok ds w₁)
    (hds : ∀ d ∈ ds, d.destinationData.position < 2 ^ 63)
    (hdef : (Server.store conf Env.calm draw source destination w).outcome ≠ .error .undefined) :
    ∃ w', Server.store conf Env.calm draw source destination w = .ok conf.serverCount w' ∧
      writeObjects conf Env.calm ds w₁ = .ok () w' := by
  rw [server_store_eq h] at hdef ⊢
  cases hrun : writeObjects conf Env.calm ds w₁ with
  | ok a w' =>
    cases a
    exact ⟨w', bind_ok hrun, rfl⟩
  | error fault w' =>
    have hfault := writeObjects_raises hds w₁ fault w' hrun
    rw [hfault] at hrun
    have hraise := bind_error (f := fun _ => (pure conf.serverCount : Prog Nat)) hrun
    exact absurd (congrArg Result.outcome hraise) hdef

/-- What a store of the server does to a file: nothing (its link was stale), the creation, or the new links
followed by the object. -/
theorem FileInv.store_cases (hw : FileInv conf destination.id w)
    (hdef : (Server.store conf Env.calm draw source destination w).outcome ≠ .error .undefined) :
    Server.store conf Env.calm draw source destination w = .error .unpack w ∨
    (∃ t w', NoRecord destination.id w ∧ conf.backend destination.storageIndex = some t ∧
      Server.store conf Env.calm draw source destination w = .ok conf.serverCount w' ∧
      writeObjects conf Env.calm (createLinks conf.maxObjSize (distribute conf draw source destination) ∅).1
        (created conf destination.id t (newMetadata conf destination (distribute conf draw source destination)) w) =
        .ok () w') ∨
    (∃ m t tls w', Filed conf destination.id w m t ∧ tiles conf m.links destination = some tls ∧
      Server.store conf Env.calm draw source destination w = .ok conf.serverCount w' ∧
      writeObjects conf Env.calm (updateLinks conf.maxObjSize (distribute conf draw source destination) m.links).1
        (if (updateLinks conf.maxObjSize (distribute conf draw source destination) m.links).2.2 then
          putRecord w t destination.id (grownMetadata conf m (distribute conf draw source destination)) else w) =
        .ok () w') := by
  cases ht : conf.backend destination.storageIndex with
  | none =>
    rw [server_store_raise (store_raise (lookupFile_undefined (primaryMetadata_unconfigured ht w)) _)] at hdef
    exact absurd rfl hdef
  | some t =>
    rcases hw with hnone | ⟨m, t₀, hm⟩
    · have hstore := store_new (lookupFile_new ht (hnone t)) ht (fun _ => rfl)
        (distribute conf draw source destination)
      obtain ⟨w', hrun, hobjects⟩ := server_store_of_objects hstore createLinks_position hdef
      exact Or.inr (Or.inl ⟨t, w', hnone, rfl, hrun, hobjects⟩)
    · rcases hm.primaryMetadata_cases ht with hprimary | hunpack
      · cases htiles : tiles conf m.links destination with
        | none =>
          rw [server_store_raise (store_raise (lookupFile_broken hprimary htiles) _)] at hdef
          exact absurd rfl hdef
        | some tls =>
          have hstore := store_found (lookupFile_found hprimary htiles) hm.index rfl
            (distribute conf draw source destination)
          obtain ⟨w', hrun, hobjects⟩ := server_store_of_objects hstore updateLinks_position hdef
          exact Or.inr (Or.inr ⟨m, t₀, tls, w', hm, htiles, hrun, hobjects⟩)
      · exact Or.inl (server_store_raise (store_raise (lookupFile_unpack hunpack) _))

omit [Wire] in
/-- The objects of a store have names of their own. -/
theorem createLinks_names {k : CharStruct} (hk : ∀ s, objectId destination.id s ≠ k) :
    ∀ d ∈ (createLinks conf.maxObjSize (distribute conf draw source destination) ∅).1, d.destinationData.id ≠ k := by
  intro d hd
  rw [createLinks_fst, List.mem_map] at hd
  obtain ⟨e, he, rfl⟩ := hd
  have hid := (distribute_named e he).1
  show objectId e.destinationData.id _ ≠ k
  rw [hid]
  exact hk _

omit [Wire] in
theorem updateLinks_names {links : Links} (hnamed : Named conf destination.id links) {k : CharStruct}
    (hk : ∀ s, objectId destination.id s ≠ k) :
    ∀ d ∈ (updateLinks conf.maxObjSize (distribute conf draw source destination) links).1, d.destinationData.id ≠ k := by
  intro d hd
  obtain ⟨e, -, -, -, link, hlink, hid, -⟩ := updateLinks_mem hd
  have hextends := updateLinks_extends conf.maxObjSize (distribute conf draw source destination) links
  obtain ⟨s, -, hs, -⟩ := hextends.named hnamed distribute_named _ link hlink
  rw [hid, hs]
  exact hk s

/-! ### The file after a store -/

theorem Filed.of_create {t : IoClientType} (hnone : NoRecord destination.id w)
    (ht : conf.backend destination.storageIndex = some t) (hexcl : Exclusive conf destination.storageIndex)
    (hobjects : writeObjects conf Env.calm (createLinks conf.maxObjSize (distribute conf draw source destination) ∅).1
        (created conf destination.id t (newMetadata conf destination (distribute conf draw source destination)) w) =
      .ok () w') :
    Filed conf destination.id w' (newMetadata conf destination (distribute conf draw source destination)) t := by
  have hextends : Extends conf.maxObjSize (distribute conf draw source destination) ∅
      (newMetadata conf destination (distribute conf draw source destination)).links := createLinks_extends _ _ _
  have hfiled := Filed.create hnone ht hexcl
    (newMetadata_portable conf destination (distribute conf draw source destination)) rfl
    (hextends.named (fun _ _ h => by cases h) distribute_named)
  exact hfiled.congr fun t' => writeObjects_keeps hobjects (createLinks_names (objectId_ne_metaId _)) t'

omit [Wire] in
theorem grownMetadata_unchanged {m : Metadata} {ds : List DataDistribution}
    (h : ¬ (updateLinks conf.maxObjSize ds m.links).2.2 = true) : grownMetadata conf m ds = m := by
  rw [Bool.not_eq_true] at h
  rw [grownMetadata, updateLinks_unchanged h]

theorem Filed.of_grow {m : Metadata} {t : IoClientType} (hm : Filed conf destination.id w m t)
    (hobjects : writeObjects conf Env.calm (updateLinks conf.maxObjSize (distribute conf draw source destination) m.links).1
        (if (updateLinks conf.maxObjSize (distribute conf draw source destination) m.links).2.2 then
          putRecord w t destination.id (grownMetadata conf m (distribute conf draw source destination)) else w) =
      .ok () w') :
    Filed conf destination.id w' (grownMetadata conf m (distribute conf draw source destination)) t := by
  have hextends : Extends conf.maxObjSize (distribute conf draw source destination) m.links
      (grownMetadata conf m (distribute conf draw source destination)).links := updateLinks_extends _ _ _
  have hkeep := fun t' => writeObjects_keeps hobjects (updateLinks_names hm.named (objectId_ne_metaId _)) t'
  by_cases hflag : (updateLinks conf.maxObjSize (distribute conf draw source destination) m.links).2.2 = true
  · rw [if_pos hflag] at hkeep
    have hindex : (grownMetadata conf m (distribute conf draw source destination)).storageIndex = m.storageIndex := rfl
    exact (hm.writeBack hindex (grownMetadata_portable hm.primary.portable _ _) hm.primary.isLink_eq
      (hextends.named hm.named distribute_named)).congr hkeep
  · rw [if_neg hflag] at hkeep
    rw [grownMetadata_unchanged hflag]
    exact hm.congr hkeep

end filed

end Symbios
