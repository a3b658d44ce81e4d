import Symbios.Proof.ShadowLinks

/-!
# Placement is sticky

Every solution has a backend of its own and nothing fails, so the first store of a file decides where its primary
metadata is (`Settled.create`) and every later one, whatever its request and its distributions, leaves the metadata
there with the links it has (`Settled.store`). A store that adds a link writes a longer record over the old one, and
nothing of the old one is left behind it (`overwritten_longer`).
-/

namespace Symbios

open EStateM MetadataOrchestrator

section sticky

variable [Wire]

/-- The primary metadata of `id` is `m`, in backend `t`; every configured backend holds exactly one record, and the
records outside of `t` link to one that was no longer than `m` is. -/
structure Settled (conf : ConfigurationManager) (id : CharStruct) (w : Backends) (m : Metadata) (t : IoClientType) :
    Prop where
  record : w t (metaId id) = some m.serialize
  portable : m.Portable
  isLink_eq : m.isLink = false
  index : conf.backend m.storageIndex = some t
  shadows : ∀ i t', conf.backend i = some t' → t' ≠ t → ∃ p : Metadata,
    w t' (metaId id) = some (linkMetadata id p).serialize ∧ conf.backend p.storageIndex = some t ∧
      p.serialize.length ≤ m.serialize.length
  only : ∀ t', (∀ i, conf.backend i ≠ some t') → w t' (metaId id) = none

/-- `m'` is `m` with more links, if it is not `m` itself. -/
structure Grows (m m' : Metadata) : Prop where
  index_eq : m'.storageIndex = m.storageIndex
  keeps : ∀ key link, m.links.lookup key = some link → m'.links.lookup key = some link
  longer : m' = m ∨ m.serialize.length < m'.serialize.length

theorem Grows.refl (m : Metadata) : Grows m m := ⟨rfl, fun _ _ h => h, Or.inl rfl⟩

theorem Grows.trans {m m' m'' : Metadata} (h : Grows m m') (h' : Grows m' m'') : Grows m m'' where
  index_eq := h'.index_eq.trans h.index_eq
  keeps key link hlink := h'.keeps key link (h.keeps key link hlink)
  longer := by
    rcases h.longer with heq | hlt
    · exact heq ▸ h'.longer
    · rcases h'.longer with heq' | hlt'
      · exact Or.inr (heq' ▸ hlt)
      · exact Or.inr (hlt.trans hlt')

theorem grownMetadata_grows (conf : ConfigurationManager) (m : Metadata) {ds : List DataDistribution}
    (hflag : (updateLinks conf.maxObjSize ds m.links).2.2 = true) : Grows m (grownMetadata conf m ds) where
  index_eq := rfl
  keeps := (updateLinks_extends conf.maxObjSize ds m.links).keeps
  longer := Or.inr (updateLinks_longer hflag)

omit [Wire] in
/-- A longer record leaves nothing of the one before it. -/
theorem overwritten_longer {old new : List UInt8} (h : old.length ≤ new.length) : overwritten (some old) new = new := by
  rw [overwritten, Option.getD_some, List.drop_eq_nil_of_le h, List.append_nil]

section steps

variable {conf : ConfigurationManager} {id : CharStruct} {w : Backends} {m : Metadata} {t : IoClientType}

theorem Settled.primary (h : Settled conf id w m t) : Primary w t id m :=
  ⟨⟨[], by rw [h.record, List.append_nil]⟩, h.portable, h.isLink_eq⟩

/-- The other backends hold links, which are not primary metadata. -/
theorem Settled.unique (h : Settled conf id w m t) {m' : Metadata} {t' : IoClientType} (h' : Primary w t' id m') :
    t' = t ∧ m' = m := by
  by_cases ht : t' = t
  · subst ht
    exact ⟨rfl, Holds.unique h'.portable h.portable h'.holds h.primary.holds⟩
  · obtain ⟨rest, hrest⟩ := h'.holds
    by_cases hconf : ∃ i, conf.backend i = some t'
    · obtain ⟨i, hi⟩ := hconf
      obtain ⟨p, hp, -⟩ := h.shadows i t' hi ht
      have hlink : Holds w t' id (linkMetadata id p) := ⟨[], by rw [hp, List.append_nil]⟩
      have heq := Holds.unique h'.portable (linkMetadata_portable _ _) h'.holds hlink
      have hflag := h'.isLink_eq
      rw [heq] at hflag
      cases hflag
    · push Not at hconf
      cases (h.only t' hconf).symm.trans hrest

theorem Settled.record_of (h : Settled conf id w m t) {i : Nat} {t' : IoClientType} (hi : conf.backend i = some t') :
    ∃ r : Metadata, w t' (metaId id) = some r.serialize := by
  by_cases ht : t' = t
  · exact ⟨m, ht ▸ h.record⟩
  · obtain ⟨p, hp, -⟩ := h.shadows i t' hi ht
    exact ⟨_, hp⟩

/-- Through a link the metadata is found, unless it has grown since the link was written. -/
theorem Settled.primaryMetadata_cases {request : Data} {t' : IoClientType} (h : Settled conf request.id w m t)
    (ht' : conf.backend request.storageIndex = some t') :
    primaryMetadata conf Env.calm request w = .ok m w ∨ primaryMetadata conf Env.calm request w = .error .unpack w := by
  by_cases ht : t' = t
  · subst ht
    exact Or.inl (primaryMetadata_primary ht' rfl h.portable h.isLink_eq h.primary.holds)
  · obtain ⟨p, hp, htarget, hle⟩ := h.shadows _ t' ht' ht
    have hlink : Holds w t' request.id (linkMetadata request.id p) := ⟨[], by rw [hp, List.append_nil]⟩
    have hrecord : w t (metaId request.id) = some (m.serialize ++ []) := by rw [h.record, List.append_nil]
    rw [primaryMetadata_link ht' (fun _ => rfl) hlink htarget h.portable hrecord (by rwa [List.append_nil])]
    split
    · exact Or.inl rfl
    · exact Or.inr rfl

/-- The first store puts the primary metadata where its request says. -/
theorem Settled.create (hexcl : ∀ i, Exclusive conf i) {request : Data} (hnone : NoRecord request.id w)
    (ht : conf.backend request.storageIndex = some t) (ds : List DataDistribution) :
    Settled conf request.id (created conf request.id t (newMetadata conf request ds) w) (newMetadata conf request ds) t where
  record := by
    rw [created_of_not_linked w fun j hj hjt => hj (hexcl _ j t ht hjt), putRecord_same, hnone t]
    simp [overwritten]
  portable := newMetadata_portable _ _ _
  isLink_eq := rfl
  index := ht
  shadows := by
    intro i t' hi hne
    have hindex : i ≠ (newMetadata conf request ds).storageIndex := by
      rintro rfl
      exact hne (Option.some.inj (hi.symm.trans ht))
    refine ⟨newMetadata conf request ds, ?_, ht, le_rfl⟩
    rw [created_of_linked w hindex hi, putRecord_of_client_ne w _ _ _ hne, hnone t']
    simp [overwritten]
  only := (created_allRecords ht (newMetadata_portable _ _ _) rfl hnone).only

/-- A record with more links, written over the old one. -/
theorem Settled.writeBack (h : Settled conf id w m t) {m' : Metadata} (hgrows : Grows m m') (hm' : m'.Portable)
    (hlink : m'.isLink = false) (hlonger : m.serialize.length < m'.serialize.length) :
    Settled conf id (putRecord w t id m') m' t where
  record := by rw [putRecord_same, h.record, overwritten_longer hlonger.le]
  portable := hm'
  isLink_eq := hlink
  index := hgrows.index_eq ▸ h.index
  shadows := by
    intro i t' hi hne
    obtain ⟨p, hp, htarget, hle⟩ := h.shadows i t' hi hne
    exact ⟨p, (putRecord_of_client_ne w id _ m' hne).trans hp, htarget, hle.trans hlonger.le⟩
  only := by
    intro t' ht'
    have hne : t' ≠ t := by
      rintro rfl
      exact ht' _ h.index
    exact (putRecord_of_client_ne w id _ m' hne).trans (h.only t' ht')

/-- A store keeps what it finds: it raises and changes nothing, or it adds the links that are missing. -/
theorem Settled.store {request : Data} {t' : IoClientType} (h : Settled conf request.id w m t)
    (ht' : conf.backend request.storageIndex = some t') (ds : List DataDistribution) :
    ∃ m', Settled conf request.id (MetadataOrchestrator.store conf Env.calm request ds w).final m' t ∧ Grows m m' := by
  rcases h.primaryMetadata_cases ht' with hm | hunpack
  · cases htiles : tiles conf m.links request with
    | none =>
      rw [store_raise (lookupFile_broken hm htiles)]
      exact ⟨m, h, Grows.refl m⟩
    | some tls =>
      rw [store_found (lookupFile_found hm htiles) h.index rfl]
      cases hflag : (updateLinks conf.maxObjSize ds m.links).2.2 with
      | false => exact ⟨m, h, Grows.refl m⟩
      | true =>
        have hgrows := grownMetadata_grows conf m hflag
        exact ⟨_, h.writeBack hgrows (grownMetadata_portable h.portable conf ds) h.isLink_eq (updateLinks_longer hflag),
          hgrows⟩
  · rw [store_raise (lookupFile_unpack hunpack)]
    exact ⟨m, h, Grows.refl m⟩

end steps

/-! ## Runs -/

/-- A call of `MetadataOrchestrator::Store`: the request and its distributions. -/
abbrev MetaCall := Data × List DataDistribution

/-- The backends after a sequence of stores; one that raises leaves what it has written. -/
def storeMetadata (conf : ConfigurationManager) (calls : List MetaCall) (w : Backends) : Backends :=
  calls.foldl (fun w call => (MetadataOrchestrator.store conf Env.calm call.1 call.2 w).final) w

/-- The call is on `id` and its storage index is configured. -/
def MetaCall.On (conf : ConfigurationManager) (id : CharStruct) (call : MetaCall) : Prop :=
  call.1.id = id ∧ ∃ t, conf.backend call.1.storageIndex = some t

section runs

variable {conf : ConfigurationManager} {id : CharStruct} {w : Backends}

theorem Settled.run {m : Metadata} {t : IoClientType} (h : Settled conf id w m t) {calls : List MetaCall}
    (hcalls : ∀ call ∈ calls, call.On conf id) :
    ∃ m', Settled conf id (storeMetadata conf calls w) m' t ∧ Grows m m' := by
  induction calls generalizing w m with
  | nil => exact ⟨m, h, Grows.refl m⟩
  | cons call calls ih =>
    obtain ⟨hid, t', ht'⟩ := hcalls call List.mem_cons_self
    subst hid
    obtain ⟨m₁, hm₁, hgrows⟩ := h.store ht' call.2
    obtain ⟨m', hm', hgrows'⟩ := ih hm₁ fun call' hcall' => hcalls call' (List.mem_cons_of_mem _ hcall')
    exact ⟨m', hm', hgrows.trans hgrows'⟩

theorem settled_first (hexcl : ∀ i, Exclusive conf i) (hnone : NoRecord id w) {first : MetaCall} {t : IoClientType}
    (hid : first.1.id = id) (ht : conf.backend first.1.storageIndex = some t) :
    Settled conf id (storeMetadata conf [first] w) (newMetadata conf first.1 first.2) t := by
  subst hid
  obtain ⟨code, hcode⟩ : ∃ code, primaryMetadata conf Env.calm first.1 w = .error (.error code) w :=
    primaryMetadata_noRecord hnone ht
  have hrun := store_new (lookupFile_absent hcode) ht (fun _ => rfl) first.2
  have hfinal : storeMetadata conf [first] w = created conf first.1.id t (newMetadata conf first.1 first.2) w := by
    rw [storeMetadata, List.foldl_cons, List.foldl_nil, hrun]
    rfl
  rw [hfinal]
  exact Settled.create hexcl hnone ht first.2

end runs

/-- After the first store the primary metadata of the file is in the storage of that store, and nowhere else. Whatever
is stored further, it stays there and keeps the links it has, and the record in every backend is exactly one
serialized record: a record that changes gets longer. -/
theorem sticky_placement {conf : ConfigurationManager} (hexcl : ∀ i, Exclusive conf i) {id : CharStruct} {w : Backends}
    (hnone : NoRecord id w) {first : MetaCall} {calls later : List MetaCall}
    (hcalls : ∀ call ∈ first :: (calls ++ later), call.On conf id) :
    ∃ t m m', conf.backend first.1.storageIndex = some t ∧
      Primary (storeMetadata conf (first :: calls) w) t id m ∧
      Primary (storeMetadata conf (first :: (calls ++ later)) w) t id m' ∧
      m.storageIndex = first.1.storageIndex ∧ Grows m m' ∧
      (∀ t₁ m₁, Primary (storeMetadata conf (first :: (calls ++ later)) w) t₁ id m₁ → t₁ = t ∧ m₁ = m') ∧
      ∀ i t₁, conf.backend i = some t₁ → ∃ r : Metadata,
        storeMetadata conf (first :: (calls ++ later)) w t₁ (metaId id) = some r.serialize := by
  obtain ⟨hid, t, ht⟩ := hcalls first List.mem_cons_self
  have hfirst := settled_first hexcl hnone hid ht
  obtain ⟨m, hm, hgrows⟩ := hfirst.run fun call hcall =>
    hcalls call (List.mem_cons_of_mem _ (List.mem_append_left _ hcall))
  obtain ⟨m', hm', hgrows'⟩ := hm.run fun call hcall =>
    hcalls call (List.mem_cons_of_mem _ (List.mem_append_right _ hcall))
  have hsplit : storeMetadata conf (first :: (calls ++ later)) w =
      storeMetadata conf later (storeMetadata conf calls (storeMetadata conf [first] w)) := by
    simp only [storeMetadata, List.foldl_cons, List.foldl_nil, List.foldl_append]
  rw [hsplit]
  exact ⟨t, m, m', ht, hm.primary, hm'.primary, hgrows.index_eq, hgrows', fun t₁ m₁ h₁ => hm'.unique h₁,
    fun i t₁ hi => hm'.record_of hi⟩

end sticky

/-- A byte at the start of `f` through the file system, and one through Redis for the next segment. -/
def twoStores : List MetaCall :=
  [({ id := [0x66], dataSize := 1 }, [oneByte]), ({ id := [0x66], position := 4, dataSize := 1, storageIndex := 1 }, [nextByte])]

theorem twoStores_sticky :
    ∃ t m m', fileAndRedis.backend 0 = some t ∧
      Primary (storeMetadata fileAndRedis [({ id := [0x66], dataSize := 1 }, [oneByte])] fun _ _ => none) t [0x66] m ∧
      Primary (storeMetadata fileAndRedis twoStores fun _ _ => none) t [0x66] m' ∧ m.storageIndex = 0 ∧ Grows m m' ∧
      (∀ t₁ m₁, Primary (storeMetadata fileAndRedis twoStores fun _ _ => none) t₁ [0x66] m₁ → t₁ = t ∧ m₁ = m') ∧
      ∀ i t₁, fileAndRedis.backend i = some t₁ → ∃ r : Metadata,
        storeMetadata fileAndRedis twoStores (fun _ _ => none) t₁ (metaId [0x66]) = some r.serialize := by
  refine @sticky_placement _ fileAndRedis fileAndRedis_exclusive [0x66] (fun _ _ => none) (fun _ => rfl)
    ({ id := [0x66], dataSize := 1 }, [oneByte]) [] _ ?_
  intro call hcall
  rcases List.mem_pair.mp hcall with h | h
  · exact h ▸ ⟨rfl, .fileIo, rfl⟩
  · exact h ▸ ⟨rfl, .redisIo, rfl⟩

end Symbios
