import Symbios.Proof.Layout

/-!
# The records of a file over whole runs

As long as no write fails, the record of a file stands in every configured backend or in none, a record that is
no link is in the backend of its own storage index, and a link asks for no more bytes than its target has
(`RecordInv`). Every step keeps this (`RecordInv.step`). In such a state a request that is read without faults
reaches a record of the file or ends in an `unpack` exception (`AllRecords.primaryMetadata_cases`).
-/

namespace Symbios

open EStateM MetadataOrchestrator

section invariant

variable [Wire]

/-- The record in `t` is the primary metadata `m`. -/
structure Primary (w : Backends) (t : IoClientType) (id : CharStruct) (m : Metadata) : Prop where
  holds : Holds w t id m
  portable : m.Portable
  isLink_eq : m.isLink = false

/-- The record in `t` is a link to the record of `p`, which has grown no shorter since. -/
structure Shadow (conf : ConfigurationManager) (w : Backends) (t : IoClientType) (id : CharStruct) (p : Metadata)
    (target : IoClientType) : Prop where
  holds : Holds w t id (linkMetadata id p)
  target_eq : conf.backend p.storageIndex = some target
  reach : ∃ b, w target (metaId id) = some b ∧ p.serialize.length ≤ b.length

/-- What a backend may hold as the record of `id`. -/
def Good (conf : ConfigurationManager) (id : CharStruct) (w : Backends) (t : IoClientType) : Prop :=
  (∃ m, Primary w t id m ∧ conf.backend m.storageIndex = some t) ∨ ∃ p target, Shadow conf w t id p target

/-- The record of `id` is nowhere. -/
def NoRecord (id : CharStruct) (w : Backends) : Prop := ∀ t, w t (metaId id) = none

/-- The record of `id` is in every configured backend, and nowhere else. -/
structure AllRecords (conf : ConfigurationManager) (id : CharStruct) (w : Backends) : Prop where
  good : ∀ i t, conf.backend i = some t → Good conf id w t
  only : ∀ t, (∀ i, conf.backend i ≠ some t) → w t (metaId id) = none

/-- The invariant of the records. -/
def RecordInv (conf : ConfigurationManager) (id : CharStruct) (w : Backends) : Prop :=
  NoRecord id w ∨ AllRecords conf id w

variable {conf : ConfigurationManager} {id : CharStruct} {w w' : Backends}

theorem RecordInv.congr (h : ∀ t, w' t (metaId id) = w t (metaId id)) (hw : RecordInv conf id w) :
    RecordInv conf id w' := by
  rcases hw with hnone | hall
  · exact Or.inl fun t => (h t).trans (hnone t)
  · refine Or.inr ⟨fun i t hi => ?_, fun t ht => (h t).trans (hall.only t ht)⟩
    rcases hall.good i t hi with ⟨m, hm, hindex⟩ | ⟨p, target, hp⟩
    · obtain ⟨rest, hrest⟩ := hm.holds
      exact Or.inl ⟨m, ⟨⟨rest, (h t).trans hrest⟩, hm.portable, hm.isLink_eq⟩, hindex⟩
    · obtain ⟨rest, hrest⟩ := hp.holds
      obtain ⟨b, hb, hle⟩ := hp.reach
      exact Or.inr ⟨p, target, ⟨rest, (h t).trans hrest⟩, hp.target_eq, b, (h target).trans hb, hle⟩

/-! ## Reading -/

/-- A request that is read without faults finds a record: the primary metadata where its own index says, or
a link that was taken for one. -/
theorem AllRecords.primaryMetadata_cases {env : Env} {request : Data} (hw : AllRecords conf request.id w)
    (hcalm : ∀ i, env.readFault i (metaId request.id) = none) {t : IoClientType}
    (ht : conf.backend request.storageIndex = some t) :
    (∃ m t₀, primaryMetadata conf env request w = .ok m w ∧ Primary w t₀ request.id m ∧
      conf.backend m.storageIndex = some t₀) ∨
    (∃ p, primaryMetadata conf env request w = .ok (linkMetadata request.id p) w) ∨
    primaryMetadata conf env request w = .error .unpack w := by
  rcases hw.good _ t ht with ⟨m, hm, hindex⟩ | ⟨p, target, hp⟩
  · exact Or.inl ⟨m, t, primaryMetadata_primary ht (hcalm _) hm.portable hm.isLink_eq hm.holds, hm, hindex⟩
  · obtain ⟨b, hb, hle⟩ := hp.reach
    rcases hw.good _ target hp.target_eq with ⟨m, hm, hindex⟩ | ⟨p', target', hp'⟩
    · obtain ⟨rest, hrest⟩ := hm.holds
      cases hb.symm.trans hrest
      rw [primaryMetadata_link ht hcalm hp.holds hp.target_eq hm.portable hrest hle]
      split
      · exact Or.inl ⟨m, target, rfl, hm, hindex⟩
      · exact Or.inr (Or.inr rfl)
    · obtain ⟨rest, hrest⟩ := hp'.holds
      cases hb.symm.trans hrest
      rw [primaryMetadata_link ht hcalm hp.holds hp.target_eq (linkMetadata_portable _ _) hrest hle]
      split
      · exact Or.inr (Or.inl ⟨p', rfl⟩)
      · exact Or.inr (Or.inr rfl)

theorem primaryMetadata_unconfigured {env : Env} {request : Data} (h : conf.backend request.storageIndex = none)
    (w : Backends) : primaryMetadata conf env request w = .error .undefined w := by
  have hread : fetch conf env (recordAt request.id request.storageIndex) w = .error .undefined w := by
    have hidx : conf.backend (recordAt request.id request.storageIndex).storageIndex = none := h
    simp only [fetch, IoFactory.read, IoFactory.getIoClient, hidx]
    rfl
  rw [primaryMetadata_eq]
  exact bind_error hread

theorem primaryMetadata_noRecord {env : Env} {request : Data} {t : IoClientType} (hw : NoRecord request.id w)
    (ht : conf.backend request.storageIndex = some t) :
    ∃ code, primaryMetadata conf env request w = .error (.error code) w := by
  cases hfault : env.readFault request.storageIndex (metaId request.id) with
  | none => exact ⟨_, primaryMetadata_absent ht hfault (hw t)⟩
  | some code =>
    refine ⟨code, ?_⟩
    have hread : fetch conf env (recordAt request.id request.storageIndex) w = .error (.error code) w := by
      have hidx : conf.backend (recordAt request.id request.storageIndex).storageIndex = some t := ht
      have hfault' : env.readFault (recordAt request.id request.storageIndex).storageIndex
        (recordAt request.id request.storageIndex).id = some code := hfault
      simp only [fetch, IoFactory.read, IoFactory.getIoClient, hidx, hfault']
      rfl
    rw [primaryMetadata_eq]
    exact bind_error hread

/-! ## Steps -/

/-- No read of the existence check raises while a record of the file is present, and no write raises. -/
structure Healthy (env : Env) (id : CharStruct) (w : Backends) : Prop where
  reads : ¬ NoRecord id w → ∀ i, env.readFault i (metaId id) = none
  writes : ∀ i, env.writeFault i (metaId id) = none

theorem AllRecords.record (hw : AllRecords conf id w) {i : Nat} {t : IoClientType} (ht : conf.backend i = some t) :
    w t (metaId id) ≠ none := by
  rcases hw.good i t ht with ⟨m, hm, -⟩ | ⟨p, target, hp⟩
  · obtain ⟨rest, hrest⟩ := hm.holds
    rw [hrest]
    exact Option.some_ne_none _
  · obtain ⟨rest, hrest⟩ := hp.holds
    rw [hrest]
    exact Option.some_ne_none _

/-- What a store that completes has done: it created the file, or it found the primary metadata in the backend
of its own index and wrote it back with the new links. -/
theorem RecordInv.store_cases {env : Env} {request : Data} {ds ds' : List DataDistribution}
    (hw : RecordInv conf request.id w) (henv : Healthy env request.id w)
    (h : MetadataOrchestrator.store conf env request ds w = .ok ds' w') :
    (∃ t, NoRecord request.id w ∧ conf.backend request.storageIndex = some t ∧
      ds' = (createLinks conf.maxObjSize ds ∅).1 ∧
      w' = created conf request.id t (newMetadata conf request ds) w) ∨
    (∃ m t tls, primaryMetadata conf env request w = .ok m w ∧ tiles conf m.links request = some tls ∧
      Primary w t request.id m ∧ conf.backend m.storageIndex = some t ∧
      ds' = (updateLinks conf.maxObjSize ds m.links).1 ∧
      w' = if (updateLinks conf.maxObjSize ds m.links).2.2 then putRecord w t request.id (grownMetadata conf m ds)
        else w) := by
  cases ht : conf.backend request.storageIndex with
  | none =>
    rw [store_raise (lookupFile_undefined (primaryMetadata_unconfigured ht w))] at h
    cases h
  | some t =>
    rcases hw with hnone | hall
    · obtain ⟨code, hcode⟩ := primaryMetadata_noRecord hnone ht
      rw [store_new (lookupFile_absent hcode) ht henv.writes] at h
      cases h
      exact Or.inl ⟨t, hnone, rfl, rfl, rfl⟩
    · have hcalm := henv.reads fun hnone => hall.record ht (hnone t)
      rcases hall.primaryMetadata_cases hcalm ht with ⟨m, t₀, hm, hprimary, hindex⟩ | ⟨p, hp⟩ | hunpack
      · cases htiles : tiles conf m.links request with
        | none =>
          rw [store_raise (lookupFile_broken hm htiles)] at h
          cases h
        | some tls =>
          rw [store_found (lookupFile_found hm htiles) hindex (henv.writes _)] at h
          cases h
          exact Or.inr ⟨m, t₀, tls, hm, htiles, hprimary, hindex, rfl, rfl⟩
      · rw [store_raise (lookupFile_broken hp (tiles_linkMetadata _ _))] at h
        cases h
      · rw [store_raise (lookupFile_unpack hunpack)] at h
        cases h

theorem created_allRecords {t : IoClientType} {m : Metadata} (ht : conf.backend m.storageIndex = some t)
    (hm : m.Portable) (hlink : m.isLink = false) (hw : NoRecord id w) :
    AllRecords conf id (created conf id t m w) where
  good := by
    intro i t' ht'
    by_cases hlinked : ∃ j, j ≠ m.storageIndex ∧ conf.backend j = some t'
    · obtain ⟨j, hj, hjt⟩ := hlinked
      refine Or.inr ⟨m, t, created_link w hj hjt, ht, ?_⟩
      -- the record of `m` was written before the links, and a link never shortens what it overwrites
      have hlong : m.serialize.length ≤ (overwritten (w t (metaId id)) m.serialize).length := by simp [overwritten]
      by_cases hself : ∃ j, j ≠ m.storageIndex ∧ conf.backend j = some t
      · obtain ⟨j', hj', hjt'⟩ := hself
        refine ⟨_, created_of_linked w hj' hjt', ?_⟩
        rw [putRecord_same]
        exact hlong.trans (length_le_overwritten _ _)
      · push Not at hself
        exact ⟨_, (created_of_not_linked w hself).trans (putRecord_same w t id m), hlong⟩
    · push Not at hlinked
      have hi : i = m.storageIndex := by
        by_contra hne
        exact hlinked i hne ht'
      subst hi
      cases ht.symm.trans ht'
      refine Or.inl ⟨m, ⟨?_, hm, hlink⟩, ht⟩
      obtain ⟨rest, hrest⟩ := putRecord_holds w t id m
      exact ⟨rest, (created_of_not_linked w hlinked).trans hrest⟩
  only := by
    intro t' ht'
    have hne : t' ≠ t := fun heq => ht' m.storageIndex (heq ▸ ht)
    rw [created_of_not_linked w fun j _ => ht' j, putRecord_of_client_ne w id _ m hne]
    exact hw t'

theorem putRecord_allRecords {t : IoClientType} {m : Metadata} (hw : AllRecords conf id w)
    (ht : conf.backend m.storageIndex = some t) (hm : m.Portable) (hlink : m.isLink = false) :
    AllRecords conf id (putRecord w t id m) where
  good := by
    intro i t' hi
    by_cases heq : t' = t
    · subst heq
      exact Or.inl ⟨m, ⟨putRecord_holds w t' id m, hm, hlink⟩, ht⟩
    · rcases hw.good i t' hi with ⟨m', hm', hindex⟩ | ⟨p, target, hp⟩
      · obtain ⟨rest, hrest⟩ := hm'.holds
        exact Or.inl ⟨m', ⟨⟨rest, (putRecord_of_client_ne w id _ m heq).trans hrest⟩, hm'.portable,
          hm'.isLink_eq⟩, hindex⟩
      · obtain ⟨rest, hrest⟩ := hp.holds
        obtain ⟨b, hb, hle⟩ := hp.reach
        refine Or.inr ⟨p, target, ⟨rest, (putRecord_of_client_ne w id _ m heq).trans hrest⟩, hp.target_eq, ?_⟩
        by_cases htarget : target = t
        · subst htarget
          refine ⟨_, putRecord_same w target id m, ?_⟩
          rw [hb]
          exact hle.trans (length_le_overwritten _ _)
        · exact ⟨b, (putRecord_of_client_ne w id _ m htarget).trans hb, hle⟩
  only := by
    intro t' ht'
    have hne : t' ≠ t := fun heq => ht' m.storageIndex (heq ▸ ht)
    rw [putRecord_of_client_ne w id _ m hne]
    exact hw.only t' ht'

theorem Primary.allRecords {t : IoClientType} {m : Metadata} (hw : RecordInv conf id w) (hm : Primary w t id m) :
    AllRecords conf id w := by
  rcases hw with hnone | hall
  · obtain ⟨rest, hrest⟩ := hm.holds
    exact absurd ((hnone t).symm.trans hrest) (by simp)
  · exact hall

/-- A store that completes keeps the invariant. -/
theorem RecordInv.store {env : Env} {request : Data} {ds ds' : List DataDistribution}
    (hw : RecordInv conf request.id w) (henv : Healthy env request.id w)
    (h : MetadataOrchestrator.store conf env request ds w = .ok ds' w') : RecordInv conf request.id w' := by
  rcases hw.store_cases henv h with ⟨t, hnone, ht, -, rfl⟩ | ⟨m, t, tls, -, -, hm, hindex, -, rfl⟩
  · exact Or.inr (created_allRecords ht (newMetadata_portable _ _ _) rfl hnone)
  · split
    · exact Or.inr (putRecord_allRecords (hm.allRecords hw) hindex (grownMetadata_portable hm.portable _ _) hm.isLink_eq)
    · exact hw

/-! ### Deleting the records -/

/-- The backends after the records of `id` were removed from the storages of `l`. -/
def swept (id : CharStruct) (l : List (Nat × IoClientType)) (w : Backends) : Backends :=
  l.foldl (fun w solution => w.put solution.2 (metaId id) none) w

omit [Wire] in
open Classical in
theorem swept_apply (id : CharStruct) (l : List (Nat × IoClientType)) (w : Backends) (t : IoClientType) (k : CharStruct) :
    swept id l w t k = if k = metaId id ∧ ∃ i, (i, t) ∈ l then none else w t k := by
  induction l generalizing w with
  | nil => simp [swept]
  | cons s l ih =>
    obtain ⟨j, t'⟩ := s
    rw [show swept id ((j, t') :: l) w = swept id l (w.put t' (metaId id) none) from rfl, ih]
    by_cases hk : k = metaId id
    · subst hk
      by_cases ht : t = t'
      · subst ht
        have hmem : ∃ i, (i, t) ∈ (j, t) :: l := ⟨j, List.mem_cons_self⟩
        rw [if_pos (show metaId id = metaId id ∧ ∃ i, (i, t) ∈ (j, t) :: l from ⟨rfl, hmem⟩), Backends.put_same]
        split <;> rfl
      · have hiff : (∃ i, (i, t) ∈ (j, t') :: l) ↔ ∃ i, (i, t) ∈ l := by
          refine exists_congr fun i => ?_
          rw [List.mem_cons, Prod.mk.injEq]
          exact or_iff_right fun h => ht h.2
        rw [Backends.put_of_client_ne _ _ _ _ ht]
        simp only [hiff]
    · rw [if_neg (fun h => hk h.1), if_neg (fun h => hk h.1), Backends.put_of_key_ne _ _ _ _ hk]

omit [Wire] in
theorem delete_run (conf : ConfigurationManager) (request : Data) (w : Backends) :
    MetadataOrchestrator.delete conf request w = .ok true (swept request.id conf.storageSolutions w) := by
  have hloop : ∀ (l : List (Nat × IoClientType)), (∀ s ∈ l, conf.backend s.1 = some s.2) → ∀ w,
      (l.forM (fun solution => do
        discard <| IoFactory.remove conf solution.1 { id := metaId request.id, storageIndex := solution.1 }) : Prog PUnit)
        w = .ok () (swept request.id l w) := by
    intro l hl
    induction l with
    | nil => exact fun w => rfl
    | cons s l ih =>
      intro w
      rw [forM_cons, IoFactory.remove_eq (hl s (by simp))]
      have hremove : (discard (IoClient.remove s.2 { id := metaId request.id, storageIndex := s.1 }) : Prog PUnit) w =
          .ok () (w.put s.2 (metaId request.id) none) := by
        cases s.2 <;> rfl
      exact (bind_ok hremove).trans (ih (fun s' hs' => hl s' (by simp [hs'])) _)
  exact bind_ok (hloop conf.storageSolutions (fun s hs => backend_of_mem conf hs) w)

theorem RecordInv.swept (hw : RecordInv conf id w) : NoRecord id (swept id conf.storageSolutions w) := by
  intro t
  rw [swept_apply]
  split
  next => rfl
  next hnot =>
    have hno : ∀ i, conf.backend i ≠ some t := fun i hi => hnot ⟨rfl, i, (backend_eq_some_iff conf).mp hi⟩
    rcases hw with hnone | hall
    · exact hnone t
    · exact hall.only t hno

/-! ## Runs -/

/-- One step of a run, as far as the records of `id` are concerned: a store or a removal of the records that
completes, or anything that leaves them alone (objects, other files, a store that raises in its existence
check). -/
inductive RecordStep (conf : ConfigurationManager) (id : CharStruct) (w : Backends) : Backends → Prop
  | store {env : Env} {request : Data} {ds ds' : List DataDistribution} {w' : Backends} (hid : request.id = id)
    (henv : Healthy env id w) (hrun : MetadataOrchestrator.store conf env request ds w = .ok ds' w') :
    RecordStep conf id w w'
  | delete {request : Data} {w' : Backends} (hid : request.id = id)
    (hrun : MetadataOrchestrator.delete conf request w = .ok true w') : RecordStep conf id w w'
  | elsewhere {w' : Backends} (h : ∀ t, w' t (metaId id) = w t (metaId id)) : RecordStep conf id w w'

theorem RecordInv.step (hw : RecordInv conf id w) (h : RecordStep conf id w w') : RecordInv conf id w' := by
  cases h with
  | store hid henv hrun =>
    subst hid
    exact hw.store henv hrun
  | delete hid hrun =>
    subst hid
    rw [delete_run] at hrun
    cases hrun
    exact Or.inl hw.swept
  | elsewhere h => exact hw.congr h

/-- The invariant holds in every state a run from empty backends reaches. -/
theorem recordInv_of_run (h : Relation.ReflTransGen (RecordStep conf id) (fun _ _ => none) w) :
    RecordInv conf id w := by
  induction h with
  | refl => exact Or.inl fun _ => rfl
  | tail _ hstep ih => exact ih.step hstep

/-! ## Links are never lost -/

/-- **In a run whose stores meet no failing read, every store that completes keeps every link.** -/
theorem store_keeps_links {env : Env} {request : Data} {ds ds' : List DataDistribution}
    (hrun : Relation.ReflTransGen (RecordStep conf request.id) (fun _ _ => none) w)
    (henv : Healthy env request.id w) (h : MetadataOrchestrator.store conf env request ds w = .ok ds' w')
    {t : IoClientType} {m : Metadata} (hm : Primary w t request.id m) :
    ∃ m', Primary w' t request.id m' ∧ m'.storageIndex = m.storageIndex ∧
      ∀ key link, m.links.lookup key = some link → m'.links.lookup key = some link := by
  have hw := recordInv_of_run hrun
  rcases hw.store_cases henv h with ⟨t', hnone, -⟩ | ⟨m₁, t₁, tls, -, -, hm₁, hindex, -, rfl⟩
  · obtain ⟨rest, hrest⟩ := hm.holds
    exact absurd ((hnone t).symm.trans hrest) (by simp)
  · split
    · by_cases ht : t = t₁
      · subst ht
        cases Holds.unique hm.portable hm₁.portable hm.holds hm₁.holds
        exact ⟨grownMetadata conf m ds, ⟨putRecord_holds _ _ _ _, grownMetadata_portable hm.portable _ _, hm.isLink_eq⟩,
          rfl, (updateLinks_extends conf.maxObjSize ds m.links).keeps⟩
      · obtain ⟨rest, hrest⟩ := hm.holds
        exact ⟨m, ⟨⟨rest, (putRecord_of_client_ne w _ _ _ ht).trans hrest⟩, hm.portable, hm.isLink_eq⟩, rfl,
          fun _ _ hlookup => hlookup⟩
    · exact ⟨m, hm, rfl, fun _ _ hlookup => hlookup⟩

end invariant

/-! ## A read that fails once -/

/-- The read of the record fails. -/
def failingRead : Env where
  readFault _ _ := some openFileFailed

/-- A byte for segment 1 of the file `f`. -/
def nextByte : DataDistribution where
  sourceData := { buffer := some [8], dataSize := 1 }
  destinationData := { id := [0x66], position := 4, dataSize := 1 }

/-- The backends after a byte was stored in segment 0 of `f`. -/
def afterOneByte : Backends :=
  created oneFile [0x66] .fileIo (newMetadata oneFile { id := [0x66], dataSize := 1 } [oneByte]) fun _ _ => none

theorem afterOneByte_run :
    MetadataOrchestrator.store oneFile Env.calm { id := [0x66], dataSize := 1 } [oneByte] (fun _ _ => none) =
      .ok (createLinks oneFile.maxObjSize [oneByte] ∅).1 afterOneByte :=
  store_new (lookupFile_new (t := .fileIo) rfl rfl) rfl (fun _ => rfl) _

theorem afterOneByte_primary :
    Primary afterOneByte .fileIo [0x66] (newMetadata oneFile { id := [0x66], dataSize := 1 } [oneByte]) :=
  ⟨created_primary (fun _ _ => none) rfl oneFile_exclusive, newMetadata_portable _ _ _, rfl⟩

theorem oneFile_keeps_links :
    ∃ ds' w', MetadataOrchestrator.store oneFile Env.calm { id := [0x66], dataSize := 1 } [oneByte] afterOneByte =
        .ok ds' w' ∧
      ∃ m', Primary w' .fileIo [0x66] m' ∧ m'.storageIndex = 0 ∧
        ∀ key link, (newMetadata oneFile { id := [0x66], dataSize := 1 } [oneByte]).links.lookup key = some link →
          m'.links.lookup key = some link := by
  obtain ⟨tls, htls⟩ := Option.isSome_iff_exists.mp (show (tiles oneFile
    (newMetadata oneFile { id := [0x66], dataSize := 1 } [oneByte]).links { id := [0x66], dataSize := 1 }).isSome from
      by decide)
  have hfound : lookupFile oneFile Env.calm { id := [0x66], dataSize := 1 } afterOneByte =
      .ok (some (newMetadata oneFile { id := [0x66], dataSize := 1 } [oneByte])) afterOneByte :=
    lookupFile_found (primaryMetadata_primary (t := .fileIo) rfl rfl (newMetadata_portable _ _ _) rfl
      afterOneByte_primary.holds) htls
  have hstore := store_found hfound (t := .fileIo) rfl rfl [oneByte]
  refine ⟨_, _, hstore, ?_⟩
  refine store_keeps_links (Relation.ReflTransGen.single
    (.store rfl ⟨fun _ _ => rfl, fun _ => rfl⟩ afterOneByte_run))
    ⟨fun _ _ => rfl, fun _ => rfl⟩ hstore afterOneByte_primary

/-- A store of segment 1 whose existence check cannot read the record forgets segment 0. -/
theorem failingRead_loses_link :
    (∃ ds, MetadataOrchestrator.store oneFile Env.calm { id := [0x66], dataSize := 1 } [oneByte] (fun _ _ => none) =
      .ok ds afterOneByte) ∧
    (∃ m, Primary afterOneByte .fileIo [0x66] m ∧ m.links.lookup 0 = some { id := objectId [0x66] 0, dataSize := 1 }) ∧
    ∃ ds' w' m', MetadataOrchestrator.store oneFile failingRead { id := [0x66], position := 4, dataSize := 1 } [nextByte]
        afterOneByte = .ok ds' w' ∧ Primary w' .fileIo [0x66] m' ∧ m'.links.lookup 0 = none := by
  have hfault : primaryMetadata oneFile failingRead { id := [0x66], position := 4, dataSize := 1 } afterOneByte =
      .error (.error openFileFailed) afterOneByte := rfl
  refine ⟨⟨_, afterOneByte_run⟩, ⟨_, afterOneByte_primary, by decide⟩, _, _,
    newMetadata oneFile { id := [0x66], position := 4, dataSize := 1 } [nextByte],
    store_new (lookupFile_absent hfault) (t := .fileIo) rfl (fun _ => rfl) _, ⟨?_, ?_, rfl⟩, ?_⟩
  · exact created_primary afterOneByte rfl oneFile_exclusive
  · exact newMetadata_portable _ _ _
  · rw [newMetadata_lookup]
    decide

end Symbios
