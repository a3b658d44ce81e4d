import Symbios.Proof.ShadowLinks

/-!
# Data goes where the metadata points

A store into an existing file sends every distribution to the object its segment is linked to (`updateLinks_sentTo`). The
store that creates a file sends every distribution where it was meant to go, and links the first one of a segment; so the
others follow their link only if they agree with it (`createLinks_sentTo_iff`). The same condition decides whether the
two loops route a list alike (`routes_alike_iff`).
-/

namespace Symbios

open EStateM MetadataOrchestrator

/-! ## The two loops -/

/-- Distributions of one segment go to the same object. -/
def SegmentsAgree (maxObjSize : Nat) (ds : List DataDistribution) : Prop :=
  ∀ d ∈ ds, ∀ e ∈ ds, d.segment maxObjSize = e.segment maxObjSize →
    d.destinationData.id = e.destinationData.id ∧ d.destinationData.storageIndex = e.destinationData.storageIndex

/-- Where a distribution is written. -/
def route (d : DataDistribution) : CharStruct × Nat × Nat :=
  (d.destinationData.id, d.destinationData.storageIndex, d.destinationData.position)

/-- The distribution as it was meant to go. -/
def placedAt (maxObjSize : Nat) (d : DataDistribution) : DataDistribution :=
  { d with destinationData := placed maxObjSize d.destinationData }

section loops

variable {maxObjSize : Nat} {links links' : Links} {ds : List DataDistribution}

/-- Links decide where a distribution goes. -/
theorem SentTo.route_eq {d d₁ d₂ : DataDistribution} (h₁ : SentTo maxObjSize links d d₁)
    (h₂ : SentTo maxObjSize links d d₂) : route d₁ = route d₂ := by
  obtain ⟨link₁, hlink₁, hid₁, hindex₁⟩ := h₁.link
  obtain ⟨link₂, hlink₂, hid₂, hindex₂⟩ := h₂.link
  obtain rfl : link₁ = link₂ := Option.some.inj (hlink₁.symm.trans hlink₂)
  rw [route, route, hid₁, hid₂, hindex₁, hindex₂, h₁.position, h₂.position]

theorem SentTo.of_route {d d₁ d₂ : DataDistribution} (h₁ : SentTo maxObjSize links d d₁)
    (hsource : d₂.sourceData = d.sourceData) (h : route d₁ = route d₂) : SentTo maxObjSize links d d₂ := by
  obtain ⟨link, hlink, hid, hindex⟩ := h₁.link
  have hposition := h₁.position
  simp only [route, Prod.mk.injEq] at h
  obtain ⟨hid', hindex', hposition'⟩ := h
  exact ⟨hsource, hposition' ▸ hposition, link, hlink, hid' ▸ hid, hindex' ▸ hindex⟩

/-- Every segment of the list has the link of one of its distributions. -/
def LinkedBy (maxObjSize : Nat) (ds : List DataDistribution) (links : Links) : Prop :=
  ∀ d ∈ ds, ∃ e ∈ ds, e.segment maxObjSize = d.segment maxObjSize ∧
    links.lookup (linkKey (d.segment maxObjSize)) = some (freshLink maxObjSize e)

theorem Extends.linkedBy (h : Extends maxObjSize ds links links')
    (hfresh : ∀ d ∈ ds, linkKey (d.segment maxObjSize) ∉ links)
    (hlt : ∀ d ∈ ds, d.segment maxObjSize < 2 ^ 64) : LinkedBy maxObjSize ds links' := by
  intro d hd
  obtain ⟨link, hlink⟩ := UnorderedMap.exists_lookup ((h.keys _).mpr (Or.inr ⟨d, hd, rfl⟩))
  rcases h.fresh _ _ hlink with hold | ⟨e, he, hkey, rfl⟩
  · exact absurd (AList.lookup_isSome.mp (by rw [hold]; rfl)) (hfresh d hd)
  · exact ⟨e, he, (linkKey_injOn (hlt d hd) (hlt e he) hkey).symm, hlink⟩

/-- Every distribution follows its link as it was meant to go exactly when those of one segment agree. -/
theorem LinkedBy.sentTo_iff (h : LinkedBy maxObjSize ds links) :
    (∀ d ∈ ds, SentTo maxObjSize links d (placedAt maxObjSize d)) ↔ SegmentsAgree maxObjSize ds := by
  constructor
  · intro hsent d hd e he hsegment
    obtain ⟨link, hlink, hid, hindex⟩ := (hsent d hd).link
    obtain ⟨link', hlink', hid', hindex'⟩ := (hsent e he).link
    rw [hsegment, hlink', Option.some.injEq] at hlink
    subst hlink
    have hname : objectId d.destinationData.id (d.segment maxObjSize) =
      objectId e.destinationData.id (e.segment maxObjSize) := hid.trans hid'.symm
    rw [hsegment] at hname
    exact ⟨List.append_cancel_right hname, hindex.trans hindex'.symm⟩
  · intro hagree d hd
    obtain ⟨e, he, hsegment, hlink⟩ := h d hd
    obtain ⟨hid, hindex⟩ := hagree d hd e he hsegment.symm
    refine ⟨rfl, rfl, _, hlink, ?_, hindex⟩
    show objectId d.destinationData.id (d.segment maxObjSize) = objectId e.destinationData.id (e.segment maxObjSize)
    rw [hid, hsegment]

/-- Lists that follow the same links go to the same objects, and only those do. -/
theorem forall₂_route_iff {ds' : List DataDistribution} (h : List.Forall₂ (SentTo maxObjSize links) ds ds') :
    ds'.map route = ds.map (fun d => route (placedAt maxObjSize d)) ↔
      ∀ d ∈ ds, SentTo maxObjSize links d (placedAt maxObjSize d) := by
  induction h with
  | nil => simp
  | cons hd _ ih =>
    simp only [List.map_cons, List.cons.injEq, List.forall_mem_cons, ih]
    exact and_congr_left fun _ => ⟨fun heq => hd.of_route rfl heq, fun hsent => hd.route_eq hsent⟩

variable (hlt : ∀ d ∈ ds, d.segment maxObjSize < 2 ^ 64)

include hlt

theorem createLinks_sentTo_iff :
    List.Forall₂ (SentTo maxObjSize (createLinks maxObjSize ds ∅).2) ds (createLinks maxObjSize ds ∅).1 ↔
      SegmentsAgree maxObjSize ds := by
  have hlinked := (createLinks_extends maxObjSize ds ∅).linkedBy (fun d _ => AList.notMem_empty _) hlt
  rw [← hlinked.sentTo_iff, createLinks_fst, List.forall₂_map_right_iff, List.forall₂_same]
  rfl

/-- The two loops route a list alike exactly when its distributions of one segment agree. -/
theorem routes_alike_iff (hfresh : ∀ d ∈ ds, linkKey (d.segment maxObjSize) ∉ links) :
    (updateLinks maxObjSize ds links).1.map route = (createLinks maxObjSize ds ∅).1.map route ↔
      SegmentsAgree maxObjSize ds := by
  have hlinked := (updateLinks_extends maxObjSize ds links).linkedBy hfresh hlt
  rw [← hlinked.sentTo_iff, ← forall₂_route_iff (updateLinks_sentTo maxObjSize ds links), createLinks_fst, List.map_map]
  rfl

end loops

/-! ## The persisted links -/

section routed

variable [Wire] {conf : ConfigurationManager} {id : CharStruct} {w w' : Backends} {request : Data}
  {ds ds' : List DataDistribution}

/-- `d'` is `d`, sent to the object that the primary metadata in the backends has for its segment. -/
def Routed (conf : ConfigurationManager) (id : CharStruct) (w : Backends) (d d' : DataDistribution) : Prop :=
  ∃ m t, conf.backend m.storageIndex = some t ∧ Primary w t id m ∧ SentTo conf.maxObjSize m.links d d'

theorem Routed.of_sentTo {m : Metadata} {t : IoClientType} (ht : conf.backend m.storageIndex = some t)
    (hm : Primary w t id m) (h : List.Forall₂ (SentTo conf.maxObjSize m.links) ds ds') :
    List.Forall₂ (Routed conf id w) ds ds' :=
  h.imp fun _ _ hsent => ⟨m, t, ht, hm, hsent⟩

/-- After a file was created its metadata is the only primary one, unless a link was written over it. -/
theorem created_primary_iff {m m' : Metadata} {t t' : IoClientType} (ht : conf.backend m.storageIndex = some t)
    (hm : m.Portable) (hlink : m.isLink = false) :
    (conf.backend m'.storageIndex = some t' ∧ Primary (created conf id t m w) t' id m') ↔
      (m' = m ∧ t' = t) ∧ Exclusive conf m.storageIndex := by
  constructor
  · rintro ⟨ht', hm'⟩
    have hunlinked : ∀ j, j ≠ m.storageIndex → conf.backend j ≠ some t' := by
      intro j hj hjt
      have heq := Holds.unique (linkMetadata_portable id m) hm'.portable (created_link w hj hjt) hm'.holds
      have hflag := hm'.isLink_eq
      rw [← heq] at hflag
      cases hflag
    have hindex : m'.storageIndex = m.storageIndex := by
      by_contra hne
      exact hunlinked _ hne ht'
    rw [hindex, ht, Option.some.injEq] at ht'
    subst ht'
    have hexcl : Exclusive conf m.storageIndex := by
      intro j t' hi hj
      by_contra hne
      exact hunlinked j hne (hj.trans (hi.symm.trans ht))
    exact ⟨⟨Holds.unique hm'.portable hm hm'.holds (created_primary w ht hexcl), rfl⟩, hexcl⟩
  · rintro ⟨⟨rfl, rfl⟩, hexcl⟩
    exact ⟨ht, created_primary w ht hexcl, hm, hlink⟩

/-- A store that creates a file. -/
theorem routed_create_iff {t : IoClientType} (ht : conf.backend request.storageIndex = some t)
    (hlt : ∀ d ∈ ds, d.segment conf.maxObjSize < 2 ^ 64) :
    List.Forall₂ (Routed conf request.id (created conf request.id t (newMetadata conf request ds) w)) ds
        (createLinks conf.maxObjSize ds ∅).1 ↔
      (ds = [] ∨ Exclusive conf request.storageIndex) ∧ SegmentsAgree conf.maxObjSize ds := by
  have hrouted : ∀ d d', Routed conf request.id (created conf request.id t (newMetadata conf request ds) w) d d' ↔
      Exclusive conf request.storageIndex ∧ SentTo conf.maxObjSize (createLinks conf.maxObjSize ds ∅).2 d d' := by
    intro d d'
    have hportable := newMetadata_portable conf request ds
    constructor
    · rintro ⟨m', t', ht', hm', hsent⟩
      obtain ⟨⟨rfl, -⟩, hexcl⟩ := (created_primary_iff ht hportable rfl).mp ⟨ht', hm'⟩
      exact ⟨hexcl, hsent⟩
    · rintro ⟨hexcl, hsent⟩
      obtain ⟨ht', hm'⟩ := (created_primary_iff ht hportable rfl).mpr ⟨⟨rfl, rfl⟩, hexcl⟩
      exact ⟨_, _, ht', hm', hsent⟩
  have hempty : (∀ d ∈ ds, Exclusive conf request.storageIndex) ↔ ds = [] ∨ Exclusive conf request.storageIndex := by
    cases ds with
    | nil => simp
    | cons d ds =>
      simp only [reduceCtorEq, false_or]
      exact ⟨fun h => h d List.mem_cons_self, fun h _ _ => h⟩
  rw [← createLinks_sentTo_iff hlt, ← hempty, ← List.forall₂_and_left]
  exact ⟨fun h => h.imp fun d d' => (hrouted d d').mp, fun h => h.imp fun d d' => (hrouted d d').mpr⟩

/-- A store into an existing file. -/
theorem routed_update {m : Metadata} {t : IoClientType} (ht : conf.backend m.storageIndex = some t)
    (hm : Primary w t id m) (ds : List DataDistribution) :
    List.Forall₂ (Routed conf id (if (updateLinks conf.maxObjSize ds m.links).2.2 then
        putRecord w t id (grownMetadata conf m ds) else w)) ds (updateLinks conf.maxObjSize ds m.links).1 := by
  have hsent := updateLinks_sentTo conf.maxObjSize ds m.links
  by_cases hflag : (updateLinks conf.maxObjSize ds m.links).2.2 = true
  · rw [if_pos hflag]
    exact Routed.of_sentTo (m := grownMetadata conf m ds) ht
      ⟨putRecord_holds _ _ _ _, grownMetadata_portable hm.portable _ _, hm.isLink_eq⟩ hsent
  · rw [if_neg hflag]
    rw [updateLinks_unchanged (Bool.not_eq_true _ ▸ hflag)] at hsent
    exact Routed.of_sentTo ht hm hsent

/-! ### Stores that return -/

/-- The same reads raise, and no write. -/
def Env.calmWrites (env : Env) : Env := { env with writeFault := fun _ _ => none }

omit [Wire] in
theorem write_returns (conf : ConfigurationManager) (env : Env) (index : Nat) (source destination : Data) :
    Returns (IoFactory.write conf env index source destination)
      (IoFactory.write conf env.calmWrites index source destination) := by
  refine (Returns.refl _).bind fun client => ?_
  intro w a w' h
  cases hfault : env.writeFault index destination.id with
  | some code =>
    simp only [hfault] at h
    cases h
  | none =>
    simp only [hfault] at h
    exact h

theorem lookupFile_calmWrites (conf : ConfigurationManager) (env : Env) (request : Data) :
    lookupFile conf env.calmWrites request = lookupFile conf env request := rfl

/-- None of the writes of a store that returns has raised. -/
theorem store_returns (conf : ConfigurationManager) (env : Env) (request : Data) (ds : List DataDistribution) :
    Returns (MetadataOrchestrator.store conf env request ds)
      (MetadataOrchestrator.store conf env.calmWrites request ds) := by
  rw [MetadataOrchestrator.store, MetadataOrchestrator.store, lookupFile_calmWrites]
  refine (Returns.refl _).bind fun primary => ?_
  cases primary with
  | some primary =>
    dsimp only
    split
    · exact (write_returns conf env _ _ _).bind fun _ => Returns.refl _
    · exact Returns.refl _
  | none =>
    refine (write_returns conf env _ _ _).bind fun _ => ?_
    refine Returns.bind (Returns.forM (fun solution => ?_) _) fun _ => Returns.refl _
    split
    · exact Returns.refl _
    · exact write_returns conf env _ _ _

/-- **After a store into an existing file every distribution goes where the primary metadata has the link of its
segment. After the store that creates a file it does exactly when the metadata survives its links and the distributions
of one segment agree; then, and only then, both loops route the list alike.** -/
theorem store_routes_iff {env : Env} (hlt : ∀ d ∈ ds, d.destinationData.position < 2 ^ 64)
    (hstore : MetadataOrchestrator.store conf env request ds w = .ok ds' w') :
    (∀ m t, primaryMetadata conf env request w = .ok m w → conf.backend m.storageIndex = some t →
      Primary w t request.id m → List.Forall₂ (Routed conf request.id w') ds ds') ∧
    (∀ code, primaryMetadata conf env request w = .error (.error code) w →
      (List.Forall₂ (Routed conf request.id w') ds ds' ↔
        (ds = [] ∨ Exclusive conf request.storageIndex) ∧ SegmentsAgree conf.maxObjSize ds)) ∧
    ∀ links : Links, (∀ d ∈ ds, linkKey (d.segment conf.maxObjSize) ∉ links) →
      ((updateLinks conf.maxObjSize ds links).1.map route = (createLinks conf.maxObjSize ds ∅).1.map route ↔
        SegmentsAgree conf.maxObjSize ds) := by
  have hsegment : ∀ d ∈ ds, d.segment conf.maxObjSize < 2 ^ 64 :=
    fun d hd => lt_of_le_of_lt (Nat.div_le_self _ _) (hlt d hd)
  have hreturned := store_returns conf env request ds w ds' w' hstore
  refine ⟨?_, ?_, fun links hfresh => routes_alike_iff hsegment hfresh⟩
  · intro m t hprimary ht hm
    rcases htiles : tiles conf m.links request with _ | tls
    · cases (store_raise (lookupFile_broken hprimary htiles) ds).symm.trans hstore
    · have hfound : lookupFile conf env.calmWrites request w = .ok (some m) w := lookupFile_found hprimary htiles
      cases (store_found hfound ht rfl ds).symm.trans hreturned
      exact routed_update ht hm ds
  · intro code habsent
    rcases hbackend : conf.backend request.storageIndex with _ | t
    · cases (primaryMetadata_unconfigured hbackend w).symm.trans habsent
    · have hnew : lookupFile conf env.calmWrites request w = .ok none w := lookupFile_absent habsent
      cases (store_new hnew hbackend (fun _ => rfl) ds).symm.trans hreturned
      exact routed_create_iff hbackend hsegment

end routed

/-! ## One byte twice -/

theorem oneByte_agrees : SegmentsAgree 4 [oneByte] := by
  intro d hd e he _
  rw [List.mem_singleton] at hd he
  rw [hd, he]
  exact ⟨rfl, rfl⟩

theorem firstByte_routed :
    MetadataOrchestrator.store fileAndRedis Env.calm { id := [0x66], dataSize := 1 } [oneByte] (fun _ _ => none) =
      .ok (createLinks 4 [oneByte] ∅).1 afterFirst ∧
    List.Forall₂ (Routed fileAndRedis [0x66] afterFirst) [oneByte] (createLinks 4 [oneByte] ∅).1 ∧
    (updateLinks 4 [oneByte] ∅).1.map route = (createLinks 4 [oneByte] ∅).1.map route := by
  obtain ⟨-, hcreate, halike⟩ := store_routes_iff (by decide) afterFirst_run
  exact ⟨afterFirst_run,
    (hcreate _ (primaryMetadata_absent (t := .fileIo) rfl rfl rfl)).mpr ⟨Or.inr (fileAndRedis_exclusive 0), oneByte_agrees⟩,
    (halike ∅ fun d _ => AList.notMem_empty _).mpr oneByte_agrees⟩

/-- The same byte, meant for Redis. -/
def redisByte : DataDistribution := { oneByte with destinationData := { oneByte.destinationData with storageIndex := 1 } }

theorem redisByte_disagrees : ¬ SegmentsAgree 4 [oneByte, redisByte] := by
  intro h
  have := (h oneByte (by simp) redisByte (by simp) rfl).2
  revert this
  decide

/-- The second of two distributions of one segment is written to Redis, where no link points. -/
theorem redisByte_not_routed :
    (∃ ds' w', MetadataOrchestrator.store fileAndRedis Env.calm { id := [0x66], dataSize := 2 } [oneByte, redisByte]
        (fun _ _ => none) = .ok ds' w' ∧
      ¬ List.Forall₂ (Routed fileAndRedis [0x66] w') [oneByte, redisByte] ds') ∧
    (updateLinks 4 [oneByte, redisByte] ∅).1.map route ≠ (createLinks 4 [oneByte, redisByte] ∅).1.map route := by
  refine ⟨⟨_, _, store_new (lookupFile_new (t := .fileIo) rfl rfl) rfl (fun _ => rfl) _, ?_⟩, ?_⟩
  · intro h
    exact redisByte_disagrees ((routed_create_iff (t := .fileIo) rfl (by decide)).mp h).2
  · decide

end Symbios
