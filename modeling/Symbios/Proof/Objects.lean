import Symbios.Proof.Bounds

/-!
# Objects and links

`Delete` removes the objects of its range and then every record of the file. When every `Delete` covers all
linked segments, the objects of a file are at every moment exactly those its primary metadata links to
(`objects_match_links`): nothing dangles, and nothing is left behind.
-/

namespace Symbios

open EStateM MetadataOrchestrator DataDistributionEngine

/-! ## What a write leaves -/

/-- A program that only looks, followed by one that returns. -/
theorem ok_after_readOnly {α : Type} {x : Prog α} (hx : ReadOnly x) {f : α → Prog Unit} {w w' : Backends} {a : Unit}
    (h : (x >>= f) w = .ok a w') : ∃ b, f b w = .ok a w' := by
  obtain ⟨b, w₁, hrun, hf⟩ := bind_eq_ok h
  have hw := hx w
  rw [hrun] at hw
  cases hw
  exact ⟨b, hf⟩

theorem write_ok {t : IoClientType} {source destination : Data} {w w' : Backends} {a : Unit}
    (h : IoClient.write t source destination w = .ok a w') : ∃ b, w' = w.put t destination.id (some b) := by
  by_cases ht : t = .fileIo
  · subst ht
    have h' : FileIoClient.write source destination w = .ok a w' := h
    rw [FileIoClient.write, get_bind] at h'
    by_cases hpos : 2 ^ 63 ≤ destination.position
    · rw [if_pos hpos] at h'
      cases h'
    · rw [if_neg hpos] at h'
      obtain ⟨bytes, hput⟩ := ok_after_readOnly (slice_readOnly _ _ _) h'
      cases hput
      exact ⟨_, rfl⟩
  · rw [objectWrite_eq ht] at h
    obtain ⟨value, hput⟩ := ok_after_readOnly (storedValue_readOnly _ _ _) h
    cases hput
    exact ⟨value, rfl⟩

theorem IoFactory.write_ok {conf : ConfigurationManager} {env : Env} {i : Nat} {source destination : Data} {w w' : Backends}
    {a : Unit} (h : IoFactory.write conf env i source destination w = .ok a w') :
    ∃ t b, conf.backend i = some t ∧ w' = w.put t destination.id (some b) := by
  cases hi : conf.backend i with
  | none =>
    rw [IoFactory.write, IoFactory.getIoClient, hi] at h
    cases h
  | some t =>
    cases hfault : env.writeFault i destination.id with
    | some code =>
      rw [IoFactory.write_fault hi source hfault] at h
      cases h
    | none =>
      rw [IoFactory.write_eq hi source hfault] at h
      obtain ⟨b, hb⟩ := Symbios.write_ok h
      exact ⟨t, b, rfl, hb⟩

/-! ## Deleting -/

section delete

variable [Wire] {conf : ConfigurationManager} {env : Env} {request : Data} {w w' : Backends}

theorem tryLocate_found {m : Metadata} {ds : List DataDistribution}
    (h : primaryMetadata conf env request w = .ok m w) (htiles : tiles conf m.links request = some ds) :
    Server.tryLocate conf env request w = .ok (some ds) w :=
  attempt_ok (bind_ok (locate_ok h htiles))

theorem tryLocate_absent {code : ErrorCode} (h : primaryMetadata conf env request w = .error (.error code) w) :
    Server.tryLocate conf env request w = .ok none w :=
  attempt_error (bind_error (locate_error h))

theorem tryLocate_broken {m : Metadata} (h : primaryMetadata conf env request w = .ok m w)
    (htiles : tiles conf m.links request = none) :
    Server.tryLocate conf env request w = .error .undefined w :=
  attempt_error (bind_error (locate_broken h htiles))

theorem tryLocate_unpack (h : primaryMetadata conf env request w = .error .unpack w) :
    Server.tryLocate conf env request w = .error .unpack w :=
  attempt_error (bind_error (locate_error h))

theorem tryLocate_undefined (h : primaryMetadata conf env request w = .error .undefined w) :
    Server.tryLocate conf env request w = .error .undefined w :=
  attempt_error (bind_error (locate_error h))

omit [Wire] in
/-- The loop of `Delete` over the distributions of its range. -/
theorem removeObjects_run {ds : List DataDistribution}
    (hds : ∀ d ∈ ds, ∃ t, conf.backend d.destinationData.storageIndex = some t) (w : Backends) :
    ∃ w', (ds.foldlM (fun status d =>
        if status then IoFactory.remove conf d.destinationData.storageIndex d.sourceData else pure false) true : Prog Bool)
        w = .ok true w' ∧
      (∀ t k, (∀ d ∈ ds, ¬ (conf.backend d.destinationData.storageIndex = some t ∧ d.sourceData.id = k)) →
        w' t k = w t k) ∧
      ∀ t, ∀ d ∈ ds, conf.backend d.destinationData.storageIndex = some t → w' t d.sourceData.id = none := by
  induction ds generalizing w with
  | nil => exact ⟨w, rfl, fun _ _ _ => rfl, by simp⟩
  | cons d ds ih =>
    obtain ⟨t, ht⟩ := hds d (by simp)
    obtain ⟨w', hrun, hout, hin⟩ := ih (fun e he => hds e (by simp [he])) (w.put t d.sourceData.id none)
    refine ⟨w', ?_, ?_, ?_⟩
    · rw [List.foldlM_cons, if_pos rfl, IoFactory.remove_eq ht, bind_ok (remove_run t d.sourceData w)]
      exact hrun
    · intro t' k h
      rw [hout t' k fun e he => h e (by simp [he])]
      simp only [Backends.put]
      rw [if_neg]
      rintro ⟨rfl, rfl⟩
      exact h d (by simp) ⟨ht, rfl⟩
    · intro t' e he ht'
      rcases List.mem_cons.mp he with rfl | he
      · cases ht.symm.trans ht'
        by_cases hlater : ∃ e' ∈ ds, conf.backend e'.destinationData.storageIndex = some t ∧ e'.sourceData.id = e.sourceData.id
        · obtain ⟨e', he', hi', hid'⟩ := hlater
          rw [← hid']
          exact hin t e' he' hi'
        · push Not at hlater
          rw [hout t _ fun e' he' h => hlater e' he' h.1 h.2]
          exact Backends.put_same ..
      · exact hin t' e he ht'

/-- What a delete does: nothing (no file, or a stale link), or the objects of the range and all records go. -/
theorem FileInv.delete_cases (hw : FileInv conf request.id w)
    (hdef : (Server.delete conf Env.calm request w).outcome ≠ .error .undefined) :
    (Server.delete conf Env.calm request w = .ok false w ∧ NoRecord request.id w) ∨
    Server.delete conf Env.calm request w = .error .unpack w ∨
    (∃ m t ds w', Filed conf request.id w m t ∧ tiles conf m.links request = some ds ∧
      Server.delete conf Env.calm request w = .ok true (swept request.id conf.storageSolutions w') ∧
      (∀ t k, (∀ d ∈ ds, ¬ (conf.backend d.destinationData.storageIndex = some t ∧ d.sourceData.id = k)) →
        w' t k = w t k) ∧
      ∀ t, ∀ d ∈ ds, conf.backend d.destinationData.storageIndex = some t → w' t d.sourceData.id = none) := by
  cases ht : conf.backend request.storageIndex with
  | none =>
    have hraise : Server.delete conf Env.calm request w = .error .undefined w :=
      bind_error (tryLocate_undefined (primaryMetadata_unconfigured ht w))
    exact absurd (congrArg Result.outcome hraise) hdef
  | some t =>
    rcases hw with hnone | ⟨m, t₀, hm⟩
    · refine Or.inl ⟨bind_ok (tryLocate_absent (primaryMetadata_absent ht rfl (hnone t))), hnone⟩
    · rcases hm.primaryMetadata_cases ht with hprimary | hunpack
      · cases htiles : tiles conf m.links request with
        | none =>
          have hraise : Server.delete conf Env.calm request w = .error .undefined w :=
            bind_error (tryLocate_broken hprimary htiles)
          exact absurd (congrArg Result.outcome hraise) hdef
        | some ds =>
          have hconfigured : ∀ d ∈ ds, ∃ t, conf.backend d.destinationData.storageIndex = some t := by
            intro d hd
            obtain ⟨s, link, hlink, offset, size, position, rfl⟩ := tiles_mem htiles d hd
            obtain ⟨-, -, -, hindex⟩ := hm.named _ link hlink
            exact hindex
          obtain ⟨w', hrun, hout, hin⟩ := removeObjects_run hconfigured w
          refine Or.inr (Or.inr ⟨m, t₀, ds, w', hm, htiles, ?_, hout, hin⟩)
          have hloop := bind_ok (f := fun status => if status then MetadataOrchestrator.delete conf request else pure false) hrun
          rw [if_pos rfl, delete_run] at hloop
          exact (bind_ok (tryLocate_found hprimary htiles)).trans hloop
      · exact Or.inr (Or.inl (bind_error (tryLocate_unpack hunpack)))

end delete

/-! ## The invariant -/

section objects

variable [Wire] {conf : ConfigurationManager} {id : CharStruct} {w w' : Backends}

/-- The primary metadata links to object `s` of the file in backend `t`. -/
def Linked (conf : ConfigurationManager) (id : CharStruct) (w : Backends) (t : IoClientType) (s : Nat) : Prop :=
  ∃ m t₀ key link, Primary w t₀ id m ∧ m.links.lookup key = some link ∧ conf.backend link.storageIndex = some t ∧
    link.id = objectId id s

/-- The objects of the file that are present are those its primary metadata links to. -/
def ObjectsMatch (conf : ConfigurationManager) (id : CharStruct) (w : Backends) : Prop :=
  ∀ t s, w t (objectId id s) ≠ none ↔ Linked conf id w t s

theorem Filed.linked_iff {m : Metadata} {t₀ : IoClientType} (h : Filed conf id w m t₀) (t : IoClientType) (s : Nat) :
    Linked conf id w t s ↔ ∃ key link, m.links.lookup key = some link ∧ conf.backend link.storageIndex = some t ∧
      link.id = objectId id s := by
  constructor
  · rintro ⟨m', t', key, link, hprimary, hlink⟩
    obtain ⟨-, rfl⟩ := h.unique hprimary
    exact ⟨key, link, hlink⟩
  · rintro ⟨key, link, hlink⟩
    exact ⟨m, t₀, key, link, h.primary, hlink⟩

theorem NoRecord.not_linked (h : NoRecord id w) (t : IoClientType) (s : Nat) : ¬ Linked conf id w t s := by
  rintro ⟨m, t₀, key, link, hprimary, -⟩
  obtain ⟨rest, hrest⟩ := hprimary.holds
  cases (h t₀).symm.trans hrest

omit [Wire] in
/-- After the writes exactly the objects they name are present besides the old ones. -/
theorem writeObjects_present {env : Env} {ds : List DataDistribution} {a : PUnit}
    (h : writeObjects conf env ds w = .ok a w') (t : IoClientType) (k : CharStruct) :
    w' t k ≠ none ↔ w t k ≠ none ∨
      ∃ d ∈ ds, conf.backend d.destinationData.storageIndex = some t ∧ d.destinationData.id = k := by
  induction ds generalizing w with
  | nil =>
    cases h
    simp
  | cons d ds ih =>
    obtain ⟨b, w₁, hwrite, hrest⟩ := bind_eq_ok h
    obtain ⟨t', v, ht', rfl⟩ := IoFactory.write_ok hwrite
    rw [ih hrest]
    by_cases hhit : t = t' ∧ k = d.destinationData.id
    · obtain ⟨rfl, rfl⟩ := hhit
      rw [Backends.put_same]
      exact ⟨fun _ => Or.inr ⟨d, List.mem_cons_self, ht', rfl⟩, fun _ => Or.inl (by simp)⟩
    · have hmiss : w.put t' d.destinationData.id (some v) t k = w t k := if_neg hhit
      rw [hmiss]
      refine or_congr_right ⟨?_, ?_⟩
      · rintro ⟨e, he, hmatch⟩
        exact ⟨e, List.mem_cons_of_mem _ he, hmatch⟩
      · rintro ⟨e, he, hi, hid⟩
        rcases List.mem_cons.mp he with rfl | he
        · exact absurd ⟨Option.some.inj (hi.symm.trans ht'), hid.symm⟩ hhit
        · exact ⟨e, he, hi, hid⟩

/-! ### Store -/

variable {draw : Nat} {source destination : Data}

/-- A new file: its object is the only one. -/
theorem objectsMatch_of_create {t : IoClientType} (hmatch : ObjectsMatch conf destination.id w)
    (hnone : NoRecord destination.id w) (ht : conf.backend destination.storageIndex = some t)
    (hexcl : Exclusive conf destination.storageIndex)
    (hobjects : writeObjects conf Env.calm (createLinks conf.maxObjSize (distribute conf draw source destination) ∅).1
        (created conf destination.id t (newMetadata conf destination (distribute conf draw source destination)) w) =
      .ok () w') : ObjectsMatch conf destination.id w' := by
  have hfiled := Filed.of_create hnone ht hexcl hobjects
  have hextends := createLinks_extends conf.maxObjSize (distribute conf draw source destination) ∅
  intro t' s
  have hempty : ¬ w t' (objectId destination.id s) ≠ none := fun h => hnone.not_linked t' s ((hmatch t' s).mp h)
  rw [writeObjects_present hobjects, created_of_key_ne w t' (objectId_ne_metaId _ _), or_iff_right hempty,
    hfiled.linked_iff, createLinks_fst]
  constructor
  · rintro ⟨d', hd', hindex, hid⟩
    obtain ⟨d, hd, rfl⟩ := List.mem_map.mp hd'
    obtain ⟨link, hlink⟩ := UnorderedMap.exists_lookup ((hextends.keys _).mpr (Or.inr ⟨d, hd, rfl⟩))
    rcases hextends.fresh _ link hlink with hold | ⟨e, he, -, rfl⟩
    · cases hold
    · rw [distribute_mem hd] at hindex hid
      rw [distribute_mem he] at hlink
      exact ⟨_, _, hlink, hindex, hid⟩
  · rintro ⟨key, link, hlink, hindex, hid⟩
    rcases hextends.fresh key link hlink with hold | ⟨d, hd, -, rfl⟩
    · cases hold
    · exact ⟨_, List.mem_map.mpr ⟨d, hd, rfl⟩, hindex, hid⟩

/-- A file that exists: a new object for every new link. -/
theorem objectsMatch_of_grow {m : Metadata} {t : IoClientType} (hmatch : ObjectsMatch conf destination.id w)
    (hm : Filed conf destination.id w m t)
    (hobjects : writeObjects conf Env.calm (updateLinks conf.maxObjSize (distribute conf draw source destination) m.links).1
        (if (updateLinks conf.maxObjSize (distribute conf draw source destination) m.links).2.2 then
          putRecord w t destination.id (grownMetadata conf m (distribute conf draw source destination)) else w) =
      .ok () w') : ObjectsMatch conf destination.id w' := by
  have hfiled := hm.of_grow hobjects
  have hextends := updateLinks_extends conf.maxObjSize (distribute conf draw source destination) m.links
  intro t' s
  have hrecord : (if (updateLinks conf.maxObjSize (distribute conf draw source destination) m.links).2.2 then
      putRecord w t destination.id (grownMetadata conf m (distribute conf draw source destination)) else w) t'
        (objectId destination.id s) = w t' (objectId destination.id s) := by
    split
    · exact putRecord_of_key_ne w t t' _ (objectId_ne_metaId _ _)
    · rfl
  rw [writeObjects_present hobjects, hrecord, hmatch t' s, hm.linked_iff, hfiled.linked_iff]
  constructor
  · rintro (⟨key, link, hlink, hrest⟩ | ⟨d', hd', hindex, hid⟩)
    · exact ⟨key, link, hextends.keeps key link hlink, hrest⟩
    · obtain ⟨d, -, -, -, link, hlink, hid', hindex'⟩ := updateLinks_mem hd'
      exact ⟨_, link, hlink, hindex' ▸ hindex, hid'.symm.trans hid⟩
  · rintro ⟨key, link, hlink, hindex, hid⟩
    rcases hextends.fresh key link hlink with hold | ⟨d, hd, hkey, -⟩
    · exact Or.inl ⟨key, link, hold, hindex, hid⟩
    · rw [hkey] at hlink
      obtain ⟨d', hd', link', hlink', hid', hindex'⟩ := updateLinks_sent hd
      cases hlink.symm.trans hlink'
      exact Or.inr ⟨d', hd', hindex' ▸ hindex, hid'.trans hid⟩

/-! ### Delete -/

/-- The range of the request starts in segment 0 and reaches the last linked segment. -/
def Covers (conf : ConfigurationManager) (request : Data) (w : Backends) : Prop :=
  ∀ t m, Primary w t request.id m → request.position / conf.maxObjSize = 0 ∧
    (request.dataSize = 0 ∨
      m.links.entries.length ≤ (request.position + request.dataSize) % 2 ^ 64 / conf.maxObjSize + 1)

/-- A delete that covers the file and returns `true` leaves nothing of it. -/
theorem nothing_after_delete {request : Data} (hw : FileInv conf request.id w) (hmatch : ObjectsMatch conf request.id w)
    (hcovers : Covers conf request w) (h : Server.delete conf Env.calm request w = .ok true w') :
    NoRecord request.id w' ∧ ∀ t s, w' t (objectId request.id s) = none := by
  have hdef : (Server.delete conf Env.calm request w).outcome ≠ .error .undefined := by
    rw [h]
    intro hout
    cases hout
  rcases hw.delete_cases hdef with ⟨hfalse, -⟩ | hunpack | ⟨m, t₀, ds, w₁, hm, htiles, hrun, hout, hin⟩
  · cases h.symm.trans hfalse
  · cases h.symm.trans hunpack
  · cases h.symm.trans hrun
    have hrecord : ∀ t, w₁ t (metaId request.id) = w t (metaId request.id) := by
      intro t
      refine hout t _ ?_
      rintro d hd ⟨-, hid⟩
      obtain ⟨s, link, hlink, offset, size, position, rfl⟩ := tiles_mem htiles d hd
      obtain ⟨s', -, hs', -⟩ := hm.named _ link hlink
      exact objectId_ne_metaId request.id s' (hs'.symm.trans hid)
    refine ⟨(hw.recordInv.congr hrecord).swept, fun t s => ?_⟩
    rw [swept_apply, if_neg (fun h => objectId_ne_metaId _ _ h.1)]
    by_cases hlinked : Linked conf request.id w t s
    · -- the link is a tile of the range, so its object is removed
      obtain ⟨key, link, hlink, hindex, hid⟩ := (hm.linked_iff t s).mp hlinked
      have hkey := (tiles_inOrder htiles key).mp (AList.lookup_isSome.mp (by rw [hlink]; rfl))
      obtain ⟨hstart, hend⟩ := hcovers t₀ m hm.primary
      obtain ⟨offset, size, position, hmem⟩ := tiles_covers htiles hstart hend key.toNat link
        (by rw [Int.toNat_of_nonneg hkey.1]; exact hlink)
      have hgone := hin t _ hmem hindex
      rw [← hid]
      exact hgone
    · have hnone : w t (objectId request.id s) = none := by
        by_contra hne
        exact hlinked ((hmatch t s).mp hne)
      by_cases hhit : ∃ d ∈ ds, conf.backend d.destinationData.storageIndex = some t ∧ d.sourceData.id = objectId request.id s
      · obtain ⟨d, hd, hindex, hid⟩ := hhit
        rw [← hid]
        exact hin t d hd hindex
      · push Not at hhit
        rw [hout t _ fun d hd h => hhit d hd h.1 h.2]
        exact hnone

/-! ### Runs -/

/-- A store that creates a file through an exclusive index, or a delete that covers the file, with defined
behaviour. -/
inductive ObjectStep (conf : ConfigurationManager) (id : CharStruct) (w : Backends) : Backends → Prop
  | store {draw : Nat} {source destination : Data} (hid : destination.id = id)
    (hexcl : NoRecord id w → Exclusive conf destination.storageIndex)
    (hdef : (Server.store conf Env.calm draw source destination w).outcome ≠ .error .undefined) :
    ObjectStep conf id w (Server.store conf Env.calm draw source destination w).final
  | delete {request : Data} (hid : request.id = id) (hcovers : Covers conf request w)
    (hdef : (Server.delete conf Env.calm request w).outcome ≠ .error .undefined) :
    ObjectStep conf id w (Server.delete conf Env.calm request w).final

/-- One step keeps the objects and the links together. -/
theorem objectsMatch_step (hw : FileInv conf id w) (hmatch : ObjectsMatch conf id w) (h : ObjectStep conf id w w') :
    FileInv conf id w' ∧ ObjectsMatch conf id w' := by
  cases h with
  | @store draw source destination hid hexcl hdef =>
    subst hid
    rcases hw.store_cases hdef with hraise | ⟨t, w', hnone, ht, hrun, hobjects⟩ |
      ⟨m, t, tls, w', hm, htiles, hrun, hobjects⟩
    · rw [hraise]
      exact ⟨hw, hmatch⟩
    · rw [hrun]
      exact ⟨Or.inr ⟨_, t, Filed.of_create hnone ht (hexcl hnone) hobjects⟩,
        objectsMatch_of_create hmatch hnone ht (hexcl hnone) hobjects⟩
    · rw [hrun]
      exact ⟨Or.inr ⟨_, t, hm.of_grow hobjects⟩, objectsMatch_of_grow hmatch hm hobjects⟩
  | @delete request hid hcovers hdef =>
    subst hid
    rcases hw.delete_cases hdef with ⟨hfalse, -⟩ | hunpack | ⟨m, t₀, ds, w₁, -, -, hrun, -, -⟩
    · rw [hfalse]
      exact ⟨hw, hmatch⟩
    · rw [hunpack]
      exact ⟨hw, hmatch⟩
    · obtain ⟨hnone, hempty⟩ := nothing_after_delete hw hmatch hcovers hrun
      rw [hrun]
      refine ⟨Or.inl hnone, fun t s => ?_⟩
      exact iff_of_false (fun h => h (hempty t s)) (NoRecord.not_linked hnone t s)

theorem objectsMatch_of_run (h : Relation.ReflTransGen (ObjectStep conf id) (fun _ _ => none) w) :
    FileInv conf id w ∧ ObjectsMatch conf id w := by
  induction h with
  | refl =>
    have hnone : NoRecord id (fun _ _ => none) := fun _ => rfl
    exact ⟨Or.inl hnone, fun t s => iff_of_false (fun h => h rfl) (NoRecord.not_linked hnone t s)⟩
  | tail _ hstep ih => exact objectsMatch_step ih.1 ih.2 hstep

/-- **In every state of such a run the objects of the file are exactly those its primary metadata links to, and
a delete that returns `true` leaves no object and no record behind.** -/
theorem objects_match_links (h : Relation.ReflTransGen (ObjectStep conf id) (fun _ _ => none) w) :
    (∀ t s, w t (objectId id s) ≠ none ↔ Linked conf id w t s) ∧
    ((∀ t m, ¬ Primary w t id m) → ∀ t s, w t (objectId id s) = none) ∧
    ∀ (request : Data) (w' : Backends), request.id = id → Covers conf request w →
      Server.delete conf Env.calm request w = .ok true w' →
        NoRecord id w' ∧ ∀ t s, w' t (objectId id s) = none := by
  obtain ⟨hw, hmatch⟩ := objectsMatch_of_run h
  refine ⟨hmatch, ?_, ?_⟩
  · intro hno t s
    by_contra hne
    obtain ⟨m, t₀, key, link, hprimary, -⟩ := (hmatch t s).mp hne
    exact hno t₀ m hprimary
  · rintro request w' rfl hcovers hrun
    exact nothing_after_delete hw hmatch hcovers hrun

end objects

/-! ## A delete that covers the file, and one that does not -/

theorem afterByteAt_step : ObjectStep oneFile [0x66] (fun _ _ => none) (afterByteAt 0) := by
  have hrun := afterByteAt_run 0
  have hstep := ObjectStep.store (w := fun _ _ => none)
   
    rfl (fun _ => oneFile_exclusive) (by
      rw [hrun]
      intro h
      cases h)
  rw [hrun] at hstep
  exact hstep

theorem oneFile_objects_match :
    (∀ t s, afterByteAt 0 t (objectId [0x66] s) ≠ none ↔ Linked oneFile [0x66] (afterByteAt 0) t s) ∧
    ((∀ t m, ¬ Primary (afterByteAt 0) t [0x66] m) → ∀ t s, afterByteAt 0 t (objectId [0x66] s) = none) ∧
    ∀ (request : Data) (w' : Backends), request.id = [0x66] → Covers oneFile request (afterByteAt 0) →
      Server.delete oneFile Env.calm request (afterByteAt 0) = .ok true w' →
        NoRecord [0x66] w' ∧ ∀ t s, w' t (objectId [0x66] s) = none :=
  objects_match_links (.single afterByteAt_step)

/-- Two segments are stored, and the first byte is deleted. -/
def deletePart : Prog Bool := do
  discard <| Server.store oneFile Env.calm 0 { buffer := some [7], dataSize := 1 } { id := [0x66], dataSize := 1 }
  discard <| Server.store oneFile Env.calm 0 { buffer := some [8], dataSize := 1 }
    { id := [0x66], position := 4, dataSize := 1 }
  Server.delete oneFile Env.calm { id := [0x66], dataSize := 1 }

/-- The delete returns `true` and takes the record with it; the object of segment 1 stays. -/
theorem deletePart_leaves_orphan :
    (deletePart fun _ _ => none).outcome = .ok true ∧
      ¬ ObjectsMatch oneFile [0x66] (deletePart fun _ _ => none).final := by
  refine ⟨by decide +kernel, fun hmatch => ?_⟩
  have hpresent : (deletePart fun _ _ => none).final .fileIo (objectId [0x66] 1) ≠ none := by decide +kernel
  have hnone : NoRecord [0x66] (deletePart fun _ _ => none).final := by
    intro t
    cases t <;> decide +kernel
  exact hnone.not_linked _ _ ((hmatch .fileIo 1).mp hpresent)

end Symbios
