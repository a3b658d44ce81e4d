import Symbios.Proof.Isolation

/-!
# A store that fails

`Store` writes the record first, then the links, then the object, and undoes nothing. When its first write raises,
nothing has changed. When a later one does, the record stands without its object, and some request sees it
(`failed_store_iff`): a delete that used to find no file, or a read of the new segment.
-/

namespace Symbios

open EStateM MetadataOrchestrator DataDistributionEngine

section faults

variable [Wire] {conf : ConfigurationManager} {id : CharStruct} {w w' : Backends}
  {fault : Nat → CharStruct → Option ErrorCode}

/-- Some writes raise, no read does. -/
def failingWrites (fault : Nat → CharStruct → Option ErrorCode) : Env where
  writeFault := fault

/-! ## What a failing store has done -/

omit [Wire] in
/-- A write inside a segment that raises an `ErrorException` has changed nothing. -/
theorem IoFactory.write_error {i : Nat} {source destination : Data} (hdest : destination.position < 2 ^ 63)
    {code : ErrorCode} (h : IoFactory.write conf (failingWrites fault) i source destination w = .error (.error code) w') :
    w' = w ∧ fault i destination.id = some code := by
  cases hi : conf.backend i with
  | none =>
    rw [IoFactory.write, IoFactory.getIoClient, hi] at h
    cases h
  | some t =>
    cases hfault : fault i destination.id with
    | some code' =>
      rw [IoFactory.write_fault hi source hfault] at h
      cases h
      exact ⟨rfl, rfl⟩
    | none =>
      rw [IoFactory.write_eq hi source hfault] at h
      cases Symbios.write_raises t source hdest w _ _ h

theorem recordData_failing (fault : Nat → CharStruct → Option ErrorCode) (id : CharStruct) {i : Nat} {t : IoClientType}
    (ht : conf.backend i = some t) (m : Metadata) (w : Backends) :
    IoFactory.write conf (failingWrites fault) i (recordData id m i) (recordData id m i) w =
      match fault i (metaId id) with
      | some code => .error (.error code) w
      | none => .ok () (putRecord w t id m) := by
  cases hfault : fault i (metaId id) with
  | some code =>
    exact IoFactory.write_fault ht _ hfault w
  | none =>
    rw [IoFactory.write_eq ht _ hfault]
    exact recordData_write t id m i w

/-- However far the loop over the links gets, it has written links into some of the storages. -/
theorem forM_links_final (link : Metadata) (i : Nat) (l : List (Nat × IoClientType))
    (hl : ∀ s ∈ l, conf.backend s.1 = some s.2) (w : Backends) :
    ∃ l', (∀ s ∈ l', s ∈ l) ∧
      (l.forM (fun solution =>
        if solution.1 = i then pure ()
        else
          IoFactory.write conf (failingWrites fault) (recordData id link solution.1).storageIndex
            (recordData id link solution.1) (recordData id link solution.1)) w).final = spread id link i l' w := by
  induction l generalizing w with
  | nil => exact ⟨[], by simp, rfl⟩
  | cons s l ih =>
    have ih' := ih fun s' hs' => hl s' (by simp [hs'])
    rw [forM_cons]
    by_cases hs : s.1 = i
    · rw [if_pos hs]
      obtain ⟨l', hsub, hfinal⟩ := ih' w
      exact ⟨l', fun s' hs' => List.mem_cons_of_mem _ (hsub s' hs'), hfinal⟩
    · rw [if_neg hs]
      have hwrite := recordData_failing fault id (hl s (by simp)) link w
      cases hfault : fault s.1 (metaId id) with
      | some code =>
        rw [hfault] at hwrite
        rw [show (recordData id link s.1).storageIndex = s.1 from rfl, bind_error hwrite]
        exact ⟨[], by simp, rfl⟩
      | none =>
        rw [hfault] at hwrite
        obtain ⟨l', hsub, hfinal⟩ := ih' (putRecord w s.2 id link)
        refine ⟨s :: l', fun s' hs' => ?_, ?_⟩
        · rcases List.mem_cons.mp hs' with rfl | hs'
          · exact List.mem_cons_self
          · exact List.mem_cons_of_mem _ (hsub s' hs')
        · rw [show (recordData id link s.1).storageIndex = s.1 from rfl, bind_ok hwrite, hfinal]
          simp only [spread, List.foldl_cons, if_neg hs]

variable {draw : Nat} {source destination : Data}

/-- The first write of the store raises: that of the record, or that of the object of a segment that is linked. -/
def FirstWriteFails (conf : ConfigurationManager) (fault : Nat → CharStruct → Option ErrorCode) (destination : Data)
    (w : Backends) : Prop :=
  (∃ m, primaryMetadata conf Env.calm destination w = .ok m w ∧
    (linkKey (destination.position / conf.maxObjSize) ∈ m.links ∨ fault m.storageIndex (metaId destination.id) ≠ none)) ∨
  ((∃ code, primaryMetadata conf Env.calm destination w = .error (.error code) w) ∧
    fault destination.storageIndex (metaId destination.id) ≠ none)

/-- A store into a file that is there has grown the record, and its object is missing. -/
structure HalfGrown (conf : ConfigurationManager) (draw : Nat) (source destination : Data) (w w' : Backends)
    (m : Metadata) (t : IoClientType) : Prop where
  primary : Primary w t destination.id m
  index : conf.backend m.storageIndex = some t
  inOrder : InOrder m.links
  found : primaryMetadata conf Env.calm destination w = .ok m w
  unlinked : linkKey (destination.position / conf.maxObjSize) ∉ m.links
  final_eq : w' = putRecord w t destination.id (grownMetadata conf m [sent conf draw source destination])

/-- A store of a new file has written the record, and perhaps some of the links. -/
structure HalfCreated (conf : ConfigurationManager) (draw : Nat) (source destination : Data) (w w' : Backends)
    (t : IoClientType) (l : List (Nat × IoClientType)) : Prop where
  absent : ∃ code, primaryMetadata conf Env.calm destination w = .error (.error code) w
  index : conf.backend destination.storageIndex = some t
  table : ∀ s ∈ l, s ∈ conf.storageSolutions
  final_eq : w' = spread destination.id
    (linkMetadata destination.id (newMetadata conf destination (distribute conf draw source destination)))
    destination.storageIndex l
    (putRecord w t destination.id (newMetadata conf destination (distribute conf draw source destination)))

/-- The store into a file that is there, when the write of the record may raise. -/
theorem failing_store_found {m : Metadata} {t : IoClientType}
    (hlook : lookupFile conf (failingWrites fault) destination w = .ok (some m) w)
    (hindex : conf.backend m.storageIndex = some t) (ds : List DataDistribution) :
    MetadataOrchestrator.store conf (failingWrites fault) destination ds w =
      if (updateLinks conf.maxObjSize ds m.links).2.2 then
        match fault m.storageIndex (metaId destination.id) with
        | some code => .error (.error code) w
        | none => .ok (updateLinks conf.maxObjSize ds m.links).1 (putRecord w t destination.id (grownMetadata conf m ds))
      else .ok (updateLinks conf.maxObjSize ds m.links).1 w := by
  have hwrite := recordData_failing fault destination.id hindex (grownMetadata conf m ds) w
  rw [MetadataOrchestrator.store, bind_ok hlook]
  dsimp only
  by_cases hflag : (updateLinks conf.maxObjSize ds m.links).2.2 = true
  · rw [if_pos hflag, if_pos hflag]
    cases hfault : fault m.storageIndex (metaId destination.id) with
    | some code =>
      rw [hfault] at hwrite
      exact bind_error hwrite
    | none =>
      rw [hfault] at hwrite
      exact bind_ok hwrite
  · rw [if_neg hflag, if_neg hflag]
    rfl

/-- The store of a new file: the write of the record raises, or it is there and some of the links are. -/
theorem failing_store_new {t : IoClientType}
    (hlook : lookupFile conf (failingWrites fault) destination w = .ok none w)
    (ht : conf.backend destination.storageIndex = some t) (ds : List DataDistribution) :
    (∃ code, fault destination.storageIndex (metaId destination.id) = some code ∧
      MetadataOrchestrator.store conf (failingWrites fault) destination ds w = .error (.error code) w) ∨
    (fault destination.storageIndex (metaId destination.id) = none ∧ ∃ l, (∀ s ∈ l, s ∈ conf.storageSolutions) ∧
      (MetadataOrchestrator.store conf (failingWrites fault) destination ds w).final =
        spread destination.id (linkMetadata destination.id (newMetadata conf destination ds)) destination.storageIndex l
          (putRecord w t destination.id (newMetadata conf destination ds)) ∧
      ∀ ds' w', MetadataOrchestrator.store conf (failingWrites fault) destination ds w = .ok ds' w' →
        ds' = (createLinks conf.maxObjSize ds ∅).1) := by
  have hwrite := recordData_failing fault destination.id ht (newMetadata conf destination ds) w
  cases hfault : fault destination.storageIndex (metaId destination.id) with
  | some code =>
    rw [hfault] at hwrite
    refine Or.inl ⟨code, rfl, ?_⟩
    rw [MetadataOrchestrator.store, bind_ok hlook]
    exact bind_error hwrite
  | none =>
    rw [hfault] at hwrite
    obtain ⟨l, hl, hfinal⟩ := forM_links_final
      (linkMetadata destination.id (newMetadata conf destination ds)) destination.storageIndex conf.storageSolutions
      (fun s hs => backend_of_mem conf hs) (putRecord w t destination.id (newMetadata conf destination ds))
    refine Or.inr ⟨rfl, l, hl, ?_⟩
    have hrun : MetadataOrchestrator.store conf (failingWrites fault) destination ds w = _ :=
      (bind_ok hlook).trans (bind_ok hwrite)
    rw [hrun, ← hfinal]
    exact ⟨final_bind_pure _ _ _, fun ds' w' h => eq_of_bind_pure h⟩

omit [Wire] in
theorem writeObjects_error {ds : List DataDistribution} (hlen : ds.length ≤ 1)
    (hpos : ∀ d ∈ ds, d.destinationData.position < 2 ^ 63) {code : ErrorCode}
    (h : writeObjects conf (failingWrites fault) ds w = .error (.error code) w') : w' = w ∧ ds ≠ [] := by
  match ds, hlen with
  | [], _ => cases h
  | [d], _ =>
    rcases bind_eq_error h with hwrite | ⟨a, w₁, -, hrest⟩
    · exact ⟨(IoFactory.write_error (hpos d (by simp)) hwrite).1, by simp⟩
    · cases hrest

omit [Wire] in
theorem distribute_length (conf : ConfigurationManager) (draw : Nat) (source destination : Data) :
    (distribute conf draw source destination).length ≤ 1 := by
  rw [distribute]
  split <;> simp

omit [Wire] in
theorem distribute_of_mem {d : DataDistribution} (hd : d ∈ distribute conf draw source destination) :
    distribute conf draw source destination = [sent conf draw source destination] := by
  rw [distribute] at hd ⊢
  split at hd
  · cases hd
  next hpolicy =>
    rw [if_neg hpolicy]
    rfl

/-- A store whose record was written changes nothing more before it raises. -/
theorem server_store_error {ds : List DataDistribution} {w₁ : Backends}
    (hstore : MetadataOrchestrator.store conf (failingWrites fault) destination
      (distribute conf draw source destination) w = .ok ds w₁) (hlen : ds.length ≤ 1)
    (hpos : ∀ d ∈ ds, d.destinationData.position < 2 ^ 63) {code : ErrorCode}
    (h : Server.store conf (failingWrites fault) draw source destination w = .error (.error code) w') :
    w' = w₁ ∧ ds ≠ [] := by
  rcases bind_eq_error ((server_store_eq hstore).symm.trans h) with hobjects | ⟨a, w₂, -, hreturn⟩
  · exact writeObjects_error hlen hpos hobjects
  · cases hreturn

omit [Wire] in
theorem updateLinks_distribute_length (conf : ConfigurationManager) (draw : Nat) (source destination : Data)
    (links : Links) :
    (updateLinks conf.maxObjSize (distribute conf draw source destination) links).1.length ≤ 1 :=
  (updateLinks_length _ _ _).trans_le (distribute_length _ _ _ _)

/-- A store into a file that is there has grown the record when it raises, or done nothing. -/
theorem failed_store_found {m : Metadata} {t : IoClientType}
    (hm : primaryMetadata conf Env.calm destination w = .ok m w) (hprimary : Primary w t destination.id m)
    (hindex : conf.backend m.storageIndex = some t) (horder : InOrder m.links)
    (hlook : lookupFile conf (failingWrites fault) destination w = .ok (some m) w) {code : ErrorCode}
    (h : Server.store conf (failingWrites fault) draw source destination w = .error (.error code) w') :
    (w' = w ∧ FirstWriteFails conf fault destination w) ∨
    (¬ FirstWriteFails conf fault destination w ∧ HalfGrown conf draw source destination w w' m t) := by
  have hstore := failing_store_found hlook hindex (distribute conf draw source destination)
  have hupdated := updateLinks_distribute_length conf draw source destination m.links
  have hfirst := updateLinks_flag conf.maxObjSize (distribute conf draw source destination) m.links
  by_cases hflag : (updateLinks conf.maxObjSize (distribute conf draw source destination) m.links).2.2 = true
  · obtain ⟨d, hd, hunlinked⟩ := hfirst.mp hflag
    rw [distribute_segment d hd] at hunlinked
    rw [if_pos hflag] at hstore
    cases hfault : fault m.storageIndex (metaId destination.id) with
    | some code' =>
      rw [hfault] at hstore
      cases (server_store_raise hstore).symm.trans h
      exact Or.inl ⟨rfl, Or.inl ⟨m, hm, Or.inr (by rw [hfault]; simp)⟩⟩
    | none =>
      rw [hfault] at hstore
      obtain ⟨rfl, -⟩ := server_store_error hstore hupdated updateLinks_position h
      refine Or.inr ⟨?_, hprimary, hindex, horder, hm, hunlinked, by rw [distribute_of_mem hd]⟩
      rintro (⟨m', hm', hcause⟩ | ⟨⟨code', hcode'⟩, -⟩)
      · cases hm.symm.trans hm'
        exact hcause.elim hunlinked fun hne => hne hfault
      · cases hm.symm.trans hcode'
  · rw [if_neg hflag] at hstore
    obtain ⟨rfl, hne⟩ := server_store_error hstore hupdated updateLinks_position h
    refine Or.inl ⟨rfl, Or.inl ⟨m, hm, Or.inl ?_⟩⟩
    by_contra hunlinked
    have hds : distribute conf draw source destination ≠ [] := by
      intro hempty
      rw [hempty] at hne
      exact hne rfl
    obtain ⟨d, hd⟩ := List.exists_mem_of_ne_nil _ hds
    exact hflag (hfirst.mpr ⟨d, hd, by rw [distribute_segment d hd]; exact hunlinked⟩)

/-- A store of a new file has written the record when it raises, or done nothing. -/
theorem failed_store_new {t : IoClientType} {code' : ErrorCode}
    (hcode : primaryMetadata conf Env.calm destination w = .error (.error code') w)
    (ht : conf.backend destination.storageIndex = some t)
    (hlook : lookupFile conf (failingWrites fault) destination w = .ok none w) {code : ErrorCode}
    (h : Server.store conf (failingWrites fault) draw source destination w = .error (.error code) w') :
    (w' = w ∧ FirstWriteFails conf fault destination w) ∨
    (¬ FirstWriteFails conf fault destination w ∧ ∃ l, HalfCreated conf draw source destination w w' t l) := by
  rcases failing_store_new hlook ht (distribute conf draw source destination) with
    ⟨code'', hfault, hstore⟩ | ⟨hfault, l, hl, hfinal, hds⟩
  · cases (server_store_raise hstore).symm.trans h
    exact Or.inl ⟨rfl, Or.inr ⟨⟨code', hcode⟩, by rw [hfault]; simp⟩⟩
  · refine Or.inr ⟨?_, l, ⟨code', hcode⟩, ht, hl, ?_⟩
    · rintro (⟨m', hm', -⟩ | ⟨-, hne⟩)
      · cases hcode.symm.trans hm'
      · exact hne hfault
    cases hstore : MetadataOrchestrator.store conf (failingWrites fault) destination
      (distribute conf draw source destination) w with
    | ok ds' w₁ =>
      rw [hstore] at hfinal
      obtain rfl := hds ds' w₁ hstore
      have hlen : (createLinks conf.maxObjSize (distribute conf draw source destination) ∅).1.length ≤ 1 := by
        rw [createLinks_fst, List.length_map]
        exact distribute_length _ _ _ _
      obtain ⟨rfl, -⟩ := server_store_error hstore hlen createLinks_position h
      exact hfinal
    | error f w₁ =>
      rw [hstore] at hfinal
      cases (server_store_raise hstore).symm.trans h
      exact hfinal

/-- What a store that raises an `ErrorException` of a write has done. -/
theorem failed_store_cases (hw : MetaInv conf destination.id w) {code : ErrorCode}
    (h : Server.store conf (failingWrites fault) draw source destination w = .error (.error code) w') :
    (w' = w ∧ FirstWriteFails conf fault destination w) ∨
    (¬ FirstWriteFails conf fault destination w ∧ ∃ m t, HalfGrown conf draw source destination w w' m t) ∨
    (¬ FirstWriteFails conf fault destination w ∧ ∃ t l, HalfCreated conf draw source destination w w' t l) := by
  rcases lookupFile_cases conf (failingWrites fault) destination w with ⟨m, tls, hm, htiles, hlook⟩ |
    ⟨code', hcode, hlook⟩ | ⟨-, hlook⟩ | hlook
  · obtain ⟨⟨t, hprimary, hindex⟩, -, -⟩ := hw.locate (locate_ok hm htiles)
    rcases failed_store_found hm hprimary hindex (tiles_inOrder htiles) hlook h with hnothing | ⟨hnot, hgrown⟩
    · exact Or.inl hnothing
    · exact Or.inr (Or.inl ⟨hnot, m, t, hgrown⟩)
  · cases ht : conf.backend destination.storageIndex with
    | none => cases (primaryMetadata_unconfigured ht w).symm.trans hcode
    | some t =>
      rcases failed_store_new hcode ht hlook h with hnothing | ⟨hnot, hcreated⟩
      · exact Or.inl hnothing
      · exact Or.inr (Or.inr ⟨hnot, t, hcreated⟩)
  · cases (server_store_raise (store_raise hlook _)).symm.trans h
  · cases (server_store_raise (store_raise hlook _)).symm.trans h

/-! ## Who can see it -/

/-- Every `Locate`, `Size` and `Delete` of the file gives the same result in both states. -/
def SameView (conf : ConfigurationManager) (id : CharStruct) (w w' : Backends) : Prop :=
  ∀ source destination : Data, source.id = id →
    (Server.locate conf Env.calm source destination w).outcome =
      (Server.locate conf Env.calm source destination w').outcome ∧
    (Server.size conf Env.calm source w).outcome = (Server.size conf Env.calm source w').outcome ∧
    (Server.delete conf Env.calm source w).outcome = (Server.delete conf Env.calm source w').outcome

theorem delete_absent {request : Data} {code : ErrorCode}
    (h : primaryMetadata conf Env.calm request w = .error (.error code) w) :
    Server.delete conf Env.calm request w = .ok false w :=
  bind_ok (tryLocate_absent h)

omit [Wire] in
theorem IoFactory.remove_true {i : Nat} {source : Data} {removed : Bool}
    (h : IoFactory.remove conf i source w = .ok removed w') : removed = true := by
  cases hi : conf.backend i with
  | none =>
    rw [IoFactory.remove, IoFactory.getIoClient, hi] at h
    cases h
  | some t =>
    rw [IoFactory.remove_eq hi, remove_run] at h
    cases h
    rfl

omit [Wire] in
theorem removeObjects_true {ds : List DataDistribution} {status : Bool}
    (h : (ds.foldlM (fun status d =>
      if status then IoFactory.remove conf d.destinationData.storageIndex d.sourceData else pure false) true : Prog Bool)
      w = .ok status w') : status = true := by
  induction ds generalizing w with
  | nil =>
    cases h
    rfl
  | cons d ds ih =>
    rw [List.foldlM_cons, if_pos rfl] at h
    obtain ⟨removed, w₁, hremove, hrest⟩ := bind_eq_ok h
    rw [IoFactory.remove_true hremove] at hrest
    exact ih hrest

/-- A delete that finds a record does not return `false`. -/
theorem delete_ne_false {request : Data} (h : ∀ code, primaryMetadata conf Env.calm request w ≠ .error (.error code) w) :
    (Server.delete conf Env.calm request w).outcome ≠ .ok false := by
  rcases locate_cases conf Env.calm request w with ⟨m, ds, hm, htiles, -⟩ | ⟨m, hm, htiles, -⟩ | ⟨fault, hfault, -⟩
  · intro hout
    cases hrun : Server.delete conf Env.calm request w with
    | error e w' =>
      rw [hrun] at hout
      cases hout
    | ok b w' =>
      rw [hrun] at hout
      cases hout
      obtain ⟨status, w₁, hremove, hrest⟩ := bind_eq_ok ((bind_ok (tryLocate_found hm htiles)).symm.trans hrun)
      obtain rfl := removeObjects_true hremove
      rw [if_pos rfl, delete_run] at hrest
      cases hrest
  · have hraise : Server.delete conf Env.calm request w = .error .undefined w := bind_error (tryLocate_broken hm htiles)
    rw [hraise]
    intro hout
    cases hout
  · cases fault with
    | error code => exact absurd hfault (h code)
    | unpack =>
      have hraise : Server.delete conf Env.calm request w = .error .unpack w := bind_error (tryLocate_unpack hfault)
      rw [hraise]
      intro hout
      cases hout
    | undefined =>
      have hraise : Server.delete conf Env.calm request w = .error .undefined w := bind_error (tryLocate_undefined hfault)
      rw [hraise]
      intro hout
      cases hout

/-- A record without its links and its object is seen by a delete. -/
theorem HalfCreated.not_sameView {t : IoClientType} {l : List (Nat × IoClientType)}
    (h : HalfCreated conf draw source destination w w' t l) : ¬ SameView conf destination.id w w' := by
  obtain ⟨code, hcode⟩ := h.absent
  intro hview
  have hdelete := (hview destination destination rfl).2.2
  rw [delete_absent hcode] at hdelete
  refine delete_ne_false (fun code' => ?_) hdelete.symm
  have hm := newMetadata_portable conf destination (distribute conf draw source destination)
  have hrecord := spread_apply destination.id
    (linkMetadata destination.id (newMetadata conf destination (distribute conf draw source destination)))
    destination.storageIndex l
    (putRecord w t destination.id (newMetadata conf destination (distribute conf draw source destination))) t
    (metaId destination.id)
  rw [← h.final_eq] at hrecord
  by_cases hself : ∃ j, j ≠ destination.storageIndex ∧ (j, t) ∈ l
  · rw [if_pos ⟨rfl, hself⟩, putRecord_same] at hrecord
    have hle := length_le_overwritten
      (overwritten (w t (metaId destination.id)) (newMetadata conf destination (distribute conf draw source destination)).serialize)
      (linkMetadata destination.id (newMetadata conf destination (distribute conf draw source destination))).serialize
    have hlong : (newMetadata conf destination (distribute conf draw source destination)).serialize.length ≤ _ :=
      le_trans (by simp [overwritten]) hle
    rcases primaryMetadata_self h.index rfl hrecord hlong with hrun | hrun
    · rw [hrun]
      intro hraise
      cases hraise
    · rw [hrun]
      intro hraise
      cases hraise
  · rw [if_neg (fun h => hself h.2), putRecord_same] at hrecord
    rw [primaryMetadata_primary h.index rfl hm rfl ⟨_, hrecord⟩]
    intro hraise
    cases hraise

/-- Locate finds nothing behind the last linked segment. -/
theorem locate_beyond {request : Data} {m : Metadata} (hm : primaryMetadata conf Env.calm request w = .ok m w)
    (horder : InOrder m.links) (hlen : m.links.entries.length ≤ request.position / conf.maxObjSize)
    (hsmall : request.position / conf.maxObjSize < 2 ^ 31) (destination : Data) :
    Server.locate conf Env.calm request destination w = .ok { destination with buffer := some [] } w := by
  exact bind_ok (locate_ok hm (tiles_beyond horder hlen (by omega)))

omit [Wire] in
/-- A read of one byte gives one byte. -/
theorem window_length {link part : Data} {front : List UInt8} {w₁ w₂ w₃ : Backends}
    (hread : IoFactory.read conf Env.calm (tileAt link 0 1 0).destinationData.storageIndex (tileAt link 0 1 0).sourceData
      (tileAt link 0 1 0).destinationData w = .ok part w₁) (hwindow : Server.window part w₂ = .ok front w₃) :
    front.length = 1 := by
  have hread' : IoFactory.read conf Env.calm link.storageIndex { link with position := 0, dataSize := 1 }
    { link with position := 0, dataSize := 1 } w = .ok part w₁ := hread
  cases ht : conf.backend link.storageIndex with
  | none =>
    rw [IoFactory.read, IoFactory.getIoClient, ht] at hread'
    cases hread'
  | some t =>
    rw [IoFactory.read_eq ht rfl] at hread'
    cases hb : w t link.id with
    | none =>
      rw [read_absent t _ (show w t { link with position := 0, dataSize := 1 }.id = none from hb)] at hread'
      cases hread'
    | some b =>
      obtain ⟨n, hn, hbuf, hsize, hpos, hone⟩ := read_front (d := { link with position := 0, dataSize := 1 }) hb rfl hread'
      obtain rfl : n = 1 := hone (by simp)
      rw [Server.window, hsize, hpos, hbuf, if_neg (by norm_num), slice_of_le (by simp)] at hwindow
      cases hwindow
      simp

/-- So a request whose first part is one byte does not come back empty. -/
theorem server_locate_ne_empty {request : Data} {m : Metadata} {link : Data} {ds : List DataDistribution}
    (h : MetadataOrchestrator.locate conf Env.calm request w = .ok (tileAt link 0 1 0 :: ds, m) w) (destination : Data) :
    (Server.locate conf Env.calm request destination w).outcome ≠ .ok { destination with buffer := some [] } := by
  intro hout
  cases hrun : Server.locate conf Env.calm request destination w with
  | error e w' =>
    rw [hrun] at hout
    cases hout
  | ok r w' =>
    rw [hrun] at hout
    cases hout
    obtain ⟨parts, w₁, hparts, hrest⟩ := bind_eq_ok ((bind_ok h).symm.trans hrun)
    rw [List.mapM_cons] at hparts
    obtain ⟨part, w₂, hread, htail⟩ := bind_eq_ok hparts
    obtain ⟨others, w₃, -, hcons⟩ := bind_eq_ok htail
    cases hcons
    obtain ⟨windows, w₄, hwindows, hreturn⟩ := bind_eq_ok hrest
    rw [List.mapM_cons] at hwindows
    obtain ⟨front, w₅, hfront, htail'⟩ := bind_eq_ok hwindows
    obtain ⟨others', w₆, -, hcons'⟩ := bind_eq_ok htail'
    cases hcons'
    have hone := window_length hread hfront
    split at hreturn
    · have hflat : (front :: others').flatten = [] := by
        have hbuf := congrArg Data.buffer (Result.ok.inj hreturn).1
        exact Option.some.inj hbuf
      rw [List.flatten_cons, List.append_eq_nil_iff] at hflat
      rw [hflat.1] at hone
      cases hone
    · cases hreturn

omit [Wire] in
/-- The first part of a request for the first byte of segment `s`. -/
theorem tiles_first_byte {links : Links} {request link : Data} {s : Nat} {ds : List DataDistribution}
    (hpos : request.position = s * conf.maxObjSize) (hsize : request.dataSize = 1) (hs : s < 2 ^ 31)
    (hend : s * conf.maxObjSize + 1 < 2 ^ 64) (hlink : links.lookup (s : Int) = some link)
    (h : tiles conf links request = some ds) : ∃ ds', ds = tileAt link 0 1 0 :: ds' := by
  have hM := conf.maxObjSize_pos
  rw [tiles, Option.bind_eq_bind, Option.bind_eq_some_iff] at h
  obtain ⟨array, harray, h⟩ := h
  have hget : array[s]? = some link := (linkArray_get harray s).trans hlink
  obtain ⟨hlt, hat⟩ := List.getElem?_eq_some_iff.mp hget
  dsimp only at h
  rw [hpos, hsize, Nat.mul_div_cancel s hM, toInt_of_lt hs, if_neg (by omega), Int.toNat_natCast,
    List.drop_eq_getElem_cons hlt, hat, tile_cons] at h
  have hreach : s ≤ (s * conf.maxObjSize + 1) % 2 ^ 64 / conf.maxObjSize := by
    rw [Nat.mod_eq_of_lt hend, Nat.le_div_iff_mul_le hM]
    omega
  rw [if_pos (Or.inr hreach)] at h
  split at h
  · rw [Option.map_eq_some_iff] at h
    obtain ⟨ds', -, rfl⟩ := h
    have hoffset : tileOffset conf.maxObjSize (decide (1 = 0)) (s * conf.maxObjSize) = 0 := by
      simp [tileOffset]
    have hone : tileSize conf.maxObjSize (decide (1 = 0)) (s * conf.maxObjSize) 1 = 1 := by
      rw [tileSize, hoffset]
      split <;> omega
    rw [hoffset, hone]
    exact ⟨ds', rfl⟩
  · cases h

/-- A link without its object is seen by a read of the segment. -/
theorem HalfGrown.not_sameView {m : Metadata} {t : IoClientType} (h : HalfGrown conf draw source destination w w' m t)
    (hsmall : destination.position / conf.maxObjSize < 2 ^ 31) (hend : destination.position + 1 < 2 ^ 64) :
    ¬ SameView conf destination.id w w' := by
  have hM := conf.maxObjSize_pos
  have hmul := Nat.div_mul_le_self destination.position conf.maxObjSize
  have hkey := linkKey_of_lt (s := destination.position / conf.maxObjSize) (by omega)
  have hextends : Extends conf.maxObjSize [sent conf draw source destination] m.links
      (grownMetadata conf m [sent conf draw source destination]).links := updateLinks_extends _ _ _
  have hgrown := grownMetadata_portable h.primary.portable conf [sent conf draw source destination]
  -- the request for the first byte of the new segment, through the primary storage
  let request : Data := { id := destination.id, position := destination.position / conf.maxObjSize * conf.maxObjSize,
                          dataSize := 1, storageIndex := m.storageIndex }
  have hsegment : request.position / conf.maxObjSize = destination.position / conf.maxObjSize := Nat.mul_div_cancel _ hM
  have hbefore : primaryMetadata conf Env.calm request w = .ok m w :=
    primaryMetadata_primary h.index rfl h.primary.portable h.primary.isLink_eq h.primary.holds
  have hafter : primaryMetadata conf Env.calm request w' = .ok (grownMetadata conf m [sent conf draw source destination]) w' := by
    rw [h.final_eq]
    exact primaryMetadata_primary h.index rfl hgrown h.primary.isLink_eq (putRecord_holds _ _ _ _)
  have hlen : m.links.entries.length ≤ request.position / conf.maxObjSize := by
    rw [hsegment]
    by_contra hlt
    have hmem : ((destination.position / conf.maxObjSize : Nat) : Int) ∈ m.links :=
      (h.inOrder _).mpr ⟨Int.natCast_nonneg _, by exact_mod_cast Nat.lt_of_not_le hlt⟩
    rw [← hkey] at hmem
    exact h.unlinked hmem
  intro hview
  have hlocate := (hview request {} rfl).1
  rw [locate_beyond hbefore h.inOrder hlen (by rw [hsegment]; exact hsmall)] at hlocate
  cases htiles : tiles conf (grownMetadata conf m [sent conf draw source destination]).links request with
  | none =>
    have hraise : Server.locate conf Env.calm request {} w' = .error .undefined w' := bind_error (locate_broken hafter htiles)
    rw [hraise] at hlocate
    cases hlocate
  | some ds =>
    have hmem : linkKey (destination.position / conf.maxObjSize) ∈
        (grownMetadata conf m [sent conf draw source destination]).links :=
      (hextends.keys _).mpr (Or.inr ⟨_, List.mem_singleton.mpr rfl, rfl⟩)
    rw [hkey] at hmem
    obtain ⟨link, hlink⟩ := UnorderedMap.exists_lookup hmem
    obtain ⟨ds', rfl⟩ := tiles_first_byte rfl rfl hsmall (by omega) hlink htiles
    exact server_locate_ne_empty (locate_ok hafter htiles) {} hlocate.symm

/-! ## Reachable states -/

theorem metaInv_runOps (ops : List Op) (id : CharStruct) : MetaInv conf id (runOps conf ops) := by
  have hall : ∀ (l : List Op) (w : Backends), (∀ id, MetaInv conf id w) →
      ∀ id, MetaInv conf id (runAll (l.map (Op.call conf)) w) := by
    intro l
    induction l with
    | nil => exact fun w hw => hw
    | cons op l ih =>
      intro w hw
      refine ih _ fun id => ?_
      by_cases hid : op.id = id
      · subst hid
        exact op.call_confined.keeps w (hw _)
      · refine (hw id).congr fun t => op.call_confined.outside w (hw _) t _ ?_
        rintro (hmeta | ⟨s, hobject⟩)
        · exact hid (metaId_injective hmeta).symm
        · exact metaId_ne_objectId _ _ _ hobject
  exact hall ops _ metaInv_empty id

end faults

/-! ## A full disk -/

/-- No write succeeds. -/
def fullDisk : Nat → CharStruct → Option ErrorCode := fun _ _ => some openFileFailed

/-- The object of segment 0 of `f` cannot be written. -/
def noObject : Nat → CharStruct → Option ErrorCode := fun _ k => if k = objectId [0x66] 0 then some openFileFailed else none

/-- A byte for the start of `f`. -/
def storeByte (fault : Nat → CharStruct → Option ErrorCode) : Prog Nat :=
  Server.store oneFile (failingWrites fault) 0 { buffer := some [7], dataSize := 1 } { id := [0x66], dataSize := 1 }

end Symbios
