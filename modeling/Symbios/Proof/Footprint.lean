import Symbios.Proof.Objects

/-!
# What an operation may touch

Whatever fails, a record of a file is either primary metadata in the backend of its own storage index, with links
to objects of the file, or a link to another record of the file (`MetaInv`). So every operation on a file reads and
writes only the keys of that file (`keys`): each one is confined to them (`server_store_confined`, ...).
-/

namespace Symbios

open EStateM MetadataOrchestrator DataDistributionEngine

/-- The keys of a file in every backend. -/
def keys (id : CharStruct) : Set CharStruct := {k | k = metaId id ∨ ∃ s, k = objectId id s}

theorem metaId_mem_keys (id : CharStruct) : metaId id ∈ keys id := Or.inl rfl

theorem objectId_mem_keys (id : CharStruct) (s : Nat) : objectId id s ∈ keys id := Or.inr ⟨s, rfl⟩

/-! ## The invariant -/

section invariant

variable [Wire] {conf : ConfigurationManager} {env : Env} {id : CharStruct} {w w' : Backends}

/-- What may be written as a record of `id` into backend `t`. -/
structure GoodRecord (conf : ConfigurationManager) (id : CharStruct) (t : IoClientType) (m : Metadata) : Prop where
  portable : m.Portable
  kind : (m.isLink = false ∧ conf.backend m.storageIndex = some t ∧ Named conf id m.links) ∨ ∃ p, m = linkMetadata id p

/-- Every record of `id` is good for its backend. -/
def MetaInv (conf : ConfigurationManager) (id : CharStruct) (w : Backends) : Prop :=
  ∀ t b, w t (metaId id) = some b → ∃ m rest, b = m.serialize ++ rest ∧ GoodRecord conf id t m

theorem MetaInv.congr (h : ∀ t, w' t (metaId id) = w t (metaId id)) (hw : MetaInv conf id w) : MetaInv conf id w' :=
  fun t b hb => hw t b ((h t).symm.trans hb)

theorem MetaInv.putRecord {t : IoClientType} {m : Metadata} (hw : MetaInv conf id w) (hm : GoodRecord conf id t m) :
    MetaInv conf id (putRecord w t id m) := by
  intro t' b hb
  by_cases ht : t' = t
  · subst ht
    rw [putRecord_same] at hb
    cases hb
    exact ⟨m, _, rfl, hm⟩
  · rw [putRecord_of_client_ne w id _ m ht] at hb
    exact hw t' b hb

theorem MetaInv.remove {t : IoClientType} (hw : MetaInv conf id w) (k : CharStruct) : MetaInv conf id (w.put t k none) := by
  intro t' b hb
  simp only [Backends.put] at hb
  split at hb
  · cases hb
  · exact hw t' b hb

/-! ### Reading -/

omit [Wire] in
/-- A read from offset 0 gives the first bytes of the value (of MongoDB perhaps with the zero byte behind it). -/
theorem read_front {t : IoClientType} {d r : Data} {b : List UInt8} (hb : w t d.id = some b) (hpos : d.position = 0)
    (h : IoClient.read t d d w = .ok r w') :
    ∃ n, n ≤ b.length + 1 ∧ r.buffer = some ((b ++ [0]).take n) ∧ r.dataSize = n ∧ r.position = 0 ∧
      (d.dataSize ≠ 0 → n = d.dataSize) := by
  have hsized : d.dataSize ≠ 0 → objectRequest b d = d.dataSize := fun hne => if_neg hne
  cases t with
  | fileIo =>
    rw [fileRead_eq hb, fileRequest_start hpos, hpos, List.drop_zero, if_neg (by norm_num), if_neg (by norm_num)] at h
    split at h
    · rename_i hlen
      cases h
      have hle : objectRequest b d ≤ b.length := by
        rw [List.length_take] at hlen
        omega
      refine ⟨objectRequest b d, by omega, ?_, ?_, rfl, hsized⟩
      · rw [List.replicate_zero, List.nil_append, List.take_append_of_le_length hle]
      · rw [Nat.zero_add, hlen]
    · cases h
  | redisIo =>
    rw [redisRead_eq hb, hpos, List.drop_zero] at h
    split at h
    · cases h
    · split at h
      · cases h
        exact ⟨objectRequest b d, by omega, rfl, rfl, rfl, hsized⟩
      · cases h
  | mongoIo =>
    have hsub : subSize (objectRequest b d) 0 = objectRequest b d := by simp [subSize]
    rw [mongoRead_eq hb, hpos, hsub, List.drop_zero, List.replicate_zero, List.append_nil] at h
    split at h
    · cases h
      exact ⟨objectRequest b d, by omega, rfl, rfl, rfl, hsized⟩
    · cases h

/-- A record that is read is one of the file's. -/
theorem MetaInv.fetch {d : Data} {m : Metadata} (hw : MetaInv conf id w) (hid : d.id = metaId id) (hpos : d.position = 0)
    (h : fetch conf env d w = .ok m w') :
    ∃ t, conf.backend d.storageIndex = some t ∧ Holds w t id m ∧ GoodRecord conf id t m := by
  obtain ⟨r, w₁, hread, hunpack⟩ := bind_eq_ok h
  cases ht : conf.backend d.storageIndex with
  | none =>
    rw [IoFactory.read, IoFactory.getIoClient, ht] at hread
    cases hread
  | some t =>
    cases hfault : env.readFault d.storageIndex d.id with
    | some code =>
      rw [IoFactory.read, IoFactory.getIoClient, ht, hfault] at hread
      cases hread
    | none =>
      rw [IoFactory.read_eq ht hfault] at hread
      cases hb : w t d.id with
      | none => cases (read_absent t d hb).symm.trans hread
      | some b =>
        obtain ⟨m₀, rest, rfl, hgood⟩ := hw t b (hid ▸ hb)
        obtain ⟨n, hn, hbuf, hsize, -⟩ := read_front hb hpos hread
        have hlen : r.dataSize = (((m₀.serialize ++ rest) ++ [0]).take n).length := by
          rw [hsize, List.length_take, List.length_append, List.length_singleton]
          omega
        rw [unpack_run hbuf hlen, List.append_assoc, Metadata.deserialize_take hgood.portable] at hunpack
        split at hunpack
        next hok =>
          split at hok
          · cases hok
            cases hunpack
            exact ⟨t, rfl, ⟨rest, hid ▸ hb⟩, hgood⟩
          · cases hok
        next => cases hunpack

/-- What a request finds is a record of the file. -/
theorem MetaInv.primaryMetadata {request : Data} {m : Metadata} (hw : MetaInv conf request.id w)
    (h : primaryMetadata conf env request w = .ok m w') :
    ∃ t, Holds w t request.id m ∧ GoodRecord conf request.id t m := by
  rw [primaryMetadata_eq] at h
  obtain ⟨m₁, w₁, hfirst, hrest⟩ := bind_eq_ok h
  have hw₁ := @fetch_readOnly _ conf env (recordAt request.id request.storageIndex) w
  rw [hfirst] at hw₁
  cases hw₁
  obtain ⟨t, -, hholds, hgood⟩ := hw.fetch rfl rfl hfirst
  split at hrest
  · cases hrest
    exact ⟨t, hholds, hgood⟩
  next hlink =>
    rcases hgood.kind with ⟨hflag, -⟩ | ⟨p, rfl⟩
    · exact absurd hflag hlink
    · obtain ⟨t', -, hholds', hgood'⟩ := hw.fetch (d := { recordData request.id p p.storageIndex with buffer := none })
        rfl rfl hrest
      exact ⟨t', hholds', hgood'⟩

/-- What `Locate` works on is primary metadata of the file. -/
theorem MetaInv.locate {request : Data} {m : Metadata} {ds : List DataDistribution} (hw : MetaInv conf request.id w)
    (h : MetadataOrchestrator.locate conf env request w = .ok (ds, m) w') :
    (∃ t, Primary w t request.id m ∧ conf.backend m.storageIndex = some t) ∧ Named conf request.id m.links ∧
      tiles conf m.links request = some ds := by
  rcases locate_cases conf env request w with ⟨m', ds', hm, htiles, hrun⟩ | ⟨m', -, -, hrun⟩ | ⟨fault, -, hrun⟩
  · cases h.symm.trans hrun
    obtain ⟨t, hholds, hgood⟩ := hw.primaryMetadata hm
    rcases hgood.kind with ⟨hflag, hindex, hnamed⟩ | ⟨p, rfl⟩
    · exact ⟨⟨t, ⟨hholds, hgood.portable, hflag⟩, hindex⟩, hnamed, htiles⟩
    · cases (tiles_linkMetadata request.id p).symm.trans htiles
  · cases h.symm.trans hrun
  · cases h.symm.trans hrun

end invariant

/-! ## Calls through the factory -/

section factory

variable {conf : ConfigurationManager} {env : Env}

theorem getIoClient_confined {I : Backends → Prop} {K : Set CharStruct} (i : Nat) :
    Confined I K (fun t => conf.backend i = some t) (IoFactory.getIoClient conf i) := by
  unfold IoFactory.getIoClient
  split
  next t ht => exact Confined.pure ht
  next => exact Confined.raise _

theorem IoFactory.read_confined (i : Nat) (source destination : Data) :
    Confined (fun _ : Backends => True) {source.id} (fun _ => True) (IoFactory.read conf env i source destination) := by
  refine (getIoClient_confined i).bind fun t _ => ?_
  split
  · exact Confined.raise _
  · exact Symbios.read_confined t source destination

theorem IoFactory.write_confined (i : Nat) (source destination : Data) :
    Confined (fun _ : Backends => True) {destination.id} (fun _ => True)
      (IoFactory.write conf env i source destination) := by
  refine (getIoClient_confined i).bind fun t _ => ?_
  split
  · exact Confined.raise _
  · exact Symbios.write_confined t source destination

theorem IoFactory.remove_confined (i : Nat) (source : Data) :
    Confined (fun _ : Backends => True) {source.id} (fun _ => True) (IoFactory.remove conf i source) :=
  (getIoClient_confined i).bind fun t _ => Symbios.remove_confined t source

theorem IoFactory.size_confined (i : Nat) (source : Data) :
    Confined (fun _ : Backends => True) {source.id} (fun _ => True) (IoFactory.size conf i source) :=
  (getIoClient_confined i).bind fun t _ => Symbios.size_confined t source

theorem IoFactory.size_readOnly (i : Nat) (source : Data) : ReadOnly (IoFactory.size conf i source) := by
  unfold IoFactory.size IoFactory.getIoClient
  refine ReadOnly.bind ?_ fun t w => ?_
  · split
    · exact ReadOnly.pure _
    · exact ReadOnly.raise _
  · rw [size_run]
    rfl

end factory

/-! ## The orchestrator -/

section confined

variable [Wire] {conf : ConfigurationManager} {env : Env} {id : CharStruct}

omit [Wire] in
/-- A program that only looks at keys of the file is confined to them. -/
theorem confined_of_readOnly {α : Type} {I : Backends → Prop} {k : CharStruct} {P : α → Prop} {x : Prog α}
    (hx : Confined (fun _ : Backends => True) {k} P x) (hro : ReadOnly x) (hk : k ∈ keys id) :
    Confined I (keys id) P x := by
  refine hx.widen (Set.singleton_subset_iff.mpr hk) fun w hw => ?_
  rw [hro w]
  exact hw

theorem unpack_confined {I : Backends → Prop} {K : Set CharStruct} (record : Data) :
    Confined I K (fun _ => True) (primaryMetadata.unpack record) := by
  have hbase : Confined (fun _ : Backends => True) (∅ : Set CharStruct) (fun _ => True) (primaryMetadata.unpack record) := by
    refine (slice_confined _ _ _).bind fun bytes _ => ?_
    split
    · exact Confined.pure trivial
    · exact Confined.raise _
  refine hbase.widen (Set.empty_subset _) fun w hw => ?_
  rw [unpack_readOnly record w]
  exact hw

theorem fetch_confined {d : Data} (hid : d.id = metaId id) (hpos : d.position = 0) :
    Confined (MetaInv conf id) (keys id) (fun m => ∃ t, GoodRecord conf id t m) (fetch conf env d) := by
  have hread : Confined (MetaInv conf id) (keys id) (fun _ => True) (IoFactory.read conf env d.storageIndex d d) :=
    confined_of_readOnly (IoFactory.read_confined _ _ _) (IoFactory.read_readOnly _ _ _) (hid ▸ metaId_mem_keys id)
  refine Confined.returning (hread.bind fun record _ => unpack_confined record) fun w hw m w' hrun => ?_
  obtain ⟨t, -, -, hgood⟩ := hw.fetch hid hpos hrun
  exact ⟨t, hgood⟩

theorem primaryMetadata_confined {request : Data} (hid : request.id = id) :
    Confined (MetaInv conf id) (keys id) (fun _ => True) (primaryMetadata conf env request) := by
  subst hid
  rw [primaryMetadata_eq]
  refine (fetch_confined rfl rfl).bind fun m hm => ?_
  split
  · exact Confined.pure trivial
  next hlink =>
    obtain ⟨t, hgood⟩ := hm
    rcases hgood.kind with ⟨hflag, -⟩ | ⟨p, rfl⟩
    · exact absurd hflag hlink
    · exact (fetch_confined (d := { recordData request.id p p.storageIndex with buffer := none }) rfl rfl).mono
        fun _ _ => trivial

/-- What `Locate` hands out about the file `id`. -/
structure Located (conf : ConfigurationManager) (id : CharStruct) (ds : List DataDistribution) (m : Metadata) : Prop where
  portable : m.Portable
  isLink_eq : m.isLink = false
  configured : ∃ t, conf.backend m.storageIndex = some t
  named : Named conf id m.links
  names : ∀ d ∈ ds, d.destinationData.id = d.sourceData.id ∧ ∃ s, d.sourceData.id = objectId id s

theorem locate_confined {request : Data} (hid : request.id = id) :
    Confined (MetaInv conf id) (keys id) (fun r => Located conf id r.1 r.2)
      (MetadataOrchestrator.locate conf env request) := by
  subst hid
  have hbase : Confined (MetaInv conf request.id) (keys request.id) (fun _ => True)
      (MetadataOrchestrator.locate conf env request) := by
    refine (primaryMetadata_confined rfl).bind fun m _ => ?_
    split
    · exact Confined.pure trivial
    · exact Confined.raise _
  refine hbase.returning fun w hw r w' hrun => ?_
  obtain ⟨ds, m⟩ := r
  obtain ⟨⟨t, hprimary, hindex⟩, hnamed, htiles⟩ := hw.locate hrun
  refine ⟨hprimary.portable, hprimary.isLink_eq, ⟨t, hindex⟩, hnamed, fun d hd => ?_⟩
  obtain ⟨s, link, hlink, offset, size, position, rfl⟩ := tiles_mem htiles d hd
  obtain ⟨s', -, hs', -⟩ := hnamed _ link hlink
  exact ⟨rfl, s', hs'⟩

theorem lookupFile_confined {request : Data} (hid : request.id = id) :
    Confined (MetaInv conf id) (keys id) (fun r => ∀ m, r = some m → Located conf id [] m)
      (lookupFile conf env request) := by
  refine Confined.attempt ((locate_confined hid).bind fun r hr => Confined.pure ?_) fun fault => ?_
  · intro m hm
    cases hm
    exact ⟨hr.portable, hr.isLink_eq, hr.configured, hr.named, by simp⟩
  · cases fault with
    | error code =>
      refine Confined.pure ?_
      intro m hm
      cases hm
    | unpack => exact Confined.raise _
    | undefined => exact Confined.raise _

theorem tryLocate_confined {request : Data} (hid : request.id = id) :
    Confined (MetaInv conf id) (keys id) (fun r => ∀ ds, r = some ds → ∃ m, Located conf id ds m)
      (Server.tryLocate conf env request) := by
  refine Confined.attempt ((locate_confined hid).bind fun r hr => Confined.pure ?_) fun fault => ?_
  · intro ds hds
    cases hds
    exact ⟨r.2, hr⟩
  · cases fault with
    | error code =>
      refine Confined.pure ?_
      intro ds hds
      cases hds
    | unpack => exact Confined.raise _
    | undefined => exact Confined.raise _

/-- Writing a good record. -/
theorem recordData_confined {m : Metadata} {i j : Nat} (hm : ∀ t, conf.backend i = some t → GoodRecord conf id t m) :
    Confined (MetaInv conf id) (keys id) (fun _ => True)
      (IoFactory.write conf env i (recordData id m j) (recordData id m j)) := by
  refine (IoFactory.write_confined _ _ _).widen (Set.singleton_subset_iff.mpr (metaId_mem_keys id)) fun w hw => ?_
  unfold IoFactory.write IoFactory.getIoClient
  cases ht : conf.backend i with
  | none => exact hw
  | some t =>
    cases env.writeFault i (recordData id m j).id with
    | some code => exact hw
    | none =>
      show MetaInv conf id (IoClient.write t (recordData id m j) (recordData id m j) w).final
      rw [recordData_write]
      exact hw.putRecord (hm t ht)

/-- Writing an object of the file. -/
theorem object_write_confined {i s : Nat} {source destination : Data} (hid : destination.id = objectId id s) :
    Confined (MetaInv conf id) (keys id) (fun _ => True) (IoFactory.write conf env i source destination) := by
  have hkey : destination.id ∈ keys id := hid ▸ objectId_mem_keys id s
  refine (IoFactory.write_confined _ _ _).widen (Set.singleton_subset_iff.mpr hkey) fun w hw => ?_
  refine hw.congr fun t => IoFactory.write_outside i source destination w t ?_
  rw [hid]
  exact (objectId_ne_metaId id s).symm

/-- The metadata a store writes back is good for the storage it is written to. -/
theorem Located.goodRecord {m : Metadata} (h : Located conf id [] m) {ds : List DataDistribution}
    (hds : ∀ d ∈ ds, d.destinationData.id = id ∧ ∃ t, conf.backend d.destinationData.storageIndex = some t) :
    ∀ t, conf.backend m.storageIndex = some t → GoodRecord conf id t (grownMetadata conf m ds) :=
  fun _ ht => ⟨grownMetadata_portable h.portable conf ds,
    Or.inl ⟨h.isLink_eq, ht, (updateLinks_extends conf.maxObjSize ds m.links).named h.named hds⟩⟩

theorem newMetadata_goodRecord {request : Data} {ds : List DataDistribution}
    (hds : ∀ d ∈ ds, d.destinationData.id = id ∧ ∃ t, conf.backend d.destinationData.storageIndex = some t) :
    ∀ t, conf.backend request.storageIndex = some t → GoodRecord conf id t (newMetadata conf request ds) :=
  fun _ ht => ⟨newMetadata_portable conf request ds,
    Or.inl ⟨rfl, ht, (createLinks_extends conf.maxObjSize ds ∅).named (fun _ _ h => by cases h) hds⟩⟩

theorem store_confined {request : Data} (hid : request.id = id) {ds : List DataDistribution}
    (hds : ∀ d ∈ ds, d.destinationData.id = id ∧ ∃ t, conf.backend d.destinationData.storageIndex = some t) :
    Confined (MetaInv conf id) (keys id) (fun ds' => ∀ d ∈ ds', ∃ s, d.destinationData.id = objectId id s)
      (MetadataOrchestrator.store conf env request ds) := by
  refine (lookupFile_confined hid).bind fun r hr => ?_
  cases r with
  | some m =>
    have hm := hr m rfl
    have hnames : ∀ d ∈ (updateLinks conf.maxObjSize ds m.links).1, ∃ s, d.destinationData.id = objectId id s := by
      intro d hd
      obtain ⟨e, -, -, -, link, hlink, hid', -⟩ := updateLinks_mem hd
      obtain ⟨s, -, hs, -⟩ := (updateLinks_extends conf.maxObjSize ds m.links).named hm.named hds _ link hlink
      exact ⟨s, hid'.trans hs⟩
    dsimp only
    split
    · subst hid
      exact (recordData_confined (hm.goodRecord hds)).bind fun _ _ => Confined.pure hnames
    · exact Confined.pure hnames
  | none =>
    have hnames : ∀ d ∈ (createLinks conf.maxObjSize ds ∅).1, ∃ s, d.destinationData.id = objectId id s := by
      intro d hd
      rw [createLinks_fst, List.mem_map] at hd
      obtain ⟨e, he, rfl⟩ := hd
      refine ⟨e.segment conf.maxObjSize, ?_⟩
      rw [← (hds e he).1]
      rfl
    subst hid
    refine (recordData_confined (newMetadata_goodRecord hds)).bind fun _ _ => ?_
    refine (Confined.forM fun solution _ => ?_).bind fun _ _ => Confined.pure hnames
    split
    · exact Confined.pure trivial
    · exact recordData_confined fun t _ => ⟨linkMetadata_portable _ _, Or.inr ⟨_, rfl⟩⟩

/-! ## The server -/

/-- **`Server::Store` touches and observes only the keys of its file**, and so do the other operations. -/
theorem server_store_confined {draw : Nat} {source destination : Data} (hid : destination.id = id) :
    Confined (MetaInv conf id) (keys id) (fun _ => True) (Server.store conf env draw source destination) := by
  subst hid
  refine (store_confined rfl distribute_named).bind fun ds hds => ?_
  refine (Confined.forM fun d hd => ?_).bind fun _ _ => Confined.pure trivial
  obtain ⟨s, hs⟩ := hds d hd
  exact object_write_confined hs

theorem server_delete_confined {request : Data} (hid : request.id = id) :
    Confined (MetaInv conf id) (keys id) (fun _ => True) (Server.delete conf env request) := by
  have hremove : ∀ i (source : Data), source.id ∈ keys id →
      Confined (MetaInv conf id) (keys id) (fun _ => True) (IoFactory.remove conf i source) := by
    intro i source hkey
    refine (IoFactory.remove_confined i source).widen (Set.singleton_subset_iff.mpr hkey) fun w hw => ?_
    unfold IoFactory.remove IoFactory.getIoClient
    cases conf.backend i with
    | none => exact hw
    | some t =>
      show MetaInv conf id (IoClient.remove t source w).final
      rw [remove_run]
      exact hw.remove source.id
  refine (tryLocate_confined hid).bind fun r hr => ?_
  cases r with
  | none => exact Confined.pure trivial
  | some ds =>
    obtain ⟨m, hm⟩ := hr ds rfl
    refine (Confined.foldlM (fun status d hd => ?_) true).bind fun status _ => ?_
    · split
      · obtain ⟨-, s, hs⟩ := hm.names d hd
        exact hremove _ _ (hs ▸ objectId_mem_keys id s)
      · exact Confined.pure trivial
    · split
      · refine (Confined.forM fun solution _ => ?_).bind fun _ _ => Confined.pure trivial
        exact (hremove _ _ (hid ▸ metaId_mem_keys id)).bind fun _ _ => Confined.pure trivial
      · exact Confined.pure trivial

theorem server_locate_confined {source destination : Data} (hid : source.id = id) :
    Confined (MetaInv conf id) (keys id) (fun _ => True) (Server.locate conf env source destination) := by
  have hwindow : ∀ part, Confined (MetaInv conf id) (keys id) (fun _ => True) (Server.window part) := by
    intro part
    unfold Server.window
    split
    · exact Confined.raise _
    · exact confined_of_readOnly (slice_confined _ _ _) (slice_readOnly _ _ _) (metaId_mem_keys id)
  refine (locate_confined hid).bind fun r hr => ?_
  refine (Confined.mapM (Q := fun _ => True) fun d hd => ?_).bind fun parts _ => ?_
  · obtain ⟨-, s, hs⟩ := hr.names d hd
    exact confined_of_readOnly (IoFactory.read_confined _ _ _) (IoFactory.read_readOnly _ _ _)
      (hs ▸ objectId_mem_keys id s)
  · refine (Confined.mapM (Q := fun _ => True) fun part _ => hwindow part).bind fun windows _ => ?_
    split
    · exact Confined.pure trivial
    · exact Confined.raise _

theorem server_size_confined {request : Data} (hid : request.id = id) :
    Confined (MetaInv conf id) (keys id) (fun _ => True) (Server.size conf env request) := by
  refine (tryLocate_confined hid).bind fun r hr => ?_
  cases r with
  | none => exact Confined.pure trivial
  | some ds =>
    obtain ⟨m, hm⟩ := hr ds rfl
    refine (Confined.mapM (Q := fun _ => True) fun d hd => ?_).bind fun sizes _ => Confined.pure trivial
    obtain ⟨heq, s, hs⟩ := hm.names d hd
    exact confined_of_readOnly (IoFactory.size_confined _ _) (IoFactory.size_readOnly _ _)
      (heq ▸ hs ▸ objectId_mem_keys id s)

end confined

end Symbios
