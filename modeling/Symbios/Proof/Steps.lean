import Symbios.Model.Steps
import Symbios.Proof.Isolation

/-!
# The steps of a server thread

A thread that nobody interrupts is the operation it serves (`program_session`), so the two models of the server agree. Each
of its steps touches and observes only keys of its file and keeps the records of the file good
(`Request.steps_confined`): the confinement of the whole operation, said of every step.
-/

namespace Symbios.Steps

open EStateM Thread

variable [Wire] (conf : ConfigurationManager) (env : Env)

/-! ## Without interruption -/

theorem program_readRecord (record : Data) : program (readRecord conf env record) = fetch conf env record :=
  program_atom _

theorem program_primaryMetadata (request : Data) :
    program (primaryMetadata conf env request) = MetadataOrchestrator.primaryMetadata conf env request := by
  rw [primaryMetadata, program_bind, program_readRecord, primaryMetadata_eq]
  congr 1
  funext m
  by_cases hm : m.isLink = false
  · rw [if_pos hm, if_pos hm, program_pure]
  · rw [if_neg hm, if_neg hm, program_readRecord]

theorem program_locate (request : Data) :
    program (locate conf env request) = MetadataOrchestrator.locate conf env request := by
  rw [locate, program_bind, program_primaryMetadata, MetadataOrchestrator.locate]
  congr 1
  funext m
  cases MetadataOrchestrator.tiles conf m.links request with
  | some ds => rfl
  | none => rfl

theorem program_lookupFile (request : Data) :
    program (lookupFile conf env request) = MetadataOrchestrator.lookupFile conf env request := by
  rw [lookupFile, program_attempt, program_bind, program_locate, MetadataOrchestrator.lookupFile]
  congr 1
  funext fault
  cases fault with
  | error code => rfl
  | unpack => rfl
  | undefined => rfl

theorem program_tryLocate (request : Data) : program (tryLocate conf env request) = Server.tryLocate conf env request := by
  rw [tryLocate, program_attempt, program_bind, program_locate, Server.tryLocate]
  congr 1
  funext fault
  cases fault with
  | error code => rfl
  | unpack => rfl
  | undefined => rfl

theorem program_storeMetadata (request : Data) (ds : List DataDistribution) :
    program (storeMetadata conf env request ds) = MetadataOrchestrator.store conf env request ds := by
  rw [storeMetadata, program_bind, program_lookupFile, MetadataOrchestrator.store]
  congr 1
  funext r
  cases r with
  | some m =>
    dsimp only
    split
    · rw [writeRecord, program_bind, program_atom]
      rfl
    · rfl
  | none =>
    dsimp only
    rw [writeRecord, program_bind, program_atom]
    congr 1
    funext _
    rw [program_bind, program_forM]
    congr 1
    congr 1
    funext solution
    split
    · rfl
    · rw [writeRecord, program_atom]

omit [Wire] in
theorem program_deleteMetadata (request : Data) :
    program (deleteMetadata conf request) = MetadataOrchestrator.delete conf request := by
  rw [deleteMetadata, program_bind, program_forM, MetadataOrchestrator.delete]
  congr 1
  congr 1
  funext solution
  rw [program_discard, program_atom]

theorem program_store (draw : Nat) (source destination : Data) :
    program (store conf env draw source destination) = Server.store conf env draw source destination := by
  rw [store, program_bind, program_storeMetadata, Server.store]
  congr 1
  funext ds
  rw [program_bind, program_forM]
  simp only [program_atom, program_pure]

theorem program_locateData (source destination : Data) :
    program (locateData conf env source destination) = Server.locate conf env source destination := by
  rw [locateData, program_bind, program_locate, Server.locate]
  congr 1
  funext r
  rw [program_bind, program_mapM]
  simp only [program_atom]
  congr 1
  funext parts
  rw [program_bind, program_mapM]
  simp only [program_atom]
  congr 1
  funext windows
  split
  · rfl
  · rfl

theorem program_size (request : Data) : program (size conf env request) = Server.size conf env request := by
  rw [size, program_bind, program_tryLocate, Server.size]
  congr 1
  funext r
  cases r with
  | none => rfl
  | some ds =>
    dsimp only
    rw [program_bind, program_mapM]
    simp only [program_atom]
    rfl

theorem program_delete (request : Data) : program (delete conf env request) = Server.delete conf env request := by
  rw [delete, program_bind, program_tryLocate, Server.delete]
  congr 1
  funext r
  cases r with
  | none => rfl
  | some ds =>
    dsimp only
    rw [program_bind, program_foldlM]
    congr 1
    · congr 1
      funext status d
      split
      · rw [program_atom]
      · rfl
    · funext status
      split
      · rw [program_deleteMetadata]
      · rfl

theorem program_request (request : Request) : program (request.steps conf) = request.serve conf := by
  cases request with
  | storeRequest env draw source destination => rw [Request.steps, program_bind, program_store]; rfl
  | locateRequest env source destination => rw [Request.steps, program_bind, program_locateData]; rfl
  | sizeRequest env request => rw [Request.steps, program_bind, program_size]; rfl
  | deleteRequest env request => rw [Request.steps, program_bind, program_delete]; rfl

/-- **A session that is not interrupted is the session served by the operations of the server.** -/
theorem program_session (session : Session) : program (session.steps conf) = session.serve conf := by
  induction session with
  | close => rfl
  | call request next ih =>
    rw [Session.steps, program_bind, program_attempt, program_bind, program_request, Session.serve]
    congr 1
    funext reply
    rw [program_bind, ih]
    rfl

/-! ## What a lookup observes -/

section lookup

variable {conf : ConfigurationManager} {env : Env} {id : CharStruct} {I : Backends → Prop} {K W : Set CharStruct}

omit [Wire] in
/-- A step that only looks at one key. -/
theorem look {α : Type} {P : α → Prop} {k : CharStruct} {x : Prog α}
    (hx : EStateM.Confined (fun _ : Backends => True) {k} (fun _ => True) x) (hro : ReadOnly x) (hk : k ∈ K)
    (hP : ∀ w, I w → ∀ a w', x w = .ok a w' → P a) : Thread.Confined I K W P (atom x) := by
  refine Thread.Confined.atom ((hx.widen (Set.singleton_subset_iff.mpr hk) fun w hw => ?_).returning hP)
    fun w _ t k' _ => ?_
  · rw [hro w]
    exact hw
  · rw [hro w]

/-- A record of the file that is read is a good one. -/
theorem readRecord_confined (hI : ∀ w, I w → MetaInv conf id w) (hK : metaId id ∈ K) {d : Data} (hid : d.id = metaId id)
    (hpos : d.position = 0) :
    Thread.Confined I K W (fun m => ∃ t, GoodRecord conf id t m) (readRecord conf env d) := by
  have hread : EStateM.Confined (fun _ : Backends => True) {d.id} (fun _ => True)
      (IoFactory.read conf env d.storageIndex d d) := IoFactory.read_confined _ _ _
  refine look (hread.bind fun record _ => unpack_confined record) (fetch_readOnly d) (hid ▸ hK) fun w hw m w' hrun => ?_
  obtain ⟨t, -, -, hgood⟩ := (hI w hw).fetch hid hpos hrun
  exact ⟨t, hgood⟩

/-- The lookup of a file finds primary metadata, or nothing that could be unpacked into some. -/
theorem primaryMetadata_confined (hI : ∀ w, I w → MetaInv conf id w) (hK : metaId id ∈ K) {request : Data}
    (hid : request.id = id) :
    Thread.Confined I K W (fun m => ∃ t, GoodRecord conf id t m) (primaryMetadata conf env request) := by
  subst hid
  refine (readRecord_confined hI hK rfl rfl).bind fun m hm => ?_
  by_cases hlink : m.isLink = false
  · rw [if_pos hlink]
    exact Thread.Confined.pure hm
  · rw [if_neg hlink]
    obtain ⟨t, hgood⟩ := hm
    rcases hgood.kind with ⟨hflag, -⟩ | ⟨p, rfl⟩
    · exact absurd hflag hlink
    · exact readRecord_confined hI hK rfl rfl

/-- What a request is located at. -/
theorem locate_confined (hI : ∀ w, I w → MetaInv conf id w) (hK : metaId id ∈ K) {request : Data}
    (hid : request.id = id) :
    Thread.Confined I K W (fun r => Located conf id r.1 r.2) (locate conf env request) := by
  refine (primaryMetadata_confined hI hK hid).bind fun m hm => ?_
  cases htiles : MetadataOrchestrator.tiles conf m.links request with
  | none => exact Thread.Confined.raise _
  | some ds =>
    refine Thread.Confined.pure ?_
    obtain ⟨t, hgood⟩ := hm
    rcases hgood.kind with ⟨hflag, hindex, hnamed⟩ | ⟨p, rfl⟩
    · refine ⟨hgood.portable, hflag, ⟨t, hindex⟩, hnamed, fun d hd => ?_⟩
      obtain ⟨s, link, hlink, offset, size, position, rfl⟩ := tiles_mem htiles d hd
      obtain ⟨s', -, hs', -⟩ := hnamed _ link hlink
      exact ⟨rfl, s', hs'⟩
    · cases (tiles_linkMetadata id p).symm.trans (hid ▸ htiles)

theorem lookupFile_confined (hI : ∀ w, I w → MetaInv conf id w) (hK : metaId id ∈ K) {request : Data}
    (hid : request.id = id) :
    Thread.Confined I K W (fun r => ∀ m, r = some m → Located conf id [] m) (lookupFile conf env request) := by
  refine Thread.Confined.attempt ((locate_confined hI hK hid).bind fun r hr => Thread.Confined.pure ?_) fun fault => ?_
  · intro m hm
    cases hm
    exact ⟨hr.portable, hr.isLink_eq, hr.configured, hr.named, by simp⟩
  · cases fault with
    | error code =>
      refine Thread.Confined.pure ?_
      intro m hm
      cases hm
    | unpack => exact Thread.Confined.raise _
    | undefined => exact Thread.Confined.raise _

theorem tryLocate_confined (hI : ∀ w, I w → MetaInv conf id w) (hK : metaId id ∈ K) {request : Data}
    (hid : request.id = id) :
    Thread.Confined I K W (fun r => ∀ ds, r = some ds → ∃ m, Located conf id ds m) (tryLocate conf env request) := by
  refine Thread.Confined.attempt ((locate_confined hI hK hid).bind fun r hr => Thread.Confined.pure ?_) fun fault => ?_
  · intro ds hds
    cases hds
    exact ⟨r.2, hr⟩
  · cases fault with
    | error code =>
      refine Thread.Confined.pure ?_
      intro ds hds
      cases hds
    | unpack => exact Thread.Confined.raise _
    | undefined => exact Thread.Confined.raise _

omit [Wire] in
/-- The read of an object of the file. -/
theorem readObject_confined {i : Nat} {source destination : Data} (hk : source.id ∈ K) :
    Thread.Confined I K W (fun _ => True) (atom (IoFactory.read conf env i source destination)) :=
  look (IoFactory.read_confined _ _ _) (IoFactory.read_readOnly _ _ _) hk fun _ _ _ _ _ => trivial

omit [Wire] in
theorem sizeObject_confined {i : Nat} {source : Data} (hk : source.id ∈ K) :
    Thread.Confined I K W (fun _ => True) (atom (IoFactory.size conf i source)) :=
  look (IoFactory.size_confined _ _) (IoFactory.size_readOnly _ _) hk fun _ _ _ _ _ => trivial

omit [Wire] in
/-- A local step. -/
theorem window_confined (part : Data) : Thread.Confined I K W (fun _ => True) (atom (Server.window part)) := by
  have hwindow : EStateM.Confined (fun _ : Backends => True) (∅ : Set CharStruct) (fun _ => True)
      (Server.window part) := by
    unfold Server.window
    split
    · exact EStateM.Confined.raise _
    · exact slice_confined _ _ _
  have hro : ReadOnly (Server.window part) := by
    unfold Server.window
    split
    · exact ReadOnly.raise _
    · exact slice_readOnly _ _ _
  refine Thread.Confined.atom ((hwindow.widen (Set.empty_subset _) fun w hw => ?_).returning fun _ _ _ _ _ => trivial)
    fun w _ t k _ => ?_
  · rw [hro w]
    exact hw
  · rw [hro w]

/-- A `Locate` of the server observes what it looks up and the objects it finds. -/
theorem locateData_confined {source destination : Data}
    (h : Thread.Confined I K W (fun r => ∀ d ∈ r.1, d.sourceData.id ∈ K) (locate conf env source)) :
    Thread.Confined I K W (fun _ => True) (locateData conf env source destination) := by
  refine h.bind fun r hr => ?_
  refine (Thread.Confined.mapM (Q := fun _ => True) fun d hd => readObject_confined (hr d hd)).bind fun parts _ => ?_
  refine (Thread.Confined.mapM (Q := fun _ => True) fun part _ => window_confined part).bind fun windows _ => ?_
  split
  · exact Thread.Confined.pure trivial
  · exact Thread.Confined.raise _

theorem size_confined {request : Data}
    (h : Thread.Confined I K W (fun r => ∀ ds, r = some ds → ∀ d ∈ ds, d.destinationData.id ∈ K)
      (tryLocate conf env request)) :
    Thread.Confined I K W (fun _ => True) (size conf env request) := by
  refine h.bind fun r hr => ?_
  cases r with
  | none => exact Thread.Confined.pure trivial
  | some ds =>
    exact (Thread.Confined.mapM (Q := fun _ => True) fun d hd => sizeObject_confined (hr ds rfl d hd)).bind
      fun sizes _ => Thread.Confined.pure trivial

end lookup

/-! ## What a request touches -/

section request

variable {conf : ConfigurationManager} {env : Env} {id : CharStruct}

/-- A confined operation as one step. -/
theorem atom_confined {α : Type} {P : α → Prop} {x : Prog α}
    (hx : EStateM.Confined (MetaInv conf id) (keys id) P x) :
    Thread.Confined (MetaInv conf id) (keys id) (keys id) P (atom x) :=
  Thread.Confined.atom hx hx.outside

theorem remove_confined (i : Nat) {source : Data} (hkey : source.id ∈ keys id) :
    Thread.Confined (MetaInv conf id) (keys id) (keys id) (fun _ => True) (atom (IoFactory.remove conf i source)) := by
  refine atom_confined ((IoFactory.remove_confined i source).widen (Set.singleton_subset_iff.mpr hkey) fun w hw => ?_)
  unfold IoFactory.remove IoFactory.getIoClient
  cases conf.backend i with
  | none => exact hw
  | some t =>
    show MetaInv conf id (IoClient.remove t source w).final
    rw [remove_run]
    exact hw.remove source.id

theorem storeMetadata_confined {request : Data} (hid : request.id = id) {ds : List DataDistribution}
    (hds : ∀ d ∈ ds, d.destinationData.id = id ∧ ∃ t, conf.backend d.destinationData.storageIndex = some t) :
    Thread.Confined (MetaInv conf id) (keys id) (keys id)
      (fun ds' => ∀ d ∈ ds', ∃ s, d.destinationData.id = objectId id s) (storeMetadata conf env request ds) := by
  refine (lookupFile_confined (fun _ hw => hw) (metaId_mem_keys id) hid).bind fun r hr => ?_
  cases r with
  | some m =>
    have hm := hr m rfl
    have hnames : ∀ d ∈ (MetadataOrchestrator.updateLinks conf.maxObjSize ds m.links).1,
        ∃ s, d.destinationData.id = objectId id s := by
      intro d hd
      obtain ⟨e, -, -, -, link, hlink, hid', -⟩ := updateLinks_mem hd
      obtain ⟨s, -, hs, -⟩ := (updateLinks_extends conf.maxObjSize ds m.links).named hm.named hds _ link hlink
      exact ⟨s, hid'.trans hs⟩
    dsimp only
    split
    · subst hid
      exact (atom_confined (recordData_confined (hm.goodRecord hds))).bind fun _ _ => Thread.Confined.pure hnames
    · exact Thread.Confined.pure hnames
  | none =>
    have hnames : ∀ d ∈ (MetadataOrchestrator.createLinks conf.maxObjSize ds ∅).1,
        ∃ s, d.destinationData.id = objectId id s := by
      intro d hd
      rw [createLinks_fst, List.mem_map] at hd
      obtain ⟨e, he, rfl⟩ := hd
      refine ⟨e.segment conf.maxObjSize, ?_⟩
      rw [← (hds e he).1]
      rfl
    subst hid
    refine (atom_confined (recordData_confined (newMetadata_goodRecord hds))).bind fun _ _ => ?_
    refine (Thread.Confined.forM fun solution _ => ?_).bind fun _ _ => Thread.Confined.pure hnames
    split
    · exact Thread.Confined.pure trivial
    · exact atom_confined (recordData_confined fun t _ => ⟨linkMetadata_portable _ _, Or.inr ⟨_, rfl⟩⟩)

theorem store_confined {draw : Nat} {source destination : Data} (hid : destination.id = id) :
    Thread.Confined (MetaInv conf id) (keys id) (keys id) (fun _ => True)
      (store conf env draw source destination) := by
  subst hid
  refine (storeMetadata_confined rfl distribute_named).bind fun ds hds => ?_
  refine (Thread.Confined.forM fun d hd => ?_).bind fun _ _ => Thread.Confined.pure trivial
  obtain ⟨s, hs⟩ := hds d hd
  exact atom_confined (object_write_confined hs)

theorem delete_confined {request : Data} (hid : request.id = id) :
    Thread.Confined (MetaInv conf id) (keys id) (keys id) (fun _ => True) (delete conf env request) := by
  refine (tryLocate_confined (fun _ hw => hw) (metaId_mem_keys id) hid).bind fun r hr => ?_
  cases r with
  | none => exact Thread.Confined.pure trivial
  | some ds =>
    obtain ⟨m, hm⟩ := hr ds rfl
    refine (Thread.Confined.foldlM (fun status d hd => ?_) true).bind fun status _ => ?_
    · split
      · obtain ⟨-, s, hs⟩ := hm.names d hd
        exact remove_confined _ (hs ▸ objectId_mem_keys id s)
      · exact Thread.Confined.pure trivial
    · split
      · refine (Thread.Confined.forM fun solution _ => ?_).bind fun _ _ => Thread.Confined.pure trivial
        exact (remove_confined _ (hid ▸ metaId_mem_keys id)).discard
      · exact Thread.Confined.pure trivial

/-- **Every step of every request keeps the records of its file good, and observes and changes only keys of the
file.** -/
theorem Request.steps_confined (request : Request) :
    Thread.Confined (MetaInv conf request.id) (keys request.id) (keys request.id) (fun _ => True)
      (request.steps conf) := by
  cases request with
  | storeRequest env draw source destination => exact (store_confined rfl).bind fun _ _ => Thread.Confined.pure trivial
  | locateRequest env source destination =>
    refine (locateData_confined ?_).bind fun _ _ => Thread.Confined.pure trivial
    refine (locate_confined (fun _ hw => hw) (metaId_mem_keys source.id) rfl).mono fun r hr d hd => ?_
    obtain ⟨-, s, hs⟩ := hr.names d hd
    exact hs ▸ objectId_mem_keys source.id s
  | sizeRequest env request =>
    refine (size_confined ?_).bind fun _ _ => Thread.Confined.pure trivial
    refine (tryLocate_confined (fun _ hw => hw) (metaId_mem_keys request.id) rfl).mono fun r hr ds hds d hd => ?_
    obtain ⟨m, hm⟩ := hr ds hds
    obtain ⟨heq, s, hs⟩ := hm.names d hd
    exact heq ▸ hs ▸ objectId_mem_keys request.id s
  | deleteRequest env request => exact (delete_confined rfl).bind fun _ _ => Thread.Confined.pure trivial

/-- What holds of every request of a session holds of the session. -/
theorem Session.steps_confined {I : Backends → Prop} {K W : Set CharStruct} {p : Request → Prop}
    (hp : ∀ request, p request → Thread.Confined I K W (fun _ => True) (request.steps conf)) {session : Session}
    (hsession : session.Every p) : Thread.Confined I K W (fun _ => True) (session.steps conf) := by
  induction session with
  | close => exact Thread.Confined.pure trivial
  | call request next ih =>
    refine (Thread.Confined.attempt (P := fun _ => True) ?_ fun fault => Thread.Confined.pure trivial).bind fun reply _ => ?_
    · exact (hp request hsession.1).bind fun _ _ => Thread.Confined.pure trivial
    · exact (ih reply (hsession.2 reply)).bind fun _ _ => Thread.Confined.pure trivial

end request

end Symbios.Steps
