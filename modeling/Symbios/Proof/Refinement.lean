import Symbios.Model.Posix
import Symbios.Proof.Extent
import Symbios.Proof.Sessions

/-!
# The servers refine a map of files

What the component is for: the client sees a map from names to byte strings (`Files`). Over one file system, a state
holds such a map when every file that is there has its bytes in the objects of its segments and primary metadata that
links to all of them, and no other file has anything (`FileHeld`). Each of the four procedures, called as the clients
call it, replies what the map replies and keeps the relation (`Request.serve_ideal`), and so does every session
(`Session.serve_ideal`), however many other clients work on other files at the same time (`pool_ideal`).
-/

namespace Symbios.Steps

open EStateM

/-! ## The ideal client -/

/-- What a map of files replies to a request, and the map afterwards. -/
def ideal (conf : ConfigurationManager) (files : Files) : Request → Reply × Files
  | .storeRequest _ _ source destination =>
    (.stored conf.serverCount, files.storeRequest (sourceBytes source) destination)
  | .locateRequest _ source destination =>
    (.located { destination with buffer := some (files.locateRequest source) }, files)
  | .sizeRequest _ request => (.size (files.content request.id).length, files)
  | .deleteRequest _ request => (.deleted (files request.id).isSome, files.delete request)

/-- The requests for which the server has the resources of the map. Nothing fails; a store puts a non-empty buffer into
one segment and leaves no gap in front of it; a range to be located is there, does not end between two segments of the
file, and the sizes of its parts add up in an `int`, as those of the whole file do; `Size` and `Delete` take the whole
file. -/
def Request.Admissible (conf : ConfigurationManager) (files : Files) : Request → Prop
  | .storeRequest env _ source destination => env = Env.calm ∧ IssuedStore conf destination.id source destination ∧
      0 < source.dataSize ∧ destination.position ≤ (files.content destination.id).length ∧
      destination.position + source.dataSize < 2 ^ 31
  | .locateRequest env source _ => env = Env.calm ∧ source.storageIndex = 0 ∧ 0 < source.dataSize ∧
      source.position + source.dataSize ≤ (files.content source.id).length ∧
      ¬ (conf.maxObjSize ∣ source.position + source.dataSize ∧
        source.position + source.dataSize < (files.content source.id).length) ∧
      (partSizes conf.maxObjSize source.position source.dataSize).sum < 2 ^ 31
  | .sizeRequest env request => env = Env.calm ∧ request = { id := request.id }
  | .deleteRequest env request => env = Env.calm ∧ request = { id := request.id }

/-- The replies of the map to a session, and the map at its end. -/
def Session.ideal (conf : ConfigurationManager) : Session → Files → List (Except Fault Reply) × Files
  | .close, files => ([], files)
  | .call request next, files =>
    let r := Steps.ideal conf files request
    let rest := (next (.ok r.1)).ideal conf r.2
    (.ok r.1 :: rest.1, rest.2)

/-- Every request of the session is admissible when its turn comes. -/
def Session.Admissible (conf : ConfigurationManager) : Session → Files → Prop
  | .close, _ => True
  | .call request next, files => request.Admissible conf files ∧
      (next (.ok (Steps.ideal conf files request).1)).Admissible conf (Steps.ideal conf files request).2

/-! ## The relation -/

section held

variable [Wire] {conf : ConfigurationManager} {id : CharStruct} {w w' : Backends} {content : List UInt8}

/-- The file has these bytes, in the objects of its segments. -/
structure Dense (conf : ConfigurationManager) (id : CharStruct) (content : List UInt8) (m : Metadata) (w : Backends) :
    Prop where
  ne_nil : content ≠ []
  small : content.length < 2 ^ 31
  filed : Filed conf id w m .fileIo
  spread : Spread conf id (Segments.pieces conf.maxObjSize content) m.links w

/-- The state holds the file, if there is one, and nothing else of that name. -/
def FileHeld (conf : ConfigurationManager) (id : CharStruct) (file : Option (List UInt8)) (w : Backends) : Prop :=
  ObjectsMatch conf id w ∧
    match file with
    | none => NoRecord id w
    | some content => ∃ m, Dense conf id content m w

/-- Nothing of the file is there. -/
theorem FileHeld.unused (h : FileHeld conf id none w) : Unused id w := by
  refine ⟨h.2, fun s t => ?_⟩
  by_contra hne
  exact NoRecord.not_linked h.2 t s ((h.1 t s).mp hne)

theorem FileHeld.fileInv {file : Option (List UInt8)} (h : FileHeld conf id file w) : FileInv conf id w := by
  cases file with
  | none => exact Or.inl h.2
  | some content =>
    obtain ⟨m, hm⟩ := h.2
    exact Or.inr ⟨m, .fileIo, hm.filed⟩

theorem Dense.links_length {m : Metadata} (h : Dense conf id content m w) (s : Nat) :
    s < m.links.entries.length ↔ s * conf.maxObjSize < content.length := by
  rw [← h.spread.present, Segments.pieces_isSome]

theorem FileHeld.small {file : Option (List UInt8)} (h : FileHeld conf id file w) : (file.getD []).length < 2 ^ 31 := by
  cases file with
  | none => decide
  | some content =>
    obtain ⟨m, hm⟩ := h.2
    exact hm.small

/-- The records of a file are good. -/
theorem FileHeld.metaInv {file : Option (List UInt8)} (hconf : conf.storageSolutions = [(0, .fileIo)])
    (h : FileHeld conf id file w) : MetaInv conf id w := by
  intro t b hb
  cases file with
  | none => cases (h.2 t).symm.trans hb
  | some content =>
    obtain ⟨m, hm⟩ := h.2
    by_cases ht : t = .fileIo
    · subst ht
      obtain ⟨rest, hrest⟩ := hm.filed.primary.holds
      exact ⟨m, rest, Option.some.inj (hb.symm.trans hrest), hm.filed.primary.portable,
        Or.inl ⟨hm.filed.primary.isLink_eq, hm.filed.index, hm.filed.named⟩⟩
    · cases (hm.filed.only t fun i hi => ht ((backend_iff hconf i t).mp hi).2).symm.trans hb

omit [Wire] in
theorem spread_congr {objects : Nat → Option (List UInt8)} {links : Links} (h : Spread conf id objects links w)
    (hw : ∀ t s, w' t (objectId id s) = w t (objectId id s)) : Spread conf id objects links w' where
  inOrder := h.inOrder
  few := h.few
  linked s link hlookup := by
    obtain ⟨hid, t, ht, hobject⟩ := h.linked s link hlookup
    exact ⟨hid, t, ht, (hw t s).trans hobject⟩
  present := h.present
  absent s hs t := (hw t s).trans (h.absent s hs t)
  short := h.short

/-- What is held depends on the keys of the file alone. -/
theorem FileHeld.congr {file : Option (List UInt8)} (h : FileHeld conf id file w) (hagree : AgreeOn (keys id) w w') :
    FileHeld conf id file w' := by
  have hrecord : ∀ t, w' t (metaId id) = w t (metaId id) := fun t => (hagree t _ (metaId_mem_keys id)).symm
  have hobject : ∀ t s, w' t (objectId id s) = w t (objectId id s) :=
    fun t s => (hagree t _ (objectId_mem_keys id s)).symm
  have hlinked : ∀ t s, Linked conf id w' t s ↔ Linked conf id w t s := by
    intro t s
    constructor
    · rintro ⟨m, t₀, key, link, ⟨⟨rest, hrest⟩, hportable, hflag⟩, hlink⟩
      exact ⟨m, t₀, key, link, ⟨⟨rest, (hrecord t₀).symm.trans hrest⟩, hportable, hflag⟩, hlink⟩
    · rintro ⟨m, t₀, key, link, ⟨⟨rest, hrest⟩, hportable, hflag⟩, hlink⟩
      exact ⟨m, t₀, key, link, ⟨⟨rest, (hrecord t₀).trans hrest⟩, hportable, hflag⟩, hlink⟩
  refine ⟨fun t s => ?_, ?_⟩
  · rw [hobject, hlinked]
    exact h.1 t s
  · cases file with
    | none => exact fun t => (hrecord t).trans (h.2 t)
    | some content =>
      obtain ⟨m, hm⟩ := h.2
      exact ⟨m, hm.ne_nil, hm.small, hm.filed.congr hrecord, spread_congr hm.spread hobject⟩

/-- The empty store holds the empty map. -/
theorem fileHeld_empty (conf : ConfigurationManager) (id : CharStruct) : FileHeld conf id none fun _ _ => none := by
  have hnone : NoRecord id fun _ _ => none := fun _ => rfl
  exact ⟨fun t s => iff_of_false (fun h => h rfl) (hnone.not_linked t s), hnone⟩

end held

/-! ## One request -/

section requests

variable [Wire] {conf : ConfigurationManager} {id : CharStruct} {w : Backends} {file : Option (List UInt8)}
  {content : List UInt8} {m : Metadata} (hconf : conf.storageSolutions = [(0, .fileIo)])

include hconf

/-- Every store goes to the file system. -/
theorem target_fileIo {draw : Nat} {destination : Data} {t : IoClientType} (h : target conf draw destination w = some t) :
    t = .fileIo := by
  unfold target at h
  split at h
  · split at h
    · exact ((backend_iff hconf _ t).mp h).2
    · exact ((backend_iff hconf _ t).mp h).2
  · exact ((backend_iff hconf _ t).mp h).2

/-- The objects of the segments are the pieces of the file. -/
theorem Dense.objects (h : Dense conf id content m w) :
    (fun s => w .fileIo (objectId id s)) = Segments.pieces conf.maxObjSize content := by
  funext s
  refine h.spread.object_eq fun link hlink => ?_
  obtain ⟨-, t, ht, -⟩ := h.spread.linked s link hlink
  rw [ht, ((backend_iff hconf _ t).mp ht).2]

theorem Dense.held (h : Dense conf id content m w) : Held conf id (fun o => content[o]?) m w where
  filed := h.filed
  inOrder := h.spread.inOrder
  addressed s link hlink := by
    obtain ⟨hid, t, ht, -⟩ := h.spread.linked s link hlink
    exact ⟨hid, ((backend_iff hconf _ t).mp ht).1⟩
  covers := by
    rw [h.objects hconf]
    exact Segments.pieces_covers conf.maxObjSize_pos content
  written o b hb := by
    have hlt := (List.getElem?_eq_some_iff.mp hb).1
    have hle := Nat.div_mul_le_self o conf.maxObjSize
    exact (h.links_length _).mpr (by omega)

omit [Wire] hconf in
/-- The objects after a store are the pieces of the file after it. -/
theorem storedIn_pieces {source destination : Data} (hissued : IssuedStore conf id source destination)
    (hsize : 0 < source.dataSize) (hgap : destination.position ≤ content.length) :
    storedIn conf .fileIo source destination (Segments.pieces conf.maxObjSize content) =
      Segments.pieces conf.maxObjSize (Overlay.overlay 0 content destination.position (sourceBytes source)) := by
  have hlength := sourceBytes_length hissued.size_le
  have hne : sourceBytes source ≠ [] := by
    apply List.ne_nil_of_length_pos
    rw [hlength]
    exact hsize
  rw [Segments.pieces_overlay 0 hgap hne (by rw [hlength]; exact hissued.inside), storedIn, written, if_pos rfl,
    fileWritten, if_neg hne]

/-- **A store overwrites or extends the file.** -/
theorem FileHeld.store (hpolicy : conf.dataDistributionPolicy ≠ .dynamicProgrammingPolicy) (h : FileHeld conf id file w)
    (draw : Nat) {source destination : Data} (hissued : IssuedStore conf id source destination)
    (hsize : 0 < source.dataSize) (hgap : destination.position ≤ (file.getD []).length)
    (hend : destination.position + source.dataSize < 2 ^ 31) :
    ∃ w', Server.store conf Env.calm draw source destination w = .ok conf.serverCount w' ∧
      FileHeld conf id (some (Overlay.overlay 0 (file.getD []) destination.position (sourceBytes source))) w' := by
  have hdiv := Nat.div_le_self destination.position conf.maxObjSize
  have hpieces := storedIn_pieces hissued hsize hgap
  have hlength := Overlay.overlay_length 0 (file.getD []) destination.position (sourceBytes source)
  rw [sourceBytes_length hissued.size_le] at hlength
  have hstored : ∃ t, target conf draw destination w = some t ∧
      ∃ m' w', Server.store conf Env.calm draw source destination w = .ok conf.serverCount w' ∧
        Filed conf id w' m' .fileIo ∧
        Spread conf id (storedIn conf t source destination (Segments.pieces conf.maxObjSize (file.getD []))) m'.links w' ∧
        (file.getD []).length < 2 ^ 31 := by
    cases file with
    | none =>
      have hzero : destination.position / conf.maxObjSize = 0 := by
        rw [Nat.le_zero.mp hgap, Nat.zero_div]
      have hcreate : ∃ t, target conf draw destination w = some t ∧ _ :=
        Spread.create h.unused (backend_zero hconf) (exclusive_zero hconf) hpolicy hissued hzero
      obtain ⟨t, htarget, -, m', w', hrun, hfiled, hspread⟩ := hcreate
      rw [show Segments.pieces conf.maxObjSize ((none : Option (List UInt8)).getD []) = fun _ => none from
        funext (Segments.pieces_nil conf.maxObjSize)]
      exact ⟨t, htarget, m', w', hrun, hfiled, hspread, by decide⟩
    | some content =>
      obtain ⟨m, hm⟩ := h.2
      have hnext : destination.position / conf.maxObjSize ≤ m.links.entries.length := by
        by_contra hgt
        have hbehind := (not_congr (hm.links_length m.links.entries.length)).mp (lt_irrefl _)
        have hle := Nat.div_mul_le_self destination.position conf.maxObjSize
        have hlt : m.links.entries.length * conf.maxObjSize <
            destination.position / conf.maxObjSize * conf.maxObjSize :=
          Nat.mul_lt_mul_of_pos_right (by omega) conf.maxObjSize_pos
        rw [Option.getD_some] at hgap
        omega
      have hstore : ∃ t, target conf draw destination w = some t ∧ _ :=
        hm.spread.store (backend_zero hconf) hm.filed hpolicy hissued hnext (by omega)
      obtain ⟨t, htarget, -, m', w', hrun, hfiled, hspread⟩ := hstore
      exact ⟨t, htarget, m', w', hrun, hfiled, hspread, hm.small⟩
  obtain ⟨t, htarget, m', w', hrun, hfiled, hspread, hsmall⟩ := hstored
  obtain rfl := target_fileIo hconf htarget
  rw [hpieces] at hspread
  have hdefined : (Server.store conf Env.calm draw source destination w).outcome ≠ .error .undefined := by
    rw [hrun]
    intro hout
    cases hout
  have hmatch := objectsMatch_step h.fileInv h.1
    (.store hissued.id_eq (fun _ => hissued.index_eq ▸ exclusive_zero hconf) hdefined)
  rw [hrun] at hmatch
  refine ⟨w', hrun, hmatch.2, m', ?_, ?_, hfiled, hspread⟩
  · apply List.ne_nil_of_length_pos
    omega
  · omega

theorem Dense.found (h : Dense conf id content m w) {request : Data} (hid : request.id = id)
    (hindex : request.storageIndex = 0) :
    MetadataOrchestrator.primaryMetadata conf Env.calm request w = .ok m w := by
  subst hid
  exact primaryMetadata_primary (hindex ▸ backend_zero hconf) rfl h.filed.primary.portable h.filed.primary.isLink_eq
    h.filed.primary.holds

/-- **A range is located as it stands in the file.** -/
theorem FileHeld.locate (h : FileHeld conf id file w) {source : Data} (hid : source.id = id)
    (hindex : source.storageIndex = 0) (hsize : 0 < source.dataSize)
    (hin : source.position + source.dataSize ≤ (file.getD []).length)
    (hend : ¬ (conf.maxObjSize ∣ source.position + source.dataSize ∧
      source.position + source.dataSize < (file.getD []).length))
    (hfits : (partSizes conf.maxObjSize source.position source.dataSize).sum < 2 ^ 31) (destination : Data) :
    Server.locate conf Env.calm source destination w =
      .ok { destination with buffer := some (((file.getD []).drop source.position).take source.dataSize) } w := by
  cases file with
  | none =>
    rw [Option.getD_none, List.length_nil] at hin
    omega
  | some content =>
    obtain ⟨m, hm⟩ := h.2
    rw [Option.getD_some] at hin hend ⊢
    have hsmall := hm.small
    have hbehind : ¬ (conf.maxObjSize ∣ source.position + source.dataSize ∧
        (source.position + source.dataSize) / conf.maxObjSize < m.links.entries.length) := by
      rintro ⟨hdvd, hlt⟩
      rw [hm.links_length, Nat.div_mul_cancel hdvd] at hlt
      exact hend ⟨hdvd, hlt⟩
    obtain ⟨bytes, hrun, hlength, hbytes⟩ := (hm.held hconf).locate hconf hm.spread.few hid hindex hsize (by omega)
      (fun o _ ho => by rw [List.getElem?_eq_getElem (by omega)]; rfl) hbehind hfits destination
    have hrange : bytes = (content.drop source.position).take source.dataSize := by
      apply List.ext_getElem?
      intro k
      by_cases hk : k < source.dataSize
      · rw [hbytes k hk, List.getElem?_take_of_lt hk, List.getElem?_drop]
      · rw [List.getElem?_eq_none (by omega), List.getElem?_eq_none (by rw [List.length_take]; omega)]
    rw [hrun, hrange]

/-- **The size of the file is its length.** -/
theorem FileHeld.size (h : FileHeld conf id file w) :
    Server.size conf Env.calm { id } w = .ok (file.getD []).length w := by
  cases file with
  | none =>
    have habsent : MetadataOrchestrator.primaryMetadata conf Env.calm { id } w = .error (.error (absentError .fileIo)) w :=
      primaryMetadata_absent (backend_zero hconf) rfl (h.2 .fileIo)
    rw [Server.size, bind_ok (tryLocate_absent habsent)]
    rfl
  | some content =>
    obtain ⟨m, hm⟩ := h.2
    have hsmall := hm.small
    have hreach : content.length ≤ m.links.entries.length * conf.maxObjSize := by
      have hbehind := (not_congr (hm.links_length m.links.entries.length)).mp (lt_irrefl _)
      omega
    have hsum : ((List.range m.links.entries.length).map fun s =>
        ((Segments.pieces conf.maxObjSize content s).getD []).length).sum = content.length := by
      simp only [Segments.pieces_length]
      rw [Segments.sum_filled, min_eq_right hreach]
    rw [hm.spread.size (backend_zero hconf) hm.filed, totalSize_eq (hsum ▸ hsmall), hsum, toSize_natCast (by omega),
      Option.getD_some]

/-- **A delete takes the whole file, and says whether there was one.** -/
theorem FileHeld.delete (h : FileHeld conf id file w) :
    ∃ w', Server.delete conf Env.calm { id } w = .ok file.isSome w' ∧ FileHeld conf id none w' := by
  cases file with
  | none =>
    have habsent : MetadataOrchestrator.primaryMetadata conf Env.calm { id } w = .error (.error (absentError .fileIo)) w :=
      primaryMetadata_absent (backend_zero hconf) rfl (h.2 .fileIo)
    exact ⟨w, bind_ok (tryLocate_absent habsent), h⟩
  | some content =>
    obtain ⟨m, hm⟩ := h.2
    have hfound : MetadataOrchestrator.primaryMetadata conf Env.calm { id } w = .ok m w := hm.found hconf rfl rfl
    obtain ⟨ds, htiles⟩ := @tiles_isSome conf _ { id } hm.spread.inOrder hm.spread.few
    have hconfigured : ∀ d ∈ ds, ∃ t, conf.backend d.destinationData.storageIndex = some t := by
      intro d hd
      obtain ⟨s, link, hlink, offset, size, position, rfl⟩ := tiles_mem htiles d hd
      obtain ⟨-, -, -, hindex⟩ := hm.filed.named _ link hlink
      exact hindex
    obtain ⟨w₁, hloop, -, -⟩ := removeObjects_run hconfigured w
    have hrun : Server.delete conf Env.calm { id } w = .ok true (swept id conf.storageSolutions w₁) := by
      have hrest := bind_ok
        (f := fun status => if status then MetadataOrchestrator.delete conf { id } else pure false) hloop
      rw [if_pos rfl, delete_run] at hrest
      exact (bind_ok (tryLocate_found hfound htiles)).trans hrest
    have hcovers : Covers conf { id } w := fun _ _ _ => ⟨Nat.zero_div _, Or.inl rfl⟩
    obtain ⟨hnone, hempty⟩ := @nothing_after_delete _ conf _ _ { id } h.fileInv h.1 hcovers hrun
    exact ⟨_, hrun, fun t s => iff_of_false (fun hne => hne (hempty t s)) (hnone.not_linked t s), hnone⟩

omit [Wire] hconf in
/-- The map is asked about one file. -/
theorem ideal_other (files : Files) (request : Request) {id : CharStruct} (hid : id ≠ request.id) :
    (ideal conf files request).2 id = files id := by
  cases request with
  | storeRequest env draw source destination =>
    show (files.storeRequest (sourceBytes source) destination) id = files id
    unfold Files.storeRequest
    split
    · rfl
    · exact Function.update_of_ne hid _ _
  | locateRequest env source destination => rfl
  | sizeRequest env request => rfl
  | deleteRequest env request => exact Function.update_of_ne hid _ _

/-- What the server does for an admissible request is what the map does. -/
theorem Request.serve_held (hpolicy : conf.dataDistributionPolicy ≠ .dynamicProgrammingPolicy) {files : Files}
    {request : Request} (h : FileHeld conf request.id (files request.id) w) (hadmissible : request.Admissible conf files) :
    ∃ w', request.serve conf w = .ok (ideal conf files request).1 w' ∧
      FileHeld conf request.id ((ideal conf files request).2 request.id) w' := by
  cases request with
  | storeRequest env draw source destination =>
    obtain ⟨rfl, hissued, hsize, hgap, hend⟩ := hadmissible
    obtain ⟨w', hrun, hheld⟩ := h.store hconf hpolicy draw hissued hsize hgap hend
    have hne : sourceBytes source ≠ [] := by
      apply List.ne_nil_of_length_pos
      rw [sourceBytes_length hissued.size_le]
      exact hsize
    refine ⟨w', bind_ok hrun, ?_⟩
    show FileHeld conf destination.id ((files.storeRequest (sourceBytes source) destination) destination.id) w'
    rw [Files.storeRequest, if_neg hne, Function.update_self]
    exact hheld
  | locateRequest env source destination =>
    obtain ⟨rfl, hindex, hsize, hin, hend, hfits⟩ := hadmissible
    exact ⟨w, bind_ok (h.locate hconf rfl hindex hsize hin hend hfits destination), h⟩
  | sizeRequest env request =>
    obtain ⟨rfl, hrequest⟩ := hadmissible
    have hrun := h.size hconf
    rw [show Request.id (.sizeRequest Env.calm request) = request.id from rfl, ← hrequest] at hrun
    exact ⟨w, bind_ok hrun, h⟩
  | deleteRequest env request =>
    obtain ⟨rfl, hrequest⟩ := hadmissible
    obtain ⟨w', hrun, hheld⟩ := h.delete hconf
    rw [show Request.id (.deleteRequest Env.calm request) = request.id from rfl, ← hrequest] at hrun
    refine ⟨w', bind_ok hrun, ?_⟩
    show FileHeld conf request.id ((files.delete request) request.id) w'
    rw [Files.delete, Function.update_self]
    exact hheld

end requests

/-! ## Runs -/

section runs

variable [Wire] {conf : ConfigurationManager} {w : Backends} {files : Files} {names : Set CharStruct}

/-- A request touches only the keys of its file. -/
theorem Request.serve_confined (request : Request) :
    EStateM.Confined (MetaInv conf request.id) (keys request.id) (fun _ => True) (request.serve conf) := by
  cases request with
  | storeRequest env draw source destination =>
    exact (server_store_confined rfl).bind fun _ _ => EStateM.Confined.pure trivial
  | locateRequest env source destination =>
    exact (server_locate_confined rfl).bind fun _ _ => EStateM.Confined.pure trivial
  | sizeRequest env request => exact (server_size_confined rfl).bind fun _ _ => EStateM.Confined.pure trivial
  | deleteRequest env request => exact (server_delete_confined rfl).bind fun _ _ => EStateM.Confined.pure trivial

/-- The state holds the files of a set. -/
def Holding (conf : ConfigurationManager) (names : Set CharStruct) (files : Files) (w : Backends) : Prop :=
  ∀ id ∈ names, FileHeld conf id (files id) w

/-- No two files of the set have a key in common. -/
def Apart (names : Set CharStruct) : Prop := ∀ a ∈ names, ∀ b ∈ names, a ≠ b → Disjoint (keys a) (keys b)

/-- Step: the server replies what the map replies, and holds the map afterwards. -/
theorem Request.serve_ideal (hconf : conf.storageSolutions = [(0, .fileIo)])
    (hpolicy : conf.dataDistributionPolicy ≠ .dynamicProgrammingPolicy) (hapart : Apart names)
    (h : Holding conf names files w) {request : Request} (hid : request.id ∈ names)
    (hadmissible : request.Admissible conf files) :
    ∃ w', request.serve conf w = .ok (ideal conf files request).1 w' ∧ Holding conf names (ideal conf files request).2 w' := by
  obtain ⟨w', hrun, hheld⟩ := Request.serve_held hconf hpolicy (h _ hid) hadmissible
  have hout := request.serve_confined.outside w ((h _ hid).metaInv hconf)
  rw [hrun, Result.final_ok] at hout
  refine ⟨w', hrun, fun id hid' => ?_⟩
  by_cases heq : id = request.id
  · rw [heq]
    exact hheld
  · rw [ideal_other files request heq]
    refine (h id hid').congr fun t k hk => (hout t k fun hk' => ?_).symm
    exact Set.disjoint_left.mp (hapart id hid' _ hid heq) hk hk'

/-- Run: **a session is served as by a map of files.** -/
theorem Session.serve_ideal (hconf : conf.storageSolutions = [(0, .fileIo)])
    (hpolicy : conf.dataDistributionPolicy ≠ .dynamicProgrammingPolicy) (hapart : Apart names) {session : Session}
    (h : Holding conf names files w) (hnames : session.Every fun request => request.id ∈ names)
    (hadmissible : session.Admissible conf files) :
    ∃ w', session.serve conf w = .ok (session.ideal conf files).1 w' ∧ Holding conf names (session.ideal conf files).2 w' := by
  induction session generalizing files w with
  | close => exact ⟨w, rfl, h⟩
  | call request next ih =>
    obtain ⟨w₁, hrun, hheld⟩ := Request.serve_ideal hconf hpolicy hapart h hnames.1 hadmissible.1
    obtain ⟨w₂, hrest, hheld'⟩ := ih _ hheld (hnames.2 _) hadmissible.2
    have hreply : (tryCatch (do return Except.ok (← request.serve conf)) fun fault => return .error fault :
        Prog (Except Fault Reply)) w = .ok (.ok (Steps.ideal conf files request).1) w₁ := attempt_ok (bind_ok hrun)
    exact ⟨w₂, (bind_ok hreply).trans (bind_ok hrest), hheld'⟩

end runs

/-! ## Two clients -/

theorem twoSessions_admissible : (twoSessions true).Admissible oneFile fun _ => none := by
  have hstored : (ideal oneFile (fun _ => none) (.storeRequest Env.calm 0 { buffer := some [7], dataSize := 1 }
      { id := [0x66, 0x31], dataSize := 1 })).2.content [0x66, 0x31] = [7] := by decide
  refine ⟨⟨rfl, ⟨rfl, rfl, rfl, rfl, by decide, by decide⟩, by decide, by decide, by decide⟩,
    ⟨rfl, rfl, by decide, ?_, ?_, by decide +kernel⟩, trivial⟩
  · show 0 + 1 ≤ (Files.content _ [0x66, 0x31]).length
    rw [hstored]
    decide
  · rintro ⟨-, hlt⟩
    have hlt' : 0 + 1 < (Files.content _ [0x66, 0x31]).length := hlt
    rw [hstored] at hlt'
    exact absurd hlt' (by decide)

end Symbios.Steps
