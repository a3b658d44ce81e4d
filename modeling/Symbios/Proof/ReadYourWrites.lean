import Symbios.Base.Segments
import Symbios.Model.Threads
import Symbios.Proof.Bounds
import Symbios.Proof.TileShape

/-!
# A file reads back what was stored in it

One file system, stores that stay inside a segment and take the segments in order. The abstract file is a function
from offsets to the bytes last stored (`lastStored`); a state holds it when the primary record links the segments in
order and every byte is in its place in the object of its segment (`Held`). Every store keeps this
(`Held.store`), and `Locate` assembles the parts of the segments to the bytes of its range (`Held.locate`), as long as
the segments fit into the `int` it counts them with.
-/

namespace Symbios

open EStateM MetadataOrchestrator DataDistributionEngine

/-! ## One file system -/

section oneSolution

variable {conf : ConfigurationManager} (hconf : conf.storageSolutions = [(0, .fileIo)])

include hconf

theorem backend_iff (i : Nat) (t : IoClientType) : conf.backend i = some t ↔ i = 0 ∧ t = .fileIo := by
  rw [backend_eq_some_iff, hconf, List.mem_singleton, Prod.mk.injEq]

theorem backend_zero : conf.backend 0 = some .fileIo := (backend_iff hconf 0 .fileIo).mpr ⟨rfl, rfl⟩

theorem exclusive_zero : Exclusive conf 0 := fun j t _ hj => ((backend_iff hconf j t).mp hj).1

theorem selectedIndex_zero (draw : Nat) (destination : Data) : selectedIndex conf draw destination = 0 := by
  obtain ⟨t, ht⟩ := selectedIndex_configured conf draw destination
  exact ((backend_iff hconf _ t).mp ht).1

end oneSolution

/-! ## The stores -/

/-- The bytes a call stores. -/
def StoreCall.bytes (call : StoreCall) : List UInt8 := (call.source.buffer.getD []).take call.source.dataSize

/-- The bytes last stored by a sequence of calls, by their offsets in the file. -/
def lastStored (calls : List StoreCall) : Nat → Option UInt8 :=
  calls.foldl (fun file call => Segments.patch file call.destination.position call.bytes) fun _ => none

/-- A store of a non-empty buffer into one segment of the file `id`. -/
structure Supported (conf : ConfigurationManager) (id : CharStruct) (call : StoreCall) : Prop where
  id_eq : call.destination.id = id
  index_eq : call.destination.storageIndex = 0
  position_eq : call.source.position = 0
  size_eq : call.source.dataSize = call.destination.dataSize
  size_pos : 0 < call.source.dataSize
  size_le : call.source.dataSize ≤ (call.source.buffer.getD []).length
  inside : call.destination.position % conf.maxObjSize + call.source.dataSize ≤ conf.maxObjSize

/-- A segment is first written after the segments in front of it. -/
def InSequence (conf : ConfigurationManager) (calls : List StoreCall) : Prop :=
  ∀ before call after, calls = before ++ call :: after →
    ∀ s < call.segment conf, ∃ earlier ∈ before, earlier.segment conf = s

/-- The calls of `Server::Store`, one after the other. -/
def storeAll [Wire] (conf : ConfigurationManager) (calls : List StoreCall) : Prog PUnit :=
  calls.forM fun call => discard (Server.store conf Env.calm call.draw call.source call.destination)

section supported

variable {conf : ConfigurationManager} {id : CharStruct} {call : StoreCall}

theorem Supported.bytes_length (h : Supported conf id call) : call.bytes.length = call.source.dataSize := by
  rw [StoreCall.bytes, List.length_take]
  exact min_eq_left h.size_le

theorem Supported.write (h : Supported conf id call) {destination : Data} (hdest : destination.position < 2 ^ 63)
    (w : Backends) :
    IoClient.write .fileIo call.source destination w =
      .ok () (w.put .fileIo destination.id
        (some (Overlay.overlay 0 ((w .fileIo destination.id).getD []) destination.position call.bytes))) := by
  have hsub : subSize call.source.dataSize call.source.position = call.source.dataSize := by
    simp [subSize, h.position_eq]
  have hne : call.bytes ≠ [] := by
    apply List.ne_nil_of_length_pos
    rw [h.bytes_length]
    exact h.size_pos
  rw [fileWrite_eq call.source hdest, hsub, h.position_eq, Nat.zero_add, if_pos h.size_le, fileWritten]
  exact congrArg (fun bytes => Result.ok () (w.put .fileIo destination.id (some bytes))) (if_neg hne)

end supported

/-! ## The state that holds a file -/

section held

variable [Wire] {conf : ConfigurationManager} {id : CharStruct} {file : Nat → Option UInt8} {m : Metadata}
  {w w' : Backends} {call : StoreCall}

/-- The links lead to the objects of their segments. -/
def Addressed (id : CharStruct) (links : Links) : Prop :=
  ∀ (s : Nat) (link : Data), links.lookup (s : Int) = some link → link.id = objectId id s ∧ link.storageIndex = 0

/-- The primary metadata `m` and the objects hold `file`. -/
structure Held (conf : ConfigurationManager) (id : CharStruct) (file : Nat → Option UInt8) (m : Metadata)
    (w : Backends) : Prop where
  filed : Filed conf id w m .fileIo
  inOrder : InOrder m.links
  addressed : Addressed id m.links
  covers : Segments.Covers conf.maxObjSize file fun s => w .fileIo (objectId id s)
  written : ∀ o b, file o = some b → o / conf.maxObjSize < m.links.entries.length

/-- The backends after the object of a call was written. -/
def putObject (conf : ConfigurationManager) (call : StoreCall) (w : Backends) : Backends :=
  w.put .fileIo (objectId call.destination.id (call.segment conf))
    (some (Overlay.overlay 0 ((w .fileIo (objectId call.destination.id (call.segment conf))).getD [])
      (call.destination.position % conf.maxObjSize) call.bytes))

omit [Wire] in
theorem putObject_objects (conf : ConfigurationManager) (call : StoreCall) (w : Backends) :
    (fun s => putObject conf call w .fileIo (objectId call.destination.id s)) =
      Function.update (fun s => w .fileIo (objectId call.destination.id s)) (call.segment conf)
        (some (Overlay.overlay 0 ((w .fileIo (objectId call.destination.id (call.segment conf))).getD [])
          (call.destination.position % conf.maxObjSize) call.bytes)) := by
  funext s
  by_cases hs : s = call.segment conf
  · rw [hs, Function.update_self]
    exact Backends.put_same ..
  · rw [Function.update_of_ne hs]
    exact Backends.put_of_key_ne _ _ _ _ fun h => hs (objectId_injective _ h)

omit [Wire] in
/-- The object of the segment a call is sent to. -/
theorem writeObjects_object (hconf : conf.storageSolutions = [(0, .fileIo)]) (hcall : Supported conf id call)
    {d : DataDistribution} (hsource : d.sourceData = call.source)
    (hid : d.destinationData.id = objectId call.destination.id (call.segment conf))
    (hposition : d.destinationData.position = call.destination.position % conf.maxObjSize)
    (hindex : d.destinationData.storageIndex = 0) (w : Backends) :
    writeObjects conf Env.calm [d] w = .ok () (putObject conf call w) := by
  have hlt : d.destinationData.position < 2 ^ 63 := by
    rw [hposition]
    exact (Nat.mod_lt _ conf.maxObjSize_pos).trans conf.maxObjSize_lt
  have hwrite : IoFactory.write conf Env.calm d.destinationData.storageIndex d.sourceData d.destinationData w =
      .ok () (putObject conf call w) := by
    rw [IoFactory.write_eq (hindex ▸ backend_zero hconf) _ rfl, hsource, hcall.write hlt w, hid, hposition]
    rfl
  exact bind_ok hwrite

/-- The file after its metadata has the link of a call and the object of the call was written. -/
theorem Held.of_putObject {w₁ : Backends} (hcall : Supported conf id call)
    (hfiled : Filed conf id (putObject conf call w₁) m .fileIo) (horder : InOrder m.links) (haddressed : Addressed id m.links)
    (hcovers : Segments.Covers conf.maxObjSize file fun s => w₁ .fileIo (objectId id s))
    (hwritten : ∀ o b, file o = some b → o / conf.maxObjSize < m.links.entries.length)
    (hsegment : call.segment conf < m.links.entries.length) :
    Held conf id (Segments.patch file call.destination.position call.bytes) m (putObject conf call w₁) where
  filed := hfiled
  inOrder := horder
  addressed := haddressed
  covers := by
    rw [← hcall.id_eq] at hcovers ⊢
    rw [putObject_objects]
    apply hcovers.patch
    rw [hcall.bytes_length]
    exact hcall.inside
  written := by
    intro o b hb
    rcases Segments.mem_of_patch hb with ⟨hle, hlt⟩ | hold
    · rw [hcall.bytes_length] at hlt
      rw [(Segments.div_mod_of_mem hcall.inside hle hlt).1]
      exact hsegment
    · exact hwritten o b hold

omit [Wire] in
theorem Extends.addressed (hconf : conf.storageSolutions = [(0, .fileIo)]) (hid : call.destination.id = id)
    {links links' : Links} (hlinks : Addressed id links) (hlt : call.segment conf < 2 ^ 63)
    (h : Extends conf.maxObjSize (distribute conf call.draw call.source call.destination) links links') :
    Addressed id links' := by
  intro s link hlookup
  rcases h.fresh _ _ hlookup with hold | ⟨d, hd, hkey, hlink⟩
  · exact hlinks s link hold
  · have hs : s = call.segment conf := by
      rw [distribute_segment d hd] at hkey
      exact_mod_cast hkey.trans (linkKey_of_lt hlt)
    rw [distribute_mem hd] at hlink
    rw [hlink, hs, ← hid]
    exact ⟨rfl, selectedIndex_zero hconf _ _⟩

theorem server_store_objects {draw : Nat} {source destination : Data} {ds : List DataDistribution} {w₁ : Backends}
    (h : MetadataOrchestrator.store conf Env.calm destination (distribute conf draw source destination) w = .ok ds w₁)
    (hobjects : writeObjects conf Env.calm ds w₁ = .ok () w') :
    Server.store conf Env.calm draw source destination w = .ok conf.serverCount w' := by
  rw [server_store_eq h]
  exact bind_ok hobjects

omit [Wire] in
/-- A store in turn keeps the order of the segments and adds its own. -/
theorem Extends.inTurn (hpolicy : conf.dataDistributionPolicy ≠ .dynamicProgrammingPolicy) {links links' : Links}
    (h : Extends conf.maxObjSize (distribute conf call.draw call.source call.destination) links links')
    (horder : InOrder links) (hnext : call.segment conf ≤ links.entries.length) (hlt : call.segment conf < 2 ^ 63) :
    InOrder links' ∧ ∀ s, s < links'.entries.length ↔ s < links.entries.length ∨ s = call.segment conf := by
  obtain ⟨horder', hlength⟩ := h.inOrder horder (distribute_sequential hnext)
    fun d hd => (distribute_segment d hd).symm ▸ hlt
  rw [distribute_eq hpolicy] at hlength
  simp only [List.mem_singleton, exists_eq_left] at hlength
  exact ⟨horder', hlength⟩

omit [Wire] in
/-- The object a store into an existing file writes. -/
theorem updateLinks_object (hconf : conf.storageSolutions = [(0, .fileIo)])
    (hpolicy : conf.dataDistributionPolicy ≠ .dynamicProgrammingPolicy) (hcall : Supported conf id call)
    (hlt : call.segment conf < 2 ^ 63) {links : Links}
    (haddressed : Addressed call.destination.id
      (updateLinks conf.maxObjSize (distribute conf call.draw call.source call.destination) links).2.1) (w : Backends) :
    writeObjects conf Env.calm
      (updateLinks conf.maxObjSize (distribute conf call.draw call.source call.destination) links).1 w =
        .ok () (putObject conf call w) := by
  rw [distribute_eq hpolicy] at haddressed ⊢
  obtain ⟨d, hd, hsource, hposition, link, hlookup, hid, hindex⟩ :=
    updateLinks_singleton conf.maxObjSize (sent conf call.draw call.source call.destination) links
  have hkey : linkKey ((sent conf call.draw call.source call.destination).segment conf.maxObjSize) =
    (call.segment conf : Int) := linkKey_of_lt hlt
  rw [hkey] at hlookup
  obtain ⟨hname, hzero⟩ := haddressed _ link hlookup
  rw [hd]
  exact writeObjects_object hconf hcall hsource (hid.trans hname) hposition (hindex.trans hzero) w

/-- A store into a file that is there. -/
theorem Held.store (hconf : conf.storageSolutions = [(0, .fileIo)])
    (hpolicy : conf.dataDistributionPolicy ≠ .dynamicProgrammingPolicy) (h : Held conf id file m w)
    (hcall : Supported conf id call) (hnext : call.segment conf ≤ m.links.entries.length)
    (hlt : call.segment conf < 2 ^ 63) {tls : List DataDistribution} (htiles : tiles conf m.links call.destination = some tls) :
    ∃ m' w', Server.store conf Env.calm call.draw call.source call.destination w = .ok conf.serverCount w' ∧
      Held conf id (Segments.patch file call.destination.position call.bytes) m' w' ∧
      ∀ s, s < m'.links.entries.length ↔ s < m.links.entries.length ∨ s = call.segment conf := by
  obtain rfl := hcall.id_eq
  have hextends : Extends conf.maxObjSize (distribute conf call.draw call.source call.destination) m.links
      (grownMetadata conf m (distribute conf call.draw call.source call.destination)).links := updateLinks_extends _ _ _
  have haddressed := hextends.addressed hconf rfl h.addressed hlt
  obtain ⟨horder, hlength⟩ := hextends.inTurn hpolicy h.inOrder hnext hlt
  have hobjects := updateLinks_object hconf hpolicy hcall hlt haddressed
  have hprimary : primaryMetadata conf Env.calm call.destination w = .ok m w :=
    primaryMetadata_primary (hcall.index_eq ▸ backend_zero hconf) rfl h.filed.primary.portable h.filed.primary.isLink_eq
      h.filed.primary.holds
  have hstore := store_found (lookupFile_found hprimary htiles) h.filed.index rfl
    (distribute conf call.draw call.source call.destination)
  refine ⟨grownMetadata conf m (distribute conf call.draw call.source call.destination), _,
    server_store_objects hstore (hobjects _), ?_, hlength⟩
  apply Held.of_putObject hcall (h.filed.of_grow (hobjects _)) horder haddressed
  · -- the record is no object
    convert h.covers using 2 with s
    split
    · exact putRecord_of_key_ne _ _ _ _ (objectId_ne_metaId _ _)
    · rfl
  · intro o b hb
    exact (hlength _).mpr (Or.inl (h.written o b hb))
  · exact (hlength _).mpr (Or.inr rfl)

/-- The store that creates the file. -/
theorem Held.create (hconf : conf.storageSolutions = [(0, .fileIo)])
    (hpolicy : conf.dataDistributionPolicy ≠ .dynamicProgrammingPolicy) (hnone : NoRecord id w)
    (hcall : Supported conf id call) (hfirst : call.segment conf = 0) :
    ∃ m' w', Server.store conf Env.calm call.draw call.source call.destination w = .ok conf.serverCount w' ∧
      Held conf id (Segments.patch (fun _ => none) call.destination.position call.bytes) m' w' ∧
      ∀ s, s < m'.links.entries.length ↔ s = call.segment conf := by
  obtain rfl := hcall.id_eq
  have hindex : conf.backend call.destination.storageIndex = some .fileIo := hcall.index_eq ▸ backend_zero hconf
  have hextends : Extends conf.maxObjSize (distribute conf call.draw call.source call.destination) ∅
      (newMetadata conf call.destination (distribute conf call.draw call.source call.destination)).links :=
    createLinks_extends _ _ _
  have haddressed := hextends.addressed hconf rfl (fun _ _ h => by cases h) (by omega)
  obtain ⟨horder, hlength⟩ := hextends.inTurn hpolicy inOrder_empty (by omega) (by omega)
  have hobjects : ∀ w₁, writeObjects conf Env.calm
      (createLinks conf.maxObjSize (distribute conf call.draw call.source call.destination) ∅).1 w₁ =
        .ok () (putObject conf call w₁) := by
    intro w₁
    rw [createLinks_fst, distribute_eq hpolicy]
    exact writeObjects_object hconf hcall rfl rfl rfl (selectedIndex_zero hconf _ _) w₁
  have hstore := store_new (lookupFile_new hindex (hnone .fileIo)) hindex (fun _ => rfl)
    (distribute conf call.draw call.source call.destination)
  refine ⟨newMetadata conf call.destination (distribute conf call.draw call.source call.destination), _,
    server_store_objects hstore (hobjects _), ?_, fun s => (hlength s).trans (or_iff_right (Nat.not_lt_zero s))⟩
  apply Held.of_putObject hcall (Filed.of_create hnone hindex (hcall.index_eq ▸ exclusive_zero hconf) (hobjects _))
    horder haddressed
  · exact Segments.Covers.empty _ _
  · intro o b hb
    cases hb
  · exact (hlength _).mpr (Or.inr rfl)

/-! ## Runs of stores -/

/-- The state after `calls`: the file is not there before the first of them, and held afterwards. -/
def Stored (conf : ConfigurationManager) (id : CharStruct) (calls : List StoreCall) (w : Backends) : Prop :=
  calls = [] ∧ NoRecord id w ∨
    ∃ m, Held conf id (lastStored calls) m w ∧
      ∀ s, s < m.links.entries.length ↔ ∃ call ∈ calls, call.segment conf = s

/-- The existence check of `call` passes when the segments of `before` are linked. -/
def Passes (conf : ConfigurationManager) (before : List StoreCall) (call : StoreCall) : Prop :=
  ∀ links : Links, InOrder links → (∀ s, s < links.entries.length ↔ ∃ earlier ∈ before, earlier.segment conf = s) →
    ∃ tls, tiles conf links call.destination = some tls

omit [Wire] in
theorem lastStored_concat (calls : List StoreCall) (call : StoreCall) :
    lastStored (calls ++ [call]) = Segments.patch (lastStored calls) call.destination.position call.bytes :=
  List.foldl_concat ..

theorem Stored.step (hconf : conf.storageSolutions = [(0, .fileIo)])
    (hpolicy : conf.dataDistributionPolicy ≠ .dynamicProgrammingPolicy) {calls : List StoreCall}
    (h : Stored conf id calls w) (hcall : Supported conf id call)
    (hseq : ∀ s < call.segment conf, ∃ earlier ∈ calls, earlier.segment conf = s) (hlt : call.segment conf < 2 ^ 63)
    (hpasses : Passes conf calls call) :
    ∃ w', Server.store conf Env.calm call.draw call.source call.destination w = .ok conf.serverCount w' ∧
      Stored conf id (calls ++ [call]) w' := by
  rcases h with ⟨rfl, hnone⟩ | ⟨m, hm, hlength⟩
  · have hfirst : call.segment conf = 0 := by
      by_contra hne
      obtain ⟨earlier, hmem, -⟩ := hseq 0 (by omega)
      cases hmem
    obtain ⟨m', w', hrun, hheld, hlength'⟩ := Held.create hconf hpolicy hnone hcall hfirst
    refine ⟨w', hrun, Or.inr ⟨m', hheld, fun s => ?_⟩⟩
    rw [hlength' s]
    simp [eq_comm]
  · have hnext : call.segment conf ≤ m.links.entries.length := by
      by_contra hgt
      exact absurd ((hlength _).mpr (hseq m.links.entries.length (by omega))) (lt_irrefl _)
    obtain ⟨tls, htiles⟩ := hpasses m.links hm.inOrder hlength
    obtain ⟨m', w', hrun, hheld, hlength'⟩ := hm.store hconf hpolicy hcall hnext hlt htiles
    refine ⟨w', hrun, Or.inr ⟨m', ?_, fun s => ?_⟩⟩
    · rw [lastStored_concat]
      exact hheld
    · rw [hlength' s, hlength s]
      simp [or_and_right, exists_or, eq_comm]

/-- Stores in sequence whose existence checks pass all return, and the state holds what they stored. -/
theorem storeAll_stored (hconf : conf.storageSolutions = [(0, .fileIo)])
    (hpolicy : conf.dataDistributionPolicy ≠ .dynamicProgrammingPolicy) (hnone : NoRecord id w) {calls : List StoreCall}
    (hcalls : ∀ call ∈ calls, Supported conf id call ∧ call.segment conf < 2 ^ 63) (hseq : InSequence conf calls)
    (hpasses : ∀ before call after, calls = before ++ call :: after → Passes conf before call) :
    ∃ w', storeAll conf calls w = .ok () w' ∧ Stored conf id calls w' := by
  induction calls using List.reverseRecOn with
  | nil => exact ⟨w, rfl, Or.inl ⟨rfl, hnone⟩⟩
  | append_singleton calls call ih =>
    obtain ⟨w₁, hrun, hstored⟩ := ih (fun c hc => hcalls c (by simp [hc]))
      (fun before c after h => hseq before c (after ++ [call]) (by simp [h]))
      (fun before c after h => hpasses before c (after ++ [call]) (by simp [h]))
    obtain ⟨hsupported, hlt⟩ := hcalls call (by simp)
    obtain ⟨w₂, hstore, hstored'⟩ := hstored.step hconf hpolicy hsupported (hseq calls call [] rfl) hlt
      (hpasses calls call [] rfl)
    refine ⟨w₂, ?_, hstored'⟩
    have happend : storeAll conf (calls ++ [call]) = (do storeAll conf calls; storeAll conf [call]) := List.forM_append
    rw [happend, bind_ok hrun]
    exact bind_ok (bind_ok hstore)

end held

/-! ## The parts of a request -/

section parts

variable {conf : ConfigurationManager} {w : Backends} {d : DataDistribution}

/-- The bytes a distribution reads of its object. -/
def chunk (w : Backends) (d : DataDistribution) : List UInt8 :=
  (((w .fileIo d.sourceData.id).getD []).drop d.sourceData.position).take d.sourceData.dataSize

/-- The part a distribution leaves: its bytes, behind as many as the parts in front of it have. -/
def partOf (w : Backends) (d : DataDistribution) : Data :=
  { d.destinationData with
    buffer := some (List.replicate d.destinationData.position 0 ++ chunk w d)
    dataSize := d.destinationData.position + d.sourceData.dataSize }

/-- The bytes of a distribution are in its object. -/
structure Readable (conf : ConfigurationManager) (w : Backends) (d : DataDistribution) : Prop where
  backend_eq : conf.backend d.destinationData.storageIndex = some .fileIo
  object : ∃ object, w .fileIo d.sourceData.id = some object ∧
    d.sourceData.position + d.sourceData.dataSize ≤ object.length
  size_pos : 0 < d.sourceData.dataSize
  source_lt : d.sourceData.position < 2 ^ 63
  destination_lt : d.destinationData.position < 2 ^ 63

theorem Readable.chunk_length (h : Readable conf w d) : (chunk w d).length = d.sourceData.dataSize := by
  obtain ⟨object, hobject, hle⟩ := h.object
  simp only [chunk, hobject, Option.getD_some, List.length_take, List.length_drop]
  omega

theorem Readable.read (h : Readable conf w d) :
    IoFactory.read conf Env.calm d.destinationData.storageIndex d.sourceData d.destinationData w =
      .ok (partOf w d) w := by
  obtain ⟨object, hobject, hle⟩ := h.object
  have hlength := h.chunk_length
  simp only [chunk, hobject, Option.getD_some] at hlength
  have hsize := h.size_pos
  have hsource := h.source_lt
  have hdestination := h.destination_lt
  rw [IoFactory.read_eq h.backend_eq rfl, fileRead_eq hobject, fileRequest, if_neg (by omega : ¬ d.sourceData.dataSize = 0),
    if_neg (by omega), if_neg (by omega), if_pos hlength, hlength, partOf, chunk, hobject]
  rfl

theorem Readable.window (h : Readable conf w d) : Server.window (partOf w d) w = .ok (chunk w d) w := by
  have hlength := h.chunk_length
  rw [Server.window, partOf]
  dsimp only
  rw [if_neg (by omega), slice_of_le (by simp [hlength])]
  simp [hlength]

theorem mapM_map_ok {α β γ : Type} {f : β → Prog γ} {p : α → β} {g : α → γ} {l : List α}
    (h : ∀ a ∈ l, f (p a) w = .ok (g a) w) : (l.map p).mapM f w = .ok (l.map g) w := by
  induction l with
  | nil => rfl
  | cons a l ih =>
    rw [List.map_cons, List.mapM_cons, bind_ok (h a (by simp)), bind_ok (ih fun b hb => h b (by simp [hb]))]
    rfl

/-- The accumulator is the sum, as an `int`. -/
theorem totalSize_toInt (sizes : List Nat) : Server.totalSize sizes = toInt (sizes.sum : Nat) := by
  have hfold : ∀ (sizes : List Nat) (total : Int),
      sizes.foldl (fun (total : Int) (size : Nat) => toInt (total + size)) (toInt total) =
        toInt (total + (sizes.sum : Nat)) := by
    intro sizes
    induction sizes with
    | nil => simp
    | cons size sizes ih =>
      intro total
      have hstep : toInt (toInt total + size) = toInt (total + size) := by
        unfold toInt
        rw [Int.bmod_add_bmod]
      rw [List.foldl_cons, hstep, ih (total + size), List.sum_cons, Int.natCast_add, Int.add_assoc]
  rw [Server.totalSize, show (0 : Int) = toInt 0 from rfl, hfold sizes 0, Int.zero_add]

theorem totalSize_eq {sizes : List Nat} (h : sizes.sum < 2 ^ 31) : Server.totalSize sizes = sizes.sum := by
  rw [totalSize_toInt, toInt_of_lt h]

/-- `Server::Locate` of distributions whose bytes are there. -/
theorem server_locate_readable [Wire] {source destination : Data} {ds : List DataDistribution} {m : Metadata}
    (hlocate : MetadataOrchestrator.locate conf Env.calm source w = .ok (ds, m) w) (hread : ∀ d ∈ ds, Readable conf w d)
    (hfits : ((ds.flatMap (chunk w)).length : Int) ≤ Server.totalSize ((ds.map (partOf w)).map (·.dataSize))) :
    Server.locate conf Env.calm source destination w =
      .ok { destination with buffer := some (ds.flatMap (chunk w)) } w := by
  have hparts : ds.mapM (fun d => IoFactory.read conf Env.calm d.destinationData.storageIndex d.sourceData
      d.destinationData) w = .ok (ds.map (partOf w)) w := by
    have h := mapM_map_ok (p := fun d => d) fun d hd => (hread d hd).read
    rwa [List.map_id'] at h
  have hwindows : (ds.map (partOf w)).mapM Server.window w = .ok (ds.map (chunk w)) w :=
    mapM_map_ok fun d hd => (hread d hd).window
  rw [Server.locate, bind_ok hlocate, bind_ok hparts, bind_ok hwindows]
  rw [List.flatMap_def] at hfits ⊢
  rw [if_pos hfits]
  rfl

end parts

/-! ## Locate -/

/-- The sizes that `Locate` adds up: every part is read behind as many bytes as the parts in front of it have. -/
def partSizes (maxObjSize position dataSize : Nat) : List Nat :=
  (List.range ((position + dataSize - 1) / maxObjSize - position / maxObjSize + 1)).map fun j =>
    min ((position / maxObjSize + j + 1) * maxObjSize) (position + dataSize) - position

/-- The last part has the size of the whole range. -/
theorem mem_partSizes {maxObjSize position dataSize : Nat} (hM : 0 < maxObjSize) (hsize : 0 < dataSize) :
    dataSize ∈ partSizes maxObjSize position dataSize := by
  rw [partSizes, List.mem_map]
  refine ⟨(position + dataSize - 1) / maxObjSize - position / maxObjSize, by simp, ?_⟩
  have hle : position / maxObjSize ≤ (position + dataSize - 1) / maxObjSize := Nat.div_le_div_right (by omega)
  have hlt := Nat.lt_mul_div_succ (position + dataSize - 1) hM
  rw [Nat.mul_comm] at hlt
  rw [Nat.add_sub_cancel' hle, min_eq_right (by omega)]
  omega

section ends

variable {maxObjSize p e start : Nat} (hM : 0 < maxObjSize)

include hM

/-- Where the parts end, when the range ends in the segment of `start`. -/
theorem ends_last (hstart : start < e) (hlast : e - start ≤ maxObjSize - start % maxObjSize) :
    ((List.range ((e - 1) / maxObjSize - start / maxObjSize + 1)).map fun j =>
      min ((start / maxObjSize + j + 1) * maxObjSize) e - p) = [e - p] := by
  have hnext := Segments.next_segment hM start
  have hoff := Nat.mod_lt start hM
  have hin : start % maxObjSize + (e - start) ≤ maxObjSize := by omega
  have hsegment : (e - 1) / maxObjSize = start / maxObjSize :=
    (Segments.div_mod_of_mem hin (by omega) (by omega)).1
  rw [hsegment, Nat.sub_self]
  simp only [Nat.zero_add, List.range_one, List.map_singleton, Nat.add_zero]
  rw [min_eq_right (by omega)]

/-- Where the parts end, when the range goes on behind the segment of `start`. -/
theorem ends_cons (hmore : start + (maxObjSize - start % maxObjSize) < e) :
    ((List.range ((e - 1) / maxObjSize - start / maxObjSize + 1)).map fun j =>
        min ((start / maxObjSize + j + 1) * maxObjSize) e - p) =
      (start + (maxObjSize - start % maxObjSize) - p) ::
        (List.range ((e - 1) / maxObjSize - (start + (maxObjSize - start % maxObjSize)) / maxObjSize + 1)).map fun j =>
          min (((start + (maxObjSize - start % maxObjSize)) / maxObjSize + j + 1) * maxObjSize) e - p := by
  have hnext := Segments.next_segment hM start
  have hdiv := Segments.next_segment_div hM start
  have hlater : start / maxObjSize + 1 ≤ (e - 1) / maxObjSize := by
    apply (Nat.le_div_iff_mul_le hM).mpr
    omega
  have hcount : (e - 1) / maxObjSize - start / maxObjSize + 1 =
      (e - 1) / maxObjSize - (start / maxObjSize + 1) + 1 + 1 := by omega
  rw [hcount, List.range_succ_eq_map, List.map_cons, List.map_map, hdiv]
  congr 1
  · rw [Nat.add_zero, ← hnext, min_eq_left (by omega)]
  · apply List.map_congr_left
    intro j _
    rw [Function.comp_apply, Nat.add_right_comm _ 1 j]
    rfl

end ends

section locate

variable [Wire] {conf : ConfigurationManager} {id : CharStruct} {file : Nat → Option UInt8} {m : Metadata}
  {w : Backends}

/-- One turn of the loop: the bytes from `start` up to the end of the range or of the segment. -/
theorem Held.readable (hconf : conf.storageSolutions = [(0, .fileIo)]) (h : Held conf id file m w) {link : Data}
    {start : Nat} (size position : Nat) (hlink : m.links.lookup ((start / conf.maxObjSize : Nat) : Int) = some link)
    (hsize : 0 < size) (hin : start % conf.maxObjSize + size ≤ conf.maxObjSize) (hposition : position < 2 ^ 31)
    (hall : ∀ o, start ≤ o → o < start + size → (file o).isSome) :
    Readable conf w (tileAt link (start % conf.maxObjSize) size position) ∧
      ∀ k < size, (chunk w (tileAt link (start % conf.maxObjSize) size position))[k]? = file (start + k) := by
  obtain ⟨hid, hindex⟩ := h.addressed _ _ hlink
  obtain ⟨object, hobject, hle, hget⟩ := h.covers.slice hsize hin hall
  have hlt := Nat.mod_lt start conf.maxObjSize_pos
  have hmax := conf.maxObjSize_lt
  have hread : w .fileIo link.id = some object := by rw [hid, hobject]
  refine ⟨⟨?_, ⟨object, hread, hle⟩, hsize, hlt.trans hmax, ?_⟩, ?_⟩
  · show conf.backend link.storageIndex = _
    rw [hindex]
    exact backend_zero hconf
  · show toSize position < 2 ^ 63
    rw [toSize_natCast (by omega)]
    omega
  · intro k hk
    rw [← hget k hk, chunk]
    show ((((w .fileIo link.id).getD []).drop _).take _)[k]? = _
    rw [hread]
    rfl

end locate

/-- The distributions `ds` give the bytes of `file` from `start` to `e`, for a request that began at `p`. -/
structure Assembles (conf : ConfigurationManager) (w : Backends) (file : Nat → Option UInt8) (p e start : Nat)
    (ds : List DataDistribution) : Prop where
  readable : ∀ d ∈ ds, Readable conf w d
  length_eq : (ds.flatMap (chunk w)).length = e - start
  bytes : ∀ k < e - start, (ds.flatMap (chunk w))[k]? = file (start + k)
  sizes : ds.map (fun d => (partOf w d).dataSize) =
    (List.range ((e - 1) / conf.maxObjSize - start / conf.maxObjSize + 1)).map fun j =>
      min ((start / conf.maxObjSize + j + 1) * conf.maxObjSize) e - p

section assembles

variable {conf : ConfigurationManager} {w : Backends} {file : Nat → Option UInt8} {p e start : Nat} {d : DataDistribution}
  {ds : List DataDistribution}

/-- The range ends in the segment of `start`. -/
theorem Assembles.last (hd : Readable conf w d) (hsize : d.sourceData.dataSize = e - start)
    (hposition : d.destinationData.position = start - p) (hbytes : ∀ k < e - start, (chunk w d)[k]? = file (start + k))
    (hp : p ≤ start) (hstart : start < e) (hlast : e - start ≤ conf.maxObjSize - start % conf.maxObjSize) :
    Assembles conf w file p e start [d] where
  readable := by simpa using hd
  length_eq := by simpa [hsize] using hd.chunk_length
  bytes := by simpa using hbytes
  sizes := by
    rw [ends_last conf.maxObjSize_pos hstart hlast, List.map_singleton, partOf, hsize, hposition]
    dsimp only
    congr 1
    omega

/-- The range goes on behind the segment of `start`. -/
theorem Assembles.cons (hd : Readable conf w d)
    (hsize : d.sourceData.dataSize = conf.maxObjSize - start % conf.maxObjSize)
    (hposition : d.destinationData.position = start - p)
    (hbytes : ∀ k < conf.maxObjSize - start % conf.maxObjSize, (chunk w d)[k]? = file (start + k)) (hp : p ≤ start)
    (hmore : start + (conf.maxObjSize - start % conf.maxObjSize) < e)
    (h : Assembles conf w file p e (start + (conf.maxObjSize - start % conf.maxObjSize)) ds) :
    Assembles conf w file p e start (d :: ds) where
  readable := by
    intro d' hd'
    rcases List.mem_cons.mp hd' with rfl | hd'
    · exact hd
    · exact h.readable d' hd'
  length_eq := by
    rw [List.flatMap_cons, List.length_append, h.length_eq, hd.chunk_length, hsize]
    omega
  bytes := by
    intro k hk
    have hlength := hd.chunk_length
    rw [List.flatMap_cons]
    by_cases hfirst : k < conf.maxObjSize - start % conf.maxObjSize
    · rw [List.getElem?_append_left (by omega), hbytes k hfirst]
    · rw [List.getElem?_append_right (by omega), h.bytes _ (by omega)]
      congr 1
      omega
  sizes := by
    rw [ends_cons conf.maxObjSize_pos hmore, List.map_cons, h.sizes, partOf, hsize, hposition]
    dsimp only
    congr 1
    omega

end assembles

section locate

variable [Wire] {conf : ConfigurationManager} {id : CharStruct} {file : Nat → Option UInt8} {m : Metadata}
  {w : Backends}

/-- A cut of a written range gives its bytes. -/
theorem Held.assembles (hconf : conf.storageSolutions = [(0, .fileIo)]) (h : Held conf id file m w) {p e start : Nat}
    {position : Int} {ds : List DataDistribution} (hsmall : e - p < 2 ^ 31)
    (hall : ∀ o, p ≤ o → o < e → (file o).isSome) (hcut : Cut conf.maxObjSize m.links e start position ds) :
    p ≤ start → start < e → position = ((start - p : Nat) : Int) → Assembles conf w file p e start ds := by
  induction hcut with
  | done =>
    intro _ hlt
    exact absurd hlt (lt_irrefl _)
  | @turn start size position link ds hstart hlink hsize hrest ih =>
    intro hp _ hposition
    subst hposition
    have hle := hrest.start_le
    have hoff := Nat.mod_lt start conf.maxObjSize_pos
    obtain ⟨hreadable, hbytes⟩ := h.readable hconf size (start - p) hlink (by omega) (by omega)
      (by omega) fun o ho ho' => hall o (by omega) (by omega)
    have hposition : toSize ((start - p : Nat) : Int) = start - p := toSize_natCast (by omega)
    by_cases hmore : start + size < e
    · obtain rfl : size = conf.maxObjSize - start % conf.maxObjSize := by omega
      refine Assembles.cons hreadable rfl hposition hbytes hp hmore (ih (by omega) hmore ?_)
      rw [← Int.natCast_add, toInt_of_lt (by omega)]
      congr 1
      omega
    · obtain rfl : size = e - start := by omega
      rw [Nat.add_sub_cancel' hstart.le] at hrest
      rw [hrest.eq_nil]
      exact Assembles.last hreadable rfl hposition hbytes hp hstart (by omega)

/-- `Locate` returns the bytes of a range that has been written. -/
theorem Held.locate (hconf : conf.storageSolutions = [(0, .fileIo)]) (h : Held conf id file m w)
    (hlen : m.links.entries.length < 2 ^ 31) {source : Data} (hid : source.id = id) (hindex : source.storageIndex = 0)
    (hsize : 0 < source.dataSize) (hlt : source.position + source.dataSize < 2 ^ 64)
    (hall : ∀ o, source.position ≤ o → o < source.position + source.dataSize → (file o).isSome)
    (hend : ¬ (conf.maxObjSize ∣ source.position + source.dataSize ∧
      (source.position + source.dataSize) / conf.maxObjSize < m.links.entries.length))
    (hfits : (partSizes conf.maxObjSize source.position source.dataSize).sum < 2 ^ 31) (destination : Data) :
    ∃ bytes, Server.locate conf Env.calm source destination w = .ok { destination with buffer := some bytes } w ∧
      bytes.length = source.dataSize ∧ ∀ k < source.dataSize, bytes[k]? = file (source.position + k) := by
  obtain rfl := hid
  have hprimary : primaryMetadata conf Env.calm source w = .ok m w :=
    primaryMetadata_primary (hindex ▸ backend_zero hconf) rfl h.filed.primary.portable h.filed.primary.isLink_eq
      h.filed.primary.holds
  have hlast : (source.position + source.dataSize - 1) / conf.maxObjSize < m.links.entries.length := by
    obtain ⟨b, hb⟩ := Option.isSome_iff_exists.mp (hall (source.position + source.dataSize - 1) (by omega) (by omega))
    exact h.written _ b hb
  have hle : source.dataSize ≤ (partSizes conf.maxObjSize source.position source.dataSize).sum :=
    List.le_sum_of_mem (mem_partSizes conf.maxObjSize_pos hsize)
  obtain ⟨ds, htiles, hcut⟩ := tiles_cut hsize h.inOrder hlt hlast (by omega) hend
  have hds := h.assembles hconf (by omega) hall hcut le_rfl (by omega) (by simp)
  have hlength : (ds.flatMap (chunk w)).length = source.dataSize := by
    rw [hds.length_eq]
    omega
  refine ⟨_, server_locate_readable (locate_ok hprimary htiles) hds.readable ?_, hlength, ?_⟩
  · rw [List.map_map, show (fun d => d.dataSize) ∘ partOf w = fun d => (partOf w d).dataSize from rfl, hds.sizes, hlength]
    rw [partSizes] at hfits hle
    rw [totalSize_eq hfits]
    exact_mod_cast hle
  · intro k hk
    exact hds.bytes k (by omega)

end locate

/-! ## Stores and then a read -/

/-- A request for bytes that `calls` have stored, which does not end where a linked segment starts and whose sizes
add up inside an `int`. -/
structure Covered (conf : ConfigurationManager) (id : CharStruct) (calls : List StoreCall) (source : Data) : Prop where
  id_eq : source.id = id
  index_eq : source.storageIndex = 0
  size_pos : 0 < source.dataSize
  end_lt : source.position + source.dataSize < 2 ^ 64
  stored : ∀ o, source.position ≤ o → o < source.position + source.dataSize → (lastStored calls o).isSome
  ends : ¬ (conf.maxObjSize ∣ source.position + source.dataSize ∧
    ∃ call ∈ calls, call.segment conf = (source.position + source.dataSize) / conf.maxObjSize)
  fits : (partSizes conf.maxObjSize source.position source.dataSize).sum < 2 ^ 31

section run

variable [Wire] {conf : ConfigurationManager} {id : CharStruct} {w : Backends} {calls : List StoreCall}

/-- **Stores that stay below segment `2 ^ 31 - 1` all return, and afterwards `Locate` returns the bytes that were
last stored.** -/
theorem read_your_writes (hconf : conf.storageSolutions = [(0, .fileIo)])
    (hpolicy : conf.dataDistributionPolicy ≠ .dynamicProgrammingPolicy) (hnone : NoRecord id w)
    (hcalls : ∀ call ∈ calls, Supported conf id call) (hseq : InSequence conf calls)
    (hsmall : ∀ call ∈ calls, call.segment conf + 1 < 2 ^ 31) :
    ∃ w', storeAll conf calls w = .ok () w' ∧ ∀ source destination, Covered conf id calls source →
      ∃ bytes, Server.locate conf Env.calm source destination w' = .ok { destination with buffer := some bytes } w' ∧
        bytes.length = source.dataSize ∧ ∀ k < source.dataSize, bytes[k]? = lastStored calls (source.position + k) := by
  have hlinks : ∀ (links : Links) (before : List StoreCall), (∀ call ∈ before, call ∈ calls) →
      (∀ s, s < links.entries.length ↔ ∃ call ∈ before, call.segment conf = s) → links.entries.length < 2 ^ 31 := by
    intro links before hbefore hlength
    by_contra hge
    obtain ⟨call, hmem, hsegment⟩ := (hlength (2 ^ 31 - 1)).mp (by omega)
    have hlt := hsmall call (hbefore call hmem)
    omega
  obtain ⟨w', hrun, hstored⟩ := storeAll_stored hconf hpolicy hnone
    (fun call hcall => ⟨hcalls call hcall, by have := hsmall call hcall; omega⟩) hseq (by
      rintro before call after rfl links horder hlength
      exact tiles_isSome horder (hlinks links before (fun c hc => by simp [hc]) hlength))
  refine ⟨w', hrun, fun source destination hsource => ?_⟩
  rcases hstored with ⟨rfl, -⟩ | ⟨m, hheld, hlength⟩
  · -- nothing is stored before the first call
    have hpos := hsource.size_pos
    have habsurd := hsource.stored source.position le_rfl (by omega)
    cases habsurd
  · apply hheld.locate hconf (hlinks m.links calls (fun _ h => h) hlength) hsource.id_eq hsource.index_eq hsource.size_pos
      hsource.end_lt hsource.stored _ hsource.fits
    rintro ⟨hdvd, hlt⟩
    exact hsource.ends ⟨hdvd, (hlength _).mp hlt⟩

end run

/-! ## A full segment, an overwrite and the next segment -/

/-- Bytes for the file `f`. -/
def storeBytes (position : Nat) (bytes : List UInt8) : StoreCall where
  source := { buffer := some bytes, dataSize := bytes.length }
  destination := { id := [0x66], position, dataSize := bytes.length }

/-- A full segment, an overwrite, and a part of the next segment. -/
def threeStores : List StoreCall := [storeBytes 0 [1, 2, 3, 4], storeBytes 1 [9], storeBytes 4 [5, 6]]

theorem storeBytes_supported {conf : ConfigurationManager} {position : Nat} {bytes : List UInt8} (hne : bytes ≠ [])
    (hin : position % conf.maxObjSize + bytes.length ≤ conf.maxObjSize) :
    Supported conf [0x66] (storeBytes position bytes) :=
  ⟨rfl, rfl, rfl, rfl, List.length_pos_of_ne_nil hne, le_rfl, hin⟩

theorem oneFile_reads_back :
    ∃ w', storeAll oneFile threeStores (fun _ _ => none) = .ok () w' ∧
      ∃ bytes, Server.locate oneFile Env.calm { id := [0x66], position := 1, dataSize := 5 } {} w' =
          .ok { buffer := some bytes } w' ∧ bytes.length = 5 ∧ ∀ k < 5, bytes[k]? = lastStored threeStores (1 + k) := by
  have hcalls : ∀ call ∈ threeStores, Supported oneFile [0x66] call := by
    intro call hcall
    simp only [threeStores, List.mem_cons, List.not_mem_nil, or_false] at hcall
    rcases hcall with rfl | rfl | rfl <;> exact storeBytes_supported (by decide) (by decide)
  have hseq : InSequence oneFile threeStores := by
    intro before call after h s hs
    match before, h with
    | [], h =>
      cases h
      cases hs
    | [_], h =>
      cases h
      cases hs
    | [_, _], h =>
      cases h
      refine ⟨_, List.mem_cons_self, ?_⟩
      exact (Nat.lt_one_iff.mp hs).symm
    | _ :: _ :: _ :: _, h => simp [threeStores] at h
  have hcovered : Covered oneFile [0x66] threeStores { id := [0x66], position := 1, dataSize := 5 } := by
    refine ⟨rfl, rfl, by decide, by decide, ?_, by decide, by decide⟩
    intro o hle hlt
    have hlt' : o < 6 := hlt
    interval_cases o <;> decide
  obtain ⟨w', hrun, hread⟩ := read_your_writes (w := fun _ _ => none) rfl (by decide) (fun _ => rfl) hcalls hseq
    (by decide)
  exact ⟨w', hrun, hread _ {} hcovered⟩

/-! ## The counter of `Locate` -/

/-- One file system with segments of one byte. -/
def byteSegments : ConfigurationManager := .config 1 [.fileIo] .randomPolicy (by decide) oneSolution

/-- A byte for each of the first `n` offsets of the file `f`. -/
def manyBytes (n : Nat) : List StoreCall := (List.range n).map fun k => storeBytes k [7]

theorem manyBytes_segment (k : Nat) : (storeBytes k [7]).segment byteSegments = k := Nat.div_one k

theorem manyBytes_touches (n s : Nat) : (∃ call ∈ manyBytes n, call.segment byteSegments = s) ↔ s < n := by
  simp [manyBytes, manyBytes_segment]

theorem manyBytes_supported (n : Nat) : ∀ call ∈ manyBytes n, Supported byteSegments [0x66] call := by
  intro call hcall
  obtain ⟨k, -, rfl⟩ := List.mem_map.mp hcall
  exact storeBytes_supported (by decide) (by simp [byteSegments, ConfigurationManager.config, Nat.mod_one])

/-- The stores in front of the store of offset `k` are those of the offsets in front of it. -/
theorem manyBytes_split {n : Nat} {before after : List StoreCall} {call : StoreCall}
    (h : manyBytes n = before ++ call :: after) : ∃ k < n, before = manyBytes k ∧ call = storeBytes k [7] := by
  have hlt : before.length < n := by
    have hlength := congrArg List.length h
    simp only [manyBytes, List.length_map, List.length_range, List.length_append, List.length_cons] at hlength
    omega
  refine ⟨before.length, hlt, ?_, ?_⟩
  · have htake := congrArg (List.take before.length) h
    rw [List.take_left, manyBytes, ← List.map_take, List.take_range, min_eq_left hlt.le] at htake
    exact htake.symm
  · have hget := congrArg (·[before.length]?) h
    simp [manyBytes, hlt] at hget
    exact hget.symm

theorem manyBytes_inSequence (n : Nat) : InSequence byteSegments (manyBytes n) := by
  intro before call after h s hs
  obtain ⟨k, -, rfl, rfl⟩ := manyBytes_split h
  rw [manyBytes_segment] at hs
  exact (manyBytes_touches k s).mpr hs

theorem manyBytes_passes {n : Nat} (hn : n ≤ 2 ^ 32) {before after : List StoreCall} {call : StoreCall}
    (h : manyBytes n = before ++ call :: after) : Passes byteSegments before call := by
  obtain ⟨k, hk, rfl, rfl⟩ := manyBytes_split h
  intro links horder hlength
  have hsegment : (storeBytes k [7]).destination.position / byteSegments.maxObjSize = k := manyBytes_segment k
  refine ⟨[], tiles_beyond horder ?_ (by omega)⟩
  rw [hsegment]
  by_contra hlt
  exact absurd ((manyBytes_touches k k).mp ((hlength k).mp (by omega))) (lt_irrefl k)

theorem lastStored_manyBytes (n o : Nat) : lastStored (manyBytes n) o = if o < n then some 7 else none := by
  induction n with
  | zero => rfl
  | succ n ih =>
    rw [manyBytes, List.range_succ, List.map_append, List.map_singleton, lastStored_concat]
    show Segments.patch (lastStored (manyBytes n)) n [7] o = _
    by_cases hn : o = n
    · subst hn
      rw [Segments.patch_of_mem le_rfl (by simp), if_pos (by omega)]
      simp
    · rw [Segments.patch_of_not_mem (by simp; omega), ih]
      simp only [show o < n + 1 ↔ o < n by omega]

/-- All the stores return, and byte `2 ^ 31` of the file is not read: `int` has no such segment. -/
theorem byteSegments_loses_byte :
    (∀ call ∈ manyBytes (2 ^ 31 + 1), Supported byteSegments [0x66] call) ∧
    InSequence byteSegments (manyBytes (2 ^ 31 + 1)) ∧
    Covered byteSegments [0x66] (manyBytes (2 ^ 31 + 1)) { id := [0x66], position := 2 ^ 31, dataSize := 1 } ∧
    ∃ w', storeAll byteSegments (manyBytes (2 ^ 31 + 1)) (fun _ _ => none) = .ok () w' ∧
      Server.locate byteSegments Env.calm { id := [0x66], position := 2 ^ 31, dataSize := 1 } {} w' =
        .ok { buffer := some [] } w' := by
  refine ⟨manyBytes_supported _, manyBytes_inSequence _, ⟨rfl, rfl, by decide, by decide, ?_, ?_, by decide⟩, ?_⟩
  · intro o hle hlt
    rw [lastStored_manyBytes, if_pos hlt]
    rfl
  · rintro ⟨-, hex⟩
    exact absurd ((manyBytes_touches _ _).mp hex) (by decide)
  · have hlt : ∀ call ∈ manyBytes (2 ^ 31 + 1), call.segment byteSegments < 2 ^ 63 := by
      intro call hcall
      have hsegment := (manyBytes_touches _ _).mp ⟨call, hcall, rfl⟩
      omega
    obtain ⟨w', hrun, hstored⟩ := storeAll_stored (w := fun _ _ => none) rfl (by decide) (fun _ => rfl)
      (fun call hcall => ⟨manyBytes_supported _ call hcall, hlt call hcall⟩) (manyBytes_inSequence (2 ^ 31 + 1))
      fun _ _ _ => manyBytes_passes (by decide)
    refine ⟨w', hrun, ?_⟩
    rcases hstored with ⟨hnil, -⟩ | ⟨m, hheld, hlength⟩
    · obtain ⟨call, hcall, -⟩ := (manyBytes_touches (2 ^ 31 + 1) 0).mpr (by decide)
      rw [hnil] at hcall
      cases hcall
    · have hlen : m.links.entries.length < 2 ^ 63 := by
        by_contra hge
        have htouched := (manyBytes_touches _ _).mp ((hlength (2 ^ 31 + 1)).mp (by omega))
        exact absurd htouched (lt_irrefl _)
      have hprimary := hheld.filed.primary
      have hread : primaryMetadata byteSegments Env.calm { id := [0x66], position := 2 ^ 31, dataSize := 1 } w' = .ok m w' :=
        primaryMetadata_primary (t := .fileIo) rfl rfl hprimary.portable hprimary.isLink_eq hprimary.holds
      exact bind_ok (locate_ok hread (tiles_negative hheld.inOrder hlen (by decide)))

end Symbios
