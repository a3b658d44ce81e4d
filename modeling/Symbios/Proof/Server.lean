import Symbios.Proof.FanOut

/-!
# Runs of the server

The policies other than dynamic programming send a request whole to one configured storage
(`selectedIndex_configured`), so `Server::Store` is the store of the metadata and then one write
(`server_store_eq`). The write goes to an object of the file and leaves the records alone.
-/

namespace Symbios

open EStateM MetadataOrchestrator DataDistributionEngine

/-! ## Names -/

theorem objectId_ne_metaId (id : CharStruct) (s : Nat) : objectId id s ≠ metaId id := by
  intro h
  have hdec : Decimal.decimal s = [0x5f, 0x6d, 0x65, 0x74, 0x61] := List.append_cancel_left h
  obtain ⟨d, hd, heq⟩ := Decimal.decimal_digits s 0x5f (by rw [hdec]; decide)
  interval_cases d <;> exact absurd heq (by decide)

theorem objectId_injective (id : CharStruct) {s s' : Nat} (h : objectId id s = objectId id s') : s = s' :=
  Decimal.decimal_injective (List.append_cancel_left h)

/-! ## Storage indices -/

theorem configured_iff (conf : ConfigurationManager) (i : Nat) :
    (∃ t, conf.backend i = some t) ↔ i < conf.storageSolutions.length := by
  rw [← List.mem_range, ← conf.keys_perm.mem_iff, List.mem_map]
  constructor
  · rintro ⟨t, ht⟩
    exact ⟨(i, t), (backend_eq_some_iff conf).mp ht, rfl⟩
  · rintro ⟨⟨j, t⟩, hmem, rfl⟩
    exact ⟨t, (backend_eq_some_iff conf).mpr hmem⟩

theorem heuristicsIndex_lt (conf : ConfigurationManager) (t : IoClientType) :
    heuristicsIndex conf t < conf.storageSolutions.length := by
  unfold heuristicsIndex
  cases hfind : conf.storageSolutions.find? fun solution => solution.2 = t with
  | none => exact conf.solutions_pos
  | some s => exact (configured_iff conf s.1).mp ⟨s.2, backend_of_mem conf (List.mem_of_find?_eq_some hfind)⟩

/-- Every policy selects a configured storage. -/
theorem selectedIndex_configured (conf : ConfigurationManager) (draw : Nat) (destination : Data) :
    ∃ t, conf.backend (selectedIndex conf draw destination) = some t := by
  rw [configured_iff]
  have hpos := conf.solutions_pos
  have hmod : ∀ n, n < conf.storageSolutions.length → n % 2 ^ 16 < conf.storageSolutions.length :=
    fun n hn => (Nat.mod_le _ _).trans_lt hn
  unfold selectedIndex
  cases conf.dataDistributionPolicy with
  | randomPolicy => exact hmod _ (Nat.mod_lt _ hpos)
  | roundRobinPolicy => exact hmod _ (Nat.mod_lt _ hpos)
  | heuristicsPolicy =>
    apply hmod
    split_ifs <;> exact heuristicsIndex_lt conf _
  | dynamicProgrammingPolicy => exact hpos

/-- The distribution of a request. -/
def sent (conf : ConfigurationManager) (draw : Nat) (source destination : Data) : DataDistribution where
  sourceData := source
  destinationData := { destination with storageIndex := selectedIndex conf draw destination }
  storageIndex := source.storageIndex

theorem distribute_eq {conf : ConfigurationManager} (hpolicy : conf.dataDistributionPolicy ≠ .dynamicProgrammingPolicy)
    (draw : Nat) (source destination : Data) : distribute conf draw source destination = [sent conf draw source destination] := by
  rw [distribute, if_neg hpolicy]
  rfl

/-! ## Writes of objects -/

section write

variable {conf : ConfigurationManager} {env : Env}

theorem IoFactory.write_outside (i : Nat) (source destination : Data) (w : Backends) (t : IoClientType) {k : CharStruct}
    (hk : k ≠ destination.id) : (IoFactory.write conf env i source destination w).final t k = w t k := by
  unfold IoFactory.write IoFactory.getIoClient
  cases conf.backend i with
  | none => rfl
  | some t' =>
    cases env.writeFault i destination.id with
    | some code => rfl
    | none => exact (write_confined t' source destination).outside w trivial t k hk

theorem slice_source {source : Data} {bytes : List UInt8} (hbuf : source.buffer = some bytes)
    (hpos : source.position = 0) (hsize : source.dataSize = bytes.length) (w : Backends) :
    slice source.buffer source.position source.dataSize w = .ok bytes w := by
  rw [hbuf, hpos, hsize, slice_of_le (by simp) w]
  simp

theorem slice_raises (buffer : Option (List UInt8)) (offset length : Nat) :
    Raises (· = Fault.undefined) (slice buffer offset length) := by
  unfold slice
  split
  · exact Raises.pure _
  · exact Raises.raise rfl

theorem blit_raises (target : List UInt8) (offset : Nat) (bytes : List UInt8) :
    Raises (· = Fault.undefined) (blit target offset bytes) := by
  unfold blit
  split
  · exact Raises.pure _
  · exact Raises.raise rfl

theorem newValue_raises (old : List UInt8) (source destination : Data) :
    Raises (· = Fault.undefined) (newValue old source destination) := by
  refine (slice_raises _ _ _).bind fun data => ?_
  split
  · exact Raises.raise rfl
  · split
    · exact (blit_raises _ _ _).bind fun _ => blit_raises _ _ _
    · exact blit_raises _ _ _

theorem storedValue_raises (old : Option (List UInt8)) (source destination : Data) :
    Raises (· = Fault.undefined) (storedValue old source destination) := by
  cases old with
  | none => exact slice_raises _ _ _
  | some old => exact newValue_raises _ _ _

/-- Inside a segment no write of a client raises an exception. -/
theorem write_raises (t : IoClientType) (source : Data) {destination : Data} (hdest : destination.position < 2 ^ 63) :
    Raises (· = Fault.undefined) (IoClient.write t source destination) := by
  intro w e w' h
  by_cases ht : t = .fileIo
  · subst ht
    have h' : FileIoClient.write source destination w = .error e w' := h
    rw [FileIoClient.write, get_bind, if_neg (by omega)] at h'
    exact ((slice_raises _ _ _).bind fun _ => Raises.change _) w e w' h'
  · rw [objectWrite_eq ht] at h
    exact ((storedValue_raises _ _ _).bind fun _ => Raises.change _) w e w' h

theorem IoFactory.write_raises (hcalm : ∀ i k, env.writeFault i k = none) (i : Nat) (source : Data) {destination : Data}
    (hdest : destination.position < 2 ^ 63) :
    Raises (· = Fault.undefined) (IoFactory.write conf env i source destination) := by
  unfold IoFactory.write IoFactory.getIoClient
  refine Raises.bind ?_ fun t => ?_
  · split
    · exact Raises.pure _
    · exact Raises.raise rfl
  · rw [hcalm]
    exact Symbios.write_raises t source hdest

/-- What a write into nothing leaves: only a file starts at the position. -/
def freshObject (t : IoClientType) (position : Nat) (bytes : List UInt8) : List UInt8 :=
  match t with
  | .fileIo => Overlay.overlay 0 [] position bytes
  | .redisIo => bytes
  | .mongoIo => bytes

theorem freshObject_of_ne {t : IoClientType} (ht : t ≠ .fileIo) (position : Nat) (bytes : List UInt8) :
    freshObject t position bytes = bytes := by
  cases t with
  | fileIo => exact absurd rfl ht
  | redisIo => rfl
  | mongoIo => rfl

theorem write_fresh (t : IoClientType) {source destination : Data} {bytes : List UInt8} {w : Backends}
    (hbuf : source.buffer = some bytes) (hpos : source.position = 0) (hsize : source.dataSize = bytes.length)
    (hne : bytes ≠ []) (hdest : destination.position < 2 ^ 63) (hw : w t destination.id = none) :
    IoClient.write t source destination w =
      .ok () (w.put t destination.id (some (freshObject t destination.position bytes))) := by
  by_cases ht : t = .fileIo
  · rw [ht] at hw ⊢
    rw [fileWrite_whole hbuf hpos hsize hdest, hw, fileWritten, if_neg hne]
    rfl
  · rw [objectWrite_eq ht, hw, storedValue, bind_ok (slice_source hbuf hpos hsize w), modify_run, freshObject_of_ne ht]

end write

/-! ## Store -/

section store

variable [Wire] {conf : ConfigurationManager} {env : Env} {draw : Nat} {source destination : Data} {w w' : Backends}

theorem server_store_eq {ds : List DataDistribution}
    (h : MetadataOrchestrator.store conf env destination (distribute conf draw source destination) w = .ok ds w') :
    Server.store conf env draw source destination w =
      (ds.forM (fun d => IoFactory.write conf env d.destinationData.storageIndex d.sourceData d.destinationData) >>=
        fun _ => pure conf.serverCount) w' :=
  bind_ok h

theorem server_store_raise {fault : Fault}
    (h : MetadataOrchestrator.store conf env destination (distribute conf draw source destination) w = .error fault w') :
    Server.store conf env draw source destination w = .error fault w' :=
  bind_error h

omit [Wire] in
theorem forM_single {d : DataDistribution} {w'' : Backends}
    (h : IoFactory.write conf env d.destinationData.storageIndex d.sourceData d.destinationData w = .ok () w'') :
    ([d].forM (fun d => IoFactory.write conf env d.destinationData.storageIndex d.sourceData d.destinationData) >>=
      fun _ => (pure conf.serverCount : Prog Nat)) w = .ok conf.serverCount w'' := by
  rw [forM_cons, bind_assoc, bind_ok h]
  rfl

end store

end Symbios
