import Symbios.Model.WriteCalls
import Symbios.Proof.FanOut

/-!
# Short and failed writes

`write` returns how much it has stored. A short result is smaller than the count and is reported; -1 is the largest
`size_t` after the conversion and passes for a complete write (`reported_iff`). So a `Store` that returns has written
everything as long as no `write` has returned -1 (`storeWith_returns`).
-/

namespace Symbios

open EStateM MetadataOrchestrator

section write

variable {source destination : Data} {w w' : Backends} {result : Int}

/-- The write returns if `write` has stored everything, and raises otherwise. -/
def Reported (result : Int) (source destination : Data) (w : Backends) : Prop :=
  if result = (source.dataSize - source.position : Nat) then
    ∃ w', FileIoClient.writeResult result source destination w = .ok () w'
  else ∃ w', FileIoClient.writeResult result source destination w = .error (.error writeDataToFileFailed) w'

/-- The write with the bytes that `write` has stored, and the comparison behind it. -/
theorem writeResult_eq (hdest : destination.position < 2 ^ 63)
    (hslice : source.position + subSize source.dataSize source.position ≤ (source.buffer.getD []).length) :
    ∃ w', FileIoClient.writeResult result source destination w =
      if toSize result < subSize source.dataSize source.position then .error (.error writeDataToFileFailed) w'
      else .ok () w' := by
  rw [FileIoClient.writeResult, get_bind, if_neg (not_le.mpr hdest), bind_ok (slice_of_le hslice w), modify_bind]
  generalize w.put .fileIo destination.id _ = w₁
  refine ⟨w₁, ?_⟩
  split_ifs <;> rfl

theorem toSize_neg_one : toSize (-1) = 2 ^ 64 - 1 := by decide

/-- -1 passes for a complete write, and nothing else that is not one does. -/
theorem toSize_lt_iff {n : Nat} (hn : n < 2 ^ 64) (hle : -1 ≤ result) (hge : result ≤ n) :
    toSize result < n ↔ result ≠ n ∧ result ≠ -1 := by
  by_cases hneg : result = -1
  · rw [hneg, toSize_neg_one]
    omega
  · obtain ⟨r, rfl⟩ := Int.eq_ofNat_of_zero_le (show 0 ≤ result by omega)
    rw [toSize_natCast (by omega)]
    omega

theorem writeResult_reported_iff (hpos : source.position ≤ source.dataSize) (hsize : source.dataSize < 2 ^ 64)
    (hbuffer : source.dataSize ≤ (source.buffer.getD []).length) (hdest : destination.position < 2 ^ 63)
    (hle : -1 ≤ result) (hge : result ≤ (source.dataSize - source.position : Nat)) :
    Reported result source destination w ↔ result ≠ -1 := by
  have hcount : subSize source.dataSize source.position = source.dataSize - source.position := if_pos hpos
  obtain ⟨w', hrun⟩ := @writeResult_eq source destination w result hdest (by omega)
  have hiff := toSize_lt_iff (show source.dataSize - source.position < 2 ^ 64 by omega) hle hge
  rw [hcount] at hrun
  rw [Reported, hrun]
  by_cases hcomplete : result = (source.dataSize - source.position : Nat)
  · rw [if_pos hcomplete, if_neg (fun h => (hiff.mp h).1 hcomplete)]
    refine iff_of_true ⟨w', rfl⟩ ?_
    omega
  · rw [if_neg hcomplete]
    by_cases hneg : result = -1
    · rw [if_neg (fun h => (hiff.mp h).2 hneg)]
      refine iff_of_false ?_ (fun h => h hneg)
      rintro ⟨_, h⟩
      cases h
    · rw [if_pos (hiff.mpr ⟨hcomplete, hneg⟩)]
      exact iff_of_true ⟨w', rfl⟩ hneg

/-- A write that returns, with a result other than -1, has stored everything. -/
theorem writeResult_returns (hle : -1 ≤ result) (hge : result ≤ subSize source.dataSize source.position)
    (hne : result ≠ -1) :
    Returns (FileIoClient.writeResult result source destination) (FileIoClient.write source destination) := by
  intro w a w' h
  rw [FileIoClient.writeResult, get_bind] at h
  rw [FileIoClient.write, get_bind]
  by_cases hdest : 2 ^ 63 ≤ destination.position
  · rw [if_pos hdest] at h
    cases h
  rw [if_neg hdest] at h ⊢
  obtain ⟨bytes, w₁, hbytes, hrest⟩ := bind_eq_ok h
  have hlength := slice_length hbytes
  rw [bind_ok hbytes]
  rw [modify_bind] at hrest
  by_cases hshort : toSize result < subSize source.dataSize source.position
  · rw [if_pos hshort] at hrest
    cases hrest
  · -- the result is the count, for it is not negative and not above it
    have hcount : result.toNat = bytes.length := by
      obtain ⟨r, rfl⟩ := Int.eq_ofNat_of_zero_le (show 0 ≤ result by omega)
      have hmod : toSize r = r % 2 ^ 64 := by
        unfold toSize
        omega
      rw [Int.toNat_natCast]
      omega
    rw [if_neg hshort, hcount, List.take_length] at hrest
    exact hrest

end write

section store

variable [Wire] (conf : ConfigurationManager) {results : WriteResults} (hresults : results.NeverFails)

include hresults

omit [Wire] in
theorem writeWith_returns (index : Nat) (source destination : Data) :
    Returns (IoFactory.writeWith conf results index source destination)
      (IoFactory.write conf Env.calm index source destination) := by
  refine (Returns.refl _).bind fun client => ?_
  cases client with
  | fileIo =>
    intro w a w' h
    obtain ⟨hle, hge⟩ := results.bounds w index source destination
    exact writeResult_returns hle hge (hresults _ _ _ _) w a w' h
  | redisIo => exact Returns.refl _
  | mongoIo => exact Returns.refl _

theorem orchestrator_storeWith_returns (request : Data) (distributions : List DataDistribution) :
    Returns (MetadataOrchestrator.storeWith conf results request distributions)
      (MetadataOrchestrator.store conf Env.calm request distributions) := by
  refine (Returns.refl _).bind fun primary => ?_
  cases primary with
  | some primary =>
    dsimp only
    split
    · exact (writeWith_returns conf hresults _ _ _).bind fun _ => Returns.refl _
    · exact Returns.refl _
  | none =>
    refine (writeWith_returns conf hresults _ _ _).bind fun _ => ?_
    refine Returns.bind (Returns.forM (fun solution => ?_) _) fun _ => Returns.refl _
    split
    · exact Returns.refl _
    · exact writeWith_returns conf hresults _ _ _

/-- A store that returns has left what complete writes leave. -/
theorem storeWith_returns (draw : Nat) (source destination : Data) :
    Returns (Server.storeWith conf results draw source destination)
      (Server.store conf Env.calm draw source destination) := by
  refine (orchestrator_storeWith_returns conf hresults _ _).bind fun distributions => ?_
  exact Returns.bind (Returns.forM (fun d => writeWith_returns conf hresults _ _ _) _) fun _ => Returns.refl _

end store

/-- A write reports every result but -1. So, when no `write` has returned -1, a store that returns has written every byte
of every record and every object. -/
theorem short_writes_reported_iff (source destination : Data) (w : Backends) :
    (∀ result : Int, source.position ≤ source.dataSize → source.dataSize < 2 ^ 64 →
      source.dataSize ≤ (source.buffer.getD []).length → destination.position < 2 ^ 63 →
      -1 ≤ result → result ≤ (source.dataSize - source.position : Nat) →
      (Reported result source destination w ↔ result ≠ -1)) ∧
    ∀ (_ : Wire) (conf : ConfigurationManager) (results : WriteResults), results.NeverFails →
      ∀ (draw count : Nat) (w' : Backends),
        Server.storeWith conf results draw source destination w = .ok count w' →
        Server.store conf Env.calm draw source destination w = .ok count w' := by
  refine ⟨?_, ?_⟩
  · intro result hpos hsize hbuffer hdest hle hge
    exact writeResult_reported_iff hpos hsize hbuffer hdest hle hge
  · intro _ conf results hresults draw count w' h
    exact storeWith_returns conf hresults draw source destination w count w' h

/-! ## A disk that fills up -/

/-- Every `write` stores everything. -/
def completeWrites : WriteResults where
  result := fun _ _ source _ => subSize source.dataSize source.position
  bounds := by
    intro w index source destination
    omega

/-- Every `write` returns -1. -/
def failedWrites : WriteResults where
  result := fun _ _ _ _ => -1
  bounds := by
    intro w index source destination
    omega

theorem completeWrites_neverFails : completeWrites.NeverFails := by
  intro w index source destination
  show ((subSize source.dataSize source.position : Nat) : Int) ≠ -1
  omega

/-- The store of one byte into an empty table. -/
def storeOneByte (results : WriteResults) : Result Fault Backends Nat :=
  Server.storeWith oneFile results 0 oneByte.sourceData oneByte.destinationData fun _ _ => none

/-- A result of 0 for one byte is reported, and the store of the byte is complete. -/
theorem emptyWrite_reported :
    Reported 0 oneByte.sourceData oneByte.destinationData (fun _ _ => none) ∧
    Server.store oneFile Env.calm 0 oneByte.sourceData oneByte.destinationData (fun _ _ => none) =
      storeOneByte completeWrites := by
  obtain ⟨hreported, hcomplete⟩ := short_writes_reported_iff oneByte.sourceData oneByte.destinationData fun _ _ => none
  refine ⟨?_, ?_⟩
  · apply (hreported 0 (by decide) (by decide) (by decide) (by decide) (by decide) (by decide)).mpr
    decide
  · cases hrun : storeOneByte completeWrites with
    | ok count w' => exact hcomplete _ _ _ completeWrites_neverFails _ _ _ hrun
    | error e w' =>
      have hout : (storeOneByte completeWrites).outcome = .ok oneFile.serverCount := by decide +kernel
      rw [hrun] at hout
      cases hout

/-- A write that fails returns, and so does a store all of whose writes fail: the file of the object is there, and
empty. -/
theorem failedWrites_return :
    ¬ Reported (-1) oneByte.sourceData oneByte.destinationData (fun _ _ => none) ∧
    (storeOneByte failedWrites).outcome = .ok oneFile.serverCount ∧
    (storeOneByte failedWrites).final .fileIo (objectId [0x66] 0) = some [] := by
  refine ⟨?_, ?_, ?_⟩
  · rintro ⟨w', h⟩
    cases h
  · decide +kernel
  · decide +kernel

end Symbios
