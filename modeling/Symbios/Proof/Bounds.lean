import Symbios.Proof.FileRuns

/-!
# The array of links is filled and read inside its bounds

`Locate` indexes an array of `links_.size()` elements with segment numbers. Nothing in `Store` makes the segments
come in order; in runs in which they do, and in which the file is created through an exclusive storage index, the
keys of every metadata that `Locate` finds are `0..n-1` (`link_array_in_bounds`).
-/

namespace Symbios

open EStateM MetadataOrchestrator DataDistributionEngine

section bounds

variable [Wire] {conf : ConfigurationManager} {id : CharStruct} {w w' : Backends}

/-- The store comes in turn: its segment is linked already or the next one, and a file is created through an
exclusive storage index. -/
structure InTurn (conf : ConfigurationManager) (destination : Data) (w : Backends) : Prop where
  bounded : destination.position / conf.maxObjSize < 2 ^ 63
  first : NoRecord destination.id w →
    destination.position / conf.maxObjSize = 0 ∧ Exclusive conf destination.storageIndex
  later : ∀ t m, Primary w t destination.id m → destination.position / conf.maxObjSize ≤ m.links.entries.length

/-- The backends after a store of the server that comes in turn and whose behaviour is defined. -/
def InTurnStep (conf : ConfigurationManager) (id : CharStruct) (w w' : Backends) : Prop :=
  ∃ draw source destination, destination.id = id ∧ InTurn conf destination w ∧
    (Server.store conf Env.calm draw source destination w).outcome ≠ .error .undefined ∧
    (Server.store conf Env.calm draw source destination w).final = w'

/-- There is no file, or one whose segments are linked in order. -/
def OrderedInv (conf : ConfigurationManager) (id : CharStruct) (w : Backends) : Prop :=
  NoRecord id w ∨ ∃ m t, Filed conf id w m t ∧ InOrder m.links

theorem OrderedInv.fileInv (h : OrderedInv conf id w) : FileInv conf id w := by
  rcases h with hnone | ⟨m, t, hm, -⟩
  · exact Or.inl hnone
  · exact Or.inr ⟨m, t, hm⟩

omit [Wire] in
theorem distribute_sequential {draw n : Nat} {source destination : Data}
    (h : destination.position / conf.maxObjSize ≤ n) :
    Sequential conf.maxObjSize n (distribute conf draw source destination) := by
  rw [distribute]
  split
  · trivial
  · exact ⟨h, trivial⟩

omit [Wire] in
theorem distribute_segment {draw : Nat} {source destination : Data} :
    ∀ d ∈ distribute conf draw source destination, d.segment conf.maxObjSize = destination.position / conf.maxObjSize := by
  intro d hd
  rw [distribute_mem hd]
  rfl

/-- One store keeps the segments in order. -/
theorem OrderedInv.step (hw : OrderedInv conf id w) (h : InTurnStep conf id w w') : OrderedInv conf id w' := by
  obtain ⟨draw, source, destination, rfl, hturn, hdef, rfl⟩ := h
  have hlt : ∀ d ∈ distribute conf draw source destination, d.segment conf.maxObjSize < 2 ^ 63 := by
    intro d hd
    rw [distribute_segment d hd]
    exact hturn.bounded
  rcases hw.fileInv.store_cases hdef with hraise | ⟨t, w', hnone, ht, hrun, hobjects⟩ |
    ⟨m, t, tls, w', hm, htiles, hrun, hobjects⟩
  · rw [hraise]
    exact hw
  · obtain ⟨hzero, hexcl⟩ := hturn.first hnone
    rw [hrun]
    refine Or.inr ⟨_, t, Filed.of_create hnone ht hexcl hobjects, ?_⟩
    refine ((createLinks_extends conf.maxObjSize (distribute conf draw source destination) ∅).inOrder inOrder_empty ?_ hlt).1
    exact distribute_sequential (by omega)
  · rw [hrun]
    refine Or.inr ⟨_, t, hm.of_grow hobjects, ?_⟩
    exact ((updateLinks_extends conf.maxObjSize (distribute conf draw source destination) m.links).inOrder
      (tiles_inOrder htiles) (distribute_sequential (hturn.later t m hm.primary)) hlt).1

theorem orderedInv_of_run (h : Relation.ReflTransGen (InTurnStep conf id) (fun _ _ => none) w) :
    OrderedInv conf id w := by
  induction h with
  | refl => exact Or.inl fun _ => rfl
  | tail _ hstep ih => exact ih.step hstep

/-- **In every state that stores in turn reach, the metadata that `Locate` works on has its keys inside the array,
and every element of the array has been assigned the link of its segment.** -/
theorem link_array_in_bounds (h : Relation.ReflTransGen (InTurnStep conf id) (fun _ _ => none) w) {request : Data}
    (hid : request.id = id) {m : Metadata} (hm : primaryMetadata conf Env.calm request w = .ok m w) :
    (∀ key ∈ m.links, 0 ≤ key ∧ key < m.links.entries.length) ∧
    (∃ array, linkArray m.links = some array ∧ array.length = m.links.entries.length ∧
      ∀ i < array.length, ∃ link, m.links.lookup (i : Int) = some link ∧ array[i]? = some link) ∧
    (m.links.entries.length < 2 ^ 31 → ∃ tls, MetadataOrchestrator.locate conf Env.calm request w = .ok (tls, m) w) := by
  subst hid
  have horder : InOrder m.links := by
    cases ht : conf.backend request.storageIndex with
    | none => cases hm.symm.trans (primaryMetadata_unconfigured ht w)
    | some t =>
      rcases orderedInv_of_run h with hnone | ⟨m', t', hfiled, horder⟩
      · cases hm.symm.trans (primaryMetadata_absent ht rfl (hnone t))
      · rcases hfiled.primaryMetadata_cases ht with hok | hunpack
        · cases hm.symm.trans hok
          exact horder
        · cases hm.symm.trans hunpack
  obtain ⟨array, harray⟩ := (linkArray_isSome_iff m.links).mpr horder
  refine ⟨fun key hkey => (horder key).mp hkey, ⟨array, harray, linkArray_length harray, ?_⟩, ?_⟩
  · intro i hi
    refine ⟨array[i], ?_, by simp [hi]⟩
    rw [← linkArray_get harray]
    simp [hi]
  · intro hlen
    obtain ⟨tls, htls⟩ := tiles_isSome horder hlen
    exact ⟨tls, locate_ok hm htls⟩

end bounds

/-! ## A first segment and a gap -/

/-- The metadata of `f` after a byte at `position`. -/
def metadataAt (position : Nat) : Metadata :=
  newMetadata oneFile { id := [0x66], position, dataSize := 1 }
    [sent oneFile 0 { buffer := some [7], dataSize := 1 } { id := [0x66], position, dataSize := 1 }]

/-- The backends then. -/
def afterByteAt (position : Nat) : Backends :=
  (created oneFile [0x66] .fileIo (metadataAt position) (fun _ _ => none)).put .fileIo (objectId [0x66] (position / 4))
    (some (freshObject .fileIo (position % 4) [7]))

theorem afterByteAt_run (position : Nat) :
    Server.store oneFile Env.calm 0 { buffer := some [7], dataSize := 1 } { id := [0x66], position, dataSize := 1 }
      (fun _ _ => none) = .ok 1 (afterByteAt position) :=
  first_store (t := .fileIo) (by decide) rfl rfl rfl (by decide) rfl rfl

theorem afterByteAt_primary (position : Nat) (request : Data) (hid : request.id = [0x66]) (hindex : request.storageIndex = 0) :
    primaryMetadata oneFile Env.calm request (afterByteAt position) = .ok (metadataAt position) (afterByteAt position) := by
  refine primaryMetadata_primary (t := .fileIo) (by rw [hindex]; rfl) rfl (newMetadata_portable _ _ _) rfl ?_
  obtain ⟨rest, hrest⟩ := created_primary (t := .fileIo) (m := metadataAt position)
    (fun _ _ => none) rfl oneFile_exclusive
  refine ⟨rest, ?_⟩
  rw [hid]
  exact (Backends.put_of_key_ne _ _ _ _ (objectId_ne_metaId _ _).symm).trans hrest

theorem oneFile_array_in_bounds :
    (∀ key ∈ (metadataAt 0).links, 0 ≤ key ∧ key < (metadataAt 0).links.entries.length) ∧
    (∃ array, linkArray (metadataAt 0).links = some array ∧ array.length = (metadataAt 0).links.entries.length ∧
      ∀ i < array.length, ∃ link, (metadataAt 0).links.lookup (i : Int) = some link ∧ array[i]? = some link) ∧
    ((metadataAt 0).links.entries.length < 2 ^ 31 → ∃ tls, MetadataOrchestrator.locate oneFile Env.calm { id := [0x66] }
      (afterByteAt 0) = .ok (tls, metadataAt 0) (afterByteAt 0)) := by
  have hstep : InTurnStep oneFile [0x66] (fun _ _ => none) (afterByteAt 0) := by
    refine ⟨0, { buffer := some [7], dataSize := 1 }, { id := [0x66], position := 0, dataSize := 1 }, rfl,
      ⟨by decide, fun _ => ⟨by decide, oneFile_exclusive⟩, ?_⟩, ?_, ?_⟩
    · intro t m hm
      obtain ⟨rest, hrest⟩ := hm.holds
      cases hrest
    · rw [afterByteAt_run 0]
      intro h
      cases h
    · rw [afterByteAt_run 0]
      rfl
  exact link_array_in_bounds (.single hstep) rfl (afterByteAt_primary 0 _ rfl rfl)

/-- A file whose first byte is in segment 1 has an array of one element, and key 1. -/
theorem gap_leaves_array :
    Server.store oneFile Env.calm 0 { buffer := some [7], dataSize := 1 } { id := [0x66], position := 4, dataSize := 1 }
      (fun _ _ => none) = .ok 1 (afterByteAt 4) ∧
    primaryMetadata oneFile Env.calm { id := [0x66] } (afterByteAt 4) = .ok (metadataAt 4) (afterByteAt 4) ∧
    1 ∈ (metadataAt 4).links ∧ (metadataAt 4).links.entries.length = 1 ∧
    MetadataOrchestrator.locate oneFile Env.calm { id := [0x66] } (afterByteAt 4) = .error .undefined (afterByteAt 4) :=
  ⟨afterByteAt_run 4, afterByteAt_primary 4 _ rfl rfl, by decide, by decide,
    locate_broken (afterByteAt_primary 4 _ rfl rfl) (by decide)⟩

end Symbios
