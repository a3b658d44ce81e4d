import Symbios.Model.Data

/-!
# The msgpack adaptors

Three adaptors are written by hand for each of `Data` and `Metadata`. `pack` and `object_with_zone` describe one
object (`Data.objectWithZone_object`, `Metadata.objectWithZone_object`) and `convert` reads it back. Nothing in
`convert<Data>` compares the length of the byte string with the size that stands behind it, so on objects that no
`pack` builds the copy can run past the string.
-/

namespace Symbios

/-! ## Objects the adaptors build -/

@[simp] theorem Data.objectWithZone_object (d : Data) : d.objectWithZone.1 = d.pack := by
  rcases hbuffer : d.buffer with _ | buffer <;> simp only [Data.objectWithZone, Data.pack, hbuffer]

theorem linksWithZone_objects (entries : List (Sigma fun _ : Int => Data)) :
    (linksWithZone entries).1 = entries.map fun e => (.int e.1, e.2.pack) := by
  induction entries with
  | nil => rfl
  | cons e entries ih => simp only [linksWithZone, Data.objectWithZone_object, ih, List.map_cons]

@[simp] theorem Metadata.objectWithZone_object (m : Metadata) : m.objectWithZone.1 = m.pack := by
  simp only [Metadata.objectWithZone, Metadata.pack, linksWithZone_objects]

/-- The adaptors of `Data` and of `Metadata` agree with each other: what either writer describes is read back
whole, the links as the same finite map. -/
theorem codec_roundTrip {d : Data} {m : Metadata} (hd : d.Portable) (hm : m.Portable) :
    Data.convert d.pack = .ok d ∧ Metadata.convert m.pack = .ok m ∧
      d.objectWithZone.1 = d.pack ∧ m.objectWithZone.1 = m.pack :=
  ⟨Data.convert_pack hd, Metadata.convert_pack hm, d.objectWithZone_object, m.objectWithZone_object⟩

/-- Two bytes at position 7 of an object. -/
def twoByteData : Data :=
  { id := [97], position := 7, buffer := some [1, 2], dataSize := 2, storageIndex := 1 }

/-- A record with a link of its own bytes and a pointer under key `-1`. -/
def pointerMetadata : Metadata where
  isLink := true
  links := (∅ : Links).insert 3 twoByteData |>.insert (-1) { id := [98], dataSize := 40 }
  storageIndex := 2

theorem codec_roundTrip_pointer :
    Data.convert twoByteData.pack = .ok twoByteData ∧ Metadata.convert pointerMetadata.pack = .ok pointerMetadata ∧
      twoByteData.objectWithZone.1 = twoByteData.pack ∧ pointerMetadata.objectWithZone.1 = pointerMetadata.pack := by
  have hdata : twoByteData.Portable := .inr ⟨[1, 2], rfl, rfl, by simp⟩
  apply codec_roundTrip hdata
  intro e he
  have hentries : pointerMetadata.links.entries = [⟨-1, { id := [98], dataSize := 40 }⟩, ⟨3, twoByteData⟩] := rfl
  rw [hentries] at he
  rcases List.mem_pair.mp he with h | h
  · exact h ▸ .inl rfl
  · exact h ▸ hdata

/-! ## Objects a client sends -/

/-- The object of five well-typed elements with byte string `bytes` and size `size`. -/
def wireData (id bytes : List UInt8) (position size : UInt64) (index : UInt16) : Obj :=
  .array [.str id, .int position.toNat, .str bytes, .int size.toNat, .int index.toNat]

/-- What decoding may do to `o` when its byte string is `bytes`: raise, or leave `NULL` or exactly `data_size_`
bytes, all of them read from `bytes`. -/
def DecodedWithin (bytes : List UInt8) : Except Fault Data → Prop
  | .error fault => fault ≠ .undefined
  | .ok d => d.buffer = none ∨ ∃ buffer, d.buffer = some buffer ∧ buffer.length = d.dataSize ∧ buffer <+: bytes

theorem convert_wireData (id bytes : List UInt8) (position size : UInt64) (index : UInt16) :
    Data.convert (wireData id bytes position size index) = (copyBuffer bytes size.toNat).map fun buffer =>
      { id, position := position.toNat, buffer, dataSize := size.toNat, storageIndex := index.toNat } := by
  simp only [wireData, Data.convert, asStr, asNat, bind, Except.bind]
  rcases copyBuffer bytes size.toNat with fault | buffer <;> rfl

/-- `convert<Data>` keeps to the byte string exactly when the string is empty or at least as long as the size
claims. One byte more is the terminating zero of the `std::string`, further ones are outside of it. -/
theorem decodedWithin_iff (id bytes : List UInt8) (position size : UInt64) (index : UInt16) :
    DecodedWithin bytes (Data.convert (wireData id bytes position size index)) ↔
      bytes = [] ∨ size.toNat ≤ bytes.length := by
  rw [convert_wireData, copyBuffer]
  by_cases hempty : bytes = []
  · simp [hempty, Except.map, DecodedWithin]
  by_cases hcopied : size.toNat ≤ bytes.length + 1
  · rw [if_neg hempty, if_pos hcopied]
    have hlength : ((bytes ++ [0]).take size.toNat).length = size.toNat := by
      rw [List.length_take, List.length_append, List.length_singleton, Nat.min_eq_left hcopied]
    constructor
    · rintro (hnone | ⟨buffer, hbuffer, hsize, hread⟩)
      · cases hnone
      · have hle := hread.length_le
        simp only at hsize
        omega
    · rintro (h | hfits)
      · exact absurd h hempty
      · refine .inr ⟨_, rfl, hlength, ?_⟩
        rw [List.take_append_of_le_length hfits]
        exact List.take_prefix _ _
  · rw [if_neg hempty, if_neg hcopied]
    simp only [Except.map, DecodedWithin, ne_eq, not_true_eq_false, false_iff]
    rintro (h | h)
    · exact hempty h
    · omega

/-- A size of three behind a string of one byte. -/
theorem overlong_size_not_within : ¬ DecodedWithin [1] (Data.convert (wireData [97] [1] 0 3 0)) :=
  fun h => h rfl

end Symbios
