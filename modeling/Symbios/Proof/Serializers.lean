import Symbios.Model.CostModel
import Symbios.Model.Serializers
import Symbios.Proof.RedisFile

/-!
# The binary serializers

What a serializer has written is the encodings of the calls that fitted, and a parser of integers gives their values back.
The parser of a `float` runs off its end, so the two are inverse exactly as long as no `float` fitted (`inverse_iff`). The
serializer of the cost model is the one here with the bytes in front only (`saveModelCsv_refines`).
-/

namespace Symbios.Serializers

theorem objectBytes_length (width n : Nat) : (objectBytes width n).length = width := by
  rw [objectBytes, List.length_reverse, Msgpack.bigEndian_length]

theorem ofObjectBytes_objectBytes {width n : Nat} (h : n < 256 ^ width) : ofObjectBytes (objectBytes width n) = n := by
  rw [ofObjectBytes, objectBytes, List.reverse_reverse, Msgpack.ofBigEndian_bigEndian width n h]

theorem ofObjectBytes_lt (bytes : List UInt8) : ofObjectBytes bytes < 256 ^ bytes.length := by
  have hlt := Msgpack.ofBigEndian_lt bytes.reverse
  rwa [List.length_reverse] at hlt

theorem objectBytes_ofObjectBytes (bytes : List UInt8) : objectBytes bytes.length (ofObjectBytes bytes) = bytes := by
  have hbytes := Msgpack.bigEndian_ofBigEndian bytes.reverse
  rw [List.length_reverse] at hbytes
  rw [objectBytes, ofObjectBytes, hbytes, List.reverse_reverse]

theorem Block.length_toNat (block : Block) : (UInt64.ofNat block.bytes.length).toNat = block.bytes.length := by
  have hsmall := block.small
  rw [UInt64.toNat_ofNat']
  omega

theorem ItemType.width_le (type : ItemType) : type.width ≤ 8 := by cases type <;> decide

/-- The sum of an offset in a buffer and a width does not wrap. -/
theorem ItemType.add_width (type : ItemType) {off : UInt64} {size : Nat} (hsmall : size < 2 ^ 63) (hoff : off.toNat ≤ size) :
    (off + .ofNat type.width).toNat = off.toNat + type.width := by
  have hwidth := type.width_le
  rw [UInt64.toNat_add, UInt64.toNat_ofNat']
  omega

namespace Item

/-- What is copied, as a number. -/
def number : Item → Nat
  | .int num => num.toUInt32.toNat
  | .ulong num => num.toNat
  | .float bits => bits.toNat

def encoding (item : Item) : List UInt8 := objectBytes item.type.width item.number

/-- The encodings of some items one behind the other. -/
def encodings (items : List Item) : List UInt8 := items.flatMap encoding

def width (item : Item) : Nat := item.type.width

/-- The items that fit into so many bytes when one that does not is left out. -/
def fitting : Nat → List Item → List Item
  | _, [] => []
  | room, item :: items =>
    if item.width ≤ room then item :: fitting (room - item.width) items else fitting room items

def ofNumber : ItemType → Nat → Item
  | .int, n => .int (UInt32.ofNat n).toInt32
  | .ulong, n => .ulong (.ofNat n)
  | .float, n => .float (.ofNat n)

theorem number_lt (item : Item) : item.number < 256 ^ item.type.width := by
  cases item with
  | int num => exact num.toUInt32.toNat_lt
  | ulong num => exact num.toNat_lt
  | float bits => exact bits.toNat_lt

theorem ofNumber_number (item : Item) : ofNumber item.type item.number = item := by
  cases item <;> simp [ofNumber, number, type]

theorem encoding_length (item : Item) : item.encoding.length = item.width := objectBytes_length _ _

theorem encodings_cons (item : Item) (items : List Item) :
    encodings (item :: items) = item.encoding ++ encodings items := List.flatMap_cons

theorem encodings_concat (items : List Item) (item : Item) :
    encodings (items ++ [item]) = encodings items ++ item.encoding := by
  simp [encodings]

theorem fitting_append (room : Nat) (front items : List Item) :
    ∃ rest, fitting room (front ++ items) = fitting room front ++ rest := by
  induction front generalizing room with
  | nil => exact ⟨_, rfl⟩
  | cons item front ih =>
    rw [List.cons_append, fitting, fitting]
    by_cases hroom : item.width ≤ room
    · rw [if_pos hroom, if_pos hroom]
      obtain ⟨rest, hrest⟩ := ih (room - item.width)
      exact ⟨rest, congrArg (item :: ·) hrest⟩
    · rw [if_neg hroom, if_neg hroom]
      exact ih room

end Item

/-! ## What is written -/

namespace BinarySerializer

open Item

/-- A serializer over a buffer of so many bytes after calls of which these were successful. -/
structure Written (size : Nat) (accepted : List Item) (s : BinarySerializer) : Prop where
  small : size < 2 ^ 63
  length : s.data.length = size
  bufSize : s.bufSize.toNat = size
  bound : s.getSize.toNat ≤ size
  front : s.data.take s.getSize.toNat = encodings accepted

theorem written_new (block : Block) : Written block.bytes.length [] (new block) :=
  ⟨block.small, rfl, block.length_toNat, Nat.zero_le _, rfl⟩

section step

variable {size : Nat} {accepted : List Item} {s : BinarySerializer}

theorem writeItem_eq (s : BinarySerializer) (item : Item) : s.writeItem item = s.write item.width item.number := by
  cases item <;> rfl

theorem Written.bufOff_add (h : Written size accepted s) (item : Item) :
    (s.bufOff + .ofNat item.width).toNat = s.getSize.toNat + item.width := item.type.add_width h.small h.bound

theorem Written.getSize_eq (h : Written size accepted s) : s.getSize.toNat = (encodings accepted).length := by
  rw [← h.front, List.length_take, h.length, Nat.min_eq_left h.bound]

/-- A call for which there is no room changes nothing. -/
theorem Written.refused (h : Written size accepted s) {item : Item} (hroom : ¬item.width ≤ size - s.getSize.toNat) :
    s.writeItem item = some (false, s) := by
  have hbound := h.bound
  rw [writeItem_eq, write, if_pos]
  rw [gt_iff_lt, UInt64.lt_iff_toNat_lt, h.bufOff_add, h.bufSize]
  omega

/-- A call for which there is room puts the encoding behind those of the calls before. -/
theorem Written.granted (h : Written size accepted s) {item : Item} (hroom : item.width ≤ size - s.getSize.toNat) :
    ∃ t, s.writeItem item = some (true, t) ∧ t.getSize.toNat = s.getSize.toNat + item.width ∧
      Written size (accepted ++ [item]) t := by
  have hbound := h.bound
  have hfront : (s.data.take s.getSize.toNat).length = s.getSize.toNat := by
    rw [h.front, ← h.getSize_eq]
  have hrest : item.encoding.length ≤ (s.data.drop s.getSize.toNat).length := by
    rw [encoding_length, List.length_drop, h.length]
    exact hroom
  have hcopy := RedisFile.copyIn_front hfront hrest
  rw [List.take_append_drop] at hcopy
  refine ⟨{ s with
    data := s.data.take s.getSize.toNat ++ item.encoding ++ (s.data.drop s.getSize.toNat).drop item.encoding.length
    bufOff := s.bufOff + .ofNat item.width }, ?_, h.bufOff_add item, h.small, ?_, h.bufSize, ?_, ?_⟩
  · rw [writeItem_eq, write, if_neg]
    · exact congrArg (Option.map _) hcopy
    · rw [gt_iff_lt, UInt64.lt_iff_toNat_lt, h.bufOff_add, h.bufSize]
      omega
  · simp only [List.length_append, List.length_take, List.length_drop, h.length, encoding_length]
    omega
  · apply (h.bufOff_add item).trans_le
    omega
  · rw [getSize, h.bufOff_add, encodings_concat, ← h.front, List.take_left']
    rw [List.length_append, hfront, encoding_length]

/-- Whatever is left of the calls, those that fit are added. -/
theorem Written.run (h : Written size accepted s) (items : List Item) :
    ∃ t, items.foldlM writeNext (accepted, s) = some (accepted ++ fitting (size - s.getSize.toNat) items, t) ∧
      Written size (accepted ++ fitting (size - s.getSize.toNat) items) t := by
  induction items generalizing accepted s with
  | nil =>
    rw [fitting, List.append_nil]
    exact ⟨s, rfl, h⟩
  | cons item items ih =>
    by_cases hroom : item.width ≤ size - s.getSize.toNat
    · obtain ⟨next, hwrite, hsize, hnext⟩ := h.granted hroom
      obtain ⟨t, hrun, ht⟩ := ih hnext
      have hstep : writeNext (accepted, s) item = some (accepted ++ [item], next) := by rw [writeNext, hwrite]; rfl
      rw [hsize, ← Nat.sub_sub, List.append_assoc, List.singleton_append] at hrun ht
      rw [fitting, if_pos hroom]
      exact ⟨t, (RedisFile.bind_of_some hstep).trans hrun, ht⟩
    · obtain ⟨t, hrun, ht⟩ := ih h
      have hstep : writeNext (accepted, s) item = some (accepted, s) := by rw [writeNext, h.refused hroom]; rfl
      rw [fitting, if_neg hroom]
      exact ⟨t, (RedisFile.bind_of_some hstep).trans hrun, ht⟩

end step

theorem writeItems_new (block : Block) (items : List Item) :
    ∃ s, (new block).writeItems items = some (fitting block.bytes.length items, s) ∧
      Written block.bytes.length (fitting block.bytes.length items) s :=
  (written_new block).run items

end BinarySerializer

/-! ## What is parsed -/

namespace BinaryDeserializer

open Item

/-- The offset of a parser does not leave its buffer. -/
structure Inside (d : BinaryDeserializer) : Prop where
  small : d.data.length < 2 ^ 63
  bufSize : d.bufSize.toNat = d.data.length
  bound : d.bufOff.toNat ≤ d.data.length

theorem inside_new (block : Block) : Inside (new block) := ⟨block.small, block.length_toNat, Nat.zero_le _⟩

/-- A parse that is not refused gives the number that is read, unless it is of a `float`. -/
theorem parseItem_eq (d : BinaryDeserializer) (type : ItemType) :
    d.parseItem type = (d.parse type.width).bind fun result =>
      match result.1 with
      | none => some (none, result.2)
      | some n => if type = .float then none else some (some (ofNumber type n), result.2) := by
  cases type with
  | int => rcases h : d.parse 4 with _ | ⟨_ | n, e⟩ <;> simp [parseItem, parseInt, ItemType.width, ofNumber, h]
  | ulong => rcases h : d.parse 8 with _ | ⟨_ | n, e⟩ <;> simp [parseItem, parseUlong, ItemType.width, ofNumber, h]
  | float => rcases h : d.parse 4 with _ | ⟨_ | n, e⟩ <;> simp [parseItem, parseFloat, ItemType.width, h]

section step

variable {d e : BinaryDeserializer}

theorem Inside.bufOff_add (h : Inside d) (type : ItemType) :
    (d.bufOff + .ofNat type.width).toNat = d.bufOff.toNat + type.width := type.add_width h.small h.bound

/-- A parse past the end of the buffer is refused, whatever is parsed. -/
theorem Inside.refused (h : Inside d) {type : ItemType} (hend : d.bufSize.toNat < d.bufOff.toNat + type.width) :
    d.parseItem type = some (none, d) := by
  rw [parseItem_eq, parse, if_pos]
  · rfl
  · rwa [gt_iff_lt, UInt64.lt_iff_toNat_lt, h.bufOff_add]

/-- A parse inside of the buffer reads the bytes under the offset. -/
theorem Inside.granted (h : Inside d) {type : ItemType} {bytes rest : List UInt8} (hbytes : bytes.length = type.width)
    (hdrop : d.data.drop d.bufOff.toNat = bytes ++ rest) :
    ∃ e, d.parse type.width = some (some (ofObjectBytes bytes), e) ∧ Inside e ∧
      e.data.drop e.bufOff.toNat = rest := by
  have hlength := congrArg List.length hdrop
  rw [List.length_drop, List.length_append, hbytes] at hlength
  have hbound := h.bound
  have hroom : d.bufOff.toNat + type.width ≤ d.data.length := by omega
  have hoff := h.bufOff_add type
  have hcopy : copyOut d.data d.bufOff.toNat type.width = some bytes := by
    rw [copyOut, if_pos hroom, hdrop, List.take_left' hbytes]
  refine ⟨{ d with bufOff := d.bufOff + .ofNat type.width }, ?_, ⟨h.small, h.bufSize, hoff.trans_le hroom⟩, ?_⟩
  · rw [parse, if_neg, hcopy]
    · rfl
    · rw [gt_iff_lt, UInt64.lt_iff_toNat_lt, hoff, h.bufSize]
      omega
  · show d.data.drop (d.bufOff + .ofNat type.width).toNat = rest
    rw [hoff, ← List.drop_drop, hdrop, List.drop_left' hbytes]

theorem Inside.parse (h : Inside d) {type : ItemType} {result : Option Nat × BinaryDeserializer}
    (hparse : d.parse type.width = some result) : Inside result.2 := by
  rw [BinaryDeserializer.parse] at hparse
  split at hparse
  · cases hparse
    exact h
  · obtain ⟨bytes, hcopy, rfl⟩ := Option.map_eq_some_iff.mp hparse
    rw [copyOut] at hcopy
    split at hcopy
    · rename_i hroom
      exact ⟨h.small, h.bufSize, (h.bufOff_add type).trans_le hroom⟩
    · cases hcopy

theorem Inside.parseItem (h : Inside d) {type : ItemType} {result : Option Item × BinaryDeserializer}
    (hparse : d.parseItem type = some result) : Inside result.2 := by
  rw [parseItem_eq] at hparse
  obtain ⟨⟨_ | n, e⟩, hnumber, hresult⟩ := Option.bind_eq_some_iff.mp hparse
  · cases hresult
    exact h.parse hnumber
  · simp only at hresult
    split at hresult
    · cases hresult
    · cases hresult
      exact h.parse hnumber

theorem Inside.parseItems (h : Inside d) {types : List ItemType} {result : List (Option Item) × BinaryDeserializer}
    (hparse : d.parseItems types = some result) : Inside result.2 := by
  induction types generalizing d result with
  | nil =>
    cases hparse
    exact h
  | cons type types ih =>
    obtain ⟨first, hfirst, hrest⟩ := Option.bind_eq_some_iff.mp hparse
    obtain ⟨rest, htypes, rfl⟩ := Option.map_eq_some_iff.mp hrest
    have hinside : Inside rest.2 := ih (h.parseItem hfirst) htypes
    exact hinside

/-- An item comes back from its encoding, if it is not a `float`. -/
theorem Inside.item (h : Inside d) {item : Item} {rest : List UInt8} (hfloat : item.type ≠ .float)
    (hdrop : d.data.drop d.bufOff.toNat = item.encoding ++ rest) :
    ∃ e, d.parseItem item.type = some (some item, e) ∧ Inside e ∧ e.data.drop e.bufOff.toNat = rest := by
  obtain ⟨e, hparse, he, hrest⟩ := h.granted item.encoding_length hdrop
  refine ⟨e, ?_, he, hrest⟩
  rw [parseItem_eq, hparse, Option.bind_some]
  simp only
  rw [if_neg hfloat, encoding, ofObjectBytes_objectBytes item.number_lt, ofNumber_number]

/-- The parse of a `float` that is there is undefined. -/
theorem Inside.float (h : Inside d) {item : Item} {rest : List UInt8} (hfloat : item.type = .float)
    (hdrop : d.data.drop d.bufOff.toNat = item.encoding ++ rest) : d.parseItem item.type = none := by
  obtain ⟨e, hparse, _⟩ := h.granted item.encoding_length hdrop
  rw [parseItem_eq, hparse, Option.bind_some]
  exact if_pos hfloat

/-- Items come back one after the other from their encodings. -/
theorem Inside.items (h : Inside d) {items : List Item} {rest : List UInt8} (hfloat : ∀ item ∈ items, item.type ≠ .float)
    (hdrop : d.data.drop d.bufOff.toNat = encodings items ++ rest) :
    ∃ e, d.parseItems (items.map Item.type) = some (items.map some, e) ∧ Inside e := by
  induction items generalizing d with
  | nil => exact ⟨d, rfl, h⟩
  | cons item items ih =>
    rw [List.forall_mem_cons] at hfloat
    rw [encodings_cons, List.append_assoc] at hdrop
    obtain ⟨next, hitem, hnext, hrest⟩ := h.item hfloat.1 hdrop
    obtain ⟨e, hitems, he⟩ := ih hnext hfloat.2 hrest
    refine ⟨e, (RedisFile.bind_of_some hitem).trans ?_, he⟩
    rw [hitems]
    rfl

/-- With a `float` among them nothing comes back. -/
theorem Inside.items_float (h : Inside d) {items : List Item} {rest : List UInt8}
    (hfloat : ∃ item ∈ items, item.type = .float) (hdrop : d.data.drop d.bufOff.toNat = encodings items ++ rest) :
    d.parseItems (items.map Item.type) = none := by
  induction items generalizing d with
  | nil => simp at hfloat
  | cons item items ih =>
    rw [encodings_cons, List.append_assoc] at hdrop
    rw [List.map_cons, BinaryDeserializer.parseItems]
    by_cases hitem : item.type = .float
    · rw [h.float hitem hdrop, Option.bind_none]
    · obtain ⟨next, hparse, hnext, hrest⟩ := h.item hitem hdrop
      have hitems : ∃ item ∈ items, item.type = .float := by simpa [hitem] using hfloat
      rw [RedisFile.bind_of_some hparse, ih hnext hitems hrest, Option.map_none]

end step

end BinaryDeserializer

/-! ## There and back -/

section inverse

open Item

/-- A deserializer over this buffer gives these items, and then refuses a parse past the end of its buffer whatever has been
parsed before. -/
def ParsesBack (block : Block) (accepted : List Item) : Prop :=
  ∃ d, (BinaryDeserializer.new block).parseItems (accepted.map Item.type) = some (accepted.map some, d) ∧
    ∀ types values e type, d.parseItems types = some (values, e) → e.bufSize.toNat < e.bufOff.toNat + type.width →
      e.parseItem type = some (none, e)

/-- The two are inverse over these calls: at every point the encodings of the successful ones are in front, within the
buffer, a call that returns false changes nothing, and every buffer of this size with these bytes is parsed back. -/
def Inverse (block : Block) (items : List Item) : Prop :=
  ∀ front, front <+: items →
    ∃ accepted s, (BinarySerializer.new block).writeItems front = some (accepted, s) ∧
      BinarySerializer.Written block.bytes.length accepted s ∧
      (∀ item t, s.writeItem item = some (false, t) → t = s) ∧
      ∀ other : Block, other.bytes.length = block.bytes.length →
        other.bytes.take s.getSize.toNat = s.data.take s.getSize.toNat → ParsesBack other accepted

/-- The bytes of the successful calls are in front of every buffer that has them. -/
theorem front_of_take {block other : Block} {accepted : List Item} {s : BinarySerializer}
    (h : BinarySerializer.Written block.bytes.length accepted s)
    (htake : other.bytes.take s.getSize.toNat = s.data.take s.getSize.toNat) :
    (BinaryDeserializer.new other).data.drop (BinaryDeserializer.new other).bufOff.toNat =
      encodings accepted ++ other.bytes.drop s.getSize.toNat := by
  rw [← h.front, ← htake, List.take_append_drop]
  rfl

theorem parsesBack_of_front {block : Block} {accepted : List Item} {rest : List UInt8}
    (hfloat : ∀ item ∈ accepted, item.type ≠ .float)
    (hdrop : (BinaryDeserializer.new block).data.drop (BinaryDeserializer.new block).bufOff.toNat =
      encodings accepted ++ rest) : ParsesBack block accepted := by
  obtain ⟨d, hparse, hd⟩ := (BinaryDeserializer.inside_new block).items hfloat hdrop
  refine ⟨d, hparse, ?_⟩
  intro types values e type htypes hend
  exact (hd.parseItems htypes).refused hend

/-- A `float` that fits is in the buffer and does not come back. -/
theorem not_float_of_inverse {block : Block} {items : List Item} (h : Inverse block items) :
    ∀ item ∈ fitting block.bytes.length items, item.type ≠ .float := by
  obtain ⟨s, hwrite, hwritten⟩ := BinarySerializer.writeItems_new block items
  obtain ⟨accepted, t, haccepted, -, -, hback⟩ := h items (List.prefix_refl items)
  rw [hwrite] at haccepted
  cases haccepted
  have hsame : s.data.length = block.bytes.length := hwritten.length
  have hsmall : s.data.length < 2 ^ 63 := hsame.trans_lt block.small
  obtain ⟨d, hparse, -⟩ := hback ⟨s.data, hsmall⟩ hsame rfl
  intro item hitem hfloat
  have hdrop := @front_of_take block ⟨s.data, hsmall⟩ _ s hwritten rfl
  rw [(BinaryDeserializer.inside_new _).items_float ⟨item, hitem, hfloat⟩ hdrop] at hparse
  cases hparse

theorem inverse_of_not_float {block : Block} {items : List Item}
    (hfloat : ∀ item ∈ fitting block.bytes.length items, item.type ≠ .float) : Inverse block items := by
  rintro front ⟨behind, rfl⟩
  obtain ⟨s, hwrite, hwritten⟩ := BinarySerializer.writeItems_new block front
  obtain ⟨rest, hfitting⟩ := fitting_append block.bytes.length front behind
  refine ⟨_, s, hwrite, hwritten, ?_, ?_⟩
  · intro item t hrefused
    by_cases hroom : item.width ≤ block.bytes.length - s.getSize.toNat
    · obtain ⟨next, hgranted, -⟩ := hwritten.granted hroom
      rw [hgranted] at hrefused
      cases hrefused
    · rw [hwritten.refused hroom] at hrefused
      cases hrefused
      rfl
  · intro other _ htake
    apply parsesBack_of_front _ (front_of_take hwritten htake)
    intro item hitem
    apply hfloat
    rw [hfitting]
    exact List.mem_append_left rest hitem

/-- **What is written comes back exactly if no `float` fitted.** To parse one that did is undefined. -/
theorem inverse_iff (block : Block) (items : List Item) :
    Inverse block items ↔ ∀ item ∈ fitting block.bytes.length items, item.type ≠ .float :=
  ⟨not_float_of_inverse, inverse_of_not_float⟩

end inverse

/-- `1.0` in a buffer of its size. -/
theorem float_lost : ¬Inverse ⟨[0, 0, 0, 0], by decide⟩ [.float 0x3f800000] := by
  intro h
  exact not_float_of_inverse h (.float 0x3f800000) (by decide) rfl

/-! ## The serializer of the cost model -/

section costModel

open Item

/-- A word as a call of `WriteFloat`. -/
def floatItem (word : Word) : Item := .float (.ofNat (ofObjectBytes word.bytes))

/-- A word as a call of `WriteInt`. -/
def intItem (word : Word) : Item := .int (UInt32.ofNat (ofObjectBytes word.bytes)).toInt32

theorem word_lt (word : Word) : ofObjectBytes word.bytes < 2 ^ 32 :=
  (ofObjectBytes_lt word.bytes).trans_eq (by norm_num [Word.bytes])

theorem encoding_floatItem (word : Word) : (floatItem word).encoding = word.bytes := by
  rw [encoding, floatItem, number, UInt32.toNat_ofNat', Nat.mod_eq_of_lt (word_lt word)]
  exact objectBytes_ofObjectBytes word.bytes

theorem encoding_intItem (word : Word) : (intItem word).encoding = word.bytes := by
  rw [encoding, intItem, number, UInt32.toUInt32_toInt32, UInt32.toNat_ofNat', Nat.mod_eq_of_lt (word_lt word)]
  exact objectBytes_ofObjectBytes word.bytes

/-- The four words of a record, in the order in which they are written. -/
def rowWords (row : ModelRow) : List Word := [row.nprocsCoeff, row.totReadCoeff, row.totWriteCoeff, row.conf]

/-- The four calls for a record. -/
def rowItems (row : ModelRow) : List Item :=
  [floatItem row.nprocsCoeff, floatItem row.totReadCoeff, floatItem row.totWriteCoeff, intItem row.conf]

def Encodes (word : Word) (item : Item) : Prop := item.encoding = word.bytes

theorem rowItems_encode (row : ModelRow) : List.Forall₂ Encodes (rowWords row) (rowItems row) :=
  .cons (encoding_floatItem _) (.cons (encoding_floatItem _) (.cons (encoding_floatItem _)
    (.cons (encoding_intItem _) .nil)))

theorem rows_encode (rows : List ModelRow) :
    List.Forall₂ Encodes (rows.flatMap rowWords) (rows.flatMap rowItems) := by
  induction rows with
  | nil => exact .nil
  | cons row rows ih => exact List.rel_append (rowItems_encode row) ih

/-- What is left out here is what does not fit there. -/
theorem foldl_writeWord {words : List Word} {items accepted : List Item} {size : Nat}
    (hwords : List.Forall₂ Encodes words items) :
    (words.foldl Symbios.BinarySerializer.writeWord { data := encodings accepted, bufSize := size }).data =
      encodings (accepted ++ fitting (size - (encodings accepted).length) items) := by
  induction hwords generalizing accepted with
  | nil => rw [List.foldl_nil, fitting, List.append_nil]
  | @cons word item words items hword _ ih =>
    have hwidth : item.width = 4 := by rw [← encoding_length, hword]; rfl
    have hlength := congrArg List.length (encodings_concat accepted item)
    rw [List.length_append, encoding_length] at hlength
    rw [List.foldl_cons, Symbios.BinarySerializer.writeWord, fitting]
    by_cases hroom : item.width ≤ size - (encodings accepted).length
    · have hfits : ¬(encodings accepted).length + 4 > size := by omega
      rw [if_neg hfits, if_pos hroom, ← hword, ← encodings_concat, ih, hlength, ← Nat.sub_sub, List.append_assoc,
        List.singleton_append]
    · have hfull : (encodings accepted).length + 4 > size := by omega
      rw [if_pos hfull, if_neg hroom, ih]

/-- The cost model's serializer leaves exactly the bytes in front of the buffer that `SaveModelCSV` puts into the file. -/
theorem saveModelCsv_refines (block : Block) (hblock : block.bytes.length = bufferSize) (rows : List ModelRow) :
    ∃ accepted s, (BinarySerializer.new block).writeItems (rows.flatMap rowItems) = some (accepted, s) ∧
      s.data.take s.getSize.toNat = saveModelCsv rows := by
  obtain ⟨s, hwrite, hwritten⟩ := BinarySerializer.writeItems_new block (rows.flatMap rowItems)
  refine ⟨_, s, hwrite, hwritten.front.trans ?_⟩
  have hfold := @foldl_writeWord _ _ [] bufferSize (rows_encode rows)
  rw [List.foldl_flatMap] at hfold
  rw [hblock]
  exact hfold.symm

end costModel

end Symbios.Serializers
