import Symbios.Model.CostModel

/-!
# What is loaded of a saved cost model

The loader puts every record at the start of its buffer, and parses on behind the record before. It therefore sees the
first record of a file (`parseModelRow_append`) and from the second one on the bytes that `malloc` left in the buffer
(`loadRows_second`).
-/

namespace Symbios

open StorageCostPredictor

def ModelRow.bytes (row : ModelRow) : List UInt8 :=
  row.nprocsCoeff.bytes ++ row.totReadCoeff.bytes ++ row.totWriteCoeff.bytes ++ row.conf.bytes

@[simp] theorem ModelRow.length_bytes (row : ModelRow) : row.bytes.length = 16 := rfl

/-! ## Saving -/

theorem writeWord_of_fits {s : BinarySerializer} (h : s.data.length + 4 ≤ s.bufSize) (word : Word) :
    s.writeWord word = { s with data := s.data ++ word.bytes } := by
  rw [BinarySerializer.writeWord, if_neg (not_lt.mpr h)]

theorem writeRow_of_fits {s : BinarySerializer} (h : s.data.length + 16 ≤ s.bufSize) (row : ModelRow) :
    s.writeRow row = { s with data := s.data ++ row.bytes } := by
  have hlength : ∀ word : Word, word.bytes.length = 4 := fun _ => rfl
  rw [BinarySerializer.writeRow, writeWord_of_fits (by omega) row.nprocsCoeff, writeWord_of_fits ?_ row.totReadCoeff,
    writeWord_of_fits ?_ row.totWriteCoeff, writeWord_of_fits ?_ row.conf]
  · simp only [ModelRow.bytes, List.append_assoc]
  all_goals
    simp only [List.length_append, hlength]
    omega

/-- The file is the records one behind the other. -/
theorem foldl_writeRow (rows : List ModelRow) (s : BinarySerializer) (h : s.data.length + 16 * rows.length ≤ s.bufSize) :
    (rows.foldl BinarySerializer.writeRow s).data = s.data ++ rows.flatMap ModelRow.bytes := by
  induction rows generalizing s with
  | nil => simp
  | cons row rows ih =>
    rw [List.length_cons] at h
    rw [List.foldl_cons, writeRow_of_fits (by omega), ih]
    · rw [List.flatMap_cons, List.append_assoc]
    · rw [List.length_append, ModelRow.length_bytes]
      dsimp only
      omega

theorem saveModelCsv_eq {rows : List ModelRow} (h : 16 * rows.length ≤ bufferSize) :
    saveModelCsv rows = rows.flatMap ModelRow.bytes := by
  rw [saveModelCsv, foldl_writeRow _ _ (by simpa using h)]
  rfl

/-! ## Loading -/

theorem parseWord_append {d : BinaryDeserializer} {word : Word} {rest : List UInt8}
    (h : d.data.drop d.bufOff = word.bytes ++ rest) :
    d.parseWord = some (word, { d with bufOff := d.bufOff + 4 }) ∧ d.data.drop (d.bufOff + 4) = rest := by
  constructor
  · rw [BinaryDeserializer.parseWord, h]
    rfl
  · rw [← List.drop_drop, h]
    rfl

/-- A row is parsed from the bytes at the offset. -/
theorem parseModelRow_append (p : StorageCostPredictor) {d : BinaryDeserializer} {row : ModelRow} {rest : List UInt8}
    (h : d.data.drop d.bufOff = row.bytes ++ rest) :
    p.parseModelRow d = some (p.updateCoeffs row, { d with bufOff := d.bufOff + 16 }) := by
  simp only [ModelRow.bytes, List.append_assoc] at h
  obtain ⟨h₁, h⟩ := parseWord_append h
  obtain ⟨h₂, h⟩ := parseWord_append (d := { d with bufOff := d.bufOff + 4 }) h
  obtain ⟨h₃, h⟩ := parseWord_append (d := { d with bufOff := d.bufOff + 4 + 4 }) h
  obtain ⟨h₄, -⟩ := parseWord_append (d := { d with bufOff := d.bufOff + 4 + 4 + 4 }) h
  simp only [parseModelRow, h₁, h₂, h₃, h₄, Option.bind_eq_bind, Option.bind_some]
  rfl

/-- One turn of the loop over a whole record. -/
theorem loadRows_record (turns : Nat) (row : ModelRow) (file : List UInt8) (p : StorageCostPredictor)
    (d : BinaryDeserializer) :
    loadRows (turns + 1) (row.bytes ++ file) p d =
      (p.parseModelRow (d.fill row.bytes)).bind fun r => loadRows turns file r.1 r.2 := by
  have htake : (row.bytes ++ file).take recordSize = row.bytes := List.take_left' rfl
  have hdrop : (row.bytes ++ file).drop recordSize = file := List.drop_left' rfl
  have hrows : parseModelRows 1 p (d.fill row.bytes) = p.parseModelRow (d.fill row.bytes) := by
    rw [parseModelRows]
    cases p.parseModelRow (d.fill row.bytes) <;> rfl
  rw [loadRows, htake, hdrop, ModelRow.length_bytes, if_neg (by decide), show 16 / recordSize = 1 from rfl, hrows]
  rfl

theorem loadRows_nil (turns : Nat) (p : StorageCostPredictor) (d : BinaryDeserializer) :
    loadRows turns [] p d = some p := by
  cases turns <;> rfl

/-- What is shorter than a record is read and ignored. -/
theorem loadRows_fragment {fragment : List UInt8} (h : fragment.length < 16) (turns : Nat) (p : StorageCostPredictor)
    (d : BinaryDeserializer) : loadRows turns fragment p d = some p := by
  cases turns with
  | zero => rfl
  | succ turns =>
    have htake : fragment.take recordSize = fragment := List.take_of_length_le h.le
    have hdrop : fragment.drop recordSize = [] := List.drop_eq_nil_of_le h.le
    rw [loadRows, htake, hdrop]
    split
    · rfl
    · rw [show fragment.length / recordSize = 0 from Nat.div_eq_of_lt h]
      exact loadRows_nil turns p _

theorem parseModelRow_adds {p p' : StorageCostPredictor} {d d' : BinaryDeserializer}
    (h : p.parseModelRow d = some (p', d')) : p.updates <+: p'.updates := by
  simp only [parseModelRow, Option.bind_eq_bind, Option.bind_eq_some_iff] at h
  obtain ⟨_, -, _, -, _, -, _, -, hrow⟩ := h
  cases hrow
  exact List.prefix_append _ _

theorem parseModelRows_adds {nrows : Nat} {p p' : StorageCostPredictor} {d d' : BinaryDeserializer}
    (h : parseModelRows nrows p d = some (p', d')) : p.updates <+: p'.updates := by
  induction nrows generalizing p d with
  | zero =>
    cases h
    exact List.prefix_refl _
  | succ nrows ih =>
    rw [parseModelRows, Option.bind_eq_bind, Option.bind_eq_some_iff] at h
    obtain ⟨r, hr, hrest⟩ := h
    exact (parseModelRow_adds hr).trans (ih hrest)

/-- Loading only adds updates. -/
theorem loadRows_adds {turns : Nat} {file : List UInt8} {p p' : StorageCostPredictor} {d : BinaryDeserializer}
    (h : loadRows turns file p d = some p') : p.updates <+: p'.updates := by
  induction turns generalizing file p d with
  | zero =>
    cases h
    exact List.prefix_refl _
  | succ turns ih =>
    rw [loadRows] at h
    dsimp only at h
    split at h
    · cases h
      exact List.prefix_refl _
    · rw [Option.bind_eq_bind, Option.bind_eq_some_iff] at h
      obtain ⟨r, hr, hrest⟩ := h
      exact (parseModelRows_adds hr).trans (ih hrest)

/-- The first record is at the start of the buffer, and so is the offset. -/
theorem loadRows_first (turns : Nat) (row : ModelRow) (file uninitialised : List UInt8) (p : StorageCostPredictor) :
    loadRows (turns + 1) (row.bytes ++ file) p { data := uninitialised } =
      loadRows turns file (p.updateCoeffs row) { data := row.bytes ++ uninitialised.drop 16, bufOff := 16 } := by
  have hbytes : ((BinaryDeserializer.fill { data := uninitialised } row.bytes).data.drop 0) =
      row.bytes ++ uninitialised.drop 16 := rfl
  rw [loadRows_record, parseModelRow_append p hbytes]
  rfl

/-- The second record is at the start of the buffer too, and what is parsed stands behind it. -/
theorem loadRows_second (turns : Nat) {row parsed : ModelRow} {first rest uninitialised : List UInt8}
    (hfirst : first.length = 16) (hbytes : uninitialised = parsed.bytes ++ rest) (file : List UInt8)
    (p : StorageCostPredictor) :
    loadRows (turns + 1) (row.bytes ++ file) p { data := first ++ uninitialised, bufOff := 16 } =
      loadRows turns file (p.updateCoeffs parsed) { data := row.bytes ++ uninitialised, bufOff := 32 } := by
  have hfill : (BinaryDeserializer.fill { data := first ++ uninitialised, bufOff := 16 } row.bytes) =
      { data := row.bytes ++ uninitialised, bufOff := 16 } := by
    rw [BinaryDeserializer.fill, ModelRow.length_bytes, List.drop_left' hfirst]
  have hoffset : (row.bytes ++ uninitialised).drop 16 = parsed.bytes ++ rest := by
    rw [List.drop_left' row.length_bytes, hbytes]
  rw [loadRows_record, hfill, parseModelRow_append p hoffset]
  rfl

/-! ## Saved and loaded -/

/-- Loading the file of `rows`, with `fragment` behind them, updates the models once for each record, in order. -/
def LoadsBack (rows : List ModelRow) (fragment : List UInt8) (required : Bool) (p : StorageCostPredictor) : Prop :=
  ∀ uninitialised : List UInt8, uninitialised.length = bufferSize → ∃ p',
    loadModelCsvPart uninitialised (some (saveModelCsv rows ++ fragment)) required p = .ok (true, p') ∧
      p'.updates = p.updates ++ rows

theorem loadModelCsvPart_eq {uninitialised file : List UInt8} {required : Bool} {p p' : StorageCostPredictor}
    (h : loadRows file.length file p { data := uninitialised } = some p') :
    loadModelCsvPart uninitialised (some file) required p = .ok (true, p') := by
  rw [loadModelCsvPart, h]

/-- A row of equal bytes. -/
def constantRow (b : UInt8) : ModelRow := ⟨⟨b, b, b, b⟩, ⟨b, b, b, b⟩, ⟨b, b, b, b⟩, ⟨b, b, b, b⟩⟩

theorem replicate_row (n : Nat) (b : UInt8) :
    List.replicate (16 + n) b = (constantRow b).bytes ++ List.replicate n b := by
  rw [← List.replicate_append_replicate]
  rfl

/-- With a buffer of equal bytes the second update is made of that byte. -/
theorem second_update {first second : ModelRow} {file : List UInt8} {required : Bool} {p p' : StorageCostPredictor}
    {b : UInt8}
    (h : loadModelCsvPart (List.replicate bufferSize b) (some (first.bytes ++ (second.bytes ++ file))) required p =
      .ok (true, p')) : p.updates ++ [first, constantRow b] <+: p'.updates := by
  have hturns : (first.bytes ++ (second.bytes ++ file)).length = file.length + 30 + 1 + 1 := by
    simp only [List.length_append, ModelRow.length_bytes]
    omega
  have hbuffer : (List.replicate bufferSize b).drop 16 = (constantRow b).bytes ++ List.replicate (bufferSize - 32) b := by
    rw [List.drop_replicate, ← replicate_row]
    rfl
  rw [loadModelCsvPart, hturns, loadRows_first, loadRows_second _ first.length_bytes hbuffer] at h
  split at h
  · cases h
  · rename_i hload
    cases h
    have hprefix := loadRows_adds hload
    simpa only [updateCoeffs, List.append_assoc, List.singleton_append] using hprefix

end Symbios
