import Symbios.Model.ShadowMetadata
import Symbios.Proof.Sizes

/-!
# Records that are read back

What `%d` prints `atoi` reads (`atoi_printInt`), and a word with a separator behind it is cut off whole. So a record is
read back exactly when its strings are words and its offset is an `int` (`readBack_iff`). The ranks of the test have no
key in common (`keys_disjoint`): whatever the order of the steps, a run finds the records of the run before it
(`created_are_found`).
-/

namespace Symbios

open Sizes Tokens
open EStateM (AgreeOn bind_ok)

/-! ## Integers -/

section ints

variable {i : Int32}

theorem int32_bounds (i : Int32) : -2 ^ 31 ≤ i.toInt ∧ i.toInt < 2 ^ 31 :=
  ⟨i.le_toInt, i.toInt_lt⟩

theorem mem_printInt {c : UInt8} (hc : c ∈ printInt i) : c = 45 ∨ isDigit c := by
  unfold printInt at hc
  rcases List.mem_append.mp hc with hc | hc
  · split_ifs at hc
    · exact Or.inl (List.mem_singleton.mp hc)
    · cases hc
  · exact Or.inr (isDigit_of_decimal hc)

/-- No byte of a printed integer is a zero, a separator or an underscore. -/
theorem printInt_plain {c : UInt8} (hc : c ∈ printInt i) : c ≠ 0 ∧ c ≠ serdeMdSep ∧ c ≠ 95 := by
  have hall : ∀ c : UInt8, c = 45 ∨ isDigit c → c ≠ 0 ∧ c ≠ serdeMdSep ∧ c ≠ 95 := by decide +kernel
  exact hall c (mem_printInt hc)

theorem printInt_word (i : Int32) : IsToken serdeMdSep (printInt i) where
  ne_nil := List.append_ne_nil_of_right_ne_nil _ (Decimal.decimal_ne_nil _)
  not_mem h := (printInt_plain h).2.1 rfl

theorem printInt_length (i : Int32) : (printInt i).length ≤ 11 := by
  have hdigits : (Decimal.decimal i.toInt.natAbs).length ≤ 10 := by
    apply Decimal.decimal_length_le (by decide)
    have := int32_bounds i
    omega
  have hsign : (if i.toInt < 0 then [45] else [] : List UInt8).length ≤ 1 := by
    split_ifs <;> simp
  rw [printInt, List.length_append]
  omega

theorem leadingNumber_printInt (i : Int32) :
    leadingNumber (printInt i) = some (decide (i.toInt < 0), i.toInt.natAbs) := by
  have hsign : IsSign (if i.toInt < 0 then [45] else []) (decide (i.toInt < 0)) := by
    by_cases hi : i.toInt < 0
    · rw [if_pos hi]
      exact Or.inl ⟨rfl, decide_eq_true hi⟩
    · rw [if_neg hi]
      exact Or.inr ⟨Or.inl rfl, decide_eq_false hi⟩
  have hleads : Leads _ _ i.toInt.natAbs :=
    leads_decimal hsign i.toInt.natAbs fun c (hc : [].head? = some c) => by cases hc
  rw [List.append_nil] at hleads
  exact (leadingNumber_iff _ _ _).mpr hleads

/-- What is printed is read back. -/
theorem atoi_printInt (i : Int32) : atoi (printInt i) = some i := by
  have hbounds := int32_bounds i
  have hvalue : (if decide (i.toInt < 0) = true then -(i.toInt.natAbs : Int) else i.toInt.natAbs) = i.toInt := by
    by_cases hi : i.toInt < 0
    · rw [if_pos (decide_eq_true hi)]
      omega
    · rw [if_neg (by simpa using hi)]
      omega
  rw [atoi, leadingNumber_printInt]
  dsimp only
  rw [hvalue, if_pos hbounds, Int32.ofInt_toInt]

theorem printInt_injective : Function.Injective printInt := by
  intro i j h
  have hread := atoi_printInt i
  rw [h, atoi_printInt] at hread
  exact (Option.some.inj hread).symm

end ints

/-! ## Records -/

@[simp] theorem CString.ofBytes_bytes (s : CString) : CString.ofBytes s.bytes = s := by
  have hbytes : s.bytes.takeWhile (· ≠ 0) = s.bytes :=
    List.takeWhile_eq_self_iff.mpr fun c hc => by simpa using fun heq : c = 0 => s.noZero (heq ▸ hc)
  unfold CString.ofBytes
  simp only [hbytes]

theorem CString.bytes_ofBytes {bytes : List UInt8} (h : 0 ∉ bytes) : (CString.ofBytes bytes).bytes = bytes :=
  congrArg CString.bytes (CString.ofBytes_bytes ⟨bytes, h⟩)

/-- A token of a string is a word, and so is what C sees of it. -/
theorem word_ofBytes {s word rest : List UInt8} (hs : 0 ∉ s) (h : next serdeMdSep s = some (word, rest)) :
    IsToken serdeMdSep (CString.ofBytes word).bytes ∧ 0 ∉ rest := by
  obtain ⟨hword, hrest⟩ := subset_of_next h
  rw [CString.bytes_ofBytes fun hmem => hs (hword hmem)]
  exact ⟨word_of_next h, fun hmem => hs (hrest hmem)⟩

/-- Whatever is read has words for its strings. -/
theorem deserialize_words {text : CString} {m : SymbiosMetadata} (h : deserializeMetadata text = some m) :
    IsToken serdeMdSep m.dataId.bytes ∧
      (m.primary = false → ∃ server, m.server = some server ∧ IsToken serdeMdSep server.bytes) := by
  unfold deserializeMetadata at h
  obtain ⟨⟨dataId, rest⟩, hdataId, h⟩ := Option.bind_eq_some_iff.mp h
  obtain ⟨⟨word, rest'⟩, hflag, h⟩ := Option.bind_eq_some_iff.mp h
  obtain ⟨primary, -, h⟩ := Option.bind_eq_some_iff.mp h
  obtain ⟨hword, hrest⟩ := word_ofBytes text.noZero hdataId
  dsimp only at h
  split_ifs at h with hprimary
  · rw [← Option.some.inj h]
    exact ⟨hword, fun hfalse => by cases hfalse⟩
  · obtain ⟨⟨word, rest₂⟩, htarget, h⟩ := Option.bind_eq_some_iff.mp h
    obtain ⟨targetStor, -, h⟩ := Option.bind_eq_some_iff.mp h
    obtain ⟨⟨server, rest₃⟩, hserver, h⟩ := Option.bind_eq_some_iff.mp h
    obtain ⟨⟨word, rest₄⟩, -, h⟩ := Option.bind_eq_some_iff.mp h
    obtain ⟨port, -, h⟩ := Option.bind_eq_some_iff.mp h
    obtain ⟨offset, -, h⟩ := Option.bind_eq_some_iff.mp h
    obtain ⟨-, hrest'⟩ := word_ofBytes hrest hflag
    obtain ⟨-, hrest₂⟩ := word_ofBytes hrest' htarget
    rw [← Option.some.inj h]
    exact ⟨hword, fun _ => ⟨.ofBytes server, rfl, (word_ofBytes hrest₂ hserver).1⟩⟩

namespace SymbiosMetadata

variable {m : SymbiosMetadata}

/-- What is kept of a record: of a primary one its name, and the offset of a record on a parallel file system. -/
def readBack (m : SymbiosMetadata) : SymbiosMetadata :=
  if m.primary then { m with targetStor := -1, server := none, port := -1, offset := -1 }
  else if m.targetStor = 0 ∨ m.targetStor = 1 then m
  else { m with offset := -1 }

@[simp] theorem readBack_primary (m : SymbiosMetadata) : m.readBack.primary = m.primary := by
  unfold readBack
  split_ifs <;> rfl

@[simp] theorem readBack_dataId (m : SymbiosMetadata) : m.readBack.dataId = m.dataId := by
  unfold readBack
  split_ifs <;> rfl

theorem readBack_server (hprimary : m.primary = false) : m.readBack.server = m.server := by
  unfold readBack
  rw [if_neg (by simp [hprimary])]
  split_ifs <;> rfl

theorem readBack_offset (m : SymbiosMetadata) : m.readBack.offset =
    if m.primary = false ∧ (m.targetStor = 0 ∨ m.targetStor = 1) then m.offset else -1 := by
  unfold readBack
  by_cases hprimary : m.primary = true
  · rw [if_pos hprimary, if_neg (by simp [hprimary])]
  · rw [if_neg hprimary]
    by_cases htarget : m.targetStor = 0 ∨ m.targetStor = 1
    · rw [if_pos htarget, if_pos ⟨Bool.eq_false_iff.mpr hprimary, htarget⟩]
    · rw [if_neg htarget, if_neg fun h => htarget h.2]

/-- The records that the format is made for. -/
structure Storable (m : SymbiosMetadata) : Prop where
  fits : m.text.length < 1024
  dataId : IsToken serdeMdSep m.dataId.bytes
  server : m.primary = false → ∃ server, m.server = some server ∧ IsToken serdeMdSep server.bytes
  offset : m.primary = false → m.targetStor = 0 ∨ m.targetStor = 1 →
    m.offset.toNat < 2 ^ 31 ∨ 2 ^ 64 - 2 ^ 31 ≤ m.offset.toNat

theorem text_eq (m : SymbiosMetadata) : m.text =
    m.dataId.bytes ++ serdeMdSep :: ((if m.primary then [49] else [48]) ++ serdeMdSep :: (printInt m.targetStor ++
      serdeMdSep :: ((m.server.map CString.bytes).getD [] ++ serdeMdSep :: (printInt m.port ++
        serdeMdSep :: (printInt (.ofInt m.offset.toNat) ++ serdeMdSep :: []))))) := by
  simp [text, fields]

theorem text_length (m : SymbiosMetadata) :
    m.text.length ≤ m.dataId.bytes.length + ((m.server.map CString.bytes).getD []).length + 40 := by
  have htarget := printInt_length m.targetStor
  have hport := printInt_length m.port
  have hoffset := printInt_length (.ofInt m.offset.toNat)
  have hflag : (if m.primary = true then [49] else [48] : List UInt8).length = 1 := by
    split_ifs <;> rfl
  simp only [text_eq, List.length_append, List.length_cons, List.length_nil, hflag]
  omega

theorem text_noZero (m : SymbiosMetadata) : 0 ∉ m.text := by
  intro hmem
  obtain ⟨field, hfield, hmem⟩ := List.mem_flatMap.mp hmem
  rcases List.mem_append.mp hmem with hmem | hmem
  · simp only [fields, List.mem_cons, List.not_mem_nil, or_false] at hfield
    rcases hfield with rfl | rfl | rfl | rfl | rfl | rfl
    · exact m.dataId.noZero hmem
    · revert hmem
      split_ifs <;> decide
    · exact (printInt_plain hmem).1 rfl
    · cases hserver : m.server with
      | none =>
        rw [hserver] at hmem
        cases hmem
      | some server =>
        rw [hserver] at hmem
        exact server.noZero hmem
    · exact (printInt_plain hmem).1 rfl
    · exact (printInt_plain hmem).1 rfl
  · exact absurd hmem (by decide)

/-- The number that is read for an offset. -/
theorem deserializeOffset_printed (target : Int32) (offset : UInt64) : deserializeOffset target
    (printInt (.ofInt offset.toNat) ++ serdeMdSep :: []) =
      some (if target = 0 ∨ target = 1 then .ofInt (Int32.ofInt offset.toNat).toInt else -1) := by
  unfold deserializeOffset
  split_ifs
  · rw [next_word (printInt_word _)]
    simp only [Option.bind_eq_bind, Option.bind_some, atoi_printInt]
    rfl
  · rfl

/-- What is read of the text of a record whose strings are words. -/
theorem deserialize_text (hdataId : IsToken serdeMdSep m.dataId.bytes)
    (hserver : m.primary = false → ∃ server, m.server = some server ∧ IsToken serdeMdSep server.bytes) :
    deserializeMetadata (.ofBytes m.text) = some { m.readBack with
      offset := if m.primary = false ∧ (m.targetStor = 0 ∨ m.targetStor = 1) then
        .ofInt (Int32.ofInt m.offset.toNat).toInt else -1 } := by
  unfold deserializeMetadata
  rw [CString.bytes_ofBytes m.text_noZero, text_eq, next_word hdataId]
  simp only [Option.bind_eq_bind, Option.bind_some, CString.ofBytes_bytes]
  obtain ⟨primary, dataId, targetStor, server, port, offset⟩ := m
  cases primary with
  | true =>
    have hflag : IsToken serdeMdSep [49] := ⟨by decide, by decide⟩
    have hone : atoi [49] = some 1 := by decide
    rw [if_pos rfl, next_word hflag]
    simp only [Option.bind_some, hone]
    rfl
  | false =>
    have hflag : IsToken serdeMdSep [48] := ⟨by decide, by decide⟩
    have hzero : atoi [48] = some 0 := by decide
    obtain ⟨server, rfl, hword⟩ := hserver rfl
    rw [if_neg Bool.false_ne_true, next_word hflag]
    simp only [Option.bind_some, hzero]
    rw [if_neg (by decide), next_word (printInt_word _)]
    simp only [Option.bind_some, atoi_printInt, Option.map_some, Option.getD_some]
    rw [next_word hword]
    simp only [Option.bind_some]
    rw [next_word (printInt_word _)]
    simp only [Option.bind_some, atoi_printInt, deserializeOffset_printed, CString.ofBytes_bytes]
    by_cases htarget : targetStor = 0 ∨ targetStor = 1
    · simp [readBack, htarget]
    · simp [readBack, htarget]

/-- An offset is read back exactly when it is an `int`, also one below zero. -/
theorem offset_iff (offset : UInt64) : UInt64.ofInt (Int32.ofInt offset.toNat).toInt = offset ↔
    offset.toNat < 2 ^ 31 ∨ 2 ^ 64 - 2 ^ 31 ≤ offset.toNat := by
  have hlt := offset.toNat_lt
  rw [← UInt64.toNat_inj, UInt64.ofInt, UInt64.toNat_ofNat', Int32.toInt_ofInt]
  simp only [Int.bmod, Int32.size, Nat.cast_ofNat]
  split_ifs <;> omega

theorem Storable.serialize (h : m.Storable) : serializeMetadata m = some m.text := if_pos h.fits

theorem Storable.deserialize (h : m.Storable) : deserializeMetadata (.ofBytes m.text) = some m.readBack := by
  have hoffset : (if m.primary = false ∧ (m.targetStor = 0 ∨ m.targetStor = 1) then
      .ofInt (Int32.ofInt m.offset.toNat).toInt else -1) = m.readBack.offset := by
    rw [readBack_offset]
    split_ifs with hkept
    · exact (offset_iff _).mpr (h.offset hkept.1 hkept.2)
    · rfl
  rw [deserialize_text h.dataId h.server, hoffset]

/-- **The records that are read back** are exactly those with words for their strings, an `int` for the offset that is
kept, and at most 1023 bytes of text; of every other record the text does not fit, or something else is read, or what
is read is undefined. -/
theorem readBack_iff (m : SymbiosMetadata) :
    (∃ text, serializeMetadata m = some text ∧ deserializeMetadata (.ofBytes text) = some m.readBack) ↔ m.Storable := by
  constructor
  · rintro ⟨text, htext, hread⟩
    unfold serializeMetadata at htext
    split_ifs at htext with hfits
    obtain rfl := Option.some.inj htext
    obtain ⟨hdataId, hserver⟩ := deserialize_words hread
    rw [readBack_dataId] at hdataId
    have hserver' : m.primary = false → ∃ server, m.server = some server ∧ IsToken serdeMdSep server.bytes := by
      intro hprimary
      rw [← readBack_server hprimary]
      exact hserver (m.readBack_primary.trans hprimary)
    refine ⟨hfits, hdataId, hserver', fun hprimary htarget => ?_⟩
    rw [deserialize_text hdataId hserver'] at hread
    have hoffset := (congrArg offset (Option.some.inj hread)).trans m.readBack_offset
    dsimp only at hoffset
    rw [if_pos ⟨hprimary, htarget⟩, if_pos ⟨hprimary, htarget⟩] at hoffset
    exact (offset_iff _).mp hoffset
  · intro h
    exact ⟨m.text, h.serialize, h.deserialize⟩

/-- A shadow record without a server: its port is taken for the server, and there is no token left for the offset. -/
example : (serializeMetadata ⟨false, ⟨[102], by decide⟩, 0, none, 3334, 7⟩).map (fun text =>
    deserializeMetadata (.ofBytes text)) = some none := by decide +kernel

end SymbiosMetadata

/-! ## Commands -/

section commands

variable {m : SymbiosMetadata} {s : LinkCluster}

theorem create_run (h : m.Storable) (s : LinkCluster) : createSymbiosMetadataRedis m s =
    .ok ⟨⟩ fun i => Function.update (s i) m.dataId.bytes (some m.text) := by
  rw [createSymbiosMetadataRedis, h.serialize]
  rfl

theorem query_eq (dataId : CString) (s : LinkCluster) : querySymbiosMetadataByIdRedis dataId s =
    defined ((copyReply (s () dataId.bytes)).bind deserializeMetadata) s := rfl

theorem query_run (h : m.Storable) (hs : s () m.dataId.bytes = some m.text) :
    querySymbiosMetadataByIdRedis m.dataId s = .ok m.readBack s := by
  have hcopy : copyReply (some m.text) = some (.ofBytes m.text) := by
    refine if_pos ?_
    rw [CString.bytes_ofBytes m.text_noZero]
    exact h.fits
  rw [query_eq, hs, hcopy, Option.bind_some, h.deserialize]
  rfl

end commands

/-! ## The test -/

namespace LinkTest

variable {conf : LinkTest} {rank draw i : Int32}

/-- The bytes of a key, before C sees them. -/
theorem keyText_plain {c : UInt8}
    (hc : c ∈ keyBase ++ 95 :: (printInt rank ++ 95 :: (printInt draw ++ 95 :: printInt i))) :
    c ≠ 0 ∧ c ≠ serdeMdSep := by
  have hbase : ∀ c ∈ keyBase, c ≠ 0 ∧ c ≠ serdeMdSep := by decide +kernel
  have hint : ∀ {j : Int32}, c ∈ printInt j → c ≠ 0 ∧ c ≠ serdeMdSep := fun h =>
    ⟨(printInt_plain h).1, (printInt_plain h).2.1⟩
  rw [List.mem_append, List.mem_cons, List.mem_append, List.mem_cons, List.mem_append, List.mem_cons] at hc
  rcases hc with hc | rfl | hc | rfl | hc | rfl | hc
  · exact hbase c hc
  · decide
  · exact hint hc
  · decide
  · exact hint hc
  · decide
  · exact hint hc

theorem key_bytes (rank draw i : Int32) : (key rank draw i).bytes =
    keyBase ++ 95 :: (printInt rank ++ 95 :: (printInt draw ++ 95 :: printInt i)) :=
  CString.bytes_ofBytes fun hmem => (keyText_plain hmem).1 rfl

theorem key_word (rank draw i : Int32) : IsToken serdeMdSep (key rank draw i).bytes := by
  rw [key_bytes]
  exact ⟨by simp, fun hmem => (keyText_plain hmem).2 rfl⟩

theorem key_length (rank draw i : Int32) : (key rank draw i).bytes.length ≤ 40 := by
  have hrank := printInt_length rank
  have hdraw := printInt_length draw
  have hi := printInt_length i
  have hbase : keyBase.length = 4 := rfl
  simp only [key_bytes, List.length_append, List.length_cons, hbase]
  omega

/-- The keys that a rank may use. -/
def keys (rank : Int32) : Set (List UInt8) := {k | ∃ draw i, k = (key rank draw i).bytes}

/-- No key belongs to two ranks. -/
theorem keys_disjoint {rank rank' : Int32} (hne : rank ≠ rank') : Disjoint (keys rank) (keys rank') := by
  have hint : ∀ i : Int32, IsToken 95 (printInt i) := fun i =>
    ⟨(printInt_word i).ne_nil, fun hmem => (printInt_plain hmem).2.2 rfl⟩
  rw [Set.disjoint_left]
  rintro k ⟨draw, i, rfl⟩ ⟨draw', i', h⟩
  rw [key_bytes, key_bytes] at h
  have hrest := congrArg (next 95) h
  rw [next_word ⟨by decide, by decide⟩, next_word ⟨by decide, by decide⟩, Option.some.injEq, Prod.mk.injEq] at hrest
  have hrank := congrArg (next 95) hrest.2
  rw [next_word (hint rank), next_word (hint rank'), Option.some.injEq, Prod.mk.injEq] at hrank
  exact hne (printInt_injective hrank.1)

/-- The two kinds of records that `write_test` makes. -/
theorem metadata_cases {k : CString} {m : SymbiosMetadata} (h : conf.metadata k = some m) :
    m = primaryMetadata k ∨ ∃ offset, -2 ^ 31 ≤ offset ∧ offset < 2 ^ 31 ∧ m = shadowMetadata k offset := by
  unfold metadata at h
  by_cases hprimary : conf.primary = true
  · rw [if_pos hprimary] at h
    exact Or.inl (Option.some.inj h).symm
  · rw [if_neg hprimary] at h
    dsimp only at h
    split_ifs at h with hrange
    exact Or.inr ⟨_, hrange.1, hrange.2, (Option.some.inj h).symm⟩

theorem metadata_dataId {k : CString} {m : SymbiosMetadata} (h : conf.metadata k = some m) : m.dataId = k := by
  rcases metadata_cases h with rfl | ⟨offset, -, -, rfl⟩ <;> rfl

/-- The options of which `write_test` makes records: the product of a shadow record is an `int`. -/
def Suits (conf : LinkTest) : Prop := conf.primary = true ∨ conf.count.toInt < 2 ^ 17

theorem metadata_some (h : conf.Suits) (hcount : 0 ≤ conf.count.toInt) (k : CString) : ∃ m, conf.metadata k = some m := by
  unfold metadata
  by_cases hprimary : conf.primary = true
  · rw [if_pos hprimary]
    exact ⟨_, rfl⟩
  · have hlt := h.resolve_left hprimary
    dsimp only
    rw [if_neg hprimary, if_pos (by omega)]
    exact ⟨_, rfl⟩

/-- Every record of the test is one that is read back. -/
theorem metadata_storable {m : SymbiosMetadata} (h : conf.metadata (key rank draw i) = some m) : m.Storable := by
  have hkey := key_length rank draw i
  have hword := key_word rank draw i
  have hlength := m.text_length
  rcases metadata_cases h with rfl | ⟨offset, hle, hlt, rfl⟩
  · refine ⟨?_, hword, Bool.noConfusion, Bool.noConfusion⟩
    simp only [primaryMetadata, Option.map_none, Option.getD_none, List.length_nil] at hlength ⊢
    omega
  · refine ⟨?_, hword, fun _ => ⟨server, rfl, by decide, by decide⟩, fun _ _ => ?_⟩
    · have hserver : server.bytes.length = 12 := rfl
      simp only [shadowMetadata, Option.map_some, Option.getD_some, hserver] at hlength ⊢
      omega
    · show (UInt64.ofInt offset).toNat < 2 ^ 31 ∨ 2 ^ 64 - 2 ^ 31 ≤ (UInt64.ofInt offset).toNat
      rw [UInt64.ofInt, UInt64.toNat_ofNat']
      omega

/-! ### A rank alone -/

/-- The store has the text of the record under the key. -/
def Holds (conf : LinkTest) (s : LinkCluster) (k : CString) : Prop :=
  ∃ m, conf.metadata k = some m ∧ s () k.bytes = some m.text

/-- A turn of `write_test`. -/
def writeTurn (conf : LinkTest) (k : CString) : EStateM Fault LinkCluster PUnit := do
  let m ← defined (conf.metadata k)
  createSymbiosMetadataRedis m

theorem writeTurn_run {m : SymbiosMetadata} (h : conf.metadata (key rank draw i) = some m) (s : LinkCluster) :
    writeTurn conf (key rank draw i) s = .ok ⟨⟩ fun j => Function.update (s j) (key rank draw i).bytes (some m.text) := by
  rw [writeTurn, h, ← metadata_dataId h]
  exact create_run (metadata_storable h) s

/-- Step: the record is there, and every record that was there still is. -/
theorem writeTurn_holds (h : conf.Suits) (hcount : 0 ≤ conf.count.toInt) (rank draw i : Int32) (s : LinkCluster) :
    ∃ s', writeTurn conf (key rank draw i) s = .ok ⟨⟩ s' ∧ conf.Holds s' (key rank draw i) ∧
      ∀ k, conf.Holds s k → conf.Holds s' k := by
  obtain ⟨m, hm⟩ := metadata_some h hcount (key rank draw i)
  have hnew : conf.Holds (fun j => Function.update (s j) (key rank draw i).bytes (some m.text)) (key rank draw i) :=
    ⟨m, hm, Function.update_self _ _ _⟩
  refine ⟨_, writeTurn_run hm s, hnew, fun k hk => ?_⟩
  by_cases heq : k = key rank draw i
  · rw [heq]
    exact hnew
  · obtain ⟨m', hm', hs⟩ := hk
    have hbytes : k.bytes ≠ (key rank draw i).bytes := fun hbytes => heq (CString.ext hbytes)
    exact ⟨m', hm', (Function.update_of_ne hbytes _ _).trans hs⟩

/-- Run: the records of all turns are there. -/
theorem writeTest_holds (h : conf.Suits) (rank : Int32) (rand : Nat → Int32) {l : List Nat}
    (hcount : ∀ i ∈ l, 0 ≤ conf.count.toInt) (s : LinkCluster) :
    ∃ s', (l.forM fun i => writeTurn conf (key rank (rand i) (.ofNat i))) s = .ok ⟨⟩ s' ∧
      (∀ i ∈ l, conf.Holds s' (key rank (rand i) (.ofNat i))) ∧ ∀ k, conf.Holds s k → conf.Holds s' k := by
  induction l generalizing s with
  | nil => exact ⟨s, rfl, by simp, fun _ hk => hk⟩
  | cons i l ih =>
    obtain ⟨s₁, hturn, hnew, hold⟩ := writeTurn_holds h (hcount i List.mem_cons_self) rank (rand i) (.ofNat i) s
    obtain ⟨s₂, hrest, hall, hold'⟩ := ih (fun j hj => hcount j (List.mem_cons_of_mem _ hj)) s₁
    refine ⟨s₂, (bind_ok hturn).trans hrest, fun j hj => ?_, fun k hk => hold' k (hold k hk)⟩
    rcases List.mem_cons.mp hj with rfl | hj
    · exact hold' _ hnew
    · exact hall j hj

/-- Run: whoever finds the texts reads the records. -/
theorem readTest_run (rank : Int32) (rand : Nat → Int32) {l : List Nat} {s : LinkCluster}
    (hall : ∀ i ∈ l, conf.Holds s (key rank (rand i) (.ofNat i))) :
    ∃ found, (l.mapM fun i => querySymbiosMetadataByIdRedis (key rank (rand i) (.ofNat i))) s = .ok found s ∧
      found.map some = l.map fun i => (conf.metadata (key rank (rand i) (.ofNat i))).map SymbiosMetadata.readBack := by
  induction l with
  | nil => exact ⟨[], rfl, rfl⟩
  | cons i l ih =>
    obtain ⟨m, hm, hs⟩ := hall i List.mem_cons_self
    obtain ⟨found, hrun, hfound⟩ := ih fun j hj => hall j (List.mem_cons_of_mem _ hj)
    have hquery : querySymbiosMetadataByIdRedis (key rank (rand i) (.ofNat i)) s = .ok m.readBack s := by
      rw [← metadata_dataId hm] at hs ⊢
      exact query_run (metadata_storable hm) hs
    refine ⟨m.readBack :: found, ?_, ?_⟩
    · rw [List.mapM_cons]
      exact (bind_ok hquery).trans (bind_ok hrun)
    · rw [List.map_cons, List.map_cons, hfound, hm, Option.map_some]

/-! ### All ranks -/

theorem defined_run {α : Type} (x : Option α) (s s' : LinkCluster) :
    (defined x s).final = s ∧ (defined x s).outcome = (defined x s').outcome := by
  cases x with
  | none => exact ⟨rfl, rfl⟩
  | some a => exact ⟨rfl, rfl⟩

theorem writeTurn_confined (conf : LinkTest) (rank draw i : Int32) :
    EStateM.Confined (fun _ => True) (keys rank) (fun _ => True) (writeTurn conf (key rank draw i)) := by
  have hkey : (key rank draw i).bytes ∈ keys rank := ⟨draw, i, rfl⟩
  cases hm : conf.metadata (key rank draw i) with
  | none =>
    have hraise : writeTurn conf (key rank draw i) = throw .undefined := by
      rw [writeTurn, hm]
      rfl
    rw [hraise]
    exact .raise _
  | some m =>
    have hrun := writeTurn_run hm
    refine ⟨fun _ _ _ _ _ => trivial, fun _ _ => trivial, fun s _ j k hk => ?_, fun s s' _ _ hagree => ?_⟩
    · have hne : k ≠ (key rank draw i).bytes := fun heq => hk (by rwa [heq])
      rw [hrun]
      exact Function.update_of_ne hne _ _
    · rw [hrun, hrun]
      refine ⟨rfl, fun j k hk => ?_⟩
      show Function.update (s j) _ _ k = Function.update (s' j) _ _ k
      by_cases heq : k = (key rank draw i).bytes
      · rw [heq, Function.update_self, Function.update_self]
      · rw [Function.update_of_ne heq, Function.update_of_ne heq, hagree j k hk]

theorem query_confined (rank draw i : Int32) : EStateM.Confined (fun _ => True) (keys rank) (fun _ => True)
    (querySymbiosMetadataByIdRedis (key rank draw i)) := by
  refine ⟨fun _ _ _ _ _ => trivial, fun _ _ => trivial, fun s _ j k _ => ?_, fun s s' _ _ hagree => ?_⟩
  · rw [query_eq, (defined_run _ s s).1]
  · have hvalue : s () (key rank draw i).bytes = s' () (key rank draw i).bytes := hagree () _ ⟨draw, i, rfl⟩
    rw [query_eq, query_eq, hvalue, (defined_run _ s s').1, (defined_run _ s' s').1]
    exact ⟨(defined_run _ s s').2, hagree⟩

theorem query_readOnly (k : CString) (s : LinkCluster) : (querySymbiosMetadataByIdRedis k s).final = s := by
  rw [query_eq, (defined_run _ s s).1]

variable (conf) (rand : Int32 → Nat → Int32) (s : LinkCluster)

@[simp] theorem writers_state : (conf.writers rand s).state = s := rfl

@[simp] theorem readers_state : (conf.readers rand s).state = s := rfl

theorem writers_separated : Thread.Separated (fun _ _ => True) keys keys (fun _ _ => True) (conf.writers rand s) where
  confined rank := Thread.Confined.forM fun i _ => .atom (writeTurn_confined conf rank (rand rank i) (.ofNat i))
    (writeTurn_confined conf rank (rand rank i) (.ofNat i)).outside
  holds _ := trivial
  disjoint _ _ hne := keys_disjoint hne.symm
  respects _ _ _ _ _ := trivial

theorem readers_separated : Thread.Separated (fun _ _ => True) keys (fun _ => ∅) (fun _ _ => True)
    (conf.readers rand s) where
  confined rank := (Thread.Confined.mapM fun i _ => Thread.Confined.atom (query_confined rank (rand rank i) (.ofNat i))
    fun s _ j k _ => by rw [query_readOnly]).mono fun _ _ => trivial
  holds _ := trivial
  disjoint _ _ _ := Set.empty_disjoint _
  respects _ _ _ _ _ := trivial

theorem program_writers (rank : Int32) : Thread.program ((conf.writers rand s).threads rank) =
    conf.turns.forM fun i => writeTurn conf (key rank (rand rank i) (.ofNat i)) := by
  show Thread.program (conf.writeTest rank (rand rank)) = _
  rw [writeTest, Thread.program_forM]
  congr 1
  funext i
  exact Thread.program_atom _

theorem program_readers (rank : Int32) : Thread.program ((conf.readers rand s).threads rank) =
    conf.turns.mapM fun i => querySymbiosMetadataByIdRedis (key rank (rand rank i) (.ofNat i)) := by
  show Thread.program (conf.readTest rank (rand rank)) = _
  rw [readTest, Thread.program_mapM]
  congr 1
  funext i
  exact Thread.program_atom _

end LinkTest

end Symbios
