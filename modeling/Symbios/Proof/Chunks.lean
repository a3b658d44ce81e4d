import Symbios.Proof.Iris

/-!
# The chunks of a request

A run of the loop of `DataMapper::map` is a derivation of `Chunked`. Everything said about the chunks is read off it by
induction: they are not empty, fit into one object each, follow each other without a gap and end at an object's end
but for the last. The loop over machine words makes the same run as long as `long` holds the end of the request
(`wordChunks_of_chunked`).
-/

namespace Symbios

open LibHandler DataMapper

/-! ## Consecutive intervals -/

/-- Non-empty intervals, given by start and length, that lead from `a` to `b` without a gap. -/
def Consecutive : Nat → List (Nat × Nat) → Nat → Prop
  | a, [], b => a = b
  | a, (start, length) :: rest, b => start = a ∧ 0 < length ∧ Consecutive (a + length) rest b

/-! ## Pieces -/

/-- A chunk by the number of its object, the offset in it and the size. -/
structure Piece where
  index : Nat
  position : Nat
  size : Nat

namespace Piece

/-- The first position of the file. -/
def start (m : Nat) (c : Piece) : Nat := c.index * m + c.position

/-- The chunk as `DataMapper::map` describes it. -/
def descriptor (id : CharStruct) (c : Piece) : DataDescriptor :=
  { id := objectId id c.index, position := c.position, size := c.size, chunkIndex := c.index % 2 ^ 32 }

/-- The same in machine words. -/
def wordDescriptor (id : CharStruct) (c : Piece) : WordDescriptor :=
  { id := objectId id c.index, position := .ofNat c.position, size := .ofNat c.size, chunkIndex := .ofNat c.index }

end Piece

/-- The pieces of the `n` bytes at `p`, with objects of `m` bytes: one turn of the loop after the other. -/
inductive Chunked (m : Nat) : Nat → Nat → List Piece → Prop
  | done (p : Nat) : Chunked m p 0 []
  | turn {p n size : Nat} {rest : List Piece} (hn : 0 < n) (hsize : size = min n (m - p % m))
      (hrest : Chunked m (p + size) (n - size) rest) : Chunked m p n (⟨p / m, p % m, size⟩ :: rest)

/-- `pieces` is the partition of the `n` bytes at `p` along the objects of `m` bytes. -/
structure Partitions (m p n : Nat) (pieces : List Piece) : Prop where
  size_pos : ∀ c ∈ pieces, 0 < c.size
  fits : ∀ c ∈ pieces, c.position + c.size ≤ m
  consecutive : Consecutive p (pieces.map fun c => (c.start m, c.size)) (p + n)
  total : (pieces.map Piece.size).sum = n
  aligned : ∀ c ∈ pieces.dropLast, m ∣ c.start m + c.size
  count : pieces.length = if n = 0 then 0 else (p % m + n + (m - 1)) / m
  indices : pieces.map Piece.index = List.range' (p / m) pieces.length

/-! ### One turn -/

section turn

variable {m p n size : Nat}

theorem start_eq (m p : Nat) : p / m * m + p % m = p := Nat.div_add_mod' p m

theorem turn_size_pos (hm : 0 < m) (hn : 0 < n) (hsize : size = min n (m - p % m)) : 0 < size := by
  have hmod := Nat.mod_lt p hm
  omega

/-- A turn that leaves bytes over ends where its object ends. -/
theorem turn_full (hm : 0 < m) (hsize : size = min n (m - p % m)) (hleft : n - size ≠ 0) :
    size = m - p % m ∧ p + size = (p / m + 1) * m := by
  have hfull : size = m - p % m := by omega
  exact ⟨hfull, by rw [hfull, Segments.next_segment hm]⟩

end turn

section chunked

variable {m p n : Nat} {pieces : List Piece}

theorem exists_chunked (hm : 0 < m) : ∀ n p, ∃ pieces, Chunked m p n pieces := by
  intro n
  induction n using Nat.strong_induction_on with
  | _ n ih =>
    intro p
    rcases Nat.eq_zero_or_pos n with rfl | hn
    · exact ⟨[], .done p⟩
    · have hpos := turn_size_pos hm hn (p := p) rfl
      obtain ⟨rest, hrest⟩ := ih (n - min n (m - p % m)) (by omega) (p + min n (m - p % m))
      exact ⟨_, .turn hn rfl hrest⟩

theorem Chunked.length_pos (h : Chunked m p n pieces) (hn : 0 < n) : pieces ≠ [] := by
  cases h with
  | done => omega
  | turn => simp

theorem Chunked.size_pos (hm : 0 < m) (h : Chunked m p n pieces) : ∀ c ∈ pieces, 0 < c.size := by
  induction h with
  | done => simp
  | turn hn hsize _ ih =>
    intro c hc
    rcases List.mem_cons.mp hc with rfl | hc
    · exact turn_size_pos hm hn hsize
    · exact ih c hc

theorem Chunked.fits (hm : 0 < m) (h : Chunked m p n pieces) : ∀ c ∈ pieces, c.position + c.size ≤ m := by
  induction h with
  | done => simp
  | @turn p n size rest hn hsize _ ih =>
    intro c hc
    rcases List.mem_cons.mp hc with rfl | hc
    · have hmod := Nat.mod_lt p hm
      dsimp only
      omega
    · exact ih c hc

theorem Chunked.consecutive (hm : 0 < m) (h : Chunked m p n pieces) :
    Consecutive p (pieces.map fun c => (c.start m, c.size)) (p + n) := by
  induction h with
  | done => rfl
  | @turn p n size rest hn hsize _ ih =>
    refine ⟨start_eq m p, turn_size_pos hm hn hsize, ?_⟩
    rwa [show p + n = p + size + (n - size) by omega]

theorem Chunked.total (h : Chunked m p n pieces) : (pieces.map Piece.size).sum = n := by
  induction h with
  | done => rfl
  | turn hn hsize _ ih =>
    rw [List.map_cons, List.sum_cons, ih]
    dsimp only
    omega

theorem Chunked.aligned (hm : 0 < m) (h : Chunked m p n pieces) : ∀ c ∈ pieces.dropLast, m ∣ c.start m + c.size := by
  induction h with
  | done => simp
  | @turn p n size rest hn hsize hrest ih =>
    rcases Nat.eq_zero_or_pos (n - size) with hzero | hleft
    · -- the last piece
      rw [hzero] at hrest
      cases hrest with
      | done => simp
      | turn hn => omega
    · intro c hc
      rw [List.dropLast_cons_of_ne_nil (hrest.length_pos hleft)] at hc
      rcases List.mem_cons.mp hc with rfl | hc
      · rw [Piece.start, start_eq, (turn_full hm hsize (by omega)).2]
        exact Nat.dvd_mul_left m _
      · exact ih c hc

theorem Chunked.count (hm : 0 < m) (h : Chunked m p n pieces) :
    pieces.length = if n = 0 then 0 else (p % m + n + (m - 1)) / m := by
  induction h with
  | done => rfl
  | @turn p n size rest hn hsize _ ih =>
    have hmod := Nat.mod_lt p hm
    rw [List.length_cons, ih, if_neg (show n ≠ 0 by omega)]
    by_cases hleft : n - size = 0
    · rw [if_pos hleft]
      symm
      apply Nat.div_eq_of_lt_le <;> omega
    · rw [if_neg hleft]
      obtain ⟨hfull, hend⟩ := turn_full hm hsize hleft
      rw [hend, Nat.mul_mod_left, ← Nat.add_div_right _ hm]
      congr 1
      omega

theorem Chunked.indices (hm : 0 < m) (h : Chunked m p n pieces) :
    pieces.map Piece.index = List.range' (p / m) pieces.length := by
  induction h with
  | done => rfl
  | @turn p n size rest hn hsize hrest ih =>
    rw [List.map_cons, List.length_cons, List.range'_succ, ih]
    rcases Nat.eq_zero_or_pos (n - size) with hzero | hleft
    · rw [hzero] at hrest
      cases hrest with
      | done => rfl
      | turn hn => omega
    · rw [(turn_full hm hsize (by omega)).2, Nat.mul_div_cancel _ hm]

theorem Chunked.partitions (hm : 0 < m) (h : Chunked m p n pieces) : Partitions m p n pieces where
  size_pos := h.size_pos hm
  fits := h.fits hm
  consecutive := h.consecutive hm
  total := h.total
  aligned := h.aligned hm
  count := h.count hm
  indices := h.indices hm

/-- The loop over the naturals makes the run. -/
theorem Chunked.chunks (hm : 0 < m) (h : Chunked m p n pieces) (hlong : p + n < 2 ^ 63) (id : CharStruct) :
    ∀ turns, n ≤ turns → DataMapper.chunks m id turns n p = some (pieces.map (Piece.descriptor id)) := by
  induction h with
  | done => exact fun turns _ => chunks_zero m id turns _
  | @turn p n size rest hn hsize _ ih =>
    have hpos := turn_size_pos hm hn hsize
    intro turns hturns
    obtain ⟨turns, rfl⟩ : ∃ k, turns = k + 1 := ⟨turns - 1, by omega⟩
    rw [chunks_turn hm hn turns p hsize, if_pos (by omega), ih (by omega) turns (by omega)]
    rfl

end chunked

/-! ## The loop in machine words -/

section words

variable {m : Nat}

theorem ofNat_ne_zero {n : Nat} (hn : 0 < n) (hword : n < 2 ^ 64) : UInt64.ofNat n ≠ 0 := by
  intro h
  have hnat := congrArg UInt64.toNat h
  rw [UInt64.toNat_ofNat_of_lt' hword] at hnat
  simp only [UInt64.toNat_zero] at hnat
  omega

theorem bound_eq (hword : m < 2 ^ 32) : (UInt32.ofNat m).toUInt64.toInt64 = Int64.ofNat m := by
  have hm : (UInt32.ofNat m).toUInt64 = UInt64.ofNat m := by
    apply UInt64.toNat_inj.mp
    rw [UInt32.toNat_toUInt64, UInt32.toNat_ofNat_of_lt' hword, UInt64.toNat_ofNat_of_lt' (by simp [UInt64.size]; omega)]
  rw [hm, UInt64.toInt64_ofNat']

theorem toString_ofNat {k : Nat} (hk : k < 2 ^ 63) : DataMapper.toString (.ofNat k) = Decimal.decimal k := by
  have hint := Int64.toInt_ofNat_of_lt hk
  have hneg : ¬ Int64.ofNat k < 0 := by
    rw [Int64.lt_iff_toInt_lt, hint]
    simp
  rw [DataMapper.toString, if_neg hneg, hint, Int.natAbs_natCast]

/-- One turn over machine words. -/
theorem wordChunks_turn (hm : 0 < m) (hword : m < 2 ^ 32) {p n size : Nat} (hn : 0 < n) (hsize : size = min n (m - p % m))
    (hlong : p + n < 2 ^ 63) (id : CharStruct) (turns : Nat) :
    wordChunks (.ofNat m) id (turns + 1) (.ofNat n) (.ofNat p) =
      (wordChunks (.ofNat m) id turns (.ofNat (n - size)) (.ofNat (p + size))).map
        (Piece.wordDescriptor id ⟨p / m, p % m, size⟩ :: ·) := by
  have hmod := Nat.mod_lt p hm
  have hdiv := Nat.div_le_self p m
  have hposition := Int64.ofNat_mod (a := p) (b := m) (by omega) (by omega)
  have hindex := Int64.ofNat_div (a := p) (b := m) (by omega) (by omega)
  have hroom : (Int64.ofNat m - Int64.ofNat p % Int64.ofNat m).toUInt64 = UInt64.ofNat (m - p % m) := by
    rw [← hposition, ← Int64.ofNat_sub _ _ hmod.le, Int64.toUInt64_ofNat']
  have hcut : (if UInt64.ofNat n > UInt64.ofNat (m - p % m) then UInt64.ofNat (m - p % m) else UInt64.ofNat n) =
      UInt64.ofNat size := by
    have hlt := UInt64.ofNat_lt_iff_lt (a := m - p % m) (b := n) (by simp [UInt64.size]; omega) (by simp [UInt64.size]; omega)
    rw [hsize]
    split_ifs with h
    · rw [Nat.min_eq_right (hlt.mp h).le]
    · rw [Nat.min_eq_left (not_lt.mp fun hle => h (hlt.mpr hle))]
  have hbound : (UInt32.ofNat m) ≠ 0 := by
    intro h
    have hnat := congrArg UInt32.toNat h
    rw [UInt32.toNat_ofNat_of_lt' hword] at hnat
    simp only [UInt32.toNat_zero] at hnat
    omega
  have hend : (Int64.ofNat p).toInt + (Int64.ofNat size).toInt = (p + size : Nat) := by
    rw [Int64.toInt_ofNat_of_lt (by omega), Int64.toInt_ofNat_of_lt (by omega)]
    norm_cast
  rw [wordChunks, if_neg (ofNat_ne_zero hn (by omega)), if_neg hbound]
  dsimp only
  rw [bound_eq hword, hroom, hcut, UInt64.toInt64_ofNat', hend, if_pos (by omega), Int64.toUInt64_ofNat',
    ← UInt64.ofNat_sub (by omega), ← Int64.ofNat_add, ← hindex, ← hposition, toString_ofNat (by omega),
    Int64.toUInt64_ofNat', UInt64.toUInt32_ofNat']
  rfl

/-- The loop over machine words makes the run, in as many turns as there are bytes. -/
theorem wordChunks_of_chunked (hm : 0 < m) (hword : m < 2 ^ 32) {p n : Nat} {pieces : List Piece}
    (h : Chunked m p n pieces) (hlong : p + n < 2 ^ 63) (id : CharStruct) :
    ∀ turns, n ≤ turns →
      wordChunks (.ofNat m) id turns (.ofNat n) (.ofNat p) = some (pieces.map (Piece.wordDescriptor id)) := by
  induction h with
  | done =>
    intro turns _
    cases turns with
    | zero => rfl
    | succ turns => rfl
  | @turn p n size rest hn hsize _ ih =>
    have hpos := turn_size_pos hm hn hsize
    intro turns hturns
    obtain ⟨turns, rfl⟩ : ∃ k, turns = k + 1 := ⟨turns - 1, by omega⟩
    rw [wordChunks_turn hm hword hn hsize hlong, ih (by omega) turns (by omega)]
    rfl

end words

/-! ## The slices of the caller's buffer -/

/-- The slices that go with the pieces, from `position` on. -/
def slices : Nat → List Piece → List (Nat × Nat)
  | _, [] => []
  | position, c :: pieces => (position, c.size) :: slices (position + c.size) pieces

theorem slices_sizes (position : Nat) (pieces : List Piece) :
    (slices position pieces).map Prod.snd = pieces.map Piece.size := by
  induction pieces generalizing position with
  | nil => rfl
  | cons c pieces ih => rw [slices, List.map_cons, List.map_cons, ih]

theorem slices_consecutive (position : Nat) {pieces : List Piece} (hpos : ∀ c ∈ pieces, 0 < c.size) :
    Consecutive position (slices position pieces) (position + (pieces.map Piece.size).sum) := by
  induction pieces generalizing position with
  | nil => rfl
  | cons c pieces ih =>
    refine ⟨rfl, hpos c List.mem_cons_self, ?_⟩
    rw [List.map_cons, List.sum_cons, ← Nat.add_assoc]
    exact ih _ fun c' hc' => hpos c' (List.mem_cons_of_mem _ hc')

/-- The requests a piece and its slice of the buffer become. -/
def writePiece (client : IoClientType) (dbType : Nat) (file : CharStruct) (data : List UInt8)
    (write : Piece × Nat × Nat) : Prog Unit :=
  IoClient.write client { buffer := some data, position := write.2.1, dataSize := write.2.2 }
    { id := objectId file write.1.index, position := write.1.position, dataSize := write.1.size, storageIndex := dbType }

theorem writeChunks_eq (client : IoClientType) (dbType : Nat) (file : CharStruct) (data : List UInt8)
    (pieces : List Piece) (position : Nat) :
    writeChunks client dbType data (pieces.map (Piece.descriptor file)) position =
      (pieces.zip (slices position pieces)).forM (writePiece client dbType file data) := by
  induction pieces generalizing position with
  | nil => rfl
  | cons c pieces ih =>
    rw [List.map_cons, writeChunks, ih, slices, List.zip_cons_cons, List.forM_eq_forM,
      List.forM_cons]
    rfl

/-- A write that is not empty writes its pieces, each from its slice of the buffer. -/
theorem doMappedWrite_eq {m p n maxObjSize : Nat} (hm : 0 < m) (hmax : maxObjSize % 2 ^ 32 = m) {pieces : List Piece}
    (h : Chunked m p n pieces) (hlong : p + n < 2 ^ 63) (hn : 0 < n) (client : IoClientType) (dbType : Nat)
    (file : CharStruct) (data : List UInt8) :
    doMappedWrite client dbType maxObjSize file p n data =
      (pieces.zip (slices 0 pieces)).forM (writePiece client dbType file data) := by
  have hmap : DataMapper.map (maxObjSize % 2 ^ 32) { id := file, position := p, size := n } =
      some (pieces.map (Piece.descriptor file)) := by
    rw [hmax]
    exact h.chunks hm hlong file n le_rfl
  obtain ⟨c, rest, rfl⟩ := List.exists_cons_of_ne_nil (h.length_pos hn)
  rw [doMappedWrite, hmap, ← writeChunks_eq]
  rfl

/-- Chunk mapping is an exact partition, and so are the slices a write takes out of the caller's buffer. -/
theorem wordMap_exact (m : UInt32) (hm : 0 < m) (src : WordDescriptor) (hposition : 0 ≤ src.position)
    (hsize : 0 ≤ src.size) (hlong : src.position.toInt + src.size.toInt < 2 ^ 63) :
    ∃ pieces : List Piece,
      (∀ turns, src.size.toInt.toNat ≤ turns →
        wordMap m src turns = some (pieces.map (Piece.wordDescriptor src.id))) ∧
      Partitions m.toNat src.position.toInt.toNat src.size.toInt.toNat pieces ∧
      ((pieces.map (Piece.wordDescriptor src.id)).map WordDescriptor.id).Nodup ∧
      ∀ (client : IoClientType) (dbType maxObjSize : Nat) (data : List UInt8), maxObjSize % 2 ^ 32 = m.toNat →
        0 < src.size.toInt → ∃ slices : List (Nat × Nat), slices.map Prod.snd = pieces.map Piece.size ∧
          Consecutive 0 slices src.size.toInt.toNat ∧
          doMappedWrite client dbType maxObjSize src.id src.position.toInt.toNat src.size.toInt.toNat data =
            (pieces.zip slices).forM (writePiece client dbType src.id data) := by
  obtain ⟨id, position, size, chunkIndex⟩ := src
  dsimp only at hposition hsize hlong ⊢
  have hm' : 0 < m.toNat := UInt32.lt_iff_toNat_lt.mp hm
  obtain ⟨p, hp⟩ : ∃ p : Nat, position.toInt = p := Int.eq_ofNat_of_zero_le (Int64.le_iff_toInt_le.mp hposition)
  obtain ⟨n, hn⟩ : ∃ n : Nat, size.toInt = n := Int.eq_ofNat_of_zero_le (Int64.le_iff_toInt_le.mp hsize)
  obtain rfl : position = .ofNat p := Int64.toInt_inj.mp (by rw [hp, Int64.toInt_ofNat_of_lt (by omega)])
  obtain rfl : size = .ofNat n := Int64.toInt_inj.mp (by rw [hn, Int64.toInt_ofNat_of_lt (by omega)])
  rw [hp, hn, Int.toNat_natCast, Int.toNat_natCast]
  have hbound : p + n < 2 ^ 63 := by omega
  obtain ⟨pieces, hpieces⟩ := exists_chunked hm' n p
  have hpartition := hpieces.partitions hm'
  refine ⟨pieces, ?_, hpartition, ?_, ?_⟩
  · intro turns hturns
    have hloop := wordChunks_of_chunked hm' m.toNat_lt hpieces hbound id turns hturns
    rwa [UInt32.ofNat_toNat] at hloop
  · have hids : (pieces.map (Piece.wordDescriptor id)).map WordDescriptor.id =
        (pieces.map Piece.index).map (objectId id) := by
      rw [List.map_map, List.map_map]
      rfl
    rw [hids, hpartition.indices]
    exact (List.nodup_range').map fun _ _ => objectId_injective id
  · intro client dbType maxObjSize data hmax hpos
    refine ⟨slices 0 pieces, slices_sizes 0 pieces, ?_, doMappedWrite_eq hm' hmax hpieces hbound (by omega) ..⟩
    have hslices := slices_consecutive 0 hpartition.size_pos
    rwa [hpartition.total, Nat.zero_add] at hslices

theorem wordMap_exact_seven : ∃ pieces : List Piece,
    wordMap 4 { id := [], position := 6, size := 7 } 7 = some (pieces.map (Piece.wordDescriptor [])) ∧
      Partitions 4 6 7 pieces := by
  obtain ⟨pieces, hmap, hpartition, -⟩ :=
    wordMap_exact 4 (by decide) { id := [], position := 6, size := 7 } (by decide) (by decide) (by decide)
  exact ⟨pieces, hmap 7 (by decide), hpartition⟩

end Symbios
