import Symbios.Model.Server
import Symbios.Proof.Clients

/-!
# What a read hands to `Server::Locate`

The server copies `destination.buffer_[position_ .. data_size_)` out of every part it has read (`Server.window`).
`readWindow` is the read followed by that copy, and has one closed form per client: the file client puts the bytes
behind `destination.position_`, the Redis client ignores that position and checks the size without the offset, and
the MongoDB client takes the size for an end offset and checks nothing.
-/

namespace Symbios

open EStateM

/-- `Read` and the bytes `Server::Locate` takes from its result. -/
def readWindow (t : IoClientType) (source destination : Data) : Prog (List UInt8) := do
  let part ← IoClient.read t source destination
  Server.window part

/-- The request of `n` bytes at `q` leaves a value of length `L`; a size of 0 asks for the rest of it. -/
def Exceeds (L q n : Nat) : Prop := if n = 0 then L < q else L < q + n

instance (L q n : Nat) : Decidable (Exceeds L q n) := inferInstanceAs (Decidable (if n = 0 then L < q else L < q + n))

/-- The bytes a request inside the value asks for. -/
def requested (v : List UInt8) (q n : Nat) : List UInt8 := if n = 0 then v.drop q else (v.drop q).take n

/-- The common contract of the clients on a value `v`: a request that leaves `v` raises an `ErrorException`, any
other one succeeds and its window is what was asked for. -/
def ReadContract (t : IoClientType) (v : List UInt8) (source destination : Data) (w : Backends) : Prop :=
  if Exceeds v.length source.position source.dataSize then
    ∃ code, IoClient.read t source destination w = .error (.error code) w
  else readWindow t source destination w = .ok (requested v source.position source.dataSize) w

/-- The requests, by the length of the value, the offset, the size and the position in the destination, on which a
client keeps the contract whatever the value is. -/
def KeepsContract : IoClientType → (L q n d : Nat) → Prop
  | .fileIo, L, q, _, d => d < 2 ^ 63 ∨ L ≤ q
  | .redisIo, L, q, n, d =>
    if Exceeds L q n then L < n
    else if n = 0 then q = 0 ∧ d = 0 ∨ L = 1 ∧ q = 1 ∧ d = 1
    else d = 0
  | .mongoIo, L, q, n, d =>
    ¬ Exceeds L q n ∧ if n = 0 then d = q ∧ (q = 0 ∨ q = L) else q = 0 ∧ d = 0

instance (t : IoClientType) (L q n d : Nat) : Decidable (KeepsContract t L q n d) :=
  match t with
  | .fileIo => inferInstanceAs (Decidable (d < 2 ^ 63 ∨ L ≤ q))
  | .redisIo => inferInstanceAs (Decidable (if Exceeds L q n then L < n
      else if n = 0 then q = 0 ∧ d = 0 ∨ L = 1 ∧ q = 1 ∧ d = 1 else d = 0))
  | .mongoIo => inferInstanceAs (Decidable (¬ Exceeds L q n ∧ if n = 0 then d = q ∧ (q = 0 ∨ q = L) else q = 0 ∧ d = 0))

section

variable {v : List UInt8} {source destination : Data} {w : Backends}

theorem window_eq (part : Data) (w : Backends) :
    Server.window part w =
      if part.position ≤ part.dataSize ∧ part.dataSize ≤ (part.buffer.getD []).length then
        .ok (((part.buffer.getD []).drop part.position).take (part.dataSize - part.position)) w
      else .error .undefined w := by
  unfold Server.window
  by_cases hpos : part.dataSize < part.position
  · rw [if_pos hpos, if_neg (by omega)]
    rfl
  · rw [if_neg hpos, slice]
    by_cases hsize : part.dataSize ≤ (part.buffer.getD []).length
    · rw [if_pos (by omega), if_pos (by omega)]
      rfl
    · rw [if_neg (by omega), if_neg (by omega)]
      rfl

/-! ## The file client -/

/-- Behind the position in the destination stands what was read. -/
theorem fileWindow_eq (hv : w .fileIo source.id = some v) (hseek : source.position < 2 ^ 63)
    (hdest : destination.position < 2 ^ 63 ∨ (v.drop source.position).take (fileRequest v source) = [])
    (hread : ((v.drop source.position).take (fileRequest v source)).length = fileRequest v source) :
    readWindow .fileIo source destination w =
      .ok ((v.drop source.position).take (fileRequest v source)) w := by
  have hdefined : ¬ ((v.drop source.position).take (fileRequest v source) ≠ [] ∧ 2 ^ 63 ≤ destination.position) := by
    rintro ⟨hne, hlarge⟩
    rcases hdest with h | h
    · omega
    · exact hne h
  have hok := fileRead_eq hv destination
  rw [if_neg (by omega), if_neg hdefined, if_pos hread] at hok
  rw [readWindow, bind_ok hok, window_eq]
  simp

/-- A request that leaves the file is short, or its offset is refused. -/
theorem file_exceeds (hL : v.length < 2 ^ 63) (hq : source.position < 2 ^ 64) (hv : w .fileIo source.id = some v)
    (h : destination.position < 2 ^ 63 ∨ (v.drop source.position).take (fileRequest v source) = [])
    (hexceeds : Exceeds v.length source.position source.dataSize) :
    ∃ code, IoClient.read .fileIo source destination w = .error (.error code) w := by
  rw [fileRead_eq hv]
  by_cases hseek : 2 ^ 63 ≤ source.position
  · exact ⟨_, if_pos hseek⟩
  · have hdefined : ¬ ((v.drop source.position).take (fileRequest v source) ≠ [] ∧ 2 ^ 63 ≤ destination.position) := by
      rintro ⟨hne, hlarge⟩
      rcases h with hsmall | hempty
      · omega
      · exact hne hempty
    have hshort : ((v.drop source.position).take (fileRequest v source)).length ≠ fileRequest v source := by
      rw [List.length_take, List.length_drop]
      unfold Exceeds at hexceeds
      unfold fileRequest subSize
      split_ifs at hexceeds ⊢ <;> omega
    rw [if_neg hseek, if_neg hdefined, if_neg hshort]
    exact ⟨_, rfl⟩

theorem file_keeps (hL : v.length < 2 ^ 63) (hq : source.position < 2 ^ 64) (hv : w .fileIo source.id = some v)
    (h : destination.position < 2 ^ 63 ∨ v.length ≤ source.position) : ReadContract .fileIo v source destination w := by
  have hempty : v.length ≤ source.position → (v.drop source.position).take (fileRequest v source) = [] := by
    intro hle
    rw [List.drop_eq_nil_of_le hle, List.take_nil]
  unfold ReadContract
  split
  case isTrue hexceeds => exact file_exceeds hL hq hv (h.imp id hempty) hexceeds
  case isFalse hfits =>
    have hsize : fileRequest v source = if source.dataSize = 0 then v.length - source.position else source.dataSize := by
      unfold Exceeds at hfits
      unfold fileRequest subSize
      split_ifs at hfits ⊢ <;> omega
    have hseek : source.position < 2 ^ 63 := by
      unfold Exceeds at hfits
      split_ifs at hfits <;> omega
    have hwindow := fileWindow_eq hv hseek (h.imp id hempty) (by
      rw [List.length_take, List.length_drop, hsize]
      unfold Exceeds at hfits
      split_ifs at hfits ⊢ <;> omega)
    rw [hwindow, hsize, requested]
    congr 1
    split_ifs with hn
    · rw [← List.length_drop, List.take_length]
    · rfl

/-! ## The Redis client -/

theorem redisWindow_eq (hv : w .redisIo source.id = some v) (destination : Data) :
    readWindow .redisIo source destination w =
      if v.length < objectRequest v source then .error (.error readRedisPositionOrSizeFailed) w
      else if source.position + objectRequest v source ≤ v.length + 1 ∧
          destination.position ≤ objectRequest v source then
        .ok ((((v ++ [0]).drop source.position).take (objectRequest v source)).drop destination.position) w
      else .error .undefined w := by
  have hread := redisRead_eq hv destination
  rw [readWindow]
  by_cases hsize : v.length < objectRequest v source
  · rw [if_pos hsize] at hread ⊢
    exact bind_error hread
  · rw [if_neg hsize] at hread ⊢
    by_cases hslice : source.position + objectRequest v source ≤ v.length + 1
    · rw [if_pos hslice] at hread
      have hlength : (((v ++ [0]).drop source.position).take (objectRequest v source)).length =
          objectRequest v source := by
        simp only [List.length_take, List.length_drop, List.length_append, List.length_singleton]
        omega
      rw [bind_ok hread, window_eq]
      simp only [Option.getD_some, hlength, le_refl, and_true, hslice, true_and]
      rw [List.take_of_length_le (by rw [List.length_drop, hlength])]
    · rw [if_neg hslice] at hread
      rw [if_neg (fun h => hslice h.1)]
      exact bind_error hread

theorem redisRead_raises {code : ErrorCode} (hv : w .redisIo source.id = some v)
    (h : IoClient.read .redisIo source destination w = .error (.error code) w) :
    v.length < objectRequest v source := by
  rw [redisRead_eq hv] at h
  by_contra hsize
  rw [if_neg hsize] at h
  split at h <;> cases h

theorem redisWindow_inv {bytes : List UInt8} (hv : w .redisIo source.id = some v)
    (h : readWindow .redisIo source destination w = .ok bytes w) :
    source.position + objectRequest v source ≤ v.length + 1 ∧ destination.position ≤ objectRequest v source ∧
      (((v ++ [0]).drop source.position).take (objectRequest v source)).drop destination.position = bytes := by
  rw [redisWindow_eq hv] at h
  split at h
  · cases h
  · split at h
    · rename_i hslice
      exact ⟨hslice.1, hslice.2, (Result.ok.inj h).1⟩
    · cases h

/-! ## The MongoDB client -/

theorem mongoWindow_eq (hL : v.length < 2 ^ 63) (hq : source.position < 2 ^ 64)
    (hv : w .mongoIo source.id = some v) (destination : Data) :
    readWindow .mongoIo source destination w =
      if source.position ≤ objectRequest v source ∧ objectRequest v source ≤ v.length + 1 ∧
          destination.position ≤ objectRequest v source then
        .ok ((((v ++ [0]).drop source.position).take (objectRequest v source - source.position) ++
          List.replicate source.position 0).drop destination.position) w
      else .error .undefined w := by
  have hread := mongoRead_eq hv destination
  rw [readWindow]
  by_cases hsub : source.position ≤ objectRequest v source
  · rw [subSize, if_pos hsub, Nat.add_sub_cancel' hsub] at hread
    by_cases hslice : objectRequest v source ≤ v.length + 1
    · rw [if_pos hslice] at hread
      have hlength : (((v ++ [0]).drop source.position).take (objectRequest v source - source.position) ++
          List.replicate source.position (0 : UInt8)).length = objectRequest v source := by
        simp only [List.length_take, List.length_drop, List.length_append, List.length_singleton,
          List.length_replicate]
        omega
      rw [bind_ok hread, window_eq]
      simp only [Option.getD_some, hlength, le_refl, and_true, hslice, hsub, true_and]
      rw [List.take_of_length_le (by rw [List.length_drop, hlength])]
    · rw [if_neg hslice] at hread
      rw [if_neg (fun h => hslice h.2.1)]
      exact bind_error hread
  · have hwrap : ¬ source.position + subSize (objectRequest v source) source.position ≤ v.length + 1 := by
      rw [subSize, if_neg hsub]
      omega
    rw [if_neg hwrap] at hread
    rw [if_neg (fun h => hsub h.1)]
    exact bind_error hread

theorem mongoRead_not_raises {code : ErrorCode} (hv : w .mongoIo source.id = some v) :
    IoClient.read .mongoIo source destination w ≠ .error (.error code) w := by
  intro h
  rw [mongoRead_eq hv] at h
  split at h <;> cases h

theorem mongoWindow_inv {bytes : List UInt8} (hL : v.length < 2 ^ 63) (hq : source.position < 2 ^ 64)
    (hv : w .mongoIo source.id = some v) (h : readWindow .mongoIo source destination w = .ok bytes w) :
    source.position ≤ objectRequest v source ∧ destination.position ≤ objectRequest v source ∧
      (((v ++ [0]).drop source.position).take (objectRequest v source - source.position) ++
        List.replicate source.position 0).drop destination.position = bytes := by
  rw [mongoWindow_eq hL hq hv] at h
  split at h
  · rename_i hslice
    exact ⟨hslice.1, hslice.2.2, (Result.ok.inj h).1⟩
  · cases h

/-! ## Where the contract is kept -/

theorem redis_keeps (hv : w .redisIo source.id = some v)
    (h : KeepsContract .redisIo v.length source.position source.dataSize destination.position) :
    ReadContract .redisIo v source destination w := by
  unfold ReadContract
  dsimp only [KeepsContract] at h
  split
  case isTrue hexceeds =>
    rw [if_pos hexceeds] at h
    have hrequest : v.length < objectRequest v source := by
      rw [objectRequest, if_neg (by omega)]
      exact h
    rw [redisRead_eq hv, if_pos hrequest]
    exact ⟨_, rfl⟩
  case isFalse hfits =>
    rw [if_neg hfits] at h
    have hwindow := redisWindow_eq hv destination
    unfold Exceeds at hfits
    by_cases hn : source.dataSize = 0
    · rw [if_pos hn] at h hfits
      rw [objectRequest, if_pos hn, if_neg (lt_irrefl _), if_pos (by omega)] at hwindow
      rw [hwindow, requested, if_pos hn]
      rcases h with ⟨hq, hd⟩ | ⟨hL, hq, hd⟩
      · simp [hq, hd]
      · obtain ⟨b, rfl⟩ := List.length_eq_one_iff.mp hL
        simp [hq, hd]
    · rw [if_neg hn] at h hfits
      rw [objectRequest, if_neg hn, if_neg (by omega), if_pos (by omega)] at hwindow
      rw [hwindow, requested, if_neg hn, h, List.drop_zero, List.drop_append_of_le_length (by omega),
        List.take_append_of_le_length (by rw [List.length_drop]; omega)]

theorem mongo_keeps (hL : v.length < 2 ^ 63) (hq : source.position < 2 ^ 64) (hv : w .mongoIo source.id = some v)
    (h : KeepsContract .mongoIo v.length source.position source.dataSize destination.position) :
    ReadContract .mongoIo v source destination w := by
  obtain ⟨hfits, h⟩ := h
  have hwindow := mongoWindow_eq hL hq hv destination
  rw [ReadContract, if_neg hfits]
  unfold Exceeds at hfits
  by_cases hn : source.dataSize = 0
  · rw [if_pos hn] at h hfits
    rw [objectRequest, if_pos hn, if_pos (by omega)] at hwindow
    rw [hwindow, requested, if_pos hn, h.1]
    rcases h.2 with hstart | hend
    · simp [hstart]
    · simp [hend]
  · rw [if_neg hn] at h hfits
    rw [objectRequest, if_neg hn, if_pos (by omega)] at hwindow
    rw [hwindow, requested, if_neg hn]
    simp [h.1, h.2, List.take_append_of_le_length (show source.dataSize ≤ v.length by omega)]

/-- A request for which `KeepsContract` holds is served as the contract says. -/
theorem readContract_of_keeps (t : IoClientType) (hL : v.length < 2 ^ 63) (hq : source.position < 2 ^ 64)
    (hv : w t source.id = some v)
    (h : KeepsContract t v.length source.position source.dataSize destination.position) :
    ReadContract t v source destination w := by
  cases t with
  | fileIo => exact file_keeps hL hq hv h
  | redisIo => exact redis_keeps hv h
  | mongoIo => exact mongo_keeps hL hq hv h

end

/-! ## A value without zero bytes

The byte past the end and the bytes a client leaves uninitialised are told from the value when no byte of the
value is zero. -/

/-- The contract for a request on the value of `L` ones. -/
def OnesContract (t : IoClientType) (L q n d : Nat) : Prop :=
  ReadContract t (List.replicate L 1) { position := q, dataSize := n } { position := d }
    fun _ _ => some (List.replicate L 1)

theorem file_ones {L q n d : Nat} (hL : L < 2 ^ 63) (h : OnesContract .fileIo L q n d) :
    KeepsContract .fileIo L q n d := by
  by_contra hkeeps
  simp only [KeepsContract, not_or, not_lt, not_le] at hkeeps
  have hrequest : 0 < fileRequest (List.replicate L 1) { position := q, dataSize := n } := by
    simp only [fileRequest, subSize, List.length_replicate]
    split_ifs <;> omega
  have hread : IoClient.read .fileIo { position := q, dataSize := n } { position := d }
      (fun _ _ => some (List.replicate L 1)) = .error .undefined fun _ _ => some (List.replicate L 1) := by
    rw [fileRead_eq rfl, if_neg (show ¬ 2 ^ 63 ≤ q by omega), if_pos]
    refine ⟨?_, hkeeps.1⟩
    apply List.ne_nil_of_length_pos
    simp only [List.length_take, List.length_drop, List.length_replicate]
    omega
  unfold OnesContract ReadContract at h
  split at h
  · obtain ⟨code, herror⟩ := h
    rw [hread] at herror
    cases herror
  · rw [readWindow, bind_error hread] at h
    cases h

theorem zero_ne_ones {l : List UInt8} {k : Nat} (h : l = List.replicate k 1) (hzero : 0 ∈ l) : False := by
  rw [h] at hzero
  exact absurd (List.eq_of_mem_replicate hzero) (by decide)

theorem objectRequest_ones (L q n : Nat) :
    objectRequest (List.replicate L 1) { position := q, dataSize := n } = if n = 0 then L else n := by
  rw [objectRequest, List.length_replicate]

/-- The ones from the second on, behind the first, end in the terminating zero. -/
theorem ones_shifted {L : Nat} (hL : 2 ≤ L) :
    (((List.replicate L (1 : UInt8) ++ [0]).drop 1).take L).drop 1 = List.replicate (L - 2) 1 ++ [0] := by
  rw [List.drop_append_of_le_length (by rw [List.length_replicate]; omega), List.drop_replicate,
    List.take_of_length_le (by simp; omega), List.drop_append_of_le_length (by rw [List.length_replicate]; omega),
    List.drop_replicate, Nat.sub_sub]

theorem redis_ones {L q n d : Nat} (h : OnesContract .redisIo L q n d) : KeepsContract .redisIo L q n d := by
  have hrequest := objectRequest_ones L q n
  unfold OnesContract ReadContract at h
  dsimp only [KeepsContract]
  simp only [List.length_replicate] at h
  split at h
  case isTrue hexceeds =>
    obtain ⟨code, herror⟩ := h
    have hsize := redisRead_raises rfl herror
    rw [hrequest, List.length_replicate] at hsize
    rw [if_pos hexceeds]
    split_ifs at hsize <;> omega
  case isFalse hfits =>
    obtain ⟨hslice, hdest, hbytes⟩ := redisWindow_inv rfl h
    have hlength := congrArg List.length hbytes
    rw [if_neg hfits]
    unfold Exceeds at hfits
    simp only [requested, hrequest, List.length_replicate] at hslice hdest hlength hbytes
    split_ifs at hslice hdest hlength hbytes hfits ⊢ with hn
    · simp only [List.length_drop, List.length_take, List.length_append, List.length_replicate,
        List.length_singleton] at hlength
      have hshift : q = 0 ∧ d = 0 ∨ q = 1 ∧ d = 1 := by omega
      rcases hshift with hstart | ⟨hq, hd⟩
      · exact .inl hstart
      · refine .inr ⟨?_, hq, hd⟩
        by_contra hL
        -- the terminating zero has moved to the end of the window
        rw [hq, hd, ones_shifted (by omega), List.drop_replicate] at hbytes
        exact zero_ne_ones hbytes (by simp)
    · simp only [List.length_drop, List.length_take, List.length_append, List.length_replicate,
        List.length_singleton] at hlength
      omega

theorem mongo_ones {L q n d : Nat} (hL : L < 2 ^ 63) (hq : q < 2 ^ 64) (h : OnesContract .mongoIo L q n d) :
    KeepsContract .mongoIo L q n d := by
  have hrequest := objectRequest_ones L q n
  unfold OnesContract ReadContract at h
  simp only [List.length_replicate] at h
  split at h
  case isTrue hexceeds =>
    obtain ⟨code, herror⟩ := h
    exact (mongoRead_not_raises rfl herror).elim
  case isFalse hfits =>
    refine ⟨hfits, ?_⟩
    obtain ⟨hslice, hdest, hbytes⟩ := mongoWindow_inv (by rw [List.length_replicate]; exact hL) hq rfl h
    have hlength := congrArg List.length hbytes
    unfold Exceeds at hfits
    simp only [requested, hrequest] at hslice hdest hlength hbytes
    by_cases hn : n = 0
    · simp only [if_pos hn] at hslice hdest hlength hbytes hfits ⊢
      simp only [List.length_drop, List.length_take, List.length_append, List.length_replicate,
        List.length_singleton] at hlength
      have hd : d = q := by omega
      refine ⟨hd, ?_⟩
      by_contra hinner
      rw [List.drop_replicate] at hbytes
      -- fewer bytes are dropped than the uninitialised ones that follow the copy
      refine zero_ne_ones hbytes ?_
      rw [List.drop_append]
      apply List.mem_append_right
      rw [List.drop_replicate, List.length_take, List.length_drop, List.length_append, List.length_replicate]
      refine List.mem_replicate.mpr ⟨?_, rfl⟩
      omega
    · simp only [if_neg hn] at hslice hdest hlength hbytes hfits ⊢
      simp only [List.length_drop, List.length_take, List.length_append, List.length_replicate,
        List.length_singleton] at hlength
      have hd : d = 0 := by omega
      refine ⟨?_, hd⟩
      by_contra hpos
      rw [hd, List.drop_zero, List.drop_replicate, List.take_replicate] at hbytes
      refine zero_ne_ones hbytes ?_
      exact List.mem_append_right _ (List.mem_replicate.mpr ⟨hpos, rfl⟩)

end Symbios
