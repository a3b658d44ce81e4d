import Symbios.Proof.Clients

/-!
# What a write of an object store leaves

A positional write should leave `Overlay.overlay`. A write that finds no value starts at offset 0 whatever its position
is, and one that starts inside the old value and reaches its end drops the byte in front of its position
(`keptBytes`). `Splices` is what remains.
-/

namespace Symbios

open EStateM

/-- The write of `n` bytes at `position` leaves a positional write: it finds nothing and starts at offset 0, or it finds
a value and starts at offset 0 or behind the end of the value, or stays in front of its end, or the byte in front of the
position is zero anyway. -/
def Splices (old : Option (List UInt8)) (position n : Nat) : Prop :=
  match old with
  | none => position = 0
  | some value =>
    position = 0 ∨ value.length < position ∨ position + n < value.length ∨ value[position - 1]? = some 0

/-- The byte in front of the position is the one that may be lost. -/
theorem overlay_kept_iff {old data : List UInt8} {position : Nat} (h : old.length ≤ position + data.length) :
    Overlay.overlay 0 (keptBytes old position) position data = Overlay.overlay 0 old position data ↔
      position = 0 ∨ old.length < position ∨ old[position - 1]? = some 0 := by
  by_cases hzero : position = 0
  · rw [hzero, Overlay.overlay_zero, Overlay.overlay_zero, show keptBytes old 0 = [] from rfl, List.drop_nil,
      List.drop_eq_nil_of_le (by omega)]
    simp
  by_cases hbehind : old.length < position
  · rw [keptBytes, if_pos (by omega), if_pos hbehind, List.take_length]
    simp [hbehind]
  -- one byte of padding stands for the last byte in front of the position
  have hkept : keptBytes old position = old.take (position - 1) := by
    rw [keptBytes, if_pos (by omega), if_neg (by omega)]
  have hlength : (old.take (position - 1)).length = position - 1 := by
    rw [List.length_take]
    omega
  have hget : old[position - 1]? = some (old[position - 1]) := List.getElem?_eq_getElem (by omega)
  have htake : old.take position = old.take (position - 1) ++ [old[position - 1]] := by
    rw [List.take_concat_get', Nat.sub_add_cancel (by omega)]
  have hpad : position - old.length = 0 := by omega
  rw [hkept, Overlay.overlay_behind 0 (by omega), hlength, show position - (position - 1) = 1 by omega, Overlay.overlay,
    hpad, List.replicate_zero, List.append_nil, List.drop_eq_nil_of_le h, List.append_nil, htake, hget]
  generalize old[position - 1] = last
  simp [hzero, hbehind, eq_comm]

section write

variable {source destination : Data} {w : Backends}

theorem storedValue_splice_iff {data : List UInt8}
    (hslice : slice source.buffer source.position source.dataSize w = .ok data w) (hsize : data.length = source.dataSize)
    (hlt : destination.position + source.dataSize < 2 ^ 64) (old : Option (List UInt8)) :
    storedValue old source destination w = .ok (Overlay.overlay 0 (old.getD []) destination.position data) w ↔
      Splices old destination.position source.dataSize := by
  cases old with
  | none =>
    rw [storedValue, hslice, Option.getD_none, Overlay.overlay_behind 0 (Nat.zero_le _)]
    constructor
    · intro h
      have hlength := congrArg List.length (Result.ok.inj h).1
      simp only [List.nil_append, List.length_append, List.length_replicate, List.length_nil] at hlength
      show destination.position = 0
      omega
    · intro h
      rw [show destination.position = 0 from h]
      rfl
  | some old =>
    rw [storedValue, newValue_eq hslice hsize (Or.inr hlt), Option.getD_some, Splices]
    by_cases hend : old.length ≤ destination.position + source.dataSize
    · have hkept := overlay_kept_iff (hsize ▸ hend)
      rw [if_pos hend, or_iff_right (not_lt.mpr hend), ← hkept, Result.ok.injEq, and_iff_left rfl]
    · rw [if_neg hend]
      exact iff_of_true rfl (Or.inr (Or.inr (Or.inl (not_le.mp hend))))

/-- **Redis leaves the positional write exactly when `Splices` says so.** -/
theorem redis_splice_iff (hslice : source.position + source.dataSize ≤ (source.buffer.getD []).length)
    (hlt : destination.position + source.dataSize < 2 ^ 64) :
    RedisIoClient.write source destination w = .ok () (w.put .redisIo destination.id
        (some (Overlay.overlay 0 ((w .redisIo destination.id).getD []) destination.position
          (((source.buffer.getD []).drop source.position).take source.dataSize)))) ↔
      Splices (w .redisIo destination.id) destination.position source.dataSize := by
  have hdata := slice_of_le hslice w
  have hsize : (((source.buffer.getD []).drop source.position).take source.dataSize).length = source.dataSize := by
    rw [List.length_take, List.length_drop]
    omega
  rw [← storedValue_splice_iff hdata hsize hlt]
  have hwrite : RedisIoClient.write source destination w = _ := objectWrite_eq (t := .redisIo) (by decide) _ _ _
  rw [hwrite]
  rcases (storedValue_readOnly (w .redisIo destination.id) source destination).run_cases w with ⟨value, hrun⟩ | ⟨e, hrun⟩
  · rw [bind_ok hrun, modify_run, hrun]
    constructor
    · intro h
      have hput := congrFun (congrFun (Result.ok.inj h).2 .redisIo) destination.id
      rw [Backends.put_same, Backends.put_same, Option.some.injEq] at hput
      rw [hput]
    · intro h
      rw [(Result.ok.inj h).1]
  · rw [bind_error hrun, hrun]
    constructor
    · intro h
      cases h
    · intro h
      cases h

end write

/-- Redis with the value `61 62`. -/
def twoBytesStored : Backends := Backends.put (fun _ _ => none) .redisIo [0x66] (some [0x61, 0x62])

/-- The first byte of a value is replaced. -/
theorem redis_splices_first :
    RedisIoClient.write { buffer := some [0x63], dataSize := 1 } { id := [0x66], position := 0 } twoBytesStored =
      .ok () (twoBytesStored.put .redisIo [0x66] (some [0x63, 0x62])) :=
  (redis_splice_iff (w := twoBytesStored) (by decide) (by decide)).mpr (Or.inl rfl)

/-- An append loses the last byte. -/
theorem redis_append_loses_byte :
    RedisIoClient.write { buffer := some [0x63], dataSize := 1 } { id := [0x66], position := 2 } twoBytesStored =
        .ok () (twoBytesStored.put .redisIo [0x66] (some [0x61, 0, 0x63])) ∧
      Overlay.overlay 0 [0x61, 0x62] 2 [0x63] = [0x61, 0x62, (0x63 : UInt8)] := by
  refine ⟨?_, by decide⟩
  rfl

end Symbios
