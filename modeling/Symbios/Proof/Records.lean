import Symbios.Proof.Clients

/-!
# Metadata records

A record is written at offset 0 over whatever stood there (`putRecord`), so a backend holds a record followed
by what is left of longer ones before it (`Holds`). A whole read gives the record back (`fetch_whole`); the
read through a link asks for the size the record had when the link was written, and gives the record or an
`unpack` exception (`fetch_part`).

`spread` is the effect of the loop that writes the links: `spread_apply` says what stands where afterwards.
-/

namespace Symbios

open EStateM MetadataOrchestrator

variable [Wire]

/-- The record of `id` in backend `t` is `m`. -/
def Holds (w : Backends) (t : IoClientType) (id : CharStruct) (m : Metadata) : Prop :=
  ∃ rest, w t (metaId id) = some (m.serialize ++ rest)

theorem Holds.unique {w : Backends} {t : IoClientType} {id : CharStruct} {m m' : Metadata} (hm : m.Portable)
    (hm' : m'.Portable) (h : Holds w t id m) (h' : Holds w t id m') : m = m' := by
  obtain ⟨rest, hrest⟩ := h
  obtain ⟨rest', hrest'⟩ := h'
  have heq : m.serialize ++ rest = m'.serialize ++ rest' := Option.some.inj (hrest.symm.trans hrest')
  have hdec := Metadata.deserialize_serialize hm rest
  rw [heq, Metadata.deserialize_serialize hm' rest'] at hdec
  exact (Except.ok.inj hdec).symm

/-! ## Writing a record -/

/-- The backends after `m` was written as the record of `id` in backend `t`. -/
def putRecord (w : Backends) (t : IoClientType) (id : CharStruct) (m : Metadata) : Backends :=
  w.put t (metaId id) (some (overwritten (w t (metaId id)) m.serialize))

theorem putRecord_same (w : Backends) (t : IoClientType) (id : CharStruct) (m : Metadata) :
    putRecord w t id m t (metaId id) = some (overwritten (w t (metaId id)) m.serialize) :=
  Backends.put_same ..

theorem putRecord_holds (w : Backends) (t : IoClientType) (id : CharStruct) (m : Metadata) :
    Holds (putRecord w t id m) t id m :=
  ⟨_, putRecord_same w t id m⟩

theorem putRecord_of_key_ne (w : Backends) (t t' : IoClientType) {id k : CharStruct} (m : Metadata)
    (h : k ≠ metaId id) : putRecord w t id m t' k = w t' k :=
  Backends.put_of_key_ne _ _ _ _ h

theorem putRecord_of_client_ne (w : Backends) {t t' : IoClientType} (id k : CharStruct) (m : Metadata)
    (h : t' ≠ t) : putRecord w t id m t' k = w t' k :=
  Backends.put_of_client_ne _ _ _ _ h

omit [Wire] in
theorem overwritten_overwritten (old : Option (List UInt8)) (b : List UInt8) :
    overwritten (some (overwritten old b)) b = overwritten old b := by
  simp [overwritten]

omit [Wire] in
theorem length_le_overwritten (old b : List UInt8) : old.length ≤ (overwritten (some old) b).length := by
  simp only [overwritten, Option.getD_some, List.length_append, List.length_drop]
  omega

theorem linkMetadata_portable (id : CharStruct) (m : Metadata) : (linkMetadata id m).Portable := by
  intro e he
  have hmem : e ∈ [(⟨-1, { recordData id m m.storageIndex with buffer := none }⟩ : Sigma fun _ : Int => Data)] := he
  rw [List.mem_singleton] at hmem
  subst hmem
  exact Or.inl rfl

theorem mem_linkMetadata {id : CharStruct} {m : Metadata} {key : Int} : key ∈ (linkMetadata id m).links ↔ key = -1 := by
  rw [AList.mem_keys]
  exact List.mem_singleton

/-- A record is written whole. -/
theorem recordData_write (t : IoClientType) (id : CharStruct) (m : Metadata) (i : Nat) (w : Backends) :
    IoClient.write t (recordData id m i) (recordData id m i) w = .ok () (putRecord w t id m) :=
  write_start t w rfl rfl rfl rfl

/-! ## The links -/

/-- The backends after the loop over the storage solutions has written `link` into all of them but `i`. -/
def spread (id : CharStruct) (link : Metadata) (i : Nat) (l : List (Nat × IoClientType)) (w : Backends) : Backends :=
  l.foldl (fun w solution => if solution.1 = i then w else putRecord w solution.2 id link) w

open Classical in
theorem spread_apply (id : CharStruct) (link : Metadata) (i : Nat) (l : List (Nat × IoClientType)) (w : Backends)
    (t : IoClientType) (k : CharStruct) :
    spread id link i l w t k =
      if k = metaId id ∧ ∃ j, j ≠ i ∧ (j, t) ∈ l then some (overwritten (w t k) link.serialize) else w t k := by
  induction l generalizing w with
  | nil => simp [spread]
  | cons e l ih =>
    have hstep : spread id link i (e :: l) w = spread id link i l (if e.1 = i then w else putRecord w e.2 id link) := rfl
    rw [hstep, ih]
    obtain ⟨j, t'⟩ := e
    by_cases hj : j = i
    · subst hj
      have hiff : (∃ j', j' ≠ j ∧ (j', t) ∈ (j, t') :: l) ↔ ∃ j', j' ≠ j ∧ (j', t) ∈ l := by
        refine exists_congr fun j' => and_congr_right fun hne => ?_
        rw [List.mem_cons, Prod.mk.injEq]
        exact or_iff_right fun h => hne h.1
      simp only [if_true, hiff]
    · simp only [if_neg hj]
      by_cases hk : k = metaId id
      · subst hk
        by_cases ht : t = t'
        · subst ht
          have hex : ∃ j', j' ≠ i ∧ (j', t) ∈ (j, t) :: l := ⟨j, hj, List.mem_cons_self⟩
          rw [putRecord_same, overwritten_overwritten,
            if_pos (show metaId id = metaId id ∧ ∃ j', j' ≠ i ∧ (j', t) ∈ (j, t) :: l from ⟨rfl, hex⟩)]
          split <;> rfl
        · have hiff : (∃ j', j' ≠ i ∧ (j', t) ∈ (j, t') :: l) ↔ ∃ j', j' ≠ i ∧ (j', t) ∈ l := by
            refine exists_congr fun j' => and_congr_right fun _ => ?_
            rw [List.mem_cons, Prod.mk.injEq]
            exact or_iff_right fun h => ht h.2
          rw [putRecord_of_client_ne w id _ link ht]
          simp only [hiff]
      · rw [if_neg (fun h => hk h.1), if_neg (fun h => hk h.1), putRecord_of_key_ne w t' t link hk]

/-! ## Reading a record -/

section read

variable (conf : ConfigurationManager) (env : Env)

/-- Read and unpack the record a `Data` points to. -/
def fetch (d : Data) : Prog Metadata := do
  let record ← IoFactory.read conf env d.storageIndex d d
  primaryMetadata.unpack record

/-- Where the record of `id` is looked for in storage `i`. -/
def recordAt (id : CharStruct) (i : Nat) : Data := { id := metaId id, storageIndex := i }

theorem primaryMetadata_eq (request : Data) :
    primaryMetadata conf env request = (do
      let m ← fetch conf env (recordAt request.id request.storageIndex)
      if m.isLink = false then return m else fetch conf env ((m.links.lookup (-1)).getD {})) := by
  simp only [fetch, bind_assoc]
  rfl

variable {conf env}

theorem unpack_run {record : Data} {bytes : List UInt8} (hbuf : record.buffer = some bytes)
    (hsize : record.dataSize = bytes.length) (w : Backends) :
    primaryMetadata.unpack record w = match Metadata.deserialize bytes with
      | .ok m => .ok m w
      | .error fault => .error fault w := by
  have hslice : slice record.buffer 0 record.dataSize w = .ok bytes w := by
    rw [hbuf, hsize, slice_of_le (by simp) w]
    simp
  rw [primaryMetadata.unpack, bind_ok hslice]
  cases Metadata.deserialize bytes <;> rfl

theorem unpack_readOnly (record : Data) : ReadOnly (primaryMetadata.unpack record) := by
  refine (slice_readOnly _ _ _).bind fun bytes => ?_
  split
  · exact ReadOnly.pure _
  · exact ReadOnly.raise _

omit [Wire] in
theorem IoFactory.read_readOnly (i : Nat) (source destination : Data) :
    ReadOnly (IoFactory.read conf env i source destination) := by
  unfold IoFactory.read IoFactory.getIoClient
  refine ReadOnly.bind ?_ fun t => ?_
  · split
    · exact ReadOnly.pure _
    · exact ReadOnly.raise _
  · split
    · exact ReadOnly.raise _
    · exact Symbios.read_readOnly _ _ _

theorem fetch_readOnly (d : Data) : ReadOnly (fetch conf env d) :=
  (IoFactory.read_readOnly _ _ _).bind fun _ => unpack_readOnly _

theorem primaryMetadata_readOnly (request : Data) : ReadOnly (primaryMetadata conf env request) := by
  rw [primaryMetadata_eq]
  refine (fetch_readOnly _).bind fun m => ?_
  split
  · exact ReadOnly.pure _
  · exact fetch_readOnly _

variable {d : Data} {t : IoClientType} {w : Backends}

theorem fetch_absent (ht : conf.backend d.storageIndex = some t) (hcalm : env.readFault d.storageIndex d.id = none)
    (h : w t d.id = none) : fetch conf env d w = .error (.error (absentError t)) w := by
  rw [fetch, IoFactory.read_eq ht hcalm]
  exact bind_error (read_absent t d h)

theorem fetch_start {b : List UInt8} {n : Nat} (ht : conf.backend d.storageIndex = some t)
    (hcalm : env.readFault d.storageIndex d.id = none) (hpos : d.position = 0) (hb : w t d.id = some b)
    (hn : n ≤ b.length) (hsize : d.dataSize = n ∧ 0 < n ∨ d.dataSize = 0 ∧ n = b.length) :
    fetch conf env d w = match Metadata.deserialize (b.take n) with
      | .ok m => .ok m w
      | .error fault => .error fault w := by
  rw [fetch, IoFactory.read_eq ht hcalm, bind_ok (read_start t hb hpos hn hsize)]
  refine unpack_run rfl ?_ w
  simp only [List.length_take]
  omega

/-- A record is read back whole. -/
theorem fetch_whole {m : Metadata} {rest : List UInt8} (ht : conf.backend d.storageIndex = some t)
    (hcalm : env.readFault d.storageIndex d.id = none) (hpos : d.position = 0) (hsize : d.dataSize = 0)
    (hm : m.Portable) (h : w t d.id = some (m.serialize ++ rest)) : fetch conf env d w = .ok m w := by
  rw [fetch_start ht hcalm hpos h le_rfl (Or.inr ⟨hsize, rfl⟩), List.take_length,
    Metadata.deserialize_serialize hm rest]

/-- Of a record that has grown beyond the requested size, the rest is missing. -/
theorem fetch_part {m : Metadata} {rest : List UInt8} (ht : conf.backend d.storageIndex = some t)
    (hcalm : env.readFault d.storageIndex d.id = none) (hpos : d.position = 0) (hsize : 0 < d.dataSize)
    (hm : m.Portable) (h : w t d.id = some (m.serialize ++ rest))
    (hle : d.dataSize ≤ (m.serialize ++ rest).length) :
    fetch conf env d w = if m.serialize.length ≤ d.dataSize then .ok m w else .error .unpack w := by
  rw [fetch_start ht hcalm hpos h hle (Or.inl ⟨rfl, hsize⟩), Metadata.deserialize_take hm]
  split_ifs <;> rfl

end read

/-! ## The primary metadata of a request -/

section primary

variable {conf : ConfigurationManager} {env : Env} {request : Data} {t : IoClientType} {w : Backends}

theorem primaryMetadata_absent (ht : conf.backend request.storageIndex = some t)
    (hcalm : env.readFault request.storageIndex (metaId request.id) = none)
    (h : w t (metaId request.id) = none) :
    primaryMetadata conf env request w = .error (.error (absentError t)) w := by
  rw [primaryMetadata_eq]
  exact bind_error (fetch_absent (d := recordAt request.id request.storageIndex) ht hcalm h)

theorem primaryMetadata_primary {m : Metadata} (ht : conf.backend request.storageIndex = some t)
    (hcalm : env.readFault request.storageIndex (metaId request.id) = none) (hm : m.Portable)
    (hlink : m.isLink = false) (h : Holds w t request.id m) : primaryMetadata conf env request w = .ok m w := by
  obtain ⟨rest, hrest⟩ := h
  rw [primaryMetadata_eq, bind_ok (fetch_whole (d := recordAt request.id request.storageIndex) ht hcalm rfl rfl hm hrest),
    if_pos hlink]
  rfl

/-- Through a link the record is read with the size it had when the link was written. -/
theorem primaryMetadata_link {p m : Metadata} {t' : IoClientType} {rest : List UInt8}
    (ht : conf.backend request.storageIndex = some t)
    (hcalm : ∀ i, env.readFault i (metaId request.id) = none)
    (h : Holds w t request.id (linkMetadata request.id p)) (ht' : conf.backend p.storageIndex = some t')
    (hm : m.Portable) (hrest : w t' (metaId request.id) = some (m.serialize ++ rest))
    (hle : p.serialize.length ≤ (m.serialize ++ rest).length) :
    primaryMetadata conf env request w =
      if m.serialize.length ≤ p.serialize.length then .ok m w else .error .unpack w := by
  obtain ⟨rest', hrest'⟩ := h
  have hfetch := fetch_whole (d := recordAt request.id request.storageIndex) ht (hcalm _) rfl rfl
    (linkMetadata_portable _ _) hrest'
  have hlookup : ((linkMetadata request.id p).links.lookup (-1)).getD {} =
      { recordData request.id p p.storageIndex with buffer := none } := by
    rfl
  rw [primaryMetadata_eq, bind_ok hfetch, if_neg (by simp [linkMetadata]), hlookup]
  exact fetch_part (d := { recordData request.id p p.storageIndex with buffer := none }) ht' (hcalm _) rfl
    p.serialize_length_pos hm hrest hle

end primary

end Symbios
