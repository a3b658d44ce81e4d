import Symbios.Base.ReadModifyWrite
import Symbios.Model.Threads
import Symbios.Proof.Bounds

/-!
# Two stores into one file

The steps of a thread make up `Server::Store` (`StoreCall.alone_eq`), so a thread whose turns are not interleaved
with those of another one is a call (`exec_alone`). Two threads that add a link each read, change and write one
shared record without a lock: the primary metadata goes through the states of `ReadModifyWrite`
(`Follows.move`), and the link of the thread that writes first survives only when the other thread has not read
before (`last_write_wins`).
-/

namespace Symbios

open EStateM MetadataOrchestrator DataDistributionEngine

/-! ## One thread -/

section alone

variable {conf : ConfigurationManager} {env : Env}

theorem forM_objects (ds : List DataDistribution) :
    (ds.map objectWrite).forM (·.call conf env) = writeObjects conf env ds := by
  induction ds with
  | nil => rfl
  | cons d ds ih =>
    rw [List.map_cons, forM_cons, ih]
    rfl

variable [Wire]

/-- The loop over the other storages as the writes it makes. -/
theorem forM_others (id : CharStruct) (link : Metadata) (i : Nat) (l : List (Nat × IoClientType)) :
    ((l.filter fun solution => solution.1 ≠ i).map fun solution => recordWrite id link solution.1).forM
        (·.call conf env) =
      l.forM fun solution =>
        if solution.1 = i then pure ()
        else
          IoFactory.write conf env (recordData id link solution.1).storageIndex (recordData id link solution.1)
            (recordData id link solution.1) := by
  induction l with
  | nil => rfl
  | cons solution l ih =>
    rw [forM_cons, ← ih]
    by_cases h : solution.1 = i
    · simp [h]
    · simp [h]
      rfl

/-- The steps of a thread, in their order, are `Server::Store`. -/
theorem StoreCall.alone_eq (call : StoreCall) :
    (do
      let writes ← call.plan conf env
      writes.forM (·.call conf env)
      return conf.serverCount) = Server.store conf env call.draw call.source call.destination := by
  unfold StoreCall.plan Server.store MetadataOrchestrator.store
  simp only [bind_assoc]
  congr 1
  funext found
  cases found with
  | some primary =>
    simp only [pure_bind]
    split_ifs
    · simp only [List.cons_append, List.nil_append, forM_cons, forM_objects, bind_assoc, pure_bind]
      rfl
    · simp only [List.nil_append, forM_objects, pure_bind]
      rfl
  | none =>
    have happend : ∀ a b : List PendingWrite, (a ++ b).forM (·.call conf env) =
        (a.forM (·.call conf env) >>= fun _ => b.forM (·.call conf env)) := fun a b => List.forM_append
    simp only [pure_bind, List.cons_append, forM_cons, happend, forM_others, forM_objects, bind_assoc]
    rfl

variable {calls : Bool → StoreCall} {w w' : Backends} {pending : Bool → Option (List PendingWrite)} {b : Bool}

theorem move_plan {writes : List PendingWrite} (hp : pending b = none)
    (h : (calls b).plan conf Env.calm w = .ok writes w') :
    Concurrent.move conf calls ⟨w, pending⟩ b = some ⟨w', Function.update pending b (some writes)⟩ := by
  simp only [Concurrent.move, hp, h]

theorem move_call {write : PendingWrite} {writes : List PendingWrite} (hp : pending b = some (write :: writes))
    (h : write.call conf Env.calm w = .ok () w') :
    Concurrent.move conf calls ⟨w, pending⟩ b = some ⟨w', Function.update pending b (some writes)⟩ := by
  simp only [Concurrent.move, hp, h]

theorem exec_writes {writes : List PendingWrite} (hp : pending b = some writes)
    (h : writes.forM (·.call conf Env.calm) w = .ok () w') :
    exec conf calls (List.replicate writes.length b) ⟨w, pending⟩ =
      some ⟨w', Function.update pending b (some [])⟩ := by
  induction writes generalizing w pending with
  | nil =>
    cases h
    rw [← hp, Function.update_eq_self]
    rfl
  | cons write writes ih =>
    obtain ⟨u, w₁, hwrite, hrest⟩ := bind_eq_ok h
    have hnext := ih (Function.update_self b (some writes) pending) hrest
    rw [Function.update_idem] at hnext
    exact Option.bind_eq_some_iff.mpr ⟨_, move_call hp hwrite, hnext⟩

/-- A thread whose turns come one after the other is a call of `Server::Store`. -/
theorem exec_alone (hp : pending b = none) {n : Nat}
    (h : Server.store conf Env.calm (calls b).draw (calls b).source (calls b).destination w = .ok n w') :
    ∃ k, exec conf calls (List.replicate k b) ⟨w, pending⟩ = some ⟨w', Function.update pending b (some [])⟩ := by
  rw [← StoreCall.alone_eq] at h
  obtain ⟨writes, w₁, hplan, hrest⟩ := bind_eq_ok h
  obtain ⟨u, w₂, hwrites, hreturn⟩ := bind_eq_ok hrest
  cases hreturn
  have hnext : exec conf calls (List.replicate writes.length b) ⟨w₁, Function.update pending b (some writes)⟩ = _ :=
    exec_writes (Function.update_self b (some writes) pending) hwrites
  rw [Function.update_idem] at hnext
  exact ⟨writes.length + 1, Option.bind_eq_some_iff.mpr ⟨_, move_plan hp hplan, hnext⟩⟩

end alone

/-! ## The plan of a thread that adds a link -/

section twoStores

variable [Wire] {conf : ConfigurationManager} {id : CharStruct} {t : IoClientType} {w w' : Backends}

/-- The primary metadata a call makes out of the one it has read. -/
def StoreCall.grow (conf : ConfigurationManager) (call : StoreCall) (m : Metadata) : Metadata :=
  grownMetadata conf m (distribute conf call.draw call.source call.destination)

/-- The write of a call into the object of its segment. -/
def StoreCall.object (conf : ConfigurationManager) (call : StoreCall) : PendingWrite :=
  let d := sent conf call.draw call.source call.destination
  objectWrite { d with destinationData := freshLink conf.maxObjSize d }

/-- What is left of a call after `turns` steps, when it has read `m`. -/
def StoreCall.remaining (conf : ConfigurationManager) (call : StoreCall) (m : Metadata) (turns : Nat) :
    Option (List PendingWrite) :=
  match turns with
  | 0 => none
  | 1 => some [recordWrite call.destination.id (call.grow conf m) m.storageIndex, call.object conf]
  | 2 => some [call.object conf]
  | _ => some []

omit [Wire] in
theorem StoreCall.grow_extends (call : StoreCall) (m : Metadata) :
    Extends conf.maxObjSize (distribute conf call.draw call.source call.destination) m.links (call.grow conf m).links :=
  updateLinks_extends _ _ _

omit [Wire] in
theorem StoreCall.mem_grow (hpolicy : conf.dataDistributionPolicy ≠ .dynamicProgrammingPolicy) (call : StoreCall)
    (m : Metadata) (key : Int) :
    key ∈ (call.grow conf m).links ↔ key ∈ m.links ∨ key = linkKey (call.segment conf) := by
  rw [(call.grow_extends m).keys, distribute_eq hpolicy]
  simp only [List.mem_singleton, exists_eq_left]
  rfl

theorem StoreCall.plan_of_filed (hpolicy : conf.dataDistributionPolicy ≠ .dynamicProgrammingPolicy) {call : StoreCall}
    {m : Metadata} (hm : Filed conf call.destination.id w m t) (hfresh : linkKey (call.segment conf) ∉ m.links)
    {writes : List PendingWrite} (h : call.plan conf Env.calm w = .ok writes w') :
    w' = w ∧ some writes = call.remaining conf m 1 := by
  obtain ⟨found, w₁, hlook, hrest⟩ := bind_eq_ok h
  have hread : primaryMetadata conf Env.calm call.destination w = .ok m w ∨
      lookupFile conf Env.calm call.destination w = .error .unpack w ∨
      lookupFile conf Env.calm call.destination w = .error .undefined w := by
    cases ht : conf.backend call.destination.storageIndex with
    | none => exact Or.inr (Or.inr (lookupFile_undefined (primaryMetadata_unconfigured ht w)))
    | some t' =>
      rcases hm.primaryMetadata_cases ht with hok | hunpack
      · exact Or.inl hok
      · exact Or.inr (Or.inl (lookupFile_unpack hunpack))
  rcases hread with hok | hraise | hraise
  · cases htiles : tiles conf m.links call.destination with
    | none => cases (lookupFile_broken hok htiles).symm.trans hlook
    | some tls =>
      cases (lookupFile_found hok htiles).symm.trans hlook
      have hlookup : m.links.lookup (linkKey ((sent conf call.draw call.source call.destination).segment
        conf.maxObjSize)) = none := AList.lookup_eq_none.mpr hfresh
      dsimp only at hrest
      have hgrow : call.grow conf m = grownMetadata conf m [sent conf call.draw call.source call.destination] := by
        rw [StoreCall.grow, distribute_eq hpolicy]
      rw [distribute_eq hpolicy] at hrest
      cases hrest
      refine ⟨rfl, ?_⟩
      simp only [StoreCall.remaining, hgrow, grownMetadata, updateLinks_cons_of_notMem hlookup]
      rfl
  · cases hraise.symm.trans hlook
  · cases hraise.symm.trans hlook

/-! ## The two threads and the register they share -/

/-- What a thread may have read: a primary metadata of the file. -/
structure Version (conf : ConfigurationManager) (id : CharStruct) (index : Nat) (m : Metadata) : Prop where
  portable : m.Portable
  isLink_eq : m.isLink = false
  index_eq : m.storageIndex = index
  named : Named conf id m.links

omit [Wire] in
theorem Version.grow {index : Nat} {m : Metadata} (h : Version conf id index m) (call : StoreCall)
    (hid : call.destination.id = id) : Version conf id index (call.grow conf m) where
  portable := grownMetadata_portable h.portable _ _
  isLink_eq := h.isLink_eq
  index_eq := h.index_eq
  named := (call.grow_extends m).named h.named fun d hd => hid ▸ distribute_named d hd

/-- The threads of `c` have had the turns that `s` counts: the shared value is the primary metadata of the file, and
the link of a thread that has not written is in none of the versions about. -/
structure Follows (conf : ConfigurationManager) (id : CharStruct) (t : IoClientType) (index : Nat)
    (calls : Bool → StoreCall) (s : ReadModifyWrite.State Bool Metadata) (c : Concurrent) : Prop where
  filed : Filed conf id c.backends s.value t
  index_eq : s.value.storageIndex = index
  pending : ∀ b, c.pending b = (calls b).remaining conf (s.seen b) (s.turns b)
  seen : ∀ b, s.turns b = 1 → Version conf id index (s.seen b)
  fresh : ∀ b, s.turns b < 2 → linkKey ((calls b).segment conf) ∉ s.value.links
  fresh_seen : ∀ b b', s.turns b < 2 → s.turns b' = 1 → linkKey ((calls b).segment conf) ∉ (s.seen b').links

theorem Follows.start {calls : Bool → StoreCall} {m : Metadata} (hm : Filed conf id w m t)
    (hfresh : ∀ b, linkKey ((calls b).segment conf) ∉ m.links) :
    Follows conf id t m.storageIndex calls (ReadModifyWrite.start m) ⟨w, fun _ => none⟩ where
  filed := hm
  index_eq := rfl
  pending _ := rfl
  seen _ h := absurd h (by simp [ReadModifyWrite.start])
  fresh b _ := hfresh b
  fresh_seen _ _ _ h := absurd h (by simp [ReadModifyWrite.start])

theorem pending_update {calls : Bool → StoreCall} {pending : Bool → Option (List PendingWrite)}
    {seen seen' : Bool → Metadata} {turns : Bool → Nat} {b : Bool} {writes : Option (List PendingWrite)} {n : Nat}
    (h : ∀ b', pending b' = (calls b').remaining conf (seen b') (turns b'))
    (hb : writes = (calls b).remaining conf (seen' b) n) (hseen : ∀ b', b' ≠ b → seen' b' = seen b') (b' : Bool) :
    Function.update pending b writes b' = (calls b').remaining conf (seen' b') (Function.update turns b n b') := by
  by_cases hb' : b' = b
  · subst hb'
    rw [Function.update_self, Function.update_self, hb]
  · rw [Function.update_of_ne hb', Function.update_of_ne hb', h b', hseen b' hb']

/-- The run of a step that does not raise. -/
theorem move_cases {calls : Bool → StoreCall} {c c' : Concurrent} {b : Bool}
    (h : Concurrent.move conf calls c b = some c') :
    (∃ writes w', c.pending b = none ∧ (calls b).plan conf Env.calm c.backends = .ok writes w' ∧
      c' = ⟨w', Function.update c.pending b (some writes)⟩) ∨
    ∃ write writes w', c.pending b = some (write :: writes) ∧ write.call conf Env.calm c.backends = .ok () w' ∧
      c' = ⟨w', Function.update c.pending b (some writes)⟩ := by
  unfold Concurrent.move at h
  split at h
  next hp =>
    split at h
    next writes w' hplan => exact Or.inl ⟨writes, w', hp, hplan, (Option.some.inj h).symm⟩
    next => cases h
  next => cases h
  next write writes hp =>
    split at h
    next w' hcall => exact Or.inr ⟨write, writes, w', hp, hcall, (Option.some.inj h).symm⟩
    next => cases h

section steps

variable {index : Nat} {calls : Bool → StoreCall} {s : ReadModifyWrite.State Bool Metadata} {c : Concurrent} {b : Bool}

theorem Follows.version (h : Follows conf id t index calls s c) : Version conf id index s.value where
  portable := h.filed.primary.portable
  isLink_eq := h.filed.primary.isLink_eq
  index_eq := h.index_eq
  named := h.filed.named

theorem Follows.read (h : Follows conf id t index calls s c) (hturns : s.turns b = 0) {writes : List PendingWrite}
    (hwrites : some writes = (calls b).remaining conf s.value 1) :
    Follows conf id t index calls (ReadModifyWrite.step (fun b => (calls b).grow conf) s b)
      ⟨c.backends, Function.update c.pending b (some writes)⟩ := by
  rw [ReadModifyWrite.step_read hturns]
  -- a version that was read before, or the current one
  have hseen : ∀ b', Function.update s.turns b 1 b' = 1 → Function.update s.seen b s.value b' = s.value ∨
      s.turns b' = 1 ∧ Function.update s.seen b s.value b' = s.seen b' := by
    intro b' hb'
    by_cases heq : b' = b
    · exact Or.inl (heq ▸ Function.update_self ..)
    · rw [Function.update_of_ne heq] at hb' ⊢
      exact Or.inr ⟨hb', rfl⟩
  have hearly : ∀ b', Function.update s.turns b 1 b' < 2 → s.turns b' < 2 := by
    intro b' hb'
    by_cases heq : b' = b
    · rw [heq, hturns]
      decide
    · rwa [Function.update_of_ne heq] at hb'
  refine ⟨h.filed, h.index_eq, ?_, ?_, ?_, ?_⟩
  · apply pending_update (b := b) (n := 1) h.pending
    · dsimp only
      rw [hwrites, Function.update_self]
    · intro b' hb'
      exact Function.update_of_ne hb' ..
  · intro b' hb'
    dsimp only
    rcases hseen b' hb' with heq | ⟨hone, heq⟩
    · rw [heq]
      exact h.version
    · rw [heq]
      exact h.seen b' hone
  · intro b' hb'
    exact h.fresh b' (hearly b' hb')
  · intro b₁ b₂ h₁ h₂
    dsimp only
    rcases hseen b₂ h₂ with heq | ⟨hone, heq⟩
    · rw [heq]
      exact h.fresh b₁ (hearly b₁ h₁)
    · rw [heq]
      exact h.fresh_seen b₁ b₂ (hearly b₁ h₁) hone

theorem Follows.writeRecord (hpolicy : conf.dataDistributionPolicy ≠ .dynamicProgrammingPolicy)
    (hid : ∀ b, (calls b).destination.id = id)
    (hne : ∀ b b', b ≠ b' → linkKey ((calls b).segment conf) ≠ linkKey ((calls b').segment conf))
    (h : Follows conf id t index calls s c) (hturns : s.turns b = 1) :
    Follows conf id t index calls (ReadModifyWrite.step (fun b => (calls b).grow conf) s b)
      ⟨putRecord c.backends t id ((calls b).grow conf (s.seen b)),
        Function.update c.pending b (some [(calls b).object conf])⟩ := by
  rw [ReadModifyWrite.step_write hturns]
  have hversion := (h.seen b hturns).grow (calls b) (hid b)
  -- the turns of the other thread are not touched
  have hother : ∀ b', Function.update s.turns b 2 b' < 2 → b' ≠ b ∧ s.turns b' < 2 := by
    intro b' hb'
    by_cases heq : b' = b
    · rw [heq, Function.update_self] at hb'
      omega
    · rw [Function.update_of_ne heq] at hb'
      exact ⟨heq, hb'⟩
  have hone : ∀ b', Function.update s.turns b 2 b' = 1 → s.turns b' = 1 := by
    intro b' hb'
    rwa [Function.update_of_ne (hother b' (by omega)).1] at hb'
  refine ⟨?_, hversion.index_eq, ?_, ?_, ?_, ?_⟩
  · exact h.filed.writeBack (hversion.index_eq.trans h.index_eq.symm) hversion.portable hversion.isLink_eq hversion.named
  · exact pending_update h.pending (b := b) rfl fun _ _ => rfl
  · intro b' hb'
    exact h.seen b' (hone b' hb')
  · intro b' hb' hmem
    obtain ⟨hb, hlt⟩ := hother b' hb'
    rcases ((calls b).mem_grow hpolicy _ _).mp hmem with hold | hkey
    · exact h.fresh_seen b' b hlt hturns hold
    · exact hne b' b hb hkey
  · intro b₁ b₂ h₁ h₂
    exact h.fresh_seen b₁ b₂ (hother b₁ h₁).2 (hone b₂ h₂)

theorem Follows.writeObject (h : Follows conf id t index calls s c) (hid : ∀ b, (calls b).destination.id = id)
    (hturns : s.turns b = 2) {w' : Backends} (hcall : ((calls b).object conf).call conf Env.calm c.backends = .ok () w') :
    Follows conf id t index calls (ReadModifyWrite.step (fun b => (calls b).grow conf) s b)
      ⟨w', Function.update c.pending b (some [])⟩ := by
  rw [ReadModifyWrite.step_idle (by omega), hturns]
  have hkeep : ∀ t', w' t' (metaId id) = c.backends t' (metaId id) := by
    intro t'
    have hne : metaId id ≠ ((calls b).object conf).destination.id := by
      rw [← hid b]
      exact (objectId_ne_metaId _ _).symm
    have hout := @IoFactory.write_outside conf Env.calm ((calls b).object conf).index ((calls b).object conf).source
      ((calls b).object conf).destination c.backends t' _ hne
    rw [show IoFactory.write _ _ _ _ _ _ = _ from hcall] at hout
    exact hout
  have hother : ∀ b', Function.update s.turns b 3 b' < 2 → s.turns b' < 2 ∧ Function.update s.turns b 3 b' = s.turns b' := by
    intro b' hb'
    by_cases heq : b' = b
    · rw [heq, Function.update_self] at hb'
      omega
    · rw [Function.update_of_ne heq] at hb' ⊢
      exact ⟨hb', rfl⟩
  have hone : ∀ b', Function.update s.turns b 3 b' = 1 → s.turns b' = 1 := by
    intro b' hb'
    rwa [(hother b' (by omega)).2] at hb'
  refine ⟨h.filed.congr hkeep, h.index_eq, ?_, ?_, ?_, ?_⟩
  · exact pending_update h.pending (b := b) rfl fun _ _ => rfl
  · intro b' hb'
    exact h.seen b' (hone b' hb')
  · intro b' hb'
    exact h.fresh b' (hother b' hb').1
  · intro b₁ b₂ h₁ h₂
    exact h.fresh_seen b₁ b₂ (hother b₁ h₁).1 (hone b₂ h₂)

theorem StoreCall.remaining_cons {call : StoreCall} {m : Metadata} {n : Nat} {write : PendingWrite}
    {writes : List PendingWrite} (h : some (write :: writes) = call.remaining conf m n) :
    (n = 1 ∧ write = recordWrite call.destination.id (call.grow conf m) m.storageIndex ∧ writes = [call.object conf]) ∨
    (n = 2 ∧ write = call.object conf ∧ writes = []) := by
  match n with
  | 0 => cases h
  | 1 =>
    cases h
    exact Or.inl ⟨rfl, rfl, rfl⟩
  | 2 =>
    cases h
    exact Or.inr ⟨rfl, rfl, rfl⟩
  | n + 3 => cases h

/-- Every step that does not raise is a turn at the register. -/
theorem Follows.move (hpolicy : conf.dataDistributionPolicy ≠ .dynamicProgrammingPolicy)
    (hid : ∀ b, (calls b).destination.id = id)
    (hne : ∀ b b', b ≠ b' → linkKey ((calls b).segment conf) ≠ linkKey ((calls b').segment conf))
    (h : Follows conf id t index calls s c) {c' : Concurrent} (hmove : Concurrent.move conf calls c b = some c') :
    Follows conf id t index calls (ReadModifyWrite.step (fun b => (calls b).grow conf) s b) c' := by
  have hpending := h.pending b
  rcases move_cases hmove with ⟨writes, w', hp, hplan, rfl⟩ | ⟨write, writes, w', hp, hcall, rfl⟩
  · rw [hp] at hpending
    have hturns : s.turns b = 0 := by
      unfold StoreCall.remaining at hpending
      split at hpending <;> simp_all
    obtain ⟨rfl, hwrites⟩ := StoreCall.plan_of_filed hpolicy ((hid b).symm ▸ h.filed) (h.fresh b (by omega)) hplan
    exact h.read hturns hwrites
  · rw [hp] at hpending
    rcases StoreCall.remaining_cons hpending with ⟨hturns, rfl, rfl⟩ | ⟨hturns, rfl, rfl⟩
    · have hindex : conf.backend (s.seen b).storageIndex = some t := by
        rw [(h.seen b hturns).index_eq, ← h.index_eq]
        exact h.filed.index
      have hwrite := recordData_write t id ((calls b).grow conf (s.seen b)) (s.seen b).storageIndex c.backends
      rw [PendingWrite.call, recordWrite, hid b, IoFactory.write_eq hindex _ rfl, hwrite] at hcall
      cases hcall
      exact h.writeRecord hpolicy hid hne hturns
    · exact h.writeObject hid hturns hcall

end steps

variable {m : Metadata} {calls : Bool → StoreCall} {schedule : List Bool} {c : Concurrent}

omit [Wire] in
theorem linkKeys_ne (hlt : ∀ b, (calls b).destination.position < 2 ^ 64)
    (hsegments : (calls true).segment conf ≠ (calls false).segment conf) (b b' : Bool) (hb : b ≠ b') :
    linkKey ((calls b).segment conf) ≠ linkKey ((calls b').segment conf) := by
  have hseg : ∀ b, (calls b).segment conf < 2 ^ 64 := fun b => (Nat.div_le_self _ _).trans_lt (hlt b)
  intro heq
  have hsame := linkKey_injOn (hseg b) (hseg b') heq
  cases b <;> cases b' <;> simp_all

/-- The primary metadata after any schedule. -/
theorem exec_follows (hpolicy : conf.dataDistributionPolicy ≠ .dynamicProgrammingPolicy) (hm : Filed conf id w m t)
    (hid : ∀ b, (calls b).destination.id = id) (hlt : ∀ b, (calls b).destination.position < 2 ^ 64)
    (hsegments : (calls true).segment conf ≠ (calls false).segment conf)
    (hfresh : ∀ b, linkKey ((calls b).segment conf) ∉ m.links)
    (hrun : exec conf calls schedule ⟨w, fun _ => none⟩ = some c) :
    Follows conf id t m.storageIndex calls
      (ReadModifyWrite.run (fun b => (calls b).grow conf) schedule (ReadModifyWrite.start m)) c := by
  apply ReadModifyWrite.run_simulates _ (Follows.start hm hfresh) hrun
  intro s c b c' h hmove
  exact h.move hpolicy hid (linkKeys_ne hlt hsegments) hmove

theorem Follows.complete_iff {index : Nat}
    (h : Follows conf id t index calls
      (ReadModifyWrite.run (fun b => (calls b).grow conf) schedule (ReadModifyWrite.start m)) c) :
    c.Complete ↔ ∀ b, 3 ≤ schedule.count b := by
  refine forall_congr' fun b => ?_
  rw [h.pending b, ReadModifyWrite.run_turns]
  simp only [ReadModifyWrite.start, Nat.zero_add]
  generalize schedule.count b = n
  rcases n with _ | _ | _ | n <;> simp [StoreCall.remaining]

/-- Two stores of one file that add a link each, interleaved in any way: the primary metadata keeps its links and has
the one of the thread that wrote it last. The other link is there when its thread had written before the last
writer read, and lost otherwise. -/
theorem last_write_wins (hpolicy : conf.dataDistributionPolicy ≠ .dynamicProgrammingPolicy) (hm : Filed conf id w m t)
    (hid : ∀ b, (calls b).destination.id = id) (hlt : ∀ b, (calls b).destination.position < 2 ^ 64)
    (hsegments : (calls true).segment conf ≠ (calls false).segment conf)
    (hfresh : ∀ b, linkKey ((calls b).segment conf) ∉ m.links)
    (hrun : exec conf calls schedule ⟨w, fun _ => none⟩ = some c) (hdone : c.Complete) :
    ∃ b before between after m', schedule = before ++ b :: between ++ b :: after ∧ b ∉ before ∧ b ∉ between ∧
      2 ≤ (before ++ between).count (!b) ∧ Filed conf id c.backends m' t ∧
      (∀ key link, m.links.lookup key = some link → m'.links.lookup key = some link) ∧
      linkKey ((calls b).segment conf) ∈ m'.links ∧
      (linkKey ((calls !b).segment conf) ∈ m'.links ↔ 2 ≤ before.count !b) := by
  have hfollows := exec_follows hpolicy hm hid hlt hsegments hfresh hrun
  have hcount : ∀ b, 2 ≤ schedule.count b := fun b => Nat.le_of_succ_le (hfollows.complete_iff.mp hdone b)
  obtain ⟨b, before, between, after, hschedule, hbefore, hbetween, hlast⟩ := ReadModifyWrite.exists_lastWriter hcount
  refine ⟨b, before, between, after, _, hschedule, hbefore, hbetween, hlast, hfollows.filed, ?_⟩
  rw [hschedule, ReadModifyWrite.run_twoThreads m hbefore hbetween hlast]
  have hown : ∀ m' key, key ∈ ((calls b).grow conf m').links ↔ key ∈ m'.links ∨ key = linkKey ((calls b).segment conf) :=
    (calls b).mem_grow hpolicy
  split_ifs with hearlier
  · refine ⟨fun key link hlink => ?_, ?_, ?_⟩
    · exact ((calls b).grow_extends _).keeps _ _ (((calls !b).grow_extends _).keeps _ _ hlink)
    · exact (hown _ _).mpr (Or.inr rfl)
    · simp only [hearlier, iff_true]
      exact (hown _ _).mpr (Or.inl (((calls !b).mem_grow hpolicy _ _).mpr (Or.inr rfl)))
  · refine ⟨fun key link hlink => ((calls b).grow_extends _).keeps _ _ hlink, (hown _ _).mpr (Or.inr rfl), ?_⟩
    simp only [hearlier, iff_false]
    intro hmem
    rcases (hown _ _).mp hmem with hold | hkey
    · exact hfresh _ hold
    · exact linkKeys_ne hlt hsegments _ _ (Bool.not_ne_self b) hkey

end twoStores

/-! ## Two bytes into the file `f` -/

/-- One byte into segment 1, and one into segment 2. -/
def nextBytes (thread : Bool) : StoreCall where
  source := { buffer := some [7], dataSize := 1 }
  destination := { id := [0x66], position := if thread then 4 else 8, dataSize := 1 }

theorem afterByteAt_filed : Filed oneFile [0x66] (afterByteAt 0) (metadataAt 0) .fileIo := by
  have hnamed : Named oneFile [0x66] (metadataAt 0).links := by
    have hextends : Extends oneFile.maxObjSize
        (distribute oneFile 0 { buffer := some [7], dataSize := 1 } { id := [0x66], position := 0, dataSize := 1 }) ∅
        (metadataAt 0).links := createLinks_extends _ _ _
    exact hextends.named (fun _ _ h => by cases h) distribute_named
  have hcreate := Filed.create (w := fun _ _ => none) (fun _ => rfl) rfl oneFile_exclusive (newMetadata_portable _ _ _) rfl hnamed
  exact hcreate.congr fun t => Backends.put_of_key_ne _ _ _ _ (objectId_ne_metaId _ _).symm

theorem nextBytes_fresh (b : Bool) : linkKey ((nextBytes b).segment oneFile) ∉ (metadataAt 0).links := by
  cases b <;> decide

/-- A serial schedule. -/
theorem oneFile_serial_keeps_both :
    ∃ c, exec oneFile nextBytes [true, true, true, false, false, false] ⟨afterByteAt 0, fun _ => none⟩ = some c ∧
      ∃ b before between after m',
        [true, true, true, false, false, false] = before ++ b :: between ++ b :: after ∧ b ∉ before ∧ b ∉ between ∧
        2 ≤ (before ++ between).count (!b) ∧ Filed oneFile [0x66] c.backends m' .fileIo ∧
        (∀ key link, (metadataAt 0).links.lookup key = some link → m'.links.lookup key = some link) ∧
        linkKey ((nextBytes b).segment oneFile) ∈ m'.links ∧
        (linkKey ((nextBytes !b).segment oneFile) ∈ m'.links ↔ 2 ≤ before.count !b) := by
  obtain ⟨c, hc⟩ := Option.isSome_iff_exists.mp (show (exec oneFile nextBytes [true, true, true, false, false, false]
    ⟨afterByteAt 0, fun _ => none⟩).isSome from by decide +kernel)
  have hlt : ∀ b, (nextBytes b).destination.position < 2 ^ 64 := by decide
  have hfollows := exec_follows (by decide) afterByteAt_filed (fun _ => rfl) hlt (by decide) nextBytes_fresh hc
  exact ⟨c, hc, last_write_wins (by decide) afterByteAt_filed (fun _ => rfl) hlt (by decide) nextBytes_fresh hc
    (hfollows.complete_iff.mpr (by decide))⟩

/-- Both threads read before either writes: the link of segment 1 is lost. -/
theorem oneFile_loses_link :
    primaryMetadata oneFile Env.calm { id := [0x66] } (afterByteAt 0) = .ok (metadataAt 0) (afterByteAt 0) ∧
    (nextBytes true).segment oneFile = 1 ∧ (nextBytes false).segment oneFile = 2 ∧
    (∀ b, linkKey ((nextBytes b).segment oneFile) ∉ (metadataAt 0).links) ∧
    ∃ c m', exec oneFile nextBytes [true, false, true, false, true, false] ⟨afterByteAt 0, fun _ => none⟩ = some c ∧
      c.Complete ∧ primaryMetadata oneFile Env.calm { id := [0x66] } c.backends = .ok m' c.backends ∧
      linkKey ((nextBytes true).segment oneFile) ∉ m'.links := by
  obtain ⟨c, hc⟩ := Option.isSome_iff_exists.mp (show (exec oneFile nextBytes [true, false, true, false, true, false]
    ⟨afterByteAt 0, fun _ => none⟩).isSome from by decide +kernel)
  have hlt : ∀ b, (nextBytes b).destination.position < 2 ^ 64 := by decide
  have hfollows := exec_follows (by decide) afterByteAt_filed (fun _ => rfl) hlt (by decide) nextBytes_fresh hc
  have hprimary := hfollows.filed.primary
  refine ⟨afterByteAt_primary 0 _ rfl rfl, rfl, rfl, nextBytes_fresh, c, (nextBytes false).grow oneFile (metadataAt 0), hc,
    hfollows.complete_iff.mpr (by decide), ?_, ?_⟩
  · exact primaryMetadata_primary (t := .fileIo) rfl rfl hprimary.portable hprimary.isLink_eq hprimary.holds
  · rw [StoreCall.mem_grow (by decide), not_or]
    exact ⟨nextBytes_fresh true, by decide⟩

end Symbios
