import Symbios.Proof.ReadYourWrites
import Symbios.Proof.Reads
import Symbios.Proof.Splice

/-!
# Where a segment is placed

The abstract file keeps an object for each segment and writes into it as the file client does (`storedObjects`). A run
keeps these objects in whatever backends its policy has chosen (`Spread`), as long as no write takes a branch on which
the object stores differ from files (`WritesAlike`). `Locate` cuts its range without looking at the placement, and a
part that its client reads as the contract says (`KeepsContract`) is a function of the object. So two runs over the
same requests give the same answers, whatever their policies have chosen (`placement_transparent`).
-/

namespace Symbios

open EStateM MetadataOrchestrator DataDistributionEngine

/-! ## Writes -/

/-- A write of `n` bytes at `position` leaves in an object of the client what it leaves in a file: a new object starts
at its first byte, and a write that reaches the end of an old one starts at its first byte or behind its end. -/
def WritesAlike (t : IoClientType) (old : Option (List UInt8)) (position n : Nat) : Prop :=
  t = .fileIo ∨
    match old with
    | none => position = 0 ∨ n = 0
    | some value => position = 0 ∨ position + n < value.length ∨ value.length < position ∧ 0 < n

instance (t : IoClientType) (old : Option (List UInt8)) (position n : Nat) : Decidable (WritesAlike t old position n) :=
  match old with
  | none => inferInstanceAs (Decidable (t = .fileIo ∨ position = 0 ∨ n = 0))
  | some value => inferInstanceAs (Decidable
      (t = .fileIo ∨ position = 0 ∨ position + n < value.length ∨ value.length < position ∧ 0 < n))

/-- What a write leaves in an object store: it ignores the position when there is no value, and keeps less of an old
value than a file does. -/
def objectWritten : Option (List UInt8) → Nat → List UInt8 → List UInt8
  | none, _, bytes => bytes
  | some value, position, bytes =>
    Overlay.overlay 0 (if value.length ≤ position + bytes.length then keptBytes value position else value) position bytes

/-- What a write leaves of an object. -/
def written (t : IoClientType) (old : Option (List UInt8)) (position : Nat) (bytes : List UInt8) : List UInt8 :=
  if t = .fileIo then fileWritten (old.getD []) position bytes else objectWritten old position bytes

/-- The bytes a store has in its source. -/
def sourceBytes (source : Data) : List UInt8 := (source.buffer.getD []).take source.dataSize

section write

variable {source destination : Data} (hpos : source.position = 0)
  (hfits : source.dataSize ≤ (source.buffer.getD []).length)

include hfits

theorem sourceBytes_length : (sourceBytes source).length = source.dataSize := by
  rw [sourceBytes, List.length_take]
  exact min_eq_left hfits

include hpos

theorem slice_sourceBytes (w : Backends) :
    slice source.buffer source.position source.dataSize w = .ok (sourceBytes source) w := by
  rw [slice_of_le (by rw [hpos]; omega), hpos]
  rfl

/-- A write inside the address space leaves `written`. -/
theorem write_written (t : IoClientType) (hdest : destination.position + source.dataSize < 2 ^ 63) (w : Backends) :
    IoClient.write t source destination w = .ok () (w.put t destination.id
      (some (written t (w t destination.id) destination.position (sourceBytes source)))) := by
  have hlength := sourceBytes_length hfits
  by_cases ht : t = .fileIo
  · have hsub : subSize source.dataSize source.position = source.dataSize := by simp [subSize, hpos]
    rw [ht, fileWrite_eq source (by omega), hsub, if_pos (by omega), hpos]
    rfl
  · have hslice := slice_sourceBytes hpos hfits w
    have hvalue : storedValue (w t destination.id) source destination w =
        .ok (written t (w t destination.id) destination.position (sourceBytes source)) w := by
      rw [written, if_neg ht]
      cases w t destination.id with
      | none => exact hslice
      | some old =>
        rw [storedValue, newValue_eq hslice hlength (Or.inr (by omega)), objectWritten, hlength]
    rw [objectWrite_eq ht, bind_ok hvalue, modify_run]

end write

section written

variable {t : IoClientType} {old : Option (List UInt8)} {position : Nat} {bytes : List UInt8}

/-- Where the object stores build a value anew, it is what a file would be. -/
theorem written_alike (h : WritesAlike t old position bytes.length) :
    written t old position bytes = fileWritten (old.getD []) position bytes := by
  by_cases ht : t = .fileIo
  · rw [written, if_pos ht]
  have hcases := h.resolve_left ht
  rw [written, if_neg ht, fileWritten]
  cases old with
  | none =>
    dsimp only at hcases
    rw [objectWritten, Option.getD_none]
    split_ifs with hnil
    · exact hnil
    · have hzero : position = 0 := hcases.resolve_right fun h => hnil (List.length_eq_zero_iff.mp h)
      rw [hzero, Overlay.overlay_zero, List.drop_nil, List.append_nil]
  | some value =>
    dsimp only at hcases
    have hvalue : Overlay.overlay 0 (if value.length ≤ position + bytes.length then keptBytes value position else value)
        position bytes = Overlay.overlay 0 value position bytes := by
      split_ifs with hend
      · apply (overlay_kept_iff hend).mpr
        rcases hcases with hzero | hin | ⟨hbehind, -⟩
        · exact Or.inl hzero
        · omega
        · exact Or.inr (Or.inl hbehind)
      · rfl
    rw [objectWritten, hvalue, Option.getD_some]
    split_ifs with hnil
    · -- nothing is written inside the old value
      rw [hnil, List.length_nil] at hcases
      rw [hnil, Overlay.overlay_nil 0 (by omega)]
    · rfl

theorem written_length_le {n : Nat} (hold : (old.getD []).length ≤ n) (hin : position + bytes.length ≤ n) :
    (written t old position bytes).length ≤ n := by
  rw [written]
  split_ifs with ht
  · rw [fileWritten]
    split_ifs
    · exact hold
    · rw [Overlay.overlay_length]
      omega
  · cases old with
    | none =>
      rw [objectWritten]
      omega
    | some value =>
      have hkept := keptBytes_length_le value position
      rw [Option.getD_some] at hold
      rw [objectWritten, Overlay.overlay_length]
      split_ifs <;> omega

end written

/-! ## Requests -/

/-- A request of a client on a file. -/
inductive FileRequest where
  | store (source destination : Data)
  | locate (source destination : Data)

/-- A store as the clients issue it: the buffer goes to a range inside one segment. -/
structure IssuedStore (conf : ConfigurationManager) (id : CharStruct) (source destination : Data) : Prop where
  id_eq : destination.id = id
  index_eq : destination.storageIndex = 0
  position_eq : source.position = 0
  size_eq : source.dataSize = destination.dataSize
  size_le : source.dataSize ≤ (source.buffer.getD []).length
  inside : destination.position % conf.maxObjSize + source.dataSize ≤ conf.maxObjSize

namespace FileRequest

/-- The requests as the clients issue them. -/
def Issued (conf : ConfigurationManager) (id : CharStruct) : FileRequest → Prop
  | store source destination => IssuedStore conf id source destination
  | locate source destination => source.id = id ∧ source.storageIndex = 0 ∧ source.dataSize = destination.dataSize

/-- The segment a store goes to. -/
def touched (conf : ConfigurationManager) : FileRequest → Option Nat
  | store _ destination => some (destination.position / conf.maxObjSize)
  | locate _ _ => none

/-- The objects of the segments after a request. -/
def applied (conf : ConfigurationManager) (objects : Nat → Option (List UInt8)) : FileRequest → Nat → Option (List UInt8)
  | store source destination =>
    Function.update objects (destination.position / conf.maxObjSize)
      (some (fileWritten ((objects (destination.position / conf.maxObjSize)).getD [])
        (destination.position % conf.maxObjSize) (sourceBytes source)))
  | locate _ _ => objects

/-- What the server does for a request; `Locate` has an answer. -/
def serve [Wire] (conf : ConfigurationManager) (draw : Nat) : FileRequest → Prog (Option Data)
  | store source destination => do
    discard (Server.store conf Env.calm draw source destination)
    return none
  | locate source destination => some <$> Server.locate conf Env.calm source destination

end FileRequest

/-- Stores take the segments in order. -/
def SegmentsInOrder (conf : ConfigurationManager) (requests : List FileRequest) : Prop :=
  ∀ before request after, requests = before ++ request :: after → ∀ s, request.touched conf = some s →
    ∀ s' < s, ∃ earlier ∈ before, earlier.touched conf = some s'

theorem segmentsInOrder_of_first {conf : ConfigurationManager} {requests : List FileRequest}
    (h : ∀ request ∈ requests, request.touched conf ∈ [none, some 0]) : SegmentsInOrder conf requests := by
  intro before request after hrequests s hs s' hlt
  have hmem := h request (by simp [hrequests])
  simp only [hs, List.mem_cons, List.not_mem_nil, or_false, Option.some.injEq, reduceCtorEq, false_or] at hmem
  omega

/-- The state after the requests, of which request `k` gets the draw `draws k`. What raises leaves the state it raises
in. -/
def served [Wire] (conf : ConfigurationManager) (draws : Nat → Nat) (requests : List FileRequest) (w : Backends) :
    Backends :=
  requests.zipIdx.foldl (fun w e => (e.1.serve conf (draws e.2) w).final) w

theorem served_concat [Wire] (conf : ConfigurationManager) (draws : Nat → Nat) (requests : List FileRequest)
    (request : FileRequest) (w : Backends) :
    served conf draws (requests ++ [request]) w =
      (request.serve conf (draws requests.length) (served conf draws requests w)).final := by
  simp [served, List.zipIdx_append]

/-! ## The branches on which the clients differ -/

section branches

variable (conf : ConfigurationManager)

variable [Wire]

/-- The backend that a store goes to: where the segment is linked, or where the policy sends it. -/
def target (draw : Nat) (destination : Data) (w : Backends) : Option IoClientType :=
  match lookupFile conf Env.calm destination w with
  | .ok (some primary) _ =>
    match primary.links.lookup (linkKey (destination.position / conf.maxObjSize)) with
    | some link => conf.backend link.storageIndex
    | none => conf.backend (selectedIndex conf draw destination)
  | _ => conf.backend (selectedIndex conf draw destination)

/-- Every part of the cut is one that its client reads as the contract says. -/
def AllKept (w : Backends) (ds : List DataDistribution) : Prop :=
  ∀ d ∈ ds, ∀ t ∈ conf.backend d.destinationData.storageIndex, ∀ v ∈ w t d.sourceData.id,
    KeepsContract t v.length d.sourceData.position d.sourceData.dataSize d.destinationData.position

instance (w : Backends) (ds : List DataDistribution) : Decidable (AllKept conf w ds) :=
  inferInstanceAs (Decidable (∀ d ∈ ds, ∀ t ∈ conf.backend _, ∀ v ∈ w t _, KeepsContract _ _ _ _ _))

/-- No branch is taken on which the client in use differs from the others: a store goes to one of the segments that an
`int` counts and its write leaves what a file would be left with; every part into which the links cut a range is read as
the contract says. -/
def TakesCommonBranch (draw : Nat) : FileRequest → Backends → Prop
  | .store source destination, w =>
    destination.position / conf.maxObjSize + 1 < 2 ^ 31 ∧ ∀ t ∈ target conf draw destination w,
      WritesAlike t (w t (objectId destination.id (destination.position / conf.maxObjSize)))
        (destination.position % conf.maxObjSize) source.dataSize
  | .locate source _, w =>
    ∀ m ∈ (primaryMetadata conf Env.calm source w).outcome.toOption, ∀ ds ∈ tiles conf m.links source, AllKept conf w ds

instance (draw : Nat) (request : FileRequest) (w : Backends) : Decidable (TakesCommonBranch conf draw request w) :=
  match request with
  | .store source destination => inferInstanceAs (Decidable
      (destination.position / conf.maxObjSize + 1 < 2 ^ 31 ∧ ∀ t ∈ target conf draw destination w,
        WritesAlike t (w t (objectId destination.id (destination.position / conf.maxObjSize)))
          (destination.position % conf.maxObjSize) source.dataSize))
  | .locate source _ => inferInstanceAs (Decidable
      (∀ m ∈ (primaryMetadata conf Env.calm source w).outcome.toOption, ∀ ds ∈ tiles conf m.links source,
        AllKept conf w ds))

end branches

/-! ## The state of a run -/

section spread

variable {conf : ConfigurationManager} {id : CharStruct} {objects : Nat → Option (List UInt8)} {links links' : Links}
  {w : Backends}

/-- Neither records nor objects of the file. -/
def Unused (id : CharStruct) (w : Backends) : Prop := NoRecord id w ∧ ∀ s t, w t (objectId id s) = none

/-- The links take the segments in order, and the objects of the segments are where the links lead. -/
structure Spread (conf : ConfigurationManager) (id : CharStruct) (objects : Nat → Option (List UInt8)) (links : Links)
    (w : Backends) : Prop where
  inOrder : InOrder links
  few : links.entries.length < 2 ^ 31
  linked : ∀ (s : Nat) (link : Data), links.lookup (s : Int) = some link → link.id = objectId id s ∧
    ∃ t, conf.backend link.storageIndex = some t ∧ w t (objectId id s) = objects s
  present : ∀ s, (objects s).isSome ↔ s < links.entries.length
  absent : ∀ s, objects s = none → ∀ t, w t (objectId id s) = none
  short : ∀ s v, objects s = some v → v.length ≤ conf.maxObjSize

theorem Spread.empty (h : ∀ s t, w t (objectId id s) = none) : Spread conf id (fun _ => none) ∅ w where
  inOrder := inOrder_empty
  few := by
    rw [show (∅ : Links).entries.length = 0 from rfl]
    norm_num
  linked _ _ hlookup := by cases hlookup
  present s := by simp [show (∅ : Links).entries = [] from rfl]
  absent s _ t := h s t
  short _ _ hv := by cases hv

/-- A write of one object and of records leaves the other objects. -/
theorem object_kept {w₁ : Backends} {s s' : Nat} (hrecords : ∀ k, k ≠ metaId id → ∀ t', w₁ t' k = w t' k) (hne : s' ≠ s)
    (v : Option (List UInt8)) (t t' : IoClientType) :
    w₁.put t (objectId id s) v t' (objectId id s') = w t' (objectId id s') := by
  rw [Backends.put_of_key_ne _ _ _ _ fun heq => hne (objectId_injective _ heq)]
  exact hrecords _ (objectId_ne_metaId _ _) t'

/-- A link of segment `s` is there and its object was written. -/
theorem Spread.of_put {w₁ : Backends} {s : Nat} {t : IoClientType} {link : Data} {v : List UInt8}
    (h : Spread conf id objects links w) (hrecords : ∀ k, k ≠ metaId id → ∀ t', w₁ t' k = w t' k)
    (horder : InOrder links') (hlength : ∀ s', s' < links'.entries.length ↔ s' < links.entries.length ∨ s' = s)
    (hs : s + 1 < 2 ^ 31) (hlink : links'.lookup (s : Int) = some link) (hid : link.id = objectId id s)
    (hindex : conf.backend link.storageIndex = some t)
    (hold : ∀ (s' : Nat) link', s' ≠ s → links'.lookup (s' : Int) = some link' → links.lookup (s' : Int) = some link')
    (hv : v.length ≤ conf.maxObjSize) :
    Spread conf id (Function.update objects s (some v)) links' (w₁.put t (objectId id s) (some v)) where
  inOrder := horder
  few := by
    have hfew := h.few
    by_contra hge
    rcases (hlength (2 ^ 31 - 1)).mp (by omega) with hlt | heq <;> omega
  linked := by
    intro s' link' hlookup
    by_cases hsame : s' = s
    · rw [hsame] at hlookup ⊢
      rw [hlink, Option.some.injEq] at hlookup
      subst hlookup
      refine ⟨hid, t, hindex, ?_⟩
      rw [Function.update_self]
      exact Backends.put_same ..
    · obtain ⟨hid', t', hindex', hobject⟩ := h.linked s' link' (hold s' link' hsame hlookup)
      refine ⟨hid', t', hindex', ?_⟩
      rw [Function.update_of_ne hsame, ← hobject]
      exact object_kept hrecords hsame _ t t'
  present := by
    intro s'
    rw [hlength]
    by_cases hsame : s' = s
    · simp [hsame]
    · rw [Function.update_of_ne hsame, h.present]
      simp [hsame]
  absent := by
    intro s' hnone t'
    have hne : s' ≠ s := by
      intro heq
      rw [heq, Function.update_self] at hnone
      cases hnone
    rw [Function.update_of_ne hne] at hnone
    rw [object_kept hrecords hne]
    exact h.absent s' hnone t'
  short := by
    intro s' v' hv'
    by_cases hsame : s' = s
    · rw [hsame, Function.update_self, Option.some.injEq] at hv'
      exact hv' ▸ hv
    · rw [Function.update_of_ne hsame] at hv'
      exact h.short s' v' hv'

end spread

/-! ## Stores -/

section stores

variable {conf : ConfigurationManager} {id : CharStruct} {objects : Nat → Option (List UInt8)} {links links' : Links}
  {w w₁ : Backends} {draw : Nat} {source destination : Data}

/-- The object of a segment is in the backend of its link, and nowhere before it is linked. -/
theorem Spread.object_eq (h : Spread conf id objects links w) {s : Nat} {t : IoClientType}
    (ht : ∀ link, links.lookup (s : Int) = some link → conf.backend link.storageIndex = some t) :
    w t (objectId id s) = objects s := by
  cases hlookup : links.lookup (s : Int) with
  | none =>
    have hnone : objects s = none := by
      rw [← Option.not_isSome_iff_eq_none, h.present]
      intro hlt
      have hmem : (s : Int) ∈ links := (h.inOrder s).mpr (by omega)
      obtain ⟨link, hlink⟩ := UnorderedMap.exists_lookup hmem
      rw [hlookup] at hlink
      cases hlink
    rw [hnone]
    exact h.absent s hnone t
  | some link =>
    obtain ⟨-, t', ht', hobject⟩ := h.linked s link hlookup
    rw [ht link hlookup, Option.some.injEq] at ht'
    rw [ht']
    exact hobject

/-- A link after the metadata of a store is an old one, or the new one of the store's segment. -/
theorem lookup_extended (hissued : IssuedStore conf id source destination)
    (hextends : Extends conf.maxObjSize (distribute conf draw source destination) links links')
    (hs : destination.position / conf.maxObjSize + 1 < 2 ^ 31) {s : Nat} {link : Data}
    (hlookup : links'.lookup (s : Int) = some link) :
    links.lookup (s : Int) = some link ∨
      s = destination.position / conf.maxObjSize ∧ link.id = objectId id (destination.position / conf.maxObjSize) := by
  rcases hextends.fresh _ _ hlookup with hold | ⟨d, hd, hkey, hlink⟩
  · exact .inl hold
  · rw [distribute_segment d hd, linkKey_of_lt (by omega)] at hkey
    rw [distribute_mem hd] at hlink
    refine .inr ⟨by exact_mod_cast hkey, ?_⟩
    rw [hlink, ← hissued.id_eq]
    rfl

/-- The objects of the segments after a store whose segment is in the backend `t`. -/
def storedIn (conf : ConfigurationManager) (t : IoClientType) (source destination : Data)
    (objects : Nat → Option (List UInt8)) : Nat → Option (List UInt8) :=
  Function.update objects (destination.position / conf.maxObjSize)
    (some (written t (objects (destination.position / conf.maxObjSize)) (destination.position % conf.maxObjSize)
      (sourceBytes source)))

/-- The write of the object of a store, after the metadata has the link of its segment. -/
theorem Spread.store_object (h : Spread conf id objects links w) (hissued : IssuedStore conf id source destination)
    (hpolicy : conf.dataDistributionPolicy ≠ .dynamicProgrammingPolicy)
    (hextends : Extends conf.maxObjSize (distribute conf draw source destination) links links')
    (hnext : destination.position / conf.maxObjSize ≤ links.entries.length)
    (hs : destination.position / conf.maxObjSize + 1 < 2 ^ 31) (hrecords : ∀ k, k ≠ metaId id → ∀ t', w₁ t' k = w t' k)
    {link : Data} {t : IoClientType} (hlink : links'.lookup ((destination.position / conf.maxObjSize : Nat) : Int) = some link)
    (ht : conf.backend link.storageIndex = some t)
    {d : DataDistribution} (hd : d.sourceData = source)
    (hid : d.destinationData.id = link.id)
    (hposition : d.destinationData.position = destination.position % conf.maxObjSize)
    (hindex : d.destinationData.storageIndex = link.storageIndex) :
    w t (objectId id (destination.position / conf.maxObjSize)) = objects (destination.position / conf.maxObjSize) ∧
      ∃ w', writeObjects conf Env.calm [d] w₁ = .ok () w' ∧
        Spread conf id (storedIn conf t source destination objects) links' w' := by
  have hfresh : ∀ {s' : Nat} {link'}, links'.lookup (s' : Int) = some link' → links.lookup (s' : Int) = some link' ∨
      s' = destination.position / conf.maxObjSize ∧ link'.id = objectId id (destination.position / conf.maxObjSize) :=
    lookup_extended hissued hextends hs
  unfold storedIn
  generalize hsegment : destination.position / conf.maxObjSize = s at *
  have hname : link.id = objectId id s := by
    rcases hfresh hlink with hold | ⟨-, hname⟩
    · exact (h.linked s link hold).1
    · exact hname
  have hid' : d.destinationData.id = objectId id s := hid.trans hname
  have hobject : w t (objectId id s) = objects s := by
    apply h.object_eq
    intro link' hlink'
    rw [hextends.keeps _ _ hlink', Option.some.injEq] at hlink
    rw [hlink]
    exact ht
  have hobject₁ : w₁ t (objectId id s) = objects s := (hrecords _ (objectId_ne_metaId _ _) t).trans hobject
  have hlength := sourceBytes_length hissued.size_le
  have hlt := Nat.mod_lt destination.position conf.maxObjSize_pos
  have hmax := conf.maxObjSize_lt
  have hinside := hissued.inside
  have hwrite : IoFactory.write conf Env.calm d.destinationData.storageIndex d.sourceData d.destinationData w₁ =
      .ok () (w₁.put t (objectId id s) (some (written t (objects s) (destination.position % conf.maxObjSize)
        (sourceBytes source)))) := by
    rw [IoFactory.write_eq (hindex ▸ ht) _ rfl, hd, write_written hissued.position_eq hissued.size_le t (by omega), hid',
      hposition, hobject₁]
  obtain ⟨horder, hcount⟩ := @Extends.inTurn conf ⟨draw, source, destination⟩ hpolicy _ _ hextends h.inOrder
    (hsegment.le.trans hnext) (by show destination.position / _ < _; omega)
  refine ⟨hobject, _, bind_ok hwrite, ?_⟩
  apply h.of_put hrecords horder (fun s' => ?_) hs hlink hname ht
  · intro s' link' hne hlookup
    exact (hfresh hlookup).resolve_right fun hsame => hne hsame.1
  · apply written_length_le
    · cases hv : objects s with
      | none => exact Nat.zero_le _
      | some v => exact h.short s v hv
    · omega
  · rw [hcount s']
    show _ ∨ s' = destination.position / conf.maxObjSize ↔ _
    rw [hsegment]

variable [Wire] {m : Metadata} {t₀ : IoClientType}

theorem target_found {link : Data} (hfound : lookupFile conf Env.calm destination w = .ok (some m) w)
    (hextends : Extends conf.maxObjSize (distribute conf draw source destination) m.links links')
    (hlink : links'.lookup (linkKey (destination.position / conf.maxObjSize)) = some link) :
    target conf draw destination w = conf.backend link.storageIndex := by
  rw [target, hfound]
  dsimp only
  cases hlookup : m.links.lookup (linkKey (destination.position / conf.maxObjSize)) with
  | none =>
    rcases hextends.fresh _ _ hlink with hold | ⟨d, hd, -, hfresh⟩
    · rw [hlookup] at hold
      cases hold
    · rw [hfresh, distribute_mem hd]
      rfl
  | some link' =>
    rw [hextends.keeps _ _ hlookup, Option.some.injEq] at hlink
    rw [hlink]

theorem target_new (hnew : lookupFile conf Env.calm destination w = .ok none w) :
    target conf draw destination w = conf.backend (selectedIndex conf draw destination) := by
  rw [target, hnew]

/-- A store into a file that is there. -/
theorem Spread.store (h : Spread conf id objects m.links w) (hfirst : conf.backend 0 = some t₀)
    (hfiled : Filed conf id w m t₀) (hpolicy : conf.dataDistributionPolicy ≠ .dynamicProgrammingPolicy)
    (hissued : IssuedStore conf id source destination)
    (hnext : destination.position / conf.maxObjSize ≤ m.links.entries.length)
    (hs : destination.position / conf.maxObjSize + 1 < 2 ^ 31) :
    ∃ t, target conf draw destination w = some t ∧
      w t (objectId id (destination.position / conf.maxObjSize)) = objects (destination.position / conf.maxObjSize) ∧
      ∃ m' w', Server.store conf Env.calm draw source destination w = .ok conf.serverCount w' ∧ Filed conf id w' m' t₀ ∧
        Spread conf id (storedIn conf t source destination objects) m'.links w' := by
  obtain rfl := hissued.id_eq
  have hextends : Extends conf.maxObjSize (distribute conf draw source destination) m.links
      (grownMetadata conf m (distribute conf draw source destination)).links := updateLinks_extends _ _ _
  have hprimary : primaryMetadata conf Env.calm destination w = .ok m w :=
    primaryMetadata_primary (hissued.index_eq ▸ hfirst) rfl hfiled.primary.portable hfiled.primary.isLink_eq
      hfiled.primary.holds
  obtain ⟨tls, htiles⟩ : ∃ tls, tiles conf m.links destination = some tls := tiles_isSome h.inOrder h.few
  have hfound := lookupFile_found hprimary htiles
  -- the one distribution, and the link it follows
  obtain ⟨d, hd, hsource, hposition, link, hlink, hid, hindex⟩ :=
    updateLinks_singleton conf.maxObjSize (sent conf draw source destination) m.links
  rw [← distribute_eq hpolicy] at hd hlink
  obtain ⟨-, -, -, t, ht⟩ := hextends.named hfiled.named distribute_named _ _ hlink
  have htarget := (target_found hfound hextends hlink).trans ht
  have hkey : linkKey (destination.position / conf.maxObjSize) = ((destination.position / conf.maxObjSize : Nat) : Int) :=
    linkKey_of_lt (by omega)
  rw [show (sent conf draw source destination).segment conf.maxObjSize = destination.position / conf.maxObjSize from rfl,
    hkey] at hlink
  have hrun := store_found hfound hfiled.index rfl (distribute conf draw source destination)
  have hrecords : ∀ k, k ≠ metaId destination.id → ∀ t', (if (updateLinks conf.maxObjSize
      (distribute conf draw source destination) m.links).2.2 then
        putRecord w t₀ destination.id (grownMetadata conf m (distribute conf draw source destination)) else w) t' k =
      w t' k := by
    intro k hk t'
    split
    · exact putRecord_of_key_ne _ _ _ _ hk
    · rfl
  obtain ⟨hobject, w', hobjects, hspread⟩ := h.store_object hissued hpolicy hextends hnext hs hrecords hlink ht hsource
    hid hposition hindex
  rw [← hd] at hobjects
  exact ⟨t, htarget, hobject, _, w', server_store_objects hrun hobjects, hfiled.of_grow hobjects, hspread⟩

/-- The store that creates the file. -/
theorem Spread.create (hunused : Unused id w) (hfirst : conf.backend 0 = some t₀) (hexcl : Exclusive conf 0)
    (hpolicy : conf.dataDistributionPolicy ≠ .dynamicProgrammingPolicy) (hissued : IssuedStore conf id source destination)
    (hzero : destination.position / conf.maxObjSize = 0) :
    ∃ t, target conf draw destination w = some t ∧ w t (objectId id (destination.position / conf.maxObjSize)) = none ∧
      ∃ m' w', Server.store conf Env.calm draw source destination w = .ok conf.serverCount w' ∧ Filed conf id w' m' t₀ ∧
        Spread conf id (storedIn conf t source destination fun _ => none) m'.links w' := by
  obtain rfl := hissued.id_eq
  have hindex : conf.backend destination.storageIndex = some t₀ := hissued.index_eq ▸ hfirst
  have hextends : Extends conf.maxObjSize (distribute conf draw source destination) ∅
      (newMetadata conf destination (distribute conf draw source destination)).links := createLinks_extends _ _ _
  have hnew := lookupFile_new hindex (hunused.1 t₀)
  obtain ⟨t, ht⟩ := selectedIndex_configured conf draw destination
  have htarget := (target_new hnew).trans ht
  have hlink : (newMetadata conf destination (distribute conf draw source destination)).links.lookup
      ((destination.position / conf.maxObjSize : Nat) : Int) =
        some (freshLink conf.maxObjSize (sent conf draw source destination)) := by
    rw [distribute_eq hpolicy, newMetadata_lookup, if_pos]
    exact (linkKey_of_lt (by omega)).symm
  have hrun := store_new hnew hindex (fun _ => rfl) (distribute conf draw source destination)
  obtain ⟨-, w', hobjects, hspread⟩ := (Spread.empty hunused.2).store_object hissued hpolicy hextends (by omega)
    (by omega) (fun k hk t' => created_of_key_ne w t' hk) hlink ht
    (d := { sent conf draw source destination with
      destinationData := placed conf.maxObjSize (sent conf draw source destination).destinationData })
    rfl rfl rfl rfl
  have hone : [{ sent conf draw source destination with
      destinationData := placed conf.maxObjSize (sent conf draw source destination).destinationData }] =
        (createLinks conf.maxObjSize (distribute conf draw source destination) ∅).1 := by
    rw [createLinks_fst, distribute_eq hpolicy]
    rfl
  rw [hone] at hobjects
  exact ⟨t, htarget, hunused.2 _ t, _, w', server_store_objects hrun hobjects,
    Filed.of_create hunused.1 hindex (hissued.index_eq ▸ hexcl) hobjects, hspread⟩

end stores

/-! ## Parts that keep the contract -/

section parts

variable {conf : ConfigurationManager} {w w' : Backends}

/-- A part asks for bytes its object does not have. -/
def PartExceeds (e : DataDistribution × List UInt8) : Prop :=
  Exceeds e.2.length e.1.sourceData.position e.1.sourceData.dataSize

instance : DecidablePred PartExceeds := fun _ => inferInstanceAs (Decidable (Exceeds _ _ _))

/-- The bytes a part asks for. -/
def partBytes (e : DataDistribution × List UInt8) : List UInt8 :=
  requested e.2 e.1.sourceData.position e.1.sourceData.dataSize

/-- The part has its object, and its client reads it as the contract says. -/
def KeptPart (conf : ConfigurationManager) (w : Backends) (e : DataDistribution × List UInt8) : Prop :=
  ∃ t, conf.backend e.1.destinationData.storageIndex = some t ∧ w t e.1.sourceData.id = some e.2 ∧
    ReadContract t e.2 e.1.sourceData e.1.destinationData w

theorem read_position (t : IoClientType) {source destination part : Data} {v : List UInt8} (hv : w t source.id = some v)
    (h : IoClient.read t source destination w = .ok part w') : part.position = destination.position := by
  cases t with
  | fileIo =>
    rw [fileRead_eq hv] at h
    split at h
    · cases h
    · split at h
      · cases h
      · split at h
        · cases h
          rfl
        · cases h
  | redisIo =>
    rw [redisRead_eq hv] at h
    split at h
    · cases h
    · split at h
      · cases h
        rfl
      · cases h
  | mongoIo =>
    rw [mongoRead_eq hv] at h
    split at h
    · cases h
      rfl
    · cases h

/-- What is read of a part whose bytes are there. -/
structure ReadPart (w : Backends) (e : DataDistribution × List UInt8) (part : Data) : Prop where
  size_eq : part.dataSize = e.1.destinationData.position + (partBytes e).length
  window_eq : Server.window part w = .ok (partBytes e) w

theorem KeptPart.read {e : DataDistribution × List UInt8} (h : KeptPart conf w e) :
    (PartExceeds e ∧ ∃ fault, IoFactory.read conf Env.calm e.1.destinationData.storageIndex e.1.sourceData
        e.1.destinationData w = .error fault w) ∨
      ¬ PartExceeds e ∧ ∃ part, IoFactory.read conf Env.calm e.1.destinationData.storageIndex e.1.sourceData
        e.1.destinationData w = .ok part w ∧ ReadPart w e part := by
  obtain ⟨t, ht, hv, hcontract⟩ := h
  rw [IoFactory.read_eq ht rfl]
  by_cases hexceeds : PartExceeds e
  · rw [ReadContract, if_pos (show Exceeds _ _ _ from hexceeds)] at hcontract
    obtain ⟨code, hraise⟩ := hcontract
    exact .inl ⟨hexceeds, _, hraise⟩
  · rw [ReadContract, if_neg (show ¬ Exceeds _ _ _ from hexceeds)] at hcontract
    obtain ⟨part, w₁, hread, hwindow⟩ := bind_eq_ok hcontract
    have hsame : w₁ = w := by
      have hfinal := read_readOnly t e.1.sourceData e.1.destinationData w
      rw [hread] at hfinal
      exact hfinal
    subst hsame
    refine .inr ⟨hexceeds, part, hread, ?_, hwindow⟩
    rw [window_eq] at hwindow
    split at hwindow
    · rename_i hsizes
      rw [← read_position t hv hread, partBytes, ← (Result.ok.inj hwindow).1, List.length_take, List.length_drop]
      omega
    · cases hwindow

/-- All parts are read, unless one asks for bytes that its object does not have. -/
theorem readParts {parts : List (DataDistribution × List UInt8)} (h : ∀ e ∈ parts, KeptPart conf w e) :
    ((∃ e ∈ parts, PartExceeds e) ∧ ∃ fault, (parts.map Prod.fst).mapM (fun d =>
        IoFactory.read conf Env.calm d.destinationData.storageIndex d.sourceData d.destinationData) w = .error fault w) ∨
      (¬ ∃ e ∈ parts, PartExceeds e) ∧ ∃ datas, (parts.map Prod.fst).mapM (fun d =>
        IoFactory.read conf Env.calm d.destinationData.storageIndex d.sourceData d.destinationData) w = .ok datas w ∧
        List.Forall₂ (ReadPart w) parts datas := by
  induction parts with
  | nil => exact .inr ⟨by simp, [], rfl, .nil⟩
  | cons e parts ih =>
    rw [List.map_cons, List.mapM_cons]
    rcases (h e (by simp)).read with ⟨hexceeds, fault, hraise⟩ | ⟨hfits, part, hread, hpart⟩
    · exact .inl ⟨⟨e, by simp, hexceeds⟩, fault, bind_error hraise⟩
    · rw [bind_ok hread]
      rcases ih fun e' he' => h e' (by simp [he']) with ⟨⟨e', he', hexceeds⟩, fault, hraise⟩ | ⟨hnone, datas, hrest, hdatas⟩
      · exact .inl ⟨⟨e', by simp [he'], hexceeds⟩, fault, bind_error hraise⟩
      · refine .inr ⟨?_, part :: datas, bind_ok hrest, .cons hpart hdatas⟩
        rintro ⟨e', he', hexceeds⟩
        rcases List.mem_cons.mp he' with rfl | he'
        · exact hfits hexceeds
        · exact hnone ⟨e', he', hexceeds⟩

theorem windows_of_read {parts : List (DataDistribution × List UInt8)} {datas : List Data}
    (h : List.Forall₂ (ReadPart w) parts datas) :
    datas.mapM Server.window w = .ok (parts.map partBytes) w ∧
      datas.map (·.dataSize) = parts.map fun e => e.1.destinationData.position + (partBytes e).length := by
  induction h with
  | nil => exact ⟨rfl, rfl⟩
  | cons hpart _ ih =>
    refine ⟨?_, by rw [List.map_cons, List.map_cons, hpart.size_eq, ih.2]⟩
    rw [List.mapM_cons, bind_ok hpart.window_eq, bind_ok ih.1]
    rfl

/-- The answer to a request whose parts keep the contract, as far as the parts and their objects determine it. -/
def answerOf (parts : List (DataDistribution × List UInt8)) (destination : Data) : Option Data :=
  if ∃ e ∈ parts, PartExceeds e then none
  else if ((parts.flatMap partBytes).length : Int) ≤
      Server.totalSize (parts.map fun e => e.1.destinationData.position + (partBytes e).length) then
    some { destination with buffer := some (parts.flatMap partBytes) }
  else none

theorem locate_answer [Wire] {parts : List (DataDistribution × List UInt8)} {source : Data} {m : Metadata}
    (hlocate : MetadataOrchestrator.locate conf Env.calm source w = .ok (parts.map Prod.fst, m) w)
    (hparts : ∀ e ∈ parts, KeptPart conf w e) (destination : Data) :
    (Server.locate conf Env.calm source destination w).outcome.toOption = answerOf parts destination := by
  rw [Server.locate, bind_ok hlocate, answerOf]
  rcases readParts hparts with ⟨hexceeds, fault, hraise⟩ | ⟨hnone, datas, hread, hdatas⟩
  · rw [bind_error hraise, if_pos hexceeds]
    rfl
  · obtain ⟨hwindows, hsizes⟩ := windows_of_read hdatas
    rw [bind_ok hread, bind_ok hwindows, if_neg hnone, hsizes, ← List.flatMap_def]
    split_ifs <;> rfl

/-- Two parts for the same bytes of equal objects. -/
structure SamePart (e e' : DataDistribution × List UInt8) : Prop where
  source_position : e.1.sourceData.position = e'.1.sourceData.position
  source_size : e.1.sourceData.dataSize = e'.1.sourceData.dataSize
  destination_position : e.1.destinationData.position = e'.1.destinationData.position
  object : e.2 = e'.2

theorem answerOf_eq {parts parts' : List (DataDistribution × List UInt8)} (h : List.Forall₂ SamePart parts parts')
    (destination : Data) : answerOf parts destination = answerOf parts' destination := by
  have hsame : ∀ {e e'}, SamePart e e' → (PartExceeds e ↔ PartExceeds e') ∧ partBytes e = partBytes e' := by
    intro e e' he
    simp only [PartExceeds, partBytes, he.source_position, he.source_size, he.object, and_self]
  have hall : ((∃ e ∈ parts, PartExceeds e) ↔ ∃ e ∈ parts', PartExceeds e) ∧
      parts.flatMap partBytes = parts'.flatMap partBytes ∧
      (parts.map fun e => e.1.destinationData.position + (partBytes e).length) =
        parts'.map fun e => e.1.destinationData.position + (partBytes e).length := by
    induction h with
    | nil => exact ⟨Iff.rfl, rfl, rfl⟩
    | cons he _ ih =>
      obtain ⟨hexceeds, hbytes⟩ := hsame he
      refine ⟨?_, ?_, ?_⟩
      · simp only [List.exists_mem_cons_iff, hexceeds, ih.1]
      · rw [List.flatMap_cons, List.flatMap_cons, hbytes, ih.2.1]
      · rw [List.map_cons, List.map_cons, hbytes, he.destination_position, ih.2.2]
  simp only [answerOf, hall.1, hall.2.1, hall.2.2]

end parts

/-! ## The cut of a request -/

section cut

variable {conf : ConfigurationManager} {R : Data → Data → Prop}

/-- Two distributions of the same bytes of two links. -/
def SameTile (maxObjSize : Nat) (R : Data → Data → Prop) (d d' : DataDistribution) : Prop :=
  ∃ link link' offset size position, R link link' ∧ offset < maxObjSize ∧ d = tileAt link offset size position ∧
    d' = tileAt link' offset size position

/-- Both cuts are undefined, or they are for the same bytes. -/
def SameCut (maxObjSize : Nat) (R : Data → Data → Prop) (a a' : Option (List DataDistribution)) : Prop :=
  a = none ∧ a' = none ∨ ∃ ds ds', a = some ds ∧ a' = some ds' ∧ List.Forall₂ (SameTile maxObjSize R) ds ds'

/-- The loop of `Locate` cuts without looking at the links. -/
theorem tile_same {maxObjSize : Nat} (hM : 0 < maxObjSize) (getAll : Bool) (endSegment : Nat) {rest rest' : List Data}
    (h : List.Forall₂ R rest rest') (i start sizeLeft : Nat) (position : Int) :
    SameCut maxObjSize R (tile maxObjSize getAll endSegment rest i start sizeLeft position)
      (tile maxObjSize getAll endSegment rest' i start sizeLeft position) := by
  induction h generalizing i start sizeLeft position with
  | nil => exact .inr ⟨[], [], rfl, rfl, .nil⟩
  | cons hlink _ ih =>
    rw [tile_cons, tile_cons]
    split_ifs
    · rcases ih _ _ _ _ with ⟨hnone, hnone'⟩ | ⟨ds, ds', hds, hds', hsame⟩
      · rw [hnone, hnone']
        exact .inl ⟨rfl, rfl⟩
      · rw [hds, hds']
        refine .inr ⟨_, _, rfl, rfl, .cons ⟨_, _, _, _, _, hlink, ?_, rfl, rfl⟩ hsame⟩
        rw [tileOffset]
        split_ifs
        · exact hM
        · exact Nat.mod_lt _ hM
    · exact .inl ⟨rfl, rfl⟩
    · exact .inr ⟨[], [], rfl, rfl, .nil⟩

/-- Neither does the rest of it. -/
theorem tiles_same {links links' : Links} (horder : InOrder links) (horder' : InOrder links')
    (hlength : links.entries.length = links'.entries.length)
    (hlinks : ∀ (s : Nat) link link', links.lookup (s : Int) = some link → links'.lookup (s : Int) = some link' →
      R link link') (request : Data) :
    SameCut conf.maxObjSize R (tiles conf links request) (tiles conf links' request) := by
  obtain ⟨array, harray⟩ := (linkArray_isSome_iff links).mpr horder
  obtain ⟨array', harray'⟩ := (linkArray_isSome_iff links').mpr horder'
  have hsize : array.length = array'.length := by
    rw [linkArray_length harray, linkArray_length harray', hlength]
  have hall : List.Forall₂ R array array' := by
    rw [List.forall₂_iff_get]
    refine ⟨hsize, fun s hs hs' => hlinks s _ _ ?_ ?_⟩
    · rw [← linkArray_get harray, List.getElem?_eq_getElem hs]
      rfl
    · rw [← linkArray_get harray', List.getElem?_eq_getElem hs']
      rfl
  rw [tiles, tiles, harray, harray', Option.bind_eq_bind, Option.bind_some, Option.bind_some]
  dsimp only
  rw [hsize]
  split_ifs
  · exact .inl ⟨rfl, rfl⟩
  · exact .inr ⟨[], [], rfl, rfl, .nil⟩
  · exact tile_same conf.maxObjSize_pos _ _ (List.forall₂_drop _ hall) _ _ _ _

end cut

/-! ## Two runs -/

section runs

variable {conf : ConfigurationManager} {id : CharStruct} {objects : Nat → Option (List UInt8)} {w w' : Backends}

/-- The object of a link. -/
def HasObject (conf : ConfigurationManager) (w : Backends) (link : Data) (v : List UInt8) : Prop :=
  ∃ t, conf.backend link.storageIndex = some t ∧ w t link.id = some v

/-- The links lead to equal objects, in one state and in the other. -/
def SameObject (conf : ConfigurationManager) (w w' : Backends) (link link' : Data) : Prop :=
  ∃ v, v.length ≤ conf.maxObjSize ∧ HasObject conf w link v ∧ HasObject conf w' link' v

theorem HasObject.keptPart {link : Data} {v : List UInt8} {offset size : Nat} {position : Int}
    (h : HasObject conf w link v) (hv : v.length ≤ conf.maxObjSize) (hoffset : offset < conf.maxObjSize)
    {ds : List DataDistribution} (hall : AllKept conf w ds) (hmem : tileAt link offset size position ∈ ds) :
    KeptPart conf w (tileAt link offset size position, v) := by
  obtain ⟨t, ht, hobject⟩ := h
  have hmax := conf.maxObjSize_lt
  refine ⟨t, ht, hobject, readContract_of_keeps t (show v.length < 2 ^ 63 by omega) ?_ hobject (hall _ hmem t ht v hobject)⟩
  show offset < 2 ^ 64
  omega

/-- Equal cuts of equal objects have equal parts. -/
theorem parts_of_same {ds ds' all all' : List DataDistribution}
    (h : List.Forall₂ (SameTile conf.maxObjSize (SameObject conf w w')) ds ds') (hall : AllKept conf w all)
    (hall' : AllKept conf w' all') (hsub : ds ⊆ all) (hsub' : ds' ⊆ all') :
    ∃ parts parts', parts.map Prod.fst = ds ∧ parts'.map Prod.fst = ds' ∧ List.Forall₂ SamePart parts parts' ∧
      (∀ e ∈ parts, KeptPart conf w e) ∧ ∀ e ∈ parts', KeptPart conf w' e := by
  induction h with
  | nil => exact ⟨[], [], rfl, rfl, .nil, by simp, by simp⟩
  | cons htile _ ih =>
    obtain ⟨link, link', offset, size, position, ⟨v, hv, hobject, hobject'⟩, hoffset, rfl, rfl⟩ := htile
    rw [List.cons_subset] at hsub hsub'
    obtain ⟨parts, parts', rfl, rfl, hsame, hkept, hkept'⟩ := ih hsub.2 hsub'.2
    refine ⟨(_, v) :: parts, (_, v) :: parts', rfl, rfl, .cons ⟨rfl, rfl, rfl, rfl⟩ hsame, ?_, ?_⟩
    · exact List.forall_mem_cons.mpr ⟨hobject.keptPart hv hoffset hall hsub.1, hkept⟩
    · exact List.forall_mem_cons.mpr ⟨hobject'.keptPart hv hoffset hall' hsub'.1, hkept'⟩

/-- Links to one set of objects lead to equal objects. -/
theorem Spread.sameObject {links links' : Links} (h : Spread conf id objects links w)
    (h' : Spread conf id objects links' w') {s : Nat} {link link' : Data} (hlink : links.lookup (s : Int) = some link)
    (hlink' : links'.lookup (s : Int) = some link') : SameObject conf w w' link link' := by
  obtain ⟨hid, t, ht, hobject⟩ := h.linked s link hlink
  obtain ⟨hid', t', ht', hobject'⟩ := h'.linked s link' hlink'
  have hmem : (s : Int) ∈ links := AList.lookup_isSome.mp (by rw [hlink]; rfl)
  obtain ⟨v, hv⟩ := Option.isSome_iff_exists.mp ((h.present s).mpr (by have := (h.inOrder s).mp hmem; omega))
  exact ⟨v, h.short s v hv, ⟨t, ht, by rw [hid, hobject, hv]⟩, ⟨t', ht', by rw [hid', hobject', hv]⟩⟩

variable [Wire]

/-- `Locate` gives the same answer over the same objects. -/
theorem Spread.locate_same {m m' : Metadata} {t₀ : IoClientType} (h : Spread conf id objects m.links w)
    (h' : Spread conf id objects m'.links w') (hfirst : conf.backend 0 = some t₀) (hfiled : Filed conf id w m t₀)
    (hfiled' : Filed conf id w' m' t₀) {source : Data} (hid : source.id = id) (hindex : source.storageIndex = 0)
    (destination : Data) {draw draw' : Nat} (hbranch : TakesCommonBranch conf draw (.locate source destination) w)
    (hbranch' : TakesCommonBranch conf draw' (.locate source destination) w') :
    (Server.locate conf Env.calm source destination w).outcome.toOption =
      (Server.locate conf Env.calm source destination w').outcome.toOption := by
  obtain rfl := hid
  have hprimary : primaryMetadata conf Env.calm source w = .ok m w :=
    primaryMetadata_primary (hindex ▸ hfirst) rfl hfiled.primary.portable hfiled.primary.isLink_eq hfiled.primary.holds
  have hprimary' : primaryMetadata conf Env.calm source w' = .ok m' w' :=
    primaryMetadata_primary (hindex ▸ hfirst) rfl hfiled'.primary.portable hfiled'.primary.isLink_eq
      hfiled'.primary.holds
  have hlength : m.links.entries.length = m'.links.entries.length := by
    have hsame : ∀ s, s < m.links.entries.length ↔ s < m'.links.entries.length := fun s =>
      (h.present s).symm.trans (h'.present s)
    have hle := hsame m.links.entries.length
    have hge := hsame m'.links.entries.length
    omega
  have hcut : SameCut conf.maxObjSize (SameObject conf w w') (tiles conf m.links source) (tiles conf m'.links source) :=
    tiles_same h.inOrder h'.inOrder hlength (fun s link link' hlink hlink' => h.sameObject h' hlink hlink') source
  rcases hcut with ⟨hnone, hnone'⟩ | ⟨ds, ds', hds, hds', hsame⟩
  · have hraise : Server.locate conf Env.calm source destination w = .error .undefined w :=
      bind_error (locate_broken hprimary hnone)
    have hraise' : Server.locate conf Env.calm source destination w' = .error .undefined w' :=
      bind_error (locate_broken hprimary' hnone')
    rw [hraise, hraise']
    rfl
  · have hlocate := locate_ok hprimary hds
    have hlocate' := locate_ok hprimary' hds'
    obtain ⟨parts, parts', rfl, rfl, hparts, hkept, hkept'⟩ :=
      parts_of_same hsame (hbranch m (by rw [hprimary]; rfl) _ hds) (hbranch' m' (by rw [hprimary']; rfl) _ hds')
        (List.Subset.refl _) (List.Subset.refl _)
    rw [locate_answer hlocate hkept, locate_answer hlocate' hkept', answerOf_eq hparts]

theorem server_locate_readOnly (source destination : Data) :
    ReadOnly (Server.locate conf Env.calm source destination) := by
  have hlocate : ReadOnly (MetadataOrchestrator.locate conf Env.calm source) := by
    refine (primaryMetadata_readOnly source).bind fun m => ?_
    split
    · exact ReadOnly.pure _
    · exact ReadOnly.raise _
  have hwindow : ∀ part, ReadOnly (Server.window part) := by
    intro part
    unfold Server.window
    split
    · exact ReadOnly.raise _
    · exact slice_readOnly _ _ _
  refine hlocate.bind fun r => ?_
  refine (ReadOnly.mapM (fun d => IoFactory.read_readOnly _ _ _) r.1).bind fun parts => ?_
  refine (ReadOnly.mapM hwindow parts).bind fun windows => ?_
  split
  · exact ReadOnly.pure _
  · exact ReadOnly.raise _

/-- The state that a run has reached: nothing of the file, or the file with its objects. -/
def Reached (conf : ConfigurationManager) (id : CharStruct) (objects : Nat → Option (List UInt8)) (w : Backends) : Prop :=
  Unused id w ∧ objects = (fun _ => none) ∨
    ∃ m t₀, conf.backend 0 = some t₀ ∧ Filed conf id w m t₀ ∧ Spread conf id objects m.links w ∧
      ∃ s, (objects s).isSome

theorem serve_store_final {source destination : Data} {draw count : Nat} {w' : Backends}
    (h : Server.store conf Env.calm draw source destination w = .ok count w') :
    (FileRequest.serve conf draw (.store source destination) w).final = w' := by
  have hok : FileRequest.serve conf draw (.store source destination) w = .ok none w' := bind_ok (bind_ok h)
  rw [hok]
  rfl

theorem serve_locate_final (draw : Nat) (source destination : Data) (w : Backends) :
    (FileRequest.serve conf draw (.locate source destination) w).final = w :=
  (server_locate_readOnly source destination).bind (fun _ => ReadOnly.pure _) _

theorem Reached.store {source destination : Data} {draw : Nat} (hexcl : Exclusive conf 0)
    (hpolicy : conf.dataDistributionPolicy ≠ .dynamicProgrammingPolicy) (h : Reached conf id objects w)
    (hissued : IssuedStore conf id source destination)
    (horder : ∀ s < destination.position / conf.maxObjSize, (objects s).isSome)
    (hs : destination.position / conf.maxObjSize + 1 < 2 ^ 31) :
    ∃ t, target conf draw destination w = some t ∧
      w t (objectId id (destination.position / conf.maxObjSize)) = objects (destination.position / conf.maxObjSize) ∧
      Reached conf id (storedIn conf t source destination objects)
        (FileRequest.serve conf draw (.store source destination) w).final := by
  have hsome : ∀ t, ∃ s, (storedIn conf t source destination objects s).isSome := by
    intro t
    refine ⟨destination.position / conf.maxObjSize, ?_⟩
    rw [storedIn, Function.update_self]
    rfl
  rcases h with ⟨hunused, rfl⟩ | ⟨m, t₀, hfirst, hfiled, hspread, -⟩
  · obtain ⟨t₀, hfirst⟩ := (configured_iff conf 0).mpr conf.solutions_pos
    have hzero : destination.position / conf.maxObjSize = 0 := by
      by_contra hne
      exact absurd (horder 0 (Nat.pos_of_ne_zero hne)) (by simp)
    obtain ⟨t, htarget, hobject, m', w', hrun, hfiled', hspread'⟩ :=
      Spread.create hunused hfirst hexcl hpolicy hissued hzero
    refine ⟨t, htarget, hobject, ?_⟩
    rw [serve_store_final hrun]
    exact .inr ⟨m', t₀, hfirst, hfiled', hspread', hsome t⟩
  · have hnext : destination.position / conf.maxObjSize ≤ m.links.entries.length := by
      by_contra hgt
      exact absurd ((hspread.present _).mp (horder m.links.entries.length (by omega))) (lt_irrefl _)
    obtain ⟨t, htarget, hobject, m', w', hrun, hfiled', hspread'⟩ :=
      hspread.store hfirst hfiled hpolicy hissued hnext hs
    refine ⟨t, htarget, hobject, ?_⟩
    rw [serve_store_final hrun]
    exact .inr ⟨m', t₀, hfirst, hfiled', hspread', hsome t⟩

/-- A store on a common branch leaves what the file client would leave. -/
theorem storedIn_applied {source destination : Data} {draw : Nat} {t : IoClientType}
    (hissued : IssuedStore conf id source destination) (ht : target conf draw destination w = some t)
    (hobject : w t (objectId id (destination.position / conf.maxObjSize)) =
      objects (destination.position / conf.maxObjSize))
    (hbranch : TakesCommonBranch conf draw (.store source destination) w) :
    storedIn conf t source destination objects = FileRequest.applied conf objects (.store source destination) := by
  have halike := hbranch.2 t ht
  rw [hissued.id_eq, hobject, ← sourceBytes_length hissued.size_le] at halike
  rw [storedIn, FileRequest.applied, written_alike halike]

/-- The objects of the segments after a sequence of requests. -/
def storedObjects (conf : ConfigurationManager) (requests : List FileRequest) : Nat → Option (List UInt8) :=
  requests.foldl (FileRequest.applied conf) fun _ => none

omit [Wire] in
theorem storedObjects_concat (requests : List FileRequest) (request : FileRequest) :
    storedObjects conf (requests ++ [request]) = request.applied conf (storedObjects conf requests) :=
  List.foldl_concat ..

omit [Wire] in
theorem storedObjects_isSome (requests : List FileRequest) (s : Nat) :
    (storedObjects conf requests s).isSome ↔ ∃ request ∈ requests, request.touched conf = some s := by
  induction requests using List.reverseRecOn with
  | nil => simp [storedObjects]
  | append_singleton requests request ih =>
    have hsplit : (∃ r ∈ requests ++ [request], r.touched conf = some s) ↔
        (storedObjects conf requests s).isSome ∨ request.touched conf = some s := by
      rw [ih]
      simp [or_and_right, exists_or]
    rw [hsplit, storedObjects_concat]
    cases request with
    | store source destination =>
      rw [FileRequest.applied, FileRequest.touched, Option.some.injEq, Function.update_apply]
      by_cases hs : s = destination.position / conf.maxObjSize
      · simp [hs]
      · simp [hs, Ne.symm hs]
    | locate source destination =>
      rw [FileRequest.applied, FileRequest.touched]
      simp

/-- The requests along a run take no branch on which the clients differ. -/
def CommonAlong (conf : ConfigurationManager) (draws : Nat → Nat) (requests : List FileRequest) (w : Backends) : Prop :=
  ∀ before request after, requests = before ++ request :: after →
    TakesCommonBranch conf (draws before.length) request (served conf draws before w)

/-- A run keeps the objects of the file. -/
theorem served_reached {draws : Nat → Nat} {requests : List FileRequest} (hexcl : Exclusive conf 0)
    (hpolicy : conf.dataDistributionPolicy ≠ .dynamicProgrammingPolicy) (hunused : Unused id w)
    (hissued : ∀ request ∈ requests, request.Issued conf id) (horder : SegmentsInOrder conf requests)
    (hcommon : CommonAlong conf draws requests w) :
    Reached conf id (storedObjects conf requests) (served conf draws requests w) := by
  induction requests using List.reverseRecOn with
  | nil => exact .inl ⟨hunused, rfl⟩
  | append_singleton requests request ih =>
    have hreached := ih (fun r hr => hissued r (by simp [hr]))
      (fun before r after h => horder before r (after ++ [request]) (by simp [h]))
      (fun before r after h => hcommon before r (after ++ [request]) (by simp [h]))
    have hbranch := hcommon requests request [] rfl
    have hlast := hissued request (by simp)
    rw [storedObjects_concat, served_concat]
    cases request with
    | store source destination =>
      obtain ⟨t, ht, hobject, hstored⟩ := hreached.store hexcl hpolicy hlast
        (fun s hs => (storedObjects_isSome requests s).mpr (horder requests _ [] rfl _ rfl s hs)) hbranch.1
      rw [storedIn_applied hlast ht hobject hbranch] at hstored
      exact hstored
    | locate source destination =>
      rw [serve_locate_final]
      exact hreached

/-- An engine that distributes nothing has no choice. -/
theorem served_dynamic (hpolicy : conf.dataDistributionPolicy = .dynamicProgrammingPolicy) (draws draws' : Nat → Nat)
    (requests : List FileRequest) (w : Backends) : served conf draws requests w = served conf draws' requests w := by
  have hserve : ∀ draw draw' (request : FileRequest), request.serve conf draw = request.serve conf draw' := by
    intro draw draw' request
    cases request with
    | store source destination =>
      simp only [FileRequest.serve, Server.store, distribute, if_pos hpolicy]
    | locate source destination => rfl
  unfold served
  congr 1
  funext w e
  rw [hserve (draws e.2) (draws' e.2)]

/-- Two runs over the same requests answer alike, wherever the segments were placed. -/
theorem placement_transparent (hconf : (conf.storageSolutions.map Prod.snd).Perm [.fileIo, .redisIo, .mongoIo])
    (hunused : Unused id w) {requests : List FileRequest} (hissued : ∀ request ∈ requests, request.Issued conf id)
    (horder : SegmentsInOrder conf requests) {draws draws' : Nat → Nat} (hcommon : CommonAlong conf draws requests w)
    (hcommon' : CommonAlong conf draws' requests w) :
    ∀ before source destination after, requests = before ++ .locate source destination :: after →
      (Server.locate conf Env.calm source destination (served conf draws before w)).outcome.toOption =
        (Server.locate conf Env.calm source destination (served conf draws' before w)).outcome.toOption := by
  intro before source destination after hrequests
  by_cases hpolicy : conf.dataDistributionPolicy = .dynamicProgrammingPolicy
  · rw [served_dynamic hpolicy draws draws']
  have hexcl : Exclusive conf 0 := exclusive_of_nodup (hconf.nodup_iff.mpr (by decide)) 0
  have hprefix : ∀ {draws}, CommonAlong conf draws requests w →
      Reached conf id (storedObjects conf before) (served conf draws before w) := by
    intro draws hcommon
    apply served_reached hexcl hpolicy hunused (fun r hr => hissued r (by simp [hrequests, hr]))
    · exact fun b r a h => horder b r (a ++ .locate source destination :: after) (by simp [hrequests, h])
    · exact fun b r a h => hcommon b r (a ++ .locate source destination :: after) (by simp [hrequests, h])
  obtain ⟨hid, hindex, -⟩ : (FileRequest.locate source destination).Issued conf id := hissued _ (by simp [hrequests])
  rcases hprefix hcommon with ⟨hnone, hempty⟩ | ⟨m, t₀, hfirst, hfiled, hspread, s, hs⟩
  · rcases hprefix hcommon' with ⟨hnone', -⟩ | ⟨-, -, -, -, -, s, hs⟩
    · -- neither run has a record of the file
      obtain ⟨t, ht⟩ := (configured_iff conf 0).mpr conf.solutions_pos
      rw [← hindex] at ht
      have hraise : ∀ {w'}, NoRecord id w' →
          (Server.locate conf Env.calm source destination w').outcome.toOption = none := by
        intro w' hw'
        have hlocate : Server.locate conf Env.calm source destination w' = .error (.error (absentError t)) w' :=
          bind_error (bind_error (primaryMetadata_absent ht rfl (hid ▸ hw' t)))
        rw [hlocate]
        rfl
      rw [hraise hnone.1, hraise hnone'.1]
    · rw [hempty] at hs
      cases hs
  · rcases hprefix hcommon' with ⟨-, hempty⟩ | ⟨m', t₁, hfirst', hfiled', hspread', -⟩
    · rw [hempty] at hs
      cases hs
    · -- both records are on the backend of index 0
      obtain rfl : t₀ = t₁ := Option.some.inj (hfirst.symm.trans hfirst')
      exact hspread.locate_same hspread' hfirst hfiled hfiled' hid hindex destination (hcommon _ _ _ hrequests)
        (hcommon' _ _ _ hrequests)

end runs

/-! ## A file, a Redis and a MongoDB -/

/-- One backend of each type. -/
def threeBackends : ConfigurationManager :=
  .config 4 [.fileIo, .redisIo, .mongoIo] .randomPolicy fourBytes (by decide)

theorem threeBackends_types : (threeBackends.storageSolutions.map Prod.snd).Perm [.fileIo, .redisIo, .mongoIo] :=
  .refl _

theorem noObjects_unused (id : CharStruct) : Unused id fun _ _ => none := ⟨fun _ => rfl, fun _ _ => rfl⟩

/-- A range of the file `f`. -/
def rangeOf (position dataSize : Nat) : Data := { id := [0x66], position, dataSize }

/-- A store into the file `f`. -/
def storeAt (position : Nat) (bytes : List UInt8) : FileRequest :=
  .store { buffer := some bytes, dataSize := bytes.length } (rangeOf position bytes.length)

theorem storeAt_issued {position : Nat} {bytes : List UInt8} (h : position % 4 + bytes.length ≤ 4) :
    (storeAt position bytes).Issued threeBackends [0x66] :=
  ⟨rfl, rfl, rfl, rfl, le_rfl, h⟩

/-- Three bytes and one of them again. -/
def storedAndPatched : List FileRequest := [storeAt 0 [1, 2, 3], storeAt 1 [9]]

/-- The stores and a request for all three bytes. -/
def storesAndLocate : List FileRequest := storedAndPatched ++ [.locate (rangeOf 0 3) { dataSize := 3 }]

theorem storesAndLocate_common {draw : Nat} (h : draw < 3) :
    CommonAlong threeBackends (fun _ => draw) storesAndLocate fun _ _ => none := by
  intro before request after hsplit
  match before, hsplit with
  | [], hsplit =>
    cases hsplit
    interval_cases draw <;> decide +kernel
  | [_], hsplit =>
    cases hsplit
    interval_cases draw <;> decide +kernel
  | [_, _], hsplit =>
    cases hsplit
    interval_cases draw <;> decide +kernel
  | _ :: _ :: _ :: _, hsplit => simp [storesAndLocate, storedAndPatched] at hsplit

theorem storesAndLocate_transparent :
    (Server.locate threeBackends Env.calm (rangeOf 0 3) { dataSize := 3 }
        (served threeBackends (fun _ => 0) storedAndPatched fun _ _ => none)).outcome.toOption =
      (Server.locate threeBackends Env.calm (rangeOf 0 3) { dataSize := 3 }
        (served threeBackends (fun _ => 1) storedAndPatched fun _ _ => none)).outcome.toOption := by
  have hissued : ∀ request ∈ storesAndLocate, request.Issued threeBackends [0x66] := by
    intro request hrequest
    simp only [storesAndLocate, storedAndPatched, List.cons_append, List.nil_append, List.mem_cons, List.not_mem_nil,
      or_false] at hrequest
    rcases hrequest with rfl | rfl | rfl
    · exact storeAt_issued (by decide)
    · exact storeAt_issued (by decide)
    · exact ⟨rfl, rfl, rfl⟩
  have horder : SegmentsInOrder threeBackends storesAndLocate := segmentsInOrder_of_first (by decide)
  exact placement_transparent threeBackends_types (noObjects_unused _) hissued horder
    (storesAndLocate_common (by decide)) (storesAndLocate_common (by decide)) storedAndPatched _ _ [] rfl

/-- A byte that is not the first of its segment is found in the file system, not in Redis. -/
theorem placement_observed :
    (storeAt 1 [7]).Issued threeBackends [0x66] ∧
      (FileRequest.locate (rangeOf 1 1) { dataSize := 1 }).Issued threeBackends [0x66] ∧
      SegmentsInOrder threeBackends [storeAt 1 [7], .locate (rangeOf 1 1) { dataSize := 1 }] ∧
      (Server.locate threeBackends Env.calm (rangeOf 1 1) { dataSize := 1 }
        (served threeBackends (fun _ => 0) [storeAt 1 [7]] fun _ _ => none)).outcome.toOption =
          some { buffer := some [7], dataSize := 1 } ∧
      (Server.locate threeBackends Env.calm (rangeOf 1 1) { dataSize := 1 }
        (served threeBackends (fun _ => 1) [storeAt 1 [7]] fun _ _ => none)).outcome.toOption =
          some { buffer := some [0], dataSize := 1 } := by
  exact ⟨storeAt_issued (by decide), ⟨rfl, rfl, rfl⟩, segmentsInOrder_of_first (by decide), by decide +kernel,
    by decide +kernel⟩

end Symbios
