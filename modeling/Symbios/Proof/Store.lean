import Symbios.Proof.Links

/-!
# Runs of the orchestrator

`lookupFile` and `Store` of the orchestrator in closed form. A store of a file that is found writes the record
at most once (`store_found`); a store of one that is not writes the primary record and then the links
(`store_new`).
-/

namespace Symbios

open EStateM MetadataOrchestrator

variable [Wire] {conf : ConfigurationManager} {env : Env} {request : Data} {w : Backends}

/-! ## The existence check -/

theorem locate_ok {m : Metadata} {ds : List DataDistribution} (h : primaryMetadata conf env request w = .ok m w)
    (htiles : tiles conf m.links request = some ds) :
    MetadataOrchestrator.locate conf env request w = .ok (ds, m) w := by
  rw [MetadataOrchestrator.locate, bind_ok h, htiles]
  rfl

theorem locate_broken {m : Metadata} (h : primaryMetadata conf env request w = .ok m w)
    (htiles : tiles conf m.links request = none) :
    MetadataOrchestrator.locate conf env request w = .error .undefined w := by
  rw [MetadataOrchestrator.locate, bind_ok h, htiles]
  rfl

theorem locate_error {fault : Fault} (h : primaryMetadata conf env request w = .error fault w) :
    MetadataOrchestrator.locate conf env request w = .error fault w :=
  bind_error h

/-- The three ways `Locate` can go. -/
theorem locate_cases (conf : ConfigurationManager) (env : Env) (request : Data) (w : Backends) :
    (∃ m ds, primaryMetadata conf env request w = .ok m w ∧ tiles conf m.links request = some ds ∧
      MetadataOrchestrator.locate conf env request w = .ok (ds, m) w) ∨
    (∃ m, primaryMetadata conf env request w = .ok m w ∧ tiles conf m.links request = none ∧
      MetadataOrchestrator.locate conf env request w = .error .undefined w) ∨
    ∃ fault, primaryMetadata conf env request w = .error fault w ∧
      MetadataOrchestrator.locate conf env request w = .error fault w := by
  rcases (primaryMetadata_readOnly request).run_cases w with ⟨m, hm⟩ | ⟨fault, hfault⟩
  · cases htiles : tiles conf m.links request with
    | some ds => exact Or.inl ⟨m, ds, hm, htiles, locate_ok hm htiles⟩
    | none => exact Or.inr (Or.inl ⟨m, hm, htiles, locate_broken hm htiles⟩)
  · exact Or.inr (Or.inr ⟨fault, hfault, locate_error hfault⟩)

theorem tiles_of_locate {m : Metadata} {ds : List DataDistribution} {w' : Backends}
    (h : MetadataOrchestrator.locate conf env request w = .ok (ds, m) w') : tiles conf m.links request = some ds := by
  rcases locate_cases conf env request w with ⟨_, _, -, htiles, hlocate⟩ | ⟨_, -, -, hlocate⟩ | ⟨_, -, hlocate⟩
  · rw [hlocate] at h
    cases h
    exact htiles
  · rw [hlocate] at h
    cases h
  · rw [hlocate] at h
    cases h

theorem lookupFile_found {m : Metadata} {ds : List DataDistribution}
    (h : primaryMetadata conf env request w = .ok m w) (htiles : tiles conf m.links request = some ds) :
    lookupFile conf env request w = .ok (some m) w :=
  attempt_ok (bind_ok (locate_ok h htiles))

theorem lookupFile_absent {code : ErrorCode} (h : primaryMetadata conf env request w = .error (.error code) w) :
    lookupFile conf env request w = .ok none w :=
  attempt_error (bind_error (locate_error h))

theorem lookupFile_broken {m : Metadata} (h : primaryMetadata conf env request w = .ok m w)
    (htiles : tiles conf m.links request = none) :
    lookupFile conf env request w = .error .undefined w :=
  attempt_error (bind_error (locate_broken h htiles))

theorem lookupFile_unpack (h : primaryMetadata conf env request w = .error .unpack w) :
    lookupFile conf env request w = .error .unpack w :=
  attempt_error (bind_error (locate_error h))

theorem lookupFile_undefined (h : primaryMetadata conf env request w = .error .undefined w) :
    lookupFile conf env request w = .error .undefined w :=
  attempt_error (bind_error (locate_error h))

/-- The ways the existence check can go. -/
theorem lookupFile_cases (conf : ConfigurationManager) (env : Env) (request : Data) (w : Backends) :
    (∃ m ds, primaryMetadata conf env request w = .ok m w ∧ tiles conf m.links request = some ds ∧
      lookupFile conf env request w = .ok (some m) w) ∨
    (∃ code, primaryMetadata conf env request w = .error (.error code) w ∧
      lookupFile conf env request w = .ok none w) ∨
    (primaryMetadata conf env request w = .error .unpack w ∧ lookupFile conf env request w = .error .unpack w) ∨
    lookupFile conf env request w = .error .undefined w := by
  rcases locate_cases conf env request w with ⟨m, ds, hm, htiles, -⟩ | ⟨m, hm, htiles, -⟩ | ⟨fault, hfault, -⟩
  · exact Or.inl ⟨m, ds, hm, htiles, lookupFile_found hm htiles⟩
  · exact Or.inr (Or.inr (Or.inr (lookupFile_broken hm htiles)))
  · cases fault with
    | error code => exact Or.inr (Or.inl ⟨code, hfault, lookupFile_absent hfault⟩)
    | unpack => exact Or.inr (Or.inr (Or.inl ⟨hfault, lookupFile_unpack hfault⟩))
    | undefined => exact Or.inr (Or.inr (Or.inr (lookupFile_undefined hfault)))

/-! ## Store -/

/-- The primary metadata of a file that `request` creates. -/
def newMetadata (conf : ConfigurationManager) (request : Data) (ds : List DataDistribution) : Metadata :=
  { isLink := false, links := (createLinks conf.maxObjSize ds ∅).2, storageIndex := request.storageIndex }

/-- The primary metadata after a store into an existing file. -/
def grownMetadata (conf : ConfigurationManager) (m : Metadata) (ds : List DataDistribution) : Metadata :=
  { m with links := (updateLinks conf.maxObjSize ds m.links).2.1 }

omit [Wire] in
theorem newMetadata_portable (conf : ConfigurationManager) (request : Data) (ds : List DataDistribution) :
    (newMetadata conf request ds).Portable := by
  have hextends : Extends conf.maxObjSize ds ({} : Metadata).links (newMetadata conf request ds).links :=
    createLinks_extends _ _ _
  exact hextends.portable (fun e he => absurd he (List.not_mem_nil))

omit [Wire] in
theorem grownMetadata_portable {m : Metadata} (hm : m.Portable) (conf : ConfigurationManager)
    (ds : List DataDistribution) : (grownMetadata conf m ds).Portable :=
  Extends.portable (updateLinks_extends conf.maxObjSize ds m.links) hm

/-- The backends after a file was created. -/
def created (conf : ConfigurationManager) (id : CharStruct) (t : IoClientType) (m : Metadata) (w : Backends) : Backends :=
  spread id (linkMetadata id m) m.storageIndex conf.storageSolutions (putRecord w t id m)

theorem store_found {m : Metadata} {t : IoClientType} (hfound : lookupFile conf env request w = .ok (some m) w)
    (ht : conf.backend m.storageIndex = some t) (hcalm : env.writeFault m.storageIndex (metaId request.id) = none)
    (ds : List DataDistribution) :
    MetadataOrchestrator.store conf env request ds w =
      .ok (updateLinks conf.maxObjSize ds m.links).1
        (if (updateLinks conf.maxObjSize ds m.links).2.2 then putRecord w t request.id (grownMetadata conf m ds)
          else w) := by
  rw [MetadataOrchestrator.store, bind_ok hfound]
  dsimp only
  by_cases hflag : (updateLinks conf.maxObjSize ds m.links).2.2 = true
  · rw [if_pos hflag, if_pos hflag]
    have hwrite := recordData_write t request.id (grownMetadata conf m ds) m.storageIndex w
    rw [← IoFactory.write_eq ht _ hcalm] at hwrite
    exact bind_ok hwrite
  · rw [if_neg hflag, if_neg hflag]
    rfl

theorem forM_links (hcalm : ∀ i, env.writeFault i (metaId request.id) = none) (link : Metadata) (i : Nat)
    (l : List (Nat × IoClientType)) (hl : ∀ s ∈ l, conf.backend s.1 = some s.2) (w : Backends) :
    l.forM (fun solution =>
      if solution.1 = i then pure ()
      else
        IoFactory.write conf env (recordData request.id link solution.1).storageIndex
          (recordData request.id link solution.1) (recordData request.id link solution.1)) w =
      .ok () (spread request.id link i l w) := by
  induction l generalizing w with
  | nil => rfl
  | cons s l ih =>
    have hl' : ∀ s' ∈ l, conf.backend s'.1 = some s'.2 := fun s' hs' => hl s' (by simp [hs'])
    rw [EStateM.forM_cons]
    by_cases hs : s.1 = i
    · rw [if_pos hs]
      have hrest := ih hl' w
      rw [show spread request.id link i (s :: l) w = spread request.id link i l w by
        simp only [spread, List.foldl_cons, if_pos hs]]
      exact hrest
    · rw [if_neg hs]
      have hwrite := recordData_write s.2 request.id link s.1 w
      rw [← IoFactory.write_eq (hl s (by simp)) _ (hcalm _)] at hwrite
      rw [show spread request.id link i (s :: l) w = spread request.id link i l (putRecord w s.2 request.id link) by
        simp only [spread, List.foldl_cons, if_neg hs]]
      exact (bind_ok hwrite).trans (ih hl' _)

theorem store_new {t : IoClientType} (habsent : lookupFile conf env request w = .ok none w)
    (ht : conf.backend request.storageIndex = some t) (hcalm : ∀ i, env.writeFault i (metaId request.id) = none)
    (ds : List DataDistribution) :
    MetadataOrchestrator.store conf env request ds w =
      .ok (createLinks conf.maxObjSize ds ∅).1 (created conf request.id t (newMetadata conf request ds) w) := by
  rw [MetadataOrchestrator.store, bind_ok habsent]
  dsimp only
  have hwrite := recordData_write t request.id (newMetadata conf request ds) request.storageIndex w
  rw [← IoFactory.write_eq ht _ (hcalm _)] at hwrite
  have hlinks := forM_links hcalm (linkMetadata request.id (newMetadata conf request ds))
    request.storageIndex conf.storageSolutions (fun s hs => backend_of_mem conf hs)
    (putRecord w t request.id (newMetadata conf request ds))
  exact (bind_ok hwrite).trans (bind_ok hlinks)

theorem store_raise {fault : Fault} (h : lookupFile conf env request w = .error fault w)
    (ds : List DataDistribution) : MetadataOrchestrator.store conf env request ds w = .error fault w :=
  bind_error h

end Symbios
