import Symbios.Proof.DoubleBuffer

/-!
# What the storage cost predictor learns

The list of configurations and the map of models hold the same keys as long as every index that is fed or predicted was
loaded by `Init` (`trained_iff`): `Feedback` and `Predict` insert a model by `operator[]` and leave the list alone. The
average of `UpdateCoeffs` is taken with the buffer that is not in force, which holds the vector of two updates before
(`averages_iff`). `Feedback` hands on the bytes written before the bytes read (`features_iff`).
-/

namespace Symbios

open UnorderedMap

/-- `Fit` of a model takes every observation there is. -/
theorem LinRegModel.fit_spec (m : LinRegModel) (solve : List Observation → CoeffArray) (locks : TryLocks) :
    (m.fit solve locks).1.Perm m.dataset.items ∧ (m.fit solve locks).2.dataset.items = [] := by
  have hall := DoubleBuffer.popAll_spec true m.dataset.size m.dataset le_rfl
  unfold LinRegModel.fit
  dsimp only
  split_ifs
  · exact hall
  · exact hall

/-! ## Keys -/

namespace Predictor

/-- The list of configurations has exactly the keys of the map, each once. -/
def Listed (p : Predictor) : Prop := p.storageConfigs.Nodup ∧ ∀ i, i ∈ p.storageConfigs ↔ i ∈ p.storageModels

/-- The index whose model a step of the main thread uses. -/
def Step.index : Step → Option Int32
  | .feedback _ _ _ _ i => some i
  | .predict _ _ i => some i
  | .fit _ _ => none
  | .commit => none

section keys

variable {p : Predictor}

theorem parseModelRow_listed (h : Listed p) (conf : Int32) (a b c : ℚ) : Listed (p.parseModelRow conf a b c) := by
  obtain ⟨hnodup, hkeys⟩ := h
  unfold Listed parseModelRow
  dsimp only
  split_ifs with hmem
  · refine ⟨hnodup, fun i => ?_⟩
    rw [mem_modify, hkeys]
    constructor
    · exact Or.inr
    · rintro (rfl | hi)
      · exact hmem
      · exact hi
  · rw [← hkeys] at hmem
    refine ⟨?_, fun i => ?_⟩
    · rw [List.nodup_append]
      refine ⟨hnodup, List.nodup_singleton _, fun i hi j hj => ?_⟩
      rw [List.mem_singleton.mp hj]
      intro hconf
      exact hmem (hconf ▸ hi)
    · rw [List.mem_append, List.mem_singleton, mem_modify, hkeys, or_comm]

theorem parseModelRow_configs (h : Listed p) (conf : Int32) (a b c : ℚ) (i : Int32) :
    i ∈ (p.parseModelRow conf a b c).storageConfigs ↔ i = conf ∨ i ∈ p.storageConfigs := by
  rw [(parseModelRow_listed h conf a b c).2, parseModelRow, mem_modify, h.2]

theorem init_concat (nprocs : Int) (rows : List Row) (row : Row) : init nprocs (rows ++ [row]) =
    (init nprocs rows).parseModelRow row.conf row.nprocsCoeff row.totReadCoeff row.totWriteCoeff := by
  rw [init, List.foldl_append]
  rfl

/-- What `Init` leaves. -/
theorem init_spec (nprocs : Int) (rows : List Row) :
    Listed (init nprocs rows) ∧ ∀ i, i ∈ (init nprocs rows).storageConfigs ↔ ∃ row ∈ rows, row.conf = i := by
  induction rows using List.reverseRecOn with
  | nil => exact ⟨⟨List.nodup_nil, fun i => by simp [init]⟩, fun i => by simp [init]⟩
  | append_singleton rows row ih =>
    obtain ⟨hlisted, hconfigs⟩ := ih
    rw [init_concat]
    refine ⟨parseModelRow_listed hlisted _ _ _ _, fun i => ?_⟩
    rw [parseModelRow_configs hlisted, hconfigs]
    simp [or_comm, eq_comm]

/-! ### Steps -/

/-- What no step changes. -/
def SameConfigs (p p' : Predictor) : Prop := p'.nprocs = p.nprocs ∧ p'.storageConfigs = p.storageConfigs

theorem SameConfigs.trans {p₁ p₂ p₃ : Predictor} (h : SameConfigs p₁ p₂) (h' : SameConfigs p₂ p₃) : SameConfigs p₁ p₃ :=
  ⟨h'.1.trans h.1, h'.2.trans h.2⟩

theorem fitModel_mem (solve : Int32 → List Observation → CoeffArray) (locks : Int32 → TryLocks) (conf i : Int32) :
    i ∈ (fitModel solve locks p conf).2.storageModels ↔ i = conf ∨ i ∈ p.storageModels := by
  rw [fitModel]
  dsimp only
  rw [AList.mem_insert, mem_subscript, ← or_assoc, or_self]

theorem saveModel_mem (conf i : Int32) : i ∈ (p.saveModel conf).storageModels ↔ i = conf ∨ i ∈ p.storageModels := by
  rw [saveModel, mem_modify]

end keys

/-! ## Observations -/

/-- The model of an index; one that is not there has nothing in it. -/
def model (p : Predictor) (i : Int32) : LinRegModel := (p.storageModels.lookup i).getD {}

/-- The observations that wait in the model of an index. -/
def pending (p : Predictor) (i : Int32) : List Observation := (p.model i).dataset.items

/-- The observations that were taken from the model of an index. -/
def consumed (windows : List (Int32 × List Observation)) (i : Int32) : List Observation :=
  windows.flatMap fun window => if window.1 = i then window.2 else []

/-- The observation that a step queues for an index, with the bytes in the order they are handed on. -/
def fed (nprocs : Int) (i : Int32) : Step → List Observation
  | .feedback _ bw readBytes writeBytes j => if j = i then [(![nprocs, writeBytes, readBytes], bw)] else []
  | .predict _ _ _ => []
  | .fit _ _ => []
  | .commit => []

theorem consumed_append (windows windows' : List (Int32 × List Observation)) (i : Int32) :
    consumed (windows ++ windows') i = consumed windows i ++ consumed windows' i := List.flatMap_append

section observations

variable {p : Predictor}

theorem model_feedback (locks : TryLocks) (bw readBytes writeBytes : ℚ) (i j : Int32) :
    (p.feedback locks bw readBytes writeBytes i).model j =
      if j = i then (p.model i).feedback locks bw p.nprocs writeBytes readBytes else p.model j := by
  unfold model feedback
  dsimp only
  rw [lookup_modify]
  split_ifs <;> rfl

theorem model_predict (readBytes writeBytes : ℚ) (i j : Int32) :
    (p.predict readBytes writeBytes i).2.model j = p.model j := by
  unfold model predict
  dsimp only
  rw [lookup_subscript]
  split_ifs with hj
  · rw [hj, Option.getD_some]
  · rfl

theorem model_fitModel (solve : Int32 → List Observation → CoeffArray) (locks : Int32 → TryLocks) (i j : Int32) :
    (fitModel solve locks p i).2.model j = if j = i then ((p.model i).fit (solve i) (locks i)).2 else p.model j := by
  unfold fitModel model
  dsimp only
  rw [subscript_value]
  split_ifs with hj
  · rw [hj, AList.lookup_insert, Option.getD_some]
  · rw [AList.lookup_insert_ne hj, lookup_subscript, if_neg hj]

theorem fitModel_window (solve : Int32 → List Observation → CoeffArray) (locks : Int32 → TryLocks) (i : Int32) :
    (fitModel solve locks p i).1 = ((p.model i).fit (solve i) (locks i)).1 := by
  unfold fitModel model
  dsimp only
  rw [subscript_value]

theorem pending_saveModel (i j : Int32) : (p.saveModel i).pending j = p.pending j := by
  unfold pending model saveModel
  dsimp only
  rw [lookup_modify]
  split_ifs with hj
  · rw [hj]
    rfl
  · rfl

theorem pending_feedback (locks : TryLocks) (bw readBytes writeBytes : ℚ) (i j : Int32) :
    ((p.feedback locks bw readBytes writeBytes i).pending j).Perm
      (p.pending j ++ fed p.nprocs j (.feedback locks bw readBytes writeBytes i)) := by
  unfold pending
  rw [model_feedback, fed]
  by_cases hj : j = i
  · rw [if_pos hj, if_pos hj.symm, hj]
    exact DoubleBuffer.push_items _ locks false _
  · rw [if_neg hj, if_neg (Ne.symm hj), List.append_nil]

/-- The loop of `Fit` over some of the configurations takes what waits in their models, and nothing gets lost. -/
structure Takes (p : Predictor) (configs : List Int32) (windows : List (Int32 × List Observation)) (p' : Predictor) :
    Prop where
  same : SameConfigs p p'
  mem : ∀ i, i ∈ p'.storageModels ↔ i ∈ configs ∨ i ∈ p.storageModels
  kept : ∀ i, (p.pending i).Perm (consumed windows i ++ p'.pending i)
  taken : ∀ i ∈ configs, p'.pending i = []

theorem pending_fitModel (solve : Int32 → List Observation → CoeffArray) (locks : Int32 → TryLocks) (i j : Int32) :
    (fitModel solve locks p i).2.pending j = if j = i then [] else p.pending j := by
  unfold pending
  rw [model_fitModel]
  split_ifs
  · exact ((p.model i).fit_spec (solve i) (locks i)).2
  · rfl

theorem Takes.fitModel {configs : List Int32} {windows : List (Int32 × List Observation)} {p' : Predictor}
    (h : Takes p configs windows p') (solve : Int32 → List Observation → CoeffArray) (locks : Int32 → TryLocks)
    (conf : Int32) :
    Takes p (configs ++ [conf]) (windows ++ [(conf, (fitModel solve locks p' conf).1)])
      (fitModel solve locks p' conf).2 where
  same := h.same.trans ⟨rfl, rfl⟩
  mem i := by
    rw [fitModel_mem, h.mem, List.mem_append, List.mem_singleton]
    tauto
  kept i := by
    have hwindow := ((p'.model conf).fit_spec (solve conf) (locks conf)).1
    have hkept := h.kept i
    rw [consumed_append, pending_fitModel, fitModel_window]
    simp only [consumed, List.flatMap_cons, List.flatMap_nil, List.append_nil] at hkept ⊢
    by_cases hi : i = conf
    · rw [if_pos hi, if_pos hi.symm, List.append_nil]
      rw [hi] at hkept ⊢
      exact hkept.trans (hwindow.symm.append_left _)
    · rw [if_neg hi, if_neg (Ne.symm hi), List.append_nil]
      exact hkept
  taken i hi := by
    rw [pending_fitModel]
    split_ifs with hconf
    · rfl
    · rw [List.mem_append, List.mem_singleton] at hi
      exact h.taken i (hi.resolve_right hconf)

theorem takes_foldl (solve : Int32 → List Observation → CoeffArray) (locks : Int32 → TryLocks) (p : Predictor)
    (configs : List Int32) : ∃ windows p',
      configs.foldl (fun s conf => (s.1 ++ [(conf, (Predictor.fitModel solve locks s.2 conf).1)],
        (Predictor.fitModel solve locks s.2 conf).2)) ([], p) = (windows, p') ∧ Takes p configs windows p' := by
  induction configs using List.reverseRecOn with
  | nil => exact ⟨[], p, rfl, ⟨rfl, rfl⟩, by simp, fun i => .refl _, by simp⟩
  | append_singleton configs conf ih =>
    obtain ⟨windows, p', hfold, htakes⟩ := ih
    exact ⟨_, _, by rw [List.foldl_append, hfold, List.foldl_cons, List.foldl_nil], htakes.fitModel solve locks conf⟩

theorem fit_takes (solve : Int32 → List Observation → CoeffArray) (locks : Int32 → TryLocks) (p : Predictor) :
    Takes p p.storageConfigs (p.fit solve locks).1 (p.fit solve locks).2 := by
  obtain ⟨windows, p', hfold, htakes⟩ := takes_foldl solve locks p p.storageConfigs
  have hfit : p.fit solve locks = (windows, p') := hfold
  rwa [hfit]

theorem commit_foldl (p : Predictor) (configs : List Int32) : SameConfigs p (configs.foldl saveModel p) ∧
    (∀ i, i ∈ (configs.foldl saveModel p).storageModels ↔ i ∈ configs ∨ i ∈ p.storageModels) ∧
    ∀ i, (configs.foldl saveModel p).pending i = p.pending i := by
  induction configs using List.reverseRecOn with
  | nil => exact ⟨⟨rfl, rfl⟩, by simp, fun i => rfl⟩
  | append_singleton configs conf ih =>
    obtain ⟨hsame, hmem, hpending⟩ := ih
    rw [List.foldl_append]
    refine ⟨hsame.trans ⟨rfl, rfl⟩, fun i => ?_, fun i => ?_⟩
    · rw [List.foldl_cons, List.foldl_nil, saveModel_mem, hmem, List.mem_append, List.mem_singleton]
      tauto
    · rw [List.foldl_cons, List.foldl_nil, pending_saveModel, hpending]

/-! ### One step -/

theorem step_same (p : Predictor) (step : Step) : SameConfigs p (p.step step).2 := by
  cases step with
  | feedback => exact ⟨rfl, rfl⟩
  | predict => exact ⟨rfl, rfl⟩
  | fit solve locks => exact (fit_takes solve locks p).same
  | commit =>
    rw [Predictor.step, commit]
    dsimp only
    split_ifs
    · exact (commit_foldl p p.storageConfigs).1
    · exact ⟨rfl, rfl⟩

/-- Only the index of the step itself can be new. -/
theorem step_mem (h : ∀ i ∈ p.storageConfigs, i ∈ p.storageModels) (step : Step) (i : Int32) :
    i ∈ (p.step step).2.storageModels ↔ step.index = some i ∨ i ∈ p.storageModels := by
  have hknown : i ∈ p.storageConfigs ∨ i ∈ p.storageModels ↔ i ∈ p.storageModels :=
    ⟨fun hi => hi.elim (h i) id, Or.inr⟩
  cases step with
  | feedback locks bw readBytes writeBytes j =>
    rw [Predictor.step, feedback, mem_modify, Step.index, Option.some.injEq, eq_comm]
  | predict readBytes writeBytes j =>
    rw [Predictor.step, predict, mem_subscript, Step.index, Option.some.injEq, eq_comm]
  | fit solve locks =>
    rw [Predictor.step, (fit_takes solve locks p).mem, hknown]
    simp [Step.index]
  | commit =>
    rw [Predictor.step, commit]
    dsimp only
    split_ifs
    · rw [(commit_foldl p p.storageConfigs).2.1, hknown]
      simp [Step.index]
    · simp [Step.index]

/-- No step loses an observation. -/
theorem step_kept (p : Predictor) (step : Step) (i : Int32) :
    (p.pending i ++ fed p.nprocs i step).Perm (consumed (p.step step).1 i ++ (p.step step).2.pending i) := by
  cases step with
  | feedback locks bw readBytes writeBytes j => exact (pending_feedback locks bw readBytes writeBytes j i).symm
  | predict readBytes writeBytes j =>
    have hpending : (p.step (.predict readBytes writeBytes j)).2.pending i = p.pending i := by
      rw [Predictor.step, pending, model_predict, pending]
    rw [hpending, fed, List.append_nil]
    exact .refl _
  | fit solve locks =>
    rw [fed, List.append_nil]
    exact (fit_takes solve locks p).kept i
  | commit =>
    rw [fed, List.append_nil, Predictor.step, commit]
    dsimp only
    split_ifs
    · rw [(commit_foldl p p.storageConfigs).2.2]
      exact .refl _
    · exact .refl _

end observations

/-! ## Runs -/

theorem run_concat (p : Predictor) (steps : List Step) (step : Step) :
    p.run (steps ++ [step]) =
      ((p.run steps).1 ++ ((p.run steps).2.step step).1, ((p.run steps).2.step step).2) := by
  rw [run, List.foldl_append]
  rfl

theorem run_same (p : Predictor) (steps : List Step) : SameConfigs p (p.run steps).2 := by
  induction steps using List.reverseRecOn with
  | nil => exact ⟨rfl, rfl⟩
  | append_singleton steps step ih =>
    rw [run_concat]
    exact ih.trans (step_same _ step)

theorem run_kept {p : Predictor} {i : Int32} (hempty : p.pending i = []) (steps : List Step) :
    (steps.flatMap (fed p.nprocs i)).Perm (consumed (p.run steps).1 i ++ (p.run steps).2.pending i) := by
  induction steps using List.reverseRecOn with
  | nil =>
    have hrun : (p.run []).2.pending i = [] := hempty
    rw [hrun]
    exact .refl _
  | append_singleton steps step ih =>
    have hstep := step_kept (p.run steps).2 step i
    rw [(run_same p steps).1] at hstep
    rw [List.flatMap_append, List.flatMap_singleton, run_concat, consumed_append, List.append_assoc]
    refine (ih.append_right _).trans ?_
    rw [List.append_assoc]
    exact hstep.append_left _

/-- The index of every step was loaded. -/
def Loaded (rows : List Row) (steps : List Step) : Prop :=
  ∀ step ∈ steps, ∀ i, step.index = some i → ∃ row ∈ rows, row.conf = i

theorem run_listed {nprocs : Int} {rows : List Row} {steps : List Step} (h : Loaded rows steps) :
    Listed ((init nprocs rows).run steps).2 := by
  induction steps using List.reverseRecOn with
  | nil => exact (init_spec nprocs rows).1
  | append_singleton steps step ih =>
    obtain ⟨hnodup, hkeys⟩ := ih fun step' hstep' => h step' (List.mem_append_left _ hstep')
    have hsame := step_same ((init nprocs rows).run steps).2 step
    rw [run_concat]
    refine ⟨?_, fun i => ?_⟩
    · rw [hsame.2]
      exact hnodup
    · rw [hsame.2, step_mem (fun i => (hkeys i).mp), ← hkeys]
      constructor
      · exact Or.inr
      · rintro (hindex | hi)
        · rw [(run_same _ steps).2, (init_spec nprocs rows).2]
          exact h step (List.mem_append_right _ (List.mem_singleton_self _)) i hindex
        · exact hi

theorem init_pending (nprocs : Int) (rows : List Row) (i : Int32) : (init nprocs rows).pending i = [] := by
  induction rows using List.reverseRecOn with
  | nil => rfl
  | append_singleton rows row ih =>
    rw [init_concat, pending, model, parseModelRow, lookup_modify]
    split_ifs with hi
    · subst hi
      exact ih
    · exact ih

/-- The two structures agree after the steps; and if the last of them is `Fit`, every queue is empty then and every
observation that was fed before has been taken. -/
def Trained (p : Predictor) (steps : List Step) : Prop :=
  Listed (p.run steps).2 ∧ ∀ earlier solve locks, steps = earlier ++ [.fit solve locks] → ∀ i,
    (p.run steps).2.pending i = [] ∧ (earlier.flatMap (fed p.nprocs i)).Perm (consumed (p.run steps).1 i)

theorem trained_of_loaded {nprocs : Int} {rows : List Row} {steps : List Step} (h : Loaded rows steps) :
    Trained (init nprocs rows) steps := by
  have hlisted : Listed ((init nprocs rows).run steps).2 := run_listed h
  refine ⟨hlisted, ?_⟩
  rintro earlier solve locks rfl i
  have hempty : ((init nprocs rows).run (earlier ++ [.fit solve locks])).2.pending i = [] := by
    by_cases hi : i ∈ ((init nprocs rows).run (earlier ++ [.fit solve locks])).2.storageModels
    · rw [← hlisted.2, (run_same _ _).2, ← (run_same _ earlier).2] at hi
      rw [run_concat]
      exact (fit_takes solve locks _).taken i hi
    · rw [pending, model, AList.lookup_eq_none.mpr hi]
      rfl
  have hkept := run_kept (init_pending nprocs rows i) (earlier ++ [.fit solve locks])
  rw [hempty, List.append_nil, List.flatMap_append, List.flatMap_singleton, fed, List.append_nil] at hkept
  exact ⟨hempty, hkept⟩

/-- A step with an index that was not loaded makes the two structures differ. -/
theorem loaded_of_trained {nprocs : Int} {rows : List Row} {steps : List Step}
    (h : ∀ front, front <+: steps → Trained (init nprocs rows) front) : Loaded rows steps := by
  intro step hstep i hindex
  obtain ⟨a, b, rfl⟩ := List.append_of_mem hstep
  have hbefore := (h a (List.prefix_append _ _)).1
  have hafter := (h (a ++ [step]) ⟨b, by simp⟩).1
  have hmem : i ∈ ((init nprocs rows).run (a ++ [step])).2.storageModels := by
    rw [run_concat]
    exact (step_mem (fun i => (hbefore.2 i).mp) step i).mpr (Or.inl hindex)
  rwa [← hafter.2, (run_same _ _).2, (init_spec nprocs rows).2] at hmem

end Predictor

/-! ## The average of the coefficients -/

namespace LinRegModel

/-- The coefficients `Predict` uses. -/
def inForce (m : LinRegModel) : CoeffArray := m.coeffs m.buffer

/-- The coefficients in the other buffer. -/
def spare (m : LinRegModel) : CoeffArray := m.coeffs !m.buffer

/-- The arguments of one `UpdateCoeffs`: of a record that was loaded, or (`required`) of `Fit`. -/
structure Update where
  coeffs : CoeffArray
  required : Bool := false
  locks : TryLocks := {}

def updates (m : LinRegModel) (us : List Update) : LinRegModel :=
  us.foldl (fun m u => m.updateCoeffs u.locks u.coeffs u.required) m

/-- One running average: `a₀ = 0` and `aᵢ = (aᵢ₋₁ + uᵢ) / 2`. -/
def average (us : List Update) : CoeffArray := us.foldl (fun a u i => (a i + u.coeffs i) / 2) 0

/-- The updates before which the coefficients are zero, and after which `Predict` uses their average. -/
def Averages (m : LinRegModel) (us : List Update) : Prop :=
  (({ m with coeffs := fun _ _ => 0 } : LinRegModel).updates us).inForce = average us

section average

variable {m : LinRegModel}

theorem predict_inForce (m : LinRegModel) (nprocs readBytes writeBytes : ℚ) :
    m.predict nprocs readBytes writeBytes = ∑ i, m.inForce i * ![nprocs, readBytes, writeBytes] i := by
  rw [Fin.sum_univ_three]
  rfl

theorem updateCoeffs_inForce (m : LinRegModel) (locks : TryLocks) (u : CoeffArray) (required : Bool) :
    (m.updateCoeffs locks u required).inForce = fun i => (m.spare i + u i) / 2 := Function.update_self ..

theorem updateCoeffs_spare (m : LinRegModel) (locks : TryLocks) (u : CoeffArray) (required : Bool) :
    (m.updateCoeffs locks u required).spare = m.inForce := by
  unfold spare updateCoeffs
  dsimp only
  rw [Bool.not_not, Function.update_of_ne (Bool.not_ne_self m.buffer).symm]
  rfl

theorem updates_concat (m : LinRegModel) (us : List Update) (u : Update) :
    m.updates (us ++ [u]) = (m.updates us).updateCoeffs u.locks u.coeffs u.required := by
  rw [updates, List.foldl_append]
  rfl

theorem average_concat (us : List Update) (u : Update) :
    average (us ++ [u]) = fun i => (average us i + u.coeffs i) / 2 := by
  rw [average, List.foldl_append]
  rfl

/-- Updates with zeros leave zeros. -/
theorem updates_zero {us : List Update} (h : ∀ u ∈ us, u.coeffs = 0) :
    (({ m with coeffs := fun _ _ => 0 } : LinRegModel).updates us).inForce = 0 ∧
      (({ m with coeffs := fun _ _ => 0 } : LinRegModel).updates us).spare = 0 ∧ average us = 0 := by
  induction us using List.reverseRecOn with
  | nil => exact ⟨rfl, rfl, rfl⟩
  | append_singleton us u ih =>
    obtain ⟨hforce, hspare, haverage⟩ := ih fun v hv => h v (List.mem_append_left _ hv)
    have hu := h u (List.mem_append_right _ (List.mem_singleton_self u))
    rw [updates_concat, updateCoeffs_inForce, updateCoeffs_spare, average_concat, hforce, hspare, haverage, hu]
    refine ⟨?_, rfl, ?_⟩ <;> funext i <;> simp

/-- After zeros, an update and one more: the last is averaged with zero, so the one before it has to be zero too. -/
theorem zero_of_averages (us : List Update) (u : Update) (h : ∀ front, front <+: us ++ [u] → m.Averages front) :
    ∀ v ∈ us, v.coeffs = 0 := by
  induction us using List.reverseRecOn generalizing u with
  | nil => simp
  | append_singleton us v ih =>
    have hzero := ih v fun front hfront => h front (hfront.trans (List.prefix_append _ _))
    obtain ⟨hforce, -, haverage⟩ := updates_zero (m := m) hzero
    have hlast : m.Averages (us ++ [v] ++ [u]) := h _ (List.prefix_refl _)
    rw [Averages, updates_concat, updateCoeffs_inForce, updates_concat, updateCoeffs_spare, average_concat,
      average_concat, hforce, haverage] at hlast
    have hv : v.coeffs = 0 := by
      funext i
      have hi := congrFun hlast i
      simp only [Pi.zero_apply] at hi ⊢
      linarith
    intro v' hv'
    rcases List.mem_append.mp hv' with hv' | hv'
    · exact hzero v' hv'
    · rw [List.mem_singleton.mp hv', hv]

/-- The coefficients follow one running average exactly as long as all updates before the last are zero. -/
theorem averages_iff (m : LinRegModel) (us : List Update) :
    (∀ front, front <+: us → m.Averages front) ↔ ∀ u ∈ us.dropLast, u.coeffs = 0 := by
  rcases List.eq_nil_or_concat' us with rfl | ⟨us, u, rfl⟩
  · simp only [List.prefix_nil, List.dropLast_nil, List.not_mem_nil, false_implies, implies_true, iff_true]
    rintro front rfl
    rfl
  · rw [List.dropLast_concat]
    constructor
    · exact zero_of_averages us u
    · intro h front hfront
      rcases List.prefix_concat_iff.mp hfront with rfl | hfront
      · obtain ⟨-, hspare, haverage⟩ := updates_zero (m := m) h
        rw [Averages, updates_concat, updateCoeffs_inForce, average_concat, hspare, haverage]
      · obtain ⟨hforce, -, haverage⟩ := updates_zero (m := m) fun v hv => h v (hfront.subset hv)
        rw [Averages, hforce, haverage]

end average

/-- Of two updates the second is averaged with zero, not with the first. -/
theorem second_update : ¬ ∀ (m : LinRegModel) (us : List Update), m.Averages us := by
  intro h
  have hzero := zero_of_averages (m := {}) [{ coeffs := ![1, 0, 0] }] { coeffs := 0 } fun front _ => h {} front
  have hfirst := congrFun (hzero _ (List.mem_singleton_self _)) 0
  simp at hfirst

end LinRegModel

/-! ## The features of an observation -/

namespace DoubleBuffer

/-- The item that was pushed is determined by the buffers. -/
theorem Pushed.unique {α : Type} {q q' : DoubleBuffer α} {obj obj' : α} (h : q.Pushed q' obj) (h' : q.Pushed q' obj') :
    obj = obj' := by
  obtain ⟨tid, rfl⟩ := h
  obtain ⟨tid', htid'⟩ := h'
  have hlist := congrFun (congrArg lists htid') tid
  simp only [append, Function.update_self] at hlist
  by_cases htid : tid = tid'
  · subst htid
    rw [Function.update_self] at hlist
    exact List.singleton_inj.mp (List.append_cancel_left hlist)
  · rw [Function.update_of_ne htid] at hlist
    simp at hlist

end DoubleBuffer

namespace Predictor

/-- The arguments of one `Feedback`. -/
structure Measurement where
  bwMeasured : ℚ
  readBytes : ℚ
  writeBytes : ℚ
  storageIndex : Int32
  locks : TryLocks := {}

def feedbacks (p : Predictor) (calls : List Measurement) : Predictor :=
  calls.foldl (fun p c => p.feedback c.locks c.bwMeasured c.readBytes c.writeBytes c.storageIndex) p

/-- `Predict` evaluates the coefficients at `x`, whatever they are. -/
def EvaluatesAt (nprocs : Int) (x : Fin 3 → ℚ) (readBytes writeBytes : ℚ) (storageIndex : Int32) : Prop :=
  ∀ p : Predictor, p.nprocs = nprocs →
    (p.predict readBytes writeBytes storageIndex).1 = ∑ k, (p.model storageIndex).inForce k * x k

/-- Every observation that is queued has the input vector at which `Predict` evaluates the coefficients; and where all
measurements are linear in these features, their coefficients have no residual on what is queued. -/
def SameFeatures (nprocs : Int) (rows : List Row) (calls : List Measurement) : Prop :=
  (∀ a c b, calls = a ++ c :: b → ∃ observation : Observation,
    (((init nprocs rows).feedbacks a).model c.storageIndex).dataset.Pushed
      (((init nprocs rows).feedbacks (a ++ [c])).model c.storageIndex).dataset observation ∧
    observation.2 = c.bwMeasured ∧ EvaluatesAt nprocs observation.1 c.readBytes c.writeBytes c.storageIndex) ∧
  ∀ k : CoeffArray, (∀ c ∈ calls, c.bwMeasured = ∑ j, k j * ![(nprocs : ℚ), c.readBytes, c.writeBytes] j) →
    ∀ i, ∀ observation ∈ ((init nprocs rows).feedbacks calls).pending i, LinRegModel.residual observation k = 0

section features

variable {p : Predictor} {nprocs : Int}

theorem feedbacks_concat (p : Predictor) (a : List Measurement) (c : Measurement) : p.feedbacks (a ++ [c]) =
    (p.feedbacks a).feedback c.locks c.bwMeasured c.readBytes c.writeBytes c.storageIndex := by
  rw [feedbacks, List.foldl_append]
  rfl

theorem feedbacks_nprocs (p : Predictor) (calls : List Measurement) : (p.feedbacks calls).nprocs = p.nprocs := by
  induction calls using List.reverseRecOn with
  | nil => rfl
  | append_singleton calls c ih =>
    rw [feedbacks_concat]
    exact ih

theorem init_nprocs (nprocs : Int) (rows : List Row) : (init nprocs rows).nprocs = nprocs := by
  induction rows using List.reverseRecOn with
  | nil => rfl
  | append_singleton rows row ih =>
    rw [init_concat]
    exact ih

/-- What a call queues: the bytes written come before the bytes read. -/
theorem feedbacks_pushed (p : Predictor) (a : List Measurement) (c : Measurement) :
    ((p.feedbacks a).model c.storageIndex).dataset.Pushed ((p.feedbacks (a ++ [c])).model c.storageIndex).dataset
      (![p.nprocs, c.writeBytes, c.readBytes], c.bwMeasured) := by
  rw [feedbacks_concat, model_feedback, if_pos rfl, feedbacks_nprocs]
  exact DoubleBuffer.push_pushed _ _ _ _

theorem predict_eq (p : Predictor) (readBytes writeBytes : ℚ) (i : Int32) :
    (p.predict readBytes writeBytes i).1 = ∑ k, (p.model i).inForce k * ![(p.nprocs : ℚ), readBytes, writeBytes] k := by
  unfold predict
  dsimp only
  rw [subscript_value, LinRegModel.predict_inForce]
  rfl

/-- The bytes read come first where the coefficients are evaluated. -/
theorem EvaluatesAt.swapped {readBytes writeBytes bytes bytes' : ℚ} {i : Int32}
    (h : EvaluatesAt nprocs ![(nprocs : ℚ), bytes, bytes'] readBytes writeBytes i) : readBytes = bytes := by
  -- a model that counts the bytes read alone
  obtain ⟨p, hp, hforce⟩ : ∃ p : Predictor, p.nprocs = nprocs ∧ (p.model i).inForce = ![0, 1, 0] :=
    ⟨{ nprocs, storageModels := AList.insert i { coeffs := fun _ => ![0, 1, 0] } ∅ }, rfl, by
      rw [model, AList.lookup_insert]
      rfl⟩
  have hread := h p hp
  rw [predict_eq, hforce, Fin.sum_univ_three, Fin.sum_univ_three] at hread
  simpa using hread

/-- What waits in a model was queued by one of the calls. -/
theorem feedbacks_pending {i : Int32} (hempty : p.pending i = []) (calls : List Measurement) :
    ∀ observation ∈ (p.feedbacks calls).pending i, ∃ c ∈ calls,
      observation = (![(p.nprocs : ℚ), c.writeBytes, c.readBytes], c.bwMeasured) := by
  induction calls using List.reverseRecOn with
  | nil =>
    have hnil : (p.feedbacks []).pending i = [] := hempty
    simp [hnil]
  | append_singleton calls c ih =>
    intro observation hobservation
    rw [feedbacks_concat, (pending_feedback c.locks c.bwMeasured c.readBytes c.writeBytes c.storageIndex i).mem_iff,
      List.mem_append, feedbacks_nprocs, fed] at hobservation
    rcases hobservation with hold | hnew
    · obtain ⟨c', hc', heq⟩ := ih observation hold
      exact ⟨c', List.mem_append_left _ hc', heq⟩
    · split_ifs at hnew
      · exact ⟨c, List.mem_append_right _ (List.mem_singleton_self c), List.mem_singleton.mp hnew⟩
      · cases hnew

end features

/-- Training and prediction use the same features exactly as long as every call has as many bytes read as written. -/
theorem features_iff (nprocs : Int) (rows : List Row) (calls : List Measurement) :
    SameFeatures nprocs rows calls ↔ ∀ c ∈ calls, c.readBytes = c.writeBytes := by
  constructor
  · rintro ⟨hqueued, -⟩ c hc
    obtain ⟨a, b, rfl⟩ := List.append_of_mem hc
    obtain ⟨observation, hpushed, -, hevaluates⟩ := hqueued a c b rfl
    obtain rfl := hpushed.unique (feedbacks_pushed _ a c)
    rw [init_nprocs] at hevaluates
    exact hevaluates.swapped
  · intro h
    constructor
    · rintro a c b rfl
      refine ⟨_, feedbacks_pushed _ a c, rfl, fun p hp => ?_⟩
      rw [predict_eq, hp, init_nprocs, h c (List.mem_append_right _ List.mem_cons_self)]
    · intro k hlinear i observation hobservation
      obtain ⟨c, hc, rfl⟩ := feedbacks_pending (init_pending nprocs rows i) calls observation hobservation
      have hbw := hlinear c hc
      rw [h c hc] at hbw
      rw [LinRegModel.residual, init_nprocs, hbw, h c hc, sub_self, zero_pow two_ne_zero]

/-- One measurement of bytes that were only read. -/
theorem swapped_features : ¬ ∀ (nprocs : Int) (rows : List Row) (calls : List Measurement),
    SameFeatures nprocs rows calls := by
  intro h
  obtain ⟨-, hresidual⟩ := h 1 [] [⟨5, 5, 0, 0, {}⟩]
  have hzero := hresidual ![0, 1, 0] (by simp [Fin.sum_univ_three]) 0 (![1, 0, 5], 5) (by decide +kernel)
  rw [LinRegModel.residual, Fin.sum_univ_three] at hzero
  simp at hzero

end Predictor

end Symbios
