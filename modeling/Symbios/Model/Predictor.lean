import Mathlib
import Symbios.Base.UnorderedMap

/-!
# The storage cost predictor

`double_buffer.h` and the models of `storage_cost_predictor.h`, in exact arithmetic: a `double` is a rational number.
The operations of the main thread and of the worker are steps, each done before the next begins. What the environment
decides is an argument of the step: whether a `try_lock` succeeds, and the parameters the least squares solver finds.
The model files are given by the rows that are parsed out of them.
-/

namespace Symbios

open UnorderedMap

/-! ## `DoubleBuffer` -/

/-- The lists 0 and 1 of a `DoubleBuffer`. -/
structure DoubleBuffer (α : Type) where
  lists : Bool → List α := fun _ => []

/-- Whether the two `try_lock` of a `push` succeed. -/
structure TryLocks where
  first : Bool := true
  second : Bool := true

namespace DoubleBuffer

variable {α : Type}

/-- `lists_[tid].push_back(obj)`. -/
def append (q : DoubleBuffer α) (tid : Bool) (obj : α) : DoubleBuffer α :=
  { lists := Function.update q.lists tid (q.lists tid ++ [obj]) }

/-- `push`. With both locks taken it waits for the lock it tried first. -/
def push (q : DoubleBuffer α) (locks : TryLocks) (tid : Bool) (obj : α) : DoubleBuffer α :=
  if locks.first then q.append tid obj
  else if locks.second then q.append (!tid) obj
  else q.append tid obj

/-- `pop`. -/
def pop (q : DoubleBuffer α) (tid : Bool) : Option (α × DoubleBuffer α) :=
  match q.lists tid with
  | obj :: rest => some (obj, { lists := Function.update q.lists tid rest })
  | [] =>
    match q.lists !tid with
    | obj :: rest => some (obj, { lists := Function.update q.lists (!tid) rest })
    | [] => none

/-- `pop_sync`. -/
def popSync (q : DoubleBuffer α) : Option (α × DoubleBuffer α) := q.pop false

def size (q : DoubleBuffer α) : Nat := (q.lists false).length + (q.lists true).length

/-- A loop that pops until there is nothing left. A turn takes one item. -/
def popAll (pop : DoubleBuffer α → Option (α × DoubleBuffer α)) : Nat → DoubleBuffer α → List α × DoubleBuffer α
  | 0, q => ([], q)
  | turns + 1, q =>
    match pop q with
    | none => ([], q)
    | some (obj, q) =>
      let rest := popAll pop turns q
      (obj :: rest.1, rest.2)

inductive Call (α : Type) where
  | push (locks : TryLocks) (tid : Bool) (obj : α)
  | pop (tid : Bool)
  | popSync

/-- The list that a `push` appends to. -/
def landed (locks : TryLocks) (tid : Bool) : Bool := if locks.first then tid else if locks.second then !tid else tid

/-- The list that a `pop` takes from, if it takes something. -/
def source (q : DoubleBuffer α) (tid : Bool) : Bool := if (q.lists tid).isEmpty then !tid else tid

/-- A pop, with the list its item comes from. One that returns false changes nothing. -/
def taken (q : DoubleBuffer α) (tid : Bool) (result : Option (α × DoubleBuffer α)) :
    List (Bool × α) × DoubleBuffer α :=
  match result with
  | none => ([], q)
  | some (obj, q') => ([(q.source tid, obj)], q')

def step (q : DoubleBuffer α) : Call α → List (Bool × α) × DoubleBuffer α
  | .push locks tid obj => ([], q.push locks tid obj)
  | .pop tid => q.taken tid (q.pop tid)
  | .popSync => q.taken false q.popSync

/-- One call after the other from an empty buffer, with what was popped. -/
def run (calls : List (Call α)) : List (Bool × α) × DoubleBuffer α :=
  calls.foldl (fun s call =>
    let result := s.2.step call
    (s.1 ++ result.1, result.2)) ([], {})

end DoubleBuffer

/-! ## `LinRegModel` -/

/-- `CoeffArray`, the coefficients of the processes, the bytes read and the bytes written. -/
abbrev CoeffArray := Fin 3 → ℚ

/-- An `input_vector` and the measured bandwidth. -/
abbrev Observation := (Fin 3 → ℚ) × ℚ

structure LinRegModel where
  dataset : DoubleBuffer Observation := {}
  coeffsQ : DoubleBuffer CoeffArray := {}
  coeffs : Bool → CoeffArray := fun _ _ => 0
  buffer : Bool := false

namespace LinRegModel

/-- `Residual`. -/
def residual (data : Observation) (params : CoeffArray) : ℚ := (data.2 - ∑ i, params i * data.1 i) ^ 2

/-- `GetWindow`. -/
def getWindow (m : LinRegModel) : List Observation × DoubleBuffer Observation :=
  DoubleBuffer.popAll (·.pop true) m.dataset.size m.dataset

/-- The private `UpdateCoeffs`. -/
def updateCoeffs (m : LinRegModel) (locks : TryLocks) (coeffs : CoeffArray) (required : Bool) : LinRegModel :=
  { m with
    coeffs := Function.update m.coeffs (!m.buffer) fun i => (m.coeffs (!m.buffer) i + coeffs i) / 2
    coeffsQ := if required then m.coeffsQ.push locks true coeffs else m.coeffsQ
    buffer := !m.buffer }

/-- The public `UpdateCoeffs`, which takes no lock. -/
def updateCoeffs3 (m : LinRegModel) (nprocsCoeff totReadCoeff totWriteCoeff : ℚ) : LinRegModel :=
  m.updateCoeffs {} ![nprocsCoeff, totReadCoeff, totWriteCoeff] false

/-- `Fit`, with the observations it takes. -/
def fit (m : LinRegModel) (solve : List Observation → CoeffArray) (locks : TryLocks) : List Observation × LinRegModel :=
  let window := m.getWindow
  let m := { m with dataset := window.2 }
  if window.1.length > 0 then (window.1, m.updateCoeffs locks (solve window.1) true) else (window.1, m)

/-- `Feedback`. -/
def feedback (m : LinRegModel) (locks : TryLocks) (bw nprocs readBytes writeBytes : ℚ) : LinRegModel :=
  { m with dataset := m.dataset.push locks false (![nprocs, readBytes, writeBytes], bw) }

/-- `Predict`. -/
def predict (m : LinRegModel) (nprocs readBytes writeBytes : ℚ) : ℚ :=
  m.coeffs m.buffer 0 * nprocs + m.coeffs m.buffer 1 * readBytes + m.coeffs m.buffer 2 * writeBytes

end LinRegModel

/-! ## `StorageCostPredictor` -/

/-- `window_tick_` only decides when the worker takes its steps. -/
structure Predictor where
  nprocs : Int
  commitMetrics : Bool := true
  windowTick : Nat := 0
  storageModels : AList fun _ : Int32 => LinRegModel := ∅
  storageConfigs : List Int32 := []

namespace Predictor

/-- `ParseModelRow`, after the row was parsed. -/
def parseModelRow (p : Predictor) (conf : Int32) (nprocsCoeff totReadCoeff totWriteCoeff : ℚ) : Predictor :=
  { p with
    storageConfigs := if conf ∈ p.storageModels then p.storageConfigs else p.storageConfigs ++ [conf]
    storageModels := modify {} p.storageModels conf (·.updateCoeffs3 nprocsCoeff totReadCoeff totWriteCoeff) }

/-- A row of a model file. -/
structure Row where
  conf : Int32
  nprocsCoeff : ℚ := 0
  totReadCoeff : ℚ := 0
  totWriteCoeff : ℚ := 0

/-- `Init`, on files with these rows. -/
def init (nprocs : Int) (rows : List Row) : Predictor :=
  rows.foldl (fun p row => p.parseModelRow row.conf row.nprocsCoeff row.totReadCoeff row.totWriteCoeff) { nprocs }

/-- `Feedback`. -/
def feedback (p : Predictor) (locks : TryLocks) (bwMeasured readBytes writeBytes : ℚ) (storageIndex : Int32) : Predictor :=
  { p with
    storageModels := modify {} p.storageModels storageIndex (·.feedback locks bwMeasured p.nprocs writeBytes readBytes)
    windowTick := p.windowTick + 1 }

/-- `Predict`. -/
def predict (p : Predictor) (readBytes writeBytes : ℚ) (storageIndex : Int32) : ℚ × Predictor :=
  let entry := subscript {} p.storageModels storageIndex
  (entry.1.predict p.nprocs readBytes writeBytes, { p with storageModels := entry.2 })

/-- The body of the loop of `Fit`. -/
def fitModel (solve : Int32 → List Observation → CoeffArray) (locks : Int32 → TryLocks) (p : Predictor)
    (storageConfig : Int32) : List Observation × Predictor :=
  let entry := subscript {} p.storageModels storageConfig
  let result := entry.1.fit (solve storageConfig) (locks storageConfig)
  (result.1, { p with storageModels := entry.2.insert storageConfig result.2 })

/-- `Fit`, with the observations that each model takes. -/
def fit (solve : Int32 → List Observation → CoeffArray) (locks : Int32 → TryLocks) (p : Predictor) :
    List (Int32 × List Observation) × Predictor :=
  p.storageConfigs.foldl (fun s storageConfig =>
    let result := fitModel solve locks s.2 storageConfig
    (s.1 ++ [(storageConfig, result.1)], result.2)) ([], p)

/-- The body of the loop of `SaveModelCSV`: the coefficients leave the queue of a model. -/
def saveModel (p : Predictor) (storageConfig : Int32) : Predictor :=
  { p with
    storageModels := modify {} p.storageModels storageConfig fun m =>
      { m with coeffsQ := (DoubleBuffer.popAll (·.popSync) m.coeffsQ.size m.coeffsQ).2 } }

/-- `CommitMetrics`. -/
def commit (p : Predictor) : Predictor :=
  if p.commitMetrics then p.storageConfigs.foldl saveModel p else p

/-! ### Runs -/

inductive Step where
  | feedback (locks : TryLocks) (bwMeasured readBytes writeBytes : ℚ) (storageIndex : Int32)
  | predict (readBytes writeBytes : ℚ) (storageIndex : Int32)
  | fit (solve : Int32 → List Observation → CoeffArray) (locks : Int32 → TryLocks)
  | commit

/-- A step, with the observations that are taken by it. -/
def step (p : Predictor) : Step → List (Int32 × List Observation) × Predictor
  | .feedback locks bw readBytes writeBytes i => ([], p.feedback locks bw readBytes writeBytes i)
  | .predict readBytes writeBytes i => ([], (p.predict readBytes writeBytes i).2)
  | .fit solve locks => p.fit solve locks
  | .commit => ([], p.commit)

def run (p : Predictor) (steps : List Step) : List (Int32 × List Observation) × Predictor :=
  steps.foldl (fun s step =>
    let result := s.2.step step
    (s.1 ++ result.1, result.2)) ([], p)

end Predictor

end Symbios
