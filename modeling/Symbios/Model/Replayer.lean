import Symbios.Model.Arguments
import Symbios.Model.LibHandler

/-!
# The trace replayer

`replayer.h` in the modes of the library handler. A trace is a text; a line holds an operation, an offset and a size
between commas, and lines may have anything behind that. A word that is not there, and a number outside of `long`, are
undefined, and so are a negative offset and a negative size of what is read, written or deleted. `rand n i` is the value
of `rand()` for byte `i` of the buffer of call `n`. Times are left out.
-/

namespace Symbios

/-! ## Lines -/

/-- The lines that `getline` finds one after the other, each with its newline; the last one may have none. -/
def getlines : List UInt8 → List (List UInt8)
  | [] => []
  | c :: text =>
    if c = 10 then [c] :: getlines text
    else
      match getlines text with
      | [] => [[c]]
      | line :: lines => (c :: line) :: lines

/-- `strtok` for commas: the next word, and what is behind it. -/
def strtok (s : List UInt8) : Option (List UInt8 × List UInt8) :=
  let s := s.dropWhile (· = 44)
  if s = [] then none else some (s.takeWhile (· ≠ 44), (s.dropWhile (· ≠ 44)).drop 1)

/-- `atol`, where it is defined. -/
def atol (word : List UInt8) : Option Int :=
  match leadingNumber word with
  | none => some 0
  | some (negative, n) =>
    let value : Int := if negative then -n else n
    if -2 ^ 63 ≤ value ∧ value < 2 ^ 63 then some value else none

/-- A line of a trace. -/
structure TraceLine where
  operation : List UInt8
  offset : Int
  requestSize : Int
deriving DecidableEq, Repr

/-- What is read of a line, up to a zero byte. -/
def parseLine (line : List UInt8) : Option TraceLine := do
  let (operation, rest) ← strtok (line.takeWhile (· ≠ 0))
  let (word, rest) ← strtok rest
  let offset ← atol word
  let (word, _) ← strtok rest
  let requestSize ← atol word
  return { operation, offset, requestSize }

namespace TraceReplayer

/-- `charset`: the letters, the digits and some punctuation. -/
def charset : List UInt8 :=
  (List.range' 97 26 ++ List.range' 65 26 ++ List.range' 48 10).map .ofNat ++ [44, 46, 45, 35, 39, 63, 33]

/-- `randstring`; of no characters, a null pointer. -/
def randstring (rand : Nat → Nat) (length : Nat) : Option (List UInt8) :=
  if length = 0 then none
  else some ((List.range length).map (fun i => charset.getD (rand i % charset.length) 0) ++ [0])

/-- `"WRITE"`. -/
def writeWord : List UInt8 := [87, 82, 73, 84, 69]

/-- `"READ"`. -/
def readWord : List UInt8 := [82, 69, 65, 68]

/-- The call that a line makes; it makes none for another operation, and is undefined for a negative number. -/
def callFor (word : List UInt8) (opType : OpType) (data : Nat → Option (List UInt8)) (line : TraceLine) :
    Option (Option LibCall) :=
  if line.operation = word then
    if 0 ≤ line.offset ∧ 0 ≤ line.requestSize then
      some (some ⟨opType, line.offset.toNat, line.requestSize.toNat, data line.requestSize.toNat⟩)
    else none
  else some none

/-- The call of a line of `replay_trace`. -/
def replayCall (rand : Nat → Nat) (line : TraceLine) : Option (Option LibCall) :=
  if line.operation = writeWord then callFor writeWord .write (randstring rand) line
  else callFor readWord .read (randstring rand) line

/-- The call of a line of `prepare_data`: what is read is written. -/
def prepareCall (rand : Nat → Nat) (line : TraceLine) : Option (Option LibCall) :=
  callFor readWord .write (randstring rand) line

/-- The call of a line of `clean_data`: what is written is deleted. -/
def cleanCall (_ : Nat → Nat) (line : TraceLine) : Option (Option LibCall) :=
  callFor writeWord .delete (fun _ => none) line

variable [Wire] (conf : ConfigurationManager) (env : Env) (draws : Nat → Nat) (rand : Nat → Nat → Nat) (lh : LibHandler)

/-- The loop over the lines, up to one with fewer than `short` characters. The next call is call `n`. -/
def eachLine (short : Nat) (call : (Nat → Nat) → TraceLine → Option (Option LibCall)) :
    List (List UInt8) → Nat → Prog (Option (List Ran))
  | [], _ => return some []
  | line :: lines, n =>
    if line.length < short then return some []
    else
      match (parseLine line).bind (call (rand n)) with
      | none => throw .undefined
      | some none => eachLine short call lines n
      | some (some libCall) => do
        match ← lh.run conf env (draws n) libCall.opType libCall.offset libCall.requestSize libCall.data with
        | none => return none
        | some ran => return (← eachLine short call lines (n + 1)).map (ran :: ·)

/-- `replay_trace`: the text is read from its start in every repetition. -/
def replayTrace (trace : List UInt8) : Nat → Nat → Prog (Option (List Ran))
  | 0, _ => return some []
  | rep + 1, n => do
    match ← eachLine conf env draws rand lh 4 replayCall (getlines trace) n with
    | none => return none
    | some rans => return (← replayTrace trace rep (n + rans.length)).map (rans ++ ·)

/-- `prepare_data`. -/
def prepareData (trace : List UInt8) (n : Nat) : Prog (Option (List Ran)) :=
  eachLine conf env draws rand lh 0 prepareCall (getlines trace) n

/-- `clean_data`. -/
def cleanData (trace : List UInt8) (n : Nat) : Prog (Option (List Ran)) :=
  eachLine conf env draws rand lh 0 cleanCall (getlines trace) n

end TraceReplayer

end Symbios
