import Symbios.Model.Client
import Symbios.Model.Replayer

/-!
# The replayer in POSIX mode

`replay_trace` and `prepare_data` of `replayer.h` in POSIX mode, as the `stdio` calls they make. The replayer looks at
no result but the stream of `fopen`, `handles n` for line `n` of a trace, so its calls do not depend on what answers
them. A stream that was never opened and a negative size are undefined. `clean_data` makes none of these calls.
-/

namespace Symbios.TraceReplayer

/-- `"FOPEN"`. -/
def openWord : List UInt8 := [70, 79, 80, 69, 78]

/-- `"FCLOSE"`. -/
def closeWord : List UInt8 := [70, 67, 76, 79, 83, 69]

/-- `"LSEEK"`. -/
def seekWord : List UInt8 := [76, 83, 69, 69, 75]

/-- The file of a rank: `filename + std::to_string(rank)`. -/
def posixFile (filename : CharStruct) (rank : Nat) : CharStruct := filename ++ Decimal.decimal rank

/-- The bytes at `writebuf`; of no characters there are none. -/
def posixBuffer (rand : Nat → Nat) (length : Nat) : List UInt8 := (randstring rand length).getD []

/-- A line of `replay_trace`: its calls, and `file` behind them. A closed stream is not forgotten. -/
def posixLine (filename : CharStruct) (handle : Nat) (rand : Nat → Nat) (line : TraceLine) (file : Option Nat) :
    Option (List PosixCall × Option Nat) :=
  if line.operation = openWord then some ([.fopen handle filename .wPlus], some handle)
  else if line.operation = closeWord then file.map fun fh => ([.fclose fh], file)
  else if line.operation = writeWord then
    if 0 ≤ line.requestSize then
      file.map fun fh => ([.fseek fh (.ofInt line.offset) .seekSet,
        .fwrite (posixBuffer rand line.requestSize.toNat) 1 (.ofNat line.requestSize.toNat) fh], file)
    else none
  else if line.operation = readWord then
    if 0 ≤ line.requestSize then
      file.map fun fh => ([.fseek fh (.ofInt line.offset) .seekSet, .fread 1 (.ofNat line.requestSize.toNat) fh], file)
    else none
  else if line.operation = seekWord then file.map fun fh => ([.fseek fh (.ofInt line.offset) .seekSet], file)
  else some ([], file)

variable (filename : CharStruct) (handles : Nat → Nat) (rand : Nat → Nat → Nat)

/-- The lines of a repetition, up to one with fewer than four characters. The next line is line `n`. -/
def posixLines : List (List UInt8) → Nat → Option Nat → Option (List PosixCall × Option Nat)
  | [], _, file => some ([], file)
  | line :: lines, n, file =>
    if line.length < 4 then some ([], file)
    else do
      let line ← parseLine line
      let (calls, file) ← posixLine filename (handles n) (rand n) line file
      let (rest, file) ← posixLines lines (n + 1) file
      return (calls ++ rest, file)

/-- `replay_trace`. The stream stays from one repetition to the next. -/
def posixReplay (trace : List UInt8) : Nat → Nat → Option Nat → Option (List PosixCall × Option Nat)
  | 0, _, file => some ([], file)
  | rep + 1, n, file => do
    let (calls, file) ← posixLines filename handles rand (getlines trace) n file
    let (rest, file) ← posixReplay trace rep (n + (getlines trace).length) file
    return (calls ++ rest, file)

/-- The loop of `prepare_data`, with its running `max_offset`. The sum is a `long`. -/
def maxOffset : List (List UInt8) → Int → Option Int
  | [], max => some max
  | line :: lines, max => do
    let line ← parseLine line
    if line.operation = readWord then
      if 0 ≤ line.requestSize ∧ line.offset + line.requestSize < 2 ^ 63 then
        maxOffset lines (if line.offset + line.requestSize > max then line.offset + line.requestSize else max)
      else none
    else maxOffset lines max

/-- `prepare_data`. -/
def posixPrepare (trace : List UInt8) (n : Nat) : Option (List PosixCall) :=
  (maxOffset (getlines trace) 0).map fun max =>
    [.fopen (handles n) filename .wPlus, .fwrite (posixBuffer (rand n) max.toNat) 1 (.ofNat max.toNat) (handles n)]

/-- `prepare_data`, and then `replay_trace`. -/
def posixCalls (trace : List UInt8) (rep n : Nat) : Option (List PosixCall) := do
  let prepared ← posixPrepare filename handles rand trace n
  let (calls, _) ← posixReplay filename handles rand trace rep (n + 1) none
  return prepared ++ calls

end Symbios.TraceReplayer
