import Mathlib
import Symbios.Base.UnorderedMap

/-!
# Command line arguments

`arguments.h`. The five classes of options with values differ in how `Add` converts its argument; their lists hold the
values of one type (`Value`). A `float` is its object representation, and `std::stof` is an argument of every function
that may convert one. `Add` is given with the state it leaves, as callers catch what it throws.
-/

namespace Symbios

open UnorderedMap

/-- How `Add` and `ArgIter` can fail to return: `throw 1`, the exceptions of the conversions, and behaviour the
language leaves undefined. -/
inductive ArgFault where
  | thrown
  | invalidArgument
  | outOfRange
  | undefined
deriving DecidableEq, Repr

/-! ## Conversions -/

/-- `isspace`. -/
def isSpace (c : UInt8) : Bool := c = 32 || (9 ≤ c && c ≤ 13)

def isDigit (c : UInt8) : Bool := 48 ≤ c && c ≤ 57

/-- The sign and the magnitude `strtol` and `strtoul` find: white space, a sign, and the longest run of digits. -/
def leadingNumber (s : List UInt8) : Option (Bool × Nat) :=
  let s := s.dropWhile isSpace
  let signed : Bool × List UInt8 :=
    match s with
    | 45 :: rest => (true, rest)
    | 43 :: rest => (false, rest)
    | _ => (false, s)
  let digits := signed.2.takeWhile isDigit
  if digits = [] then none
  else some (signed.1, digits.foldl (fun n c => 10 * n + (c.toNat - 48)) 0)

/-- `std::stoi`. -/
def stoi (s : List UInt8) : Except ArgFault Int32 :=
  match leadingNumber s with
  | none => .error .invalidArgument
  | some (negative, n) =>
    let value : Int := if negative then -n else n
    if -2 ^ 31 ≤ value ∧ value < 2 ^ 31 then .ok (.ofInt value) else .error .outOfRange

/-- `std::stoul`: a minus sign negates the value modulo 2^64. -/
def stoul (s : List UInt8) : Except ArgFault UInt64 :=
  match leadingNumber s with
  | none => .error .invalidArgument
  | some (negative, n) =>
    if n < 2 ^ 64 then .ok (if negative then -.ofNat n else .ofNat n) else .error .outOfRange

/-- `SizeArg::ToSize`. Of an empty string the character before the first is read. -/
def toSizeArg (arg : List UInt8) : Except ArgFault UInt64 :=
  match arg.getLast? with
  | none => .error .undefined
  | some c =>
    if c = 107 ∨ c = 75 then (stoul arg).map (· * 2 ^ 10)
    else if c = 109 ∨ c = 77 then (stoul arg).map (· * 2 ^ 20)
    else if c = 103 ∨ c = 71 then (stoul arg).map (· * 2 ^ 30)
    else stoul arg

/-! ## Options -/

/-- `ArgType`. -/
inductive ArgType where
  | kNone | kString | kStringMap | kInt | kFloat | kSize
deriving DecidableEq, Repr

/-- A value of one of the classes. -/
inductive Value where
  | string (s : List UInt8)
  | int (i : Int32)
  | float (bits : UInt32)
  | size (n : UInt64)
deriving DecidableEq

/-- `Arg` and its classes. -/
structure Arg where
  type : ArgType := .kNone
  argMap : AList (fun _ : List UInt8 => Int32) := ∅
  isSet : Bool := false
  useDefault : Bool := false
  args : List Value := []

namespace Arg

/-- The constructor with a default value. -/
def withDefault (type : ArgType) (dval : Value) : Arg := { type, isSet := true, useDefault := true, args := [dval] }

/-- `AddStringMapVal`; only a `StringMapArg` has it. -/
def addStringMapVal (a : Arg) (val : List UInt8) (id : Int32) : Except ArgFault Arg :=
  if a.type = .kStringMap then .ok { a with argMap := a.argMap.insert val id } else .error .thrown

/-- `NoneArg::Add`. -/
def addNone (a : Arg) : Except ArgFault Nat × Arg := (.ok 0, { a with isSet := true })

/-- `Add` with a value: the default goes first, and then the value is converted. -/
def addValue (convert : List UInt8 → Except ArgFault Value) (a : Arg) (arg : List UInt8) : Except ArgFault Nat × Arg :=
  let a := if a.useDefault then { a with args := a.args.tail, useDefault := false } else a
  match convert arg with
  | .error fault => (.error fault, a)
  | .ok value => (.ok 1, { a with args := a.args ++ [value], isSet := true })

/-- `AssertArgExists`, and the value of the argument. -/
def convertStringMap (argMap : AList (fun _ : List UInt8 => Int32)) (arg : List UInt8) : Except ArgFault Value :=
  match argMap.lookup arg with
  | none => .error .thrown
  | some id => .ok (.int id)

variable (stof : List UInt8 → Except ArgFault UInt32)

/-- `StringArg::Add`. -/
def addString (a : Arg) : List UInt8 → Except ArgFault Nat × Arg := a.addValue fun arg => .ok (.string arg)

/-- `StringMapArg::Add`. -/
def addStringMap (a : Arg) : List UInt8 → Except ArgFault Nat × Arg := a.addValue (convertStringMap a.argMap)

/-- `IntArg::Add`. -/
def addInt (a : Arg) : List UInt8 → Except ArgFault Nat × Arg := a.addValue fun arg => (stoi arg).map .int

/-- `FloatArg::Add`. -/
def addFloat (a : Arg) : List UInt8 → Except ArgFault Nat × Arg := a.addValue fun arg => (stof arg).map .float

/-- `SizeArg::Add`. -/
def addSize (a : Arg) : List UInt8 → Except ArgFault Nat × Arg := a.addValue fun arg => (toSizeArg arg).map .size

/-- The virtual `Add(std::string)`. -/
def add (a : Arg) (arg : List UInt8) : Except ArgFault Nat × Arg :=
  match a.type with
  | .kNone => (.error .thrown, a)
  | .kString => a.addString arg
  | .kStringMap => a.addStringMap arg
  | .kInt => a.addInt arg
  | .kFloat => a.addFloat stof arg
  | .kSize => a.addSize arg

/-- `GetStringOpt`, `GetIntOpt`, `GetFloatOpt` and `GetSizeOpt`: the last element of the list. -/
def getOpt (a : Arg) : Except ArgFault Value :=
  if a.isSet then
    match a.args.getLast? with
    | none => .error .undefined
    | some value => .ok value
  else .error .thrown

end Arg

/-! ## `ArgMap` -/

abbrev ArgMap := AList fun _ : List UInt8 => Arg

namespace ArgMap

variable (stof : List UInt8 → Except ArgFault UInt32)

/-- `AddOpt`. -/
def addOpt (m : ArgMap) (opt : List UInt8) (a : Arg) : ArgMap := insertNew m opt a

/-- `AddStringMapVal`. -/
def addStringMapVal (m : ArgMap) (opt val : List UInt8) (id : Int32) : Except ArgFault ArgMap :=
  match m.lookup opt with
  | none => .error .thrown
  | some a => (a.addStringMapVal val id).map fun a => m.insert opt a

/-- `arg_str`: an argument that does not start with a minus is taken for the empty name. -/
def argStr (arg : List UInt8) : List UInt8 := if arg.head? = some 45 then arg else []

/-- The loop of `ArgIter`, from an index on; what `Add` returns is added to the index. -/
def argIterFrom (m : ArgMap) : List (List UInt8) → Except ArgFault Unit × ArgMap
  | [] => (.ok (), m)
  | arg :: argv =>
    match m.lookup (argStr arg) with
    | none => (.error .thrown, m)
    | some a =>
      if a.type ≠ .kNone ∧ 0 < argv.length then
        let result := a.add stof (argv.headD [])
        match result.1 with
        | .error fault => (.error fault, m.insert (argStr arg) result.2)
        | .ok n => argIterFrom (m.insert (argStr arg) result.2) (argv.drop n)
      else if a.type = .kNone then
        let result := a.addNone
        match result.1 with
        | .error fault => (.error fault, m.insert (argStr arg) result.2)
        | .ok n => argIterFrom (m.insert (argStr arg) result.2) (argv.drop n)
      else (.error .thrown, m)
termination_by argv => argv.length
decreasing_by all_goals simp only [List.length_drop, List.length_cons]; omega

/-- `ArgIter`. -/
def argIter (m : ArgMap) (argv : List (List UInt8)) : Except ArgFault Unit × ArgMap := argIterFrom stof m (argv.drop 1)

end ArgMap

end Symbios
