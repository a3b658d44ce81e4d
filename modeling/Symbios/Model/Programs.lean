import Symbios.Model.Arguments

/-!
# The options of the programs

`BenchmarkArgs` of the benchmark and `ReplayArgs` of the replay applications: the options they register, what
`VerifyArgs` asserts, and what `main` and the functions it calls then read of them. A getter throws for an option that
is not set or has another class.
-/

namespace Symbios

/-- The bytes of a literal. -/
def literal (s : String) : List UInt8 := s.toList.map fun c => .ofNat c.toNat

/-! ## Getters -/

/-- `GetStringOpt`; only a `StringArg` has it. -/
def Arg.getStringOpt (a : Arg) : Except ArgFault (List UInt8) :=
  if a.type = .kString then
    match a.getOpt with
    | .ok (.string s) => .ok s
    | .ok _ => .error .undefined
    | .error fault => .error fault
  else .error .thrown

/-- `GetIntOpt`, of a `StringMapArg` and of an `IntArg`. -/
def Arg.getIntOpt (a : Arg) : Except ArgFault Int32 :=
  if a.type = .kStringMap ∨ a.type = .kInt then
    match a.getOpt with
    | .ok (.int i) => .ok i
    | .ok _ => .error .undefined
    | .error fault => .error fault
  else .error .thrown

/-- `GetFloatOpt`. -/
def Arg.getFloatOpt (a : Arg) : Except ArgFault UInt32 :=
  if a.type = .kFloat then
    match a.getOpt with
    | .ok (.float bits) => .ok bits
    | .ok _ => .error .undefined
    | .error fault => .error fault
  else .error .thrown

/-- `GetSizeOpt`. -/
def Arg.getSizeOpt (a : Arg) : Except ArgFault UInt64 :=
  if a.type = .kSize then
    match a.getOpt with
    | .ok (.size n) => .ok n
    | .ok _ => .error .undefined
    | .error fault => .error fault
  else .error .thrown

namespace ArgMap

/-- `OptIsSet`. -/
def optIsSet (m : ArgMap) (opt : List UInt8) : Bool :=
  match m.lookup opt with
  | none => false
  | some a => a.isSet

/-- `AssertOptIsSet`. -/
def assertOptIsSet (m : ArgMap) (opt : List UInt8) : Except ArgFault Unit :=
  if m.optIsSet opt then .ok () else .error .thrown

/-- A getter of the map: the option is asserted first. -/
def getOpt {α : Type} (get : Arg → Except ArgFault α) (m : ArgMap) (opt : List UInt8) : Except ArgFault α :=
  match m.lookup opt with
  | none => .error .thrown
  | some a => if a.isSet then get a else .error .thrown

def getStringOpt : ArgMap → List UInt8 → Except ArgFault (List UInt8) := getOpt Arg.getStringOpt

def getIntOpt : ArgMap → List UInt8 → Except ArgFault Int32 := getOpt Arg.getIntOpt

def getFloatOpt : ArgMap → List UInt8 → Except ArgFault UInt32 := getOpt Arg.getFloatOpt

def getSizeOpt : ArgMap → List UInt8 → Except ArgFault UInt64 := getOpt Arg.getSizeOpt

/-- An option that is read where it is set. -/
def getOptional {α : Type} (get : ArgMap → List UInt8 → Except ArgFault α) (m : ArgMap) (opt : List UInt8) :
    Except ArgFault (Option α) :=
  if m.optIsSet opt then some <$> get m opt else .ok none

/-- A constructor of a program's class: `ArgIter`, and then `VerifyArgs`. -/
def construct (stof : List UInt8 → Except ArgFault UInt32) (options : Except ArgFault ArgMap)
    (verifyArgs : ArgMap → Except ArgFault Unit) (argv : List (List UInt8)) : Except ArgFault ArgMap := do
  let m ← options
  match m.argIter stof argv with
  | (.error fault, _) => .error fault
  | (.ok (), m) =>
    verifyArgs m
    return m

end ArgMap

/-! ## `ReplayArgs` -/

namespace ReplayArgs

/-- The options. -/
def options : Except ArgFault ArgMap := do
  let m := ArgMap.addOpt ∅ (literal "-m") { type := .kStringMap }
  let m ← m.addStringMapVal (literal "-m") (literal "POSIX") 0
  let m ← m.addStringMapVal (literal "-m") (literal "IRIS") 1
  let m ← m.addStringMapVal (literal "-m") (literal "NIOBE") 2
  let m ← m.addStringMapVal (literal "-m") (literal "SYMBIOS") 3
  let m := m.addOpt (literal "-s") { type := .kStringMap }
  let m ← m.addStringMapVal (literal "-s") (literal "FILE") 0
  let m ← m.addStringMapVal (literal "-s") (literal "MONGO") 2
  let m ← m.addStringMapVal (literal "-s") (literal "REDIS") 1
  let m := m.addOpt (literal "-t") { type := .kString }
  let m := m.addOpt (literal "-o") { type := .kString }
  let m := m.addOpt (literal "-f") { type := .kString }
  let m := m.addOpt (literal "-out") { type := .kString }
  let m := m.addOpt (literal "-r") { type := .kInt }
  return m.addOpt (literal "-c") { type := .kInt }

/-- `VerifyArgs`. -/
def verifyArgs (m : ArgMap) : Except ArgFault Unit := do
  m.assertOptIsSet (literal "-r")
  m.assertOptIsSet (literal "-m")
  m.assertOptIsSet (literal "-s")
  m.assertOptIsSet (literal "-t")
  m.assertOptIsSet (literal "-o")
  m.assertOptIsSet (literal "-c")
  m.assertOptIsSet (literal "-f")

/-- `ReplayArgs`. -/
def construct (stof : List UInt8 → Except ArgFault UInt32) : List (List UInt8) → Except ArgFault ArgMap :=
  ArgMap.construct stof options verifyArgs

/-- What `main` reads. -/
structure Read where
  reps : Int32
  mode : Int32
  storType : Int32
  chunk : Int32
  tracePath : List UInt8
  outputPath : List UInt8
  symbiosConf : List UInt8
  out : Option (List UInt8)
deriving DecidableEq

/-- The getters of `main`; `-out` is read on rank 0. -/
def main (m : ArgMap) (rank : Nat) : Except ArgFault Read := do
  let reps ← m.getIntOpt (literal "-r")
  let mode ← m.getIntOpt (literal "-m")
  let storType ← m.getIntOpt (literal "-s")
  let chunk ← m.getIntOpt (literal "-c")
  let tracePath ← m.getStringOpt (literal "-t")
  let outputPath ← m.getStringOpt (literal "-o")
  let symbiosConf ← m.getStringOpt (literal "-f")
  let out ← if rank = 0 then m.getOptional ArgMap.getStringOpt (literal "-out") else .ok none
  return { reps, mode, storType, chunk, tracePath, outputPath, symbiosConf, out }

end ReplayArgs

/-! ## `BenchmarkArgs` -/

namespace BenchmarkArgs

/-- The options. -/
def options : Except ArgFault ArgMap := do
  let m := ArgMap.addOpt ∅ (literal "-w") { type := .kStringMap }
  let m ← m.addStringMapVal (literal "-w") (literal "prealloc") 0
  let m ← m.addStringMapVal (literal "-w") (literal "io-only") 1
  let m ← m.addStringMapVal (literal "-w") (literal "md-fs") 2
  let m := m.addOpt (literal "-s") { type := .kStringMap }
  let m ← m.addStringMapVal (literal "-s") (literal "orangefs") 0
  let m ← m.addStringMapVal (literal "-s") (literal "mongodb") 1
  let m ← m.addStringMapVal (literal "-s") (literal "redis") 2
  let m := m.addOpt (literal "-caddr") { type := .kString }
  let m := m.addOpt (literal "-cport") (.withDefault .kInt (.int 0))
  let m := m.addOpt (literal "-p") { type := .kSize }
  let m := m.addOpt (literal "-path") { type := .kString }
  let m := m.addOpt (literal "-config") { type := .kString }
  let m := m.addOpt (literal "-rfrac") { type := .kFloat }
  let m := m.addOpt (literal "-wfrac") { type := .kFloat }
  let m := m.addOpt (literal "-bs") { type := .kSize }
  let m := m.addOpt (literal "-fs") { type := .kSize }
  let m := m.addOpt (literal "-tot") { type := .kSize }
  let m := m.addOpt (literal "-ap") { type := .kStringMap }
  let m ← m.addStringMapVal (literal "-ap") (literal "seq") 0
  let m ← m.addStringMapVal (literal "-ap") (literal "uniform") 4
  let m := m.addOpt (literal "-md_depth") { type := .kInt }
  let m := m.addOpt (literal "-md_fcnt") { type := .kSize }
  let m := m.addOpt (literal "-direct") {}
  let m := m.addOpt (literal "-out") { type := .kString }
  return m.addOpt (literal "-seed") { type := .kInt }

/-- The first `switch` of `VerifyArgs`. -/
def verifyStorageService (m : ArgMap) (storageService : Int32) : Except ArgFault Unit :=
  if storageService = 0 then m.assertOptIsSet (literal "-caddr")
  else if storageService = 1 ∨ storageService = 2 then do
    m.assertOptIsSet (literal "-caddr")
    m.assertOptIsSet (literal "-cport")
  else .ok ()

/-- The end of a case of the second `switch`. -/
def verifyOut (m : ArgMap) : Except ArgFault Unit :=
  if m.optIsSet (literal "-out") then m.assertOptIsSet (literal "-config") else .ok ()

/-- The second `switch` of `VerifyArgs`. -/
def verifyWorkload (m : ArgMap) (workload : Int32) : Except ArgFault Unit :=
  if workload = 0 then do
    m.assertOptIsSet (literal "-path")
    m.assertOptIsSet (literal "-fs")
  else if workload = 1 then do
    m.assertOptIsSet (literal "-path")
    m.assertOptIsSet (literal "-rfrac")
    m.assertOptIsSet (literal "-wfrac")
    m.assertOptIsSet (literal "-bs")
    m.assertOptIsSet (literal "-fs")
    m.assertOptIsSet (literal "-tot")
    verifyOut m
  else if workload = 2 then do
    m.assertOptIsSet (literal "-md_depth")
    m.assertOptIsSet (literal "-md_fcnt")
    m.assertOptIsSet (literal "-path")
    verifyOut m
  else .ok ()

/-- `VerifyArgs`. -/
def verifyArgs (m : ArgMap) : Except ArgFault Unit := do
  m.assertOptIsSet (literal "-s")
  let storageService ← m.getIntOpt (literal "-s")
  verifyStorageService m storageService
  m.assertOptIsSet (literal "-w")
  let workload ← m.getIntOpt (literal "-w")
  verifyWorkload m workload

/-- `BenchmarkArgs`. -/
def construct (stof : List UInt8 → Except ArgFault UInt32) : List (List UInt8) → Except ArgFault ArgMap :=
  ArgMap.construct stof options verifyArgs

/-- `IOClientType` of the benchmark. -/
inductive IoClientType where
  | kOrangefs | kMongo | kRedis
deriving DecidableEq

/-- `IOClientFactory::Get`. The function has no end behind its `switch`. -/
def getIoClient (type : Int32) : Except ArgFault IoClientType :=
  if type = 0 then .ok .kOrangefs
  else if type = 1 then .ok .kMongo
  else if type = 2 then .ok .kRedis
  else .error .undefined

/-- What `create_dist` reads: the access pattern, and the seed of a uniform one. -/
def createDist (m : ArgMap) : Except ArgFault (Int32 × Option Int32) := do
  let accessPattern ← m.getOptional ArgMap.getIntOpt (literal "-ap")
  let accessPattern := accessPattern.getD 0
  let seed ← if accessPattern = 4 then m.getOptional ArgMap.getIntOpt (literal "-seed") else .ok none
  return (accessPattern, seed)

/-- What `io_stats` and `md_stats` read: on rank 0 the configuration and the output. -/
def stats (m : ArgMap) (rank : Nat) : Except ArgFault (Option (List UInt8 × List UInt8)) :=
  if m.optIsSet (literal "-out") then
    if rank = 0 then do
      let conf ← m.getStringOpt (literal "-config")
      let outputPath ← m.getStringOpt (literal "-out")
      return some (conf, outputPath)
    else .ok none
  else .ok none

/-- What the chosen workload reads. -/
inductive Workload where
  | prealloc (path : List UInt8) (fileSize : UInt64)
  | ioOnlyFs (path : List UInt8) (rfrac wfrac : UInt32) (blockSize fileSize totBytes : UInt64) (direct : Bool)
    (dist : Int32 × Option Int32) (stats : Option (List UInt8 × List UInt8))
  | mdFs (fcnt : UInt64) (depth : Int32) (path : List UInt8) (stats : Option (List UInt8 × List UInt8))
  | none
deriving DecidableEq

/-- `prealloc`, `io_file_workload` and `md_fs_workload`. -/
def workload (m : ArgMap) (rank : Nat) (workload : Int32) : Except ArgFault Workload :=
  if workload = 0 then do
    let path ← m.getStringOpt (literal "-path")
    let fileSize ← m.getSizeOpt (literal "-fs")
    return .prealloc path fileSize
  else if workload = 1 then do
    let path ← m.getStringOpt (literal "-path")
    let rfrac ← m.getFloatOpt (literal "-rfrac")
    let wfrac ← m.getFloatOpt (literal "-wfrac")
    let blockSize ← m.getSizeOpt (literal "-bs")
    let fileSize ← m.getSizeOpt (literal "-fs")
    let totBytes ← m.getSizeOpt (literal "-tot")
    let direct := m.optIsSet (literal "-direct")
    let dist ← createDist m
    let stats ← stats m rank
    return .ioOnlyFs path rfrac wfrac blockSize fileSize totBytes direct dist stats
  else if workload = 2 then do
    let fcnt ← m.getSizeOpt (literal "-md_fcnt")
    let depth ← m.getIntOpt (literal "-md_depth")
    let path ← m.getStringOpt (literal "-path")
    let stats ← stats m rank
    return .mdFs fcnt depth path stats
  else return .none

/-- `main`: the storage client and where it is, and the workload. -/
def main (m : ArgMap) (rank : Nat) : Except ArgFault (IoClientType × List UInt8 × Int32 × Workload) := do
  let storageService ← m.getIntOpt (literal "-s")
  let io ← getIoClient storageService
  let addr ← m.getStringOpt (literal "-caddr")
  let port ← m.getIntOpt (literal "-cport")
  let workload ← workload m rank (← m.getIntOpt (literal "-w"))
  return (io, addr, port, workload)

end BenchmarkArgs

end Symbios
