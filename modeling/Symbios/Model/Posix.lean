import Symbios.Base.Overlay
import Symbios.Model.Data

/-!
# The POSIX interception

`posix.cpp` over an ideal client: a map from file names to their bytes. `size_t` and `long int` are 64-bit machine
integers. A call on a stream that is not tracked, and `fopen` of a file that is not under a mount point, go on to the C
library and give `none`.
-/

namespace Symbios

open Overlay

/-- The modes of `fopen`. -/
inductive OpenMode where
  | r | rPlus | w | wPlus | a | aPlus
deriving DecidableEq, Repr

/-- The origins of `fseek`, and any other value of the `int`. -/
inductive Origin where
  | seekSet | seekCur | seekEnd | other
deriving DecidableEq, Repr

/-- `PosixStat`. -/
structure PosixStat where
  filename : CharStruct
  filePointer : UInt64 := 0
  fileSize : UInt64 := 0
  mode : OpenMode
  storageIndex : UInt16
deriving DecidableEq, Repr

/-- What `fopen` reads of the configuration: `CONFIGURATION_FILE` and the end points of `STORAGE_SOLUTIONS`. -/
structure MountPoints where
  configurationFile : CharStruct
  storageSolutions : List (UInt16 × IoClientType × CharStruct)

/-- The storage solution that intercepts a file name. -/
def MountPoints.intercept (conf : MountPoints) (filename : CharStruct) : Option UInt16 :=
  if conf.configurationFile.isPrefixOf filename then none
  else
    (conf.storageSolutions.find? fun solution =>
      solution.2.1 = .fileIo && solution.2.2.isPrefixOf filename).map Prod.fst

/-! ## The ideal client -/

/-- The files of the client. -/
abbrev Files := CharStruct → Option (List UInt8)

namespace Files

/-- The bytes of a file; one that is not there has none. -/
def content (files : Files) (filename : CharStruct) : List UInt8 := (files filename).getD []

/-- `Client::Size`. -/
def size (files : Files) (source : Data) : UInt64 := .ofNat (files.content source.id).length

/-- `Client::Delete`. -/
def delete (files : Files) (source : Data) : Files := Function.update files source.id none

/-- `Client::LocateRequest`: the bytes of the request that the file has. -/
def locateRequest (files : Files) (source : Data) : List UInt8 :=
  ((files.content source.id).drop source.position).take source.dataSize

/-- `Client::StoreRequest`. To store nothing changes nothing. -/
def storeRequest (files : Files) (source : List UInt8) (destination : Data) : Files :=
  if source = [] then files
  else
    Function.update files destination.id
      (some (overlay 0 (files.content destination.id) destination.position source))

end Files

/-! ## The intercepted calls -/

/-- `Posix`, and the files of the client it calls. -/
structure Posix where
  fileDescriptorMap : Nat → Option PosixStat
  files : Files

/-- The request that `fread` and `fwrite` hand to the client, unless they return -1. -/
def PosixStat.request (stat : PosixStat) (size count : UInt64) : Option Data :=
  let dataSize := size * count
  if stat.fileSize < stat.filePointer + dataSize then none
  else some { id := stat.filename, position := stat.filePointer.toNat, dataSize := dataSize.toNat }

namespace Posix

variable (s : Posix)

/-- `UpdateStat`. -/
def updateStat (fh : Nat) (stat : PosixStat) : Posix :=
  { s with fileDescriptorMap := Function.update s.fileDescriptorMap fh (some stat) }

/-- `UpdateOnOpen`. The entry it erases first is the one it assigns at the end. -/
def updateOnOpen (fh : Nat) (stat : PosixStat) : Posix :=
  let source : Data := { id := stat.filename, storageIndex := stat.storageIndex.toNat }
  let stat : PosixStat :=
    if stat.mode = .w ∨ stat.mode = .wPlus ∨ stat.mode = .r ∨ stat.mode = .rPlus then { stat with filePointer := 0 }
    else stat
  let stat : PosixStat := { stat with fileSize := s.files.size source }
  let (stat, files) : PosixStat × Files :=
    if stat.mode = .wPlus then ({ stat with fileSize := 0 }, s.files.delete source) else (stat, s.files)
  let stat : PosixStat :=
    if stat.mode = .aPlus ∨ stat.mode = .a then { stat with filePointer := stat.fileSize } else stat
  { s with files }.updateStat fh stat

/-- `UpdateOnSeek`. In the append modes the size is returned as an `int`. -/
def updateOnSeek (fh : Nat) (offset : Int64) (origin : Origin) : Int32 × Posix :=
  match s.fileDescriptorMap fh with
  | none => (-1, s)
  | some stat =>
    if stat.mode = .aPlus ∨ stat.mode = .a then (stat.fileSize.toUInt32.toInt32, s)
    else
      match origin with
      | .seekCur => (0, s.updateStat fh { stat with filePointer := stat.filePointer + offset.toUInt64 })
      | .seekSet => (0, s.updateStat fh { stat with filePointer := offset.toUInt64 })
      | .seekEnd => (0, s.updateStat fh { stat with filePointer := stat.fileSize - offset.toUInt64 })
      | .other => (0, s)

/-- `fopen`, where `fh` is the stream that `fmemopen` gives. -/
def fopen (conf : MountPoints) (fh : Nat) (filename : CharStruct) (mode : OpenMode) : Option Posix :=
  (conf.intercept filename).map fun storageIndex => s.updateOnOpen fh { filename, mode, storageIndex }

/-- `fclose`. -/
def fclose (stream : Nat) : Option (Int32 × Posix) :=
  (s.fileDescriptorMap stream).map fun _ =>
    (0, { s with fileDescriptorMap := Function.update s.fileDescriptorMap stream none })

/-- `fseek`. -/
def fseek (stream : Nat) (offset : Int64) (origin : Origin) : Option (Int32 × Posix) :=
  (s.fileDescriptorMap stream).map fun _ => s.updateOnSeek stream offset origin

/-- `fread`: the value it returns and the bytes at `ptr`. -/
def fread (size count : UInt64) (stream : Nat) : Option (UInt64 × List UInt8) :=
  (s.fileDescriptorMap stream).map fun stat =>
    match stat.request size count with
    | none => (-1, [])
    | some source =>
      let destination := s.files.locateRequest source
      if UInt64.ofNat destination.length ≠ size * count then (.ofNat destination.length, [])
      else (.ofNat destination.length, destination)

/-- `fwrite`, with the bytes at `ptr`. -/
def fwrite (ptr : List UInt8) (size count : UInt64) (stream : Nat) : Option (UInt64 × Posix) :=
  (s.fileDescriptorMap stream).map fun stat =>
    match stat.request size count with
    | none => (-1, s)
    | some destination =>
      let dataSize := size * count
      let s := { s with files := s.files.storeRequest (ptr.take destination.dataSize) destination }
      if dataSize + stat.filePointer > stat.fileSize then
        (dataSize, s.updateStat stream { stat with fileSize := dataSize + stat.filePointer })
      else (dataSize, s)

end Posix

/-- A call of the application. -/
inductive PosixCall where
  | fopen (fh : Nat) (filename : CharStruct) (mode : OpenMode)
  | fseek (stream : Nat) (offset : Int64) (origin : Origin)
  | fread (size count : UInt64) (stream : Nat)
  | fwrite (ptr : List UInt8) (size count : UInt64) (stream : Nat)
  | fclose (stream : Nat)

/-- The interception after a call. What goes on to the C library leaves it as it is. -/
def Posix.after (conf : MountPoints) (s : Posix) : PosixCall → Posix
  | .fopen fh filename mode => (s.fopen conf fh filename mode).getD s
  | .fseek stream offset origin => ((s.fseek stream offset origin).map Prod.snd).getD s
  | .fread _ _ _ => s
  | .fwrite ptr size count stream => ((s.fwrite ptr size count stream).map Prod.snd).getD s
  | .fclose stream => ((s.fclose stream).map Prod.snd).getD s

end Symbios
