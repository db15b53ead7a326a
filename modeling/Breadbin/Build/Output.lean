import Breadbin.Build.Outcome
import Breadbin.Disk.Files
import Breadbin.Manifest.Settings

/-!
# Writing images

Every image is written to a program file of its own, or all of them to one disk.
-/

namespace Breadbin.Build

/-- Why one image cannot be written. -/
inductive WriteCause where
  | file (e : FileError)
  | storage (e : StorageError)
  deriving DecidableEq, Repr

/-- What is told about it. -/
def WriteCause.message : WriteCause → String
  | file e => e.message
  | storage e => e.message

/-- Why output is missing. -/
inductive OutputError where
  /-- the directory or the disk cannot be written -/
  | file (e : FileError)
  | unknownFormat (format : String)
  /-- the images of some files are missing -/
  | missing (causes : List (Bytes × WriteCause))
  deriving DecidableEq, Repr

/-- What is told about it. -/
def OutputError.message : OutputError → String
  | file e => e.message
  | unknownFormat format =>
    "unknown output format " ++ Text.quotedText format ++ " (expected prg|d64)"
  | missing causes =>
    "\n".intercalate (causes.map fun (path, cause) => Text.shown path ++ ": " ++ cause.message)

/-- The files that were written, by their paths, and why others were not. -/
structure Written where
  files : List Bytes := []
  error : Option OutputError := none
  deriving Inhabited

/-- The paths as they are shown. -/
def Written.paths (w : Written) : List String := w.files.map Text.shown

/-- The path of the program file for a name. -/
def programPath (directory : String) (name : Bytes) : Bytes :=
  Text.Path.joined [Text.bytesOf directory, name ++ Text.bytesOf ".prg"]

/-- Writes one image to its program file. -/
def writeProgramFile (directory : String) (o : Outcome) (image : Image) :
    Work (Except WriteCause Bytes) := do
  match (Prg.ofImage image).toBytes with
  | .error e => return .error (.storage e)
  | .ok contents =>
    let path := programPath directory o.name
    match ← Work.ask (.write path contents) with
    | .error e => return .error (.file e)
    | .ok () => return .ok path

/-- Writes every image to a program file of its own. -/
def writeProgramFiles (directory : String) :
    List Outcome → Work (List Bytes × List (Bytes × WriteCause))
  | [] => return ([], [])
  | o :: rest => do
    match o.image? with
    | none => writeProgramFiles directory rest
    | some image =>
      Work.tell { file := Text.shown o.path, stage := .write, status := .working }
      match ← writeProgramFile directory o image with
      | .ok path =>
        Work.tell { file := Text.shown o.path, stage := .write, status := .done }
        let (files, causes) ← writeProgramFiles directory rest
        return (path :: files, causes)
      | .error cause =>
        Work.tell
          { file := Text.shown o.path, stage := .write, status := .failed
            error := some cause.message }
        let (files, causes) ← writeProgramFiles directory rest
        return (files, (o.path, cause) :: causes)

/-- Adds every image to a disk.  The first one that does not fit ends it. -/
def fillDisk (d : Disk) : List Outcome → Work (Except (Bytes × WriteCause) Disk)
  | [] => return .ok d
  | o :: rest => do
    match o.image? with
    | none => fillDisk d rest
    | some image =>
      match d.addPrg o.name (.ofImage image) with
      | (_, .error e) =>
        Work.tell
          { file := Text.shown o.path, stage := .write, status := .failed
            error := some e.message }
        return .error (o.path, .storage e)
      | (d, .ok ()) =>
        Work.tell { file := Text.shown o.path, stage := .write, status := .done }
        fillDisk d rest

/-- The name, and what stands for it if there is none. -/
def orElse (name default : String) : String := if name.isEmpty then default else name

/-- Writes all images to one disk; none at all make no disk. -/
def writeDisk (out : Output) (directory : String) (outcomes : List Outcome) : Work Written := do
  let name := orElse out.diskName "halfbyte"
  let blank := Disk.format (Text.bytesOf name) (Text.bytesOf (orElse out.diskId "hb"))
  match ← fillDisk blank outcomes with
  | .error cause => return { error := some (.missing [cause]) }
  | .ok d =>
    if outcomes.all (·.failed) then return {}
    let path := Text.Path.joined [Text.bytesOf directory, Text.bytesOf (Text.lower name ++ ".d64")]
    match ← Work.ask (.write path d.toBytes) with
    | .error e => return { error := some (.file e) }
    | .ok () => return { files := [path] }

/-- Writes the images of the outcomes that have one. -/
def writeOutcomes (out : Output) (outcomes : List Outcome) : Work Written := do
  let directory := orElse out.directory "."
  match ← Work.ask (.makeDirectories directory) with
  | .error e => return { error := some (.file e) }
  | .ok () =>
    let format := Text.lower out.format
    if format = "" ∨ format = "prg" then
      let (files, causes) ← writeProgramFiles directory outcomes
      return { files, error := if causes.isEmpty then none else some (.missing causes) }
    else if format = "d64" then writeDisk out directory outcomes
    else return { error := some (.unknownFormat out.format) }

end Breadbin.Build
