import Breadbin.Cache.Entry
import Breadbin.Command.Interpreter
import Std.Time.DateTime.Timestamp

/-!
# The command line

Scripts are carried out on the files of the system, whose paths are texts here.
-/

namespace Breadbin.Outside

variable {α : Type}

/-- The cause of a failed file operation. -/
def cause : IO.Error → FileCause
  | .noFileOrDirectory .. => .missing
  | .alreadyExists .. => .alreadyThere
  | .inappropriateType _ code words =>
    if code = 20 then .notDirectory else if code = 21 then .isDirectory else .other words
  | .permissionDenied .. => .other "permission denied"
  | .invalidArgument .. => .invalid
  | e => .other (toString e)

/-- Does something to a file, and tells what went wrong. -/
def tried (operation path : String) (act : IO α) : IO (Except FileError α) := do
  try return .ok (← act)
  catch e => return .error ⟨operation, path, cause e⟩

/-- Whether a path leads to a directory. -/
def look (path : String) : IO (Except FileError Bool) :=
  tried "stat" path do
    let info ← ((← IO.currentDir) / path).metadata
    return info.type == .dir

/-- The contents of a file. -/
def read (path : String) : IO (Except FileError Bytes) := do
  match ← tried "open" path (IO.FS.readBinFile path) with
  | .ok contents => return .ok contents.toList
  | .error e => return .error (if e.cause = .isDirectory then { e with operation := "read" } else e)

/-- Writes a file, in place of the one that was there. -/
def write (path : String) (contents : Bytes) : IO (Except FileError Unit) :=
  tried "open" path (IO.FS.writeBinFile path ⟨contents.toArray⟩)

/-- Makes directories one within the other, unless they are there. -/
def makeEach : List String → IO (Except FileError Unit)
  | [] => return .ok ()
  | path :: rest => do
    match ← tried "mkdir" path (IO.FS.createDir path) with
    | .ok () => makeEach rest
    | .error e =>
      match ← look path with
      | .ok true => makeEach rest
      | _ => return .error e

/-- Makes a directory, and those it lies in. -/
def makeDirectories (path : String) : IO (Except FileError Unit) := do
  match ← look path with
  | .ok true => return .ok ()
  | .ok false => return .error ⟨"mkdir", path, .notDirectory⟩
  | .error _ => makeEach ((FileTree.ancestors (Text.bytesOf path)).map Text.shown ++ [path])

/-- The names within a directory, in order. -/
def list (path : String) : IO (List Bytes) := do
  match ← tried "open" path (((← IO.currentDir) / path).readDir) with
  | .ok entries => return (entries.toList.map fun e => Text.bytesOf e.fileName).mergeSort
  | .error _ => return []

/-- The directory of the kept images. -/
def imagesWithin (cache : String) : String := Text.Path.join [cache, "images"]

/-- What is kept under a key. -/
def fetch (cache : String) (key : Bytes) : IO (Option Cache.Payload) := do
  match ← read (Text.Path.join [imagesWithin cache, Cache.fileName key]) with
  | .ok contents => return Cache.Payload.decode? contents
  | .error _ => return none

/-- Keeps something under a key.  The file is there with all of its contents or not at all. -/
def keep (cache : String) (key : Bytes) (payload : Cache.Payload) : IO Unit := do
  let path := Text.Path.join [imagesWithin cache, Cache.fileName key]
  let unfinished := path ++ ".tmp"
  discard (makeDirectories (imagesWithin cache))
  match ← write unfinished payload.encode with
  | .ok () => discard (tried "rename" path (IO.FS.rename unfinished path))
  | .error _ => return ()

/-- Answers a request. -/
def answer (cache : Option String) : (r : Request) → IO r.Reply
  | .look path => look (Text.shown path)
  | .read path => read (Text.shown path)
  | .write path contents => write (Text.shown path) contents
  | .makeDirectories path => makeDirectories (Text.shown path)
  | .list path => list (Text.shown path)
  | .fetch key => do
    match cache with
    | some directory => fetch directory key
    | none => return none
  | .keep key payload => cache.forM (keep · key payload)
  | .tell _ => return ()
  | .print text => do (← IO.getStdout).write ⟨text.toArray⟩
  | .complain text => do (← IO.getStderr).putStr text
  | .now => return (← Std.Time.Timestamp.now).toNanosecondsSinceUnixEpoch.toInt

/-- Carries out a script. -/
def perform (cache : Option String) : Script α → IO α
  | .done a => return a
  | .ask r next => do perform cache (next (← answer cache r))

/-- A variable of the environment, if it says anything. -/
def setting? (name : String) : IO (Option String) := do
  return (← IO.getEnv name).filter (!·.isEmpty)

/-- Where images are kept. -/
def cacheDirectory : IO (Option String) := do
  match ← setting? "XDG_CACHE_HOME" with
  | some base => return some (Text.Path.join [base, "halfbyte"])
  | none => return (← setting? "HOME").map fun home => Text.Path.join [home, ".cache", "halfbyte"]

/-- Whether texts are coloured unless something else is asked for. -/
def colour : IO Bool := do
  let plain := (← setting? "NO_COLOR").isSome || (← setting? "TERM") == some "dumb"
  let terminal := (← (← IO.getStdout).isTty) && (← (← IO.getStderr).isTty)
  return !plain && terminal

end Breadbin.Outside

open Breadbin in
/-- Carries out a command; the exit code tells whether it succeeded. -/
def main (args : List String) : IO UInt32 := do
  let surroundings : Command.Surroundings :=
    { here := (← IO.currentDir).toString
      cacheDirectory := ← Outside.cacheDirectory
      colour := ← Outside.colour }
  let succeeded ← Outside.perform surroundings.cacheDirectory (Command.interpret surroundings args)
  return if succeeded then 0 else 1
