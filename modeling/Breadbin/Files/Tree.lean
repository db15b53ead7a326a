import Breadbin.Text.Bytes
import Breadbin.Text.Path

/-!
# Trees of files

A tree of files is what a command finds and what it leaves behind.  Places in it are lists of names
from the root on; a path is followed name by name, and every name but the last has to be a
directory.
-/

/-! ## What goes wrong with files -/

namespace Breadbin

/-- Why a file operation cannot be done. -/
inductive FileCause where
  | missing
  | notDirectory
  | isDirectory
  | alreadyThere
  /-- a path that no file can have -/
  | invalid
  | nameTooLong
  /-- what else the system has to say -/
  | other (words : String)
  deriving DecidableEq, Repr, Inhabited

/-- The words for a cause. -/
def FileCause.words : FileCause → String
  | missing => "no such file or directory"
  | notDirectory => "not a directory"
  | isDirectory => "is a directory"
  | alreadyThere => "file exists"
  | invalid => "invalid argument"
  | nameTooLong => "file name too long"
  | other words => words

/-- A file operation that cannot be done. -/
structure FileError where
  /-- the step that failed -/
  operation : String
  path : Bytes
  cause : FileCause
  deriving DecidableEq, Repr, Inhabited

/-- What is told about it. -/
def FileError.message (e : FileError) : String :=
  e.operation ++ " " ++ Text.shown e.path ++ ": " ++ e.cause.words

end Breadbin

namespace Breadbin

/-- What can stand at a place. -/
inductive FileNode where
  | file (contents : Bytes)
  | directory
  deriving DecidableEq, Repr, Inhabited

/-- Whether it is a directory. -/
def FileNode.isDirectory : FileNode → Bool
  | directory => true
  | file _ => false

/-- Files and directories by place.  The root is a directory. -/
structure FileTree where
  nodes : List (List Bytes × FileNode) := []
  /-- where relative paths start -/
  here : List Bytes := []
  deriving Repr, Inhabited

namespace FileTree

open Text.Path Sign

/-- What stands at a place. -/
def node? (t : FileTree) (place : List Bytes) : Option FileNode :=
  if place.isEmpty then some .directory else t.nodes.lookup place

/-- Puts something at a place. -/
def set (t : FileTree) (place : List Bytes) (n : FileNode) : FileTree :=
  { t with nodes := (place, n) :: t.nodes.filter (·.1 ≠ place) }

/-- Why nothing can be looked up below a place, if so. -/
def blocked? (t : FileTree) (place : List Bytes) : Option FileCause :=
  match t.node? place with
  | none => some .missing
  | some (.file _) => some .notDirectory
  | some .directory => none

/-- The longest name a directory can hold, in bytes. -/
def longestName : Nat := 255

/-- Follows names from a place on. -/
def follow (t : FileTree) (place : List Bytes) : List Bytes → Except FileCause (List Bytes)
  | [] => .ok place
  | name :: rest =>
    match t.blocked? place with
    | some cause => .error cause
    | none =>
      if name.isEmpty || name == [dot] then t.follow place rest
      else if name == [dot, dot] then t.follow place.dropLast rest
      else if longestName < name.length then .error .nameTooLong
      else t.follow (place ++ [name]) rest

/-- The place that a path leads to; something need not stand there yet. -/
def place (t : FileTree) (path : Bytes) : Except FileCause (List Bytes) :=
  if path.isEmpty then .error .missing
  else if path.contains 0 then .error .invalid
  else t.follow (if isRooted path then [] else t.here) (split slash path)

/-- What a path leads to. -/
def look (t : FileTree) (path : Bytes) : Except FileError FileNode :=
  match t.place path with
  | .error cause => .error ⟨"stat", path, cause⟩
  | .ok place =>
    match t.node? place with
    | none => .error ⟨"stat", path, .missing⟩
    | some n => .ok n

/-- The contents of a file. -/
def read (t : FileTree) (path : Bytes) : Except FileError Bytes :=
  match t.look path with
  | .error e => .error { e with operation := "open" }
  | .ok .directory => .error ⟨"read", path, .isDirectory⟩
  | .ok (.file contents) => .ok contents

/-- Writes a file, in place of the one that was there. -/
def write (t : FileTree) (path : Bytes) (contents : Bytes) : Except FileError FileTree :=
  match t.place path with
  | .error cause => .error ⟨"open", path, cause⟩
  | .ok place =>
    match t.node? place with
    | some .directory => .error ⟨"open", path, .isDirectory⟩
    | _ => .ok (t.set place (.file contents))

/-- Makes one directory within another. -/
def makeDirectory (t : FileTree) (path : Bytes) : Except FileError FileTree :=
  match t.place (dropTrailing slash path) with
  | .error cause => .error ⟨"mkdir", path, cause⟩
  | .ok place =>
    match t.node? place with
    | some .directory => .ok t
    | some (.file _) => .error ⟨"mkdir", path, .alreadyThere⟩
    | none => .ok (t.set place .directory)

/-- The directories above a path, the outermost first, each with a slash at its end. -/
def ancestors : Bytes → List Bytes
  | [] => []
  | a :: rest =>
    let deeper := (ancestors rest).map (a :: ·)
    match rest with
    | b :: _ => if a == slash && b != slash then [slash] :: deeper else deeper
    | [] => []

/-- Makes a directory, and those it lies in. -/
def makeDirectories (t : FileTree) (path : Bytes) : Except FileError FileTree :=
  match t.look path with
  | .ok .directory => .ok t
  | .ok (.file _) => .error ⟨"mkdir", path, .notDirectory⟩
  | .error _ =>
    (ancestors path ++ [path]).foldlM
      (fun t p => if p == [slash] then .ok t else t.makeDirectory p) t

/-- The names within a directory, in order. -/
def list (t : FileTree) (path : Bytes) : List Bytes :=
  match t.place path with
  | .error _ => []
  | .ok place =>
    let names := t.nodes.filterMap fun (p, _) =>
      if p.length = place.length + 1 ∧ p.take place.length = place then p.getLast? else none
    names.mergeSort

/-- The files below a place with their paths from there as they are shown, in order. -/
def filesBelow (t : FileTree) (place : List Bytes) : List (String × Bytes) :=
  let found := t.nodes.filterMap fun (p, n) =>
    match n with
    | .file contents =>
      if p.take place.length =
        place then some (Text.shown ([slash].intercalate (p.drop place.length)), contents)
      else none
    | .directory => none
  found.mergeSort fun a b => a.1 ≤ b.1

/-- Adds a file and the directories it lies in. -/
def plant (t : FileTree) (place : List Bytes) (contents : Bytes) : FileTree :=
  let directories := (List.range (place.length - 1)).map fun i => place.take (i + 1)
  (directories.foldl (fun t p => if (t.node? p).isSome then t else t.set p .directory) t).set place
    (.file contents)

end FileTree

end Breadbin
