import Breadbin.Toml.Document
import Breadbin.Text.Case

/-!
# Project manifests

A project has a manifest with four tables: the package, the target, the output and the build.  Keys
are recognised in any case, but only those in lower case count as given.
-/

namespace Breadbin

/-- What a manifest says.  A value that is not given is the empty one of its kind; those that have
to be given to count are optional. -/
structure Manifest where
  name : String := ""
  targetName : Option String := none
  loadAddress : Option UInt16 := none
  startLine : Option Bool := none
  variableBase : Option UInt16 := none
  variableLimit : Option UInt16 := none
  format : String := ""
  directory : String := ""
  diskName : String := ""
  diskId : String := ""
  mostDiagnostics : Option Int := none
  cache : Bool := false
  deriving DecidableEq, Repr, Inhabited

namespace Manifest

/-- The name of a manifest's file. -/
def fileName : String := "halfbyte.toml"

/-- Why a file is no manifest. -/
inductive ReadError where
  /-- it cannot be read, or a value has the wrong kind -/
  | malformed (detail : String)
  | missingName
  | unknownKey (key : Toml.Key)
  deriving DecidableEq, Repr, Inhabited

/-- The kinds of values. -/
inductive FieldKind where
  | text
  | address
  | flag
  | int
  deriving DecidableEq, Repr

/-- The tables of a manifest and what they hold. -/
def fields : List (String × List (String × FieldKind)) :=
  [("package", [("name", .text)]),
    ("target", [("name", .text), ("load_address", .address), ("basic_stub", .flag),
      ("var_base", .address), ("var_limit", .address)]),
    ("output", [("format", .text), ("dir", .text), ("disk_name", .text), ("disk_id", .text)]),
    ("build", [("max_diagnostics", .int), ("cache", .flag)])]

/-- A letter for comparison without regard to case: the long s and the kelvin sign count as letters
of the plain alphabet. -/
def foldedChar (c : Char) : Char :=
  if c.toNat = 0x17F then 's' else if c.toNat = 0x212A then 'k' else c.toLower

/-- Finds what a key names, in any case. -/
def named? {α : Type} (choices : List (String × α)) (key : String) : Option (String × α) :=
  let folded := key.map foldedChar
  choices.find? (·.1 == folded)

/-- Whether a value is of a kind. -/
def FieldKind.admits : FieldKind → Toml.Value → Bool
  | text, .text _ => true
  | address, .int n => 0 ≤ n && n < 65536
  | flag, .bool _ => true
  | int, .int _ => true
  | _, _ => false

/-- The recognised values of one table, under their names in lower case. -/
def tableValues? (choices : List (String × FieldKind)) (t : Toml.Table) :
    Option (List (String × Toml.Value)) :=
  (t.filterMap fun (k, v) => (named? choices k).map fun (name, kind) => (name, kind, v)).mapM
    fun (name, kind, v) => if kind.admits v then some (name, v) else none

/-- The recognised values of a document, each with its table. -/
def values? (root : Toml.Table) : Option (List ((String × String) × Toml.Value)) := do
  let sections ← (root.filterMap fun (k, v) => (named? fields k).map fun s => (s, v)).mapM
    fun ((name, choices), v) =>
      match v with
      | .table t => (tableValues? choices t).map fun vs => vs.map fun (k, v) => ((name, k), v)
      | _ => none
  return sections.flatten

/-- Whether a key is one of a manifest. -/
def isKnown : Toml.Key → Bool
  | [table] => (named? fields table).isSome
  | [table, key] => (named? fields table).any fun (_, choices) => (named? choices key).isSome
  | _ => false

/-- The manifest of a document. -/
def ofDocument (d : Toml.Document) : Except ReadError Manifest :=
  match values? d.root with
  | none => .error (.malformed "a value has the wrong type")
  | some values =>
    let value (table key : String) : Option Toml.Value :=
      (values.reverse.find? (·.1 == (table, key))).map (·.2)
    let given (table key : String) : Option Toml.Value :=
      if d.root.defines [table, key] then value table key else none
    let text : Option Toml.Value → String
      | some (.text s) => s
      | _ => ""
    let address : Toml.Value → UInt16
      | .int n => .ofNat n.toNat
      | _ => 0
    let isTrue : Toml.Value → Bool
      | .bool b => b
      | _ => false
    let number : Toml.Value → Int
      | .int n => n
      | _ => 0
    let name := text (given "package" "name")
    if (Text.trim name).isEmpty then .error .missingName
    else
      match d.keys.toList.find? (!isKnown ·) with
      | some key => .error (.unknownKey key)
      | none =>
        .ok
          { name
            targetName := (given "target" "name").map (text ∘ some)
            loadAddress := (given "target" "load_address").map address
            startLine := (given "target" "basic_stub").map isTrue
            variableBase := (given "target" "var_base").map address
            variableLimit := (given "target" "var_limit").map address
            format := text (value "output" "format")
            directory := text (value "output" "dir")
            diskName := text (value "output" "disk_name")
            diskId := text (value "output" "disk_id")
            mostDiagnostics := (given "build" "max_diagnostics").map number
            cache := (value "build" "cache").any isTrue }

/-- Reads the contents of a manifest's file. -/
def parse (file : Bytes) : Except ReadError Manifest :=
  match Toml.document? file with
  | none => .error (.malformed "the text is not well formed")
  | some d => ofDocument d

/-- What is told about a file that is no manifest. -/
def ReadError.message : ReadError → String
  | malformed detail => "failed to parse TOML: " ++ detail
  | missingName => "missing [package].name"
  | unknownKey key => "unknown key " ++ key.text

end Manifest

end Breadbin
