import Breadbin.Toml.Statement
import Breadbin.Text.Digits

/-!
# Configuration documents

The statements of a file build up one table of tables.  A table may be mentioned on the way to
another one before it gets a heading of its own, but nothing is defined twice.
-/

namespace Breadbin.Toml

/-- A value of a document. -/
inductive Value where
  | text (s : String)
  | int (n : Int)
  | float
  | bool (b : Bool)
  | moment
  | array (items : List Value)
  /-- tables under one heading, one after the other -/
  | tables (items : List (List (String × Value)))
  | table (entries : List (String × Value))
  deriving Inhabited

/-- The entries of a table. -/
abbrev Table := List (String × Value)

namespace Table

/-- Sets an entry. -/
def set (t : Table) (k : String) (v : Value) : Table :=
  match t with
  | [] => [(k, v)]
  | (k', v') :: rest => if k = k' then (k, v) :: rest else (k', v') :: Table.set rest k v

/-- Changes the table that a path leads to; of several tables under one heading, the last. -/
def changeAt (f : Table → Option Table) : (path : Key) → Table → Option Table
  | [], t => f t
  | k :: path, t =>
    match t.lookup k with
    | some (.table inner) => (changeAt f path inner).map fun x => t.set k (.table x)
    | some (.tables inners) =>
      match inners.getLast? with
      | some inner => (changeAt f path inner).map fun x =>
          t.set k (.tables (inners.dropLast ++ [x]))
      | none => none
    | _ => none

/-- Whether there is a value at a path; spelling counts. -/
def defines (t : Table) : Key → Bool
  | [] => false
  | [k] => (t.lookup k).isSome
  | k :: path =>
    match t.lookup k with
    | some (.table inner) => defines inner path
    | _ => false

end Table

/-- A document, and what is known while it is built. -/
structure Document where
  root : Table := []
  /-- every heading and key, as written -/
  keys : Array Key := #[]
  /-- the table that entries go to -/
  context : Key := []
  /-- tables that were only mentioned so far -/
  mentioned : List Key := []
  /-- keys whose value is an array -/
  arrays : List Key := []
  deriving Inhabited

namespace Document

/-- Notes that a table was only mentioned. -/
def mention (d : Document) (k : Key) : Document :=
  { d with mentioned := k :: d.mentioned.erase k }

/-- Notes whether the value of a key is an array. -/
def noteArray (d : Document) (k : Key) (isArray : Bool) : Document :=
  { d with arrays := if isArray then k :: d.arrays.erase k else d.arrays.erase k }

/-- Whether the table at a path has an entry. -/
def holds (d : Document) (path : Key) (name : String) : Bool :=
  (d.root.changeAt (fun t => if (t.lookup name).isSome then some t else none) path).isSome

/-- Puts a value into the table at a path. -/
def put (d : Document) (path : Key) (name : String) (v : Value) : Option Document :=
  (d.root.changeAt (fun t => some (t.set name v)) path).map fun root => { d with root }

/-- Sets a value in the current table.  What is there may only be an array or a table that was
merely mentioned. -/
def setValue (d : Document) (name : String) (v : Value) : Option Document :=
  let full := d.context ++ [name]
  if d.holds d.context name then
    let settled := { d with mentioned := d.mentioned.erase full }
    if d.arrays.contains full then settled.put d.context name v
    else if d.mentioned.contains full then some settled
    else none
  else d.put d.context name v

/-- Makes sure that there is something at a path, if need be a table. -/
def ensure (d : Document) (path : Key) (name : String) : Option Document :=
  if d.holds path name then some d
  else (d.put path name (.table [])).map (·.mention (path ++ [name]))

/-- Makes sure that there are tables all along a path. -/
def ensureAll (d : Document) (done : Key) : Key → Option Document
  | [] => some d
  | name :: rest => do (← d.ensure done name).ensureAll (done ++ [name]) rest

/-- Adds one more table under a heading. -/
def addTable (name : String) (t : Table) : Option Table :=
  match t.lookup name with
  | none => some (t.set name (.tables [[]]))
  | some (.tables ts) => some (t.set name (.tables (ts ++ [[]])))
  | some _ => none

/-- Makes a table the current one; `many` if there may be several under its heading. -/
def enter (d : Document) (path : Key) (many : Bool) : Option Document := do
  let parents := path.dropLast
  let name := path.getLastD ""
  let d ← d.ensureAll [] parents
  let d := { d with context := parents }
  let d ← if many then (d.root.changeAt (addTable name) parents).map fun root => { d with root }
    else d.setValue name (.table [])
  return { d with context := path }

/-- Goes to the table that the first parts of a key name. -/
def enterParts (d : Document) : Key → Option Document
  | [] => some d
  | part :: rest => do
    let path := d.context ++ [part]
    (← (d.mention path).enter path false).enterParts rest

/-- Notes a heading or a key. -/
def note (d : Document) (k : Key) : Document := { d with keys := d.keys.push k }

/-- Whether a value is an array. -/
def isArray : Value → Bool
  | .array _ => true
  | _ => false

mutual

/-- The value of a term under a name of the current table.  The entries of a table that is written
on one line go to the document right away. -/
def value (d : Document) (name : String) (inArray : Bool) : Term → Option (Value × Document)
  | .text s => some (.text s, d)
  | .int n => some (.int n, d)
  | .float => some (.float, d)
  | .bool b => some (.bool b, d)
  | .moment => some (.moment, d)
  | .array ts => do
    let (vs, d) ← (d.noteArray (d.context ++ [name]) true).values name ts
    return (.array vs, d)
  | .record es => do
    let outer := d.context
    let path := outer ++ [name]
    let d ← (d.mention path).enter path inArray
    let d ← d.addAll es
    return (.table [], { d with context := outer })

/-- The values of the items of an array. -/
def values (d : Document) (name : String) : List Term → Option (List Value × Document)
  | [] => some ([], d)
  | t :: ts => do
    let (v, d) ← d.value name true t
    let (vs, d) ← d.values name ts
    return (v :: vs, d)

/-- Adds entries to the current table. -/
def addAll (d : Document) : List (Key × Term) → Option Document
  | [] => some d
  | (k, t) :: es => do
    let outer := d.context
    let name := k.getLastD ""
    let d ← d.enterParts k.dropLast
    let d := d.note (d.context ++ [name])
    let (v, d) ← d.value name false t
    let d ← d.setValue name v
    { d.noteArray (d.context ++ [name]) (isArray v) with context := outer }.addAll es

end

/-- What a statement adds to a document. -/
def step (d : Document) : Statement → Option Document
  | .table k => do return ((← d.enter k false).noteArray k false).note k
  | .tableOfArray k => do return ((← d.enter k true).noteArray k false).note k
  | .entry k t => d.addAll [(k, t)]

end Document

/-- The document of a file. -/
def document? (file : Bytes) : Option Document := do
  (← parse? file).foldlM Document.step {}

/-- The text of a character within quotes. -/
def quotedChar (c : Char) : String :=
  match c with
  | '"' => "\\\""
  | '\\' => "\\\\"
  | '\x08' => "\\b"
  | '\t' => "\\t"
  | '\n' => "\\n"
  | '\x0c' => "\\f"
  | '\r' => "\\r"
  | _ => if c.toNat < 0x20 || c.toNat = 0x7F then "\\u" ++ Text.hexLower 4 c.toNat
      else String.singleton c

/-- A key as it may be written: a part is quoted if it has to be. -/
def Key.text (k : Key) : String :=
  ".".intercalate (k.map fun part =>
    if !part.isEmpty && part.all isKeyChar then part
    else "\"" ++ String.join (part.toList.map quotedChar) ++ "\"")

end Breadbin.Toml
