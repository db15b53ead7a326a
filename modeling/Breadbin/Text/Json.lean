import Breadbin.Text.Digits

/-!
# JSON documents

Documents are written compactly on one line, or indented by two spaces a level.  Characters with a
meaning in markup are escaped.
-/

namespace Breadbin.Text

/-- A document whose records keep the order of their fields. -/
inductive Json where
  | null
  | bool (b : Bool)
  | int (i : Int)
  | string (s : String)
  | list (items : List Json)
  | record (fields : List (String × Json))
  deriving Inhabited

namespace Json

/-- A natural number. -/
def nat (n : Nat) : Json := .int n

/-- The form of a character inside a string. -/
def escapedChar (c : Char) : String :=
  if c = '"' then "\\\""
  else if c = '\\' then "\\\\"
  else if c = '\n' then "\\n"
  else if c = '\r' then "\\r"
  else if c = '\t' then "\\t"
  else if c.toNat = 8 then "\\b"
  else if c.toNat = 12 then "\\f"
  else if c.toNat < 0x20 ∨ c = '<' ∨ c = '>' ∨ c = '&' ∨ c.toNat = 0x2028 ∨ c.toNat = 0x2029 then
    "\\u" ++ hexLower 4 c.toNat
  else String.singleton c

/-- A string between quotes. -/
def quoted (s : String) : String :=
  "\"" ++ String.join (s.toList.map escapedChar) ++ "\""

/-- How the parts of a list or record are set apart. -/
structure Layout where
  /-- what follows an opening and precedes a closing bracket at a depth -/
  line : Nat → String
  /-- what follows a colon -/
  gap : String

/-- Everything on one line. -/
def Layout.compact : Layout := ⟨fun _ => "", ""⟩

/-- One part a line, two spaces a level. -/
def Layout.indented : Layout := ⟨fun depth => "\n" ++ copies (2 * depth) ' ', " "⟩

/-- Parts between brackets, with nothing inside the brackets when there are none. -/
def enclose (l : Layout) (depth : Nat) (opening closing : String) (parts : List String) : String :=
  if parts.isEmpty then opening ++ closing
  else opening ++ l.line (depth + 1) ++ ("," ++ l.line (depth + 1)).intercalate parts
    ++ l.line depth ++ closing

mutual

/-- The text of a document that stands at a depth. -/
def write (l : Layout) (depth : Nat) : Json → String
  | .null => "null"
  | .bool b => if b then "true" else "false"
  | .int i => toString i
  | .string s => quoted s
  | .list items => enclose l depth "[" "]" (writeItems l (depth + 1) items)
  | .record fields => enclose l depth "\x7b" "\x7d" (writeFields l (depth + 1) fields)

/-- The texts of the items of a list. -/
def writeItems (l : Layout) (depth : Nat) : List Json → List String
  | [] => []
  | item :: rest => write l depth item :: writeItems l depth rest

/-- The texts of the fields of a record. -/
def writeFields (l : Layout) (depth : Nat) : List (String × Json) → List String
  | [] => []
  | (name, value) :: rest =>
    (quoted name ++ ":" ++ l.gap ++ write l depth value) :: writeFields l depth rest

end

/-- A document on one line. -/
def compact (j : Json) : String := write .compact 0 j

/-- A document indented by two spaces a level. -/
def indented (j : Json) : String := write .indented 0 j

end Json

end Breadbin.Text
