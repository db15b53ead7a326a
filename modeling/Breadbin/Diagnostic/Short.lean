import Breadbin.Diagnostic.Basic
import Breadbin.Source.FileSet
import Breadbin.Text.Case

/-!
# One-line reports

Every diagnostic, and every note if asked for, becomes one line; the lines are sorted by path, line,
column, severity and code.
-/

namespace Breadbin.Diagnostic

/-- One line of a report. -/
structure Entry where
  label : String
  code : String
  position : Position
  message : String

namespace Entry

/-- The entry for a message at a span; an unknown file leaves the place open. -/
def ofSpan (fs : Option FileSet) (label : String) (code : Code) (span : Span) (message : String) :
    Entry :=
  { label, code := code.id, message := Text.oneLine message
    position := (fs.bind (·.position? span)).getD {} }

/-- Whether one entry stands before another. -/
def before (x y : Entry) : Bool :=
  if x.position.path ≠ y.position.path then x.position.path < y.position.path
  else if x.position.place.line ≠ y.position.place.line then
    x.position.place.line < y.position.place.line
  else if x.position.place.column ≠ y.position.place.column then
    x.position.place.column < y.position.place.column
  else if x.label ≠ y.label then x.label < y.label
  else x.code < y.code

def text (e : Entry) : String :=
  let place := if e.position.path.isEmpty then "-" else e.position.text
  s!"{e.label} {e.code} {place} {e.message}"

end Entry

/-- The entries of a diagnostic. -/
def entries (fs : Option FileSet) (withNotes : Bool) (d : Diagnostic) : List Entry :=
  Entry.ofSpan fs d.severity.label d.code d.span d.message ::
    (if withNotes then d.notes.map fun n => Entry.ofSpan fs "note" d.code n.span n.message else [])

/-- One line for each diagnostic, sorted. -/
def short (ds : List Diagnostic) (fs : Option FileSet) (withNotes : Bool) : String :=
  let all := ds.flatMap (entries fs withNotes)
  "\n".intercalate ((all.mergeSort fun x y => !Entry.before y x).map Entry.text)

end Breadbin.Diagnostic
