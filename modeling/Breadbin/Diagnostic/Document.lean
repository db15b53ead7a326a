import Breadbin.Text.Case
import Breadbin.Diagnostic.Basic
import Breadbin.Source.FileSet
import Breadbin.Text.Style
import Breadbin.Text.Json

/-!
# Rendering diagnostics

Diagnostics as text with an excerpt of the source, and as a document.
-/

namespace Breadbin.Diagnostic

/-!
## Reports with excerpts

A diagnostic is printed with the source lines it is about and a marker below them.
-/

/-- What a report with excerpts shows. -/
structure ExcerptOptions where
  colour : Bool := false
  /-- lines shown before the one a span starts in -/
  context : Int := 0
  /-- only the last element of a path is printed -/
  baseName : Bool := false
  notes : Bool := false

namespace ExcerptOptions

/-- A bold colour. -/
def bold (o : ExcerptOptions) (c : Text.Colour) : Text.Style := ⟨o.colour, some c, true⟩

/-- The style of notes. -/
def note (o : ExcerptOptions) : Text.Style := ⟨o.colour, some .blue, false⟩

/-- The style of line numbers and bars. -/
def gutter (o : ExcerptOptions) : Text.Style := o.bold .blue

/-- The style of a severity. -/
def severity (o : ExcerptOptions) : Severity → Text.Style
  | .error => o.bold .red
  | .warning => o.bold .yellow
  | _ => o.bold .cyan

end ExcerptOptions

/-- A path as it is printed. -/
def displayPath (baseName : Bool) (path : String) : String :=
  if baseName then Text.Path.base path else path

/-- The source lines a span is about, with a marker; nothing for a span that points nowhere. -/
def excerpt (fs : Option FileSet) (o : ExcerptOptions) (mark : Text.Style) (span : Span) : String :=
  if span = .none then ""
  else
    match fs.bind fun fs => (fs.get? span.file).map fun f => (f, fs.resolve span) with
    | none => ""
    | some (f, start, stop) =>
      let line := start.line.toNat
      let context := (UInt32.ofNat (o.context.toNat % 0x100000000)).toNat
      let first := if context < line then line - context else 1
      let width := (toString line).length
      let bar := o.gutter.apply "|"
      let margin := Text.copies width ' ' ++ " " ++ bar
      let shown := (List.range' first (line + 1 - first)).map fun n =>
        o.gutter.apply (Text.padLeft width (toString n)) ++ " " ++ bar ++ " " ++
          f.lineText n ++ "\n"
      let marked :=
        if stop.line = start.line ∧ start.column < stop.column then
          (stop.column - start.column).toNat
        else 1
      "  " ++ o.gutter.apply "-->" ++ " " ++ displayPath o.baseName f.path
        ++ s!":{line}:{start.column.toNat}\n"
        ++ margin ++ "\n"
        ++ String.join shown
        ++ margin ++ " " ++ Text.copies (start.column.toNat - 1) ' '
        ++ mark.apply ("^" ++ Text.copies (marked - 1) '~') ++ "\n"

/-- A diagnostic with its excerpt, and its notes with theirs. -/
def withExcerpt (fs : Option FileSet) (o : ExcerptOptions) (d : Diagnostic) : String :=
  let style := o.severity d.severity
  style.apply (Text.lower d.severity.text ++ "[" ++ d.code.id ++ "]") ++ ": " ++ d.message ++ "\n"
    ++ excerpt fs o style d.span
    ++ (if o.notes then
          String.join (d.notes.map fun n =>
            o.note.apply "note:" ++ " " ++ n.message ++ "\n" ++ excerpt fs o o.note n.span)
        else "")

/-- All diagnostics in order, an empty line between two. -/
def pretty (ds : List Diagnostic) (fs : Option FileSet) (o : ExcerptOptions) : String :=
  "\n".intercalate (ds.map (withExcerpt fs o))

/-!
## Reports as documents

Diagnostics for other tools: one record each, with byte offsets and, if asked for, lines and
columns.
-/

/-- What a document shows. -/
structure DocumentOptions where
  positions : Bool := false
  baseName : Bool := false
  /-- at most so many diagnostics; all when not positive -/
  most : Int := 0
  notes : Bool := false

/-- A field that is left out when it is zero. -/
def optionalField (name : String) (n : UInt32) : List (String × Text.Json) :=
  if n = 0 then [] else [(name, .nat n.toNat)]

/-- Where a span lies; nothing for a span that points nowhere. -/
def location (fs : Option FileSet) (o : DocumentOptions) (span : Span) :
    List (String × Text.Json) :=
  if span = .none then []
  else
    match fs.bind fun fs => (fs.get? span.file).map fun f => (f, fs.resolve span) with
    | none => []
    | some (f, start, stop) =>
      let path := displayPath o.baseName f.path
      let places :=
        if o.positions then
          optionalField "start_line" start.line ++ optionalField "start_col" start.column
            ++ optionalField "end_line" stop.line ++ optionalField "end_col" stop.column
        else []
      [("location", .record
        ((if path.isEmpty then [] else [("file", .string path)])
          ++ [("start_byte", .nat span.start.toNat), ("end_byte", .nat span.stop.toNat)]
          ++ places))]

/-- A diagnostic as a record. -/
def toRecord (fs : Option FileSet) (o : DocumentOptions) (d : Diagnostic) : Text.Json :=
  let notes := d.notes.map fun n =>
    Text.Json.record (("message", .string n.message) :: location fs o n.span)
  .record
    ([("severity", .string d.severity.text), ("code", .string d.code.id),
      ("title", .string d.code.title), ("message", .string d.message)]
      ++ location fs o d.span
      ++ (if o.notes && !notes.isEmpty then [("notes", .list notes)] else []))

/-- The document of some diagnostics. -/
def document (ds : List Diagnostic) (fs : Option FileSet) (o : DocumentOptions) : String :=
  let shown := if 0 < o.most then ds.take o.most.toNat else ds
  (Text.Json.record
    [("diagnostics", .list (shown.map (toRecord fs o))), ("count", .nat shown.length)]).indented
    ++ "\n"

end Breadbin.Diagnostic
