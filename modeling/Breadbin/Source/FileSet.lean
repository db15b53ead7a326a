import Breadbin.Text.Bytes
import Breadbin.Text.Path

/-!
# Source files

Stretches of source text, and the set of files they lie in.
-/

namespace Breadbin

/-!
## Spans

A span is a half-open range of bytes within one source file.
-/

/-- Bytes from `start` up to but not including `stop` of a file. -/
structure Span where
  file : UInt32 := 0
  start : UInt32 := 0
  stop : UInt32 := 0
  deriving DecidableEq, Repr, Inhabited

namespace Span

/-- The span of what stands nowhere in a source. -/
def none : Span := {}

def isEmpty (s : Span) : Bool := s.start == s.stop

/-- The number of bytes. -/
def length (s : Span) : UInt32 := s.stop - s.start

def text (s : Span) : String :=
  s!"{s.file.toNat}:{s.start.toNat}-{s.stop.toNat}"

/-- The smallest span that contains both; spans of another file are left out. -/
def cover (s other : Span) : Span :=
  if s.file ≠ other.file then s
  else { s with start := min s.start other.start, stop := max s.stop other.stop }

end Span

/-!
## Source files

A file set owns the sources that spans point into.  Adding a path again adds a new version; the
older one stays readable.
-/

/-- What is known about where a source came from. -/
structure SourceFlags where
  inMemory : Bool := false
  hadByteOrderMark : Bool := false
  hadCarriageReturns : Bool := false
  deriving DecidableEq, Repr, Inhabited

/-- The flags as bits, the first one lowest. -/
def SourceFlags.bits (f : SourceFlags) : Nat :=
  (if f.inMemory then 1 else 0) + (if f.hadByteOrderMark then 2 else 0)
    + (if f.hadCarriageReturns then 4 else 0)

/-- A source with the offsets of its line ends. -/
structure SourceFile where
  path : String
  content : Bytes
  lineEnds : List UInt32
  flags : SourceFlags
  deriving Repr, Inhabited

/-- A line and a column, both counted from one; zero where a place is unknown. -/
structure LineColumn where
  line : UInt32 := 0
  column : UInt32 := 0
  deriving DecidableEq, Repr, Inhabited

/-- A place in a named source. -/
structure Position where
  path : String := ""
  place : LineColumn := {}
  deriving DecidableEq, Repr, Inhabited

def Position.text (p : Position) : String :=
  s!"{p.path}:{p.place.line.toNat}:{p.place.column.toNat}"

/-- The offsets of the line feeds, `offset` being that of the first byte. -/
def lineEndsFrom (content : Bytes) : List UInt32 :=
  (content.foldl (fun (acc : Nat × List UInt32) b =>
    (acc.1 + 1, if b == 0x0A then UInt32.ofNat acc.1 :: acc.2 else acc.2)) (0, [])).2.reverse

/-- The place of an offset: the line is one more than the number of line ends before it. -/
def LineColumn.ofOffset (lineEnds : List UInt32) (offset : UInt32) : LineColumn :=
  let before := lineEnds.takeWhile (· < offset)
  let start := (before.getLast?.map (· + 1)).getD 0
  ⟨UInt32.ofNat (before.length + 1), offset - start + 1⟩

/-- Drops every carriage return that stands right before a line feed. -/
def joinLineEnds : Bytes → Bytes
  | [] => []
  | b :: rest =>
    if b = 0x0D ∧ rest.head? = some 0x0A then joinLineEnds rest else b :: joinLineEnds rest

namespace SourceFile

/-- A source held in memory. -/
def ofMemory (path : String) (content : Bytes) : SourceFile :=
  { path := Text.Path.clean path, content, lineEnds := lineEndsFrom content
    flags := { inMemory := true } }

/-- A source read from storage: a byte order mark in front is dropped, and line ends are joined. -/
def ofStored (path : String) (raw : Bytes) : SourceFile :=
  let (marked, body) :=
    match raw with
    | 0xEF :: 0xBB :: 0xBF :: rest => (true, rest)
    | _ => (false, raw)
  let content := joinLineEnds body
  { path := Text.Path.clean path, content, lineEnds := lineEndsFrom content
    flags := { hadByteOrderMark := marked, hadCarriageReturns := content.length != body.length } }

/-- The bytes of a line, counted from one, without its end and with tabs as single spaces. -/
def lineBytes (f : SourceFile) (line : Nat) : Bytes :=
  let lo := if 1 < line then (f.lineEnds[line - 2]?.map (·.toNat + 1)).getD 0 else 0
  let hi := (f.lineEnds[line - 1]?.map (·.toNat)).getD f.content.length
  if hi < lo then []
  else ((f.content.drop lo).take (hi - lo)).map fun b => if b == 0x09 then 0x20 else b

/-- A line as it is shown. -/
def lineText (f : SourceFile) (line : Nat) : String := Text.shown (f.lineBytes line)

end SourceFile

/-- Source files by number, in the order they were added. -/
structure FileSet where
  files : Array SourceFile := #[]
  deriving Repr, Inhabited

namespace FileSet

/-- Adds a source; its number is the count of sources before it. -/
def add (fs : FileSet) (f : SourceFile) : FileSet × Nat :=
  (⟨fs.files.push f⟩, fs.files.size)

def size (fs : FileSet) : Nat := fs.files.size

/-- The source with a number. -/
def get? (fs : FileSet) (id : UInt32) : Option SourceFile :=
  fs.files[id.toNat]?

/-- The number of the latest version of a path. -/
def latest? (fs : FileSet) (path : String) : Option Nat :=
  let p := Text.Path.clean path
  (fs.files.toList.zipIdx.filter fun f => f.1.path == p).getLast?.map (·.2)

/-- The places of both ends of a span; unknown places where the file is unknown. -/
def resolve (fs : FileSet) (s : Span) : LineColumn × LineColumn :=
  match fs.get? s.file with
  | none => ({}, {})
  | some f => (.ofOffset f.lineEnds s.start, .ofOffset f.lineEnds s.stop)

/-- Where a span starts. -/
def position? (fs : FileSet) (s : Span) : Option Position :=
  (fs.get? s.file).map fun f => ⟨f.path, .ofOffset f.lineEnds s.start⟩

end FileSet

end Breadbin
