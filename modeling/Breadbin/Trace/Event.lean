import Breadbin.Numeric.Double
import Breadbin.Text.Json
import Breadbin.Trace.Level

/-!
# Trace events and their texts

An event is written as a line for people, as a document on a line, or as an item of the list a trace
viewer reads.  Times count nanoseconds from the start of 1970.
-/

namespace Breadbin.Trace

/-- What kind of event it is. -/
structure EventKind where
  number : UInt8
  deriving DecidableEq, Repr, Inhabited

namespace EventKind

/-- A span is opened. -/
def opened : EventKind := ⟨1⟩

/-- A span is closed. -/
def closed : EventKind := ⟨2⟩

/-- Something happens within a span. -/
def point : EventKind := ⟨3⟩

/-- The program is still there. -/
def heartbeat : EventKind := ⟨4⟩

/-- The name of a kind. -/
def text (k : EventKind) : String :=
  if k = opened then "begin"
  else if k = closed then "end"
  else if k = point then "point"
  else if k = heartbeat then "heartbeat"
  else "unknown"

/-- The sign in front of an event's name. -/
def sign (k : EventKind) : String :=
  if k = opened then "→ "
  else if k = closed then "← "
  else if k = point then "• "
  else if k = heartbeat then "♡ "
  else ""

end EventKind

/-- An event.  The extra entries are ordered by key, and no key occurs twice. -/
structure Event where
  time : Int := 0
  sequence : Nat := 0
  kind : EventKind := ⟨0⟩
  scope : Scope := ⟨0⟩
  span : Nat := 0
  /-- the span around it; zero for none -/
  parent : Nat := 0
  thread : Nat := 0
  name : String := ""
  detail : String := ""
  extra : List (String × String) := []
  deriving DecidableEq, Repr, Inhabited

/-- Sets an entry among entries that are ordered by key. -/
def setEntry (key value : String) : List (String × String) → List (String × String)
  | [] => [(key, value)]
  | (k, v) :: rest =>
    if key < k then (key, value) :: (k, v) :: rest
    else if key = k then (key, value) :: rest
    else (k, v) :: setEntry key value rest

/-- The time between two moments, as far as 64 bits go. -/
def elapsed (start time : Int) : Int :=
  max (-0x8000000000000000) (min 0x7FFFFFFFFFFFFFFF (time - start))

/-- Whole microseconds between two moments. -/
def microseconds (start time : Int) : Int := (elapsed start time).tdiv 1000

/-- Milliseconds between two moments, with three places, at least eight columns wide. -/
def milliseconds (start time : Int) : String :=
  let us := microseconds start time
  let rounded := Numeric.Double.ofInt us
  let quotient :=
    match rounded.value with
    | .finite negative m e =>
      Numeric.Double.ofRatio negative (m * Nat.pow 2 e.toNat) (1000 * Nat.pow 2 (-e).toNat)
    | _ => rounded
  Text.padLeft 8 (quotient.withPlaces 3)

/-- The day, month and year of a number of days after the first of March of the year 0. -/
def civilDate (days : Int) : Int × Nat × Nat :=
  let era := days.fdiv 146097
  let dayOfEra := (days - era * 146097).toNat
  let yearOfEra := (dayOfEra - dayOfEra / 1460 + dayOfEra / 36524 - dayOfEra / 146096) / 365
  let dayOfYear := dayOfEra - (365 * yearOfEra + yearOfEra / 4 - yearOfEra / 100)
  let shifted := (5 * dayOfYear + 2) / 153
  let day := dayOfYear - (153 * shifted + 2) / 5 + 1
  let month := if shifted < 10 then shifted + 3 else shifted - 9
  let year := (yearOfEra : Int) + era * 400 + if month ≤ 2 then 1 else 0
  (year, month, day)

/-- Two digits. -/
def twoDigits (n : Nat) : String := Text.decimalPadded '0' 2 n

/-- The fraction of a second, without closing zeros; nothing for a whole second. -/
def fraction (nanoseconds : Nat) : String :=
  if nanoseconds = 0 then ""
  else
    let digits := (Text.decimalPadded '0' 9 nanoseconds).toList
    "." ++ String.ofList (digits.reverse.dropWhile (· == '0')).reverse

/-- A moment in universal time. -/
def timestamp (time : Int) : String :=
  let seconds := time.fdiv 1000000000
  let nanoseconds := (time - seconds * 1000000000).toNat
  let days := seconds.fdiv 86400
  let second := (seconds - days * 86400).toNat
  let (year, month, day) := civilDate (days + 719468)
  Text.decimalPadded '0' 4 year.toNat ++ "-" ++ twoDigits month ++ "-" ++ twoDigits day ++ "T" ++
    twoDigits (second / 3600) ++ ":" ++ twoDigits (second / 60 % 60) ++ ":" ++
    twoDigits (second % 60) ++ fraction nanoseconds ++ "Z"

namespace Event

/-- The extra entries as a record. -/
def entries (xs : List (String × String)) : Text.Json :=
  .record (xs.map fun (k, v) => (k, .string v))

/-- A field that is left out when it says nothing. -/
def optional (present : Bool) (name : String) (value : Text.Json) : List (String × Text.Json) :=
  if present then [(name, value)] else []

/-- The event as a document on a line. -/
def document (e : Event) : String :=
  Text.Json.compact (.record
    ([("time", .string (timestamp e.time)), ("seq", .nat e.sequence), ("kind", .string e.kind.text),
        ("scope", .string e.scope.text), ("span_id", .nat e.span)] ++
      optional (e.parent != 0) "parent_id" (.nat e.parent) ++
      optional (e.thread != 0) "gid" (.nat e.thread) ++
      [("name", .string e.name)] ++
      optional (e.detail != "") "detail" (.string e.detail) ++
      optional (!e.extra.isEmpty) "extra" (entries e.extra))) ++ "\n"

/-- The event as an item for a trace viewer. -/
def viewerItem (e : Event) (start : Int) : String :=
  let (phase, instant) :=
    if e.kind = .opened then ("B", false)
    else if e.kind = .closed then ("E", false)
    else ("i", true)
  let args := if e.detail = "" then e.extra else setEntry "detail" e.detail e.extra
  Text.Json.compact (.record
    ([("name", .string e.name), ("cat", .string e.scope.text), ("ph", .string phase),
        ("ts", .int (microseconds start e.time)), ("pid", .nat 1), ("tid", .nat e.thread)] ++
      optional instant "s" (.string "t") ++
      optional (!args.isEmpty) "args" (entries args)))

/-- The event as a line for people. -/
def line (e : Event) (start : Int) : String :=
  let indent := Text.copies (2 * (e.scope.number.toNat - 1)) ' '
  let detail := if e.detail = "" then "" else " (" ++ e.detail ++ ")"
  let extra :=
    if e.extra.isEmpty then ""
    else " \x7b" ++ ", ".intercalate (e.extra.map fun (k, v) => k ++ "=" ++ v) ++ "\x7d"
  "[" ++ milliseconds start e.time ++ "ms] " ++ indent ++ e.kind.sign ++ e.name ++ detail ++ extra
    ++ "\n"

/-- The event in a format. -/
def write (e : Event) (f : Format) (start : Int) : String :=
  match f with
  | .ndjson => e.document
  | .chrome => e.viewerItem start
  | .auto | .text => e.line start

end Event

end Breadbin.Trace
