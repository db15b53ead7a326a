import Breadbin.Text.Digits
import Breadbin.Text.Path
import Breadbin.Text.Quoted

/-!
# Flags

Arguments that start with a dash are flags.  A flag may take a value, either in the same argument or
in the next one.  Flags and other arguments may stand in any order; two dashes end the flags.
-/

/-!
## Numbers with a base of their own

A number may name its base in front: `0x`, `0o`, `0b`, or just a zero for eight.  Underscores may
stand between digits.
-/

namespace Breadbin.Text.Radix

/-- Why a text is no number. -/
inductive Failure where
  | badForm
  | outOfRange
  deriving DecidableEq, Repr

/-- The words for a failure. -/
def Failure.words : Failure → String
  | badForm => "invalid syntax"
  | outOfRange => "value out of range"

/-- The base of a number and its digits. -/
def split : List Char → Nat × List Char
  | '0' :: c :: d :: rest =>
    let base := if c.toLower = 'b' then 2 else if c.toLower = 'o' then 8 else 16
    if c.toLower = 'b' ∨ c.toLower = 'o' ∨ c.toLower = 'x' then (base, d :: rest)
    else (8, c :: d :: rest)
  | '0' :: rest => (8, rest)
  | cs => (10, cs)

/-- The value of digits below a limit; what comes first, a wrong digit or the limit, decides. -/
def value (base limit : Nat) : Nat → List Char → Except Failure Nat
  | n, [] => .ok n
  | n, '_' :: rest => value base limit n rest
  | n, c :: rest =>
    match digitValue? c with
    | none => .error .badForm
    | some d =>
      if base ≤ d then .error .badForm
      else if limit ≤ base * n + d then .error .outOfRange
      else value base limit (base * n + d) rest

/-- Every underscore stands between two digits; a base in front counts as one. -/
def separated (afterDigit afterUnderscore : Bool) : List Char → Bool
  | [] => !afterUnderscore
  | c :: rest =>
    if c = '_' then afterDigit && separated false true rest else separated true false rest

/-- The value of a number without a sign, below a limit. -/
def unsigned (limit : Nat) (cs : List Char) : Except Failure Nat :=
  if cs.isEmpty then .error .badForm
  else
    let (base, digits) := split cs
    match value base limit 0 digits with
    | .error e => .error e
    | .ok n => if separated (cs.head? = some '0') false digits then .ok n else .error .badForm

/-- A whole number without a sign, of at most 64 bits. -/
def natural (s : String) : Except Failure Nat := unsigned 0x10000000000000000 s.toList

/-- A whole number, of at most 64 bits. -/
def integer (s : String) : Except Failure Int :=
  let read (cs : List Char) (negative : Bool) : Except Failure Int := do
    let n ← unsigned 0x10000000000000000 cs
    if negative then
      if 0x8000000000000000 < n then .error .outOfRange else return -(n : Int)
    else if 0x8000000000000000 ≤ n then .error .outOfRange else return n
  match s.toList with
  | '-' :: cs => read cs true
  | '+' :: cs => read cs false
  | cs => read cs false

end Breadbin.Text.Radix

/-! ## Durations

A duration is a row of numbers, each with a unit: `1h30m`, `1.5s`, `200ms`.
-/

namespace Breadbin.Text.Duration

/-- The units, in nanoseconds. -/
def units : List (String × Nat) :=
  [("ns", 1), ("us", 1000), ("µs", 1000), ("μs", 1000), ("ms", 1000000), ("s", 1000000000),
    ("m", 60000000000), ("h", 3600000000000)]

/-- A character of a number. -/
def isNumeral (c : Char) : Bool := c.isDigit || c = '.'

/-- The value of digits. -/
def digits (cs : List Char) : Nat := cs.foldl (fun n c => 10 * n + (c.toNat - 48)) 0

/-- Adds up the numbers of a duration, in nanoseconds. -/
def sum (given : String) : (fuel : Nat) → Nat → List Char → Except String Nat
  | _, total, [] => .ok total
  | 0, _, _ => .error ("time: invalid duration " ++ quotedText given)
  | fuel + 1, total, cs =>
    let invalid := .error ("time: invalid duration " ++ quotedText given)
    let whole := cs.takeWhile Char.isDigit
    let rest := cs.drop whole.length
    let (fraction, rest) := match rest with
      | '.' :: more => (more.takeWhile Char.isDigit, more.dropWhile Char.isDigit)
      | _ => ([], rest)
    if whole.isEmpty && fraction.isEmpty || 0x8000000000000000 ≤ digits whole then invalid
    else
      let unit := rest.takeWhile (!isNumeral ·)
      match unit, units.lookup (String.ofList unit) with
      | [], _ => .error ("time: missing unit in duration " ++ quotedText given)
      | _, none =>
        .error ("time: unknown unit " ++ quotedText (String.ofList unit) ++ " in duration " ++
          quotedText given)
      | _, some scale =>
        let part := digits whole * scale + digits fraction * scale / Nat.pow 10 fraction.length
        if 0x8000000000000000 < total + part then invalid
        else sum given fuel (total + part) (rest.drop unit.length)

/-- The number of nanoseconds of a duration. -/
def parse (given : String) : Except String Int :=
  let (negative, cs) := match given.toList with
    | '-' :: cs => (true, cs)
    | '+' :: cs => (false, cs)
    | cs => (false, cs)
  if cs = ['0'] then .ok 0
  else if cs.isEmpty then .error ("time: invalid duration " ++ quotedText given)
  else
    match sum given cs.length 0 cs with
    | .error e => .error e
    | .ok n =>
      if negative then .ok (-(n : Int))
      else if 0x8000000000000000 ≤ n then .error ("time: invalid duration " ++ quotedText given)
      else .ok n

end Breadbin.Text.Duration

/-! ## Arguments -/

namespace Breadbin.Command

/-- What kind of value a flag takes. -/
inductive FlagKind where
  | text
  /-- on when it is named -/
  | switch
  | int
  | natural
  | duration
  deriving DecidableEq, Repr

/-- A flag that a command knows. -/
structure Flag where
  name : String
  short : Option Char := none
  kind : FlagKind := .text
  /-- the value if none is given -/
  default : String := ""
  usage : String := ""
  deriving DecidableEq, Repr

/-- What is wrong with the arguments of a command. -/
inductive UsageError where
  | unknownFlag (name : String)
  | unknownShort (c : Char) (cluster : String)
  | badForm (argument : String)
  | noValue (argument : String)
  | noShortValue (c : Char) (cluster : String)
  | badValue (value flag reason : String)
  | unknownCommand (name : String) (similar : List String)
  | wrongCount (wanted given : Nat)
  | tooMany (most given : Nat)
  deriving DecidableEq, Repr

/-- A character within quotes. -/
def quotedChar (c : Char) : String := "'" ++ String.singleton c ++ "'"

/-- What is told about it. -/
def UsageError.message : UsageError → String
  | unknownFlag name => "unknown flag: --" ++ name
  | unknownShort c cluster => "unknown shorthand flag: " ++ quotedChar c ++ " in -" ++ cluster
  | badForm argument => "bad flag syntax: " ++ argument
  | noValue argument => "flag needs an argument: " ++ argument
  | noShortValue c cluster => "flag needs an argument: " ++ quotedChar c ++ " in -" ++ cluster
  | badValue value flag reason =>
    "invalid argument " ++ Text.quotedText value ++ " for \"" ++ flag ++ "\" flag: " ++ reason
  | unknownCommand name similar =>
    "unknown command " ++ Text.quotedText name ++ " for \"halfbyte\"" ++
      if similar.isEmpty then ""
      else "\n\nDid you mean this?\n" ++ String.join (similar.map fun s => "\t" ++ s ++ "\n")
  | wrongCount wanted given => s!"accepts {wanted} arg(s), received {given}"
  | tooMany most given => s!"accepts at most {most} arg(s), received {given}"

namespace Flag

/-- The flag as it is named in complaints. -/
def title (f : Flag) : String :=
  match f.short with
  | some c => "-" ++ String.singleton c ++ ", --" ++ f.name
  | none => "--" ++ f.name

/-- The words that turn a switch on or off. -/
def switchValue? (s : String) : Option Bool :=
  if ["1", "t", "T", "TRUE", "true", "True"].contains s then some true
  else if ["0", "f", "F", "FALSE", "false", "False"].contains s then some false
  else none

/-- Why a value is refused, if it is. -/
def refusal? (f : Flag) (value : String) : Option String :=
  let failed (reader : String) (words : String) : String :=
    "strconv." ++ reader ++ ": parsing " ++ Text.quotedText value ++ ": " ++ words
  match f.kind with
  | .text => none
  | .switch => if (switchValue? value).isSome then none
      else some (failed "ParseBool" "invalid syntax")
  | .int =>
    match Text.Radix.integer value with
    | .error e => some (failed "ParseInt" e.words)
    | .ok _ => none
  | .natural =>
    match Text.Radix.natural value with
    | .error e => some (failed "ParseUint" e.words)
    | .ok _ => none
  | .duration =>
    match Text.Duration.parse value with
    | .error e => some e
    | .ok _ => none

end Flag

/-- The arguments of a command: the values of the flags that were given, and the others. -/
structure Arguments where
  values : List (String × String) := []
  others : Array String := #[]
  /-- the flags have ended -/
  ended : Bool := false
  /-- a flag that waits for its value, and the complaint if none comes -/
  waiting : Option (Flag × UsageError) := none
  deriving Repr, Inhabited

namespace Arguments

/-- Sets a flag. -/
def set (a : Arguments) (f : Flag) (value : String) : Except UsageError Arguments :=
  match f.refusal? value with
  | some reason => .error (.badValue value f.title reason)
  | none => .ok { a with values :=
      (f.name, value) :: a.values.filter (·.1 ≠ f.name), waiting := none }

/-- Reads a flag by its name, with or without a value. -/
def long (flags : List Flag) (a : Arguments) (argument : String) : Except UsageError Arguments :=
  let body := (argument.drop 2).toString
  if body.startsWith "-" || body.startsWith "=" then .error (.badForm argument)
  else
    let name := (Text.Path.splitOn '=' body).headD ""
    match flags.find? (·.name == name) with
    | none => .error (.unknownFlag name)
    | some f =>
      if body.length > name.length then a.set f (body.drop (name.length + 1)).toString
      else if f.kind = .switch then a.set f "true"
      else .ok { a with waiting := some (f, .noValue argument) }

/-- Reads flags by their letters, the last one with or without a value. -/
def short (flags : List Flag) : Arguments → List Char → Except UsageError Arguments
  | a, [] => .ok a
  | a, c :: rest =>
    let cluster := String.ofList (c :: rest)
    match flags.find? (·.short == some c) with
    | none => .error (.unknownShort c cluster)
    | some f =>
      match rest with
      | '=' :: d :: value => a.set f (String.ofList (d :: value))
      | _ =>
        if f.kind = .switch then do (← a.set f "true").short flags rest
        else if rest.isEmpty then .ok { a with waiting := some (f, .noShortValue c cluster) }
        else a.set f (String.ofList rest)

/-- Reads one argument. -/
def next (flags : List Flag) (a : Arguments) (argument : String) : Except UsageError Arguments :=
  match a.waiting with
  | some (f, _) => a.set f argument
  | none =>
    if a.ended || argument.length < 2 || !argument.startsWith "-" then
      .ok { a with others := a.others.push argument }
    else if argument = "--" then .ok { a with ended := true }
    else if argument.startsWith "--" then a.long flags argument
    else a.short flags (argument.drop 1).toString.toList

/-- Reads all arguments of a command. -/
def parse (flags : List Flag) (arguments : List String) : Except UsageError Arguments := do
  let a ← arguments.foldlM (next flags) {}
  match a.waiting with
  | some (_, e) => .error e
  | none => return a

/-- The value of a flag, if it was given. -/
def given? (a : Arguments) (name : String) : Option String := a.values.lookup name

/-- The value of a flag. -/
def value (a : Arguments) (flags : List Flag) (name : String) : String :=
  (a.given? name).getD (((flags.find? (·.name == name)).map (·.default)).getD "")

/-- Whether a switch is on. -/
def isOn (a : Arguments) (name : String) : Bool :=
  ((a.given? name).bind Flag.switchValue?).getD false

/-- The number that a flag gives. -/
def int (a : Arguments) (flags : List Flag) (name : String) : Int :=
  match Text.Radix.integer (a.value flags name) with
  | .ok n => n
  | .error _ => 0

end Arguments

end Breadbin.Command
