import Breadbin.Command.Flag
import Breadbin.Text.Case
import Breadbin.Text.Digits

/-!
# The commands

Every command has a name, flags of its own besides those that all commands share, and a rule for how
many other arguments it takes.
-/

namespace Breadbin.Command

/-- How many arguments a command takes besides its flags. -/
inductive Arity where
  | any
  | exactly (n : Nat)
  | atMost (n : Nat)
  deriving DecidableEq, Repr

/-- Why a number of arguments is refused, if it is. -/
def Arity.refusal? (given : Nat) : Arity → Option UsageError
  | any => none
  | exactly n => if given = n then none else some (.wrongCount n given)
  | atMost n => if given ≤ n then none else some (.tooMany n given)

/-- What can be asked for. -/
inductive Name where
  | root
  | build
  | run
  | disassemble
  | inspect
  | init
  | version
  | help
  deriving DecidableEq, Repr, Inhabited

/-- A command as the user sees it. -/
structure Entry where
  name : Name
  word : String
  /-- what follows the word in a line of usage -/
  operands : String := ""
  short : String := ""
  long : String := ""
  flags : List Flag := []
  arity : Arity := .any
  deriving Repr

/-- The flags of all commands. -/
def sharedFlags : List Flag :=
  [{ name := "color", default := "auto", usage := "colorize output (auto|on|off)" },
    { name := "quiet", kind := .switch, usage := "suppress non-essential output" },
    { name := "timings", kind := .switch, usage := "show timing information" },
    { name := "max-diagnostics", kind := .int, default := "100"
      usage := "maximum number of diagnostics to show" },
    { name := "ui", default := "auto", usage := "progress view (auto|tui|plain|off)" },
    { name := "trace", usage := "write a trace to this file (- for stderr)" },
    { name := "trace-level", default := "off", usage := "trace level (off|error|phase|detail)" },
    { name := "trace-mode", default := "stream", usage := "trace storage (stream|ring|both)" },
    { name := "trace-format", default := "auto",
      usage := "trace format (auto|text|ndjson|chrome)" },
    { name := "trace-ring-size", kind := .int, default := "2048"
      usage := "events kept by the ring buffer" },
    { name := "trace-heartbeat", kind := .duration, default := "0s"
      usage := "emit a heartbeat event at this interval (0 disables)" }]

/-- The flag that takes one program from a disk. -/
def memberFlag : Flag :=
  { name := "file", usage := "program to take from a .d64 (default: the first one)" }

/-- The tool as a whole. -/
def rootEntry : Entry :=
  { name := .root
    word := "halfbyte"
    short := "6502 code generator for the Commodore 64"
    long := "halfbyte compiles typed intermediate programs (.hbir) into 6502 machine\n" ++
      "code and packages them as PRG files or D64 disk images." }

/-- The commands, in the order in which similar names are suggested. -/
def entries : List Entry :=
  [{ name := .build
     word := "build"
     operands := "[files...]"
     short := "Compile .hbir programs to PRG files or a D64 image"
     long := "Compile one or more .hbir programs. Without arguments every .hbir file in\n" ++
      "the project directory (the one holding halfbyte.toml) is built. Flags override\n" ++
      "the [output] and [build] sections of the manifest."
     flags :=
      [{ name := "format", usage := "output format (prg|d64)" },
        { name := "out-dir", short := some 'o', usage := "directory for the output files" },
        { name := "disk-name", usage := "D64 disk name, also the .d64 file name" },
        { name := "disk-id", usage := "two-character D64 disk id" },
        { name := "cache", kind := .switch,
          usage := "reuse images built earlier from the same input" },
        { name := "jobs", short := some 'j', kind := .int, default := "0"
          usage := "parallel builds (0 uses every CPU)" },
        { name := "diagnostics", default := "pretty", usage := "diagnostics format (pretty|json)" }]
          },
    { name := .run
      word := "run"
      operands := "<file.prg|file.d64|file.hbir>"
      short := "Run a program on the built-in 6502 simulator"
      long := "Load a program into the simulator, call its entry point and print what it\n" ++
        "wrote through CHROUT. Only the CPU and the character output are simulated."
      flags :=
        [memberFlag,
          { name := "steps", kind := .natural, default := "50000000"
            usage := "instruction limit (0 runs without one)" },
          { name := "raw", kind := .switch, usage := "write the PETSCII bytes as they are" }]
      arity := .exactly 1 },
    { name := .disassemble
      word := "disasm"
      operands := "<file.prg|file.d64|file.hbir>"
      short := "Disassemble a program"
      long := "Disassemble a PRG file, a program on a D64 image or a freshly compiled\n" ++
        ".hbir program. Compiled programs carry their labels; the constant pool is\n" ++
        "printed as data."
      flags :=
        [memberFlag,
          { name := "stub", kind := .switch, usage := "decode the BASIC stub as instructions too" }]
      arity := .exactly 1 },
    { name := .inspect
      word := "inspect"
      operands := "<file.hbir>"
      short := "Print the program held in an .hbir file"
      arity := .exactly 1 },
    { name := .init
      word := "init"
      operands := "[path|name]"
      short := "Initialize a new halfbyte project"
      long := "Initialize a new halfbyte project by creating a project manifest\n" ++
        "(halfbyte.toml) and a hello-world program (hello.hbir). If [path|name] is\n" ++
        "omitted, initializes the current directory. A missing directory is created."
      arity := .atMost 1 },
    { name := .version
      word := "version"
      short := "Show halfbyte build information"
      flags := [{ name := "format", default := "pretty", usage := "output format (pretty|json)" }]
        }]

/-- The command that explains the others. -/
def helpEntry : Entry :=
  { name := .help
    word := "help"
    operands := "[command]"
    short := "Help about any command"
    long := "Help provides help for any command in the application.\n" ++
      "Simply type halfbyte help [path to command] for full details." }

namespace Entry

/-- The flag that asks for an explanation, and for the tool as a whole the one that asks for its
version. -/
def askingFlags (e : Entry) : List Flag :=
  { name := "help", short := some 'h', kind := .switch, usage := "help for " ++ e.word } ::
    if e.name = .root then
      [{ name := "version", short := some 'v', kind := .switch, usage := "version for " ++ e.word }]
    else []

/-- Every flag of a command. -/
def allFlags (e : Entry) : List Flag := e.flags ++ e.askingFlags ++ sharedFlags

end Entry

/-- The number of single-letter changes that lead from one word to another. -/
def distance (a b : List Char) : Nat :=
  (a.foldl (fun row c => nextRow c row b) (List.range (b.length + 1))).getLastD 0
where
  /-- The distances of one more letter of `a` from the beginnings of `b`. -/
  nextRow (c : Char) (row : List Nat) (b : List Char) : List Nat :=
    fill c (row.headD 0 + 1) row b
  /-- Fills a row from left to right. -/
  fill (c : Char) (left : Nat) : List Nat → List Char → List Nat
    | above :: right :: row, d :: b =>
      let here := min (min (left + 1) (right + 1)) (above + if c = d then 0 else 1)
      left :: fill c here (right :: row) b
    | _, _ => [left]

/-- The commands whose names are like a word. -/
def similar (word : String) : List String :=
  let lowered := Text.lower word
  (entries.map (·.word) ++ ["completion"]).filter fun name =>
    distance lowered.toList name.toList ≤ 2 || name.startsWith lowered

/-- Which of the arguments name commands, as far as the shared flags tell: a flag that takes a value
takes the next argument, unless that is the last one. -/
def words : List String → List String
  | [] => []
  | a :: rest =>
    if a = "--" then []
    else if takesNext a then
      match rest with
      | _ :: b :: more => words (b :: more)
      | _ => []
    else if a ≠ "" && !a.startsWith "-" then a :: words rest
    else words rest
termination_by args => args.length
where
  /-- Whether the value of a flag is in the next argument. -/
  takesNext (a : String) : Bool :=
    !a.contains '=' &&
      ((a.startsWith "--" &&
          !(sharedFlags.any fun f => f.name == (a.drop 2).toString && f.kind == .switch)) ||
        (a.startsWith "-" && a.length = 2))

/-- The arguments without the first one that names a command. -/
def without (word : String) : List String → List String
  | [] => []
  | a :: rest =>
    if a = "--" then a :: rest
    else if words.takesNext a then
      match rest with
      | b :: more => a :: b :: without word more
      | [] => [a]
    else if a = word then rest
    else a :: without word rest

/-- Finds the command that arguments name, and what is left of them. -/
def find (args : List String) : Except UsageError (Entry × List String) :=
  match words args with
  | [] => .ok (rootEntry, args)
  | word :: _ =>
    match (helpEntry :: entries).find? (·.word == word) with
    | some e => .ok (e, without word args)
    | none => .error (.unknownCommand word (similar word))

/-! ### Explanations -/

/-- The flag with what it takes, at the start of its line. -/
def Flag.left (f : Flag) : String :=
  let kind := match f.kind with
    | .text => " string"
    | .switch => ""
    | .int => " int"
    | .natural => " uint"
    | .duration => " duration"
  (match f.short with
    | some c => "  -" ++ String.singleton c ++ ", --"
    | none => "      --") ++ f.name ++ kind

/-- What a flag is for, and its default if that says anything. -/
def Flag.right (f : Flag) : String :=
  f.usage ++
    match f.kind with
    | .text => if f.default.isEmpty then "" else " (default " ++ Text.quotedText f.default ++ ")"
    | .int | .natural =>
      if f.default.isEmpty || f.default = "0" then "" else " (default " ++ f.default ++ ")"
    | .switch | .duration => ""

/-- A table of flags, in alphabetical order. -/
def flagTable (flags : List Flag) : String :=
  let sorted := flags.mergeSort fun a b => a.name ≤ b.name
  let width := (sorted.map (·.left.length)).foldl max 0
  String.join (sorted.map fun f => Text.padRight (width + 3) f.left ++ f.right ++ "\n")

/-- The usage of a command. -/
def Entry.usage (e : Entry) : String :=
  if e.name = .root then
    let line (word short : String) : String := "  " ++ Text.padRight 11 word ++ " " ++ short ++ "\n"
    let listed :=
      (entries ++ [helpEntry]).map (fun e => (e.word, e.short)) ++
        [("completion", "Generate the autocompletion script for the specified shell")]
    "Usage:\n  halfbyte [command]\n\nAvailable Commands:\n" ++
      String.join ((listed.mergeSort fun a b => a.1 ≤ b.1).map fun (w, s) => line w s) ++
      "\nFlags:\n" ++ flagTable (e.askingFlags ++ sharedFlags) ++
      "\nUse \"halfbyte [command] --help\" for more information about a command.\n"
  else
    let operands := if e.operands.isEmpty then "" else " " ++ e.operands
    "Usage:\n  halfbyte " ++ e.word ++ operands ++ " [flags]\n\nFlags:\n" ++
      flagTable (e.flags ++ e.askingFlags) ++ "\nGlobal Flags:\n" ++ flagTable sharedFlags

/-- The explanation of a command. -/
def Entry.explanation (e : Entry) : String :=
  (if e.long.isEmpty then e.short else e.long) ++ "\n\n" ++ e.usage

end Breadbin.Command
