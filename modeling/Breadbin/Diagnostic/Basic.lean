import Breadbin.Source.FileSet
import Breadbin.Text.Digits

/-!
# Diagnostics

A diagnostic carries a severity, a numbered code, a message and the span it is about, and notes on
other spans.
-/

namespace Breadbin

/-- How serious a diagnostic is. -/
inductive Severity where
  | info
  | warning
  | error
  | beyond (level : UInt8)
  deriving DecidableEq, Repr, Inhabited

namespace Severity

/-- The severity of a level. -/
def ofLevel (n : UInt8) : Severity :=
  [info, warning, error][n.toNat]?.getD (beyond n)

/-- The level of a severity; more is worse. -/
def level : Severity → UInt8
  | info => 0
  | warning => 1
  | error => 2
  | beyond n => n

def text : Severity → String
  | info => "INFO"
  | warning => "WARNING"
  | error => "ERROR"
  | beyond _ => "UNKNOWN"

/-- The word in front of a one-line report. -/
def label : Severity → String
  | error => "error"
  | warning => "warning"
  | _ => "info"

end Severity

/-- The number of a diagnostic. -/
structure Code where
  number : UInt16
  deriving DecidableEq, Repr, Inhabited

namespace Code

def typeMismatch : Code := ⟨3001⟩
def literalOutOfRange : Code := ⟨3002⟩
def possibleTruncation : Code := ⟨3003⟩
def fixedRangeOverflow : Code := ⟨3004⟩
def signReinterpretation : Code := ⟨3005⟩
def missingEntry : Code := ⟨3006⟩
def recursiveCall : Code := ⟨3007⟩
def arityMismatch : Code := ⟨3008⟩
def duplicateData : Code := ⟨3009⟩
def badAlignment : Code := ⟨3010⟩
def loadFailure : Code := ⟨4001⟩
def decodeFailure : Code := ⟨4002⟩
def writeFailure : Code := ⟨4003⟩
def invalidManifest : Code := ⟨5001⟩
def invalidTarget : Code := ⟨5002⟩
def internal : Code := ⟨9001⟩
def unresolvedLabel : Code := ⟨9002⟩
def unauthorizedConversion : Code := ⟨9003⟩
def allocationCollision : Code := ⟨9004⟩
def outOfVariableSpace : Code := ⟨9005⟩
def imageTooLarge : Code := ⟨9006⟩
def unknownSymbol : Code := ⟨9007⟩
def misplacedJump : Code := ⟨9008⟩

/-- The letters and digits a code is printed as. -/
def id (c : Code) : String :=
  let n := c.number.toNat
  let numbered (letters : String) := letters ++ Text.decimalPadded '0' 4 n
  if 3000 ≤ n ∧ n < 4000 then numbered "SEM"
  else if 4000 ≤ n ∧ n < 5000 then numbered "IO"
  else if 5000 ≤ n ∧ n < 6000 then numbered "PRJ"
  else if 9000 ≤ n ∧ n < 10000 then numbered "BCK"
  else "E0000"

/-- What a code is about. -/
def title (c : Code) : String :=
  match c.number.toNat with
  | 3000 => "Semantic information"
  | 3001 => "Type mismatch"
  | 3002 => "Literal out of range"
  | 3003 => "Possible truncation"
  | 3004 => "Fixed-point range overflow"
  | 3005 => "Signed/unsigned reinterpretation"
  | 3006 => "Missing entry function"
  | 3007 => "Recursive call shares a static frame"
  | 3008 => "Wrong number of arguments"
  | 3009 => "Duplicate data block"
  | 3010 => "Alignment is not a power of two"
  | 4000 => "I/O information"
  | 4001 => "I/O load file error"
  | 4002 => "Malformed program file"
  | 4003 => "I/O write error"
  | 5000 => "Project information"
  | 5001 => "Invalid project manifest"
  | 5002 => "Invalid target configuration"
  | 9000 => "Backend information"
  | 9001 => "Internal compiler error"
  | 9002 => "Unresolved label at link time"
  | 9003 => "Conversion not authorized by the type rules"
  | 9004 => "Address allocation collision"
  | 9005 => "Variable region exhausted"
  | 9006 => "Image exceeds address space"
  | 9007 => "Reference to unknown symbol"
  | 9008 => "break/continue outside of a loop"
  | _ => "Unknown error"

def text (c : Code) : String := s!"[{c.id}]: {c.title}"

/-- Whether the code marks a fault of the compiler and not of the program. -/
def isInternal (c : Code) : Bool :=
  9001 ≤ c.number && c.number < 10000

end Code

/-- A remark on another span. -/
structure Note where
  span : Span
  message : String
  deriving DecidableEq, Repr, Inhabited

/-- A report about a span of the source. -/
structure Diagnostic where
  severity : Severity
  code : Code
  message : String
  span : Span := .none
  notes : List Note := []
  deriving DecidableEq, Repr, Inhabited

namespace Diagnostic

def error (code : Code) (span : Span) (message : String) : Diagnostic :=
  { severity := .error, code, message, span }

def warning (code : Code) (span : Span) (message : String) : Diagnostic :=
  { severity := .warning, code, message, span }

/-- Adds a note behind the others. -/
def withNote (d : Diagnostic) (span : Span) (message : String) : Diagnostic :=
  { d with notes := d.notes ++ [⟨span, message⟩] }

end Diagnostic

end Breadbin
