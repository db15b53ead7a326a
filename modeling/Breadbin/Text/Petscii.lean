import Breadbin.Text.Bytes
import Breadbin.Text.Folding

/-!
# The character set of the screen

Strings are stored in the codes that the screen output routine of the machine prints: letters in the
unshifted upper-case set, line ends as carriage returns, a question mark for what has no code.
-/

namespace Breadbin.Text.Petscii

/-- The code printed for the end of a line. -/
def carriageReturn : UInt8 := 0x0D

/-- The code that stands in for a character without one. -/
def replacement : UInt8 := 0x3F

/-- The length from which on a string no longer fits a string buffer. -/
def maxLength : Nat := 255

/-- The code of a folded character. -/
def code (c : Char) : UInt8 :=
  if c = '\n' ∨ c = '\r' then carriageReturn
  else if 'a' ≤ c ∧ c ≤ 'z' then UInt8.ofNat (c.toNat - 32)
  else if ' ' ≤ c ∧ c ≤ '~' then UInt8.ofNat c.toNat
  else replacement

/-- The codes of a text. -/
def encode [Folds] (s : Bytes) : Bytes :=
  (Folds.fold (scalars s)).map code

/-- The character of a code. -/
def character (b : UInt8) : Char :=
  if b = carriageReturn then '\n'
  else if 0x20 ≤ b ∧ b < 0x7F then Char.ofNat b.toNat
  else '?'

/-- The text of a string of codes. -/
def decode (s : Bytes) : String :=
  String.ofList (s.map character)

end Breadbin.Text.Petscii
