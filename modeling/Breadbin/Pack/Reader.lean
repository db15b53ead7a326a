import Breadbin.Numeric.Double
import Breadbin.Text.Bytes
import Breadbin.Text.Digits

/-!
# Packed values: reading

Reading is lenient: a number may have any width and sign, a text may be a run of bytes, a record
may be a list of its fields, and nothing stands for zero, for the empty text and for the empty
record.  A field of a record that is not known is skipped.
-/

namespace Breadbin.Unpack

/-- What a code byte was expected to start. -/
inductive Wanted where
  | unsigned
  | signed
  | double
  | bool
  | textLength
  | listLength
  | recordLength
  deriving DecidableEq, Repr

/-- Why a value cannot be read. -/
inductive ReadError where
  /-- the input ends before a code, or before any byte behind it -/
  | ended
  /-- the input ends inside a value -/
  | cut
  /-- the code starts something else -/
  | unexpected (code : UInt8) (wanted : Wanted)
  /-- no value starts with the code -/
  | unknownCode (code : UInt8)
  /-- a record is a list of another length -/
  | fieldCount
  /-- no expression has the tag -/
  | expressionTag (tag : UInt8)
  /-- no statement has the tag -/
  | statementTag (tag : UInt8)
  deriving DecidableEq, Repr

/-- Reads a value from the front of the input. -/
abbrev Reader (α : Type) := StateT Bytes (Except ReadError) α

/-- Reads so many bytes. -/
def take (n : Nat) : Reader Bytes := do
  let input ← get
  if n = 0 then pure []
  else if input.isEmpty then throw .ended
  else
    let front := input.take n
    if front.length < n then throw .cut
    else
      set (input.drop n)
      pure front

/-- Reads a code byte. -/
def code : Reader UInt8 := do
  match ← get with
  | [] => throw .ended
  | c :: rest =>
    set rest
    pure c

/-- The number that bytes spell, highest first. -/
def ofBigEndian (bs : Bytes) : Nat :=
  bs.foldl (fun n b => 256 * n + b.toNat) 0

/-- Reads a number of so many bytes. -/
def natural (width : Nat) : Reader Nat := do
  return ofBigEndian (← take width)

/-- Whether the code is itself a number. -/
def isSmallNumber (c : UInt8) : Bool := c < 0x80 || 0xE0 ≤ c

/-- Sign extension of a number of so many bytes. -/
def signExtended (width n : Nat) : Int := (n : Int).bmod (Nat.pow 256 width)

/-- Reads the number whose code is given, in 64 bits of two's complement. -/
def integerAfter (wanted : Wanted) (c : UInt8) : Reader Int := do
  if c = 0xC0 then return 0
  if isSmallNumber c then return signExtended 1 c.toNat
  if c = 0xCC then return ← natural 1
  if c = 0xCD then return ← natural 2
  if c = 0xCE then return ← natural 4
  if c = 0xCF then return signExtended 8 (← natural 8)
  if c = 0xD0 then return signExtended 1 (← natural 1)
  if c = 0xD1 then return signExtended 2 (← natural 2)
  if c = 0xD2 then return signExtended 4 (← natural 4)
  if c = 0xD3 then return signExtended 8 (← natural 8)
  throw (.unexpected c wanted)

/-- Reads a number. -/
def unsigned : Reader Int := do integerAfter .unsigned (← code)

/-- Reads a number and keeps its lowest byte. -/
def byte : Reader UInt8 := do return UInt8.ofInt (← unsigned)

/-- Reads a number and keeps its lowest two bytes. -/
def word : Reader UInt16 := do return UInt16.ofInt (← unsigned)

/-- Reads a number and keeps its lowest four bytes. -/
def long : Reader UInt32 := do return UInt32.ofInt (← unsigned)

/-- Reads a signed number. -/
def signed : Reader Int64 := do return Int64.ofInt (← integerAfter .signed (← code))

/-- The number with a fraction that four bytes spell. -/
def ofSingle (bits : Nat) : Numeric.Double :=
  let negative : Bool := bits / 0x80000000 % 2 == 1
  let exponent : Nat := bits / 0x800000 % 256
  let fraction := bits % 0x800000
  if exponent = 255 then
    let payload := fraction * 0x20000000
    .ofFields negative 2047 (if fraction = 0 then 0 else payload ||| 0x8000000000000)
  else if exponent = 0 then .ofScaled negative fraction (-149)
  else .ofScaled negative (fraction + 0x800000) ((exponent : Int) - 150)

/-- Reads a number with a fraction. -/
def double : Reader Numeric.Double := do
  let c ← code
  if c = 0xCA then return ofSingle (← natural 4)
  if c = 0xCB then return ⟨UInt64.ofNat (← natural 8)⟩
  return .ofInt (← integerAfter .double c)

/-- Reads a truth value. -/
def bool : Reader Bool := do
  let c ← code
  if c = 0xC0 ∨ c = 0xC2 then return false
  if c = 0xC3 then return true
  throw (.unexpected c .bool)

/-- Reads the length of a text whose code is given; nothing has no length. -/
def textLength (c : UInt8) : Reader (Option Nat) := do
  if c = 0xC0 then return none
  if 0xA0 ≤ c ∧ c < 0xC0 then return some (c.toNat - 0xA0)
  if c = 0xD9 ∨ c = 0xC4 then return some (← natural 1)
  if c = 0xDA ∨ c = 0xC5 then return some (← natural 2)
  if c = 0xDB ∨ c = 0xC6 then return some (← natural 4)
  throw (.unexpected c .textLength)

/-- Reads a text, or nothing. -/
def bytes? : Reader (Option Bytes) := do
  match ← textLength (← code) with
  | none => return none
  | some n => return some (← take n)

/-- Reads a text. -/
def text : Reader Bytes := do return (← bytes?).getD []

/-- Reads the length of a list whose code is given; nothing has no length. -/
def listLength (c : UInt8) : Reader (Option Nat) := do
  if c = 0xC0 then return none
  if 0x90 ≤ c ∧ c < 0xA0 then return some (c.toNat - 0x90)
  if c = 0xDC then return some (← natural 2)
  if c = 0xDD then return some (← natural 4)
  throw (.unexpected c .listLength)

/-- Reads a value so many times. -/
def repeated {α : Type} (item : Reader α) : Nat → Reader (List α)
  | 0 => return []
  | n + 1 => do
    let x ← item
    return x :: (← repeated item n)

/-- Reads a list, or nothing. -/
def list? {α : Type} (item : Reader α) : Reader (Option (List α)) := do
  match ← listLength (← code) with
  | none => return none
  | some n => return some (← repeated item n)

/-- Reads nothing as `absent`, and anything else as a value. -/
def orAbsent {α : Type} (absent : α) (value : Reader α) : Reader α := do
  match ← get with
  | 0xC0 :: rest =>
    set rest
    return absent
  | _ => value

/-- How a value goes on behind its code: bytes to drop, then values to skip. -/
def skipPlan (c : UInt8) : Reader (Nat × Nat) := do
  if isSmallNumber c ∨ c = 0xC0 ∨ c = 0xC2 ∨ c = 0xC3 then return (0, 0)
  if c < 0x90 then return (0, 2 * (c.toNat - 0x80))
  if c < 0xA0 then return (0, c.toNat - 0x90)
  if c < 0xC0 then return (c.toNat - 0xA0, 0)
  if c = 0xCC ∨ c = 0xD0 then return (1, 0)
  if c = 0xCD ∨ c = 0xD1 then return (2, 0)
  if c = 0xCE ∨ c = 0xD2 ∨ c = 0xCA then return (4, 0)
  if c = 0xCF ∨ c = 0xD3 ∨ c = 0xCB then return (8, 0)
  if c = 0xD9 ∨ c = 0xC4 then return (← natural 1, 0)
  if c = 0xDA ∨ c = 0xC5 then return (← natural 2, 0)
  if c = 0xDB ∨ c = 0xC6 then return (← natural 4, 0)
  if c = 0xDC then return (0, ← natural 2)
  if c = 0xDD then return (0, ← natural 4)
  if c = 0xDE then return (0, 2 * (← natural 2))
  if c = 0xDF then return (0, 2 * (← natural 4))
  if 0xD4 ≤ c ∧ c ≤ 0xD8 then return (1 + Nat.pow 2 (c.toNat - 0xD4), 0)
  if c = 0xC7 then return (1 + (← natural 1), 0)
  if c = 0xC8 then return (1 + (← natural 2), 0)
  if c = 0xC9 then return (1 + (← natural 4), 0)
  throw (.unknownCode c)

/-- Skips values.  Each takes a byte at least, so that as many steps as there are bytes suffice. -/
def skipValues : (steps : Nat) → (values : Nat) → Reader Unit
  | _, 0 => return ()
  | 0, _ + 1 => throw .ended
  | steps + 1, n + 1 => do
    let (dropped, more) ← skipPlan (← code)
    let _ ← take dropped
    skipValues steps (n + more)

/-- Skips one value. -/
def skip : Reader Unit := do
  skipValues ((← get).length + 1) 1

/-- How the fields of a record are read: a name, and what a value under it changes. -/
abbrev Fields (α : Type) := List (String × (α → Reader α))

/-- Reads so many named values. -/
def namedFields {α : Type} (fields : Fields α) : Nat → α → Reader α
  | 0, record => return record
  | n + 1, record => do
    let name ← text
    match fields.find? fun f => Text.bytesOf f.1 == name with
    | some (_, update) => namedFields fields n (← update record)
    | none =>
      skip
      namedFields fields n record

/-- Reads the values of all fields in order. -/
def orderedFields {α : Type} : Fields α → α → Reader α
  | [], record => return record
  | (_, update) :: fields, record => do
    orderedFields fields (← update record)

/-- Reads a record that starts out as `zero`. -/
def record {α : Type} (zero : α) (fields : Fields α) : Reader α := do
  let c ← code
  if c = 0xC0 then return zero
  if 0x80 ≤ c ∧ c < 0x90 then return ← namedFields fields (c.toNat - 0x80) zero
  if c = 0xDE then return ← namedFields fields (← natural 2) zero
  if c = 0xDF then return ← namedFields fields (← natural 4) zero
  let length ←
    if 0x90 ≤ c ∧ c < 0xA0 then pure (c.toNat - 0x90)
    else if c = 0xDC then natural 2
    else if c = 0xDD then natural 4
    else throw (.unexpected c .recordLength)
  if length = 0 then return zero
  if length ≠ fields.length then throw .fieldCount
  orderedFields fields zero

/-- What was expected, in words. -/
def Wanted.words : Wanted → String
  | unsigned => "uint64"
  | signed => "int64"
  | double => "float64"
  | bool => "bool"
  | textLength => "string/bytes length"
  | listLength => "array length"
  | recordLength => "map length"

end Breadbin.Unpack
