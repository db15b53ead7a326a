import Breadbin.Numeric.Double
import Breadbin.Text.Bytes

/-!
# Packed values: writing

A packed value starts with a code byte that says what it is and, for short texts and lists, how
long.  Numbers follow their code with the highest byte first.  Numbers are written in their full
width, whatever their value; lengths in the narrowest form that holds them.
-/

namespace Breadbin.Pack

/-- The lowest `width` bytes of a number, highest first. -/
def bigEndian : (width : Nat) → Nat → Bytes
  | 0, _ => []
  | w + 1, n => UInt8.ofNat (n / Nat.pow 256 w) :: bigEndian w n

/-- Nothing. -/
def nil : Bytes := [0xC0]

/-- A truth value. -/
def bool (b : Bool) : Bytes := [if b then 0xC3 else 0xC2]

/-- A byte. -/
def byte (x : UInt8) : Bytes := [0xCC, x]

/-- A number of two bytes. -/
def word (x : UInt16) : Bytes := 0xCD :: bigEndian 2 x.toNat

/-- A number of four bytes. -/
def long (x : UInt32) : Bytes := 0xCE :: bigEndian 4 x.toNat

/-- A signed number of eight bytes. -/
def signed (x : Int64) : Bytes := 0xD3 :: bigEndian 8 x.toUInt64.toNat

/-- A number with a fraction. -/
def double (x : Numeric.Double) : Bytes := 0xCB :: bigEndian 8 x.bits.toNat

/-- The head of a text. -/
def textHead (n : Nat) : Bytes :=
  if n < 32 then [UInt8.ofNat (0xA0 + n)]
  else if n < 256 then 0xD9 :: bigEndian 1 n
  else if n < 65536 then 0xDA :: bigEndian 2 n
  else 0xDB :: bigEndian 4 n

/-- A text. -/
def text (s : Bytes) : Bytes := textHead s.length ++ s

/-- The head of a run of bytes. -/
def bytesHead (n : Nat) : Bytes :=
  if n < 256 then 0xC4 :: bigEndian 1 n
  else if n < 65536 then 0xC5 :: bigEndian 2 n
  else 0xC6 :: bigEndian 4 n

/-- A run of bytes. -/
def bytes (s : Bytes) : Bytes := bytesHead s.length ++ s

/-- The head of a list. -/
def listHead (n : Nat) : Bytes :=
  if n < 16 then [UInt8.ofNat (0x90 + n)]
  else if n < 65536 then 0xDC :: bigEndian 2 n
  else 0xDD :: bigEndian 4 n

/-- The head of a record. -/
def recordHead (n : Nat) : Bytes :=
  if n < 16 then [UInt8.ofNat (0x80 + n)]
  else if n < 65536 then 0xDE :: bigEndian 2 n
  else 0xDF :: bigEndian 4 n

/-- A record: names, each followed by its value. -/
def record (fields : List (String × Bytes)) : Bytes :=
  recordHead fields.length ++ fields.flatMap fun (name, value) => text (Text.bytesOf name) ++ value

end Breadbin.Pack
