/-!
# Byte strings

Names, literals and file contents are byte strings: nothing promises that they are well-formed
UTF-8.  A byte string is shown as text by decoding it, with one replacement character for every
byte that starts no well-formed sequence.
-/

namespace Breadbin

/-- A string of bytes, in order. -/
abbrev Bytes := List UInt8

namespace Text

/-- What stands at one place of a byte string: a well-formed scalar, or a byte that belongs to
none. -/
inductive Piece where
  | scalar (c : Char)
  | stray (b : UInt8)
  deriving DecidableEq, Repr

/-- The bytes a text is stored as. -/
def bytesOf (s : String) : Bytes :=
  s.toUTF8.toList

/-- A text can stand for its bytes. -/
instance : Coe String Bytes := ⟨bytesOf⟩

/-- Texts can stand for their bytes. -/
instance : Coe (List String) (List Bytes) := ⟨List.map bytesOf⟩

/-- The payload of a continuation byte within the given limits. -/
def continuation (lo hi b : UInt8) : Option Nat :=
  if lo ≤ b ∧ b ≤ hi then some (b.toNat % 64) else none

/-- The smallest second byte allowed after a lead byte: no overlong forms. -/
def secondLow (lead : UInt8) : UInt8 :=
  if lead = 0xE0 then 0xA0 else if lead = 0xF0 then 0x90 else 0x80

/-- The largest second byte allowed after a lead byte: no surrogates, nothing past the last
plane. -/
def secondHigh (lead : UInt8) : UInt8 :=
  if lead = 0xED then 0x9F else if lead = 0xF4 then 0x8F else 0xBF

/-- Reads the scalar that starts with byte `lead`, and how many of the bytes after it belong to
it. -/
def scalarAt (lead : UInt8) (rest : Bytes) : Option (Char × Nat) :=
  if lead < 0x80 then some (Char.ofNat lead.toNat, 0)
  else if lead < 0xC2 then none
  else
    match rest with
    | [] => none
    | b₁ :: rest₁ => do
      let c₁ ← continuation (secondLow lead) (secondHigh lead) b₁
      if lead < 0xE0 then
        return (Char.ofNat ((lead.toNat - 0xC0) * 64 + c₁), 1)
      else
        match rest₁ with
        | [] => none
        | b₂ :: rest₂ => do
          let c₂ ← continuation 0x80 0xBF b₂
          if lead < 0xF0 then
            return (Char.ofNat (((lead.toNat - 0xE0) * 64 + c₁) * 64 + c₂), 2)
          else
            match rest₂ with
            | [] => none
            | b₃ :: _ => do
              let c₃ ← continuation 0x80 0xBF b₃
              if lead < 0xF5 then
                return (Char.ofNat ((((lead.toNat - 0xF0) * 64 + c₁) * 64 + c₂) * 64 + c₃), 3)
              else none

/-- Splits a byte string into scalars and stray bytes. -/
def pieces : Bytes → List Piece
  | [] => []
  | b :: rest =>
    match scalarAt b rest with
    | some (c, n) => .scalar c :: pieces (rest.drop n)
    | none => .stray b :: pieces rest
termination_by s => s.length
decreasing_by all_goals simp only [List.length_drop, List.length_cons]; omega

/-- The character shown for a piece. -/
def Piece.shown : Piece → Char
  | .scalar c => c
  | .stray _ => '\uFFFD'

/-- The characters of a byte string, a replacement character for each stray byte. -/
def scalars (s : Bytes) : List Char :=
  (pieces s).map Piece.shown

/-- A byte string as text. -/
def shown (s : Bytes) : String :=
  String.ofList (scalars s)

/-- Whether a byte string is well-formed. -/
def wellFormed (s : Bytes) : Bool :=
  (pieces s).all fun
    | .scalar _ => true
    | .stray _ => false

end Text

end Breadbin
