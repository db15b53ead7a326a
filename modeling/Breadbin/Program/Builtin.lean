import Breadbin.Ty.Basic

/-!
# Built-in functions

The functions every program can call without defining them.
-/

namespace Breadbin

/-- A function the compiler provides.  A stored program may carry a code that names none. -/
inductive Builtin where
  /-- writes its arguments -/
  | print
  /-- writes its arguments and ends the line -/
  | println
  /-- the length of a string -/
  | len
  /-- a fixed-point number from 0 up to 15/16 -/
  | rand
  /-- a byte, of a range if one is given -/
  | randByte
  /-- a word, of a range if one is given -/
  | randWord
  /-- sets the state of the generator -/
  | seed
  /-- a signed byte, of a range if one is given -/
  | randSByte
  /-- a signed word, of a range if one is given -/
  | randSWord
  /-- reads a byte of memory -/
  | peek
  /-- writes a byte of memory -/
  | poke
  /-- a character of a string, zero past its end -/
  | strAt
  /-- clears the screen -/
  | cls
  /-- moves the cursor to a column and a row -/
  | cursor
  | unknown (code : UInt8)
  deriving DecidableEq, Repr, Inhabited

namespace Builtin

/-- The functions by code, from zero on. -/
def known : List Builtin :=
  [print, println, len, rand, randByte, randWord, seed, randSByte, randSWord, peek, poke, strAt,
    cls, cursor]

/-- The function with a code. -/
def ofCode (code : UInt8) : Builtin :=
  known[code.toNat]?.getD (unknown code)

/-- The code of a function. -/
def code : Builtin → UInt8
  | print => 0 | println => 1 | len => 2 | rand => 3 | randByte => 4 | randWord => 5 | seed => 6
  | randSByte => 7 | randSWord => 8 | peek => 9 | poke => 10 | strAt => 11 | cls => 12
  | cursor => 13 | unknown c => c

/-- The name of a function. -/
def text : Builtin → String
  | print => "print"
  | println => "println"
  | len => "len"
  | rand => "rand"
  | randByte => "rand_byte"
  | randWord => "rand_word"
  | seed => "seed"
  | randSByte => "rand_sbyte"
  | randSWord => "rand_sword"
  | peek => "peek"
  | poke => "poke"
  | strAt => "str_at"
  | cls => "cls"
  | cursor => "cursor"
  | unknown c => s!"Builtin({c.toNat})"

/-- The function with a name. -/
def parse? (s : String) : Option Builtin :=
  known.find? fun b => b.text == s

/-- The type of a call. -/
def result : Builtin → Ty
  | len | randByte | peek | strAt => .u8
  | rand => .fixed
  | randWord => .u16
  | randSByte => .i8
  | randSWord => .i16
  | _ => .void

/-- The functions that draw from the generator. -/
def isRandom : Builtin → Bool
  | rand | randByte | randWord | randSByte | randSWord => true
  | _ => false

/-- The numbers of arguments a function takes. -/
inductive Arity where
  /-- one number, or the other -/
  | counts (fewest most : Nat)
  | any
  deriving DecidableEq, Repr

/-- The numbers of arguments of each function: a range for a draw is optional. -/
def arity : Builtin → Arity
  | print | println => .any
  | len | seed | peek => .counts 1 1
  | poke | strAt | cursor => .counts 2 2
  | randByte | randWord | randSByte | randSWord => .counts 0 2
  | _ => .counts 0 0

/-- Whether a call may have so many arguments. -/
def accepts (b : Builtin) (n : Nat) : Bool :=
  match b.arity with
  | .any => true
  | .counts fewest most => n == fewest || n == most

/-- The argument types a function prescribes. -/
def prescribed (b : Builtin) : List Ty :=
  match b with
  | len => [.string]
  | seed | peek => [.u16]
  | poke => [.u16, .u8]
  | strAt => [.string, .u8]
  | cursor => [.u8, .u8]
  | randByte | randWord | randSByte | randSWord => [b.result, b.result]
  | _ => []

/-- The types of so many arguments; `invalid` where any type will do. -/
def parameters (b : Builtin) (n : Nat) : List Ty :=
  b.prescribed.take n ++ List.replicate (n - b.prescribed.length) .invalid

end Builtin

end Breadbin
