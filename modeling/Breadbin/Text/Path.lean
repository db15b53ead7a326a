import Breadbin.Text.Bytes

/-!
# Paths

Paths are sequences of elements between slashes.  A path that is given is a text; the path of a file
is a string of bytes, since a name need not be well-formed.
-/

namespace Breadbin.Text.Path

/-! ## Sequences of signs -/

/-- What a path is made of: characters, or bytes. -/
class Sign (α : Type) where
  slash : α
  dot : α

open Sign

instance : Sign Char where
  slash := '/'
  dot := '.'

instance : Sign UInt8 where
  slash := 0x2F
  dot := 0x2E

/-- Splits a sequence at every occurrence of a separator. -/
def split {α : Type} [BEq α] (sep : α) : List α → List (List α)
  | [] => [[]]
  | c :: rest =>
    if c == sep then [] :: split sep rest
    else
      match split sep rest with
      | [] => [[c]]
      | first :: more => (c :: first) :: more

/-- Drops signs at the end. -/
def dropTrailing {α : Type} [BEq α] (c : α) (cs : List α) : List α :=
  (cs.reverse.dropWhile (· == c)).reverse

section

variable {α : Type} [BEq α] [Sign α]

/-- Adds one element to the cleaned elements, kept in reverse. -/
def step (rooted : Bool) (reversed : List (List α)) (element : List α) : List (List α) :=
  if element.isEmpty || element == [dot] then reversed
  else if element == [dot, dot] then
    match reversed with
    | [] => if rooted then [] else [[dot, dot]]
    | last :: before => if last == [dot, dot] then [dot, dot] :: reversed else before
  else element :: reversed

/-- The shortest path with the same meaning: no empty elements, no `.`, and `..` only in front. -/
def cleaned (p : List α) : List α :=
  if p.isEmpty then [dot]
  else
    let rooted := p.head? == some slash
    let elements := ((split slash p).foldl (step rooted) []).reverse
    let body := [slash].intercalate elements
    if rooted then slash :: body
    else if body.isEmpty then [dot] else body

/-- The elements joined and cleaned; empty ones in front are left out. -/
def joined (parts : List (List α)) : List α :=
  match parts.dropWhile List.isEmpty with
  | [] => []
  | rest => cleaned ([slash].intercalate rest)

/-- The signs behind the last slash. -/
def lastElement (p : List α) : List α := (p.reverse.takeWhile (· != slash)).reverse

/-- The last element of a path. -/
def baseOf (p : List α) : List α :=
  if p.isEmpty then [dot]
  else
    match dropTrailing slash p with
    | [] => [slash]
    | cs => lastElement cs

/-- The suffix of the last element from its last point on. -/
def extensionOf (p : List α) : List α :=
  let last := p.reverse.takeWhile (· != slash)
  if last.contains dot then dot :: (last.takeWhile (· != dot)).reverse else []

/-- The last element of a path without the path's extension. -/
def stemOf (p : List α) : List α :=
  let last := baseOf p
  let suffix := extensionOf p
  if suffix.isSuffixOf last then last.take (last.length - suffix.length) else last

/-- Whether the path starts at the root. -/
def isRooted (p : List α) : Bool := p.head? == some slash

end

/-! ## Texts -/

/-- The parts of a text between the occurrences of a character. -/
def splitOn (sep : Char) (s : String) : List String :=
  (split sep s.toList).map String.ofList

/-- The shortest path with the same meaning. -/
def clean (p : String) : String := String.ofList (cleaned p.toList)

/-- The elements joined and cleaned; empty ones in front are left out. -/
def join (parts : List String) : String := String.ofList (joined (parts.map String.toList))

/-- The last element of a path. -/
def base (p : String) : String := String.ofList (baseOf p.toList)

/-- Everything before the last element, cleaned. -/
def directory (p : String) : String :=
  clean (String.ofList ((p.toList.reverse.dropWhile (· != '/')).reverse))

/-- The suffix of the last element from its last point on. -/
def extension (p : String) : String := String.ofList (extensionOf p.toList)

/-- The last element of a path without the path's extension. -/
def stem (p : String) : String := String.ofList (stemOf p.toList)

/-- The elements that lead from one cleaned absolute path to another. -/
def relative (start target : String) : String :=
  let source := elements start
  let goal := elements target
  let shared := ((source.zip goal).takeWhile fun (a, b) => a == b).length
  match List.replicate (source.length - shared) ".." ++ goal.drop shared with
  | [] => "."
  | path => "/".intercalate path
where
  elements (p : String) : List String := (splitOn '/' p).filter (!·.isEmpty)

/-- Whether the path starts at the root. -/
def isAbsolute (p : String) : Bool := isRooted p.toList

end Breadbin.Text.Path
