import Breadbin.Toml.Scalar
import Breadbin.Text.Bytes

/-!
# Reading configuration files

A configuration file is a row of statements: headings of tables, and entries of a key and a value.
Reading finds out what is written; what it means together is told by the document.
-/

namespace Breadbin.Toml

/-- The parts of a key. -/
abbrev Key := List String

/-- A value as it is written. -/
inductive Term where
  | text (s : String)
  | int (n : Int)
  | float
  | bool (b : Bool)
  | moment
  | array (items : List Term)
  | record (entries : List (Key × Term))
  deriving Inhabited

/-- A line, or several, of a file. -/
inductive Statement where
  | table (key : Key)
  | tableOfArray (key : Key)
  | entry (key : Key) (value : Term)
  deriving Inhabited

/-- Reads something from the front of a text. -/
abbrev Reader (α : Type) := List Char → Option (α × List Char)

/-- A blank within a line. -/
def isGap (c : Char) : Bool := c = ' ' || c = '\t'

/-- A character that ends a line. -/
def isLineEnd (c : Char) : Bool := c = '\n' || c = '\r'

/-- A character of a key without quotes. -/
def isKeyChar (c : Char) : Bool := c.isAlphanum || c = '_' || c = '-'

/-- Every character may stand in a file: no control characters, and a carriage return only before a
line feed. -/
def legal : List Char → Bool
  | [] => true
  | '\r' :: rest => rest.head? = some '\n' && legal rest
  | c :: rest => (c = '\t' || c = '\n' || (0x20 ≤ c.toNat && c.toNat ≠ 0x7F)) && legal rest

/-- Skips blanks within a line. -/
def skipGap (cs : List Char) : List Char := cs.dropWhile isGap

/-- Skips the rest of a line. -/
def skipComment (cs : List Char) : List Char := cs.dropWhile (!isLineEnd ·)

/-- Reads a string with escapes, after its quote. -/
def quoted : List Char → Option (List Char × List Char)
  | '"' :: rest => some ([], rest)
  | '\\' :: rest =>
    match escape? rest with
    | none => none
    | some (c, after) =>
      if _ : after.length < rest.length then (quoted after).map fun (s, cs) =>
        (c :: s, cs) else none
  | c :: rest => if isLineEnd c then none else (quoted rest).map fun (s, cs) => (c :: s, cs)
  | [] => none
termination_by cs => cs.length

/-- Reads a string without escapes, after its quote. -/
def raw (cs : List Char) : Option (List Char × List Char) :=
  match cs.dropWhile fun c => c ≠ '\'' && !isLineEnd c with
  | '\'' :: rest => some (cs.takeWhile (· ≠ '\''), rest)
  | _ => none

/-- Cuts a string of several lines at its closing quotes: up to two more may stand before them, and
one more still after a backslash that stands for itself. -/
def closing (quote : Char) (escapes : Bool) (most : Nat) :
    List Char → Option (List Char × List Char)
  | [] => none
  | c :: rest =>
    if c = quote then
      let quotes := (c :: rest).takeWhile (· = quote)
      if quotes.length < 3 then
        (closing quote escapes 5 rest).map fun (s, cs) => (c :: s, cs)
      else if quotes.length ≤ most then
        some (quotes.drop 3, (c :: rest).drop quotes.length)
      else none
    else if c = '\\' && escapes then
      match rest with
      | [] => none
      | d :: more =>
        (closing quote escapes (if d = '\\' then 6 else 5) more).map fun (s, cs) =>
          (c :: d :: s, cs)
    else (closing quote escapes 5 rest).map fun (s, cs) => (c :: s, cs)

/-- Drops a line end at the very front. -/
def dropLineEnd : List Char → List Char
  | '\n' :: rest => rest
  | '\r' :: '\n' :: rest => rest
  | cs => cs

/-- Replaces the escapes of a string of several lines; one before a line end joins the lines. -/
def unescape : (fuel : Nat) → List Char → Option (List Char)
  | 0, _ => none
  | _ + 1, [] => some []
  | n + 1, '\\' :: rest =>
    let blanks := rest.takeWhile fun c => isGap c || isLineEnd c
    if blanks.contains '\n' then unescape n (rest.drop blanks.length)
    else do
      let (c, after) ← escape? rest
      return c :: (← unescape n after)
  | n + 1, c :: rest => do return c :: (← unescape n rest)

/-- Reads a string of several lines, after its quotes. -/
def multiline (cs : List Char) : Option (List Char × List Char) := do
  let (body, rest) ← closing '"' true 5 cs
  let body := dropLineEnd body
  return (← unescape (body.length + 1) body, rest)

/-- Reads a string of several lines without escapes, after its quotes. -/
def rawMultiline (cs : List Char) : Option (List Char × List Char) :=
  (closing '\'' false 5 cs).map fun (body, rest) => (dropLineEnd body, rest)

/-- Reads one part of a key. -/
def keyPart : Reader String
  | '"' :: rest => (quoted rest).map fun (s, cs) => (String.ofList s, cs)
  | '\'' :: rest => (raw rest).map fun (s, cs) => (String.ofList s, cs)
  | cs =>
    match cs.takeWhile isKeyChar with
    | [] => none
    | name => some (String.ofList name, cs.drop name.length)

/-- Reads the parts of a key up to the character that ends it. -/
def key (last : Char) : (fuel : Nat) → Reader Key
  | 0, _ => none
  | n + 1, cs => do
    let (part, rest) ← keyPart (skipGap cs)
    match skipGap rest with
    | c :: rest =>
      if c = last then return ([part], rest)
      else if c = '.' then
        let (parts, rest) ← key last n rest
        return (part :: parts, rest)
      else none
    | [] => none

/-- Reads a number or a moment. -/
def number (cs : List Char) : Option (Term × List Char) :=
  let token (p : Char → Bool) := cs.takeWhile p
  let after (t : List Char) := cs.drop t.length
  let sign := match cs with | '-' :: _ | '+' :: _ => 1 | _ => 0
  let plain := cs.take sign ++ (cs.drop sign).takeWhile fun c => isDigit c || c = '_'
  let isReal (c : Char) :=
    isDigit c || c = '_' || c = '.' || c = '-' || c = '+' || c = 'e' || c = 'E'
  let isTime (c : Char) :=
    isDigit c || c = '-' || c = ':' || c = 'T' || c = 't' || c = ' ' || c = '.' ||
      c = 'Z' || c = 'z' ||
      c = '+'
  match cs with
  | '0' :: b :: d :: _ =>
    if (b = 'x' || b = 'o' || b = 'b') && isHexDigit d then
      let digits := (cs.drop 2).takeWhile fun c =>
        c = '_' || (Text.digitValue? c).any (· < if b = 'x' then 16 else if b = 'o' then 8 else 2)
      (int? ('0' :: b :: digits)).map fun n => (.int n, cs.drop (2 + digits.length))
    else decimal token after sign plain isReal isTime
  | _ => decimal token after sign plain isReal isTime
where
  decimal (token : (Char → Bool) → List Char) (after : List Char → List Char) (sign : Nat)
      (plain : List Char) (isReal isTime : Char → Bool) : Option (Term × List Char) :=
    let next := (after plain).head?
    if next = some '.' || next = some 'e' || next = some 'E' then
      let t := token isReal
      if isFloat t then some (.float, after t) else none
    else if sign = 0 && (next = some '-' || next = some ':') && !plain.contains '_' then
      let t := token isTime
      let trimmed := (t.reverse.dropWhile (· = ' ')).reverse
      if isMoment trimmed then some (.moment, after t) else none
    else (int? plain).map fun n => (.int n, after plain)

/-- Skips blanks, line ends and comments. -/
def skipLines : (fuel : Nat) → List Char → List Char
  | 0, cs => cs
  | n + 1, cs =>
    match cs.dropWhile fun c => isGap c || isLineEnd c with
    | '#' :: rest => skipLines n (skipComment rest)
    | rest => rest

/-- Reads the words that are values. -/
def word (cs : List Char) : Option (Term × List Char) :=
  [("true", Term.bool true), ("false", .bool false), ("inf", .float),
      ("nan", .float), ("+inf", .float), ("-inf", .float), ("+nan", .float),
      ("-nan", .float)].findSome? fun (w, t) =>
    if w.toList.isPrefixOf cs then some (t, cs.drop w.length) else none

mutual

/-- Reads a value. -/
def term : (fuel : Nat) → Reader Term
  | 0, _ => none
  | n + 1, cs =>
    match skipGap cs with
    | '[' :: rest => (items n rest).map fun (ts, cs) => (.array ts, cs)
    | '\x7b' :: rest =>
      match skipGap rest with
      | '\x7d' :: rest => some (.record [], rest)
      | rest => (entries n rest).map fun (es, cs) => (.record es, cs)
    | '"' :: '"' :: '"' :: rest => (multiline rest).map fun (s, cs) => (.text (String.ofList s), cs)
    | '"' :: rest => (quoted rest).map fun (s, cs) => (.text (String.ofList s), cs)
    | '\'' :: '\'' :: '\'' :: rest =>
      (rawMultiline rest).map fun (s, cs) => (.text (String.ofList s), cs)
    | '\'' :: rest => (raw rest).map fun (s, cs) => (.text (String.ofList s), cs)
    | rest => (word rest).or (number rest)

/-- Reads the items of an array, up to its end. -/
def items : (fuel : Nat) → Reader (List Term)
  | 0, _ => none
  | n + 1, cs =>
    match skipLines cs.length cs with
    | ']' :: rest => some ([], rest)
    | rest => do
      let (t, rest) ← term n rest
      match skipLines rest.length rest with
      | ']' :: rest => return ([t], rest)
      | ',' :: rest =>
        let (ts, rest) ← items n rest
        return (t :: ts, rest)
      | _ => none

/-- Reads the entries of a table that is written on one line, up to its end. -/
def entries : (fuel : Nat) → Reader (List (Key × Term))
  | 0, _ => none
  | n + 1, cs => do
    let (k, rest) ← key '=' n cs
    let (t, rest) ← term n rest
    match skipGap rest with
    | '\x7d' :: rest => return ([(k, t)], rest)
    | ',' :: rest =>
      let (es, rest) ← entries n rest
      return ((k, t) :: es, rest)
    | _ => none

end

/-- Nothing but a comment may follow a statement on its line. -/
def lineRest (cs : List Char) : Option (List Char) :=
  match skipGap cs with
  | [] => some []
  | '#' :: rest => some (skipComment rest)
  | c :: rest => if isLineEnd c then some rest else none

/-- Reads one statement. -/
def statement (cs : List Char) : Option (Statement × List Char) :=
  let fuel := cs.length + 1
  match cs with
  | '[' :: '[' :: rest => do
    let (k, rest) ← key ']' fuel rest
    return (.tableOfArray k, ← expect? ']' rest)
  | '[' :: rest => do
    let (k, rest) ← key ']' fuel rest
    return (.table k, rest)
  | _ => do
    let (k, rest) ← key '=' fuel cs
    let (t, rest) ← term fuel rest
    return (.entry k t, rest)

/-- Reads statements up to the end of the text. -/
def statements : (fuel : Nat) → List Char → Option (List Statement)
  | 0, _ => none
  | n + 1, cs =>
    match skipLines cs.length cs with
    | [] => some []
    | rest => do
      let (s, rest) ← statement rest
      return s :: (← statements n (← lineRest rest))

/-- Drops the mark that tells an encoding. -/
def withoutMark : Bytes → Bytes
  | 0xEF :: 0xBB :: 0xBF :: rest => rest
  | 0xFF :: 0xFE :: rest => rest
  | 0xFE :: 0xFF :: rest => rest
  | file => file

/-- The statements of a file. -/
def parse? (file : Bytes) : Option (List Statement) :=
  let file := withoutMark file
  let cs := Text.scalars file
  if Text.wellFormed file && legal cs then statements (cs.length + 1) cs else none

end Breadbin.Toml
