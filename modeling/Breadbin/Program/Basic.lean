import Breadbin.Program.Expr
import Breadbin.Source.FileSet

/-!
# Programs

Statements, and the programs that are made of them.
-/

namespace Breadbin

/-!
## Statements

Like expressions, statements are tagged with the code of their form, and the form decides.
-/

/-- What every statement carries. -/
structure StmtHead where
  /-- the code of the form, as stored -/
  tag : UInt8 := 0
  span : Span := .none
  deriving DecidableEq, Repr, Inhabited

/-- The names of the forms by tag, from zero on. -/
def StmtHead.formNames : List String :=
  ["Let", "Assign", "Expr", "Return", "Break", "Continue", "If", "While", "For"]

/-- The name of the form a statement is tagged with. -/
def StmtHead.formName (h : StmtHead) : String :=
  formNames[h.tag.toNat]?.getD "Unknown"

mutual

/-- A statement.  Where a list of arms is empty, `written` says whether a stored program spells the
list out. -/
inductive Stmt where
  /-- a statement whose form is missing -/
  | blank (head : StmtHead)
  /-- gives a local variable its first value -/
  | define (head : StmtHead) (symbol : SymbolId) (value : Expr)
  /-- stores into a variable or an element, after combining with `op` if `compound` -/
  | assign (head : StmtHead) (target value : Expr) (op : BinaryOp) (compound : Bool)
  /-- evaluates for the effect -/
  | evaluate (head : StmtHead) (value : Expr)
  /-- leaves the function -/
  | giveBack (head : StmtHead) (value : Expr)
  /-- leaves the innermost loop -/
  | leave (head : StmtHead)
  /-- goes on with the innermost loop -/
  | next (head : StmtHead)
  /-- the first arm whose condition holds, otherwise the last block -/
  | choose (head : StmtHead) (arms : List Arm) (written : Bool) (otherwise : Block)
  | loop (head : StmtHead) (condition : Expr) (body : Block)
  /-- a loop over a variable from one bound to another, both included -/
  | count (head : StmtHead) (counter : SymbolId) (first last : Expr) (down : Bool) (body : Block)

/-- A sequence of statements.  Where it is empty, `written` says whether a stored program spells
the list out. -/
inductive Block where
  /-- no block at all -/
  | absent
  | of (statements : List Stmt) (written : Bool) (span : Span)

/-- A guarded block. -/
inductive Arm where
  | mk (condition : Expr) (body : Block)

end

instance : Inhabited Stmt := ⟨.blank {}⟩
instance : Inhabited Block := ⟨.absent⟩

namespace Stmt

/-- What a statement carries. -/
def head : Stmt → StmtHead
  | blank h | define h _ _ | assign h _ _ _ _ | evaluate h _ | giveBack h _ | leave h | next h
  | choose h _ _ _ | loop h _ _ | count h _ _ _ _ _ => h

/-- Where a statement stands. -/
def span (s : Stmt) : Span := s.head.span

/-- The tag of a statement. -/
def tag (s : Stmt) : UInt8 := s.head.tag

/-- Replaces what a statement carries. -/
def withHead (f : StmtHead → StmtHead) : Stmt → Stmt
  | blank h => blank (f h)
  | define h s v => define (f h) s v
  | assign h t v op c => assign (f h) t v op c
  | evaluate h v => evaluate (f h) v
  | giveBack h v => giveBack (f h) v
  | leave h => leave (f h)
  | next h => next (f h)
  | choose h as w o => choose (f h) as w o
  | loop h c b => loop (f h) c b
  | count h s a b d body => count (f h) s a b d body

/-- The tag of a statement that leaves the function. -/
def giveBackTag : UInt8 := 3

end Stmt

namespace Block

/-- The statements of a block. -/
def statements : Block → List Stmt
  | absent => []
  | of ss _ _ => ss

/-- Whether there is no block. -/
def isAbsent : Block → Bool
  | absent => true
  | _ => false

end Block

/-!
## Programs

A program is what a front end leaves behind: symbols, constants and variables with their initial
values, functions, blocks of bytes, and the texts it came from.  Symbols, functions and data blocks
are numbered from one in the order of their lists; zero numbers nothing.
-/

/-- A list as a stored program holds it.  A list without items may be left out. -/
structure Listed (α : Type) where
  items : List α := []
  /-- an empty list is spelled out -/
  written : Bool := false
  deriving Repr, Inhabited

/-- A list that is left out only if it has no items. -/
def Listed.of {α : Type} (xs : List α) : Listed α := ⟨xs, !xs.isEmpty⟩

/-- A list with one more item. -/
def Listed.push {α : Type} (l : Listed α) (x : α) : Listed α := ⟨l.items ++ [x], true⟩

/-- Where a symbol lives.  A stored program may carry a code that names no class. -/
inductive SymbolClass where
  | global
  | constant
  | parameter
  | localVariable
  | unknown (code : UInt8)
  deriving DecidableEq, Repr, Inhabited

namespace SymbolClass

/-- The class with a code. -/
def ofCode (code : UInt8) : SymbolClass :=
  if code = 0 then global
  else if code = 1 then constant
  else if code = 2 then parameter
  else if code = 3 then localVariable
  else unknown code

/-- The code of a class. -/
def code : SymbolClass → UInt8
  | global => 0
  | constant => 1
  | parameter => 2
  | localVariable => 3
  | unknown c => c

/-- The spelling of a class. -/
def text : SymbolClass → String
  | global => "global"
  | constant => "const"
  | parameter => "param"
  | localVariable => "local"
  | unknown c => s!"SymbolClass({c.toNat})"

end SymbolClass

/-- A named place to store a value. -/
structure Symbol where
  name : Bytes := []
  type : Ty := .invalid
  symbolClass : SymbolClass := .global
  /-- the function that parameters and local variables belong to -/
  owner : FunctionId := 0
  span : Span := .none
  deriving Repr, Inhabited

/-- A global variable or a constant with its initial value, if it has one. -/
structure Declaration where
  symbol : SymbolId := 0
  value : Expr := .absent
  span : Span := .none
  deriving Inhabited

/-- A function. -/
structure Function where
  id : FunctionId := 0
  name : Bytes := []
  parameters : Listed SymbolId := {}
  locals : Listed SymbolId := {}
  result : Ty := .invalid
  body : Block := .absent
  span : Span := .none
  deriving Inhabited

/-- Bytes that are placed behind the code, on a multiple of `align` unless that is 0. -/
structure DataBlock where
  name : Bytes := []
  bytes : Listed UInt8 := {}
  align : UInt16 := 0
  span : Span := .none
  deriving Repr, Inhabited

/-- A text the program came from. -/
structure CarriedFile where
  path : Bytes := []
  content : Listed UInt8 := {}
  deriving Repr, Inhabited

/-- A complete unit of compilation. -/
structure Program where
  name : Bytes := []
  files : Listed CarriedFile := {}
  symbols : Listed Symbol := {}
  globals : Listed Declaration := {}
  functions : Listed Function := {}
  data : Listed DataBlock := {}
  /-- the function to start with; zero means the one called `main` -/
  entry : FunctionId := 0
  deriving Inhabited

/-- Whether a function gives a value back. -/
def Function.hasResult (f : Function) : Bool :=
  f.result.isValid && f.result.kind != .void

namespace Program

/-- The item with a number, counted from one. -/
def numbered? {α : Type} (xs : List α) (id : UInt32) : Option α :=
  if id = 0 then none else xs[id.toNat - 1]?

/-- The symbol with a number. -/
def symbol? (p : Program) (id : SymbolId) : Option Symbol := numbered? p.symbols.items id

/-- The function with a number. -/
def function? (p : Program) (id : FunctionId) : Option Function := numbered? p.functions.items id

/-- The data block with a number. -/
def dataBlock? (p : Program) (id : DataId) : Option DataBlock := numbered? p.data.items id

/-- The name of the function to start with if none is set. -/
def mainName : Bytes := Text.bytesOf "main"

/-- The position of the function to start with. -/
def entryPosition? (p : Program) : Option Nat :=
  if p.entry ≠ 0 then
    if p.entry.toNat ≤ p.functions.items.length then some (p.entry.toNat - 1) else none
  else p.functions.items.findIdx? fun f => f.name == mainName

/-- The function to start with. -/
def entry? (p : Program) : Option Function :=
  p.entryPosition?.bind fun i => p.functions.items[i]?

/-- The texts the program came from, numbered from zero. -/
def fileSet (p : Program) : FileSet :=
  p.files.items.foldl
    (fun fs f => (fs.add (.ofMemory (Text.shown f.path) f.content.items)).1) {}

end Program

end Breadbin
