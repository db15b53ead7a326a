import Breadbin.Pack.Reader
import Breadbin.Program.Encoding
import Breadbin.Text.Quoted

/-!
# Stored programs: reading

The tag of an expression or a statement decides how its form is read.  Expressions, statements and
blocks nest; each takes a byte at least, so the length of the input bounds the depth.
-/

namespace Breadbin

open Unpack (Reader Fields)

/-- Reads a type. -/
def Ty.read : Reader Ty :=
  Unpack.record .invalid
    [("Kind", fun t => return { t with kind := .ofCode (← Unpack.byte) }),
      ("IsArray", fun t => return { t with isArray := ← Unpack.bool }),
      ("Len", fun t => return { t with length := ← Unpack.word })]

/-- Reads a place. -/
def Span.read : Reader Span :=
  Unpack.record .none
    [("File", fun s => return { s with file := ← Unpack.long }),
      ("Start", fun s => return { s with start := ← Unpack.long }),
      ("End", fun s => return { s with stop := ← Unpack.long })]

/-- The list that was read, or that was left out. -/
def Listed.ofRead {α : Type} : Option (List α) → Listed α
  | none => {}
  | some xs => ⟨xs, true⟩

/-- Reads a list. -/
def Listed.read {α : Type} (item : Reader α) : Reader (Listed α) := do
  return .ofRead (← Unpack.list? item)

/-- Reads a run of bytes. -/
def Listed.readBytes : Reader (Listed UInt8) := do
  return .ofRead (← Unpack.bytes?)

/-- Reads a literal. -/
def Literal.read : Reader Literal :=
  Unpack.record {}
    [("Kind", fun v => return { v with kind := .ofCode (← Unpack.byte) }),
      ("Int", fun v => return { v with int := ← Unpack.signed }),
      ("Float", fun v => return { v with float := ← Unpack.double }),
      ("Bool", fun v => return { v with bool := ← Unpack.bool }),
      ("String", fun v => return { v with text := ← Unpack.text })]

/-- Reads the first three values of an expression. -/
def ExprHead.read : Reader ExprHead := do
  let tag ← Unpack.byte
  let type ← Ty.read
  let span ← Span.read
  return { tag, type, span }

/-- The parts of a form that is being read. -/
structure ExprParts where
  op : UInt8 := 0
  id : UInt32 := 0
  first : Expr := .absent
  second : Expr := .absent
  arguments : Listed Expr := {}

namespace ExprParts

/-- A field with the code of an operator or a function. -/
def opField (name : String) : String × (ExprParts → Reader ExprParts) :=
  (name, fun x => return { x with op := ← Unpack.byte })

/-- A field with a number of something. -/
def idField (name : String) : String × (ExprParts → Reader ExprParts) :=
  (name, fun x => return { x with id := ← Unpack.long })

/-- A field with the first operand. -/
def firstField (expr : Reader Expr) (name : String) : String × (ExprParts → Reader ExprParts) :=
  (name, fun x => return { x with first := ← expr })

/-- A field with the second operand. -/
def secondField (expr : Reader Expr) (name : String) : String × (ExprParts → Reader ExprParts) :=
  (name, fun x => return { x with second := ← expr })

/-- The field with the arguments. -/
def argumentsField (expr : Reader Expr) : String × (ExprParts → Reader ExprParts) :=
  ("Args", fun x => return { x with arguments := ← Listed.read expr })

end ExprParts

open ExprParts in
/-- Reads an expression that is not absent.  Its parts are read by `expr`. -/
def Expr.readForm (expr : Reader Expr) : Reader Expr := do
  let h ← ExprHead.read
  if h.tag = 0 then
    return .literal h (← Literal.read)
  if h.tag = 1 then
    let x ← Unpack.record {} [idField "Symbol"]
    return .var h x.id
  if h.tag = 2 then
    let x ← Unpack.record {} [opField "Op", firstField expr "Operand"]
    return .unary h (.ofCode x.op) x.first
  if h.tag = 3 then
    let x ← Unpack.record {} [opField "Op", firstField expr "Left", secondField expr "Right"]
    return .binary h (.ofCode x.op) x.first x.second
  if h.tag = 4 then
    let x ← Unpack.record {} [idField "Func", argumentsField expr]
    return .call h x.id x.arguments.items x.arguments.written
  if h.tag = 5 then
    let x ← Unpack.record {} [idField "Array", firstField expr "Index"]
    return .index h x.id x.first
  if h.tag = 6 then
    let x ← Unpack.record {} [firstField expr "Value"]
    return .cast h x.first
  if h.tag = 7 then
    let x ← Unpack.record {} [opField "Builtin", argumentsField expr]
    return .builtin h (.ofCode x.op) x.arguments.items x.arguments.written
  if h.tag = 8 then
    let x ← Unpack.record {} [idField "Block"]
    return .dataAddress h x.id
  throw (.expressionTag h.tag)

/-- Reads an expression that is nested no deeper than `depth`. -/
def Expr.read : (depth : Nat) → Reader Expr
  | 0 => throw .ended
  | depth + 1 => Unpack.orAbsent .absent (Expr.readForm (Expr.read depth))

/-- Reads the first three values of a statement. -/
def StmtHead.read : Reader StmtHead := do
  let tag ← Unpack.byte
  let _ ← Ty.read
  let span ← Span.read
  return { tag, span }

/-- The parts of a statement that is being read. -/
structure StmtParts where
  symbol : SymbolId := 0
  first : Expr := .absent
  second : Expr := .absent
  op : BinaryOp := .ofCode 0
  flag : Bool := false
  arms : Listed Arm := {}
  body : Block := .absent

namespace StmtParts

/-- A field with a number of a symbol. -/
def symbolField (name : String) : String × (StmtParts → Reader StmtParts) :=
  (name, fun x => return { x with symbol := ← Unpack.long })

/-- A field with the first expression. -/
def firstField (depth : Nat) (name : String) : String × (StmtParts → Reader StmtParts) :=
  (name, fun x => return { x with first := ← Expr.read depth })

/-- A field with the second expression. -/
def secondField (depth : Nat) (name : String) : String × (StmtParts → Reader StmtParts) :=
  (name, fun x => return { x with second := ← Expr.read depth })

/-- A field with a truth value. -/
def flagField (name : String) : String × (StmtParts → Reader StmtParts) :=
  (name, fun x => return { x with flag := ← Unpack.bool })

/-- A field with a block. -/
def bodyField (block : Reader Block) (name : String) : String × (StmtParts → Reader StmtParts) :=
  (name, fun x => return { x with body := ← block })

end StmtParts

/-- Reads an arm. -/
def Arm.read (depth : Nat) (block : Reader Block) : Reader Arm := do
  let x ← Unpack.record {}
    [StmtParts.firstField depth "Cond", StmtParts.bodyField block "Body"]
  return .mk x.first x.body

open StmtParts in
/-- Reads a statement.  Its blocks are read by `block`. -/
def Stmt.readForm (depth : Nat) (block : Reader Block) : Reader Stmt := do
  let h ← StmtHead.read
  if h.tag = 0 then
    let x ← Unpack.record {} [symbolField "Symbol", firstField depth "Value"]
    return .define h x.symbol x.first
  if h.tag = 1 then
    let x ← Unpack.record {}
      [firstField depth "Target", secondField depth "Value",
        ("Op", fun x => return { x with op := .ofCode (← Unpack.byte) }), flagField "Compound"]
    return .assign h x.first x.second x.op x.flag
  if h.tag = 2 then
    let x ← Unpack.record {} [firstField depth "Expr"]
    return .evaluate h x.first
  if h.tag = 3 then
    let x ← Unpack.record {} [firstField depth "Value"]
    return .giveBack h x.first
  if h.tag = 4 then
    Unpack.record () []
    return .leave h
  if h.tag = 5 then
    Unpack.record () []
    return .next h
  if h.tag = 6 then
    let x ← Unpack.record {}
      [("Branches", fun x => return { x with arms := ← Listed.read (Arm.read depth block) }),
        bodyField block "Else"]
    return .choose h x.arms.items x.arms.written x.body
  if h.tag = 7 then
    let x ← Unpack.record {} [firstField depth "Cond", bodyField block "Body"]
    return .loop h x.first x.body
  if h.tag = 8 then
    let x ← Unpack.record {}
      [symbolField "Var", firstField depth "From", secondField depth "To", flagField "Down",
        bodyField block "Body"]
    return .count h x.symbol x.first x.second x.flag x.body
  throw (.statementTag h.tag)

/-- Reads a block whose statements are read by `stmt`. -/
def Block.readForm (stmt : Reader Stmt) : Reader Block := do
  let (statements, span) ← Unpack.record (({} : Listed Stmt), Span.none)
    [("Stmts", fun x => return (← Listed.read stmt, x.2)),
      ("Span", fun x => return (x.1, ← Span.read))]
  return .of statements.items statements.written span

/-- Reads a block that is nested no deeper than `depth`.  Nothing in place of a statement is a
statement without a form. -/
def Block.read : (depth : Nat) → Reader Block
  | 0 => throw .ended
  | depth + 1 =>
    Unpack.orAbsent .absent
      (Block.readForm (Unpack.orAbsent (.blank {}) (Stmt.readForm depth (Block.read depth))))

/-- Reads a carried text. -/
def CarriedFile.read : Reader CarriedFile :=
  Unpack.record {}
    [("Path", fun f => return { f with path := ← Unpack.text }),
      ("Content", fun f => return { f with content := ← Listed.readBytes })]

/-- Reads a symbol. -/
def Symbol.read : Reader Symbol :=
  Unpack.record {}
    [("Name", fun s => return { s with name := ← Unpack.text }),
      ("Type", fun s => return { s with type := ← Ty.read }),
      ("Class", fun s => return { s with symbolClass := .ofCode (← Unpack.byte) }),
      ("Owner", fun s => return { s with owner := ← Unpack.long }),
      ("Span", fun s => return { s with span := ← Span.read })]

/-- Reads a global variable or a constant. -/
def Declaration.read (depth : Nat) : Reader Declaration :=
  Unpack.record {}
    [("Symbol", fun d => return { d with symbol := ← Unpack.long }),
      ("Value", fun d => return { d with value := ← Expr.read depth }),
      ("Span", fun d => return { d with span := ← Span.read })]

/-- Reads a function. -/
def Function.read (depth : Nat) : Reader Function :=
  Unpack.record {}
    [("ID", fun f => return { f with id := ← Unpack.long }),
      ("Name", fun f => return { f with name := ← Unpack.text }),
      ("Params", fun f => return { f with parameters := ← Listed.read Unpack.long }),
      ("Locals", fun f => return { f with locals := ← Listed.read Unpack.long }),
      ("Result", fun f => return { f with result := ← Ty.read }),
      ("Body", fun f => return { f with body := ← Block.read depth }),
      ("Span", fun f => return { f with span := ← Span.read })]

/-- Reads a data block. -/
def DataBlock.read : Reader DataBlock :=
  Unpack.record {}
    [("Name", fun d => return { d with name := ← Unpack.text }),
      ("Bytes", fun d => return { d with bytes := ← Listed.readBytes }),
      ("Align", fun d => return { d with align := ← Unpack.word }),
      ("Span", fun d => return { d with span := ← Span.read })]

namespace Program

/-- Reads a program. -/
def read (depth : Nat) : Reader Program :=
  Unpack.record {}
    [("Name", fun p => return { p with name := ← Unpack.text }),
      ("Files", fun p => return { p with files := ← Listed.read CarriedFile.read }),
      ("Symbols", fun p => return { p with symbols := ← Listed.read Symbol.read }),
      ("Globals", fun p => return { p with globals := ← Listed.read (Declaration.read depth) }),
      ("Funcs", fun p => return { p with functions := ← Listed.read (Function.read depth) }),
      ("Data", fun p => return { p with data := ← Listed.read DataBlock.read }),
      ("Entry", fun p => return { p with entry := ← Unpack.long })]

/-- What a stored program is wrapped in. -/
structure Envelope where
  magic : Bytes := []
  schema : UInt16 := 0
  program : Option Program := none

/-- Reads a wrapped program. -/
def Envelope.read (depth : Nat) : Reader Envelope :=
  Unpack.record {}
    [("Magic", fun e => return { e with magic := ← Unpack.text }),
      ("Schema", fun e => return { e with schema := ← Unpack.word }),
      ("Program", fun e => return { e with
        program := ← Unpack.orAbsent none (some <$> Program.read depth) })]

/-- Why bytes are not a stored program. -/
inductive DecodeError where
  | unreadable (cause : Unpack.ReadError)
  | magic (found : Bytes)
  | schema (found : UInt16)
  | noProgram
  deriving DecidableEq, Repr

/-- What every such failure starts with. -/
def badFile : String := "hir: not a halfbyte IR file"

/-- The text of a failure to read a value. -/
def readErrorText : Unpack.ReadError → String
  | .ended => "EOF"
  | .cut => "unexpected EOF"
  | .unexpected c .recordLength =>
    s!"msgpack: unexpected code={Text.hexLower 1 c.toNat} decoding map length"
  | .unexpected c wanted =>
    s!"msgpack: invalid code={Text.hexLower 1 c.toNat} decoding {wanted.words}"
  | .unknownCode c => s!"msgpack: unknown code {Text.hexLower 1 c.toNat}"
  | .fieldCount => "msgpack: number of fields in array-encoded struct has changed"
  | .expressionTag tag => s!"{badFile}: expression kind {tag.toNat}"
  | .statementTag tag => s!"{badFile}: statement kind {tag.toNat}"

/-- The text of a failure. -/
def DecodeError.message : DecodeError → String
  | unreadable cause => badFile ++ ": " ++ readErrorText cause
  | magic found => badFile ++ ": magic " ++ Text.quoted found
  | schema found => badFile ++ s!": schema {found.toNat}, want {Program.schema.toNat}"
  | noProgram => badFile ++ ": empty program"

/-- Reads a stored program.  What follows it is ignored. -/
def decode (input : Bytes) : Except DecodeError Program :=
  match (Envelope.read (input.length + 1)).run input with
  | .error cause => .error (.unreadable cause)
  | .ok (envelope, _) =>
    if envelope.magic ≠ Program.magic then .error (.magic envelope.magic)
    else if envelope.schema ≠ Program.schema then .error (.schema envelope.schema)
    else
      match envelope.program with
      | none => .error .noProgram
      | some p => .ok p

end Program

end Breadbin
