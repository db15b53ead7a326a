import Breadbin.Pack.Writer
import Breadbin.Program.Basic

/-!
# Stored programs: writing

A stored program is a packed record with a magic word, the number of its schema and the program.
An expression or a statement is not a record but four values in a row: its tag, a type, its place,
and a record with what its form holds.  Nothing is written for what is absent.
-/

namespace Breadbin

/-- The record of a type. -/
def Ty.packed (t : Ty) : Bytes :=
  Pack.record
    [("Kind", Pack.byte t.kind.code), ("IsArray", Pack.bool t.isArray), ("Len", Pack.word t.length)]

/-- The record of a place. -/
def Span.packed (s : Span) : Bytes :=
  Pack.record
    [("File", Pack.long s.file), ("Start", Pack.long s.start), ("End", Pack.long s.stop)]

/-- A list of packed values; an empty one may be left out. -/
def packedList (items : List Bytes) (written : Bool) : Bytes :=
  if items.isEmpty && !written then Pack.nil else Pack.listHead items.length ++ items.flatten

/-- The list of the items, each packed by `f`. -/
def Listed.packed {α : Type} (f : α → Bytes) (l : Listed α) : Bytes :=
  packedList (l.items.map f) l.written

/-- A run of bytes; an empty one may be left out. -/
def Listed.packedBytes (l : Listed UInt8) : Bytes :=
  if l.items.isEmpty && !l.written then Pack.nil else Pack.bytes l.items

/-- The record of a literal. -/
def Literal.packed (v : Literal) : Bytes :=
  Pack.record
    [("Kind", Pack.byte v.kind.code), ("Int", Pack.signed v.int), ("Float", Pack.double v.float),
      ("Bool", Pack.bool v.bool), ("String", Pack.text v.text)]

/-- The first three values of an expression. -/
def ExprHead.packed (h : ExprHead) : Bytes :=
  Pack.byte h.tag ++ h.type.packed ++ h.span.packed

mutual

/-- An expression. -/
def Expr.packed : Expr → Bytes
  | .absent => Pack.nil
  | .blank h => h.packed ++ Pack.nil
  | .literal h v => h.packed ++ v.packed
  | .var h s => h.packed ++ Pack.record [("Symbol", Pack.long s)]
  | .unary h op x => h.packed ++ Pack.record [("Op", Pack.byte op.code), ("Operand", x.packed)]
  | .binary h op l r =>
    h.packed ++
      Pack.record [("Op", Pack.byte op.code), ("Left", l.packed), ("Right", r.packed)]
  | .call h f as w =>
    h.packed ++ Pack.record [("Func", Pack.long f), ("Args", packedList (Expr.packedAll as) w)]
  | .index h a i => h.packed ++ Pack.record [("Array", Pack.long a), ("Index", i.packed)]
  | .cast h x => h.packed ++ Pack.record [("Value", x.packed)]
  | .builtin h b as w =>
    h.packed ++
      Pack.record [("Builtin", Pack.byte b.code), ("Args", packedList (Expr.packedAll as) w)]
  | .dataAddress h d => h.packed ++ Pack.record [("Block", Pack.long d)]

/-- Expressions, one by one. -/
def Expr.packedAll : List Expr → List Bytes
  | [] => []
  | e :: es => e.packed :: Expr.packedAll es

end

/-- The first three values of a statement, which has no type. -/
def StmtHead.packed (h : StmtHead) : Bytes :=
  Pack.byte h.tag ++ Ty.invalid.packed ++ h.span.packed

mutual

/-- A statement. -/
def Stmt.packed : Stmt → Bytes
  | .blank h => h.packed ++ Pack.nil
  | .define h s v => h.packed ++ Pack.record [("Symbol", Pack.long s), ("Value", v.packed)]
  | .assign h t v op compound =>
    h.packed ++
      Pack.record
        [("Target", t.packed), ("Value", v.packed), ("Op", Pack.byte op.code),
          ("Compound", Pack.bool compound)]
  | .evaluate h v => h.packed ++ Pack.record [("Expr", v.packed)]
  | .giveBack h v => h.packed ++ Pack.record [("Value", v.packed)]
  | .leave h => h.packed ++ Pack.record []
  | .next h => h.packed ++ Pack.record []
  | .choose h arms w otherwise =>
    h.packed ++
      Pack.record
        [("Branches", packedList (Arm.packedAll arms) w), ("Else", otherwise.packed)]
  | .loop h c b => h.packed ++ Pack.record [("Cond", c.packed), ("Body", b.packed)]
  | .count h s first last down b =>
    h.packed ++
      Pack.record
        [("Var", Pack.long s), ("From", first.packed), ("To", last.packed),
          ("Down", Pack.bool down), ("Body", b.packed)]

/-- A block. -/
def Block.packed : Block → Bytes
  | .absent => Pack.nil
  | .of ss w span =>
    Pack.record [("Stmts", packedList (Stmt.packedAll ss) w), ("Span", span.packed)]

/-- Statements, one by one. -/
def Stmt.packedAll : List Stmt → List Bytes
  | [] => []
  | s :: ss => s.packed :: Stmt.packedAll ss

/-- Arms, one by one. -/
def Arm.packedAll : List Arm → List Bytes
  | [] => []
  | .mk c b :: arms =>
    Pack.record [("Cond", c.packed), ("Body", b.packed)] :: Arm.packedAll arms

end

/-- The record of a carried text. -/
def CarriedFile.packed (f : CarriedFile) : Bytes :=
  Pack.record [("Path", Pack.text f.path), ("Content", f.content.packedBytes)]

/-- The record of a symbol. -/
def Symbol.packed (s : Symbol) : Bytes :=
  Pack.record
    [("Name", Pack.text s.name), ("Type", s.type.packed), ("Class", Pack.byte s.symbolClass.code),
      ("Owner", Pack.long s.owner), ("Span", s.span.packed)]

/-- The record of a global variable or a constant. -/
def Declaration.packed (d : Declaration) : Bytes :=
  Pack.record
    [("Symbol", Pack.long d.symbol), ("Value", d.value.packed), ("Span", d.span.packed)]

/-- The record of a function. -/
def Function.packed (f : Function) : Bytes :=
  Pack.record
    [("ID", Pack.long f.id), ("Name", Pack.text f.name),
      ("Params", f.parameters.packed Pack.long), ("Locals", f.locals.packed Pack.long),
      ("Result", f.result.packed), ("Body", f.body.packed), ("Span", f.span.packed)]

/-- The record of a data block. -/
def DataBlock.packed (d : DataBlock) : Bytes :=
  Pack.record
    [("Name", Pack.text d.name), ("Bytes", d.bytes.packedBytes), ("Align", Pack.word d.align),
      ("Span", d.span.packed)]

namespace Program

/-- The record of a program. -/
def packed (p : Program) : Bytes :=
  Pack.record
    [("Name", Pack.text p.name), ("Files", p.files.packed CarriedFile.packed),
      ("Symbols", p.symbols.packed Symbol.packed),
      ("Globals", p.globals.packed Declaration.packed),
      ("Funcs", p.functions.packed Function.packed), ("Data", p.data.packed DataBlock.packed),
      ("Entry", Pack.long p.entry)]

/-- The word every stored program starts with. -/
def magic : Bytes := Text.bytesOf "HBIR"

/-- The number of the layout that is written and read. -/
def schema : UInt16 := 2

/-- The stored form of a program, or of no program. -/
def encode (p : Option Program) : Bytes :=
  Pack.record
    [("Magic", Pack.text magic), ("Schema", Pack.word schema), ("Program", p.elim Pack.nil packed)]

end Program

end Breadbin
