import Breadbin.Numeric.Shortest
import Breadbin.Program.Basic
import Breadbin.Text.Quoted

/-!
# Listing of a program

The text of a program for people: declarations, data blocks and functions in order.  Blocks are
indented by four columns; names that a number does not lead to are spelled by the number.
-/

namespace Breadbin

namespace Program

/-- The name of a symbol. -/
def symbolText (p : Program) (id : SymbolId) : String :=
  match p.symbol? id with
  | some s => Text.shown s.name
  | none => s!"sym{id.toNat}"

/-- The name and the type of a symbol. -/
def symbolDeclaration (p : Program) (id : SymbolId) : String :=
  match p.symbol? id with
  | some s => Text.shown s.name ++ ": " ++ s.type.text
  | none => s!"sym{id.toNat}"

/-- The name of a function. -/
def functionText (p : Program) (id : FunctionId) : String :=
  match p.function? id with
  | some f => Text.shown f.name
  | none => s!"fn{id.toNat}"

/-- The name of a data block. -/
def dataText (p : Program) (id : DataId) : String :=
  match p.dataBlock? id with
  | some d => Text.shown d.name
  | none => s!"data{id.toNat}"

end Program

/-- The text of a literal of some type; none if its kind is unknown. -/
def Literal.text? (v : Literal) (type : Ty) : Option String :=
  match v.kind with
  | .int => some (toString v.int.toInt ++ ":" ++ type.text)
  | .float => some (v.float.general ++ ":" ++ type.text)
  | .bool => some (if v.bool then "true" else "false")
  | .string => some (Text.quoted v.text)
  | .unknown _ => none

/-- An operator before its operand: one that is a word stands apart. -/
def UnaryOp.lead (op : UnaryOp) : String :=
  if op.text.utf8ByteSize > 1 then op.text ++ " " else op.text

mutual

/-- The text of an expression. -/
def Expr.text (p : Program) : Expr → String
  | .absent => "<nil>"
  | .blank h => "<" ++ h.formName ++ ">"
  | .literal h v => (v.text? h.type).getD ("<" ++ h.formName ++ ">")
  | .var _ s => p.symbolText s
  | .unary _ op x => op.lead ++ x.text p
  | .binary _ op l r => "(" ++ l.text p ++ " " ++ op.text ++ " " ++ r.text p ++ ")"
  | .call _ f as _ => p.functionText f ++ "(" ++ ", ".intercalate (Expr.texts p as) ++ ")"
  | .index _ a i => p.symbolText a ++ "[" ++ i.text p ++ "]"
  | .cast h x => "(" ++ x.text p ++ " as " ++ h.type.text ++ ")"
  | .builtin _ b as _ => b.text ++ "(" ++ ", ".intercalate (Expr.texts p as) ++ ")"
  | .dataAddress _ d => "&" ++ p.dataText d

/-- The texts of expressions. -/
def Expr.texts (p : Program) : List Expr → List String
  | [] => []
  | e :: es => e.text p :: Expr.texts p es

end

/-- A line at some depth. -/
def indentedLine (depth : Nat) (s : String) : String :=
  Text.copies (4 * depth) ' ' ++ s

mutual

/-- The lines of a statement. -/
def Stmt.lines (p : Program) (depth : Nat) : Stmt → List String
  | .blank h => [indentedLine depth ("<" ++ h.formName ++ ">")]
  | .define _ s v => [indentedLine depth ("let " ++ p.symbolText s ++ " = " ++ v.text p)]
  | .assign _ t v op compound =>
    let sign := if compound then op.text ++ "=" else "="
    [indentedLine depth (t.text p ++ " " ++ sign ++ " " ++ v.text p)]
  | .evaluate _ v => [indentedLine depth (v.text p)]
  | .giveBack _ v =>
    [indentedLine depth (if v.isAbsent then "return" else "return " ++ v.text p)]
  | .leave _ => [indentedLine depth "break"]
  | .next _ => [indentedLine depth "continue"]
  | .choose _ arms _ otherwise =>
    Arm.lines p depth "if" arms ++
      if otherwise.isAbsent then []
      else indentedLine depth "else:" :: otherwise.lines p (depth + 1)
  | .loop _ c b => indentedLine depth ("while " ++ c.text p ++ ":") :: b.lines p (depth + 1)
  | .count _ s first last down b =>
    let direction := if down then " downto " else " to "
    indentedLine depth
        ("for " ++ p.symbolText s ++ " in " ++ first.text p ++ direction ++ last.text p ++ ":") ::
      b.lines p (depth + 1)

/-- The lines of a block. -/
def Block.lines (p : Program) (depth : Nat) : Block → List String
  | .absent => [indentedLine depth "pass"]
  | .of [] _ _ => [indentedLine depth "pass"]
  | .of ss _ _ => Stmt.allLines p depth ss

/-- The lines of a list of statements. -/
def Stmt.allLines (p : Program) (depth : Nat) : List Stmt → List String
  | [] => []
  | s :: ss => s.lines p depth ++ Stmt.allLines p depth ss

/-- The lines of a list of arms, the first of which opens with `word`. -/
def Arm.lines (p : Program) (depth : Nat) (word : String) : List Arm → List String
  | [] => []
  | .mk c b :: arms =>
    indentedLine depth (word ++ " " ++ c.text p ++ ":") ::
      (b.lines p (depth + 1) ++ Arm.lines p depth "elif" arms)

end

namespace Program

/-- The line of a variable or a constant. -/
def globalLine (p : Program) (g : Declaration) : String :=
  match p.symbol? g.symbol with
  | none => s!"<bad symbol {g.symbol.toNat}>"
  | some s =>
    let word := if s.symbolClass = .constant then "const " else "var "
    let value := if g.value.isAbsent then "" else " = " ++ g.value.text p
    word ++ Text.shown s.name ++ ": " ++ s.type.text ++ value

/-- The line of a data block. -/
def dataLine (d : DataBlock) : String :=
  let align := if 1 < d.align then s!" align {d.align.toNat}" else ""
  let bytes := d.bytes.items.map fun b => Text.hexLower 2 b.toNat
  "data " ++ Text.shown d.name ++ align ++ ": " ++ " ".intercalate bytes

/-- The lines of a function, which stands at a position in the program. -/
def functionLines (p : Program) (position : Nat) (f : Function) : List String :=
  let parameters := ", ".intercalate (f.parameters.items.map p.symbolDeclaration)
  let entry := if p.entryPosition? = some position then " @entry" else ""
  let locals := ", ".intercalate (f.locals.items.map p.symbolDeclaration)
  ["func " ++ Text.shown f.name ++ "(" ++ parameters ++ ") -> " ++ f.result.text ++ entry ++ ":"] ++
    (if f.locals.items.isEmpty then [] else [indentedLine 1 ("locals " ++ locals)]) ++
    f.body.lines p 1

/-- The lines of a program. -/
def lines (p : Program) : List String :=
  ["program " ++ Text.shown p.name] ++ p.globals.items.map p.globalLine ++
    p.data.items.map dataLine ++
    (p.functions.items.zipIdx.flatMap fun (f, i) => "" :: p.functionLines i f)

/-- The listing of a program. -/
def listing (p : Program) : String :=
  String.join (p.lines.map (· ++ "\n"))

end Program

end Breadbin
