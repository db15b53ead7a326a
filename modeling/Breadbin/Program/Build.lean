import Breadbin.Program.Basic
import Breadbin.Ty.Resolution

/-!
# Building programs

Declarations are appended to a program; expressions then get the types that the declarations and
the rules of the operators give them.
-/

namespace Breadbin

namespace Program

/-- Declares a symbol. -/
def addSymbol (p : Program) (name : Bytes) (type : Ty) (c : SymbolClass) (owner : FunctionId) :
    Program × SymbolId :=
  let symbols := p.symbols.push { name, type, symbolClass := c, owner }
  ({ p with symbols }, UInt32.ofNat symbols.items.length)

/-- Declares a global variable or a constant, whose value is set later. -/
def addGlobal (p : Program) (name : Bytes) (type : Ty) (constant : Bool) (span : Span) : Program :=
  let (p, symbol) := p.addSymbol name type (if constant then .constant else .global) 0
  { p with globals := p.globals.push { symbol, span } }

/-- Adds a data block. -/
def addData (p : Program) (name : Bytes) (align : UInt16) (bytes : Bytes) (span : Span) : Program :=
  { p with data := p.data.push { name, bytes := ⟨bytes, true⟩, align, span } }

/-- Adds a text the program came from. -/
def addFile (p : Program) (path content : Bytes) : Program :=
  { p with files := p.files.push { path, content := ⟨content, true⟩ } }

/-- Declares the symbols of a frame. -/
def addFrame (p : Program) (c : SymbolClass) (owner : FunctionId) (frame : List (Bytes × Ty)) :
    Program × Listed SymbolId :=
  frame.foldl
    (fun (p, ids) (name, type) =>
      let (p, id) := p.addSymbol name type c owner
      (p, ids.push id))
    (p, {})

/-- Declares a function, whose body is set later.  The first one called `main` becomes the one to
start with. -/
def addFunction (p : Program) (name : Bytes) (result : Ty) (parameters locals : List (Bytes × Ty))
    (span : Span) : Program :=
  let id := UInt32.ofNat (p.functions.items.length + 1)
  let (p, parameters) := p.addFrame .parameter id parameters
  let (p, locals) := p.addFrame .localVariable id locals
  let entry := if name = mainName ∧ p.entry = 0 then id else p.entry
  { p with
    functions := p.functions.push { id, name, parameters, locals, result, span }
    entry }

end Program

namespace Expr

/-- The head of a new expression. -/
def newHead (tag : UInt8) (type : Ty) : ExprHead := { tag, type }

/-- An integer. -/
def ofInt (type : Ty) (v : Int64) : Expr := literal (newHead 0 type) { kind := .int, int := v }

/-- A number of either kind with a fraction. -/
def ofDouble (type : Ty) (v : Numeric.Double) : Expr :=
  literal (newHead 0 type) { kind := .float, float := v }

/-- A truth value. -/
def ofBool (v : Bool) : Expr := literal (newHead 0 .bool) { kind := .bool, bool := v }

/-- A string. -/
def ofText (s : Bytes) : Expr := literal (newHead 0 .string) { kind := .string, text := s }

/-- The value of a symbol. -/
def ofSymbol (p : Program) (id : SymbolId) : Expr :=
  var (newHead 1 ((p.symbol? id).elim .invalid (·.type))) id

/-- An operator before its operand has the operand's type. -/
def ofUnary (op : UnaryOp) (x : Expr) : Expr := unary (newHead 2 x.type) op x

/-- An operator between two operands has the type its rule gives; without both operands there is
none. -/
def ofBinary (op : BinaryOp) (l r : Expr) : Expr :=
  let type :=
    if l.isAbsent || r.isAbsent then .invalid else (Resolution.resolve op l.type r.type).1.result
  binary (newHead 3 type) op l r

/-- A call has the type of the function's result. -/
def ofCall (p : Program) (f : FunctionId) (arguments : List Expr) : Expr :=
  call (newHead 4 ((p.function? f).elim .invalid (·.result))) f arguments (!arguments.isEmpty)

/-- An element of an array. -/
def ofIndex (p : Program) (array : SymbolId) (position : Expr) : Expr :=
  index (newHead 5 ((p.symbol? array).elim .invalid (·.type.element))) array position

/-- A conversion. -/
def ofCast (type : Ty) (x : Expr) : Expr := cast (newHead 6 type) x

/-- A call of a function the compiler provides. -/
def ofBuiltin (b : Builtin) (arguments : List Expr) : Expr :=
  builtin (newHead 7 b.result) b arguments (!arguments.isEmpty)

/-- The address of a data block. -/
def ofData (id : DataId) : Expr := dataAddress (newHead 8 .u16) id

/-- Makes a literal claim to be of another kind. -/
def withLiteralKind (k : LiteralKind) : Expr → Expr
  | literal h v => literal h { v with kind := k }
  | e => e

end Expr

/-- A block of statements. -/
def Block.ofList (ss : List Stmt) : Block := .of ss (!ss.isEmpty) .none

namespace Stmt

/-- Gives a local variable its first value. -/
def newDefine (id : SymbolId) (value : Expr) : Stmt := define { tag := 0 } id value

/-- Stores a value. -/
def newAssign (target value : Expr) : Stmt := assign { tag := 1 } target value (.ofCode 0) false

/-- Combines and stores a value. -/
def newCompound (op : BinaryOp) (target value : Expr) : Stmt :=
  assign { tag := 1 } target value op true

/-- Evaluates for the effect. -/
def newEvaluate (e : Expr) : Stmt := evaluate { tag := 2 } e

/-- Leaves the function. -/
def newGiveBack (value : Expr) : Stmt := giveBack { tag := giveBackTag } value

/-- Leaves the loop. -/
def newLeave : Stmt := leave { tag := 4 }

/-- Goes on with the loop. -/
def newNext : Stmt := next { tag := 5 }

/-- A choice. -/
def newChoose (arms : List Arm) (otherwise : Block) : Stmt :=
  choose { tag := 6 } arms (!arms.isEmpty) otherwise

/-- A loop with a condition. -/
def newLoop (condition : Expr) (body : List Stmt) : Stmt :=
  loop { tag := 7 } condition (.ofList body)

/-- A counting loop. -/
def newCount (counter : SymbolId) (first last : Expr) (down : Bool) (body : List Stmt) : Stmt :=
  count { tag := 8 } counter first last down (.ofList body)

end Stmt

end Breadbin
