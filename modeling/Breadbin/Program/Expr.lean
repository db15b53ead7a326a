import Breadbin.Numeric.Double
import Breadbin.Program.Builtin
import Breadbin.Source.FileSet
import Breadbin.Text.Bytes
import Breadbin.Ty.Operator

/-!
# Expressions

Names are resolved and types are written down: every expression carries the type it has been given.
An expression is also tagged with the code of its form.  The tag is what a stored program says and
may contradict the form; the form decides what an expression does.
-/

namespace Breadbin

/-- The number of a symbol, counted from one. -/
abbrev SymbolId := UInt32

/-- The number of a function, counted from one. -/
abbrev FunctionId := UInt32

/-- The number of a data block, counted from one. -/
abbrev DataId := UInt32

/-- What a literal is.  A stored program may carry a code that names nothing. -/
inductive LiteralKind where
  | int
  | float
  | bool
  | string
  | unknown (code : UInt8)
  deriving DecidableEq, Repr, Inhabited

namespace LiteralKind

/-- The kind with a code. -/
def ofCode (code : UInt8) : LiteralKind :=
  if code = 0 then int
  else if code = 1 then float
  else if code = 2 then bool
  else if code = 3 then string
  else unknown code

/-- The code of a kind. -/
def code : LiteralKind → UInt8
  | int => 0
  | float => 1
  | bool => 2
  | string => 3
  | unknown c => c

end LiteralKind

/-- A literal: the kind says which of the values is meant. -/
structure Literal where
  kind : LiteralKind := .int
  int : Int64 := 0
  float : Numeric.Double := .zero
  bool : Bool := false
  text : Bytes := []
  deriving Repr, Inhabited

/-- What every expression carries. -/
structure ExprHead where
  /-- the code of the form, as stored -/
  tag : UInt8 := 0
  type : Ty := .invalid
  span : Span := .none
  deriving DecidableEq, Repr, Inhabited

/-- An expression.  Where a list of arguments is empty, `written` says whether a stored program
spells the list out. -/
inductive Expr where
  /-- no expression at all -/
  | absent
  /-- an expression whose form is missing -/
  | blank (head : ExprHead)
  | literal (head : ExprHead) (value : Literal)
  | var (head : ExprHead) (symbol : SymbolId)
  | unary (head : ExprHead) (op : UnaryOp) (operand : Expr)
  | binary (head : ExprHead) (op : BinaryOp) (left right : Expr)
  | call (head : ExprHead) (callee : FunctionId) (arguments : List Expr) (written : Bool)
  /-- an element of an array -/
  | index (head : ExprHead) (array : SymbolId) (position : Expr)
  /-- a conversion to the expression's type -/
  | cast (head : ExprHead) (operand : Expr)
  | builtin (head : ExprHead) (callee : Builtin) (arguments : List Expr) (written : Bool)
  /-- the address of a data block -/
  | dataAddress (head : ExprHead) (block : DataId)
  deriving Inhabited

/-- The names of the forms by tag, from zero on. -/
def ExprHead.formNames : List String :=
  ["Literal", "VarRef", "Unary", "Binary", "Call", "Index", "Cast", "Builtin", "DataAddr"]

/-- The name of the form an expression is tagged with. -/
def ExprHead.formName (h : ExprHead) : String :=
  formNames[h.tag.toNat]?.getD "Unknown"

namespace Expr

/-- What an expression carries; nothing is carried by no expression. -/
def head : Expr → ExprHead
  | absent => {}
  | blank h | literal h _ | var h _ | unary h _ _ | binary h _ _ _ | call h _ _ _
  | index h _ _ | cast h _ | builtin h _ _ _ | dataAddress h _ => h

/-- The type an expression has been given. -/
def type (e : Expr) : Ty := e.head.type

/-- Where an expression stands. -/
def span (e : Expr) : Span := e.head.span

/-- The tag of an expression. -/
def tag (e : Expr) : UInt8 := e.head.tag

/-- Whether there is no expression. -/
def isAbsent : Expr → Bool
  | absent => true
  | _ => false

/-- Replaces what an expression carries. -/
def withHead (f : ExprHead → ExprHead) : Expr → Expr
  | absent => absent
  | blank h => blank (f h)
  | literal h v => literal (f h) v
  | var h s => var (f h) s
  | unary h op x => unary (f h) op x
  | binary h op l r => binary (f h) op l r
  | call h c as w => call (f h) c as w
  | index h a i => index (f h) a i
  | cast h x => cast (f h) x
  | builtin h b as w => builtin (f h) b as w
  | dataAddress h d => dataAddress (f h) d

/-- Whether an expression is tagged as a literal. -/
def isLiteral : Expr → Bool
  | absent => false
  | e => e.tag == 0

/-- The value of a literal that is tagged as one. -/
def literal? : Expr → Option Literal
  | literal h v => if h.tag == 0 then some v else none
  | _ => none

end Expr

end Breadbin
