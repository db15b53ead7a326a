import Breadbin.Program.Basic

/-!
# Recursion

The expressions and statements inside a program, and the warning about calls that come round.
-/

namespace Breadbin

/-!
## Walking over a program

Every expression of a program in one order: initial values first, then the bodies of the functions,
each expression before its parts.
-/

mutual

/-- An expression and its parts, outermost first.  The parts of an expression that `enter` refuses
are left out. -/
def Expr.visit (enter : Expr → Bool) : Expr → List Expr
  | .absent => []
  | .unary h op x =>
    let e := Expr.unary h op x
    e :: if enter e then x.visit enter else []
  | .binary h op l r =>
    let e := Expr.binary h op l r
    e :: if enter e then l.visit enter ++ r.visit enter else []
  | .call h f as w =>
    let e := Expr.call h f as w
    e :: if enter e then Expr.visitAll enter as else []
  | .index h a i =>
    let e := Expr.index h a i
    e :: if enter e then i.visit enter else []
  | .cast h x =>
    let e := Expr.cast h x
    e :: if enter e then x.visit enter else []
  | .builtin h b as w =>
    let e := Expr.builtin h b as w
    e :: if enter e then Expr.visitAll enter as else []
  | e => [e]

/-- The expressions of a list, one after the other. -/
def Expr.visitAll (enter : Expr → Bool) : List Expr → List Expr
  | [] => []
  | e :: es => e.visit enter ++ Expr.visitAll enter es

end

mutual

/-- The expressions of a statement. -/
def Stmt.visit (enter : Expr → Bool) : Stmt → List Expr
  | .define _ _ v => v.visit enter
  | .assign _ t v _ _ => t.visit enter ++ v.visit enter
  | .evaluate _ v => v.visit enter
  | .giveBack _ v => v.visit enter
  | .choose _ arms _ otherwise => Arm.visitAll enter arms ++ otherwise.visit enter
  | .loop _ c b => c.visit enter ++ b.visit enter
  | .count _ _ first last _ b => first.visit enter ++ last.visit enter ++ b.visit enter
  | .blank _ | .leave _ | .next _ => []

/-- The expressions of a block. -/
def Block.visit (enter : Expr → Bool) : Block → List Expr
  | .absent => []
  | .of ss _ _ => Stmt.visitAll enter ss

/-- The expressions of a list of statements. -/
def Stmt.visitAll (enter : Expr → Bool) : List Stmt → List Expr
  | [] => []
  | s :: ss => s.visit enter ++ Stmt.visitAll enter ss

/-- The expressions of a list of arms. -/
def Arm.visitAll (enter : Expr → Bool) : List Arm → List Expr
  | [] => []
  | .mk c b :: arms => c.visit enter ++ b.visit enter ++ Arm.visitAll enter arms

end

/-- The function of the compiler that an expression calls. -/
def Expr.builtin? : Expr → Option Builtin
  | .builtin _ b _ _ => some b
  | _ => none

namespace Program

/-- Every expression, the parts of those that `enter` refuses left out. -/
def expressions (p : Program) (enter : Expr → Bool) : List Expr :=
  p.globals.items.flatMap (fun g => g.value.visit enter) ++
    p.functions.items.flatMap (fun f => f.body.visit enter)

/-- Whether any expression calls a function for which `q` holds. -/
def callsBuiltin (p : Program) (q : Builtin → Bool) : Bool :=
  (p.expressions fun _ => true).any fun e => e.builtin?.any q

end Program

end Breadbin

namespace Breadbin.Program

/-!
## Recursive functions

Every function has one fixed set of addresses for its variables, so a function that can reach itself
overwrites its own.
-/

/-- The function an expression calls. -/
def callee? : Expr → Option FunctionId
  | .call _ f _ _ => some f
  | _ => none

/-- The functions a function calls, in order. -/
def callsOf (f : Function) : List FunctionId :=
  (f.body.visit fun _ => true).filterMap callee?

/-- The functions that the functions with a number call. -/
def callees (p : Program) (id : FunctionId) : List FunctionId :=
  (p.functions.items.filter fun f => f.id == id).flatMap callsOf

/-- Whether `id` is met on the way from the functions on the stack.  A function is entered once;
every other step takes one call off the stack, and `steps` bounds both. -/
def reaches (p : Program) (id : FunctionId) :
    (steps : Nat) → (seen stack : List FunctionId) → Bool
  | 0, _, _ => false
  | _ + 1, _, [] => false
  | steps + 1, seen, f :: stack =>
    if f = id then true
    else if seen.contains f then reaches p id steps seen stack
    else reaches p id steps (f :: seen) ((p.callees f).reverse ++ stack)

/-- The number of calls in the whole program. -/
def callCount (p : Program) : Nat :=
  p.functions.items.foldl (fun n f => n + (callsOf f).length) 0

/-- Whether a function can reach itself. -/
def isRecursive (p : Program) (f : Function) : Bool :=
  p.reaches f.id (2 * p.callCount + 1) [] (p.callees f.id).reverse

/-- The functions that can reach themselves, in order. -/
def recursiveFunctions (p : Program) : List Function :=
  p.functions.items.filter p.isRecursive

end Breadbin.Program
