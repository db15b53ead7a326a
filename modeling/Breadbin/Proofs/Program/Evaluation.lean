import Breadbin.Proofs.Lowering.Constants
import Mathlib.Algebra.Group.Int.Defs

/-!
# What programs over integers and truth values do

Expressions stand for numbers, and statements change the values of the variables.
-/

/-!
## What expressions over integers and truth values stand for

Integers wrap around in the common kind of their operands, and a truth value is 0 or 1.  A division
goes towards zero; by zero it gives all ones, with the dividend as its remainder.  The count of a
shift is the low byte of the right operand, and what is shifted out of a negative number to the
right leaves it negative.
-/

namespace Breadbin

/-! ### Numbers of a kind -/

/-- What a kind keeps of an integer: the number that it wraps around to, or whether it is zero. -/
def Kind.keep (k : Kind) (i : ℤ) : ℤ :=
  match k with
  | .u8 => i % 256
  | .i8 => i.bmod 256
  | .u16 => i % 65536
  | .i16 => i.bmod 65536
  | .bool => if i = 0 then 0 else 1
  | _ => i

/-- A statement as a number. -/
def truth (p : Prop) [Decidable p] : ℤ := if p then 1 else 0

/-- The number that an operation gives for operands of a kind. -/
def BinaryOp.apply (op : BinaryOp) (k : Kind) (a b : ℤ) : ℤ :=
  match op with
  | .add => k.keep (a + b)
  | .sub => k.keep (a - b)
  | .mul => k.keep (a * b)
  | .div => k.keep (if b = 0 then -1 else a.tdiv b)
  | .mod => k.keep (if b = 0 then a else a.tmod b)
  | .bitAnd => k.keep (UInt16.ofInt a &&& UInt16.ofInt b).toNat
  | .bitOr => k.keep (UInt16.ofInt a ||| UInt16.ofInt b).toNat
  | .bitXor => k.keep (UInt16.ofInt a ^^^ UInt16.ofInt b).toNat
  | .shl => k.keep (a * 2 ^ (b % 256).toNat)
  | .shr => a / 2 ^ (b % 256).toNat
  | .eq => truth (a = b)
  | .ne => truth (a ≠ b)
  | .lt => truth (a < b)
  | .le => truth (a ≤ b)
  | .gt => truth (b < a)
  | .ge => truth (b ≤ a)
  | .and => if a = 0 then a else b
  | .or => if a = 0 then b else a
  | .unknown _ => 0

/-- The number that an operation with one operand gives. -/
def UnaryOp.apply (op : UnaryOp) (k : Kind) (a : ℤ) : ℤ :=
  match op with
  | .neg => k.keep (-a)
  | .bitNot => k.keep (-a - 1)
  | .not => truth (a = 0)
  | .unknown _ => 0

/-- The number that an expression stands for when its variables have some values. -/
def Expr.number (vars : SymbolId → ℤ) : Expr → ℤ
  | .literal _ v => if v.kind = .bool then truth v.bool else v.int.toInt
  | .var _ id => vars id
  | .unary h op x => op.apply h.type.kind (x.number vars)
  | .binary _ op l r =>
    let res := (Resolution.resolve op l.type r.type).1
    op.apply res.operand.kind (res.left.target.keep (l.number vars))
      (res.right.target.keep (r.number vars))
  | .cast h x => h.type.kind.keep (x.number vars)
  | _ => 0

/-- Variables with their kinds. -/
abbrev Scope := SymbolId → Option Kind

/-- An expression of a kind over literals and variables, with operators and conversions that the
typing rules accept. -/
inductive Expr.Scalar (scope : Scope) : Expr → Kind → Prop
  | literal {h : ExprHead} {v : Literal} {k : Kind} (hk : k.isIntegral = true) (htag : h.tag = 0)
    (htype : h.type = .scalar k) (hv : v.Typed k) : Scalar scope (.literal h v) k
  | var {h : ExprHead} {id : SymbolId} {k : Kind} (hk : k.isIntegral = true)
      (hid : scope id = some k)
    (htype : h.type = .scalar k) : Scalar scope (.var h id) k
  | unary {h : ExprHead} {op : UnaryOp} {x : Expr} {k : Kind} (hx : Scalar scope x k)
    (haccepted : (Resolution.resolveUnary op x.type).2 = none) (htype : h.type = x.type) :
    Scalar scope (.unary h op x) k
  | binary {h : ExprHead} {op : BinaryOp} {l r : Expr} {k j : Kind} {res : Resolution}
      (hl : Scalar scope l k)
    (hr : Scalar scope r j) (haccepted : Resolution.resolve? op l.type r.type = some res)
    (htype : h.type = res.result) : Scalar scope (.binary h op l r) res.result.kind
  | cast {h : ExprHead} {x : Expr} {k j : Kind} (hx : Scalar scope x k) (hj : j.isIntegral = true)
    (haccepted : Conversion.isCastable k j = true) (htype : h.type = .scalar j) :
      Scalar scope (.cast h x) j

/-! ### Kept numbers -/

namespace Kind

variable {k : Kind} {i : ℤ}

/-- What is kept is kept again. -/
theorem keep_keep (k : Kind) (i : ℤ) : k.keep (k.keep i) = k.keep i := by
  cases k <;> simp only [keep]
  case u8 | u16 => exact Int.emod_emod_of_dvd i (Int.dvd_refl _)
  case i8 | i16 => exact Int.bmod_bmod
  case bool => split <;> simp

theorem keep_truth (p : Prop) [Decidable p] : Kind.bool.keep (truth p) = truth p := by
  unfold truth
  split <;> rfl

/-- Kept integers lie in the range of the kind. -/
theorem keep_eq_iff (hk : k.isInteger = true) : k.keep i = i ↔ k.range.1 ≤ i ∧ i ≤ k.range.2 := by
  cases k <;> simp only [isInteger, Bool.false_eq_true] at hk <;> simp only [keep, range]
  case u8 | u16 => omega
  case i8 | i16 =>
    rw [Int.bmod_def]
    split <;> omega

end Kind

/-! ### What the rules accept -/

/-- Integers and truth values. -/
def integralKinds : List Kind := [.u8, .i8, .u16, .i16, .bool]

theorem Kind.mem_integralKinds {k : Kind} (h : k.isIntegral = true) : k ∈ integralKinds := by
  cases k <;> simp_all [integralKinds, Kind.isIntegral, Kind.isInteger]

/-- The operators that calculate with integers. -/
def calculatingOps : List BinaryOp := [.add, .sub, .mul, .div, .mod, .bitAnd, .bitOr, .bitXor]

namespace Resolution

/-- The typing of operands that are brought to a common kind. -/
def common (k j c : Kind) (result : Ty) : Resolution :=
  ⟨.scalar c, result, ⟨k, c, Conversion.classify k c, false⟩,
    ⟨j, c, Conversion.classify j c, false⟩⟩

/-- How operations on integers and truth values are typed. -/
inductive Suits : BinaryOp → Kind → Kind → Resolution → Prop
  | logical {op : BinaryOp} (hop : op.isLogical = true) :
      Suits op .bool .bool (common .bool .bool .bool .bool)
  | shift {op : BinaryOp} {k j : Kind} (hop : op.isShift = true) (hk : k.isInteger = true)
      (hj : j.isInteger = true) :
    Suits op k j (ofShift (.scalar k) (.scalar j))
  | comparison {op : BinaryOp} {k j c : Kind} (hop : op.isComparison = true)
      (hc : c.isIntegral = true) :
    Suits op k j (common k j c .bool)
  | calculation {op : BinaryOp} {k j c : Kind} (hop : op ∈ calculatingOps)
      (hc : c.isInteger = true) :
    Suits op k j (common k j c (.scalar c))

/-- The same as a test. -/
def suits (op : BinaryOp) (k j : Kind) (res : Resolution) : Bool :=
  let c := res.operand.kind
  op.isLogical && k == .bool && j == .bool && res == common .bool .bool .bool .bool ||
    op.isShift && k.isInteger && j.isInteger && res == ofShift (.scalar k) (.scalar j) ||
    op.isComparison && c.isIntegral && res == common k j c .bool ||
    decide (op ∈ calculatingOps) && c.isInteger && res == common k j c (.scalar c)

variable {op : BinaryOp} {k j : Kind} {res : Resolution}

theorem Suits.of_suits (h : suits op k j res = true) : Suits op k j res := by
  simp only [suits, Bool.or_eq_true, Bool.and_eq_true, beq_iff_eq, decide_eq_true_eq] at h
  obtain ((⟨⟨⟨hop, rfl⟩, rfl⟩, rfl⟩ | ⟨⟨⟨hop, hk⟩, hj⟩, rfl⟩) | ⟨⟨hop, hc⟩, hres⟩) | ⟨⟨hop, hc⟩,
    hres⟩ := h
  · exact .logical hop
  · exact .shift hop hk hj
  · rw [hres]
    exact .comparison hop hc
  · rw [hres]
    exact .calculation hop hc

/-- What the rules accept is one of four things. -/
theorem Suits.of_resolve? (hk : k.isIntegral = true) (hj : j.isIntegral = true)
    (h : resolve? op (.scalar k) (.scalar j) = some res) : Suits op k j res := by
  have hall : ∀ op ∈ BinaryOp.known, ∀ k ∈ integralKinds, ∀ j ∈ integralKinds,
      (resolve? op (.scalar k) (.scalar j)).all (suits op k j) = true := by decide +kernel
  have hop : op ∈ BinaryOp.known := by
    cases op
    case unknown => cases h
    all_goals decide
  have := hall op hop k (Kind.mem_integralKinds hk) j (Kind.mem_integralKinds hj)
  rw [h] at this
  exact .of_suits this

/-- The result is an integer or a truth value. -/
theorem Suits.result (h : Suits op k j res) :
    res.result = .scalar res.result.kind ∧ res.result.kind.isIntegral = true := by
  cases h with
  | logical _ => exact ⟨rfl, rfl⟩
  | shift _ hk _ => exact ⟨rfl, by simp [ofShift, Ty.scalar, Kind.isIntegral, hk]⟩
  | comparison _ _ => exact ⟨rfl, rfl⟩
  | calculation _ hc => exact ⟨rfl, by simp [common, Ty.scalar, Kind.isIntegral, hc]⟩

end Resolution

namespace Expr.Scalar

variable {scope : Scope} {e : Expr} {k : Kind}

/-- The kind is that of the type of the expression, and an integer or a truth value. -/
theorem sound (h : e.Scalar scope k) : e.type = .scalar k ∧ k.isIntegral = true := by
  induction h with
  | literal hk _ htype _ => exact ⟨htype, hk⟩
  | var hk _ htype => exact ⟨htype, hk⟩
  | unary _ _ htype ih => exact ⟨htype.trans ih.1, ih.2⟩
  | binary hl hr haccepted htype ihl ihr =>
    rw [ihl.1, ihr.1] at haccepted
    obtain ⟨hresult, hk⟩ := (Resolution.Suits.of_resolve? ihl.2 ihr.2 haccepted).result
    exact ⟨htype.trans hresult, hk⟩
  | cast _ hj _ htype _ => exact ⟨htype, hj⟩

theorem type_eq (h : e.Scalar scope k) : e.type = .scalar k := h.sound.1

theorem isIntegral (h : e.Scalar scope k) : k.isIntegral = true := h.sound.2

theorem isAbsent_eq (h : e.Scalar scope k) : e.isAbsent = false := by cases h <;> rfl

end Expr.Scalar

end Breadbin

/-!
## What statements do

Statements change the values of the variables and end in one of four ways.  A loop need not end, so
that every loop is given a number of rounds; a statement runs for ever if it does not end within
any.
-/

namespace Breadbin

/-- The values of the variables. -/
abbrev Store := SymbolId → ℤ

/-- How a statement ends. -/
inductive Ending where
  | done
  /-- the loop around is left -/
  | left
  /-- the loop around goes on with its next round -/
  | again
  /-- the function is left, with a value or without -/
  | returned (value : Option ℤ)

/-- The value that a function is left with. -/
def Ending.value : Ending → Option ℤ
  | .returned value => value
  | _ => none

/-- How a statement ends and the store that it leaves, if it ends within the rounds that it is
given. -/
abbrev Outcome := Option (Ending × Store)

/-- What a variable keeps of an integer. -/
def Scope.keep (scope : Scope) (id : SymbolId) (i : ℤ) : ℤ :=
  match scope id with
  | some k => k.keep i
  | none => i

/-- The rounds of a loop. -/
def rounds (test : Store → Prop) [DecidablePred test] (body : Store → Outcome) : ℕ → Store → Outcome
  | 0, _ => none
  | n + 1, st =>
    if test st then
      match body st with
      | none => none
      | some (.left, st') => some (.done, st')
      | some (.returned value, st') => some (.returned value, st')
      | some (.done, st') | some (.again, st') => rounds test body n st'
    else some (.done, st)

section

variable (scope : Scope) (result : Option Kind) (n : ℕ)

mutual

/-- What a statement does in a function with a result of some kind, or without. -/
def Stmt.exec : Stmt → Store → Outcome
  | .define _ id v, st =>
    some (.done, Function.update st id (if v.isAbsent then 0 else scope.keep id (v.number st)))
  | .assign _ (.var h id) v op compound, st =>
    let i := if compound then (Expr.binary {} op (.var h id) v).number st else v.number st
    some (.done, Function.update st id (scope.keep id i))
  | .giveBack _ v, st =>
    some (.returned (if v.isAbsent then none else result.map fun k => k.keep (v.number st)), st)
  | .leave _, st => some (.left, st)
  | .next _, st => some (.again, st)
  | .choose _ arms _ otherwise, st => Arm.execFirst arms otherwise.exec st
  | .loop _ c body, st => rounds (fun st => c.number st ≠ 0) body.exec n st
  | _, st => some (.done, st)

/-- What a block does. -/
def Block.exec : Block → Store → Outcome
  | .absent, st => some (.done, st)
  | .of ss _ _, st => Stmt.execAll ss st

/-- What statements in order do. -/
def Stmt.execAll : List Stmt → Store → Outcome
  | [], st => some (.done, st)
  | s :: ss, st =>
    match s.exec st with
    | some (.done, st') => Stmt.execAll ss st'
    | outcome => outcome

/-- What the first arm whose condition holds does, or else the last block. -/
def Arm.execFirst : List Arm → (Store → Outcome) → Store → Outcome
  | [], last, st => last st
  | .mk c body :: arms, last, st => if c.number st ≠ 0 then body.exec st
      else Arm.execFirst arms last st

end

end

/-! ### More rounds -/

section

variable {n m : ℕ}

/-- What comes of a loop within some rounds comes of it within more of them. -/
theorem rounds_mono {test : Store → Prop} [DecidablePred test]
    {body body' : Store → Outcome} (hle : n ≤ m)
    (hbody : ∀ st out, body st = some out → body' st = some out) {st : Store} {out : Ending × Store}
    (h : rounds test body n st = some out) :
    rounds test body' m st = some out := by
  induction n generalizing m st with
  | zero => cases h
  | succ n ih =>
    obtain ⟨m, rfl⟩ : ∃ k, m = k + 1 := ⟨m - 1, by omega⟩
    rw [rounds] at h ⊢
    by_cases htest : test st
    · rw [if_pos htest] at h ⊢
      rcases hround : body st with _ | ⟨e, st'⟩
      · rw [hround] at h
        cases h
      · rw [hround] at h
        rw [hbody st _ hround]
        cases e with
        | done | again => exact ih (by omega) h
        | left | returned => exact h
    · rw [if_neg htest] at h ⊢
      exact h

variable {scope : Scope} {result : Option Kind}

mutual

/-- What comes of a statement within some rounds of its loops comes of it within more of them. -/
theorem Stmt.exec_mono (s : Stmt) {st : Store} {out : Ending × Store} (hle : n ≤ m)
    (h : s.exec scope result n st = some out) :
    s.exec scope result m st = some out := by
  cases s with
  | assign head target v op compound => cases target <;> exact h
  | choose head arms k otherwise =>
    exact Arm.execFirst_mono arms hle (fun st h => Block.exec_mono otherwise hle h) h
  | loop head c body => exact rounds_mono hle (fun st out h => Block.exec_mono body hle h) h
  | _ => exact h

theorem Block.exec_mono (block : Block) {st : Store} {out : Ending × Store} (hle : n ≤ m)
    (h : block.exec scope result n st = some out) : block.exec scope result m st = some out := by
  cases block with
  | absent => exact h
  | of ss k span => exact Stmt.execAll_mono ss hle h

theorem Stmt.execAll_mono (ss : List Stmt) {st : Store} {out : Ending × Store} (hle : n ≤ m)
    (h : Stmt.execAll scope result n ss st = some out) :
    Stmt.execAll scope result m ss st = some out := by
  cases ss with
  | nil => exact h
  | cons s ss =>
    rw [Stmt.execAll] at h ⊢
    rcases hfirst : s.exec scope result n st with _ | ⟨e, st'⟩
    · rw [hfirst] at h
      cases h
    · rw [hfirst] at h
      rw [Stmt.exec_mono s hle hfirst]
      cases e with
      | done => exact Stmt.execAll_mono ss hle h
      | left | again | returned => exact h

theorem Arm.execFirst_mono (arms : List Arm) {last last' : Store → Outcome} {st : Store}
    {out : Ending × Store} (hle : n ≤ m)
    (hlast : ∀ st, last st = some out → last' st = some out)
    (h : Arm.execFirst scope result n arms last st = some out) :
    Arm.execFirst scope result m arms last' st = some out := by
  cases arms with
  | nil => exact hlast st h
  | cons arm arms =>
    obtain ⟨c, body⟩ := arm
    rw [Arm.execFirst] at h ⊢
    by_cases hc : c.number st ≠ 0
    · rw [if_pos hc] at h ⊢
      exact Block.exec_mono body hle h
    · rw [if_neg hc] at h ⊢
      exact Arm.execFirst_mono arms hle hlast h

end

end

end Breadbin
