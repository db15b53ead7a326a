import Breadbin.Proofs.Lowering.Moves

/-!
# Reports and records are written, never read

Lowering reports findings and records passes, but nothing that it does depends on what has been
reported or recorded: started with another bag and another tracer it comes to the same result, and
delivers the same findings in the same order.  `Blind` is closed under everything that lowering is
written with.
-/

set_option synthInstance.maxSize 100000
set_option synthInstance.maxHeartbeats 100000

namespace Breadbin

theorem Reports.reportAll_concat (r : Reports) (ds : List Diagnostic) (d : Diagnostic) :
    r.reportAll (ds ++ [d]) = (r.reportAll ds).report d := by
  simp [reportAll]

namespace Lowering

open Assembly

namespace Emission

/-- A state without its reports and records. -/
def unobserved (s : Emission) : Emission := { s with reports := {}, tracer := .off, span := {} }

/-- Two states that differ in reports and records only; the same findings have been delivered to the
bags that lowering was started with. -/
structure Agrees (r r' : Reports) (s s' : Emission) : Prop where
  same : s.unobserved = s'.unobserved
  delivered : ∃ ds, s.reports = r.reportAll ds ∧ s'.reports = r'.reportAll ds

end Emission

open Emission

variable {α β : Type}

/-- Two actions that cannot be told apart but by reports and records. -/
def Alike (x y : Lower α) : Prop :=
  ∀ (r r' : Reports) (p : Program) (s s' : Emission), s.Agrees r r' s' →
    (perform x p s).1 = (perform y p s').1 ∧ (perform x p s).2.Agrees r r' (perform y p s').2

/-- Lowering that neither reports nor records have an influence on. -/
class Blind (x : Lower α) : Prop where
  alike : Alike x x

namespace Alike

variable {x x' : Lower α} {f f' : α → Lower β}

theorem bind (hx : Alike x x') (hf : ∀ a, Alike (f a) (f' a)) : Alike (x >>= f) (x' >>= f') := by
  intro r r' p s s' h
  obtain ⟨hresult, hstate⟩ := hx r r' p s s' h
  rw [perform_bind, perform_bind]
  generalize perform x p s = t at hresult hstate
  generalize perform x' p s' = t' at hresult hstate
  obtain ⟨a, t⟩ := t
  obtain ⟨a', t'⟩ := t'
  obtain rfl : a = a' := hresult
  cases a with
  | error e => exact ⟨rfl, hstate⟩
  | ok a => exact hf a r r' p t t' hstate

theorem tryCatch {h h' : LoweringError → Lower α} (hx : Alike x x') (hh : ∀ e, Alike (h e) (h' e)) :
    Alike (tryCatch x h) (tryCatch x' h') := by
  intro r r' p s s' hs
  obtain ⟨hresult, hstate⟩ := hx r r' p s s' hs
  rw [perform_tryCatch, perform_tryCatch]
  generalize perform x p s = t at hresult hstate
  generalize perform x' p s' = t' at hresult hstate
  obtain ⟨a, t⟩ := t
  obtain ⟨a', t'⟩ := t'
  obtain rfl : a = a' := hresult
  cases a with
  | error e => exact hh e r r' p t t' hstate
  | ok a => exact ⟨rfl, hstate⟩

end Alike

namespace Blind

variable {x y : Lower α} {f : α → Lower β}

/-- What follows is needed for possible results only. -/
theorem bind_result (hx : Blind x) (hf : ∀ a p s s', perform x p s = (.ok a, s') → Blind (f a)) :
    Blind (x >>= f) where
  alike r r' p s s' h := by
    obtain ⟨hresult, hstate⟩ := hx.alike r r' p s s' h
    rw [perform_bind, perform_bind]
    rcases hperform : perform x p s with ⟨a, t⟩
    rcases hperform' : perform x p s' with ⟨a', t'⟩
    rw [hperform, hperform'] at hresult hstate
    obtain rfl : a = a' := hresult
    cases a with
    | error e => exact ⟨rfl, hstate⟩
    | ok a => exact (hf a p s t hperform).alike r r' p t t' hstate

theorem bind (hx : Blind x) (hf : ∀ a, Blind (f a)) : Blind (x >>= f) :=
  hx.bind_result fun a _ _ _ _ => hf a

instance [hx : Blind x] [hf : ∀ a, Blind (f a)] : Blind (x >>= f) := .bind hx hf

instance (a : α) : Blind (pure a : Lower α) := ⟨fun _ _ _ _ _ h => ⟨rfl, h⟩⟩

instance (e : LoweringError) : Blind (throw e : Lower α) := ⟨fun _ _ _ _ _ h => ⟨rfl, h⟩⟩

instance (priority := high) (e : LoweringError) : Blind (throw e >>= f) :=
  ⟨fun _ _ _ _ _ h => ⟨rfl, h⟩⟩

instance : Blind (read : Lower Program) := ⟨fun _ _ _ _ _ h => ⟨rfl, h⟩⟩

instance {c : Prop} [Decidable c] [hx : Blind x] [hy : Blind y] : Blind (if c then x else y) := by
  split
  · exact hx
  · exact hy

instance {h : LoweringError → Lower α} [hx : Blind x] [hh : ∀ e, Blind (h e)] :
    Blind (tryCatch x h) :=
  ⟨.tryCatch hx.alike fun e => (hh e).alike⟩

theorem forM_mem {xs : List β} {g : β → Lower PUnit} (hg : ∀ b ∈ xs, Blind (g b)) :
    Blind (xs.forM g) := by
  induction xs with
  | nil => exact inferInstanceAs (Blind (pure _))
  | cons b xs ih =>
    have := hg b (by simp)
    have := ih fun c hc => hg c (by simp [hc])
    exact inferInstanceAs (Blind (g b >>= fun _ => xs.forM g))

instance {xs : List β} {g : β → Lower PUnit} [hg : ∀ b, Blind (g b)] : Blind (xs.forM g) :=
  forM_mem fun b _ => hg b

instance {xs : List β} {g : β → Lower α} [hg : ∀ b, Blind (g b)] : Blind (xs.mapM g) := by
  induction xs with
  | nil => exact inferInstanceAs (Blind (pure _))
  | cons b xs ih =>
    rw [List.mapM_cons]
    infer_instance

/-- What is read of the state is neither reports nor records. -/
theorem get {f : Emission → Lower α} (same : ∀ s, f s = f s.unobserved) (hf : ∀ s, Blind (f s)) :
    Blind (MonadState.get >>= f) where
  alike r r' p s s' h := by
    have hsame : f s = f s' := by rw [same s, h.same, ← same s']
    rw [perform_get_bind, perform_get_bind, ← hsame]
    exact (hf s).alike r r' p s s' h

/-- What is changed are neither reports nor records. -/
theorem modifyGet {g : Emission → α × Emission} (result : ∀ s, (g s).1 = (g s.unobserved).1)
    (state : ∀ s, (g s).2.unobserved = (g s.unobserved).2.unobserved)
    (reports : ∀ s, (g s).2.reports = s.reports) : Blind (MonadStateOf.modifyGet g : Lower α) where
  alike _ _ _ s s' h := by
    obtain ⟨ds, hds, hds'⟩ := h.delivered
    refine ⟨congrArg Except.ok ?_, ?_, ds, (reports s).trans hds, (reports s').trans hds'⟩
    · rw [result s, h.same, ← result s']
    · exact (state s).trans ((congrArg (fun s => (g s).2.unobserved) h.same).trans (state s').symm)

theorem modify {g : Emission → Emission}
    (state : ∀ s, (g s).unobserved = (g s.unobserved).unobserved)
    (reports : ∀ s, (g s).reports = s.reports) : Blind (modify g : Lower PUnit) :=
  modifyGet (g := fun s => ((), g s)) (fun _ => rfl) state reports

instance (w : Routine.Writer α) : Blind (write w) :=
  modifyGet (fun _ => rfl) (fun _ => rfl) fun _ => rfl

instance (d : Diagnostic) : Blind (report d) where
  alike r r' _ s s' h := by
    obtain ⟨ds, hds, hds'⟩ := h.delivered
    refine ⟨rfl, h.same, ds ++ [d], ?_, ?_⟩
    · rw [Reports.reportAll_concat, ← hds]
      rfl
    · rw [Reports.reportAll_concat, ← hds']
      rfl

end Blind

/-! ## Code -/

instance (c : Checked α) : Blind (checked c) := by
  unfold checked
  infer_instance

instance (code : Code) (span : Span) (m : String) : Blind (reportError code span m) := by
  unfold reportError
  infer_instance

section

variable (mn : Mnemonic)

instance (o : Operand) : Blind (emit mn o) := inferInstanceAs (Blind (write _))

instance : Blind (op mn) := inferInstanceAs (Blind (write _))

instance (n : UInt8) : Blind (imm mn n) := inferInstanceAs (Blind (write _))

instance (z : UInt8) : Blind (zp mn z) := inferInstanceAs (Blind (write _))

instance (r : AddressRef) : Blind (mem mn r) := inferInstanceAs (Blind (emit mn _))

instance (l : LabelId) : Blind (branchTo mn l) := inferInstanceAs (Blind (write _))

instance (l : LabelId) : Blind (jumpTo l) := inferInstanceAs (Blind (write _))

instance (l : LabelId) : Blind (place l) := inferInstanceAs (Blind (write _))

instance (id : RoutineId) : Blind (callRoutine id) := inferInstanceAs (Blind (write _))

end

instance (name : String) : Blind (newLabel name) :=
  .bind (.modify (fun _ => rfl) fun _ => rfl) fun _ => .get (fun _ => rfl) fun _ => inferInstance

instance (r : AddressRef) (wide : Bool) : Blind (load r wide) := by
  unfold load
  infer_instance

instance (r : AddressRef) (wide : Bool) : Blind (store r wide) := by
  unfold store
  infer_instance

instance (z : UInt8) (wide : Bool) : Blind (loadSlot z wide) := by
  unfold loadSlot
  infer_instance

instance (z : UInt8) (wide : Bool) : Blind (storeSlot z wide) := by
  unfold storeSlot
  infer_instance

instance (v : UInt16) (wide : Bool) : Blind (loadConstant v wide) := by
  unfold loadConstant
  infer_instance

instance (r : AddressRef) : Blind (loadAddress r) := by
  unfold loadAddress
  infer_instance

instance (wide : Bool) : Blind (push wide) := by
  unfold push
  infer_instance

instance (wide : Bool) : Blind (pop wide) := by
  unfold pop
  infer_instance

instance : Blind testA := by
  unfold testA
  infer_instance

instance (t : Ty) : Blind (zero t) := by
  unfold zero
  infer_instance

instance (mn : Mnemonic) : Blind (materialize mn) := by
  unfold materialize
  infer_instance

instance (k : Kind) : Blind (extend k) := by
  unfold extend
  infer_instance

instance (id : SymbolId) : Blind (symbolRef id) := by
  unfold symbolRef
  refine .get (fun _ => rfl) fun s => ?_
  split <;> infer_instance

instance (id : SymbolId) : Blind (symbol id) := by
  unfold symbol
  refine .bind inferInstance fun p => ?_
  split <;> infer_instance

instance (x : Expr) : Blind (constantOf x) := by
  unfold constantOf
  exact .get (fun _ => rfl) fun _ => inferInstance

instance (x : Expr) : Blind (knownValue x) := by
  unfold knownValue
  infer_instance

instance (x : Expr) : Blind (constantAddress x) := by
  unfold constantAddress
  refine .bind inferInstance fun c => ?_
  split <;> infer_instance

instance (x : Expr) (c : Conversion) : Blind (fold x c) := by
  unfold fold
  refine .bind inferInstance fun e => ?_
  split <;> infer_instance

instance (bytes : Bytes) : Blind (loadString bytes) :=
  .bind (.modifyGet (fun _ => rfl) (fun _ => rfl) fun _ => rfl) fun _ => inferInstance

instance (h : ExprHead) (v : Literal) : Blind (lowerLiteral h v) := by
  unfold lowerLiteral
  infer_instance

instance times_blind (n : Nat) (act : Lower Unit) [Blind act] : Blind (times n act) := by
  induction n with
  | zero => exact inferInstanceAs (Blind (pure ()))
  | succ n ih => exact .bind inferInstance fun _ => ih

instance (k : Kind) : Blind (toBool k) := by
  unfold toBool
  infer_instance

instance (k : Kind) : Blind (toText k) := by
  unfold toText
  split <;> infer_instance

instance (k : Kind) : Blind (fixedToInt k) := by
  unfold fixedToInt
  infer_instance

instance (k : Kind) : Blind (intToFixed k) := by
  unfold intToFixed
  infer_instance

instance (c : Conversion) (inCast : Bool) (span : Span) : Blind (convert c inCast span) := by
  unfold convert
  dsimp only
  split
  · infer_instance
  · split <;> infer_instance

/-! ## Operands -/

section

variable (x : Part) [Blind x.value]

instance (c : Conversion) (inCast : Bool) : Blind (x.converted c inCast) := by
  unfold Part.converted
  refine .bind inferInstance fun bits => ?_
  split <;> infer_instance

instance (want : Ty) : Blind (x.inType want) := by
  unfold Part.inType
  dsimp only
  split
  · infer_instance
  · split
    · infer_instance
    · exact .bind inferInstance fun _ => .bind inferInstance fun _ => inferInstance

instance : Blind x.toString := by
  unfold Part.toString
  split
  · infer_instance
  · split <;> infer_instance

instance (h : ExprHead) : Blind (lowerCast h x) := by
  unfold lowerCast
  exact .bind inferInstance fun _ => .bind inferInstance fun _ => inferInstance

end

instance (wide : Bool) : Blind (complement wide) := by
  unfold complement
  infer_instance

instance (t : Ty) : Blind (negate t) := by
  unfold negate
  infer_instance

instance (h : ExprHead) (op : UnaryOp) (x : Part) [Blind x.value] :
    Blind (lowerUnary h op x) := by
  unfold lowerUnary
  refine .bind inferInstance fun _ => .bind inferInstance fun _ => ?_
  split
  · split <;> infer_instance
  · infer_instance

instance (k : Kind) (a b : Place) : Blind (compareLess k a b) := by
  unfold compareLess
  infer_instance

instance (a b : Place) (wide : Bool) : Blind (compareEqual a b wide) := by
  unfold compareEqual
  infer_instance

instance (mn : Mnemonic) (wide : Bool) : Blind (bytewise mn wide) := by
  unfold bytewise
  infer_instance

instance (x : Expr) (c : Conversion) : Blind (isLeaf x c) := by
  unfold isLeaf
  repeat' first | infer_instance | split

section

variable (l r : Part) [Blind l.value] [Blind r.value]

instance (res : Resolution) (a b : UInt8) : Blind (stage l r res a b) := by
  unfold stage
  infer_instance

instance (op : BinaryOp) (res : Resolution) : Blind (lowerInteger op l r res) := by
  unfold lowerInteger
  refine .bind inferInstance fun _ => ?_
  split <;> infer_instance

instance (op : BinaryOp) (res : Resolution) : Blind (lowerArithmetic op l r res) := by
  unfold lowerArithmetic
  dsimp only
  repeat' first | infer_instance | split

instance (op : BinaryOp) : Blind (compareFloat op) := by
  unfold compareFloat
  repeat' first | infer_instance | split

instance (op : BinaryOp) (k : Kind) : Blind (compareInteger op k) := by
  unfold compareInteger
  dsimp only
  split <;> infer_instance

instance (op : BinaryOp) (res : Resolution) : Blind (lowerComparison op l r res) := by
  unfold lowerComparison
  dsimp only
  infer_instance

instance (left : Bool) (k : Kind) : Blind (shiftStep left k) := by
  unfold shiftStep
  infer_instance

instance (left : Bool) (k : Kind) : Blind (shiftByY left k) := by
  unfold shiftByY
  infer_instance

instance (op : BinaryOp) (res : Resolution) : Blind (lowerShift op l r res) := by
  unfold lowerShift
  dsimp only
  repeat'
    first
    | infer_instance
    | split
    | refine .bind inferInstance fun _ => ?_

instance (op : BinaryOp) : Blind (lowerLogical op l r) := by
  unfold lowerLogical
  infer_instance

instance (h : ExprHead) (op : BinaryOp) : Blind (lowerBinary h op l r) := by
  unfold lowerBinary
  dsimp only
  infer_instance

end

/-! ## Elements and calls -/

instance (a : SymbolId) (i : Part) (span : Span) : Blind (resolveElement a i span) := by
  unfold resolveElement
  dsimp only
  repeat'
    first
    | infer_instance
    | split
    | refine .bind inferInstance fun _ => ?_

section

variable (e : Element) [Blind e.index.value]

instance : Blind (pointTo e) := by
  unfold pointTo
  dsimp only
  infer_instance

instance : Blind (loadElement e) := by
  unfold loadElement
  dsimp only
  split <;> infer_instance

instance : Blind (storeElement e) := by
  unfold storeElement
  dsimp only
  split <;> infer_instance

end

instance (h : ExprHead) (a : SymbolId) (i : Part) [hi : Blind i.value] :
    Blind (lowerIndex h a i) := by
  unfold lowerIndex
  refine Blind.bind_result inferInstance fun e p s s' hperform => ?_
  split
  next e =>
    obtain ⟨rfl, -⟩ := resolveElement_result a i h.span p s _ s' hperform e rfl
    infer_instance
  next => infer_instance

instance (ids : List SymbolId) : Blind (parametersOf ids) := by
  unfold parametersOf
  infer_instance

/-- Parts that are all lowered so. -/
class PartsBlind (xs : List Part) : Prop where
  blind : ∀ x ∈ xs, Blind x.value

theorem pushArguments_blind {xs : List (Part × Parameter)}
    (h : ∀ x ∈ xs, Blind x.1.value) : Blind (pushArguments xs) := by
  induction xs with
  | nil => exact inferInstanceAs (Blind (pure ()))
  | cons x xs ih =>
    have hx := h x (by simp)
    have hrest := ih fun y hy => h y (by simp [hy])
    unfold pushArguments
    infer_instance

instance (parameters : List Parameter) : Blind (popArguments parameters) := by
  unfold popArguments
  infer_instance

section

variable (xs : List Part) [hxs : PartsBlind xs]

instance (parameters : List Parameter) : Blind (passArguments xs parameters) := by
  unfold passArguments
  split
  next x ref t =>
    have := hxs.blind x (by simp)
    infer_instance
  next =>
    have := pushArguments_blind fun x (hx : x ∈ xs.zip parameters) =>
      hxs.blind x.1 (List.of_mem_zip hx).1
    infer_instance

instance (h : ExprHead) (f : FunctionId) : Blind (lowerCall h f xs) := by
  unfold lowerCall
  repeat'
    first
    | infer_instance
    | split
    | refine .bind inferInstance fun _ => ?_
    | refine .get (fun _ => rfl) fun _ => ?_

instance : Blind (printAll xs) := by
  unfold printAll
  refine .forM_mem fun x hx => ?_
  have := hxs.blind x hx
  infer_instance

end

section

variable (x y : Part) [Blind x.value] [Blind y.value]

instance (t : Ty) : Blind (drawFromRange x y t) := by
  unfold drawFromRange
  infer_instance

instance : Blind (lowerPeek x) := by
  unfold lowerPeek
  repeat'
    first
    | infer_instance
    | split
    | refine .bind inferInstance fun _ => ?_

instance : Blind (lowerPoke x y) := by
  unfold lowerPoke
  repeat'
    first
    | infer_instance
    | split
    | refine .bind inferInstance fun _ => ?_

end

instance (b : Builtin) (xs : List Part) [hxs : PartsBlind xs] : Blind (builtinCode b xs) := by
  unfold builtinCode
  refine .get (fun _ => rfl) fun s => ?_
  dsimp only
  split
  -- no argument, one or two
  all_goals
    first
    | infer_instance
    | have hx := hxs.blind _ List.mem_cons_self
      infer_instance
    | have hx := hxs.blind _ List.mem_cons_self
      have hy := hxs.blind _ (List.mem_cons_of_mem _ List.mem_cons_self)
      infer_instance

instance (h : ExprHead) (b : Builtin) (xs : List Part) [PartsBlind xs] :
    Blind (lowerBuiltin h b xs) := by
  unfold lowerBuiltin
  infer_instance

/-! ## Values -/

instance (d : DataId) : Blind (lowerDataAddress d) := by
  unfold lowerDataAddress
  dsimp only
  repeat'
    first
    | infer_instance
    | split
    | refine .bind inferInstance fun _ => ?_
    | refine .get (fun _ => rfl) fun _ => ?_

instance (constant : Expr → Ty → Lower Unit) [∀ e t, Blind (constant e t)] (h : ExprHead)
    (id : SymbolId) : Blind (lowerVariable constant h id) := by
  unfold lowerVariable
  repeat'
    first
    | infer_instance
    | split
    | refine .bind inferInstance fun _ => ?_
    | refine .get (fun _ => rfl) fun _ => ?_

mutual

theorem valueWith_blind (constant : Expr → Ty → Lower Unit)
    [hconstant : ∀ e t, Blind (constant e t)] (e : Expr) : Blind (valueWith constant e) := by
  cases e with
  | absent | blank | literal | var | dataAddress =>
    unfold valueWith
    infer_instance
  | unary h op x =>
    have := valueWith_blind constant x
    unfold valueWith
    infer_instance
  | binary h op l r =>
    have := valueWith_blind constant l
    have := valueWith_blind constant r
    unfold valueWith
    infer_instance
  | call h f as n =>
    have := partsWith_blind constant as
    unfold valueWith
    infer_instance
  | index h a i =>
    have := valueWith_blind constant i
    unfold valueWith
    infer_instance
  | cast h x =>
    have := valueWith_blind constant x
    unfold valueWith
    infer_instance
  | builtin h b as n =>
    have := partsWith_blind constant as
    unfold valueWith
    infer_instance

theorem partsWith_blind (constant : Expr → Ty → Lower Unit)
    [hconstant : ∀ e t, Blind (constant e t)] (es : List Expr) :
    PartsBlind (partsWith constant es) := by
  cases es with
  | nil => exact ⟨by simp [partsWith]⟩
  | cons e es =>
    have he := valueWith_blind constant e
    have hes := partsWith_blind constant es
    refine ⟨fun x hx => ?_⟩
    rw [partsWith] at hx
    rcases List.mem_cons.1 hx with rfl | hx
    · exact he
    · exact hes.blind x hx

end

instance constantWithin_blind (depth : Nat) (e : Expr) (t : Ty) :
    Blind (constantWithin depth e t) := by
  induction depth generalizing e t with
  | zero => exact inferInstanceAs (Blind (throw _))
  | succ depth ih =>
    have := valueWith_blind (constantWithin depth) e
    unfold constantWithin
    infer_instance

instance (e : Expr) : Blind (lowerValue e) := by
  unfold lowerValue
  exact .bind inferInstance fun p => valueWith_blind _ e

instance (e : Expr) : Blind (part e).value := inferInstanceAs (Blind (lowerValue e))

instance (e : Expr) (want : Ty) : Blind (lowerExpr e want) := by
  unfold lowerExpr
  infer_instance

instance (value : Bool) (target : LabelId) (e : Expr) : Blind (branchOn.plain value target e) := by
  unfold branchOn.plain
  infer_instance

instance branchOn_blind (value : Bool) (target : LabelId) (e : Expr) :
    Blind (branchOn value target e) := by
  fun_induction branchOn value target e <;> infer_instance

/-! ## Statements -/

instance (base : UInt16) (size : Nat) : Blind (clearRegion base size) := by
  unfold clearRegion
  infer_instance

instance (id : SymbolId) (e : Expr) (span : Span) : Blind (lowerDefine id e span) := by
  unfold lowerDefine
  infer_instance

instance (id : SymbolId) (e : Expr) (span : Span) : Blind (assignVariable id e span) := by
  unfold assignVariable
  infer_instance

instance (a : SymbolId) (i : Expr) (place : Span) (e : Expr) (span : Span) :
    Blind (assignElement a i place e span) := by
  unfold assignElement
  refine Blind.bind_result inferInstance fun found p s s' hperform => ?_
  split
  next => infer_instance
  next found =>
    have hindex := (resolveElement_result a (part i) place p s _ s' hperform found rfl).1
    have : Blind found.index.value := hindex ▸ inferInstance
    infer_instance

instance (target value : Expr) (op : BinaryOp) (compound : Bool) (span : Span) :
    Blind (lowerAssign target value op compound span) := by
  unfold lowerAssign
  dsimp only
  repeat' first | infer_instance | split

instance (e : Expr) (span : Span) : Blind (lowerGiveBack e span) := by
  unfold lowerGiveBack
  dsimp only
  repeat'
    first
    | infer_instance
    | split
    | refine .bind inferInstance fun _ => ?_
    | refine .get (fun _ => rfl) fun _ => ?_

instance (span : Span) (word : String) (label : LoopLabels → LabelId) :
    Blind (lowerJump span word label) := by
  unfold lowerJump
  repeat'
    first
    | infer_instance
    | split
    | refine .bind inferInstance fun _ => ?_
    | refine .get (fun _ => rfl) fun _ => ?_

instance (labels : LoopLabels) (body : Lower Unit) [Blind body] :
    Blind (withinLoop labels body) :=
  .bind (.modify (fun _ => rfl) fun _ => rfl) fun _ =>
    .bind inferInstance fun _ => .modify (fun _ => rfl) fun _ => rfl

instance (counter bound : AddressRef) (down : Bool) (exit : LabelId) :
    Blind (fixedLastStep counter bound down exit) := by
  unfold fixedLastStep
  dsimp only
  split <;> infer_instance

instance (counter : AddressRef) (k : Kind) (down : Bool) : Blind (step counter k down) := by
  unfold step
  infer_instance

instance (s : Symbol) : Blind (reserveBound s) := by
  unfold reserveBound
  refine .bind (.modifyGet (fun _ => rfl) (fun _ => rfl) fun _ => rfl) fun r => ?_
  split <;> infer_instance

instance (id : SymbolId) (first last : Expr) (down : Bool) (body : Lower Unit) [Blind body] :
    Blind (lowerCount id first last down body) := by
  unfold lowerCount
  dsimp only
  repeat'
    first
    | infer_instance
    | split
    | refine .bind inferInstance fun _ => ?_

mutual

theorem lowerStmt_blind (s : Stmt) : Blind (lowerStmt s) := by
  cases s with
  | blank | define | assign | evaluate | giveBack | leave | next =>
    unfold lowerStmt
    infer_instance
  | choose h arms n otherwise =>
    have := lowerBlock_blind otherwise
    have := fun exit hasLast => lowerArms_blind exit hasLast arms
    unfold lowerStmt
    infer_instance
  | loop h c body =>
    have := lowerBlock_blind body
    unfold lowerStmt
    infer_instance
  | count h s first last down body =>
    have := lowerBlock_blind body
    unfold lowerStmt
    infer_instance

theorem lowerBlock_blind (b : Block) : Blind (lowerBlock b) := by
  cases b with
  | absent => exact inferInstanceAs (Blind (pure ()))
  | of ss n m => exact lowerStmts_blind ss

theorem lowerStmts_blind (ss : List Stmt) : Blind (lowerStmts ss) := by
  cases ss with
  | nil => exact inferInstanceAs (Blind (pure ()))
  | cons s ss =>
    have := lowerStmt_blind s
    have := lowerStmts_blind ss
    unfold lowerStmts
    infer_instance

theorem lowerArms_blind (exit : LabelId) (hasLast : Bool) (arms : List Arm) :
    Blind (lowerArms exit hasLast arms) := by
  cases arms with
  | nil => exact inferInstanceAs (Blind (pure ()))
  | cons arm arms =>
    obtain ⟨c, body⟩ := arm
    have := lowerBlock_blind body
    have := lowerArms_blind exit hasLast arms
    unfold lowerArms
    infer_instance

end

/-! ## Passes -/

/-- Spans that are opened differ, for they are numbered; nothing is made of them. -/
theorem Alike.openSpan_bind {scope : Trace.Scope} {name : String} {f f' : Trace.OpenSpan → Lower α}
    (hf : ∀ span span', Alike (f span) (f' span')) :
    Alike (openSpan scope name >>= f) (openSpan scope name >>= f') := by
  intro r r' p s s' h
  obtain ⟨ds, hds, hds'⟩ := h.delivered
  exact hf _ _ r r' p { s with tracer := _ } { s' with tracer := _ } ⟨h.same, ds, hds, hds'⟩

theorem closeSpan_alike {span span' : Trace.OpenSpan} {detail detail' : String} :
    Alike (closeSpan span detail) (closeSpan span' detail') :=
  fun _ _ _ _ _ h => ⟨rfl, h.same, h.delivered⟩

/-- A failure goes on when the span is closed. -/
theorem Alike.closeSpan_throw {span span' : Trace.OpenSpan} {detail detail' : String}
    (e : LoweringError) :
    Alike (closeSpan span detail >>= fun _ => throw e : Lower α)
      (closeSpan span' detail' >>= fun _ => throw e) :=
  .bind closeSpan_alike fun _ => (inferInstance : Blind (throw e)).alike

instance (name : String) (body : Lower Unit) [hbody : Blind body] : Blind (pass name body) where
  alike := .openSpan_bind fun _ _ =>
    .tryCatch (.bind hbody.alike fun _ => closeSpan_alike) fun e => .closeSpan_throw e

instance : Blind warnRecursion := by
  unfold warnRecursion
  infer_instance

instance (g : Declaration) : Blind (initialise g) := by
  unfold initialise
  infer_instance

instance : Blind initialiseGlobals := by
  unfold initialiseGlobals
  exact .get (fun _ => rfl) fun _ => inferInstance

instance (f : Function) : Blind (functionBody f) := by
  have : Blind (modify fun s => { s with current := some f, loops := [] } : Lower PUnit) :=
    .modify (fun _ => rfl) fun _ => rfl
  have := lowerBlock_blind f.body
  unfold functionBody
  refine .get (fun _ => rfl) fun s => ?_
  split <;> infer_instance

instance (f : Function) : Blind (lowerFunction f) where
  alike := by
    have hlast : Blind (modify fun s => { s with current := none } : Lower PUnit) :=
      .modify (fun _ => rfl) fun _ => rfl
    have hbody : Blind (functionBody f) := inferInstance
    exact .openSpan_bind fun _ _ =>
      .bind (.tryCatch hbody.alike fun e => .closeSpan_throw e) fun _ =>
      .bind closeSpan_alike fun _ => hlast.alike

instance (entry : Option Function) : Blind (lowerCode entry) := by
  unfold lowerCode
  dsimp only
  repeat'
    first
    | infer_instance
    | split
    | refine .bind inferInstance fun _ => ?_
    | refine .get (fun _ => rfl) fun _ => ?_

instance : Blind emitData := by
  unfold emitData
  refine .bind inferInstance fun p => .forM_mem fun d _ => .get (fun _ => rfl) fun s => ?_
  split <;> infer_instance

instance : Blind lowerTail := by
  have : Blind (modify fun s => { s with
      workspace := { s.workspace with stream := s.pool.emit s.workspace.stream } } : Lower PUnit) :=
    .modify (fun _ => rfl) fun _ => rfl
  unfold lowerTail
  refine .bind inferInstance fun _ => .bind inferInstance fun _ => .bind inferInstance fun _ =>
    .get (fun _ => rfl) fun s => ?_
  split <;> infer_instance

instance : Blind linkImage := by
  unfold linkImage
  refine .get (fun _ => rfl) fun s => ?_
  split <;> infer_instance

/-! ## The whole program -/

instance (id : SymbolId) : Blind (allocate id) := by
  unfold allocate
  dsimp only
  refine .bind inferInstance fun p => .get (fun _ => rfl) fun s => ?_
  split
  · exact .modify (fun _ => rfl) fun _ => rfl
  · infer_instance

instance (g : Declaration) : Blind (allocateGlobal g) := by
  have : Blind (modify fun e => { e with constants := (g.symbol, g.value) :: e.constants } :
      Lower PUnit) :=
    .modify (fun _ => rfl) fun _ => rfl
  unfold allocateGlobal
  infer_instance

instance (f : Function) : Blind (allocateFrame f) := by
  have (l : LabelId) : Blind (modify fun s => { s with functions := (f.id, l) :: s.functions } :
      Lower PUnit) :=
    .modify (fun _ => rfl) fun _ => rfl
  unfold allocateFrame
  infer_instance

instance : Blind allocateStorage := by
  have : Blind (modify fun s => { s with globalSize := s.allocator.used } : Lower PUnit) :=
    .modify (fun _ => rfl) fun _ => rfl
  unfold allocateStorage
  infer_instance

instance declareData_blind (seen : List Bytes) (blocks : List (DataBlock × Nat)) :
    Blind (declareData seen blocks) := by
  induction blocks generalizing seen with
  | nil => exact inferInstanceAs (Blind (pure ()))
  | cons block blocks ih =>
    obtain ⟨d, i⟩ := block
    have (l : LabelId) : Blind (modify fun s =>
        { s with data := (UInt32.ofNat (i + 1), l) :: s.data } : Lower PUnit) :=
      .modify (fun _ => rfl) fun _ => rfl
    unfold declareData
    dsimp only
    infer_instance

instance : Blind lowerProgram := by
  have hlink : Blind (do
      let span ← openSpan .pass "link"
      let image ←
        try linkImage
        catch e =>
          closeSpan span e.message
          throw e
      closeSpan span ""
      return image) :=
    ⟨.openSpan_bind fun _ _ =>
      .bind (.tryCatch (inferInstance : Blind linkImage).alike fun e => .closeSpan_throw e)
          fun image =>
      .bind closeSpan_alike fun _ => (inferInstance : Blind (pure image)).alike⟩
  unfold lowerProgram
  dsimp only
  repeat'
    first
    | infer_instance
    | split
    | refine .bind inferInstance fun _ => ?_
    | refine .get (fun _ => rfl) fun _ => ?_

end Lowering

end Breadbin
