import Breadbin.Proofs.Lowering.Deeds

/-!
# What expressions leave as it is

Neither the loops around an expression nor the function that it stands in change while it is
lowered.  `Lowers` is `Does` with that said, so that the jumps of statements behind an expression
find their labels.
-/

set_option synthInstance.maxSize 100000
set_option synthInstance.maxHeartbeats 100000

namespace Breadbin.Lowering

open Assembly

/-- The loops around and the function are those of before. -/
structure Emission.Level (s s' : Emission) : Prop where
  loops : s'.loops = s.loops
  current : s'.current = s.current

open Emission

instance : Path Level where
  refl _ := ⟨rfl, rfl⟩
  trans h h' := ⟨h'.loops.trans h.loops, h'.current.trans h.current⟩

/-! ## Code -/

section

variable {α : Type}

instance (w : Routine.Writer α) : Moves Level (write w) := ⟨fun _ _ => ⟨rfl, rfl⟩⟩

instance (d : Diagnostic) : Moves Level (report d) := .modify fun _ => ⟨rfl, rfl⟩

instance (name : String) : Moves Level (newLabel name) := ⟨fun _ _ => ⟨rfl, rfl⟩⟩

instance (code : Code) (span : Span) (m : String) : Moves Level (reportError code span m) := by
  unfold reportError
  infer_instance

instance (c : Checked α) : Moves Level (checked c) := by
  unfold checked
  infer_instance

instance (mn : Mnemonic) (o : Operand) : Moves Level (emit mn o) :=
  inferInstanceAs (Moves Level (write _))

instance (mn : Mnemonic) : Moves Level (op mn) := inferInstanceAs (Moves Level (write _))

instance (mn : Mnemonic) (n : UInt8) : Moves Level (imm mn n) :=
  inferInstanceAs (Moves Level (write _))

instance (mn : Mnemonic) (z : UInt8) : Moves Level (zp mn z) :=
  inferInstanceAs (Moves Level (write _))

instance (mn : Mnemonic) (r : AddressRef) : Moves Level (mem mn r) :=
  inferInstanceAs (Moves Level (emit _ _))

instance (mn : Mnemonic) (l : LabelId) : Moves Level (branchTo mn l) :=
  inferInstanceAs (Moves Level (write _))

instance (l : LabelId) : Moves Level (jumpTo l) := inferInstanceAs (Moves Level (write _))

instance (l : LabelId) : Moves Level (place l) := inferInstanceAs (Moves Level (write _))

instance (id : RoutineId) : Moves Level (callRoutine id) := inferInstanceAs (Moves Level (write _))

instance (r : AddressRef) (wide : Bool) : Moves Level (load r wide) := by
  unfold load
  infer_instance

instance (r : AddressRef) (wide : Bool) : Moves Level (store r wide) := by
  unfold store
  infer_instance

instance (z : UInt8) (wide : Bool) : Moves Level (loadSlot z wide) := by
  unfold loadSlot
  infer_instance

instance (z : UInt8) (wide : Bool) : Moves Level (storeSlot z wide) := by
  unfold storeSlot
  infer_instance

instance (v : UInt16) (wide : Bool) : Moves Level (loadConstant v wide) := by
  unfold loadConstant
  infer_instance

instance (r : AddressRef) : Moves Level (loadAddress r) := by
  unfold loadAddress
  infer_instance

instance (wide : Bool) : Moves Level (push wide) := by
  unfold push
  infer_instance

instance (wide : Bool) : Moves Level (pop wide) := by
  unfold pop
  infer_instance

instance : Moves Level testA := inferInstanceAs (Moves Level (imm _ _))

instance (t : Ty) : Moves Level (zero t) := inferInstanceAs (Moves Level (loadConstant _ _))

instance (mn : Mnemonic) : Moves Level (materialize mn) := by
  unfold materialize
  infer_instance

instance (k : Kind) : Moves Level (extend k) := by
  unfold extend
  infer_instance

instance (id : SymbolId) : Moves Level (symbolRef id) := by
  unfold symbolRef
  refine .bind inferInstance fun s => ?_
  split <;> infer_instance

instance (id : SymbolId) : Moves Level (symbol id) := by
  unfold symbol
  refine .bind inferInstance fun p => ?_
  split <;> infer_instance

end

/-! ## Known values and conversions -/

instance (x : Expr) : Moves Level (constantOf x) := by
  unfold constantOf
  infer_instance

instance (x : Expr) : Moves Level (knownValue x) := by
  unfold knownValue
  infer_instance

instance (x : Expr) (c : Conversion) : Moves Level (fold x c) := by
  unfold fold
  refine .bind inferInstance fun e => ?_
  split <;> infer_instance

instance (bytes : Bytes) : Moves Level (loadString bytes) :=
  .bind (.modifyGet fun _ => ⟨rfl, rfl⟩) fun _ => inferInstance

instance (h : ExprHead) (v : Literal) : Moves Level (lowerLiteral h v) := by
  unfold lowerLiteral
  infer_instance

instance (n : ℕ) (act : Lower Unit) [Moves Level act] : Moves Level (times n act) := by
  induction n with
  | zero => exact inferInstanceAs (Moves Level (pure ()))
  | succ n ih => exact .bind inferInstance fun _ => ih

instance (k : Kind) : Moves Level (toBool k) := by
  unfold toBool
  infer_instance

instance (k : Kind) : Moves Level (toText k) := by
  unfold toText
  split <;> infer_instance

instance (k : Kind) : Moves Level (fixedToInt k) := by
  unfold fixedToInt
  infer_instance

instance (k : Kind) : Moves Level (intToFixed k) := by
  unfold intToFixed
  infer_instance

instance (c : Conversion) (inCast : Bool) (span : Span) : Moves Level (convert c inCast span) := by
  unfold convert
  dsimp only
  split
  · infer_instance
  · split <;> infer_instance

/-! ## Operators -/

section

variable (x l r : Part) [Moves Level x.value] [Moves Level l.value] [Moves Level r.value]

instance (c : Conversion) (inCast : Bool) : Moves Level (x.converted c inCast) := by
  unfold Part.converted
  refine .bind inferInstance fun bits => ?_
  split <;> infer_instance

instance (want : Ty) : Moves Level (x.inType want) := by
  unfold Part.inType
  dsimp only
  infer_instance

instance : Moves Level x.toString := by
  unfold Part.toString
  repeat' first | infer_instance | split

instance (h : ExprHead) : Moves Level (lowerCast h x) := by
  unfold lowerCast
  infer_instance

instance (wide : Bool) : Moves Level (complement wide) := by
  unfold complement
  infer_instance

instance (t : Ty) : Moves Level (negate t) := by
  unfold negate
  infer_instance

instance (h : ExprHead) (op : UnaryOp) : Moves Level (lowerUnary h op x) := by
  unfold lowerUnary
  dsimp only
  repeat' first | infer_instance | split

instance (k : Kind) (a b : Place) : Moves Level (compareLess k a b) := by
  unfold compareLess
  infer_instance

instance (a b : Place) (wide : Bool) : Moves Level (compareEqual a b wide) := by
  unfold compareEqual
  infer_instance

instance (mn : Mnemonic) (wide : Bool) : Moves Level (bytewise mn wide) := by
  unfold bytewise
  infer_instance

instance (e : Expr) (c : Conversion) : Moves Level (isLeaf e c) := by
  unfold isLeaf
  repeat' first | infer_instance | split

instance (res : Resolution) (a b : UInt8) : Moves Level (stage l r res a b) := by
  unfold stage
  infer_instance

instance (op : BinaryOp) (res : Resolution) : Moves Level (lowerInteger op l r res) := by
  unfold lowerInteger
  refine .bind inferInstance fun _ => ?_
  split <;> infer_instance

instance (op : BinaryOp) (res : Resolution) : Moves Level (lowerArithmetic op l r res) := by
  unfold lowerArithmetic
  dsimp only
  repeat' first | infer_instance | split

instance (op : BinaryOp) : Moves Level (compareFloat op) := by
  unfold compareFloat
  repeat' first | infer_instance | split

instance (op : BinaryOp) (k : Kind) : Moves Level (compareInteger op k) := by
  unfold compareInteger
  dsimp only
  split <;> infer_instance

instance (op : BinaryOp) (res : Resolution) : Moves Level (lowerComparison op l r res) := by
  unfold lowerComparison
  dsimp only
  infer_instance

instance (left : Bool) (k : Kind) : Moves Level (shiftStep left k) := by
  unfold shiftStep
  infer_instance

instance (left : Bool) (k : Kind) : Moves Level (shiftByY left k) := by
  unfold shiftByY
  infer_instance

instance (op : BinaryOp) (res : Resolution) : Moves Level (lowerShift op l r res) := by
  unfold lowerShift
  dsimp only
  repeat' first | infer_instance | split | refine .bind inferInstance fun _ => ?_

instance (op : BinaryOp) : Moves Level (lowerLogical op l r) := by
  unfold lowerLogical
  infer_instance

instance (h : ExprHead) (op : BinaryOp) : Moves Level (lowerBinary h op l r) := by
  unfold lowerBinary
  dsimp only
  infer_instance

end

/-! ## Elements and calls -/

instance (x : Expr) : Moves Level (constantAddress x) := by
  unfold constantAddress
  refine .bind inferInstance fun c => ?_
  split <;> infer_instance

instance (a : SymbolId) (i : Part) (span : Span) : Moves Level (resolveElement a i span) := by
  unfold resolveElement
  dsimp only
  repeat' first | infer_instance | split | refine .bind inferInstance fun _ => ?_

section

variable (e : Element) [Moves Level e.index.value]

instance : Moves Level (pointTo e) := by
  unfold pointTo
  dsimp only
  infer_instance

instance : Moves Level (loadElement e) := by
  unfold loadElement
  dsimp only
  split <;> infer_instance

end

instance (h : ExprHead) (a : SymbolId) (i : Part) [hi : Moves Level i.value] :
    Moves Level (lowerIndex h a i) := by
  unfold lowerIndex
  refine Moves.bind_result inferInstance fun e p s s' hperform => ?_
  split
  next e =>
    obtain ⟨rfl, -⟩ := resolveElement_result a i h.span p s _ s' hperform e rfl
    infer_instance
  next => infer_instance

instance (ids : List SymbolId) : Moves Level (parametersOf ids) := by
  unfold parametersOf
  infer_instance

/-- Parts that are all lowered so. -/
class PartsLevel (xs : List Part) : Prop where
  moves : ∀ x ∈ xs, Moves Level x.value

theorem pushArguments_level {xs : List (Part × Parameter)} (h : ∀ x ∈ xs, Moves Level x.1.value) :
    Moves Level (pushArguments xs) := by
  induction xs with
  | nil => exact inferInstanceAs (Moves Level (pure ()))
  | cons x xs ih =>
    have hx := h x (by simp)
    have hrest := ih fun y hy => h y (by simp [hy])
    unfold pushArguments
    infer_instance

instance (parameters : List Parameter) : Moves Level (popArguments parameters) := by
  unfold popArguments
  infer_instance

section

variable (xs : List Part) [hxs : PartsLevel xs]

instance (parameters : List Parameter) : Moves Level (passArguments xs parameters) := by
  unfold passArguments
  split
  next x ref t =>
    have := hxs.moves x (by simp)
    infer_instance
  next =>
    have : Moves Level (pushArguments (xs.zip parameters)) :=
      pushArguments_level fun x hx => hxs.moves x.1 (List.of_mem_zip hx).1
    infer_instance

instance (h : ExprHead) (f : FunctionId) : Moves Level (lowerCall h f xs) := by
  unfold lowerCall
  repeat' first | infer_instance | split | refine .bind inferInstance fun _ => ?_

instance : Moves Level (printAll xs) := by
  unfold printAll
  refine .forM_mem fun x hx => ?_
  have := hxs.moves x hx
  infer_instance

end

section

variable (x y : Part) [Moves Level x.value] [Moves Level y.value]

instance (t : Ty) : Moves Level (drawFromRange x y t) := by
  unfold drawFromRange
  infer_instance

instance : Moves Level (lowerPeek x) := by
  unfold lowerPeek
  repeat' first | infer_instance | split | refine .bind inferInstance fun _ => ?_

instance : Moves Level (lowerPoke x y) := by
  unfold lowerPoke
  repeat' first | infer_instance | split | refine .bind inferInstance fun _ => ?_

end

instance (b : Builtin) (xs : List Part) [hxs : PartsLevel xs] : Moves Level (builtinCode b xs) := by
  unfold builtinCode
  refine .bind inferInstance fun s => ?_
  dsimp only
  split
  -- no argument, one or two
  all_goals
    first
    | infer_instance
    | have hx := hxs.moves _ List.mem_cons_self
      infer_instance
    | have hx := hxs.moves _ List.mem_cons_self
      have hy := hxs.moves _ (List.mem_cons_of_mem _ List.mem_cons_self)
      infer_instance

instance (h : ExprHead) (b : Builtin) (xs : List Part) [PartsLevel xs] :
    Moves Level (lowerBuiltin h b xs) := by
  unfold lowerBuiltin
  infer_instance

/-! ## Values -/

instance (d : DataId) : Moves Level (lowerDataAddress d) := by
  unfold lowerDataAddress
  dsimp only
  repeat' first | infer_instance | split | refine .bind inferInstance fun _ => ?_

instance (constant : Expr → Ty → Lower Unit) [∀ e t, Moves Level (constant e t)]
    (h : ExprHead) (id : SymbolId) :
    Moves Level (lowerVariable constant h id) := by
  unfold lowerVariable
  repeat' first | infer_instance | split | refine .bind inferInstance fun _ => ?_

mutual

theorem valueWith_level (constant : Expr → Ty → Lower Unit)
    [hconstant : ∀ e t, Moves Level (constant e t)] (e : Expr) :
    Moves Level (valueWith constant e) := by
  cases e with
  | absent | blank | literal | var | dataAddress =>
    unfold valueWith
    infer_instance
  | unary h op x | cast h x =>
    have := valueWith_level constant x
    unfold valueWith
    infer_instance
  | binary h op l r =>
    have := valueWith_level constant l
    have := valueWith_level constant r
    unfold valueWith
    infer_instance
  | index h a i =>
    have := valueWith_level constant i
    unfold valueWith
    infer_instance
  | call h f as n | builtin h b as n =>
    have := partsWith_level constant as
    unfold valueWith
    infer_instance

theorem partsWith_level (constant : Expr → Ty → Lower Unit)
    [hconstant : ∀ e t, Moves Level (constant e t)] (es : List Expr) :
    PartsLevel (partsWith constant es) := by
  cases es with
  | nil => exact ⟨by simp [partsWith]⟩
  | cons e es =>
    have he := valueWith_level constant e
    have hes := partsWith_level constant es
    refine ⟨fun x hx => ?_⟩
    rw [partsWith] at hx
    rcases List.mem_cons.1 hx with rfl | hx
    · exact he
    · exact hes.moves x hx

end

instance (depth : ℕ) (e : Expr) (t : Ty) : Moves Level (constantWithin depth e t) := by
  induction depth generalizing e t with
  | zero => exact inferInstanceAs (Moves Level (throw _))
  | succ depth ih =>
    have := valueWith_level (constantWithin depth) e
    unfold constantWithin
    infer_instance

instance (e : Expr) : Moves Level (lowerValue e) := by
  unfold lowerValue
  exact .bind inferInstance fun p => valueWith_level _ e

instance (e : Expr) (want : Ty) : Moves Level (lowerExpr e want) := by
  have : Moves Level (part e).value := inferInstanceAs (Moves Level (lowerValue e))
  unfold lowerExpr
  infer_instance

instance (value : Bool) (target : LabelId) (e : Expr) : Moves Level (branchOn value target e) := by
  have hplain (value : Bool) (target : LabelId) (e : Expr) :
      Moves Level (branchOn.plain value target e) := by
    unfold branchOn.plain
    infer_instance
  fun_induction branchOn value target e <;> infer_instance

/-! ## Lowering on a level -/

/-- Lowering succeeds, the code that is written has a property wherever it is linked, and the loops
around and the function are those of before. -/
structure Lowers (act : Lower Unit) (p : Program) (s : Emission) (P : Deed) : Prop where
  does : Does act p s P
  level : s.Level (perform act p s).2

section

variable {p : Program} {s s' : Emission} {P Q : Deed} {α : Type} {x y act : Lower Unit}

theorem Does.lowers [hact : Moves Level act] (h : Does act p s P) : Lowers act p s P :=
  ⟨h, hact.moves p s⟩

namespace Lowers

theorem mono (h : Lowers act p s P) (hPQ : ∀ code a b, P code a b → Q code a b) :
    Lowers act p s Q :=
  ⟨h.does.mono hPQ, h.level⟩

/-- A first part that writes nothing. -/
theorem bind_unwritten {first : Lower α} {f : α → Lower Unit} {r : α}
    (hperform : perform first p s = (.ok r, s'))
    (hwrites : s.Writes s' []) (hlevel : s.Level s') (h : Lowers (f r) p s' P) :
    Lowers (first >>= f) p s P where
  does := .bind_unwritten hperform hwrites h.does
  level := by
    rw [perform_bind_ok hperform]
    exact Path.trans hlevel h.level

theorem bind (hx : Lowers x p s P) (hy : ∀ s', s.Stays s' → s.Level s' → Lowers y p s' Q) :
    Lowers (x >>= fun _ => y) p s (P.andThen Q) := by
  obtain ⟨⟨s₁, ls, hperform, hwrites, hdeed⟩, hlevel⟩ := hx
  rw [hperform] at hlevel
  obtain ⟨⟨s₂, ms, hperform', hwrites', hdeed'⟩, hlevel'⟩ := hy s₁ hwrites.toStays hlevel
  rw [hperform'] at hlevel'
  refine ⟨⟨s₂, ls ++ ms, by rw [perform_bind_ok hperform, hperform'], hwrites.trans hwrites', ?_⟩,
    ?_⟩
  · intro code a b hcode hsupplies
    obtain ⟨m, hfirst, hlast⟩ := hcode.split ls
    exact ⟨m, hdeed code a m hfirst (hsupplies.of_grows hwrites'.grows),
      hdeed' code m b hlast hsupplies⟩
  · rw [perform_bind_ok hperform, hperform']
    exact Path.trans hlevel hlevel'

/-- A part that makes a label. -/
theorem label {name : String} {f : LabelId → Lower Unit}
    (h : ∀ l s', s.Stays s' → s.Level s' → Lowers (f l) p s' P) :
    Lowers (newLabel name >>= f) p s P :=
  have hmade := Emission.Writes.labelled s (s.labels + 1) (Text.bytesOf s!"{name}_{s.labels + 1}")
  bind_unwritten rfl hmade ⟨rfl, rfl⟩ (h s.workspace.nextLabel _ hmade.toStays ⟨rfl, rfl⟩)

theorem pure : Lowers (pure ()) p s (Lines []) := Does.pure.lowers

theorem straight (act : Lower Unit) [h : Straight act] [Moves Level act] :
    Lowers act p s (Lines h.lines) :=
  (Does.straight act).lowers

end Lowers

end

end Breadbin.Lowering
