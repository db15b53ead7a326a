import Breadbin.Proofs.Lowering.Orderly
import Breadbin.Proofs.Ty.Resolution

/-!
# Expressions in order

The code of every well-formed expression binds its labels and asks for nothing that is not there,
whatever its types are: what the typing rules refuse is reported, and what they accept has code.
-/

set_option synthInstance.maxSize 100000
set_option synthInstance.maxHeartbeats 100000

namespace Breadbin.Lowering

open Assembly Emission

variable {p : Program} {c : Setting p} {α β : Type}

/-! ## Symbols -/

/-- The number of a symbol of the program. -/
class Declared (p : Program) (id : SymbolId) : Prop where
  declared : (p.symbol? id).isSome = true

section

variable (id : SymbolId) [hid : Declared p id]

instance : Safe c (symbol id) where
  fine := .of_state inferInstance fun s U hs => by
    obtain ⟨found, hfound⟩ := Option.isSome_iff_exists.1 hid.declared
    refine ⟨[], pure found, nofun, ?_, .pure _⟩
    show perform (match p.symbol? id with | some s => _ | none => _) p s = _
    rw [hfound]

/-- The symbol that is found is the one of the program. -/
theorem symbol_result (id : SymbolId) (s : Emission) (found : Symbol) (s' : Emission)
    (h : perform (symbol id) p s = (.ok found, s')) : p.symbol? id = some found := by
  change perform (match p.symbol? id with | some s => _ | none => _) p s = _ at h
  split at h
  next found' hfound =>
    cases h
    exact hfound
  next => cases h

instance : Safe c (symbolRef id) where
  fine := .of_state inferInstance fun s U hs => by
    obtain ⟨address, haddress⟩ := Option.isSome_iff_exists.1 (hs.storage.declared id hid.declared)
    refine ⟨[], pure (.fixed address), nofun, ?_, .pure _⟩
    show perform (match s.allocator.lookup? id with | some a => _ | none => _) p s = _
    rw [haddress]

theorem Fine.symbolRef_bind {f : AddressRef → Lower β} {e : Bool} {K M N : List LabelId}
    (hf : ∀ a, Fine c e K M (f (.fixed a)) N) : Fine c e K M (symbolRef id >>= f) N :=
  .bind_result .safe (symbolRef_result id) fun r hr => by
    obtain ⟨a, rfl⟩ := hr
    exact hf a

end

/-! ## Known values -/

instance (x : Expr) : Safe c (constantOf x) := by
  unfold constantOf
  infer_instance

instance (x : Expr) : Safe c (knownValue x) := by
  unfold knownValue
  infer_instance

instance (x : Expr) : Safe c (constantAddress x) := by
  unfold constantAddress
  refine ⟨.bind .safe fun found => ?_⟩
  cases found <;> exact .safe

instance (x : Expr) (v : Conversion) : Safe c (fold x v) := by
  unfold fold
  refine ⟨.bind .safe fun found => ?_⟩
  cases found <;> exact .safe

instance (bytes : Bytes) : Safe c (loadString bytes) where
  fine := .intern_bind (by simp [stringBytes]) fun l => .loose (.loadAddress (by simp))

instance (h : ExprHead) (v : Literal) : Safe c (lowerLiteral h v) := by
  unfold lowerLiteral
  infer_instance

/-! ## Conversions -/

instance times_safe (n : Nat) (act : Lower Unit) [Safe c act] : Safe c (times n act) := by
  induction n with
  | zero => exact inferInstanceAs (Safe c (pure ()))
  | succ n ih => exact inferInstanceAs (Safe c (act >>= fun _ => times n act))

instance (k : Kind) : Safe c (toBool k) where
  fine := by
    unfold toBool
    refine .newLabel_bind fun done => ?_
    have htest : Fine c false [done] [done] (do branchTo .beq done; imm .lda 1; place done) [] :=
      .bind (.branchTo rfl (by simp)) fun _ => .bind .safe fun _ => .place .head
    dsimp only
    refine .ite (fun _ => ?_) fun _ => .ite (fun _ => ?_) fun _ => .bind .safe fun _ => htest
    · exact .bind .safe fun _ => .bind .safe fun _ => .bind .safe fun _ =>
        .bind .safe fun _ => htest
    · exact .bind .safe fun _ => .bind .safe fun _ => htest

instance (k : Kind) : Safe c (toText k) := by
  unfold toText
  split <;> infer_instance

instance (k : Kind) : Safe c (fixedToInt k) := by
  unfold fixedToInt
  infer_instance

instance (k : Kind) : Safe c (intToFixed k) := by
  unfold intToFixed
  infer_instance

/-- A conversion that may be written where it stands. -/
class Permitted (v : Conversion) (inCast : Bool) : Prop where
  allowed : v.Allowed inCast

instance (v : Conversion) (inCast : Bool) (span : Span) [hv : Permitted v inCast] :
    Safe c (convert v inCast span) := by
  obtain ⟨hvalid, hexplicit⟩ := hv.allowed
  have hrefused : ¬(v.kind = .invalid || (v.explicit && !inCast)) = true := by
    simpa [hvalid] using hexplicit
  unfold convert
  simp only [hrefused, if_false, Bool.false_eq_true]
  split <;> infer_instance

/-! ## Operands -/

/-- An operand that is there and has safe code. -/
class Ready (c : Setting p) (x : Part) : Prop where
  present : x.expr.isAbsent = false
  value : Safe c x.value
  moves : ∀ K, Moves (Codes K) x.value

attribute [instance] Ready.value

section

variable (x : Part) [hx : Ready c x]

instance (v : Conversion) (inCast : Bool) [Permitted v inCast] : Safe c (x.converted v inCast) := by
  unfold Part.converted
  refine ⟨.bind .safe fun bits => ?_⟩
  cases bits <;> exact .safe

theorem permitted_of_assign {declared value : Ty} {known : Option KnownValue} {span : Span}
    (h : (Checked.assign declared value known span).accepted = true) :
    Permitted (Checked.assign declared value known span).value false := by
  have hallowed := @Conversion.ofAssignment_allowed declared value
  unfold Checked.assign at h ⊢
  generalize Conversion.ofAssignment declared value = r at h hallowed ⊢
  obtain ⟨v, _ | mismatch⟩ := r
  · exact ⟨hallowed rfl⟩
  · cases h

theorem permitted_of_cast {source target : Ty} {known : Option KnownValue} {span : Span}
    (h : (Checked.cast source target known span).accepted = true) :
    Permitted (Checked.cast source target known span).value true := by
  have hallowed := @Conversion.ofCast_allowed source target
  unfold Checked.cast at h ⊢
  generalize Conversion.ofCast source target = r at h hallowed ⊢
  obtain ⟨v, _ | mismatch⟩ := r
  · exact ⟨hallowed rfl⟩
  · cases h

instance (want : Ty) : Safe c (x.inType want) := by
  unfold Part.inType
  simp only [hx.present, Bool.false_eq_true, if_false]
  refine ⟨.ite (fun _ => .safe) fun _ => .bind .safe fun known => .checked_bind ?_⟩
  refine .ite (fun haccepted => ?_) fun _ => .safe
  have := permitted_of_assign haccepted
  exact .safe

instance : Safe c x.toString := by
  unfold Part.toString
  refine ⟨.ite (fun _ => .safe) fun _ => ?_⟩
  split
  next => exact .safe
  next v hresult =>
    have : Permitted v true := by
      have := @Conversion.ofCast_allowed x.type .string
      rw [hresult] at this
      exact ⟨this rfl⟩
    exact .safe

instance (h : ExprHead) : Safe c (lowerCast h x) := by
  unfold lowerCast
  refine ⟨.bind .safe fun known => .checked_bind <| .ite (fun haccepted => ?_) fun _ => .safe⟩
  have := permitted_of_cast haccepted
  exact .safe

end

/-! ## Operators -/

instance (wide : Bool) : Safe c (complement wide) := by
  unfold complement
  infer_instance

instance (t : Ty) : Safe c (negate t) := by
  unfold negate
  infer_instance

instance (h : ExprHead) (op : UnaryOp) (x : Part) [Ready c x] : Safe c (lowerUnary h op x) := by
  unfold lowerUnary
  refine ⟨.checked_bind <| .bind .safe fun _ => .ite (fun haccepted => ?_) fun _ => .safe⟩
  have hknown : ∀ code, op ≠ .unknown code := by
    refine Resolution.known_of_resolveUnary (t := x.type) ?_
    unfold Checked.unary at haccepted
    generalize Resolution.resolveUnary op x.type = r at haccepted ⊢
    obtain ⟨t, _ | mismatch⟩ := r
    · rfl
    · cases haccepted
  cases op with
  | unknown code => exact absurd rfl (hknown code)
  | _ => exact .safe

/-- A place without a label. -/
class Fixed (a : Place) : Prop where
  fixed : ∀ r, a = .address r → r.label.isSome = false

instance (n : UInt8) : Fixed (.slot n) := ⟨nofun⟩

instance (r : AddressRef) [h : Unlabelled r] : Fixed (.address r) :=
  ⟨fun _ heq => Place.address.inj heq ▸ h.unlabelled⟩

instance (mn : Mnemonic) (a : Place) (i : UInt8) [ha : Fixed a] [Holds (Opcode.takes mn .zeroPage)]
    [Holds (Opcode.takes mn .absolute)] : Plain mn (a.byte i) := by
  cases a with
  | slot n => exact inferInstanceAs (Plain mn (.zeroPage (n + i)))
  | address r =>
    have : Unlabelled r := ⟨ha.fixed r rfl⟩
    exact inferInstanceAs (Plain mn (.absolute (r.plus i.toUInt16)))

section

variable (a b : Place) [Fixed a] [Fixed b]

instance (k : Kind) : Safe c (compareLess k a b) where
  fine := by
    unfold compareLess
    refine .ite (fun _ => .safe) fun _ => ?_
    have hflip : Fine c false [] [] (do
        let skip ← newLabel "lt"
        branchTo .bvc skip
        imm .eor 0x80
        place skip) [] :=
      .newLabel_bind fun skip => .bind (.branchTo rfl (by simp)) fun _ =>
        .bind .safe fun _ => .place .head
    dsimp only
    refine .ite (fun _ => ?_) fun _ => ?_
    · exact .bind .safe fun _ => .bind .safe fun _ => .bind .safe fun _ =>
        .bind .safe fun _ => hflip
    · exact .bind .safe fun _ => .bind .safe fun _ => .bind .safe fun _ => hflip

instance (wide : Bool) : Safe c (compareEqual a b wide) where
  fine := by
    unfold compareEqual
    refine .bind .safe fun _ => .bind .safe fun _ => .ite (fun _ => ?_) fun _ => .pure _
    refine .newLabel_bind fun different => .bind (.branchTo rfl (by simp)) fun _ => ?_
    exact .bind .safe fun _ => .bind .safe fun _ => .place .head

end

instance (mn : Mnemonic) (wide : Bool) [Holds (Opcode.takes mn .zeroPage)] :
    Safe c (bytewise mn wide) := by
  unfold bytewise
  infer_instance

instance (x : Expr) (v : Conversion) : Safe c (isLeaf x v) := by
  unfold isLeaf
  refine ⟨.ite (fun _ => .safe) fun _ => ?_⟩
  split
  all_goals
    first
    | exact .safe
    | refine .bind .safe fun known => .ite (fun _ => .safe) fun _ => ?_
      split <;> exact .safe

section

variable (l r : Part) [hl : Ready c l] [hr : Ready c r] {res : Resolution}
  [Permitted res.left false]
  [Permitted res.right false]

instance (a b : UInt8) : Safe c (stage l r res a b) := by
  unfold stage
  infer_instance

theorem lowerInteger_safe {op : BinaryOp} (h : op.hasCode .u8 = true) :
    Safe c (lowerInteger op l r res) := by
  unfold lowerInteger
  refine ⟨.bind .safe fun _ => ?_⟩
  cases op <;> first | exact .safe | cases h

theorem lowerArithmetic_safe {op : BinaryOp} (h : op.hasCode res.operand.kind = true) :
    Safe c (lowerArithmetic op l r res) := by
  unfold lowerArithmetic
  dsimp only
  generalize res.operand.kind = k at h ⊢
  cases k with
  | string | float =>
    cases op <;> first | (cases h; done) | (simp [floatRoutine?]; infer_instance)
  | fixed =>
    cases op <;>
      first
      | (cases h; done)
      | (simp; first | infer_instance | exact lowerInteger_safe l r rfl)
  | u8 | i8 | u16 | i16 =>
    simpa [Kind.isInteger] using lowerInteger_safe l r h
  | _ => cases h

instance (op : BinaryOp) : Safe c (compareFloat op) := by
  unfold compareFloat
  refine ⟨.bind .safe fun _ => ?_⟩
  cases op <;> exact .safe

instance (op : BinaryOp) (k : Kind) : Safe c (compareInteger op k) := by
  have hless : Opcode.takes (lessBranch k) .relative = true := by
    unfold lessBranch
    cases k.isSigned <;> rfl
  have hnotLess : Opcode.takes (notLessBranch k) .relative = true := by
    unfold notLessBranch
    cases k.isSigned <;> rfl
  have : Holds (Opcode.takes (lessBranch k) .relative) := ⟨hless⟩
  have : Holds (Opcode.takes (notLessBranch k) .relative) := ⟨hnotLess⟩
  unfold compareInteger
  cases op <;> infer_instance

theorem lowerComparison_safe {op : BinaryOp}
    (h : res.operand.kind = .string → op = .eq ∨ op = .ne) :
    Safe c (lowerComparison op l r res) := by
  unfold lowerComparison
  dsimp only
  split
  next hstring =>
    rcases h hstring with rfl | rfl
    · simp
      infer_instance
    · simp
      infer_instance
  next => infer_instance

end

instance (left : Bool) (k : Kind) : Safe c (shiftStep left k) := by
  unfold shiftStep
  infer_instance

instance (left : Bool) (k : Kind) : Safe c (shiftByY left k) where
  fine := by
    have hrounds : Fine c false [] [] (do
        let again ← newLabel "shift"
        let done ← newLabel "shift_end"
        imm .cpy 0
        branchTo .beq done
        place again
        shiftStep left k
        op .dey
        branchTo .bne again
        place done
        if k.isWide then loadSlot ZeroPage.scratch true) [] := by
      refine .newLabel_bind fun again => .newLabel_bind fun done => .bind .safe fun _ => ?_
      refine .bind (.branchTo rfl (by simp)) fun _ => .bind (.place (.tail .head)) fun _ => ?_
      refine .bind .safe fun _ => .bind .safe fun _ => .bind (.branchTo rfl (by simp)) fun _ => ?_
      exact .bind (.place .head) fun _ => .safe
    unfold shiftByY
    exact .ite (fun _ => .bind .safe fun _ => hrounds) fun _ => hrounds

section

variable (l r : Part) [hl : Ready c l] [hr : Ready c r] {res : Resolution}
  [Permitted res.left false]
  [Permitted res.right false]

instance (op : BinaryOp) : Safe c (lowerShift op l r res) where
  fine := by
    unfold lowerShift
    dsimp only
    refine .bind .safe fun _ => .bind .safe fun known => ?_
    cases known with
    | none =>
      exact .bind .safe fun _ => .bind .safe fun _ => .bind .safe fun _ => .bind .safe fun _ =>
        .safe
    | some e => exact .bind .safe fun _ => .safe

instance (op : BinaryOp) : Safe c (lowerLogical op l r) where
  fine := by
    unfold lowerLogical
    refine .newLabel_bind fun done => .bind .safe fun _ => .bind .safe fun _ => ?_
    refine .bind (.branchTo ?_ (by simp)) fun _ => .bind .safe fun _ => .place .head
    split <;> rfl

end

/-- What the rules accept is what they find. -/
theorem resolve?_of_accepted {op : BinaryOp} {a b : Ty} {span : Span}
    (h : (Checked.binary op a b span).accepted = true) :
    Resolution.resolve? op a b = some (Checked.binary op a b span).value := by
  have hnone := @Resolution.resolve_eq_none op a b
  unfold Checked.binary at h ⊢
  generalize Resolution.resolve op a b = r at h hnone ⊢
  obtain ⟨res, _ | mismatch⟩ := r
  · exact hnone rfl
  · cases h

instance (h : ExprHead) (op : BinaryOp) (l r : Part) [hl : Ready c l] [hr : Ready c r] :
    Safe c (lowerBinary h op l r) := by
  unfold lowerBinary
  simp only [hl.present, hr.present, Bool.or_self, Bool.false_eq_true, if_false]
  refine ⟨.checked_bind ?_⟩
  refine .ite (fun _ => .safe) fun haccepted => ?_
  have hresolved := resolve?_of_accepted (by simpa using haccepted)
  obtain ⟨hleft, hright⟩ := Resolution.allowed hresolved
  have : Permitted (Checked.binary op l.type r.type h.span).value.left false := ⟨hleft⟩
  have : Permitted (Checked.binary op l.type r.type h.span).value.right false := ⟨hright⟩
  refine .ite (fun _ => .safe) fun hlogical => .ite (fun _ => .safe) fun hshift => ?_
  refine .ite (fun hcomparison => ?_) fun hcomparison => ?_
  · have := lowerComparison_safe (c := c) l r fun hstring =>
      Resolution.eq_or_ne_of_string hresolved hcomparison hstring
    exact .safe
  · have := lowerArithmetic_safe (c := c) l r
      (Resolution.hasCode hresolved (by simpa using hlogical) (by simpa using hshift)
        (by simpa using hcomparison))
    exact .safe

/-! ## Elements -/

instance (a : SymbolId) [Declared p a] (i : Part) (span : Span) :
    Safe c (resolveElement a i span) where
  fine := by
    unfold resolveElement
    refine .bind .safe fun s => .ite (fun _ => .safe) fun _ => .ite (fun _ => .safe) fun _ => ?_
    refine .bind .safe fun base => .bind .safe fun known => ?_
    cases known with
    | none => exact .pure _
    | some e => exact .ite (fun _ => .safe) fun _ => .pure _

section

variable (e : Element) [Safe c e.index.value] [Unlabelled e.base]

instance : Safe c (pointTo e) := by
  unfold pointTo
  infer_instance

instance : Safe c (loadElement e) := by
  unfold loadElement
  dsimp only
  split <;> infer_instance

instance : Safe c (storeElement e) := by
  unfold storeElement
  dsimp only
  split <;> infer_instance

end

/-- What is done with an element that is found, or without one. -/
theorem Fine.element_bind {a : SymbolId} [Declared p a] {i : Part} [hi : Ready c i] {span : Span}
    {f : Option Element → Lower β} {K M N : List LabelId} {solid : Bool}
    (hnone : Fine c solid K M (f none) N)
    (hsome : ∀ e : Element, Safe c e.index.value → Unlabelled e.base →
      Fine c solid K M (f (some e)) N) :
    Fine c solid K M (resolveElement a i span >>= f) N :=
  .bind_result .safe (resolveElement_result a i span) fun found hfound => by
    cases found with
    | none => exact hnone
    | some e =>
      obtain ⟨hindex, address, hbase⟩ := hfound e rfl
      exact hsome e (hindex ▸ hi.value) ⟨hbase ▸ rfl⟩

instance (h : ExprHead) (a : SymbolId) [Declared p a] (i : Part) [Ready c i] :
    Safe c (lowerIndex h a i) where
  fine := by
    unfold lowerIndex
    refine .element_bind .safe fun e hindex hbase => ?_
    exact .safe

/-! ## Calls -/

/-- Operands that are there and have safe code. -/
class AllReady (c : Setting p) (xs : List Part) : Prop where
  ready : ∀ x ∈ xs, Ready c x

/-- Parameters with fixed addresses. -/
def Addressed (parameters : List Parameter) : Prop := ∀ x ∈ parameters, Unlabelled x.1

theorem parametersOf_safe {ids : List SymbolId} (h : ∀ id ∈ ids, (p.symbol? id).isSome = true) :
    Safe c (parametersOf ids) := by
  refine .mapM_mem fun id hid => ?_
  have : Declared p id := ⟨h id hid⟩
  infer_instance

theorem parametersOf_result (ids : List SymbolId) :
    Yields (parametersOf ids) fun parameters _ => Addressed parameters := by
  unfold parametersOf
  induction ids with
  | nil => exact .pure fun _ => nofun
  | cons id ids ih =>
    rw [List.mapM_cons]
    have hfirst : Yields (do
        let ref ← symbolRef id
        return (ref, (((← read).symbol? id).map (·.type)).getD .invalid))
        fun x _ => Unlabelled x.1 :=
      .bind_result (symbolRef_result id) fun r ⟨a, ha⟩ => .bind fun _ => .pure fun _ => ⟨ha ▸ rfl⟩
    refine .bind_result hfirst fun x hx => .bind_result ih fun xs hxs => .pure fun _ => ?_
    exact fun y hy => (List.mem_cons.1 hy).elim (· ▸ hx) (hxs y)

theorem pushArguments_safe {xs : List (Part × Parameter)} (h : ∀ x ∈ xs, Ready c x.1) :
    Safe c (pushArguments xs) := by
  induction xs with
  | nil => exact inferInstanceAs (Safe c (pure ()))
  | cons x xs ih =>
    have := h x List.mem_cons_self
    have := ih fun y hy => h y (List.mem_cons_of_mem x hy)
    unfold pushArguments
    infer_instance

theorem popArguments_safe {parameters : List Parameter} (h : Addressed parameters) :
    Safe c (popArguments parameters) := by
  refine .forM_mem fun x hx => ?_
  have := h x (List.mem_reverse.1 hx)
  infer_instance

section

variable (xs : List Part) [hxs : AllReady c xs]

theorem passArguments_safe {parameters : List Parameter} (h : Addressed parameters) :
    Safe c (passArguments xs parameters) := by
  unfold passArguments
  split
  next x ref t =>
    have := hxs.ready x List.mem_cons_self
    have : Unlabelled ref := h (ref, t) List.mem_cons_self
    infer_instance
  next =>
    have := pushArguments_safe fun x (hx : x ∈ xs.zip parameters) =>
      hxs.ready x.1 (List.of_mem_zip hx).1
    have := popArguments_safe (c := c) h
    infer_instance

theorem perform_lowerCall (h : ExprHead) {f : FunctionId} {callee : Function}
    {l : LabelId} {s : Emission}
    (hcallee : p.function? f = some callee) (hl : s.functions.lookup callee.id = some l) :
    perform (lowerCall h f xs) p s = perform (do
      if xs.length ≠ callee.parameters.items.length then
        reportError .arityMismatch h.span (Text.shown callee.name ++
          s!" takes {callee.parameters.items.length} arguments, got {xs.length}")
        zero h.type
      else
        passArguments xs (← parametersOf callee.parameters.items)
        write (.callLabel l)) p s := by
  rw [lowerCall, perform_read_bind, hcallee]
  dsimp only
  rw [perform_get_bind, hl]

theorem lowerCall_safe (h : ExprHead) {f : FunctionId} (hf : (p.function? f).isSome = true) :
    Safe c (lowerCall h f xs) where
  fine := by
    have : PartsMove xs := ⟨fun x hx => (hxs.ready x hx).moves⟩
    refine .of_state inferInstance fun s U hs => ?_
    obtain ⟨callee, hcallee⟩ := Option.isSome_iff_exists.1 hf
    have hmem := Program.mem_of_numbered? hcallee
    obtain ⟨l, hl⟩ := c.labelled callee hmem
    have hlabel : l ∈ c.functions.map Prod.snd := by
      obtain ⟨_, _, hfunctions, -⟩ := List.lookup_eq_some_iff.1 hl
      simp [hfunctions]
    have hparameters : ∀ id ∈ callee.parameters.items, (p.symbol? id).isSome = true := fun id hid =>
      (c.wellFormed.declared id).1 <| List.mem_append_right _ <|
        List.mem_flatMap.2 ⟨callee, hmem, List.mem_append_left _ hid⟩
    have := parametersOf_safe (c := c) hparameters
    refine ⟨[l], _, ?_, perform_lowerCall xs h hcallee (hs.functions ▸ hl), ?_⟩
    · intro l' hl'
      obtain rfl := List.mem_singleton.1 hl'
      exact hs.callable _ hlabel
    · refine .ite (fun _ => .safe) fun _ => ?_
      refine .bind_result .safe (parametersOf_result _) fun parameters haddressed => ?_
      have := passArguments_safe (c := c) xs haddressed
      exact .bind .safe fun _ => .loose (.write (.callLabel (by simp)))

instance : Safe c (printAll xs) := by
  refine .forM_mem fun x hx => ?_
  have := hxs.ready x hx
  infer_instance

end

section

variable (x y : Part) [Ready c x] [Ready c y]

instance (t : Ty) : Safe c (drawFromRange x y t) := by
  unfold drawFromRange
  infer_instance

instance : Safe c (lowerPeek x) := by
  unfold lowerPeek
  refine ⟨.bind .safe fun known => ?_⟩
  cases known <;> exact .safe

instance : Safe c (lowerPoke x y) := by
  unfold lowerPoke
  refine ⟨.bind .safe fun _ => .bind .safe fun known => ?_⟩
  cases known <;> exact .safe

end

theorem builtinCode_safe {b : Builtin} (xs : List Part) [hxs : AllReady c xs]
    (hknown : ∀ code, b ≠ .unknown code) (hcount : b.accepts xs.length = true) :
    Safe c (builtinCode b xs) := by
  unfold builtinCode
  refine ⟨.bind .safe fun s => ?_⟩
  -- no argument, one, two or more
  obtain _ | ⟨x, _ | ⟨y, _ | ⟨z, rest⟩⟩⟩ := xs
  · cases b <;> first | exact .safe | (cases hcount; done) | exact absurd rfl (hknown _)
  · have := hxs.ready x (by simp)
    cases b <;> first | exact .safe | cases hcount
  · have := hxs.ready x (by simp)
    have := hxs.ready y (by simp)
    cases b <;> first | exact .safe | cases hcount
  · cases b <;> first | exact .safe | simp [Builtin.accepts, Builtin.arity] at hcount

theorem lowerBuiltin_safe (h : ExprHead) {b : Builtin} (xs : List Part) [AllReady c xs]
    (hknown : ∀ code, b ≠ .unknown code) : Safe c (lowerBuiltin h b xs) where
  fine := by
    unfold lowerBuiltin
    refine .ite (fun hcount => ?_) fun _ => .safe
    have := builtinCode_safe (c := c) xs hknown hcount
    exact .safe

/-! ## Values -/

/-- The address of a label may be loaded however far it is. -/
theorem Orderly.loadAddress {s : Emission} {U : List LabelId} (hs : Orderly c s U) {l : LabelId}
    (hl : s.workspace.stream.Knows l) :
    ∃ s', perform (loadAddress (.ofLabel l)) p s = (.ok (), s') ∧ Orderly c s' U := by
  have hlow := hs.emitted
    (show Opcode.takes .lda (Arg.lowByte (.ofLabel l)).mode = true from rfl)
    ⟨fun hsome => Routine.Writer.label_lowByte hsome ▸ hl, nofun⟩
  have hknown := (s.workspace.emitted_extends .lda (.lowByte (.ofLabel l))).knows hl
  have hhigh := hlow.emitted
    (show Opcode.takes .ldx (Arg.highByte (.ofLabel l)).mode = true from rfl)
    ⟨fun hsome => Routine.Writer.label_highByte hsome ▸ hknown, nofun⟩
  exact ⟨_, rfl, hhigh⟩

theorem lowerDataAddress_safe {d : DataId} (hd : (p.dataBlock? d).isSome = true) :
    Safe c (lowerDataAddress d) where
  fine.moves := inferInstance
  fine.lands {s U} hs hnear := by
    unfold lowerDataAddress
    rw [perform_get_bind]
    cases hlookup : s.data.lookup d with
    | none =>
      dsimp only
      rw [perform_read_bind,
        if_neg (by simpa [Option.isNone_iff_eq_none, Option.isSome_iff_ne_none] using hd)]
      exact (Fine.safe (x := loadConstant 0 true)).lands hs hnear
    | some l =>
      have hfar : c.far l := by
        obtain ⟨_, _, hdata, -⟩ := List.lookup_eq_some_iff.1 hlookup
        rw [Setting.far, ← hs.data, hdata]
        simp
      obtain ⟨s', hperform, hs'⟩ := hs.loadAddress (hs.workspace.far l hfar)
      dsimp only
      rw [hperform]
      exact ⟨fun _ => ⟨hs', by simp⟩⟩

/-- What a constant stands for is a literal. -/
theorem lowerVariable_safe {constant : Expr → Ty → Lower Unit}
    [∀ e t K, Moves (Codes K) (constant e t)]
    (hconstant : ∀ h v t, Safe c (constant (.literal h v) t)) (h : ExprHead) (id : SymbolId)
    [Declared p id] : Safe c (lowerVariable constant h id) where
  fine.moves := inferInstance
  fine.lands {s U} hs hnear := by
    unfold lowerVariable
    rw [perform_get_bind, hs.constants]
    cases hlookup : c.constants.lookup id with
    | none =>
      have hload : Safe c (do
          let s ← symbol id
          let ref ← symbolRef id
          if s.type.isArray then loadAddress ref else load ref s.type.isWide) :=
        ⟨.bind .safe fun s => .symbolRef_bind id fun a => .safe⟩
      exact hload.fine.lands hs hnear
    | some e =>
      obtain ⟨h', v, rfl⟩ := c.literals id e hlookup
      exact (hconstant h' v h.type).fine.lands hs hnear

mutual

theorem valueWith_safe {constant : Expr → Ty → Lower Unit} [∀ e t K, Moves (Codes K) (constant e t)]
    (hconstant : ∀ h v t, Safe c (constant (.literal h v) t)) {e : Expr} (he : e.WellFormed p) :
    Safe c (valueWith constant e) := by
  cases e with
  | absent | blank => exact absurd he id
  | literal =>
    unfold valueWith
    infer_instance
  | var h s =>
    have : Declared p s := ⟨he⟩
    unfold valueWith
    exact lowerVariable_safe hconstant h s
  | unary h op x =>
    have hx : x.WellFormed p := he
    have : Ready c ⟨x, valueWith constant x⟩ :=
      ⟨hx.present, valueWith_safe hconstant hx, valueWith_moves constant x⟩
    unfold valueWith
    infer_instance
  | binary h op l r =>
    have : Ready c ⟨l, valueWith constant l⟩ :=
      ⟨he.1.present, valueWith_safe hconstant he.1, valueWith_moves constant l⟩
    have : Ready c ⟨r, valueWith constant r⟩ :=
      ⟨he.2.present, valueWith_safe hconstant he.2, valueWith_moves constant r⟩
    unfold valueWith
    infer_instance
  | call h f as n =>
    have := partsWith_ready hconstant he.2
    unfold valueWith
    exact lowerCall_safe _ h he.1
  | index h a i =>
    have : Declared p a := ⟨he.1⟩
    have : Ready c ⟨i, valueWith constant i⟩ :=
      ⟨he.2.present, valueWith_safe hconstant he.2, valueWith_moves constant i⟩
    unfold valueWith
    infer_instance
  | cast h x =>
    have hx : x.WellFormed p := he
    have : Ready c ⟨x, valueWith constant x⟩ :=
      ⟨hx.present, valueWith_safe hconstant hx, valueWith_moves constant x⟩
    unfold valueWith
    infer_instance
  | builtin h b as n =>
    have := partsWith_ready hconstant he.2
    unfold valueWith
    exact lowerBuiltin_safe h _ he.1
  | dataAddress h d =>
    unfold valueWith
    exact lowerDataAddress_safe he

theorem partsWith_ready {constant : Expr → Ty → Lower Unit}
    [∀ e t K, Moves (Codes K) (constant e t)]
    (hconstant : ∀ h v t, Safe c (constant (.literal h v) t)) {es : List Expr}
    (hes : Expr.AllWellFormed p es) : AllReady c (partsWith constant es) := by
  cases es with
  | nil => exact ⟨by simp [partsWith]⟩
  | cons e es =>
    have he : Ready c ⟨e, valueWith constant e⟩ :=
      ⟨hes.1.present, valueWith_safe hconstant hes.1, valueWith_moves constant e⟩
    have hrest := partsWith_ready hconstant hes.2
    refine ⟨fun x hx => ?_⟩
    rw [partsWith] at hx
    rcases List.mem_cons.1 hx with rfl | hx
    · exact he
    · exact hrest.ready x hx

end

/-- A literal stands for itself at any depth. -/
theorem constantWithin_safe (depth : Nat) (h : ExprHead) (v : Literal) (t : Ty) :
    Safe c (constantWithin (depth + 1) (.literal h v) t) := by
  have : Ready c ⟨.literal h v, valueWith (constantWithin depth) (.literal h v)⟩ := by
    refine ⟨rfl, ?_, valueWith_moves _ _⟩
    show Safe c (valueWith _ _)
    unfold valueWith
    infer_instance
  unfold constantWithin
  infer_instance

theorem lowerValue_safe {e : Expr} (he : e.WellFormed p) : Safe c (lowerValue e) := by
  unfold lowerValue
  exact ⟨.bind .safe fun q => (valueWith_safe (constantWithin_safe _) he).fine⟩

theorem part_ready {e : Expr} (he : e.WellFormed p) : Ready c (part e) :=
  ⟨he.present, lowerValue_safe he, inferInstance⟩

theorem lowerExpr_safe {e : Expr} (he : e.WellFormed p) (want : Ty) :
    Safe c (lowerExpr e want) := by
  have := part_ready (c := c) he
  unfold lowerExpr
  infer_instance

/-! ## Conditions -/

theorem branchOn_plain_fine {e : Expr} (he : e.WellFormed p) (value : Bool) (target : LabelId) :
    Fine c false [target] [] (branchOn.plain value target e) [] := by
  have := lowerExpr_safe (c := c) he .bool
  unfold branchOn.plain
  refine .bind .safe fun _ => .bind .safe fun _ => .loose (.branchTo ?_ (by simp))
  split <;> rfl

/-- Jumps on a condition leave no label open. -/
theorem branchOn_fine {e : Expr} (he : e.WellFormed p) (value : Bool) (target : LabelId) :
    Fine c false [target] [] (branchOn value target e) [] := by
  fun_induction branchOn value target e with
  | case1 _ _ _ _ _ ih => exact ih he
  | case3 _ _ l r _ ihl ihr =>
    refine .newLabel_bind fun skip => ?_
    refine .bind ((ihl skip he.1).amid (by simp)) fun _ =>
      .bind ((ihr he.2).amid (by simp)) fun _ => ?_
    exact .place .head
  | case4 _ _ _ l r _ _ ihl ihr => exact .bind (ihl he.1) fun _ => ihr he.2
  | case6 _ _ l r _ ihl ihr => exact .bind (ihl he.1) fun _ => ihr he.2
  | case7 _ _ _ l r _ _ ihl ihr =>
    refine .newLabel_bind fun skip => ?_
    refine .bind ((ihl skip he.1).amid (by simp)) fun _ =>
      .bind ((ihr he.2).amid (by simp)) fun _ => ?_
    exact .place .head
  | _ => exact branchOn_plain_fine he _ _

end Breadbin.Lowering
