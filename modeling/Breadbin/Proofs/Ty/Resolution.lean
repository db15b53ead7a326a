import Breadbin.Ty.Resolution
import Mathlib.Data.Option.Basic

/-!
# Conversions and operators that the rules accept

What the typing rules accept asks only for conversions that may be written where they stand, and
only for operators on kinds that have code.
-/

namespace Breadbin

namespace Conversion

/-- The conversion exists, and it is one that needs no cast unless it stands in one. -/
def Allowed (c : Conversion) (inCast : Bool) : Prop :=
  c.kind ≠ .invalid ∧ (c.explicit = true → inCast = true)

theorem classify_of_isImplicit {source target : Kind} (h : isImplicit source target = true) :
    classify source target ≠ .invalid := by
  cases source <;> cases target <;>
    simp_all [isImplicit, classify, Kind.isInteger, Kind.isIntegral, Kind.isSigned, Kind.size]

theorem classify_of_isCastable {source target : Kind} (h : isCastable source target = true) :
    classify source target ≠ .invalid := by
  intro hinvalid
  rw [isCastable, hinvalid, Bool.or_false] at h
  exact classify_of_isImplicit h hinvalid

/-- Operands are brought to their common kind without a cast. -/
theorem classify_of_promote? {a b k : Kind} (h : promote? a b = some k) :
    classify a k ≠ .invalid ∧ classify b k ≠ .invalid := by
  cases a <;> cases b <;>
    simp_all [promote?, promoteIntegers?, rank, Kind.isInteger, Kind.isSigned, Kind.size] <;>
    first
    | subst h
      simp [classify, Kind.isInteger, Kind.isIntegral, Kind.isSigned, Kind.size]
    | obtain ⟨-, rfl⟩ := h
      simp [classify]

theorem ofAssignment_allowed {declared value : Ty} (h : (ofAssignment declared value).2 = none) :
    (ofAssignment declared value).1.Allowed false := by
  unfold ofAssignment at h ⊢
  split
  next hrefused => simp [hrefused] at h
  next haccepted =>
    simp only [Bool.or_eq_true, Bool.not_eq_true', not_or, Bool.not_eq_false] at haccepted
    exact ⟨classify_of_isImplicit haccepted.2, nofun⟩

theorem ofCast_allowed {source target : Ty} (h : (ofCast source target).2 = none) :
    (ofCast source target).1.Allowed true := by
  unfold ofCast at h ⊢
  split
  next hrefused => simp [hrefused] at h
  next haccepted =>
    simp only [Bool.or_eq_true, Bool.not_eq_true', not_or, Bool.not_eq_false] at haccepted
    exact ⟨classify_of_isCastable haccepted.2, fun _ => rfl⟩

end Conversion

/-- Whether there is code for an arithmetic operator on a kind. -/
def BinaryOp.hasCode (op : BinaryOp) (k : Kind) : Bool :=
  match k with
  | .string => (op matches .add)
  | .float => (op matches .add | .sub | .mul | .div)
  | .fixed => (op matches .add | .sub | .mul | .div | .mod)
  | .u8 | .i8 | .u16 | .i16 =>
    (op matches .add | .sub | .mul | .div | .mod | .bitAnd | .bitOr | .bitXor)
  | _ => false

namespace Resolution

variable {op : BinaryOp} {l r : Ty} {res : Resolution}

/-- What an accepted operation went through. -/
theorem resolve?_eq_some (h : resolve? op l r = some res) : ∃ rule, op.rule? = some rule ∧
    l.kind.family.within rule.left = true ∧ r.kind.family.within rule.right = true ∧
    (rule.result = .left ∧ res = ofShift l r ∨
      ∃ common, Conversion.promote? l.kind r.kind = some common ∧
        (rule.common = .none ∨ common.family.within rule.common = true) ∧
        res = ofCommon rule l.kind r.kind common) := by
  simp only [resolve?, Option.bind_eq_bind, Option.bind_eq_some_iff, Option.guard_eq_some'] at h
  obtain ⟨rule, hrule, _, -, _, hwithin, h⟩ := h
  obtain ⟨hleft, hright⟩ := by simpa using hwithin
  refine ⟨rule, hrule, hleft, hright, ?_⟩
  split at h
  next hshift => exact .inl ⟨hshift, (Option.some.inj h).symm⟩
  next =>
    obtain ⟨common, hcommon, h⟩ := Option.bind_eq_some_iff.1 h
    obtain ⟨_, hallowed, h⟩ := Option.bind_eq_some_iff.1 h
    rw [Option.guard_eq_some'] at hallowed
    exact .inr ⟨common, hcommon, by simpa using hallowed, (Option.some.inj h).symm⟩

theorem resolve_eq_none (h : (resolve op l r).2 = none) :
    resolve? op l r = some (resolve op l r).1 := by
  unfold resolve at h ⊢
  split at h <;> simp_all

/-- The operands of an accepted operation are converted without a cast. -/
theorem allowed (h : resolve? op l r = some res) :
    res.left.Allowed false ∧ res.right.Allowed false := by
  obtain ⟨rule, -, -, -, ⟨-, rfl⟩ | ⟨common, hcommon, -, rfl⟩⟩ := resolve?_eq_some h
  · exact ⟨⟨nofun, nofun⟩, ⟨nofun, nofun⟩⟩
  · obtain ⟨hleft, hright⟩ := Conversion.classify_of_promote? hcommon
    exact ⟨⟨hleft, nofun⟩, ⟨hright, nofun⟩⟩

/-- An arithmetic operation that is accepted has code. -/
theorem hasCode (h : resolve? op l r = some res) (hlogical : op.isLogical = false)
    (hshift : op.isShift = false) (hcomparison : op.isComparison = false) :
    op.hasCode res.operand.kind = true := by
  obtain ⟨rule, hrule, -, -, ⟨hleft, -⟩ | ⟨common, -, hcommon, rfl⟩⟩ := resolve?_eq_some h
  · cases op <;> simp_all [BinaryOp.rule?] <;> subst hrule <;> simp_all [BinaryOp.isShift]
  · show op.hasCode common = true
    cases op <;> simp_all [BinaryOp.rule?, BinaryOp.isLogical, BinaryOp.isShift,
      BinaryOp.isComparison] <;>
      subst hrule <;> cases common <;>
        first | rfl | (exfalso; simp only [Kind.family] at hcommon; revert hcommon; decide)

theorem eq_string_of_promote? {a b : Kind} (h : Conversion.promote? a b = some .string) :
    a = .string := by
  cases a <;> cases b <;>
    simp_all [Conversion.promote?, Conversion.promoteIntegers?, Conversion.rank, Kind.isInteger,
      Kind.isSigned, Kind.size]

/-- Strings are only compared for equality. -/
theorem eq_or_ne_of_string (h : resolve? op l r = some res) (hcomparison : op.isComparison = true)
    (hstring : res.operand.kind = .string) : op = .eq ∨ op = .ne := by
  obtain ⟨rule, hrule, hleft, -, ⟨hshift, -⟩ | ⟨common, hcommon, -, rfl⟩⟩ := resolve?_eq_some h
  · cases op <;> simp_all [BinaryOp.rule?, BinaryOp.isComparison] <;> subst hrule <;> cases hshift
  · obtain rfl : common = .string := hstring
    rw [eq_string_of_promote? hcommon] at hleft
    cases op <;> simp_all [BinaryOp.rule?, BinaryOp.isComparison] <;> subst hrule <;>
      revert hleft <;> decide

/-- An operator before its operand that is accepted is a known one. -/
theorem known_of_resolveUnary {op : UnaryOp} {t : Ty}
    (h : (resolveUnary op t).2 = none) (c : UInt8) :
    op ≠ .unknown c := by
  rintro rfl
  simp [resolveUnary, UnaryOp.operand?] at h

end Resolution

end Breadbin
