import Breadbin.Proofs.Lowering.Moves
import Breadbin.Proofs.Numeric.Integers
import Breadbin.Proofs.Program.WellFormed

/-!
# What constants stand for

The start of a program stores the literal of a constant, converted to the declared type.  Where the
constant is read its literal stands for it, which is the same value wherever that literal is
converted as it was for the store.  An index, a count of shifts and an address are read off the
literal as it is written, so that they are right only for a literal that is a number of the declared
type.
-/

namespace Breadbin

/-! ## Integers as bits -/

theorem toNat_uint16_ofInt (i : Int) : ((UInt16.ofInt i).toNat : Int) = i % 65536 := by
  rw [UInt16.ofInt, UInt16.toNat_ofNat']
  have : ((2 : Nat) ^ 16 : Nat) = 65536 := rfl
  omega

namespace Conversion

theorem toNat_bitsOfInt (i : Int) (wide : Bool) :
    ((bitsOfInt i wide).toNat : Int) = i % (if wide then 65536 else 256) := by
  have hof := toNat_uint16_ofInt i
  unfold bitsOfInt
  cases wide with
  | true => exact hof
  | false =>
    have hand : (UInt16.ofInt i &&& 0xFF).toNat = (UInt16.ofInt i).toNat % 256 := by
      rw [UInt16.toNat_and]
      exact Nat.and_two_pow_sub_one_eq_mod _ 8
    rw [if_neg (by decide), if_neg (by decide), hand]
    omega

/-- An integer of a kind comes back from its bits. -/
theorem valueOfBits_bitsOfInt {i : Int} {k : Kind} (hk : k.isInteger = true) (hlow : k.range.1 ≤ i)
    (hhigh : i ≤ k.range.2) : valueOfBits (bitsOfInt i k.isWide) k = i := by
  have hbits := toNat_bitsOfInt i k.isWide
  generalize bitsOfInt i k.isWide = bits at hbits ⊢
  have hkinds : k = .u8 ∨ k = .i8 ∨ k = .u16 ∨ k = .i16 := by
    cases k <;> simp_all [Kind.isInteger]
  rcases hkinds with rfl | rfl | rfl | rfl
  · change (bits.toNat : Int) = i % 256 at hbits
    change 0 ≤ i at hlow
    change i ≤ 0xFF at hhigh
    show (bits.toNat : Int) % 256 = i
    omega
  · change (bits.toNat : Int) = i % 256 at hbits
    change -0x80 ≤ i at hlow
    change i ≤ 0x7F at hhigh
    show (bits.toNat : Int).bmod 256 = i
    rw [Int.bmod_def]
    split <;> omega
  · change (bits.toNat : Int) = i % 65536 at hbits
    change 0 ≤ i at hlow
    change i ≤ 0xFFFF at hhigh
    show (bits.toNat : Int) = i
    omega
  · change (bits.toNat : Int) = i % 65536 at hbits
    change -0x8000 ≤ i at hlow
    change i ≤ 0x7FFF at hhigh
    show (bits.toNat : Int).bmod 65536 = i
    rw [Int.bmod_def]
    split <;> omega

end Conversion

/-! ## Literals as bits -/

namespace Literal

/-- The literal is of the form that its kind asks for, and integers are in its range. -/
def Typed (v : Literal) (k : Kind) : Prop :=
  match k with
  | .u8 | .i8 | .u16 | .i16 => v.kind = .int ∧ k.range.1 ≤ v.int.toInt ∧ v.int.toInt ≤ k.range.2
  | .bool => v.kind = .bool
  | .fixed | .float => v.kind = .int ∨ v.kind = .float
  | .string => v.kind = .string
  | .invalid | .void | .unknown _ => False

/-- A literal of its own type may be stored in the declared one. -/
structure Storable (v : Literal) (own declared : Ty) : Prop where
  typed : v.Typed own.kind
  scalar : declared.isArray = false
  accepted : declared = own ∨ (Conversion.ofAssignment declared own).2 = none

/-- The literal as bits of the declared type, converted from its own. -/
def storedBits (v : Literal) (own declared : Ty) : UInt16 :=
  let bits := (v.bits own.kind).1
  if declared = own then bits
  else ((Conversion.ofAssignment declared own).1.applyToBits bits).getD 0

variable {v : Literal} {k k' : Kind} {own declared : Ty}

/-- The lowest bits of an integer are its residue. -/
theorem toNat_int_mod (v : Literal) :
    (v.int.toUInt64.toNat : Int) % 65536 = v.int.toInt % 65536 := by
  have hint : v.int.toInt = (v.int.toUInt64.toNat : Int).bmod 18446744073709551616 :=
    BitVec.toInt_eq_toNat_bmod v.int.toBitVec
  rw [Int.bmod_def] at hint
  split at hint <;> omega

theorem intBits_eq (v : Literal) : v.intBits = UInt16.ofInt v.int.toInt := by
  have hmod := v.toNat_int_mod
  have hof := toNat_uint16_ofInt v.int.toInt
  apply UInt16.toNat_inj.1
  rw [intBits, UInt64.toNat_toUInt16]
  omega

theorem bits_of_int (hint : v.kind = .int) (hk : k.isInteger = true) :
    v.bits k = (Conversion.bitsOfInt v.int.toInt k.isWide, true) := by
  cases k <;> simp_all [bits, Kind.isInteger, intBits_eq, Conversion.bitsOfInt,
    Kind.isWide, Kind.size]

theorem bits_of_bool (hbool : v.kind = .bool) (hk : k.isIntegral = true) :
    v.bits k = (boolBits v.bool, true) := by
  cases k <;> simp_all [bits, Kind.isIntegral, Kind.isInteger]

theorem Typed.of_integer (h : v.Typed k) (hk : k.isInteger = true) :
    v.kind = .int ∧ k.range.1 ≤ v.int.toInt ∧ v.int.toInt ≤ k.range.2 := by
  cases k <;> simp_all [Typed, Kind.isInteger]

/-- A literal that fits its kind has bits in it. -/
theorem Typed.bits_ok (h : v.Typed k) (hk : k ≠ .string) : (v.bits k).2 = true := by
  cases k <;> simp_all [Typed, bits, isNumber]

/-- The number that a literal of an integer kind is. -/
theorem valueOfBits_bits (hk : k.isInteger = true) (hint : v.kind = .int)
    (hlow : k.range.1 ≤ v.int.toInt) (hhigh : v.int.toInt ≤ k.range.2) :
    Conversion.valueOfBits (v.bits k).1 k = v.int.toInt := by
  rw [bits_of_int hint hk]
  exact Conversion.valueOfBits_bitsOfInt hk hlow hhigh

/-- Numbers of integer kinds fit a double. -/
theorem Typed.natAbs_lt (h : v.Typed k) (hk : k.isInteger = true) :
    v.int.toInt.natAbs < 2 ^ 53 := by
  obtain ⟨-, hlow, hhigh⟩ := h.of_integer hk
  cases k <;> simp_all [Kind.isInteger, Kind.range] <;> omega

/-- An integer is converted to what the literal is in the kind. -/
theorem applyToBits_of_integer (h : v.Typed k) (hk : k.isInteger = true)
    (himplicit : Conversion.isImplicit k k' = true) {c : Conversion} (hsource : c.source = k)
    (htarget : c.target = k') :
    c.applyToBits (v.bits k).1 = some (v.bits k').1 ∧ (v.bits k').2 = true := by
  obtain ⟨hint, hlow, hhigh⟩ := h.of_integer hk
  have hvalue := valueOfBits_bits hk hint hlow hhigh
  have hdouble : v.toDouble = .ofInt v.int.toInt := by simp [toDouble, hint]
  have hfixed := Numeric.Fixed.ofDouble_ofInt (h.natAbs_lt hk)
  have hkinds : k'.isInteger = true ∨ k' = .fixed ∨ k' = .float := by
    cases k <;> cases k' <;> simp_all [Conversion.isImplicit, Kind.isInteger]
  have hintegral : k.isIntegral = true := by simp [Kind.isIntegral, hk]
  have hbool : k' ≠ .bool := by
    rintro rfl
    simp [Kind.isInteger] at hkinds
  unfold Conversion.applyToBits
  rw [hsource, htarget, if_neg hbool, if_pos hintegral, hvalue]
  rcases hkinds with hinteger | rfl | rfl
  · rw [bits_of_int hint hinteger]
    simp [hinteger]
  · simp [bits, isNumber, hint, hdouble, hfixed, Kind.isInteger]
  · simp [bits, isNumber, hint, hdouble, Kind.isInteger]

/-- A truth value is converted to what the literal is in the kind. -/
theorem applyToBits_of_bool (h : v.kind = .bool) (himplicit : Conversion.isImplicit .bool k' = true)
    {c : Conversion} (hsource : c.source = .bool) (htarget : c.target = k') :
    c.applyToBits (v.bits .bool).1 = some (v.bits k').1 ∧ (v.bits k').2 = true := by
  have hkinds : k' = .bool ∨ k'.isInteger = true := by
    cases k' <;> simp_all [Conversion.isImplicit, Kind.isInteger]
  have hintegral : k'.isIntegral = true := by
    rcases hkinds with rfl | hk <;> simp_all [Kind.isIntegral]
  rw [bits_of_bool h hintegral, bits_of_bool h rfl]
  unfold Conversion.applyToBits
  rw [hsource, htarget]
  rcases hkinds with rfl | hk
  · cases v.bool <;> decide
  · cases k' <;> cases v.bool <;> first | contradiction | decide

/-- Converted from its own kind the literal is what it is in the other, but for fractions that
become floats. -/
theorem applyToBits_bits (h : v.Typed k) (himplicit : Conversion.isImplicit k k' = true)
    (hstring : k' ≠ .string) (hfraction : ¬(k = .fixed ∧ k' = .float)) {c : Conversion}
    (hsource : c.source = k) (htarget : c.target = k') :
    c.applyToBits (v.bits k).1 = some (v.bits k').1 ∧ (v.bits k').2 = true := by
  by_cases hinteger : k.isInteger = true
  · exact applyToBits_of_integer h hinteger himplicit hsource htarget
  by_cases hbool : k = .bool
  · subst hbool
    exact applyToBits_of_bool h himplicit hsource htarget
  · have hsame : k = k' := by
      cases k <;> cases k' <;> simp_all [Conversion.isImplicit, Kind.isInteger, Typed]
    subst hsame
    refine ⟨?_, h.bits_ok hstring⟩
    unfold Conversion.applyToBits
    rw [hsource, htarget]
    cases k <;> simp_all [Kind.isInteger, Kind.isIntegral, Typed]

/-- Conversions without a cast, but of strings, are done before the program runs. -/
theorem applyToBits_isSome {c : Conversion}
    (himplicit : Conversion.isImplicit c.source c.target = true)
    (hstring : c.source ≠ .string) (bits : UInt16) : (c.applyToBits bits).isSome = true := by
  unfold Conversion.applyToBits
  cases hsource : c.source <;> cases htarget : c.target <;>
    simp_all [Conversion.isImplicit, Kind.isIntegral, Kind.isInteger]

/-- Converted from its own type the literal is what it is in the declared one, but for fractions
that are stored as floats. -/
theorem bits_declared (h : v.Storable own declared) (hstring : declared.kind ≠ .string)
    (hfraction : ¬(own.kind = .fixed ∧ declared.kind = .float)) :
    v.bits declared.kind = (v.storedBits own declared, true) := by
  unfold storedBits
  by_cases hsame : declared = own
  · subst hsame
    rw [if_pos rfl]
    exact Prod.ext rfl (h.typed.bits_ok hstring)
  · have haccepted := h.accepted.resolve_left hsame
    have hconv : Conversion.isImplicit own.kind declared.kind = true ∧
        (Conversion.ofAssignment declared own).1.source = own.kind ∧
        (Conversion.ofAssignment declared own).1.target = declared.kind := by
      unfold Conversion.ofAssignment at haccepted ⊢
      split at haccepted
      · cases haccepted
      next hok => simp_all
    obtain ⟨himplicit, hsource, htarget⟩ := hconv
    obtain ⟨hbits, hok⟩ := applyToBits_bits h.typed himplicit hstring hfraction hsource htarget
    rw [if_neg hsame, hbits]
    exact Prod.ext rfl hok

end Literal

/-! ## Storing and reading constants -/

namespace Lowering

open Assembly

/-- The state with more reports. -/
def Emission.reporting (s : Emission) (ds : List Diagnostic) : Emission :=
  { s with reports := s.reports.reportAll ds }

/-- Loads a literal as a value of the declared type. -/
def loadStored (v : Literal) (own declared : Ty) : Lower Unit :=
  if v.kind = .string then loadString v.text
  else loadConstant (v.storedBits own declared) declared.isWide

variable {p : Program} {s s' : Emission} {α β : Type}

theorem perform_bind_ok {x : Lower α} {f : α → Lower β} {a : α} (h : perform x p s = (.ok a, s')) :
    perform (x >>= f) p s = perform (f a) p s' := by
  rw [perform_bind, h]

theorem perform_forM_report (ds : List Diagnostic) (p : Program) (s : Emission) :
    perform (ds.forM report) p s = (.ok (), s.reporting ds) := by
  induction ds generalizing s with
  | nil => rfl
  | cons d ds ih =>
    show perform (report d >>= fun _ => ds.forM report) p s = _
    rw [perform_bind_ok (show perform (report d) p s = (.ok (), s.reporting [d]) from rfl), ih]
    rfl

theorem perform_checked (ch : Checked α) (p : Program) (s : Emission) :
    perform (checked ch) p s = (.ok (ch.value, ch.accepted), s.reporting ch.findings) := by
  unfold checked
  rw [perform_bind_ok (perform_forM_report ch.findings p s)]
  rfl

theorem Emission.reporting_append (s : Emission) (ds ds' : List Diagnostic) :
    s.reporting (ds ++ ds') = (s.reporting ds).reporting ds' := by
  simp [Emission.reporting, Reports.reportAll]

/-- Warnings and nothing else. -/
def Warnings (ds : List Diagnostic) : Prop := ∀ d ∈ ds, d.severity = .warning

theorem Warnings.nil : Warnings [] := nofun

theorem Warnings.append {ds ds' : List Diagnostic} (h : Warnings ds) (h' : Warnings ds') :
    Warnings (ds ++ ds') := by
  intro d hd
  rcases List.mem_append.1 hd with hd | hd
  · exact h d hd
  · exact h' d hd

variable {v : Literal} {own declared : Ty} {h : ExprHead}

/-- A literal that fits its type is no error. -/
theorem findings_warn (hv : v.Typed own.kind) (span : Span) : Warnings (v.findings own span) := by
  have hinside : (v.kind = .int && own.kind.isInteger &&
      (v.int.toInt < own.kind.range.1 || own.kind.range.2 < v.int.toInt)) = false := by
    by_cases hk : own.kind.isInteger = true
    · obtain ⟨-, hlow, hhigh⟩ := hv.of_integer hk
      simp [Int.not_lt.2 hlow, Int.not_lt.2 hhigh]
    · simp [hk]
  unfold Literal.findings
  simp only [hinside, Bool.false_eq_true, if_false, List.nil_append]
  split
  · exact fun d hd => List.mem_singleton.1 hd ▸ rfl
  · exact .nil

/-- A range is only warned about. -/
theorem knownFindings_warn (c : Conversion) (known : Option KnownValue) (span : Span) :
    Warnings (Checked.knownFindings c known span) := by
  have hfixed (known : KnownValue) :
      Warnings (Checked.rangeFindings.fixedFindings c known span) := by
    unfold Checked.rangeFindings.fixedFindings
    split
    · exact fun d hd => List.mem_singleton.1 hd ▸ rfl
    · exact .nil
  unfold Checked.knownFindings Checked.rangeFindings
  cases known with
  | none => exact .nil
  | some known =>
    cases known with
    | real d => exact hfixed _
    | int i =>
      dsimp only
      split
      · split
        · exact fun d hd => List.mem_singleton.1 hd ▸ rfl
        · exact .nil
      · exact hfixed _

theorem kind_eq_string_iff {k : Kind} (hv : v.Typed k) : v.kind = .string ↔ k = .string := by
  cases k <;> simp_all [Literal.Typed]
  all_goals rcases hv with hv | hv <;> simp [hv]

/-- Loading a literal of its own type. -/
theorem perform_lowerLiteral (hv : v.Typed h.type.kind) :
    ∃ ds, Warnings ds ∧
      perform (lowerLiteral h v) p s = perform (loadStored v h.type h.type) p (s.reporting ds) := by
  unfold lowerLiteral loadStored
  by_cases hstring : v.kind = .string
  · refine ⟨[], .nil, ?_⟩
    rw [if_pos hstring, if_pos hstring]
    rfl
  · have hok := hv.bits_ok fun hk => hstring ((kind_eq_string_iff hv).2 hk)
    refine ⟨v.findings h.type h.span, findings_warn hv h.span, ?_⟩
    rw [if_neg hstring, if_neg hstring, Literal.storedBits, if_pos rfl]
    rcases hbits : v.bits h.type.kind with ⟨bits, ok⟩
    rw [hbits] at hok
    obtain rfl : ok = true := hok
    exact perform_bind_ok (perform_forM_report _ p s)

/-- What an accepted conversion looks like. -/
theorem ofAssignment_eq (h : (Conversion.ofAssignment declared own).2 = none) :
    Conversion.isImplicit own.kind declared.kind = true ∧
      (Conversion.ofAssignment declared own).1 =
        ⟨own.kind, declared.kind, Conversion.classify own.kind declared.kind, false⟩ := by
  unfold Conversion.ofAssignment at h ⊢
  split at h
  · cases h
  next hok =>
    rw [if_neg hok]
    simp_all

/-- Bits that are known before the program runs are loaded. -/
theorem perform_converted_known {x : Part} {c : Conversion} {inCast : Bool} {bits : UInt16}
    (h : perform (fold x.expr c) p s = (.ok (some bits), s')) :
    perform (x.converted c inCast) p s = perform (loadConstant bits c.target.isWide) p s' := by
  unfold Part.converted
  rw [perform_bind_ok h]

theorem perform_constantOf {x e : Expr} (h : constantOf? s.constants x = some e) :
    perform (constantOf x) p s = (.ok (some e), s) := by
  unfold constantOf
  rw [perform_get_bind, h]
  rfl

/-- Strings are not folded. -/
theorem perform_fold_string {x e : Expr} {c : Conversion}
    (hknown : constantOf? s.constants x = some e)
    (hc : c.source = .string ∨ c.target = .string) : perform (fold x c) p s = (.ok none, s) := by
  unfold fold
  rw [perform_bind_ok (perform_constantOf hknown)]
  simp only [Bool.or_eq_true, decide_eq_true_eq, hc, if_true]
  rfl

/-- Other known values are folded, and only where the literal itself stands it is checked. -/
theorem perform_fold {x e : Expr} {c : Conversion} (hknown : constantOf? s.constants x = some e)
    (hliteral : e.literal? = some v) (hfrom : c.source ≠ .string) (hto : c.target ≠ .string)
    (hok : (v.bits c.source).2 = true) :
    perform (fold x c) p s = (.ok (c.applyToBits (v.bits c.source).1),
      if isOwnLiteral x then s.reporting (v.findings x.type x.span) else s) := by
  rcases hbits : v.bits c.source with ⟨bits, ok⟩
  rw [hbits] at hok
  obtain rfl : ok = true := hok
  unfold fold
  rw [perform_bind_ok (perform_constantOf hknown)]
  simp only [hliteral, Option.getD_some, hfrom, hto, decide_false, Bool.or_self,
    Bool.false_eq_true, if_false, hbits, Bool.not_true]
  cases isOwnLiteral x with
  | false => rfl
  | true => exact perform_bind_ok (perform_forM_report _ p s)

/-- A string that stays one is not converted. -/
theorem perform_converted_string {x : Part} {e : Expr} {c : Conversion}
    (hknown : constantOf? s.constants x.expr = some e) (hc : c = ⟨.string, .string, .none, false⟩) :
    perform (x.converted c false) p s = perform x.value p s := by
  subst hc
  have hconvert (span : Span) : convert ⟨.string, .string, .none, false⟩ false span = pure () := rfl
  unfold Part.converted
  rw [perform_bind_ok (perform_fold_string hknown (.inl rfl))]
  simp only [hconvert, bind_pure_unit]

/-- A value of another type that is assigned is converted. -/
theorem perform_inType_converted {x : Part} {known : Option KnownValue}
    (hpresent : x.expr.isAbsent = false)
    (hne : declared ≠ x.type) (haccepted : (Conversion.ofAssignment declared x.type).2 = none)
    (hknown : perform (knownValue x.expr) p s = (.ok known, s)) :
    ∃ ds, Warnings ds ∧ perform (x.inType declared) p s =
      perform (x.converted (Conversion.ofAssignment declared x.type).1 false) p
        (s.reporting ds) := by
  obtain ⟨himplicit, hconv⟩ := ofAssignment_eq haccepted
  have hvalid : (!declared.isValid || decide (declared.kind = .void) ||
      decide (declared = x.type)) = false := by
    have : declared.kind ≠ .invalid ∧ declared.kind ≠ .void := by
      constructor <;> intro hk <;> rw [hk] at himplicit <;>
        cases hx : x.type.kind <;> simp_all [Conversion.isImplicit, Kind.isInteger]
    simp [Ty.isValid, this.1, this.2, hne]
  have hcheck : Checked.assign declared x.type known x.expr.span =
      ⟨(Conversion.ofAssignment declared x.type).1, true,
        Checked.knownFindings (Conversion.ofAssignment declared x.type).1 known x.expr.span⟩ := by
    unfold Checked.assign
    rcases hpair : Conversion.ofAssignment declared x.type with ⟨c, mismatch⟩
    rw [hpair] at haccepted
    obtain rfl : mismatch = none := haccepted
    rfl
  refine ⟨_, knownFindings_warn (Conversion.ofAssignment declared x.type).1 known x.expr.span, ?_⟩
  unfold Part.inType
  rw [if_neg (by simp [hpresent])]
  simp only [hvalid]
  rw [if_neg Bool.false_ne_true, perform_bind_ok hknown,
    perform_bind_ok (perform_checked _ p s), hcheck]
  rfl

/-- A number that is a literal is converted before the program runs. -/
theorem perform_converted_number (htag : h.tag = 0) (hv : v.Typed h.type.kind)
    (hown : h.type.kind ≠ .string) {c : Conversion} (hsource : c.source = h.type.kind)
    (himplicit : Conversion.isImplicit c.source c.target = true) : ∃ ds, Warnings ds ∧
      perform (Part.converted ⟨.literal h v, lowerLiteral h v⟩ c false) p s =
        perform (loadConstant ((c.applyToBits (v.bits h.type.kind).1).getD 0) c.target.isWide) p
          (s.reporting ds) := by
  have hfrom : c.source ≠ .string := hsource ▸ hown
  have hto : c.target ≠ .string := by
    intro htarget
    rw [htarget] at himplicit
    cases hk : c.source <;> simp_all [Conversion.isImplicit, Kind.isInteger]
  have hliteral : (Expr.literal h v).literal? = some v := by simp [Expr.literal?, htag]
  have hfold := perform_fold (p := p) (s := s) (x := .literal h v) (c := c) rfl hliteral hfrom hto
    (hsource ▸ hv.bits_ok hown)
  obtain ⟨bits, hbits⟩ := Option.isSome_iff_exists.1
    (Literal.applyToBits_isSome himplicit hfrom (v.bits h.type.kind).1)
  rw [hsource, hbits] at hfold
  refine ⟨v.findings h.type h.span, findings_warn hv h.span, ?_⟩
  rw [hbits, Option.getD_some]
  exact perform_converted_known (x := ⟨.literal h v, lowerLiteral h v⟩) hfold

/-- Loading a literal where a value of the declared type is wanted. -/
theorem perform_inType_literal (htag : h.tag = 0) (hv : v.Storable h.type declared) :
    ∃ ds, Warnings ds ∧ perform (Part.inType ⟨.literal h v, lowerLiteral h v⟩ declared) p s =
      perform (loadStored v h.type declared) p (s.reporting ds) := by
  by_cases hsame : declared = h.type
  · subst hsame
    obtain ⟨ds, hds, hload⟩ := perform_lowerLiteral (p := p) (s := s) hv.typed
    refine ⟨ds, hds, ?_⟩
    rw [← hload]
    simp [Part.inType, Part.type, Expr.type, Expr.isAbsent, Expr.head]
  · have haccepted := hv.accepted.resolve_left hsame
    obtain ⟨himplicit, hconv⟩ := ofAssignment_eq haccepted
    obtain ⟨ds, hds, hassigned⟩ := perform_inType_converted (p := p) (s := s)
      (x := ⟨.literal h v, lowerLiteral h v⟩) rfl hsame haccepted rfl
    change _ = perform (Part.converted _ (Conversion.ofAssignment declared h.type).1 false) p
      _ at hassigned
    rw [hconv] at hassigned
    by_cases hstring : v.kind = .string
    · have hown := (kind_eq_string_iff hv.typed).1 hstring
      have hdeclared : declared.kind = .string := by
        cases hd : declared.kind <;> simp_all [Conversion.isImplicit, Kind.isInteger]
      have hidentity :
          (⟨h.type.kind, declared.kind, Conversion.classify h.type.kind declared.kind, false⟩ :
          Conversion) = ⟨.string, .string, .none, false⟩ := by
        rw [hown, hdeclared]
        rfl
      have hconverted := perform_converted_string (p := p) (s := s.reporting ds)
        (x := ⟨.literal h v, lowerLiteral h v⟩) (e := .literal h v) rfl hidentity
      obtain ⟨ds', hds', hload⟩ := perform_lowerLiteral (p := p) (s := s.reporting ds) hv.typed
      refine ⟨ds ++ ds', hds.append hds', ?_⟩
      rw [hassigned, hconverted, hload, Emission.reporting_append]
      unfold loadStored
      rw [if_pos hstring, if_pos hstring]
    · have hown := fun hk => hstring ((kind_eq_string_iff hv.typed).2 hk)
      have hwide : declared.isWide = declared.kind.isWide := by simp [Ty.isWide, hv.scalar]
      obtain ⟨ds', hds', hload⟩ := perform_converted_number (p := p) (s := s.reporting ds)
        (c := ⟨h.type.kind, declared.kind, Conversion.classify h.type.kind declared.kind, false⟩)
          htag hv.typed
        hown rfl himplicit
      refine ⟨ds ++ ds', hds.append hds', ?_⟩
      rw [hassigned, hload, Emission.reporting_append, loadStored, if_neg hstring,
        Literal.storedBits, if_neg hsame, hconv, hwide]

/-! ## Where constants are read -/

variable {id : SymbolId} {h' : ExprHead}

/-- The literal of a constant, where its name stands. -/
theorem perform_lowerValue_constant (hlookup : s.constants.lookup id = some (.literal h v))
    (htag : h.tag = 0) (hv : v.Storable h.type h'.type) : ∃ ds, Warnings ds ∧
      perform (lowerValue (.var h' id)) p s = perform (loadStored v h.type h'.type) p
        (s.reporting ds) := by
  obtain ⟨ds, hds, hload⟩ := perform_inType_literal (p := p) (s := s) htag hv
  refine ⟨ds, hds, ?_⟩
  rw [← hload]
  unfold lowerValue
  rw [perform_read_bind]
  unfold valueWith lowerVariable
  rw [perform_get_bind, hlookup]
  show perform (constantWithin (p.globals.items.length + 1) (.literal h v) h'.type) p s = _
  unfold constantWithin valueWith
  rfl

/-- Operands are folded from the bits that are stored. -/
theorem perform_fold_constant (hlookup : s.constants.lookup id = some (.literal h v))
    (htag : h.tag = 0)
    (hv : v.Storable h.type declared) (hfraction : ¬(h.type.kind = .fixed ∧ declared.kind = .float))
    {c : Conversion} (hsource : c.source = declared.kind) :
    perform (fold (.var h' id) c) p s = (.ok (if c.source = .string ∨ c.target = .string then none
      else c.applyToBits (v.storedBits h.type declared)), s) := by
  have hliteral : (Expr.literal h v).literal? = some v := by simp [Expr.literal?, htag]
  split
  next hstring => exact perform_fold_string hlookup hstring
  next hstring =>
    obtain ⟨hfrom, hto⟩ := not_or.1 hstring
    have hbits := Literal.bits_declared hv (hsource ▸ hfrom) hfraction
    rw [← hsource] at hbits
    have hfold := perform_fold (p := p) (s := s) (x := .var h' id) hlookup hliteral hfrom
      hto (by rw [hbits])
    rw [hfold, hbits]
    rfl

/-- An integer is stored as its lowest bits. -/
theorem storedBits_of_int (hv : v.Storable own declared) (hinteger : declared.kind.isInteger = true)
    (hint : v.kind = .int) :
    v.storedBits own declared = Conversion.bitsOfInt v.int.toInt declared.kind.isWide := by
  have hstring : declared.kind ≠ .string := by
    intro hd
    rw [hd] at hinteger
    cases hinteger
  have hfraction : ¬(own.kind = .fixed ∧ declared.kind = .float) := by
    rintro ⟨-, hd⟩
    rw [hd] at hinteger
    cases hinteger
  have hbits := Literal.bits_declared hv hstring hfraction
  rw [Literal.bits_of_int hint hinteger] at hbits
  exact (congrArg Prod.fst hbits).symm

/-- The count of a shift is the low byte of what is stored. -/
theorem toUInt8_storedBits (hv : v.Storable h.type declared)
    (hinteger : declared.kind.isInteger = true)
    (hint : v.kind = .int) : v.int.toUInt64.toUInt8 = (v.storedBits h.type declared).toUInt8 := by
  have hbits := storedBits_of_int hv hinteger hint
  have hmod := v.toNat_int_mod
  have hnat := Conversion.toNat_bitsOfInt v.int.toInt declared.kind.isWide
  apply UInt8.toNat_inj.1
  rw [UInt64.toNat_toUInt8, UInt16.toNat_toUInt8, hbits]
  split at hnat <;> omega

/-- An integer of the declared kind. -/
def InRange (v : Literal) (k : Kind) : Prop :=
  k.isInteger = true ∧ v.kind = .int ∧ k.range.1 ≤ v.int.toInt ∧ v.int.toInt ≤ k.range.2

theorem InRange.value (hrange : InRange v declared.kind) (hv : v.Storable own declared) :
    Conversion.valueOfBits (v.storedBits own declared) declared.kind = v.int.toInt := by
  obtain ⟨hinteger, hint, hlow, hhigh⟩ := hrange
  rw [storedBits_of_int hv hinteger hint]
  exact Conversion.valueOfBits_bitsOfInt hinteger hlow hhigh

/-- A number that is not negative is its own bits. -/
theorem InRange.ofInt (hrange : InRange v declared.kind) (hv : v.Storable own declared)
    (hnonneg : 0 ≤ v.int.toInt) :
    v.int.toInt ≤ 0xFFFF ∧ UInt16.ofInt v.int.toInt = v.storedBits own declared := by
  obtain ⟨hinteger, hint, hlow, hhigh⟩ := hrange
  have hkinds : declared.kind = .u8 ∨ declared.kind = .i8 ∨ declared.kind = .u16 ∨
      declared.kind = .i16 := by
    cases hd : declared.kind <;> simp_all [Kind.isInteger]
  have hof := toNat_uint16_ofInt v.int.toInt
  have hbits := Conversion.toNat_bitsOfInt v.int.toInt declared.kind.isWide
  have hstored := storedBits_of_int hv hinteger hint
  rw [hstored]
  have hbound : v.int.toInt ≤ 0xFFFF ∧ (declared.kind.isWide = false → v.int.toInt ≤ 0xFF) := by
    rcases hkinds with hd | hd | hd | hd <;> rw [hd] at hhigh ⊢ <;>
      simp [Kind.range, Kind.isWide, Kind.size] at hhigh ⊢ <;> omega
  refine ⟨hbound.1, UInt16.toNat_inj.1 ?_⟩
  cases hwide : declared.kind.isWide with
  | true =>
    rw [hwide] at hbits
    change _ = v.int.toInt % 65536 at hbits
    omega
  | false =>
    rw [hwide] at hbits
    change _ = v.int.toInt % 256 at hbits
    have := hbound.2 hwide
    omega

/-- An address that is known is what is stored. -/
theorem perform_constantAddress (hlookup : s.constants.lookup id = some (.literal h v))
    (htag : h.tag = 0)
    (hv : v.Storable h.type declared) (hint : v.kind = .int → InRange v declared.kind) :
    perform (constantAddress (.var h' id)) p s = (.ok (if v.kind = .int ∧ 0 ≤ v.int.toInt then
      some (v.storedBits h.type declared) else none), s) := by
  have hliteral : (Expr.literal h v).literal? = some v := by simp [Expr.literal?, htag]
  unfold constantAddress
  rw [perform_bind_ok (perform_constantOf (x := .var h' id) hlookup)]
  simp only [hliteral, Option.getD_some]
  by_cases hknown : v.kind = .int ∧ 0 ≤ v.int.toInt
  · obtain ⟨hhigh, hbits⟩ := (hint hknown.1).ofInt hv hknown.2
    rw [if_pos hknown, if_pos (by simp [hknown.1, hknown.2, hhigh]), hbits]
    rfl
  · rw [if_neg hknown, if_neg (by simpa using fun hk hi => absurd ⟨hk, hi⟩ hknown)]
    rfl

/-- An element with a known index. -/
theorem perform_resolveElement (hlookup : s.constants.lookup id = some (.literal h v))
    (htag : h.tag = 0)
    (htype : h'.type = declared) (hv : v.Storable h.type declared)
    (hrange : InRange v declared.kind)
    {array : SymbolId} {sym : Symbol} {base : UInt16} (hsymbol : p.symbol? array = some sym)
    (harray : sym.type.isArray = true) (hbase : s.allocator.lookup? array = some base)
    (span : Span) :
    perform (resolveElement array (part (.var h' id)) span) p s =
      let i := Conversion.valueOfBits (v.storedBits h.type declared) declared.kind
      if i < 0 ∨ (sym.type.length.toNat : Int) ≤ i then
        (.ok none, s.reporting [.error .literalOutOfRange h'.span
          s!"index {i} is out of range for {sym.type.text}"])
      else
        (.ok (some ⟨sym, .fixed base, part (.var h' id),
            .known (UInt16.ofInt i * UInt16.ofNat sym.type.element.size)⟩), s) := by
  have hliteral : (Expr.literal h v).literal? = some v := by simp [Expr.literal?, htag]
  have hsym : perform (symbol array) p s = (.ok sym, s) := by
    unfold symbol
    rw [perform_read_bind, hsymbol]
    rfl
  have href : perform (symbolRef array) p s = (.ok (.fixed base), s) := by
    unfold symbolRef
    rw [perform_get_bind, hbase]
    rfl
  have hindex : (part (.var h' id)).type = declared := htype
  rw [hrange.value hv]
  unfold resolveElement
  rw [perform_bind_ok hsym]
  have hguard : ((part (.var h' id)).expr.isAbsent || !declared.kind.isInteger ||
      declared.isArray) = false := by
    simp [part, Expr.isAbsent, hrange.1, hv.scalar]
  simp only [harray, hindex, hguard, Bool.not_true, Bool.false_eq_true, if_false]
  rw [perform_bind_ok href,
    perform_bind_ok (perform_constantOf (x := (part (.var h' id)).expr) hlookup)]
  simp only [hliteral, Option.getD_some, Bool.or_eq_true, decide_eq_true_eq]
  by_cases hout : v.int.toInt < 0 ∨ (sym.type.length.toNat : Int) ≤ v.int.toInt
  · rw [if_pos hout, if_pos hout]
    rfl
  · rw [if_neg hout, if_neg hout]
    rfl

/-- A shift by a constant. -/
theorem perform_lowerShift (hlookup : s.constants.lookup id = some (.literal h v))
    (htag : h.tag = 0)
    (hv : v.Storable h.type declared) (hinteger : declared.kind.isInteger = true)
    (hint : v.kind = .int) (op : BinaryOp) (l : Expr) (res : Resolution) :
    perform (lowerShift op (part l) (part (.var h' id)) res) p s = perform (do
      (part l).inType res.result
      imm .ldy (v.storedBits h.type declared).toUInt8
      shiftByY (op = .shl) res.result.kind) p s := by
  have hliteral : (Expr.literal h v).literal? = some v := by simp [Expr.literal?, htag]
  have hstays : Moves Emission.Stays ((part l).inType res.result) := inferInstance
  have hkept := hstays.moves p s
  unfold lowerShift
  rw [perform_bind, perform_bind]
  rcases hfirst : perform ((part l).inType res.result) p s with ⟨_ | _, s'⟩
  · rfl
  · rw [hfirst] at hkept
    have hknown : constantOf? s'.constants (part (.var h' id)).expr = some (.literal h v) := by
      rw [hkept.constants]
      exact hlookup
    show perform (constantOf (part (.var h' id)).expr >>= _) p s' = _
    rw [perform_bind_ok (perform_constantOf hknown)]
    simp only [hliteral, Option.getD_some, toUInt8_storedBits hv hinteger hint]

/-- A byte is read from a constant address. -/
theorem perform_lowerPeek {address : UInt16}
    (h : perform (constantAddress (.var h' id)) p s = (.ok (some address), s)) :
    perform (lowerPeek (part (.var h' id))) p s = perform (mem .lda (.fixed address)) p s := by
  unfold lowerPeek
  exact perform_bind_ok h

/-- A byte is written to a constant address. -/
theorem perform_lowerPoke {address : UInt16} (e : Expr)
    (h : ∀ s', s'.constants = s.constants →
      perform (constantAddress (.var h' id)) p s' = (.ok (some address), s')) :
    perform (lowerPoke (part (.var h' id)) (part e)) p s = perform (do
      (part e).inType .u8
      mem .sta (.fixed address)) p s := by
  have hstays : Moves Emission.Stays ((part e).inType .u8) := inferInstance
  have hkept := hstays.moves p s
  unfold lowerPoke
  rw [perform_bind, perform_bind]
  rcases hfirst : perform ((part e).inType .u8) p s with ⟨_ | _, s'⟩
  · rfl
  · rw [hfirst] at hkept
    exact perform_bind_ok (h s' hkept.constants)

/-! ## The table of constants -/

/-- The table of constants stays as it is. -/
def KeepsConstants (s s' : Emission) : Prop := s'.constants = s.constants

instance : Path KeepsConstants where
  refl _ := rfl
  trans h h' := Eq.trans h' h

instance (priority := low) (x : Lower α) [hx : Moves Emission.Stays x] : Moves KeepsConstants x :=
  ⟨fun p s => (hx.moves p s).constants⟩

instance (id : SymbolId) : Moves KeepsConstants (allocate id) where
  moves p s := by
    rw [perform_allocate]
    split <;> rfl

instance (f : Function) : Moves KeepsConstants (allocateFrame f) := by
  have (l : LabelId) : Moves KeepsConstants (modify fun s =>
      { s with functions := (f.id, l) :: s.functions } : Lower PUnit) := .modify fun _ => rfl
  unfold allocateFrame
  infer_instance

/-- Whether a declaration is that of a constant whose value is known. -/
def isKnown (g : Declaration) (sym : Symbol) : Bool :=
  sym.symbolClass = .constant && g.value.isLiteral && !sym.type.isArray

/-- A declaration adds its constant if its value is known. -/
theorem allocateGlobal_constants {g : Declaration} {sym : Symbol}
    (hsymbol : p.symbol? g.symbol = some sym) (h : perform (allocateGlobal g) p s = (.ok (), s')) :
    s'.constants = if isKnown g sym then (g.symbol, g.value) :: s.constants else s.constants := by
  have hkept : Moves KeepsConstants (allocate g.symbol) := inferInstance
  have hallocate := hkept.moves p s
  have hsym (s : Emission) : perform (symbol g.symbol) p s = (.ok sym, s) := by
    unfold symbol
    rw [perform_read_bind, hsymbol]
    rfl
  unfold allocateGlobal at h
  rw [perform_bind] at h
  rcases hfirst : perform (allocate g.symbol) p s with ⟨_ | _, s₁⟩
  · rw [hfirst] at h
    cases h
  · rw [hfirst] at h hallocate
    change perform (symbol g.symbol >>= _) p s₁ = _ at h
    rw [perform_bind_ok (hsym s₁)] at h
    rw [← show s₁.constants = s.constants from hallocate]
    unfold isKnown
    split at h
    next hknown =>
      rw [if_pos hknown]
      cases h
      rfl
    next hknown =>
      rw [if_neg hknown]
      cases h
      rfl

/-- The declarations add their constants, each under its own symbol. -/
theorem allocateGlobals_constants {gs : List Declaration} (honce : (gs.map (·.symbol)).Nodup)
    (hsymbols : ∀ g ∈ gs, (p.symbol? g.symbol).isSome = true)
    (h : perform (gs.forM allocateGlobal) p s = (.ok (), s')) :
    (∀ g ∈ gs, ∀ sym, p.symbol? g.symbol = some sym → isKnown g sym = true →
      s'.constants.lookup g.symbol = some g.value) ∧
    ∀ id ∉ gs.map (·.symbol), s'.constants.lookup id = s.constants.lookup id := by
  induction gs generalizing s with
  | nil =>
    cases h
    exact ⟨nofun, fun _ _ => rfl⟩
  | cons g gs ih =>
    change perform (allocateGlobal g >>= fun _ => gs.forM allocateGlobal) p s = _ at h
    rw [perform_bind] at h
    rcases hfirst : perform (allocateGlobal g) p s with ⟨_ | _, s₁⟩
    · rw [hfirst] at h
      cases h
    · rw [hfirst] at h
      obtain ⟨hnew, honce'⟩ := List.nodup_cons.1 honce
      obtain ⟨hlater, hother⟩ :=
        ih honce' (fun g' hg' => hsymbols g' (List.mem_cons_of_mem g hg')) h
      obtain ⟨sym, hsym⟩ := Option.isSome_iff_exists.1 (hsymbols g List.mem_cons_self)
      have hadded := allocateGlobal_constants hsym hfirst
      refine ⟨fun g' hg' sym' hsym' hknown => ?_, fun id hid => ?_⟩
      · rcases List.mem_cons.1 hg' with rfl | hg'
        · obtain rfl := Option.some.inj (hsym.symm.trans hsym')
          rw [hother _ hnew, hadded, if_pos hknown, List.lookup_cons_self]
        · exact hlater g' hg' sym' hsym' hknown
      · obtain ⟨hne, hid'⟩ := List.ne_and_not_mem_of_not_mem_cons hid
        rw [hother id hid', hadded]
        split
        · rw [List.lookup_cons, beq_eq_false_iff_ne.2 hne]
        · rfl

/-- Allocation collects the constants whose values are known. -/
theorem allocateStorage_constants (hp : p.WellFormed)
    (h : perform allocateStorage p s = (.ok (), s'))
    {g : Declaration} (hg : g ∈ p.globals.items) {sym : Symbol}
    (hsymbol : p.symbol? g.symbol = some sym)
    (hknown : isKnown g sym = true) : s'.constants.lookup g.symbol = some g.value := by
  have honce : (p.globals.items.map (·.symbol)).Nodup := (List.nodup_append.1 hp.once).1
  have hsymbols : ∀ g ∈ p.globals.items, (p.symbol? g.symbol).isSome = true := fun g hg =>
    (hp.declared g.symbol).1 (List.mem_append_left _ (List.mem_map_of_mem hg))
  have hframes : Moves KeepsConstants (p.functions.items.forM allocateFrame) := inferInstance
  unfold allocateStorage at h
  rw [perform_read_bind, perform_bind] at h
  rcases hglobals : perform (p.globals.items.forM allocateGlobal) p s with ⟨_ | _, s₁⟩
  · rw [hglobals] at h
    cases h
  · rw [hglobals] at h
    have hkept := hframes.moves p { s₁ with globalSize := s₁.allocator.used }
    change perform (p.functions.items.forM allocateFrame) p
      { s₁ with globalSize := s₁.allocator.used } = _ at h
    rw [h] at hkept
    rw [show s'.constants = s₁.constants from hkept]
    exact (allocateGlobals_constants honce hsymbols hglobals).1 g hg sym hsymbol hknown

/-- The start of the program stores the literal in the declared type. -/
theorem perform_initialise {g : Declaration} (hvalue : g.value = .literal h v)
    (htag : h.tag = 0) {sym : Symbol}
    (hsymbol : p.symbol? g.symbol = some sym) (hv : v.Storable h.type sym.type) :
    ∃ ds, Warnings ds ∧
      perform (initialise g) p s = perform (do
        loadStored v h.type sym.type
        store (← symbolRef g.symbol) sym.type.isWide) p (s.reporting ds) := by
  obtain ⟨ds, hds, hload⟩ := perform_inType_literal (p := p) (s := s) htag hv
  have hsym : perform (symbol g.symbol) p s = (.ok sym, s) := by
    unfold symbol
    rw [perform_read_bind, hsymbol]
    rfl
  have hliteral : lowerValue (.literal h v) = lowerLiteral h v := by
    unfold lowerValue valueWith
    rfl
  have hexpr : perform (lowerExpr (.literal h v) sym.type) p s =
      perform (loadStored v h.type sym.type) p (s.reporting ds) := by
    rw [← hload, lowerExpr, part, hliteral]
  refine ⟨ds, hds, ?_⟩
  unfold initialise
  rw [hvalue]
  show perform (symbol g.symbol >>= _) p s = _
  rw [perform_bind_ok hsym]
  simp only [hv.scalar]
  rw [if_neg Bool.false_ne_true, perform_bind, perform_bind, hexpr]

/-! ## What a constant stands for -/

/-- What is made of the name of a constant, where the literal `v` of type `own` is declared as a
value of type `declared`. -/
structure Uses (p : Program) (s : Emission) (x : Expr) (v : Literal)
    (own declared : Ty) : Prop where
  /-- as a value it is loaded as the start of the program loads it -/
  value : ∃ ds, Warnings ds ∧
    perform (lowerValue x) p s = perform (loadStored v own declared) p (s.reporting ds)
  /-- as an operand it is converted from the bits that are stored, but for fractions stored as
  floats -/
  operand : ¬(own.kind = .fixed ∧ declared.kind = .float) →
    ∀ c : Conversion, c.source = declared.kind →
    perform (fold x c) p s = (.ok (if c.source = .string ∨ c.target = .string then none
      else c.applyToBits (v.storedBits own declared)), s)
  /-- the low byte of a number counts the steps of a shift -/
  count : declared.kind.isInteger = true → v.kind = .int →
    ∀ (op : BinaryOp) (l : Expr) (res : Resolution),
    perform (lowerShift op (part l) (part x) res) p s = perform (do
      (part l).inType res.result
      imm .ldy (v.storedBits own declared).toUInt8
      shiftByY (op = .shl) res.result.kind) p s
  /-- a number of the declared type is an index -/
  index : InRange v declared.kind →
    ∀ (array : SymbolId) (sym : Symbol) (base : UInt16) (span : Span),
    p.symbol? array = some sym → sym.type.isArray = true → s.allocator.lookup? array = some base →
    perform (resolveElement array (part x) span) p s =
      let i := Conversion.valueOfBits (v.storedBits own declared) declared.kind
      if i < 0 ∨ (sym.type.length.toNat : Int) ≤ i then
        (.ok none, s.reporting [.error .literalOutOfRange x.span
          s!"index {i} is out of range for {sym.type.text}"])
      else
        (.ok (some ⟨sym, .fixed base, part x,
          .known (UInt16.ofInt i * UInt16.ofNat sym.type.element.size)⟩), s)
  /-- and an address to read from, if it is not negative -/
  peek : InRange v declared.kind → 0 ≤ v.int.toInt →
    perform (lowerPeek (part x)) p s = perform (mem .lda (.fixed (v.storedBits own declared))) p s
  /-- and to write to -/
  poke : InRange v declared.kind → 0 ≤ v.int.toInt → ∀ e : Expr,
    perform (lowerPoke (part x) (part e)) p s = perform (do
      (part e).inType .u8
      mem .sta (.fixed (v.storedBits own declared))) p s
  /-- anything but a number is an address like any operand -/
  address : v.kind ≠ .int → perform (constantAddress x) p s = (.ok none, s)

variable {g : Declaration} {sym : Symbol} {s₀ s₁ : Emission}

/-- Wherever a constant is read it stands for the value that the start of the program stores, if it
is no fraction stored as a float, and if it is a number of the declared type where its literal is
read as an index, a count or an address.  `s` is any state behind the allocation. -/
theorem constant_uses (hp : p.WellFormed) (hg : g ∈ p.globals.items)
    (hsymbol : p.symbol? g.symbol = some sym)
    (hclass : sym.symbolClass = .constant) (hvalue : g.value = .literal h v) (htag : h.tag = 0)
    (hv : v.Storable h.type sym.type) (hallocated : perform allocateStorage p s₀ = (.ok (), s₁))
    (hs : s.constants = s₁.constants) :
    (∃ ds, Warnings ds ∧ perform (initialise g) p s = perform (do
      loadStored v h.type sym.type
      store (← symbolRef g.symbol) sym.type.isWide) p (s.reporting ds)) ∧
    ∀ h' : ExprHead, h'.type = sym.type → Uses p s (.var h' g.symbol) v h.type sym.type := by
  have hliteral : g.value.isLiteral = true := by
    rw [hvalue]
    simp [Expr.isLiteral, Expr.tag, Expr.head, htag]
  have hknown : isKnown g sym = true := by simp [isKnown, hclass, hliteral, hv.scalar]
  have hlookup : s.constants.lookup g.symbol = some (.literal h v) := by
    rw [hs, ← hvalue]
    exact allocateStorage_constants hp hallocated hg hsymbol hknown
  refine ⟨perform_initialise hvalue htag hsymbol hv, fun h' htype => ?_⟩
  have haddress (hrange : InRange v sym.type.kind) (hnonneg : 0 ≤ v.int.toInt) (s' : Emission)
      (hs' : s'.constants = s.constants) : perform (constantAddress (.var h' g.symbol)) p s' =
        (.ok (some (v.storedBits h.type sym.type)), s') := by
    rw [perform_constantAddress (hs' ▸ hlookup) htag hv fun _ =>
      hrange, if_pos ⟨hrange.2.1, hnonneg⟩]
  exact
    { value := by
        obtain ⟨ds, hds, hload⟩ := perform_lowerValue_constant (p := p) hlookup htag (htype ▸ hv)
        exact ⟨ds, hds, htype ▸ hload⟩
      operand := fun hfraction c hsource => perform_fold_constant hlookup htag hv hfraction hsource
      count := fun hinteger hint op l res =>
        perform_lowerShift hlookup htag hv hinteger hint op l res
      index := fun hrange array array' base span hsymbol' harray hbase =>
        perform_resolveElement hlookup htag htype hv hrange hsymbol' harray hbase span
      peek := fun hrange hnonneg => perform_lowerPeek (haddress hrange hnonneg s rfl)
      poke := fun hrange hnonneg e => perform_lowerPoke e (haddress hrange hnonneg)
      address := fun hint => by
        rw [perform_constantAddress hlookup htag hv fun h => absurd h hint,
          if_neg fun h => hint h.1] }

/-- A constant of one byte, declared with a literal of two. -/
def narrowed : Program :=
  .declaring { name := Text.bytesOf "n", type := .u8, symbolClass := .constant }
    { type := .u16 } { int := 200 }

theorem narrowed_uses : ∃ s, Uses narrowed s (.var { type := .u8 } 1) { int := 200 } .u16 .u8 := by
  have hallocates : (perform allocateStorage narrowed
      (Compilation.initialEmission .c64 (.ofLimit 0) .off {})).1.toOption =
        some () := by decide +kernel
  rcases hrun : perform allocateStorage narrowed
    (Compilation.initialEmission .c64 (.ofLimit 0) .off {})
    with ⟨_ | _, s⟩
  · rw [hrun] at hallocates
    cases hallocates
  · have hstorable : Literal.Storable { int := 200 } .u16 .u8 :=
      { typed := ⟨rfl, by decide, by decide⟩, scalar := rfl, accepted := .inr rfl }
    have hwellFormed : narrowed.WellFormed := Program.declaring_wellFormed (by decide) _ _
    exact ⟨s, (constant_uses hwellFormed (List.mem_singleton.2 rfl) rfl rfl rfl rfl hstorable
      hrun rfl).2 _ rfl⟩

end Lowering

end Breadbin
