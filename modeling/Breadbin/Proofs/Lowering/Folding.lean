import Breadbin.Proofs.Lowering.Variables

/-!
# Conversions before the program runs

A conversion of a literal is done while the program is compiled.  What comes of it is what the code
of the same conversion makes of a variable that holds the literal, except where an integer does not
fit a fixed-point number: the compiler takes the nearest one, the code loses the highest bits.
-/

namespace Breadbin

/-! ## The same bits -/

namespace Conversion

/-- Bits that a value of a kind may have. -/
def FitsKind (k : Kind) (bits : UInt16) : Prop :=
  (k.isWide = false → bits.toNat < 256) ∧ (k = .bool → bits.toNat ≤ 1)

theorem toNat_and_0xFF (bits : UInt16) : (bits &&& 0xFF).toNat = bits.toNat % 256 := by
  rw [UInt16.toNat_and]
  exact Nat.and_two_pow_sub_one_eq_mod _ 8

/-- Reading bits as a number and writing the number gives the bits back. -/
theorem bitsOfInt_valueOfBits {k : Kind} (hk : k.isIntegral = true) {bits : UInt16}
    (hbits : FitsKind k bits) :
    bitsOfInt (valueOfBits bits k) k.isWide = bits := by
  have hlt := bits.toNat_lt
  have hnat := toNat_bitsOfInt (valueOfBits bits k) k.isWide
  apply UInt16.toNat_inj.1
  cases k with
  | u8 | bool =>
    have := hbits.1 rfl
    change _ = ((bits.toNat : Int) % 256) % 256 at hnat
    omega
  | i8 =>
    have := hbits.1 rfl
    change _ = ((bits.toNat : Int).bmod 256) % 256 at hnat
    rw [Int.bmod_def] at hnat
    split at hnat <;> omega
  | u16 =>
    change _ = (bits.toNat : Int) % 65536 at hnat
    omega
  | i16 =>
    change _ = ((bits.toNat : Int).bmod 65536) % 65536 at hnat
    rw [Int.bmod_def] at hnat
    split at hnat <;> omega
  | invalid | void | fixed | float | string | unknown => cases hk

/-- The low byte is what a narrow kind keeps. -/
theorem bitsOfInt_narrow (i : Int) : bitsOfInt i false = bitsOfInt i true &&& 0xFF := rfl

/-- An integer that fits becomes a fixed-point number by a shift. -/
theorem raw_ofInt {i : Int} (hlow : -2048 ≤ i) (hhigh : i ≤ 2047) :
    (Numeric.Fixed.ofInt i).1.raw = UInt16.ofInt (16 * i) := by
  unfold Numeric.Fixed.ofInt Numeric.Fixed.saturate
  rw [if_neg (by omega), if_neg (by omega)]
  dsimp only
  rw [if_neg (by omega), if_neg (by omega)]
  refine eq_ofInt ?_
  rw [UInt16.toNat_ofNat']
  omega

variable {c : Conversion} {bits : UInt16}

/-- Among integral kinds the code keeps as much of the number as the target holds. -/
theorem onBits_integer (hc : Lowering.Direct c) (hbits : FitsKind c.source bits)
    (hsource : c.source.isIntegral = true)
    (htarget : c.target.isInteger = true) :
    c.onBits bits = bitsOfInt (valueOfBits bits c.source) c.target.isWide := by
  have hback := bitsOfInt_valueOfBits hsource hbits
  have hfits := hc.fits
  rcases c with ⟨source, target, kind, explicit⟩
  cases kind <;> simp only [Lowering.fitsCode, Bool.and_eq_true, beq_iff_eq, bne_iff_ne,
    Bool.not_eq_true', reduceCtorEq] at hfits
  case none | reinterpret =>
    rw [hfits] at hback
    exact hback.symm
  case zeroExtend | signExtend =>
    obtain ⟨⟨-, hwide⟩, -⟩ := hfits
    show UInt16.ofInt _ = bitsOfInt _ target.isWide
    rw [hwide]
    rfl
  case truncate =>
    obtain ⟨⟨⟨hwide, -⟩, hnarrow⟩, -⟩ := hfits
    rw [hwide] at hback
    show bits &&& 0xFF = bitsOfInt _ target.isWide
    rw [hnarrow, bitsOfInt_narrow, hback]
  case toBool =>
    obtain ⟨-, rfl⟩ := hfits
    cases htarget
  case intToFixed =>
    obtain ⟨-, rfl⟩ := hfits
    cases htarget
  case fixedToInt => exact absurd rfl hc.floors

/-- What goes from a fraction to an integer is left to the code. -/
theorem ne_fixedToInt_of_applyToBits {result : UInt16} (hfrom : c.source ∈ Lowering.plainKinds)
    (hto : c.target ∈ Lowering.plainKinds) (hkind : c.kind = classify c.source c.target)
    (h : c.applyToBits bits = some result) : c.kind ≠ .fixedToInt := by
  intro hfloors
  have hfits := Lowering.fitsCode_classify _ hfrom _ hto
  rw [← hkind, hfloors] at hfits
  simp only [Lowering.fitsCode, Bool.and_eq_true, beq_iff_eq] at hfits
  obtain ⟨hsource, htarget⟩ := hfits
  have hnone : ∀ k ∈ Lowering.plainKinds, k.isInteger = true → k ≠ .bool ∧ k ≠ .float ∧
    k ≠ .fixed := by decide
  obtain ⟨hbool, hfloat, hfixed⟩ := hnone _ hto htarget
  unfold applyToBits at h
  simp [hsource, hbool, hfloat, hfixed.symm, Kind.isIntegral, Kind.isInteger] at h

/-- **The code and the compiler convert alike** wherever the number fits. -/
theorem onBits_eq_applyToBits (hc : Lowering.Direct c) (hbits : FitsKind c.source bits)
    (hrange : c.kind = .intToFixed → -2048 ≤ valueOfBits bits c.source ∧
      valueOfBits bits c.source ≤ 2047)
    {result : UInt16} (h : c.applyToBits bits = some result) : c.onBits bits = result := by
  have hkind := hc.kind
  have hfixed (hk : c.source.isIntegral = false) : c.source = .fixed := by
    have hall : ∀ k ∈ Lowering.plainKinds, k.isIntegral = false → k = .fixed := by decide
    exact hall _ hc.source hk
  have htargets (hb : c.target ≠ .bool) (hi : c.target.isInteger = false) : c.target = .fixed := by
    have hall : ∀ k ∈ Lowering.plainKinds, k ≠ .bool → k.isInteger = false → k = .fixed := by decide
    exact hall _ hc.target hb hi
  unfold applyToBits at h
  by_cases hbool : c.target = .bool
  · -- truth values
    rw [if_pos hbool] at h
    have hfloat : c.source ≠ .float := by
      intro hs
      exact absurd (show Kind.float ∈ Lowering.plainKinds from hs ▸ hc.source) (by decide)
    rw [if_neg hfloat] at h
    obtain rfl := Option.some.inj h
    by_cases hsame : c.source = .bool
    · have hone := hbits.2 hsame
      have hnone : c.kind = .none := by rw [hkind, hsame, hbool]; rfl
      have hcases : bits = 0 ∨ bits = 1 := by
        rw [← UInt16.toNat_inj, ← UInt16.toNat_inj, UInt16.toNat_zero, UInt16.toNat_one]
        omega
      rw [onBits, hnone]
      rcases hcases with rfl | rfl <;> rfl
    · have htoBool : c.kind = .toBool := by
        have hall : ∀ k ∈ Lowering.plainKinds, k ≠ .bool → classify k .bool = .toBool := by decide
        rw [hkind, hbool]
        exact hall _ hc.source hsame
      rw [onBits, htoBool]
  · rw [if_neg hbool] at h
    cases hsource : c.source.isIntegral with
    | true =>
      rw [hsource, if_pos rfl] at h
      cases hinteger : c.target.isInteger with
      | true =>
        -- integers
        rw [hinteger, if_pos rfl] at h
        rw [onBits_integer hc hbits hsource hinteger]
        exact Option.some.inj h
      | false =>
        -- integers that become fixed-point numbers
        have htarget := htargets hbool hinteger
        have hshift : c.kind = .intToFixed := by
          have hall : ∀ k ∈ Lowering.plainKinds, k.isIntegral = true →
            classify k .fixed = .intToFixed := by decide
          rw [hkind, htarget]
          exact hall _ hc.source hsource
        obtain ⟨hlow, hhigh⟩ := hrange hshift
        rw [hinteger, if_neg (by decide), if_pos htarget, raw_ofInt hlow hhigh] at h
        rw [onBits, hshift]
        exact Option.some.inj h
    | false =>
      -- fixed-point numbers stay what they are
      have hfrom := hfixed hsource
      cases hinteger : c.target.isInteger with
      | true =>
        have hall : ∀ k ∈ Lowering.plainKinds, k.isInteger = true →
          classify .fixed k = .fixedToInt := by decide
        exact absurd (by rw [hkind, hfrom]; exact hall _ hc.target hinteger) hc.floors
      | false =>
        have htarget := htargets hbool hinteger
        have hnone : c.kind = .none := by rw [hkind, hfrom, htarget]; rfl
        rw [onBits, hnone]
        simp only [hfrom, htarget, Kind.isIntegral, Kind.isInteger] at h
        exact Option.some.inj h

end Conversion

namespace Literal

/-- The bits of a literal fit the kind that it can have. -/
theorem bits_fits {v : Literal} {k : Kind} (hk : k ∈ Lowering.plainKinds)
    (hok : (v.bits k).2 = true) :
    Conversion.FitsKind k (v.bits k).1 := by
  have hone (b : Bool) : (boolBits b).toNat ≤ 1 := by cases b <;> decide
  have hlow (n : UInt16) : (n &&& 0xFF).toNat < 256 := by
    rw [Conversion.toNat_and_0xFF]
    exact Nat.mod_lt _ (by decide)
  refine ⟨fun hnarrow => ?_, fun hbool => ?_⟩
  · cases k with
    | u8 | i8 =>
      unfold bits
      dsimp only
      split
      · exact Nat.lt_of_le_of_lt (hone _) (by decide)
      · exact hlow _
    | bool =>
      unfold bits at hok ⊢
      dsimp only at hok ⊢
      split
      · exact Nat.lt_of_le_of_lt (hone _) (by decide)
      · split
        · exact Nat.lt_of_le_of_lt (hone _) (by decide)
        · decide
    | u16 | i16 | fixed | float | string => cases hnarrow
    | invalid | void | unknown => simp [Lowering.plainKinds] at hk
  · subst hbool
    unfold bits at hok ⊢
    dsimp only at hok ⊢
    split
    · exact hone _
    · split
      · exact hone _
      · decide

/-- A string has no bits in plain kinds. -/
theorem ne_string_of_bits {v : Literal} {k : Kind} (hk : k ∈ Lowering.plainKinds)
    (hok : (v.bits k).2 = true) :
    v.kind ≠ .string := by
  intro hstring
  have hall : ∀ k ∈ Lowering.plainKinds, k = .u8 ∨ k = .i8 ∨ k = .u16 ∨ k = .i16 ∨ k = .bool ∨
    k = .fixed := by decide
  rcases hall k hk with rfl | rfl | rfl | rfl | rfl | rfl <;> simp [bits, isNumber, hstring] at hok

end Literal

namespace Lowering

open Assembly Machine

variable {p : Program} {s : Emission}

/-! ## Running the code -/

theorem loadConstant_does (bits : UInt16) (wide : Bool) (hbits : wide = false → bits.toNat < 256) :
    Does (loadConstant bits wide) p s (Computes 0 [] fun _ w => w.value wide = bits) := by
  have hlt := bits.toNat_lt
  cases wide with
  | false =>
    refine Does.computes _ (fun v => ⟨_, rfl, ?_⟩) rfl (List.Subset.refl _)
    apply UInt16.toNat_inj.1
    have := hbits rfl
    rw [View.toNat_value]
    show bits.toUInt8.toNat = bits.toNat
    rw [UInt16.toNat_toUInt8]
    omega
  | true =>
    refine Does.computes _ (fun v => ⟨_, rfl, ?_⟩) rfl (List.Subset.refl _)
    apply UInt16.toNat_inj.1
    rw [View.toNat_value]
    show bits.toUInt8.toNat + 256 * (bits >>> 8).toUInt8.toNat = bits.toNat
    rw [UInt16.toNat_toUInt8, UInt16.toNat_toUInt8, UInt16.toNat_shiftRight,
      Nat.shiftRight_eq_div_pow]
    show bits.toNat % 256 + 256 * (bits.toNat / 256 % 256) = _
    omega

/-- A literal is loaded as its bits. -/
theorem perform_lowerExpr_literal {h : ExprHead} {v : Literal} (hkind : h.type.kind ∈ plainKinds)
    (hok : (v.bits h.type.kind).2 = true) : ∃ ds, perform (lowerExpr (.literal h v) h.type) p s =
      perform (loadConstant (v.bits h.type.kind).1 h.type.isWide) p (s.reporting ds) := by
  refine ⟨v.findings h.type h.span, ?_⟩
  have hvalue : perform (lowerExpr (.literal h v) h.type) p s = perform (lowerLiteral h v) p s := by
    have hact : lowerExpr (.literal h v) h.type = lowerValue (.literal h v) := by
      simp [lowerExpr, Part.inType, part, Part.type, Expr.isAbsent, Expr.type, Expr.head]
    rw [hact]
    unfold lowerValue
    rw [perform_read_bind]
    unfold valueWith
    rfl
  rw [hvalue]
  unfold lowerLiteral
  rw [if_neg (Literal.ne_string_of_bits hkind hok)]
  rcases hbits : v.bits h.type.kind with ⟨bits, ok⟩
  rw [hbits] at hok
  obtain rfl : ok = true := hok
  exact perform_bind_ok (perform_forM_report _ p s)

/-- A variable is no known value. -/
theorem perform_fold_variable {h : ExprHead} {id : SymbolId}
    (hlookup : s.constants.lookup id = none)
    (c : Conversion) : perform (fold (.var h id) c) p s = (.ok none, s) := by
  have hknown : perform (constantOf (.var h id)) p s = (.ok none, s) := by
    unfold constantOf
    rw [perform_get_bind]
    show (Except.ok (s.constants.lookup id), s) = _
    rw [hlookup]
  unfold fold
  rw [perform_bind_ok hknown]
  rfl

/-- The bits that a literal is folded to are converted from those of its kind. -/
theorem bits_of_fold {h : ExprHead} {v : Literal} {c : Conversion} {result : UInt16} {s' : Emission}
    (htag : h.tag = 0) (hsource : c.source ≠ .string) (htarget : c.target ≠ .string)
    (hfold : perform (fold (.literal h v) c) p s = (.ok (some result), s')) :
    (v.bits c.source).2 = true ∧ c.applyToBits (v.bits c.source).1 = some result := by
  have hliteral : (Expr.literal h v).literal? = some v := by simp [Expr.literal?, htag]
  cases hok : (v.bits c.source).2 with
  | true =>
    refine ⟨rfl, ?_⟩
    rw [perform_fold (x := .literal h v) rfl hliteral hsource htarget hok] at hfold
    exact Except.ok.inj (congrArg Prod.fst hfold)
  | false =>
    unfold fold at hfold
    rw [perform_bind_ok (perform_constantOf (x := .literal h v) rfl)] at hfold
    rcases hbits : v.bits c.source with ⟨bits, ok⟩
    rw [hbits] at hok
    obtain rfl : ok = false := hok
    simp only [hliteral, Option.getD_some, hsource, htarget, hbits] at hfold
    cases hfold

/-- A literal stored in a variable of its type, and then the variable converted. -/
def storeAndConvert (h : ExprHead) (v : Literal) (address : UInt16) (h' : ExprHead) (id : SymbolId)
    (c : Conversion) (inCast : Bool) : Lower Unit := do
  lowerExpr (.literal h v) h.type
  store (.fixed address) h.type.isWide
  (part (.var h' id)).converted c inCast

/-- The code that converts a variable. -/
theorem converted_variable_does {h : ExprHead} {c : Conversion} {inCast : Bool}
    {id : SymbolId} {sym : Symbol}
    {address : UInt16} (hdirect : Direct c) (hcast : c.explicit = true → inCast = true)
    (hsymbol : p.symbol? id = some sym) (htype : sym.type = .scalar c.source)
    (hlookup : s.constants.lookup id = none) (haddress : s.allocator.lookup? id = some address) :
    Does ((part (.var h id)).converted c inCast) p s
      (Computes 0 [ZeroPage.scratch, ZeroPage.scratch + 1] fun v w =>
      w.value c.target.isWide = c.onBits (v.stored address c.source.isWide)) := by
  have hscalar : sym.type.isArray = false := by rw [htype]; rfl
  have hwide : sym.type.isWide = c.source.isWide := by rw [htype]; rfl
  have hperform : perform ((part (.var h id)).converted c inCast) p s =
      perform (load (.fixed address) c.source.isWide >>= fun _ =>
          convert c inCast (Expr.var h id).span) p s := by
    unfold Part.converted
    rw [perform_bind_ok (show perform (fold (part (.var h id)).expr c) p s = (.ok none, s) from
      perform_fold_variable hlookup c)]
    show perform (lowerValue (.var h id) >>= fun _ => convert c inCast (Expr.var h id).span) p s = _
    rw [perform_bind, perform_lowerValue_variable hlookup hsymbol hscalar haddress,
      hwide, ← perform_bind]
  refine Does.after hperform (.refl s)
    (((load_does address c.source.isWide).bind fun s₁ _ => convert_does hdirect hcast _).mono ?_)
  rintro code a b ⟨m, hload, hconvert⟩
  refine ((hload.widen (Nat.le_refl 0) (List.nil_subset _)).andThen hconvert).imp ?_
  rintro v w - ⟨u, hu, hw⟩
  rw [hw, hu]

/-- **The code of a conversion leaves what the compiler makes of a literal**, when it is run on a
variable in which the literal has been stored, for all conversions among integers, truth values and
fixed-point numbers that the compiler does itself; of the integers that become fixed-point numbers
only those that fit. -/
theorem storeAndConvert_leaves_folded {h h' : ExprHead} {v : Literal}
    {c : Conversion} {inCast : Bool}
    {result : UInt16} {s' : Emission} {id : SymbolId} {sym : Symbol} {address : UInt16}
    (htag : h.tag = 0) (hfrom : c.source ∈ plainKinds) (hto : c.target ∈ plainKinds)
    (hclass : c.kind = Conversion.classify c.source c.target) (hsource : h.type = .scalar c.source)
    (hcast : c.explicit = true → inCast = true)
    (hfold : perform (fold (.literal h v) c) p s = (.ok (some result), s'))
    (hfits : c.kind = .intToFixed → -2048 ≤ Conversion.valueOfBits (v.bits c.source).1 c.source ∧
      Conversion.valueOfBits (v.bits c.source).1 c.source ≤ 2047)
    (hsymbol : p.symbol? id = some sym) (htype : sym.type = h.type)
    (hlookup : s.constants.lookup id = none) (haddress : s.allocator.lookup? id = some address) :
    Does (storeAndConvert h v address h' id c inCast) p s fun code a b =>
      code.Spares address c.source.isWide → ∀ u, ∃ w, code.Reaches 0 a u b w ∧
        w.value c.target.isWide = result := by
  have hkind : h.type.kind = c.source := by rw [hsource]; rfl
  have hwide : h.type.isWide = c.source.isWide := by rw [hsource]; rfl
  have hnotString : ∀ k ∈ plainKinds, k ≠ .string := by decide
  obtain ⟨hok, happly⟩ := bits_of_fold htag (hnotString _ hfrom) (hnotString _ hto) hfold
  have hdirect : Direct c :=
    ⟨hfrom, hto, hclass, Conversion.ne_fixedToInt_of_applyToBits hfrom hto hclass happly⟩
  have hbits := Literal.bits_fits hdirect.source hok
  have hresult := Conversion.onBits_eq_applyToBits hdirect hbits hfits happly
  obtain ⟨ds, hliteral⟩ := perform_lowerExpr_literal (p := p) (s := s) (h := h) (v := v)
    (hkind ▸ hdirect.source) (hkind ▸ hok)
  rw [hkind, hwide] at hliteral
  have hload := Does.after hliteral (.reporting s ds)
    (loadConstant_does (v.bits c.source).1 _ hbits.1)
  have hall := hload.bind fun s₁ hs₁ =>
      (store_does (p := p) (s := s₁) address c.source.isWide).bind fun s₂ hs₂ =>
    converted_variable_does (p := p) (s := s₂) (h := h') hdirect hcast hsymbol (htype.trans hsource)
      (by rw [hs₂.constants, hs₁.constants, hlookup])
        (hs₂.allocator.lookup? (hs₁.allocator.lookup? haddress))
  unfold storeAndConvert
  rw [hwide]
  refine hall.mono ?_
  rintro code a b ⟨m, hload, n, hstore, hconvert⟩ hspares u
  obtain ⟨u₁, hpath₁, hu₁⟩ := hload u
  have hpath₂ := hstore hspares u₁
  obtain ⟨w, hpath₃, hw⟩ := hconvert (u₁.storeAt address c.source.isWide)
  refine ⟨w, (hpath₁.reaches.andThen hpath₂).andThen hpath₃.reaches, ?_⟩
  rw [hw, View.stored_storeAt u₁, hu₁, hresult]

/-- A program with one variable, a signed byte. -/
def signedByte : Program := { symbols := .of [{ name := Text.bytesOf "b", type := .i8 }] }

/-- The state in which the first symbol has an address. -/
def placed (address : UInt16) : Emission :=
  { workspace := { target := .c64 }
    allocator := { Allocator.ofTarget .c64 with slots := #[⟨1, [], address, 1⟩] }
    reports := .filtering (.ofLimit 0) }

theorem signedByte_leaves_folded : Does
    (storeAndConvert { type := .i8 } { int := -5 } 0xC000 {} 1
      ⟨.i8, .fixed, .intToFixed, false⟩ false)
    signedByte (placed 0xC000) fun code a b =>
      code.Spares 0xC000 false → ∀ u, ∃ w, code.Reaches 0 a u b w ∧ w.value true = 0xFFB0 := by
  have hfold := perform_fold (p := signedByte) (s := placed 0xC000)
    (x := .literal { type := .i8 } { int := -5 })
    (c := ⟨.i8, .fixed, .intToFixed, false⟩) rfl rfl (by decide) (by decide) (by decide)
  have hbits : Conversion.applyToBits ⟨.i8, .fixed, .intToFixed, false⟩
      (Literal.bits .i8 { int := -5 }).1 =
      some 0xFFB0 := by decide
  rw [hbits] at hfold
  exact storeAndConvert_leaves_folded rfl (by decide) (by decide) (by decide) rfl nofun hfold
    (fun _ => by decide) rfl rfl rfl rfl

end Lowering

end Breadbin
