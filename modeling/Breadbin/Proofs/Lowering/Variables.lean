import Breadbin.Proofs.Lowering.Deeds
import Breadbin.Proofs.Machine.Storing

/-!
# Values and variables

Values lie in A, or in A and X; they are converted, loaded and stored.
-/

/-!
## What conversions do

A value lies in A, or with its high byte in X.  The code of a conversion among integers, truth
values and fixed-point numbers leaves what `Conversion.onBits` makes of its bits.
-/

namespace Breadbin

/-- What the code of a conversion makes of the bits of a value: a wider kind takes the whole number,
a narrower one its low byte, and an integer becomes a fixed-point number by a shift that loses what
is too high. -/
def Conversion.onBits (c : Conversion) (bits : UInt16) : UInt16 :=
  match c.kind with
  | .zeroExtend | .signExtend => UInt16.ofInt (valueOfBits bits c.source)
  | .truncate => bits &&& 0xFF
  | .toBool => Literal.boolBits (bits ≠ 0)
  | .intToFixed => UInt16.ofInt (16 * valueOfBits bits c.source)
  | _ => bits

/-- A word is known by its residue. -/
theorem eq_ofInt {n : UInt16} {i : Int} (h : (n.toNat : Int) = i % 65536) : n = UInt16.ofInt i := by
  apply UInt16.toNat_inj.1
  have := toNat_uint16_ofInt i
  omega

namespace Machine

open Assembly

/-- The value in A, or in A and X. -/
def View.value (v : View) (wide : Bool) : UInt16 :=
  if wide then Cpu.wordOf v.a v.x else v.a.toUInt16

theorem View.toNat_value (v : View) (wide : Bool) :
    (v.value wide).toNat = if wide then v.a.toNat + 256 * v.x.toNat else v.a.toNat := by
  cases wide with
  | true => exact LinkedCode.toNat_wordOf v.a v.x
  | false => exact UInt8.toNat_toUInt16 v.a

end Machine

namespace Lowering

open Assembly Machine ZeroPage

/-- The code goes through to its end, changes only some slots and the stack so far down, and what
holds of the views at its ends is `R`. -/
def Computes (d : Nat) (zs : List UInt8) (R : View → View → Prop) : Deed :=
  fun code a b => ∀ v, ∃ w, code.Path d zs a v b w ∧ R v w

section

variable {p : Program} {s : Emission} {code : LinkedCode} {a b m : Nat} {d : Nat} {zs : List UInt8}
  {R R' : View → View → Prop}

theorem Computes.andThen (h : Computes d zs R code a m) (h' : Computes d zs R' code m b) :
    Computes d zs (fun v w => ∃ u, R v u ∧ R' u w) code a b := by
  intro v
  obtain ⟨u, hpath, hu⟩ := h v
  obtain ⟨w, hpath', hw⟩ := h' u
  exact ⟨w, hpath.trans hpath', u, hu, hw⟩

theorem Computes.imp (h : Computes d zs R code a b) (hR : ∀ v w, v.Frame d zs w → R v w → R' v w) :
    Computes d zs R' code a b := by
  intro v
  obtain ⟨w, hpath, hw⟩ := h v
  exact ⟨w, hpath, hR v w hpath.frame hw⟩

theorem Computes.widen {e : Nat} {more : List UInt8} (h : Computes d zs R code a b) (hd : d ≤ e)
    (hslots : zs ⊆ more) : Computes e more R code a b := by
  intro v
  obtain ⟨w, hpath, hw⟩ := h v
  exact ⟨w, hpath.mono hd hslots, hw⟩

/-- Instructions one after the other. -/
theorem Computes.of_lines {ls : List Line} (h : Lines ls code a b)
    (hexec : ∀ v, ∃ w, LinkedCode.execAll v ls = some w ∧ R v w) (hlevel : ls.all isLevel = true)
    (hslots : ls.flatMap slots ⊆ zs) : Computes d zs R code a b := by
  intro v
  obtain ⟨w, hw, hR⟩ := hexec v
  exact ⟨w, h.path hw hlevel hslots, hR⟩

/-- Straight code is executed line by line. -/
theorem Does.computes (act : Lower Unit) [hact : Straight act]
    (hexec : ∀ v, ∃ w, LinkedCode.execAll v hact.lines = some w ∧ R v w)
    (hlevel : hact.lines.all isLevel = true)
    (hslots : hact.lines.flatMap slots ⊆ zs) : Does act p s (Computes d zs R) :=
  (Does.straight act).mono fun _ _ _ h => .of_lines h hexec hlevel hslots

end

variable {p : Program} {s : Emission}

/-! ### Widening -/

/-- The sign of the byte in A is spread over X. -/
theorem signExtend_path {code : LinkedCode} {a b : Nat} {positive : LabelId}
    (h : Lines [.instr .cmp (.immediate 0x80), .instr .bcc (.relative positive),
      .instr .dex .implied, .bound positive] code a b) (v : View) (hx : v.x = 0) :
    ∃ w, code.Path 0 [] a v b w ∧ w.a = v.a ∧ w.x = if isNegative v.a then 0xFF else 0 := by
  obtain ⟨m, hcompare, h⟩ := h.cons
  obtain ⟨n, hbranch, h⟩ := h.cons
  obtain ⟨e, hdex, h⟩ := h.cons
  obtain ⟨hpositive, rfl⟩ := h.bound
  have hfirst : code.Path 0 [] a v m (v.compare v.a 0x80) := hcompare.path rfl rfl (by decide)
  by_cases hneg : isNegative v.a = true
  · have hskipped : code.Path 0 [] m (v.compare v.a 0x80) n (v.compare v.a 0x80) :=
      (hbranch.branch_skipped (v := v.compare v.a 0x80) hpositive
        (congrArg (fun on => some (!on)) hneg)).path
    refine ⟨_, (hfirst.trans hskipped).trans (hdex.path rfl rfl (by decide)), rfl, ?_⟩
    simp [hneg, hx]
    rfl
  · have htaken : code.Path 0 [] m (v.compare v.a 0x80) b (v.compare v.a 0x80) :=
      (hbranch.branch_taken (v := v.compare v.a 0x80) hpositive
        (congrArg (fun on => some (!on)) (Bool.eq_false_iff.2 hneg))).path
    refine ⟨_, hfirst.trans htaken, rfl, ?_⟩
    simp [hneg, hx]

theorem extend_does {k : Kind} (hk : k.isIntegral = true) :
    Does (extend k) p s (Computes 0 [] fun v w =>
    w.value true = UInt16.ofInt (Conversion.valueOfBits (v.value k.isWide) k)) := by
  have hunsigned (hbyte : k = .u8 ∨ k = .bool) : Does (extend k) p s (Computes 0 [] fun v w =>
      w.value true = UInt16.ofInt (Conversion.valueOfBits (v.value k.isWide) k)) := by
    have hact : extend k = imm .ldx 0 := by rcases hbyte with rfl | rfl <;> rfl
    rw [hact]
    refine Does.computes (imm .ldx 0) (fun v => ⟨_, rfl, ?_⟩) rfl (by decide)
    have hlt := v.a.toNat_lt
    have hvalue : Conversion.valueOfBits (v.value k.isWide) k = v.a.toNat % 256 := by
      rcases hbyte with rfl | rfl <;>
        exact congrArg (fun n : Nat => (n : Int) % 256) (UInt8.toNat_toUInt16 v.a)
    refine eq_ofInt ?_
    rw [View.toNat_value, hvalue]
    show ((v.a.toNat + 256 * 0 : Nat) : Int) = _
    omega
  have hwide (hword : k = .u16 ∨ k = .i16) : Does (extend k) p s (Computes 0 [] fun v w =>
      w.value true = UInt16.ofInt (Conversion.valueOfBits (v.value k.isWide) k)) := by
    have hact : extend k = pure () := by rcases hword with rfl | rfl <;> rfl
    rw [hact]
    refine Does.computes (pure ()) (fun v => ⟨v, rfl, ?_⟩) rfl (by decide)
    have hlt := (v.value true).toNat_lt
    refine eq_ofInt ?_
    rcases hword with rfl | rfl
    · show ((v.value true).toNat : Int) = ((v.value true).toNat : Int) % 65536
      omega
    · show ((v.value true).toNat : Int) = ((v.value true).toNat : Int).bmod 65536 % 65536
      rw [Int.bmod_def]
      split <;> omega
  cases k with
  | u8 => exact hunsigned (.inl rfl)
  | bool => exact hunsigned (.inr rfl)
  | u16 => exact hwide (.inl rfl)
  | i16 => exact hwide (.inr rfl)
  | i8 =>
    refine ((Does.straight (imm .ldx 0)).bind fun s' _ =>
      Does.label fun positive s'' _ => Does.straight (do
      imm .cmp 0x80; branchTo .bcc positive; op .dex; place positive)).mono ?_
    rintro code a b ⟨m, hclear, positive, hextend⟩ v
    have hfirst : code.Path 0 [] a v m (v.setX 0) := hclear.path rfl rfl (by decide)
    obtain ⟨w, hpath, ha, hx⟩ := signExtend_path hextend (v.setX 0) rfl
    refine ⟨w, hfirst.trans hpath, ?_⟩
    have hlt := v.a.toNat_lt
    replace ha : w.a = v.a := ha
    replace hx : w.x = if isNegative v.a then 0xFF else 0 := hx
    refine eq_ofInt ?_
    rw [View.toNat_value, ha, hx]
    show ((v.a.toNat + 256 * (if isNegative v.a then (0xFF : UInt8) else 0).toNat : Nat) : Int) =
      ((v.a.toUInt16.toNat : Int).bmod 256) % 65536
    rw [UInt8.toNat_toUInt16, Int.bmod_def]
    by_cases hneg : 128 ≤ v.a.toNat <;> simp [isNegative, hneg] <;> omega
  | invalid | void | fixed | float | string | unknown => cases hk

/-! ### Truth values -/

theorem View.value_eq_zero (v : View) (wide : Bool) :
    v.value wide = 0 ↔ v.a.toNat = 0 ∧ (wide = true → v.x.toNat = 0) := by
  rw [← UInt16.toNat_inj, View.toNat_value, UInt16.toNat_zero]
  cases wide <;> simp

/-- What is not zero becomes one. -/
theorem one_path {code : LinkedCode} {a b : Nat} {done : LabelId}
    (h : Lines [.instr .beq (.relative done), .instr .lda (.immediate 1), .bound done] code a b)
    (v : View) (hzero : v.zero = (v.a == 0)) :
    ∃ w, code.Path 0 [] a v b w ∧ w.a = if v.a = 0 then 0 else 1 := by
  obtain ⟨m, hbranch, h⟩ := h.cons
  obtain ⟨n, hload, h⟩ := h.cons
  obtain ⟨hdone, rfl⟩ := h.bound
  by_cases ha : v.a = 0
  · have htaken : v.takes? .beq = some true := by
      rw [View.takes?, hzero, ha]
      rfl
    exact ⟨v, (hbranch.branch_taken hdone htaken).path, by rw [if_pos ha, ha]⟩
  · have hskipped : v.takes? .beq = some false := by
      rw [View.takes?, hzero, beq_eq_false_iff_ne.2 ha]
    have hpath : code.Path 0 [] a v m v := (hbranch.branch_skipped hdone hskipped).path
    exact ⟨_, hpath.trans (hload.path rfl rfl (by decide)), (if_neg ha).symm⟩

theorem toBool_does {k : Kind} (hk : k ≠ .float) :
    Does (toBool k) p s (Computes 0 [scratch] fun v w =>
    w.a = if v.value k.isWide = 0 then 0 else 1) := by
  -- the test of the value, and what is left of it in A
  have htest (wide : Bool) (ls : List Line)
      (hls : ls = if wide then [.instr .stx (.zeroPage scratch), .instr .ora (.zeroPage scratch)]
        else [.instr .cmp (.immediate 0)]) (code : LinkedCode) (a m b : Nat) (done : LabelId)
      (htest : Lines ls code a m)
        (hone : Lines [.instr .beq (.relative done), .instr .lda (.immediate 1), .bound done]
          code m b) (v : View) :
      ∃ w, code.Path 0 [scratch] a v b w ∧ w.a = if v.value wide = 0 then 0 else 1 := by
    obtain ⟨u, hpath, hzero, hu⟩ : ∃ u, code.Path 0 [scratch] a v m u ∧ u.zero = (u.a == 0) ∧
        (u.a = 0 ↔ v.value wide = 0) := by
      cases wide with
      | true =>
        subst hls
        refine ⟨_, htest.path rfl rfl (by decide), by simp, ?_⟩
        rw [View.value_eq_zero]
        simp [eq_zero_iff]
      | false =>
        subst hls
        refine ⟨_, htest.path rfl rfl (by decide), by simp, ?_⟩
        rw [View.value_eq_zero]
        simp [eq_zero_iff]
    obtain ⟨w, hpath', hw⟩ := one_path hone u hzero
    exact ⟨w, hpath.trans (hpath'.mono (Nat.le_refl 0) (by simp)), by simp only [hw, hu]⟩
  have hrest (done : LabelId) (s : Emission) :=
    Does.straight (p := p) (s := s) (do branchTo .beq done; imm .lda 1; place done)
  cases hwide : k.isWide with
  | true =>
    have hact : toBool k = newLabel "bool" >>= fun done =>
        (do zp .stx scratch; zp .ora scratch) >>= fun _ => (do
        branchTo .beq done; imm .lda 1; place done) := by
      simp only [toBool, if_neg hk, hwide, if_true, bind_assoc]
    rw [hact]
    refine (Does.label fun done s₁ _ => (Does.straight _).bind fun s₂ _ => hrest done s₂).mono ?_
    rintro code a b ⟨done, m, hfirst, hlast⟩
    exact htest true _ rfl code a m b done hfirst hlast
  | false =>
    have hact : toBool k = newLabel "bool" >>= fun done => testA >>= fun _ => (do
        branchTo .beq done; imm .lda 1; place done) := by
      simp only [toBool, if_neg hk, hwide, Bool.false_eq_true, if_false]
    rw [hact]
    refine (Does.label fun done s₁ _ => (Does.straight _).bind fun s₂ _ => hrest done s₂).mono ?_
    rintro code a b ⟨done, m, hfirst, hlast⟩
    exact htest false _ rfl code a m b done hfirst hlast

/-! ### Fixed-point numbers -/

/-- Doubling a word so many times. -/
theorem doublings_word (z : UInt8) (n : Nat) (v : View) :
    ∃ w, LinkedCode.execAll v
        (List.replicate n [.instr .asl (.zeroPage z), .instr .rol (.zeroPage (z + 1))]).flatten =
          some w ∧
      w.word z = 2 ^ n * v.word z % 65536 := by
  induction n generalizing v with
  | zero => exact ⟨v, rfl, by have := v.word_lt z; omega⟩
  | succ n ih =>
    obtain ⟨u, hu, hword, -⟩ := shiftLeft_word v z
    obtain ⟨w, hw, hrest⟩ := ih u
    refine ⟨w, ?_, ?_⟩
    · rw [List.replicate_succ, List.flatten_cons, LinkedCode.execAll_append, hu]
      exact hw
    · rw [hrest, hword, Nat.mul_mod_mod, Nat.pow_succ, Nat.mul_assoc]

theorem storeSlot_computes (z : UInt8) :
    Does (storeSlot z true) p s (Computes 0 [z, z + 1] fun v w =>
    w.word z = (v.value true).toNat) := by
  refine Does.computes _ (fun v => ⟨_, rfl, ?_⟩) rfl (by intro; simp [Straight.lines, slots])
  rw [View.toNat_value]
  simp [View.word]

theorem loadSlot_computes (z : UInt8) : Does (loadSlot z true) p s (Computes 0 [] fun v w =>
    (w.value true).toNat = v.word z) := by
  refine Does.computes _ (fun v => ⟨_, rfl, ?_⟩) rfl (by intro; simp [Straight.lines, slots])
  rw [View.toNat_value]
  rfl

theorem intToFixed_does {k : Kind} (hk : k.isIntegral = true) : Does (intToFixed k) p s
    (Computes 0 [scratch, scratch + 1] fun v w =>
      w.value true = UInt16.ofInt (16 * Conversion.valueOfBits (v.value k.isWide) k)) := by
  have hshift (s : Emission) : Does (times 4 do zp .asl scratch; zp .rol (scratch + 1)) p s
      (Computes 0 [scratch, scratch + 1] fun v w => w.word scratch = 16 * v.word scratch % 65536) :=
    Does.computes _ (doublings_word scratch 4) rfl (by decide)
  have hdeeds := (extend_does (p := p) (s := s) hk).bind fun s₁ _ =>
    (storeSlot_computes (p := p) (s := s₁) scratch).bind fun s₂ _ =>
      (hshift s₂).bind fun s₃ _ => loadSlot_computes (p := p) (s := s₃) scratch
  refine Does.mono (x := intToFixed k) hdeeds ?_
  rintro code a b ⟨m₁, hextend, m₂, hstore, m₃, hdouble, hload⟩
  have hnone : [] ⊆ [scratch, scratch + 1] := List.nil_subset _
  refine ((hextend.widen (Nat.le_refl 0) hnone).andThen (hstore.andThen (hdouble.andThen
    (hload.widen (Nat.le_refl 0) hnone)))).imp ?_
  rintro v w - ⟨v₁, hv₁, v₂, hv₂, v₃, hv₃, hw⟩
  refine eq_ofInt ?_
  have hvalue := congrArg (fun n : UInt16 => (n.toNat : Int)) hv₁
  simp only [toNat_uint16_ofInt] at hvalue
  omega

/-! ### Conversions -/

/-- Integers, truth values and fixed-point numbers. -/
def plainKinds : List Kind := [.u8, .i8, .u16, .i16, .bool, .fixed]

/-- What kinds a conversion among plain kinds is between, by the code it is lowered to. -/
def fitsCode (source target : Kind) : ConversionKind → Bool
  | .none | .reinterpret => source.isWide == target.isWide
  | .zeroExtend | .signExtend => source.isIntegral && target.isWide && target.isInteger
  | .truncate => source.isWide && source.isInteger && !target.isWide && target.isInteger
  | .toBool => source != .bool && target == .bool
  | .intToFixed => source.isIntegral && target == .fixed
  | .fixedToInt => source == .fixed && target.isInteger
  | _ => false

theorem fitsCode_classify : ∀ source ∈ plainKinds, ∀ target ∈ plainKinds,
    fitsCode source target (Conversion.classify source target) = true := by decide

/-- A conversion among plain kinds. -/
structure Direct (c : Conversion) : Prop where
  source : c.source ∈ plainKinds
  target : c.target ∈ plainKinds
  kind : c.kind = Conversion.classify c.source c.target
  /-- only strings and routines are left out otherwise -/
  floors : c.kind ≠ .fixedToInt

theorem Direct.fits {c : Conversion} (h : Direct c) : fitsCode c.source c.target c.kind = true :=
  h.kind ▸ fitsCode_classify c.source h.source c.target h.target

/-- Code that does nothing leaves the value as it is. -/
theorem pure_computes (zs : List UInt8) : Does (pure ()) p s (Computes 0 zs fun v w => w = v) :=
  Does.computes (pure ()) (fun v => ⟨v, rfl, rfl⟩) rfl (List.nil_subset zs)

theorem convert_eq {c : Conversion} {inCast : Bool} (hkind : c.kind ≠ .invalid)
    (hcast : c.explicit = true → inCast = true)
    (span : Span) : convert c inCast span = convert { c with explicit := false } true span := by
  have hallowed : (c.explicit && !inCast) = false := by
    cases he : c.explicit with
    | true => simp [hcast he]
    | false => rfl
  simp only [convert, hkind, hallowed]
  rfl

theorem convert_does {c : Conversion} (hc : Direct c) {inCast : Bool}
    (hcast : c.explicit = true → inCast = true)
    (span : Span) : Does (convert c inCast span) p s (Computes 0 [scratch, scratch + 1] fun v w =>
      w.value c.target.isWide = c.onBits (v.value c.source.isWide)) := by
  have hfits := hc.fits
  have hnone : [] ⊆ [scratch, scratch + 1] := List.nil_subset _
  rcases c with ⟨source, target, kind, explicit⟩
  rw [convert_eq (by rintro rfl; cases hfits) hcast]
  cases kind <;> simp only [fitsCode, Bool.and_eq_true, beq_iff_eq, bne_iff_ne, Bool.not_eq_true',
    reduceCtorEq] at hfits
  case none | reinterpret =>
    refine (pure_computes _).mono fun code a b h => h.imp ?_
    rintro v w - rfl
    exact congrArg _ hfits.symm
  case truncate =>
    obtain ⟨⟨⟨hsource, -⟩, htarget⟩, -⟩ := hfits
    refine (pure_computes _).mono fun code a b h => h.imp ?_
    rintro v w - rfl
    show w.value target.isWide = w.value source.isWide &&& 0xFF
    rw [hsource, htarget]
    apply UInt16.toNat_inj.1
    have hlt := w.a.toNat_lt
    have hand : (w.value true &&& 0xFF).toNat = (w.value true).toNat % 256 := by
      rw [UInt16.toNat_and]
      exact Nat.and_two_pow_sub_one_eq_mod _ 8
    rw [hand, View.toNat_value, View.toNat_value]
    simp only [Bool.false_eq_true, if_false, if_true]
    omega
  case zeroExtend | signExtend =>
    obtain ⟨⟨hsource, htarget⟩, -⟩ := hfits
    refine (extend_does hsource).mono fun code a b h => (h.widen (Nat.le_refl 0) hnone).imp ?_
    rintro v w - hw
    show w.value target.isWide = _
    rw [htarget]
    exact hw
  case toBool =>
    obtain ⟨hsource, rfl⟩ := hfits
    have hfloat : source ≠ .float := by
      rintro rfl
      exact absurd (show Kind.float ∈ plainKinds from hc.source) (by decide)
    refine (toBool_does hfloat).mono fun code a b h => (h.widen (Nat.le_refl 0) (by simp)).imp ?_
    rintro v w - hw
    show w.a.toUInt16 = Literal.boolBits (v.value source.isWide ≠ 0)
    rw [hw]
    by_cases hzero : v.value source.isWide = 0
    · simp [hzero, Literal.boolBits]
    · simp [hzero, Literal.boolBits]
  case intToFixed =>
    obtain ⟨hsource, rfl⟩ := hfits
    exact (intToFixed_does hsource).mono fun code a b h => h
  case fixedToInt => exact absurd rfl hc.floors

end Lowering

end Breadbin

/-!
## Loading and storing variables

A variable lies anywhere in the memory, apart from the code.  Loading it gives the value that was
stored last, and storing changes nothing else in the memory.
-/

namespace Breadbin

/-- What has an address keeps it. -/
theorem Allocator.Grows.lookup? {a a' : Allocator} (h : a.Grows a') {id : SymbolId}
    {address : UInt16} (haddress : a.lookup? id = some address) : a'.lookup? id = some address := by
  obtain ⟨later, hlater⟩ := h.slots
  obtain ⟨slot, hslot, haddr⟩ := Option.map_eq_some_iff.1 haddress
  have hfound : a'.slots.find? (fun s => s.symbol == id) = some slot := by
    rw [← Array.find?_toList] at hslot ⊢
    rw [← hlater, List.find?_append, hslot]
    rfl
  rw [Allocator.lookup?, hfound, Option.map_some, haddr]

namespace Machine

open Assembly

/-- The value at an address. -/
def View.stored (v : View) (address : UInt16) (wide : Bool) : UInt16 :=
  if wide then Cpu.wordOf (v.peek address) (v.peek (address + 1)) else (v.peek address).toUInt16

/-- The value in A, or in A and X, is stored at an address. -/
def View.storeAt (v : View) (address : UInt16) (wide : Bool) : View :=
  if wide then (v.write address v.a).write (address + 1) v.x else v.write address v.a

/-- The bytes of a value are no part of the code. -/
def LinkedCode.Spares (code : LinkedCode) (address : UInt16) (wide : Bool) : Prop :=
  ∀ other, Within address wide other → ¬code.Covers other.toNat

namespace View

variable (v : View) (address : UInt16) (wide : Bool)

/-- What was stored is there. -/
theorem stored_storeAt : (v.storeAt address wide).stored address wide = v.value wide := by
  cases wide with
  | true =>
    have hlow : ((v.write address v.a).write (address + 1) v.x).peek address = v.a := by
      rw [peek_write_of_ne _ _ _ (next_ne address).symm, peek_write_self]
    simp only [stored, storeAt, value, if_true, hlow, peek_write_self]
  | false => simp [stored, storeAt, value, peek_write_self]

/-- The rest of the memory is as it was. -/
theorem peek_storeAt {other : UInt16} (h : ¬Within address wide other) :
    (v.storeAt address wide).peek other = v.peek other := by
  obtain ⟨hne, hnext⟩ := not_or.1 h
  cases wide with
  | true =>
    have hne' : other ≠ address + 1 := fun heq => hnext ⟨rfl, heq⟩
    simp only [storeAt, if_true]
    rw [peek_write_of_ne _ _ _ hne', peek_write_of_ne _ _ _ hne]
  | false => exact peek_write_of_ne _ _ _ hne

end View

/-- Code without slots of its own leaves the memory alone. -/
theorem View.Frame.peek {v w : View} (h : v.Frame 0 [] w) (address : UInt16) :
    w.peek address = v.peek address := by
  have hzp : w.zp = v.zp := funext fun i => h.zp i List.not_mem_nil
  have hstack : w.stack = v.stack := funext fun i => h.stack i (Nat.zero_le _)
  rw [View.peek, View.peek, hzp, hstack, h.main]

end Machine

namespace Lowering

open Assembly Machine

variable {p : Program} {s : Emission}

/-- Reading a byte at a fixed address. -/
theorem peek_path {code : LinkedCode} {a b : Nat} {mn : Mnemonic} {address : UInt16} {v w : View}
    (h : Lines [.instr mn (.absolute (.fixed address))] code a b)
    (hexec : v.takeIn? (v.peek address) mn = some w)
    (hframe : v.Frame 0 [] w) : code.Path 0 [] a v b w := by
  refine ⟨(h.takeIn ?_ hexec).mono (Nat.zero_le 1), hframe⟩
  show (code.address? v (.absolute (.fixed address))).map v.peek = _
  rw [LinkedCode.address?_fixed]
  rfl

/-- Loading a value. -/
theorem load_does (address : UInt16) (wide : Bool) : Does (load (.fixed address) wide) p s
    (Computes 0 [] fun v w => w.value wide = v.stored address wide) := by
  refine (Does.straight (load (.fixed address) wide)).mono fun code a b h v => ?_
  have hframe (v w : View) (hsp : w.sp = v.sp) (hmain : w.main = v.main)
      (hstack : w.stack = v.stack)
      (hzp : w.zp = v.zp) : v.Frame 0 [] w := .of_eq hsp hmain hstack fun i _ => congrFun hzp i
  cases wide with
  | false =>
    refine ⟨v.setA (v.peek address), peek_path h rfl (hframe _ _ rfl rfl rfl rfl), ?_⟩
    simp [View.value, View.stored]
  | true =>
    obtain ⟨m, hlow, hhigh⟩ := h.split [_]
    have hlow := peek_path hlow (v := v) rfl (hframe _ _ rfl rfl rfl rfl)
    exact ⟨_, hlow.trans (peek_path hhigh rfl (hframe _ _ rfl rfl rfl rfl)), rfl⟩

/-- Storing a value. -/
theorem store_does (address : UInt16) (wide : Bool) :
    Does (store (.fixed address) wide) p s fun code a b =>
    code.Spares address wide → ∀ v, code.Reaches 0 a v b (v.storeAt address wide) := by
  refine (Does.straight (store (.fixed address) wide)).mono fun code a b h hspares v => ?_
  have hlow : ¬code.Covers address.toNat := hspares address (.inl rfl)
  cases wide with
  | false => exact (h.write rfl (code.address?_fixed v address) hlow).mono (Nat.zero_le 1)
  | true =>
    obtain ⟨m, hfirst, hlast⟩ := h.split [_]
    have hfirst := hfirst.write (v := v) rfl (code.address?_fixed v address) hlow
    have hlast := hlast.write (v := v.write address v.a) rfl (code.address?_fixed _ (address + 1))
      (hspares (address + 1) (.inr ⟨rfl, rfl⟩))
    simp only [View.write_x] at hlast
    exact hfirst.andThen hlast

/-- The value of a variable is loaded. -/
theorem perform_lowerValue_variable {h : ExprHead} {id : SymbolId} {sym : Symbol} {address : UInt16}
    (hlookup : s.constants.lookup id = none) (hsymbol : p.symbol? id = some sym)
    (hscalar : sym.type.isArray = false) (haddress : s.allocator.lookup? id = some address) :
    perform (lowerValue (.var h id)) p s = perform (load (.fixed address) sym.type.isWide) p s := by
  have hsym : perform (symbol id) p s = (.ok sym, s) := by
    unfold symbol
    rw [perform_read_bind, hsymbol]
    rfl
  have href : perform (symbolRef id) p s = (.ok (.fixed address), s) := by
    unfold symbolRef
    rw [perform_get_bind, haddress]
    rfl
  unfold lowerValue
  rw [perform_read_bind]
  unfold valueWith lowerVariable
  rw [perform_get_bind, hlookup]
  dsimp only
  rw [perform_bind_ok hsym, perform_bind_ok href, hscalar]
  rfl

end Lowering

end Breadbin
