import Breadbin.Lowering.Call
import Breadbin.Proofs.Lowering.Elements
import Breadbin.Proofs.Lowering.Folding
import Breadbin.Proofs.Lowering.Running

/-!
# Numbers that are drawn from a range

The ends of a range are evaluated in the type of the number that is drawn, widened to words and
handed to the routine that draws.  Of what it returns a byte keeps the lower one only; as the ends
are numbers of the type, so is what lies between them.  The library that is linked behind the code
has the routine at its label.
-/

namespace Breadbin.Lowering

open Assembly Machine ZeroPage

/-! ## Numbers as words -/

/-- The kinds of numbers that are drawn. -/
def drawnKinds : List Kind := [.u8, .u16, .i8, .i16]

/-- The least number that a word of a kind stands for. -/
def lowest (k : Kind) : ℤ := if k = .i8 ∨ k = .i16 then -32768 else 0

/-- The numbers of a kind have a word each. -/
theorem range_reading {k : Kind} (hk : k ∈ drawnKinds) :
    lowest k ≤ k.range.1 ∧ k.range.2 < lowest k + 65536 := by
  have hall : ∀ k ∈ drawnKinds, lowest k ≤ k.range.1 ∧ k.range.2 < lowest k + 65536 := by
    decide +kernel
  exact hall k hk

/-- The number that bits stand for is one of its kind. -/
theorem valueOfBits_range {k : Kind} (hk : k ∈ drawnKinds) (bits : UInt16) :
    k.range.1 ≤ Conversion.valueOfBits bits k ∧ Conversion.valueOfBits bits k ≤ k.range.2 := by
  have := bits.toNat_lt
  simp only [drawnKinds, List.mem_cons, List.not_mem_nil, or_false] at hk
  rcases hk with rfl | rfl | rfl | rfl
  · show 0 ≤ (bits.toNat : ℤ) % 256 ∧ (bits.toNat : ℤ) % 256 ≤ 0xFF
    omega
  · show 0 ≤ (bits.toNat : ℤ) ∧ (bits.toNat : ℤ) ≤ 0xFFFF
    omega
  · show -0x80 ≤ (bits.toNat : ℤ).bmod 256 ∧ (bits.toNat : ℤ).bmod 256 ≤ 0x7F
    rw [Int.bmod_def]
    split <;> omega
  · show -0x8000 ≤ (bits.toNat : ℤ).bmod 65536 ∧ (bits.toNat : ℤ).bmod 65536 ≤ 0x7FFF
    rw [Int.bmod_def]
    split <;> omega

/-- A number that is widened to a word is what the word is read as. -/
theorem reading_ofInt {k : Kind} (hk : k ∈ drawnKinds) (bits : UInt16) :
    Routine.reading (lowest k) (UInt16.ofInt (Conversion.valueOfBits bits k)) =
      Conversion.valueOfBits bits k := by
  obtain ⟨hlow, hhigh⟩ := range_reading hk
  obtain ⟨hlo, hhi⟩ := valueOfBits_range hk bits
  have hword := toNat_uint16_ofInt (Conversion.valueOfBits bits k)
  rw [Routine.reading, hword]
  omega

/-- A number between two of a kind is kept by the bits of the kind. -/
theorem valueOfBits_between {k : Kind} (hk : k ∈ drawnKinds) {lo hi : UInt16} {i : ℤ} {n : UInt16}
    (hlo : Conversion.valueOfBits lo k ≤ i) (hhi : i ≤ Conversion.valueOfBits hi k)
    (hn : (n.toNat : ℤ) = i % (if k.isWide then 65536 else 256)) :
    Conversion.valueOfBits n k = i := by
  have hinteger : k.isInteger = true := by
    have hall : ∀ k ∈ drawnKinds, k.isInteger = true := by decide
    exact hall k hk
  have hbits : n = Conversion.bitsOfInt i k.isWide := by
    have := Conversion.toNat_bitsOfInt i k.isWide
    rw [← UInt16.toNat_inj]
    omega
  rw [hbits]
  exact Conversion.valueOfBits_bitsOfInt hinteger ((valueOfBits_range hk lo).1.trans hlo)
    (hhi.trans (valueOfBits_range hk hi).2)
/-! ## Calls of routines -/

variable {p : Program} {s : Emission} {x y : Part} {t : Ty} {P Q : Deed}

/-- Code lies within memory. -/
theorem Does.within {act : Lower Unit} (h : Does act p s P) :
    Does act p s fun code a b => a < 0x10000 ∧ P code a b := by
  obtain ⟨s', ls, hperform, hwrites, hdeed⟩ := h
  exact ⟨s', ls, hperform, hwrites, fun code a b hcode hsupplies =>
    ⟨hcode.lt, hdeed code a b hcode hsupplies⟩⟩

/-- Code and a call of a routine behind it, with which numbers are drawn. -/
theorem perform_andCall {act : Lower Unit} {id : RoutineId} (hid : id ∈ drawing)
    (h : Does act p s P) :
    ∃ s' ls, perform (act >>= fun _ => callRoutine id) p s = (.ok (), s') ∧ s.Writes s' ls ∧
      ∀ code a c target, code.Installed a ls c → Supplies code s'.workspace →
        s'.workspace.Offers (Routine.conduct target) code drawing → ∃ b, P code a b ∧
          ∀ v, code.Intact v → (Routine.conduct target id).starts (v.call c) →
            ∃ w, code.Reaches 0 b v c w.drop.drop ∧
            (Routine.conduct target id).called.Keeps 0 v w.drop.drop ∧
              (Routine.conduct target id).ends (v.call c) w := by
  obtain ⟨s₁, ls, hperform, hwrites, hdeed⟩ := h
  obtain ⟨s₂, l, hcall, hwrites', hlabel⟩ := perform_callRoutine id p s₁
  refine ⟨s₂, ls ++ _, by rw [perform_bind_ok hperform, hcall], hwrites.trans hwrites', ?_⟩
  intro code a c target hcode hsupplies hoffers
  obtain ⟨b, hfirst, hjsr⟩ := hcode.split ls
  obtain ⟨address, hat, hstarts⟩ := hoffers id hid l hlabel
  refine ⟨b, hdeed code a b hfirst (hsupplies.of_grows hwrites'.grows), fun v hintact hready => ?_⟩
  exact hstarts.call (drawing_fits hid code) (Routine.conduct_depth target id) hat
    hjsr hintact hready

/-! ## The ends of a range -/

/-- The ends of a range become the operands of the routine that draws. -/
def rangeEnds (x y : Part) (t : Ty) : Lower Unit := do
  x.inType t
  extend t.kind
  push true
  y.inType t
  extend t.kind
  storeSlot intB true
  pop true
  storeSlot intA true

theorem drawFromRange_eq (x y : Part) (t : Ty) :
    drawFromRange x y t = rangeEnds x y t >>= fun _ => callRoutine .randomRange := by
  simp only [drawFromRange, rangeEnds, bind_assoc]

/-- The number in the accumulator, or in it and X, widened to a word. -/
def widened (k : Kind) (v : View) : UInt16 :=
  UInt16.ofInt (Conversion.valueOfBits (v.value k.isWide) k)

/-- Between the code of the first end and that of the second the first number is pushed; behind the
code of the second both are stored, however it came to its number. -/
theorem rangeEnds_does (ht : t.kind ∈ drawnKinds) (hx : ∀ s', s.Stays s' → Does (x.inType t) p s' P)
    (hy : ∀ s', s.Stays s' → Does (y.inType t) p s' Q) :
    Does (rangeEnds x y t) p s fun code a b => ∃ m n o, P code a m ∧ Q code n o ∧ o < 0x10000 ∧ ∀ u,
      ∃ v, code.Reaches 0 m u n v ∧
      v.main = u.main ∧ v.word seed = u.word seed ∧ ∀ e w, e ≤ 254 → v.Keeps e w →
        ∃ w', code.Reaches 0 o w b w' ∧
        u.Keeps (e + 2) w' ∧ w'.main = w.main ∧ w'.word intA = (widened t.kind u).toNat ∧
        w'.word intB = (widened t.kind w).toNat ∧ w'.word seed = w.word seed := by
  have hintegral : t.kind.isIntegral = true := by
    have hall : ∀ k ∈ drawnKinds, k.isIntegral = true := by decide
    exact hall t.kind ht
  refine ((hx s (Path.refl s)).bind fun s₁ h₁ => (extend_does hintegral).bind fun s₂ h₂ =>
      (push_does true).bind fun s₃ h₃ =>
    (hy s₃ (Path.trans h₁ (Path.trans h₂ h₃))).bind fun s₄ _ =>
        (extend_does hintegral).within.bind fun s₅ _ =>
    (storeSlot_computes intB).bind fun s₆ _ => (pop_does true).bind fun s₇ _ =>
      storeSlot_computes intA).mono ?_
  rintro code a b ⟨m, hfirst, m₂, hextend, n, hpush, o, hlast, m₅, ⟨hwithin, hextend'⟩, m₆, hstore,
    m₇, hpop, hstore'⟩
  refine ⟨m, n, o, hfirst, hlast, hwithin, fun u => ?_⟩
  obtain ⟨u₂, hpath₂, hlow⟩ := hextend u
  have hseed₂ : u₂.word seed = u.word seed := hpath₂.frame.word (by decide) (by decide)
  refine ⟨u₂.pushed true, hpath₂.reaches.andThen (hpush u₂),
    (u₂.pushed_main true).trans hpath₂.frame.main, hseed₂, fun e w he hkeeps => ?_⟩
  obtain ⟨w₅, hpath₅, hhigh⟩ := hextend' w
  obtain ⟨w₆, hpath₆, hword₆⟩ := hstore w₅
  have hkeeps₆ : (u₂.pushed true).Keeps e w₆ :=
    hkeeps.trans ((hpath₅.frame.keeps.trans hpath₆.frame.keeps).mono (Nat.zero_le e))
  obtain ⟨w₇, hreaches₇, hkeeps₇, hvalue₇, hmain₇, hzp₇⟩ := hpop u₂ w₆ e he hkeeps₆
  obtain ⟨w', hpath₈, hword₈⟩ := hstore' w₇
  have hslots₇ (z : UInt8) : w₇.word z = w₆.word z :=
    View.word_congr (congrFun hzp₇ z) (congrFun hzp₇ (z + 1))
  refine ⟨w', ?_, ?_, ?_, ?_, ?_, ?_⟩
  · exact hpath₅.reaches.andThen (hpath₆.reaches.andThen (hreaches₇.andThen hpath₈.reaches))
  · exact (hpath₂.frame.keeps.mono (Nat.zero_le _)).trans
      (hkeeps₇.trans (hpath₈.frame.keeps.mono (Nat.zero_le _)))
  · rw [hpath₈.frame.main, hmain₇, hpath₆.frame.main, hpath₅.frame.main]
  · rw [hword₈, hvalue₇, hlow, widened]
  · have hkept : w'.word intB = w₇.word intB := hpath₈.frame.word (by decide) (by decide)
    rw [hkept, hslots₇, hword₆, hhigh, widened]
  · have hkept : w'.word seed = w₇.word seed := hpath₈.frame.word (by decide) (by decide)
    have hkept₆ : w₆.word seed = w₅.word seed := hpath₆.frame.word (by decide) (by decide)
    rw [hkept, hslots₇, hkept₆]
    exact hpath₅.frame.word (by decide) (by decide)

/-! ## The number that is drawn -/

/-- The functions that draw from a range. -/
def rangeDraws : List Builtin := [.randByte, .randWord, .randSByte, .randSWord]

theorem kind_rangeDraws {b : Builtin} (hb : b ∈ rangeDraws) : b.result.kind ∈ drawnKinds := by
  have hall : ∀ b ∈ rangeDraws, b.result.kind ∈ drawnKinds := by decide
  exact hall b hb

theorem lowerBuiltin_draw {b : Builtin} (hb : b ∈ rangeDraws) (h : ExprHead) (x y : Part) :
    perform (lowerBuiltin h b [x, y]) p s = perform (drawFromRange x y b.result) p s := by
  simp only [rangeDraws, List.mem_cons, List.not_mem_nil, or_false] at hb
  rcases hb with rfl | rfl | rfl | rfl <;> rfl

/-- What is left of a word that is returned in the accumulator and X is what the kind keeps of its
number. -/
theorem valueOfBits_returned {k : Kind} (hk : k ∈ drawnKinds) {lo hi n : UInt16} {w : View}
    (hreturns : Routine.returnsWord intR w)
    (hn : UInt16.ofNat (w.word intR) = n)
    (hlo : Conversion.valueOfBits lo k ≤ Routine.reading (lowest k) n)
    (hhi : Routine.reading (lowest k) n ≤ Conversion.valueOfBits hi k) :
    Conversion.valueOfBits (w.value k.isWide) k = Routine.reading (lowest k) n := by
  refine valueOfBits_between hk hlo hhi ?_
  have := w.a.toNat_lt
  have := w.x.toNat_lt
  have hword : n.toNat = w.a.toNat + 256 * w.x.toNat := by
    rw [← hn, UInt16.toNat_ofNat', Nat.mod_eq_of_lt (w.word_lt intR), View.word,
      hreturns.1, hreturns.2]
  have hreading : Routine.reading (lowest k) n % 65536 = n.toNat := by
    have := n.toNat_lt
    rw [Routine.reading]
    omega
  rw [View.toNat_value]
  cases k.isWide <;> simp only [if_true, Bool.false_eq_true, if_false] <;> omega

/-- Between `m` and `n` the number that is held, `low`, is pushed.  From `o`, where another one is
held, `high`, the code goes on to `c`, and what it holds there lies between the two, if anything
does. -/
def Draws (k : Kind) (code : LinkedCode) (m n o c : ℕ) : Prop :=
  ∀ u, ∃ v, code.Reaches 0 m u n v ∧ v.main = u.main ∧ v.word seed = u.word seed ∧ ∀ e w, e ≤ 254 →
    v.Keeps e w → code.Intact w →
    ∃ w', code.Reaches 0 o w c w' ∧ u.Keeps (e + 4) w' ∧ w'.main = w.main ∧ Routine.advances w w' ∧
      (Conversion.valueOfBits (u.value k.isWide) k ≤ Conversion.valueOfBits (w.value k.isWide) k →
        Conversion.valueOfBits (u.value k.isWide) k ≤ Conversion.valueOfBits (w'.value k.isWide) k ∧
        Conversion.valueOfBits (w'.value k.isWide) k ≤ Conversion.valueOfBits (w.value k.isWide) k)

variable {target : Target} {b : Builtin}

/-- A function that draws from a range is lowered to the code of both ends and code that draws
between them, whatever code the ends have. -/
theorem lowerBuiltin_draws (hb : b ∈ rangeDraws) (h : ExprHead)
    (hx : ∀ s', s.Stays s' → Does (x.inType b.result) p s' P)
    (hy : ∀ s', s.Stays s' → Does (y.inType b.result) p s' Q) :
    ∃ s' ls, perform (lowerBuiltin h b [x, y]) p s = (.ok (), s') ∧ s.Writes s' ls ∧
      ∀ code a c target, code.Installed a ls c →
      Supplies code s'.workspace → s'.workspace.Offers (Routine.conduct target) code drawing →
      ∃ m n o, P code a m ∧ Q code n o ∧ Draws b.result.kind code m n o c := by
  have hk := kind_rangeDraws hb
  have hrange : RoutineId.randomRange ∈ drawing := by decide
  obtain ⟨s', ls, hperform, hwrites, hdeed⟩ := perform_andCall hrange (rangeEnds_does hk hx hy)
  refine ⟨s', ls, by
    rw [lowerBuiltin_draw hb, drawFromRange_eq, hperform], hwrites,
      fun code a c target hcode hsupplies hoffers => ?_⟩
  obtain ⟨q, ⟨m, n, o, hP, hQ, hwithin, hends⟩, hcall⟩ :=
    hdeed code a c target hcode hsupplies hoffers
  refine ⟨m, n, o, hP, hQ, fun u => ?_⟩
  obtain ⟨v, hpush, hmain, hseed, hrest⟩ := hends u
  refine ⟨v, hpush, hmain, hseed, fun e w he hkeeps hintact => ?_⟩
  obtain ⟨w₁, hreaches₁, hkeeps₁, hmain₁, hlow, hhigh, hseed₁⟩ := hrest e w he hkeeps
  obtain ⟨w₂, hreaches₂, hkept, hreturns, hadvances, hdrawn⟩ :=
    hcall w₁ (hreaches₁.intact hintact hwithin) trivial
  have hpushes : w₁.Keeps 4 w₂.drop.drop := ⟨by simpa using hkept.sp, hkept.stack⟩
  refine ⟨w₂.drop.drop, hreaches₁.andThen hreaches₂, ?_, ?_, ?_, fun hle => ?_⟩
  · exact (hkeeps₁.mono (by omega)).trans (hpushes.mono (by omega))
  · rw [← hmain₁]
    exact funext fun address => hkept.main address fun ⟨_, harea, _⟩ =>
      absurd harea List.not_mem_nil
  · exact hadvances.trans (congrArg (fun n => Routine.nextSeed (UInt16.ofNat n)) hseed₁)
  · change UInt16.ofNat (w₂.word intR) =
      Routine.rangeValue (Routine.nextSeed (Routine.seedOf w₁)) (UInt16.ofNat (w₁.word intA))
        (UInt16.ofNat (w₁.word intB)) at hdrawn
    rw [hlow, hhigh, UInt16.ofNat_toNat, UInt16.ofNat_toNat] at hdrawn
    have hbetween :=
      Routine.rangeValue_mem (lowest b.result.kind) (Routine.nextSeed (Routine.seedOf w₁))
        (widened b.result.kind u)
      (widened b.result.kind w)
    rw [← hdrawn, widened, widened, reading_ofInt hk, reading_ofInt hk] at hbetween
    obtain ⟨hlo, hhi⟩ := hbetween hle
    have hvalue : Conversion.valueOfBits (w₂.drop.drop.value b.result.kind.isWide) b.result.kind =
        Routine.reading (lowest b.result.kind) (UInt16.ofNat (w₂.word intR)) :=
          valueOfBits_returned hk hreturns rfl hlo hhi
    rw [hvalue]
    exact ⟨hlo, hhi⟩

/-- Linked with more code and the library behind it, the code draws between what its ends leave,
whatever that is. -/
theorem lowerBuiltin_draws_linked (hb : b ∈ rangeDraws) (h : ExprHead)
    (hx : ∀ s', s.Stays s' → Does (x.inType b.result) p s' P)
    (hy : ∀ s', s.Stays s' → Does (y.inType b.result) p s' Q)
    {before : List Line} (hbegun : Stream.Grows {} s.workspace.stream before) :
    ∃ s', perform (lowerBuiltin h b [x, y]) p s = (.ok (), s') ∧
      s'.workspace.emitted = s.workspace.emitted ∧
      ∀ w more, s'.workspace.Grows w more → w.emitted = [] →
        ∀ origin image, (Routine.emitLibrary w).2.stream.link origin = .ok image →
          Lies origin image →
          ∃ code : LinkedCode, code.origin = origin.toNat ∧ code.bytes = image.bytes.toList ∧
            ∃ a m n o b' c, a ≤ 0xFFFF ∧ (before = [] → a = code.origin) ∧ P code a m ∧ Q code n o ∧
              Draws b.result.kind code m n o b' ∧
              code.Installed b' more c := by
  obtain ⟨s', ls, hperform, hwrites, hdeed⟩ := lowerBuiltin_draws hb h hx hy
  refine ⟨s', hperform, hwrites.grows.emitted,
    fun w more hmore hemitted origin image hlink hlies => ?_⟩
  obtain ⟨code, horigin, hbytes, a, b', c, hentry, hcode, hinMore, hsupplies, hoffers⟩ :=
    hwrites.linked hbegun hmore hemitted hlink hlies
  obtain ⟨m, n, o, hfirst, hlast, hdraws⟩ := hdeed code a b' _ hcode hsupplies hoffers
  exact ⟨code, horigin, hbytes, a, m, n, o, b', c, Nat.le_of_lt_succ hcode.lt, hentry, hfirst,
    hlast, hdraws, hinMore⟩

/-! ## Calls that draw -/

section

attribute [local irreducible] Routine.emitLibrary

variable {scope : Scope} {place : SymbolId → UInt16} {before : List Line}

/-- Called from any registers and any memory in which truth values are 0 or 1, the code comes back
with the stack pointer as it was.  The generator has made one step, and A or A and X hold a number
between those that two expressions stand for, as the kind keeps them, if there is one. -/
def DrawsBetween (image : Image) (entry : UInt16) (scope : Scope) (place : SymbolId → UInt16)
    (low high : Expr) (k : Kind) : Prop :=
  ∀ c : Cpu, c.Carries image →
    (∀ id, scope id = some .bool → c.read (place id) = 0 ∨ c.read (place id) = 1) →
    ∃ n c', (∀ limit, limit = 0 ∨ n < limit → c.call entry limit = (c', none)) ∧ c'.sp = c.sp ∧
      Routine.advances c.view c'.view ∧
      (k.keep (low.number (scope.reading place c.read)) ≤
        k.keep (high.number (scope.reading place c.read)) →
        k.keep (low.number (scope.reading place c.read)) ≤
            Conversion.valueOfBits (if k.isWide then Cpu.wordOf c'.a c'.x else c'.a.toUInt16) k ∧
          Conversion.valueOfBits (if k.isWide then Cpu.wordOf c'.a c'.x else c'.a.toUInt16) k ≤
            k.keep (high.number (scope.reading place c.read)))

/-- The code of an end leaves its number in the type of the number that is drawn. -/
theorem rangeEnd_evaluates {e : Expr} {i : Kind} (hb : b ∈ rangeDraws) (he : e.Scalar scope i)
    (himplicit : Conversion.isImplicit i b.result.kind = true) (hplaced : scope.Placed p s place)
    (hroom : e.depth ≤ 256) :
    Does (Part.inType ⟨e, valueWith (constantIn p) e⟩ b.result) p s
      (Evaluates scope place e.depth valueSlots b.result.kind
      fun vars => b.result.kind.keep (e.number vars)) := by
  have hscalar : ∀ b ∈ rangeDraws, b.result.kind.isIntegral = true ∧
    b.result = .scalar b.result.kind := by decide
  obtain ⟨hintegral, hresult⟩ := hscalar b hb
  have hevaluates :=
    inType_evaluates (x := ⟨e, valueWith (constantIn p) e⟩) he hplaced hintegral
      himplicit (by decide)
    fun s' hs => value_evaluates _ he s' (hplaced.stays hs) hroom
  rwa [← hresult] at hevaluates

/-- A call of a function that draws from a range between two expressions is compiled to code that
does so wherever it is linked as a subroutine. -/
theorem lowerValue_draws {x y : Expr} {i j : Kind} (hb : b ∈ rangeDraws) (h : ExprHead)
    (written : Bool) (hx : x.Scalar scope i)
    (hy : y.Scalar scope j) (hi : Conversion.isImplicit i b.result.kind = true)
    (hj : Conversion.isImplicit j b.result.kind = true) (hplaced : scope.Placed p s place)
    (hroomx : x.depth ≤ 254)
    (hroomy : y.depth ≤ 250) (hbegun : Stream.Grows {} s.workspace.stream before)
    (hemitted : s.workspace.emitted = []) :
    ∃ s', perform (subroutine (lowerValue (.builtin h b [x, y] written))) p s = (.ok (), s') ∧
      ∀ origin image, s'.workspace.stream.link origin = .ok image → Lies origin image →
        ∃ entry, (before = [] → entry = origin) ∧
          DrawsBetween image entry scope place x y b.result.kind := by
  obtain ⟨s₁, hperform, hkept, hlinked⟩ := lowerBuiltin_draws_linked hb h
    (fun s' hs => rangeEnd_evaluates hb hx hi (hplaced.stays hs) (by omega))
    (fun s' hs => rangeEnd_evaluates hb hy hj (hplaced.stays hs) (by omega)) hbegun
  have hlowered : perform (lowerValue (.builtin h b [x, y] written)) p s = (.ok (), s₁) := by
    rw [perform_lowerValue, ← hperform]
    simp only [valueWith, partsWith]
  obtain ⟨hreturn, hwhole⟩ := perform_subroutine hlowered
  have hemitted' := hreturn.grows.emitted.trans (hkept.trans hemitted)
  refine ⟨_, hwhole, fun origin image hlink hlies => ?_⟩
  obtain ⟨code, horigin, hbytes, a, m, n, o, r, e, hlast, hentry, hlow, hhigh, hdraws, hrts⟩ :=
    hlinked _ _ hreturn.grows hemitted' origin image hlink hlies
  have ha : a < 0x10000 := Nat.lt_succ_of_le hlast
  refine ⟨UInt16.ofNat a, fun hbefore => ?_, fun c hcarries htruths => ?_⟩
  · rw [← UInt16.toNat_inj, UInt16.toNat_ofNat_of_lt' ha, hentry hbefore, horigin]
  have hintact := hcarries.intact (by rw [horigin, (Stream.link_extent hlink).1]) hbytes
  have hvars : scope.Matches place (scope.reading place c.read) c.read :=
    Scope.matches_reading htruths
  have hseed : seed ∉ valueSlots ∧ seed + 1 ∉ valueSlots := by decide
  -- the first end, the push of its number, the second end and what draws
  obtain ⟨u, hpath, hu⟩ := hlow (c.view.call callEnd)
  obtain ⟨v, hpush, hmain, hseedv, hrest⟩ := hdraws u
  obtain ⟨w, hpath', hw⟩ := hhigh v
  have hreaches := hpath.reaches.andThen (hpush.andThen hpath'.reaches)
  have hvars' : scope.Matches place (scope.reading place c.read) v.main := by
    rw [hmain, hpath.frame.main]
    exact hvars
  obtain ⟨w', hdrawn, hkeeps, -, hadvances, hbetween⟩ :=
    hrest y.depth w (by omega) hpath'.frame.keeps
    (hreaches.intact (hintact.of_main rfl rfl rfl) ha)
  have hkeeps' : (c.view.call callEnd).Keeps 254 w' :=
    (hpath.frame.keeps.mono hroomx).trans (hkeeps.mono (by omega))
  obtain ⟨k, c', hcall, hshows, hsp⟩ :=
    call_of_reaches hintact (hreaches.andThen hdrawn) hkeeps' ha hrts
  refine ⟨k, c', hcall, hshows.sp.trans hsp, ?_, ?_⟩
  · have hword : c'.view.word seed = w'.word seed :=
      View.word_congr (hshows.zp seed) (hshows.zp (seed + 1))
    have hword' : w.word seed = c.view.word seed :=
      (hpath'.frame.word hseed.1 hseed.2).trans (hseedv.trans (hpath.frame.word hseed.1 hseed.2))
    rw [Routine.advances, Routine.seedOf, hword, Routine.seedOf, ← hword']
    exact hadvances
  · have hlow : Conversion.valueOfBits (u.value b.result.kind.isWide) b.result.kind =
        b.result.kind.keep (x.number (scope.reading place c.read)) := (hu _ hvars).value
    have hhigh : Conversion.valueOfBits (w.value b.result.kind.isWide) b.result.kind =
        b.result.kind.keep (y.number (scope.reading place c.read)) := (hw _ hvars').value
    have hleft : (if b.result.kind.isWide then Cpu.wordOf c'.a c'.x else c'.a.toUInt16) =
        w'.value b.result.kind.isWide := by
      rw [hshows.a, hshows.x]
      rfl
    rw [hlow, hhigh] at hbetween
    rw [hleft]
    exact hbetween

/-- **Ranges are drawn from as the model says.**  The routine answers with the number of the next
state, which lies in the range whether words are read as signed or as unsigned ones.  A function
that draws from a range, linked with the library, draws between what its ends leave, whatever code
they have; called, it does so between the numbers that two expressions stand for in its type. -/
theorem ranges_drawn :
    Routine.Answers .randomRange Routine.drawsFromRange ∧
    (∀ n low high : UInt16, low ≤ high → low ≤ Routine.rangeValue n low high ∧
      Routine.rangeValue n low high ≤ high) ∧
    (∀ n low high : UInt16, (low.toNat : ℤ).bmod 65536 ≤ (high.toNat : ℤ).bmod 65536 →
      (low.toNat : ℤ).bmod 65536 ≤ ((Routine.rangeValue n low high).toNat : ℤ).bmod 65536 ∧
      ((Routine.rangeValue n low high).toNat : ℤ).bmod 65536 ≤ (high.toNat : ℤ).bmod 65536) ∧
    ∀ b ∈ rangeDraws, ∀ (h : ExprHead) (p : Program) (s : Emission) (before : List Line),
      Stream.Grows {} s.workspace.stream before →
      (∀ (x y : Part) (P Q : Deed), (∀ s', s.Stays s' → Does (x.inType b.result) p s' P) →
        (∀ s', s.Stays s' → Does (y.inType b.result) p s' Q) →
        ∃ s', perform (lowerBuiltin h b [x, y]) p s = (.ok (), s') ∧
          s'.workspace.emitted = s.workspace.emitted ∧
          ∀ w more, s'.workspace.Grows w more → w.emitted = [] →
            ∀ origin image, (Routine.emitLibrary w).2.stream.link origin = .ok image →
              Lies origin image →
              ∃ code : LinkedCode, code.origin = origin.toNat ∧ code.bytes = image.bytes.toList ∧
                ∃ a m n o b' c, a ≤ 0xFFFF ∧ (before = [] → a = code.origin) ∧
                  P code a m ∧ Q code n o ∧
                  Draws b.result.kind code m n o b' ∧ code.Installed b' more c) ∧
      ∀ (scope : Scope) (place : SymbolId → UInt16) (x y : Expr) (i j : Kind) (written : Bool),
        scope.Placed p s place →
        x.Scalar scope i → y.Scalar scope j → Conversion.isImplicit i b.result.kind = true →
        Conversion.isImplicit j b.result.kind = true → x.depth ≤ 254 → y.depth ≤ 250 →
          s.workspace.emitted = [] →
        ∃ s', perform (subroutine (lowerValue (.builtin h b [x, y] written))) p s = (.ok (), s') ∧
          ∀ origin image, s'.workspace.stream.link origin = .ok image → Lies origin image →
            ∃ entry, (before = [] → entry = origin) ∧
              DrawsBetween image entry scope place x y b.result.kind := by
  refine ⟨Routine.answers (fun r hr => ?_) (fun _ => trivial) fun _ _ h => h, fun n low high hle =>
    ?_, fun n low high hle => ?_,
    fun b hb h p s before hbegun =>
      ⟨fun x y P Q hx hy => lowerBuiltin_draws_linked hb h hx hy hbegun,
      fun scope place x y i j written hplaced hx hy hi hj hroomx hroomy hemitted =>
        lowerValue_draws hb h written hx hy hi hj hplaced hroomx hroomy hbegun hemitted⟩⟩
  · have hneeds : ∀ r ∈ RoutineId.postorder .randomRange, r ∈ drawing := by decide
    exact drawing_conducted (hneeds r (Routine.mem_postorder_iff.2 hr))
  · have hmem := Routine.rangeValue_mem 0 n low high
    simp only [Routine.reading_zero] at hmem
    exact_mod_cast hmem (by exact_mod_cast hle)
  · have hmem := Routine.rangeValue_mem (-32768) n low high
    simp only [Routine.reading_signed] at hmem
    exact hmem hle

/-! ### Signed bytes -/

/-- A signed byte from -3 to 5 is drawn. -/
def signedDraw : Lower Unit :=
  lowerValue (.builtin { type := .i8 } .randSByte
    [.literal { type := .i8 } { int := -3 }, .literal { type := .i8 } { int := 5 }] true)

/-- Linked at `$1000`, the code draws a signed byte from -3 to 5. -/
theorem signed_bytes_drawn :
    ∃ s' image, perform (subroutine signedDraw) oneWord wordPlaced = (.ok (), s') ∧
    s'.workspace.stream.link 0x1000 = .ok image ∧ image.bytes.size = 188 ∧
      ∀ c : Cpu, c.Carries image →
      ∃ n c', (∀ limit, limit = 0 ∨ n < limit → c.call 0x1000 limit = (c', none)) ∧
        Routine.advances c.view c'.view ∧
        -3 ≤ Conversion.valueOfBits c'.a.toUInt16 .i8 ∧
          Conversion.valueOfBits c'.a.toUInt16 .i8 ≤ 5 := by
  have hliteral (i : Int64) (hi : -128 ≤ i.toInt ∧ i.toInt ≤ 127) :
      (Expr.literal { type := .i8 } { int := i }).Scalar wordScope .i8 :=
        .literal rfl rfl rfl ⟨rfl, hi.1, hi.2⟩
  obtain ⟨s', hperform, hruns⟩ :=
    (ranges_drawn.2.2.2 .randSByte (by decide) { type := .i8 } oneWord wordPlaced [] (.refl _)).2
    wordScope (fun _ => 0xC000) _ _ .i8 .i8 true word_placed (hliteral (-3) (by decide))
      (hliteral 5 (by decide)) rfl rfl
    (by decide) (by decide) rfl
  have hlinks : ((perform (subroutine signedDraw) oneWord wordPlaced).2.workspace.stream.link
      0x1000).toOption.map
      (fun image => image.bytes.size) = some 188 := by decide +kernel
  have hperform : perform (subroutine signedDraw) oneWord wordPlaced = (.ok (), s') := hperform
  rw [hperform] at hlinks
  obtain ⟨image, hlink, hsize⟩ := exists_ok_of_map hlinks
  have hlies : Lies 0x1000 image := ⟨by decide, by rw [hsize]; decide⟩
  refine ⟨s', image, hperform, hlink, hsize, fun c hcarries => ?_⟩
  obtain ⟨entry, hentry, hdraws⟩ := hruns 0x1000 image hlink hlies
  obtain rfl := hentry rfl
  obtain ⟨n, c', hcall, -, hadvances, hbetween⟩ := hdraws c hcarries fun id hid => by
    unfold wordScope at hid
    split at hid <;> cases hid
  have hle : (-3 : ℤ) ≤ 5 := by decide
  exact ⟨n, c', hcall, hadvances, hbetween hle⟩

end

end Breadbin.Lowering
