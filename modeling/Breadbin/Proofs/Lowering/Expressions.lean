import Breadbin.Proofs.Lowering.Pointers
import Breadbin.Proofs.Lowering.Arithmetic
import Breadbin.Proofs.Lowering.Comparing
import Breadbin.Proofs.Lowering.Conditions

/-!
# Expressions

The code of an expression over integers, truth values and variables leaves the number that it stands
for.
-/

/-!
## Operands in their slots

The left operand of an operation waits while the right one is computed: on the stack, or in its slot
where the code of the right one is known to leave the slot alone.
-/

namespace Breadbin

namespace Machine

namespace View

variable {v u : View} {d : ℕ} {zs : List UInt8}

/-- A value of one byte waits. -/
theorem Frame.pushed_narrow (h : (v.pushed false).Frame d zs u) (hd : d + 1 ≤ 256) :
    u.top = v.a ∧ v.Frame (d + 1) zs u.drop :=
  View.Frame.push h (by omega)

/-- A value of two bytes waits, its high byte on top. -/
theorem Frame.pushed_wide (h : (v.pushed true).Frame d zs u) (hd : d + 2 ≤ 256) :
    u.top = v.x ∧ u.drop.top = v.a ∧ v.Frame (d + 2) zs u.drop.drop := by
  obtain ⟨hhigh, hrest⟩ := View.Frame.push (v := (v.push v.a).setA v.x) h (by omega)
  obtain ⟨hlow, hback⟩ :=
    View.Frame.push (v := v) ⟨hrest.sp, hrest.main, hrest.zp, hrest.stack⟩ (by omega)
  exact ⟨hhigh, hlow, hback⟩

end View

end Machine

namespace Lowering

open Assembly Machine ZeroPage

variable {p : Program} {s : Emission}

/-! ### Values that wait -/

/-- A value that waits is pulled again; what the code in between left in the slots and in Y is still
there. -/
def Pulls (wide : Bool) : Deed :=
  fun code a b => ∀ (v u : View) (d : ℕ) (zs : List UInt8), d + width wide ≤ 256 →
  (v.pushed wide).Frame d zs u → ∃ w, code.Reaches 0 a u b w ∧ v.Frame (d + width wide) zs w ∧
    w.value wide = v.value wide ∧ w.zp = u.zp ∧ w.y = u.y

theorem pop_pulls (wide : Bool) : Does (pop wide) p s (Pulls wide) := by
  refine (Does.straight (pop wide)).mono fun code a b h v u d zs hd hframe => ?_
  cases wide with
  | false =>
    obtain ⟨htop, hback⟩ := hframe.pushed_narrow hd
    refine ⟨u.drop.setA u.top, LinkedCode.Installed.run h rfl,
      ⟨hback.sp, hback.main, hback.zp, hback.stack⟩, ?_, rfl, rfl⟩
    show u.top.toUInt16 = v.a.toUInt16
    rw [htop]
  | true =>
    obtain ⟨hhigh, hlow, hback⟩ := hframe.pushed_wide hd
    refine ⟨_, LinkedCode.Installed.run h rfl, ⟨hback.sp, hback.main, hback.zp, hback.stack⟩, ?_,
      rfl, rfl⟩
    show Cpu.wordOf u.drop.top u.top = Cpu.wordOf v.a v.x
    rw [hlow, hhigh]

/-- The code leaves a value that has to do with the memory. -/
def Gives (d : ℕ) (zs : List UInt8) (wide : Bool) (V : Contents → UInt16 → Prop) : Deed :=
  Computes d zs fun v w => V v.main (w.value wide)

section

variable {code : LinkedCode} {a b m m' m'' : ℕ} {d e : ℕ} {zs : List UInt8} {wide : Bool}
  {V : Contents → UInt16 → Prop}
  {R : View → View → Prop}

/-- Pushing a value leaves the memory alone; the slots are as they were. -/
theorem pushed_zp (v : View) (wide : Bool) : (v.pushed wide).zp = v.zp := by cases wide <;> rfl

/-- A value waits on the stack while other code runs. -/
theorem Gives.waiting (hfirst : Gives d zs wide V code a m)
    (hpush : ∀ v, code.Reaches 0 m v m' (v.pushed wide))
    (hother : Computes e zs R code m' m'') (hpop : Pulls wide code m'' b)
    (hroom : e + width wide ≤ 256) :
    Computes (max d (e + width wide)) zs (fun v w => V v.main (w.value wide) ∧
      ∃ u u', u.main = v.main ∧ R u u' ∧ w.zp = u'.zp ∧ w.y = u'.y) code a b := by
  intro v
  obtain ⟨u, hpath, hu⟩ := hfirst v
  obtain ⟨u', hpath', hR⟩ := hother (u.pushed wide)
  obtain ⟨w, hreaches, hframe, hvalue, hzp, hy⟩ := hpop u u' e zs hroom hpath'.frame
  have hfirst := hpath.mono (Nat.le_max_left d (e + width wide)) (List.Subset.refl zs)
  refine ⟨w, ⟨((hpath.reaches.andThen (hpush u)).andThen hpath'.reaches).andThen hreaches,
    hfirst.frame.trans
      (hframe.mono (Nat.le_max_right d _) (List.Subset.refl zs))⟩, by rw [hvalue]; exact hu,
    u.pushed wide, u', ?_, hR, hzp, hy⟩
  rw [View.pushed_main, hpath.frame.main]

/-- A value is left and other code runs behind it. -/
theorem Gives.andThen (hfirst : Gives d zs wide V code a m) (hother : Computes e zs R code m b) :
    Computes (max d e) zs (fun v w => ∃ u, u.main = v.main ∧ V v.main (u.value wide) ∧ R u w) code
      a b := by
  intro v
  obtain ⟨u, hpath, hu⟩ := hfirst v
  obtain ⟨w, hpath', hR⟩ := hother u
  exact ⟨w, (hpath.mono (Nat.le_max_left d e) (List.Subset.refl zs)).trans
    (hpath'.mono (Nat.le_max_right d e) (List.Subset.refl zs)), u, hpath.frame.main, hu, hR⟩

end

/-! ### Slots -/

/-- Storing a value into a slot. -/
theorem storeSlot_puts (z : UInt8) (wide : Bool) :
    Does (storeSlot z wide) p s (Computes 0 [z, z + 1] fun v w =>
    w.slot wide z = v.value wide ∧ ∀ i, i ∉ [z, z + 1] → w.zp i = v.zp i) := by
  refine (Does.straight (storeSlot z wide)).mono fun code a b h v => ?_
  cases wide with
  | false =>
    refine ⟨_, LinkedCode.Installed.path h rfl rfl
      (by intro; simp +contextual [Straight.lines, slots]),
      by simp [View.slot, View.value], fun i hi => ?_⟩
    exact Function.update_of_ne (fun heq => hi (by simp [heq])) _ _
  | true =>
    refine ⟨_, LinkedCode.Installed.path h rfl rfl
      (by intro; simp [Straight.lines, slots]), by simp [View.slot, View.value], fun i hi => ?_⟩
    simp only [List.mem_cons, List.not_mem_nil, or_false, not_or] at hi
    exact (Function.update_of_ne hi.2 _ _).trans (Function.update_of_ne hi.1 _ _)

/-- Loading the value of a slot. -/
theorem loadSlot_gets (z : UInt8) (wide : Bool) :
    Does (loadSlot z wide) p s (Computes 0 [] fun v w => w.value wide = v.slot wide z) := by
  refine (Does.straight (loadSlot z wide)).mono fun code a b h v => ?_
  cases wide with
  | false =>
    exact ⟨_, LinkedCode.Installed.path h rfl rfl
      (by intro; simp [Straight.lines, slots]), by simp [View.value, View.slot]⟩
  | true =>
    exact ⟨_, LinkedCode.Installed.path h rfl rfl
      (by intro; simp [Straight.lines, slots]), by simp [View.value, View.slot]⟩

/-- How deep the code of two operands goes down the stack. -/
def stagedDepth (leaf : Bool) (wide : Bool) (d e : ℕ) : ℕ :=
  if leaf then max d e else max d (e + width wide)

section

variable {l r : Part} {res : Resolution} {leaf : Bool} {d e : ℕ} {V W : Contents → UInt16 → Prop}

/-- Both operands are in their slots. -/
def Parks (d : ℕ) (wide : Bool) (V W : Contents → UInt16 → Prop) : Deed :=
  Computes d valueSlots fun v w => V v.main (w.slot wide intA) ∧ W v.main (w.slot wide intB)

/-- The right operand is a leaf: its code leaves the slot of the left one alone. -/
theorem stageLeaf_does {wide : Bool} {right : Lower Unit}
    (hright : ∀ s', s.Stays s' → Does right p s' (Gives e [scratch, scratch + 1] wide W)) :
    Does (storeSlot intA wide >>= fun _ => right >>= fun _ => storeSlot intB wide) p s
      (Computes e valueSlots fun v w =>
      w.slot wide intA = v.value wide ∧ W v.main (w.slot wide intB)) := by
  refine ((storeSlot_puts intA wide).bind fun s₁ hs₁ => (hright s₁ hs₁).bind fun s₂ _ =>
    storeSlot_puts intB wide).mono ?_
  rintro code a b ⟨m, hput, m', hright, hput'⟩ v
  obtain ⟨u, hpath, hA, -⟩ := hput v
  obtain ⟨u', hpath', hu'⟩ := hright u
  obtain ⟨w, hpath'', hB, hsame⟩ := hput' u'
  have hkept (i : UInt8) (hi : i ∉ [scratch, scratch + 1]) : u'.zp i = u.zp i :=
    hpath'.frame.zp i hi
  have hslot : w.slot wide intA = u.slot wide intA :=
    View.slot_congr ((hsame _ (by decide)).trans (hkept _ (by decide)))
      ((hsame _ (by decide)).trans (hkept _ (by decide))) wide
  refine ⟨w, ((hpath.mono (Nat.zero_le e) (by decide)).trans
    (hpath'.mono (Nat.le_refl e) (by decide))).trans
    (hpath''.mono (Nat.zero_le e) (by decide)), hslot.trans hA, ?_⟩
  rw [hB, ← hpath.frame.main]
  exact hu'

/-- The left operand waits on the stack. -/
theorem stageStack_does {wide : Bool} {right : Lower Unit}
    (hright : ∀ s', s.Stays s' → Does right p s' (Gives e valueSlots wide W))
    (hroom : e + width wide ≤ 256) :
    Does (push wide >>= fun _ => right >>= fun _ => storeSlot intB wide >>= fun _ => pop wide >>=
      fun _ => storeSlot intA wide) p s fun code m b => ∀ a, Gives d valueSlots wide V code a m →
        Parks (max d (e + width wide)) wide V W code a b := by
  refine ((push_does wide).bind fun s₂ hs₂ => (hright s₂ hs₂).bind fun s₃ _ =>
      (storeSlot_puts intB wide).bind fun s₄ _ =>
    (pop_pulls wide).bind fun s₅ _ => storeSlot_puts intA wide).mono ?_
  rintro code m₁ b ⟨m₂, hpush, m₃, hright, m₄, hput, m₅, hpop, hput'⟩ a hleft v
  have hother := hright.andThen (hput.widen (Nat.zero_le e) (by decide))
  rw [Nat.max_self] at hother
  obtain ⟨u, hpath, hV, u₁, u₂, hmain, ⟨u₃, -, hW, hB, -⟩, hzp, -⟩ :=
    hleft.waiting hpush hother hpop hroom v
  obtain ⟨w, hpath', hA, hsame⟩ := hput' u
  refine ⟨w, hpath.trans (hpath'.mono (Nat.zero_le _) (by decide)), by rw [hA]; exact hV, ?_⟩
  have hslot : w.slot wide intB = u₂.slot wide intB := by
    refine View.slot_congr ?_ ?_ wide
    · rw [hsame _ (by decide), hzp]
    · rw [hsame _ (by decide), hzp]
  rw [hslot, hB, ← hmain]
  exact hW

theorem stage_does
    (hl : Does (l.converted res.left false) p s (Gives d valueSlots res.operand.isWide V))
    (hr : ∀ s', s.Stays s' → Does (r.converted res.right false) p s'
      (Gives e (if leaf then [scratch, scratch + 1] else valueSlots) res.operand.isWide W))
    (hleaf : ∀ s', s.Stays s' → perform (isLeaf r.expr res.right) p s' = (.ok leaf, s'))
    (hroom : leaf = false → e + width res.operand.isWide ≤ 256) :
    Does (stage l r res intA intB) p s
      (Parks (stagedDepth leaf res.operand.isWide d e) res.operand.isWide V W) := by
  unfold stage stagedDepth
  cases leaf with
  | true =>
    refine (hl.bind fun s' hs => Does.bind_unwritten (hleaf s' hs) (.refl s')
      (stageLeaf_does fun s'' hs' => hr s'' (Path.trans hs hs'))).mono ?_
    rintro code a b ⟨m, hleft, hrest⟩
    refine (hleft.andThen hrest).imp ?_
    rintro v w - ⟨u, hmain, hV, hA, hW⟩
    exact ⟨by rwa [hA], by rwa [← hmain]⟩
  | false =>
    refine (hl.bind fun s' hs => Does.bind_unwritten (hleaf s' hs) (.refl s')
      (stageStack_does (d := d) (V := V) (fun s'' hs' => hr s'' (Path.trans hs hs'))
        (hroom rfl))).mono ?_
    rintro code a b ⟨m, hleft, hrest⟩
    exact hrest a hleft

end

end Lowering

end Breadbin

/-!
## The code of expressions

An expression over integers, truth values and variables is lowered to code that leaves the number
that it stands for.  The proof follows the expression; what one operand leaves in the slots or on
the stack survives the code of the other one because the memory behind the stack page and the stack
above the stack pointer stay as they are.
-/

namespace Breadbin

/-! ### Variables in memory -/

/-- A scalar variable that lies at an address behind the stack page. -/
structure Lowering.Variable (p : Program) (s : Lowering.Emission) (id : SymbolId) (k : Kind)
    (address : UInt16) : Prop where
  /-- it is no constant whose value is known -/
  constants : s.constants.lookup id = none
  symbol : ∃ sym, p.symbol? id = some sym ∧ sym.type = .scalar k
  lies : s.allocator.lookup? id = some address
  above : Machine.mainBase ≤ address.toNat
  fits : address.toNat + Machine.width k.isWide ≤ 0x10000

namespace Lowering.Variable

variable {p : Program} {s : Lowering.Emission} {id : SymbolId} {k : Kind} {address : UInt16}

theorem perform_symbol (h : Variable p s id k address) :
    ∃ sym, Lowering.perform (Lowering.symbol id) p s = (.ok sym, s) ∧ p.symbol? id = some sym ∧
      sym.type = .scalar k := by
  obtain ⟨sym, hsymbol, htype⟩ := h.symbol
  refine ⟨sym, ?_, hsymbol, htype⟩
  unfold Lowering.symbol
  rw [perform_read_bind, hsymbol]
  rfl

theorem perform_symbolRef (h : Variable p s id k address) :
    Lowering.perform (Lowering.symbolRef id) p s = (.ok (.fixed address), s) := by
  unfold symbolRef
  rw [perform_get_bind, h.lies]
  rfl

end Lowering.Variable

namespace Scope

/-- Every variable of the scope has its place in memory. -/
def Placed (scope : Scope) (p : Program) (s : Lowering.Emission)
    (place : SymbolId → UInt16) : Prop :=
  ∀ id k, scope id = some k → Lowering.Variable p s id k (place id)

/-- The memory holds the values of the variables. -/
def Matches (scope : Scope) (place : SymbolId → UInt16) (vars : SymbolId → ℤ)
    (m : Machine.Contents) : Prop :=
  ∀ id k, scope id = some k → k.Denotes (m.get (place id) k.isWide) (vars id)

variable {scope : Scope} {p : Program} {s s' : Lowering.Emission} {place : SymbolId → UInt16}

/-- The values that the variables have in memory. -/
def reading (scope : Scope) (place : SymbolId → UInt16) (m : Machine.Contents) :
    SymbolId → ℤ := fun id =>
  match scope id with
  | some k => Conversion.valueOfBits (m.get (place id) k.isWide) k
  | none => 0

/-- Every memory in which truth values are 0 or 1 holds the values of the variables. -/
theorem matches_reading {m : Machine.Contents}
    (htruths : ∀ id, scope id = some .bool → m (place id) = 0 ∨ m (place id) = 1) :
    scope.Matches place (scope.reading place m) m := by
  intro id k hid
  have hreading : scope.reading place m id =
      Conversion.valueOfBits (m.get (place id) k.isWide) k := by
    rw [reading, hid]
  refine ⟨⟨fun hnarrow => ?_, ?_⟩, hreading.symm⟩
  · rw [Machine.Contents.get, hnarrow]
    exact (m (place id)).toNat_lt
  · rintro rfl
    show (m (place id)).toUInt16.toNat ≤ 1
    rcases htruths id hid with h | h <;> rw [h] <;> decide

/-- Lowering moves no variable. -/
theorem Placed.stays (h : scope.Placed p s place) (hs : s.Stays s') : scope.Placed p s' place := by
  intro id k hid
  have hvariable := h id k hid
  exact { hvariable with
    constants := by rw [hs.constants]; exact hvariable.constants
    lies := hs.allocator.lookup? hvariable.lies }

end Scope

/-! ### How deep the stack is used -/

namespace Expr

/-- A literal or a variable. -/
def isAtom : Expr → Bool
  | literal .. | var .. => true
  | _ => false

/-- How deep the code of an expression goes down the stack. -/
def depth : Expr → ℕ
  | unary _ _ x | cast _ x => x.depth
  | binary _ op l r =>
    if op.isLogical then max l.depth r.depth
    else if op.isShift then
      if Lowering.isOwnLiteral r then l.depth
        else max l.depth (r.depth + Machine.width l.type.isWide)
    else
      let k := (Resolution.resolve op l.type r.type).1.operand.kind
      max (Lowering.stagedDepth r.isAtom k.isWide l.depth r.depth) (Lowering.routineDepth op k)
  | _ => 0

variable (h : ExprHead) (op : BinaryOp) (l r : Expr)

theorem depth_left_le : l.depth ≤ (binary h op l r).depth := by
  rw [depth]
  split
  · exact Nat.le_max_left _ _
  split
  · split
    · exact Nat.le_refl _
    · exact Nat.le_max_left _ _
  refine Nat.le_trans ?_ (Nat.le_max_left _ _)
  unfold Lowering.stagedDepth
  split <;> exact Nat.le_max_left _ _

theorem depth_right_le : r.depth ≤ (binary h op l r).depth := by
  rw [depth]
  split
  · exact Nat.le_max_right _ _
  split
  · split
    · -- a literal needs no stack
      cases r <;> first | contradiction | exact Nat.zero_le _
    · exact (Nat.le_add_right _ _).trans (Nat.le_max_right _ _)
  refine Nat.le_trans ?_ (Nat.le_max_left _ _)
  unfold Lowering.stagedDepth
  split
  · exact Nat.le_max_right _ _
  · exact (Nat.le_add_right _ _).trans (Nat.le_max_right _ _)

end Expr

namespace Lowering

theorem mem_plainKinds {k : Kind} (hk : k.isIntegral = true) : k ∈ plainKinds := by
  have hall : ∀ k ∈ integralKinds, k ∈ plainKinds := by decide
  exact hall k (Kind.mem_integralKinds hk)

/-- A conversion among integers and truth values. -/
theorem direct_of_integral {k j : Kind} (hk : k.isIntegral = true) (hj : j.isIntegral = true)
    (explicit : Bool) :
    Direct ⟨k, j, Conversion.classify k j, explicit⟩ where
  source := mem_plainKinds hk
  target := mem_plainKinds hj
  kind := rfl
  floors := by
    have hall : ∀ k ∈ integralKinds, ∀ j ∈ integralKinds,
      Conversion.classify k j ≠ .fixedToInt := by decide
    exact hall k (Kind.mem_integralKinds hk) j (Kind.mem_integralKinds hj)

end Lowering

/-! ### Literals -/

namespace Literal

/-- The bits of a literal stand for its number. -/
theorem bits_denotes {v : Literal} {k : Kind} (hk : k.isIntegral = true) (hv : v.Typed k) :
    k.Denotes (v.bits k).1 (if v.kind = .bool then truth v.bool else v.int.toInt) := by
  by_cases hbool : k = .bool
  · subst hbool
    have hkind : v.kind = .bool := hv
    rw [bits_of_bool hkind rfl, if_pos hkind]
    simpa using Kind.Denotes.boolBits (v.bool = true)
  · have hinteger : k.isInteger = true := by simpa [Kind.isIntegral, hbool] using hk
    obtain ⟨hint, hlow, hhigh⟩ := hv.of_integer hinteger
    rw [if_neg (by rw [hint]; decide)]
    exact ⟨bits_fits (Lowering.mem_plainKinds hk) (hv.bits_ok (by rintro rfl; cases hinteger)),
      valueOfBits_bits hinteger hint hlow hhigh⟩

end Literal

namespace Lowering

open Assembly Machine ZeroPage

variable {p : Program} {s : Emission} {scope : Scope} {place : SymbolId → UInt16} {k j : Kind}

/-! ### Known values -/

/-- A literal is its own value. -/
theorem constantOf?_literal {cs : List (SymbolId × Expr)} {h : ExprHead} {v : Literal} :
    constantOf? cs (.literal h v) = some (.literal h v) := rfl

/-- The value of anything but a literal is not known. -/
theorem constantOf?_eq_none {e : Expr} (he : e.Scalar scope k) (hplaced : scope.Placed p s place)
    (hliteral : isOwnLiteral e = false) : constantOf? s.constants e = none := by
  cases he with
  | literal => cases hliteral
  | var _ hid _ => exact (hplaced _ _ hid).constants
  | unary | binary | cast => rfl

theorem perform_constantOf_none {e : Expr} (h : constantOf? s.constants e = none) :
    perform (constantOf e) p s = (.ok none, s) := by
  unfold constantOf
  rw [perform_get_bind, h]
  rfl

theorem perform_fold_none {e : Expr} (h : constantOf? s.constants e = none) (c : Conversion) :
    perform (fold e c) p s = (.ok none, s) := by
  unfold fold
  rw [perform_bind_ok (perform_constantOf_none h)]
  rfl

theorem perform_knownValue (e : Expr) : ∃ known, perform (knownValue e) p s = (.ok known, s) := by
  unfold knownValue
  cases h : constantOf? s.constants e with
  | none => exact ⟨_, perform_bind_ok (perform_constantOf_none h)⟩
  | some c => exact ⟨_, perform_bind_ok (perform_constantOf h)⟩

/-- An operand is a leaf when it is a literal or a variable. -/
theorem perform_isLeaf {e : Expr} (he : e.Scalar scope k)
    (hplaced : scope.Placed p s place) {c : Conversion}
    (hc : Direct c) : perform (isLeaf e c) p s = (.ok e.isAtom, s) := by
  have hkind : c.kind = .none ∨ c.kind = .zeroExtend ∨ c.kind = .signExtend ∨ c.kind = .truncate ∨
      c.kind = .reinterpret ∨
      c.kind = .intToFixed ∨ c.kind = .fixedToInt ∨ c.kind = .toBool := by
    have hfits := hc.fits
    cases hkind : c.kind <;> simp [hkind, fitsCode] at hfits ⊢
  have hplain : (e.literal?.map (·.kind)) ≠ some .string := by
    cases he with
    | literal hk htag _ hv =>
      have := Literal.ne_string_of_bits (mem_plainKinds hk) (hv.bits_ok (by rintro rfl; cases hk))
      simpa [Expr.literal?, htag] using this
    | var | unary | binary | cast => simp [Expr.literal?]
  cases hliteral : isOwnLiteral e with
  | true =>
    cases e <;> first | cases hliteral; done | skip
    unfold isLeaf
    rw [if_neg hplain]
    rcases hkind with h | h | h | h | h | h | h | h <;> rw [h] <;>
      exact (perform_bind_ok (perform_constantOf constantOf?_literal)).trans rfl
  | false =>
    have hunknown := perform_constantOf_none (p := p) (constantOf?_eq_none he hplaced hliteral)
    unfold isLeaf
    rw [if_neg hplain]
    cases he with
    | literal => cases hliteral
    | @var _ id _ _ hid _ =>
      obtain ⟨sym, hsymbol, htype⟩ := (hplaced _ _ hid).symbol
      have hscalar : (p.symbol? id).any (fun s => !s.type.isArray) = true := by
        rw [hsymbol]
        simp [htype, Ty.scalar]
      rcases hkind with h | h | h | h | h | h | h | h <;> rw [h] <;>
        exact (perform_bind_ok hunknown).trans (congrArg (fun b => (Except.ok b, s)) hscalar)
    | unary | binary | cast =>
      rcases hkind with h | h | h | h | h | h | h | h <;> rw [h] <;>
        exact (perform_bind_ok hunknown).trans rfl

/-! ### Numbers -/

/-- Bits that stand for a number wherever the memory holds the values of the variables. -/
def Stands (M : (SymbolId → ℤ) → Contents → Prop) (k : Kind) (f : (SymbolId → ℤ) → ℤ) :
    Contents → UInt16 → Prop :=
  fun m bits => ∀ vars, M vars m → k.Denotes bits (f vars)

/-- The code of an expression leaves the number that it stands for. -/
abbrev Evaluates (scope : Scope) (place : SymbolId → UInt16) (d : ℕ) (zs : List UInt8) (k : Kind)
    (f : (SymbolId → ℤ) → ℤ) : Deed :=
  Gives d zs k.isWide (Stands (scope.Matches place) k f)

variable {d e : ℕ} {zs more : List UInt8} {f : (SymbolId → ℤ) → ℤ}

theorem Gives.widen {wide : Bool} {V : Contents → UInt16 → Prop} {code : LinkedCode} {a b : ℕ}
    (h : Gives d zs wide V code a b) (hd : d ≤ e) (hslots : zs ⊆ more) :
    Gives e more wide V code a b :=
  Computes.widen h hd hslots

theorem loadConstant_evaluates {bits : UInt16} (h : ∀ vars, k.Denotes bits (f vars)) :
    Does (loadConstant bits k.isWide) p s (Evaluates scope place 0 [] k f) :=
  (loadConstant_does bits k.isWide (h fun _ => 0).fits.1).mono fun _ _ _ hcode =>
    hcode.imp fun _ _ _ hw vars _ => hw ▸ h vars

/-- A literal is loaded. -/
theorem literal_evaluates {h : ExprHead} {v : Literal} (hk : k.isIntegral = true)
    (htype : h.type = .scalar k) (hv : v.Typed k) : Does (lowerLiteral h v) p s
      (Evaluates scope place 0 [] k fun vars => (Expr.literal h v).number vars) := by
  have hkind : h.type.kind = k := by rw [htype]; rfl
  have hok := hv.bits_ok (by rintro rfl; cases hk)
  obtain ⟨ds, -, hperform⟩ := perform_lowerLiteral (p := p) (s := s) (h := h) (hkind.symm ▸ hv)
  have hload : loadStored v h.type h.type = loadConstant (v.bits k).1 k.isWide := by
    rw [loadStored, if_neg (Literal.ne_string_of_bits (mem_plainKinds hk) hok), Literal.storedBits,
      if_pos rfl, hkind, htype]
    rfl
  rw [hload] at hperform
  exact .after hperform (.reporting s ds)
    (loadConstant_evaluates fun _ => Literal.bits_denotes hk hv)

/-- A variable is loaded. -/
theorem variable_evaluates {h : ExprHead} {id : SymbolId} {constant : Expr → Ty → Lower Unit}
    (hplaced : scope.Placed p s place) (hid : scope id = some k) :
    Does (valueWith constant (.var h id)) p s
      (Evaluates scope place 0 [] k fun vars => (Expr.var h id).number vars) := by
  have hvariable := hplaced id k hid
  obtain ⟨sym, hsym, -, htype⟩ := hvariable.perform_symbol
  have hload : perform (valueWith constant (.var h id)) p s =
      perform (load (.fixed (place id)) k.isWide) p s := by
    unfold valueWith lowerVariable
    rw [perform_get_bind, hvariable.constants]
    dsimp only
    rw [perform_bind_ok hsym, perform_bind_ok hvariable.perform_symbolRef, htype]
    rfl
  refine .after hload (.refl s)
    ((load_does (place id) k.isWide).mono fun code a b hcode => hcode.imp ?_)
  intro v w _ hw vars hvars
  rw [hw, View.stored_main v k.isWide hvariable.above hvariable.fits]
  exact hvars id k hid

/-! ### Conversions -/

/-- The compiler converts a literal as the code does. -/
theorem applyToBits_denotes {c : Conversion} {bits : UInt16} {n : ℤ} (hc : Direct c)
    (hsource : c.source.isIntegral = true)
    (htarget : c.target.isIntegral = true) (h : c.source.Denotes bits n) :
    ∃ result, c.applyToBits bits = some result ∧ c.target.Denotes result (c.target.keep n) := by
  have hsome : (c.applyToBits bits).isSome = true := by
    unfold Conversion.applyToBits
    by_cases hbool : c.target = .bool
    · rw [if_pos hbool]
      rfl
    · have hinteger : c.target.isInteger = true := by simpa [Kind.isIntegral, hbool] using htarget
      rw [if_neg hbool, if_pos hsource, if_pos hinteger]
      rfl
  obtain ⟨result, hresult⟩ := Option.isSome_iff_exists.1 hsome
  have hshift : c.kind ≠ .intToFixed := by
    intro hkind
    have hfits := hc.fits
    simp only [hkind, fitsCode, Bool.and_eq_true, beq_iff_eq] at hfits
    rw [hfits.2] at htarget
    cases htarget
  refine ⟨result, hresult, ?_⟩
  rw [← Conversion.onBits_eq_applyToBits hc h.fits (fun hkind => absurd hkind hshift) hresult]
  exact h.onBits hc hsource htarget

/-- A converted expression; a literal is converted before the program runs. -/
theorem converted_evaluates {x : Part} {c : Conversion} {inCast : Bool}
    (hx : x.expr.Scalar scope c.source)
    (hplaced : scope.Placed p s place) (hc : Direct c) (htarget : c.target.isIntegral = true)
    (hcast : c.explicit = true → inCast = true) (hslots : [scratch, scratch + 1] ⊆ zs)
    (hvalue : Does x.value p s (Evaluates scope place d zs c.source x.expr.number)) :
    Does (x.converted c inCast) p s
      (Evaluates scope place d zs c.target fun vars => c.target.keep (x.expr.number vars)) := by
  have hsource := hx.isIntegral
  cases hliteral : isOwnLiteral x.expr with
  | true =>
    obtain ⟨expr, value⟩ := x
    cases expr with
    | literal h v =>
      obtain ⟨htag, hv⟩ : h.tag = 0 ∧ v.Typed c.source := by
        cases hx with
        | literal _ htag _ hv => exact ⟨htag, hv⟩
      have hsome : (Expr.literal h v).literal? = some v := by simp [Expr.literal?, htag]
      have hstring {k : Kind} (hk : k.isIntegral = true) : k ≠ .string := by
        rintro rfl
        cases hk
      have hfold := perform_fold (p := p) (s := s) constantOf?_literal hsome
        (hstring hsource) (hstring htarget)
        (hv.bits_ok (hstring hsource))
      obtain ⟨result, hresult, hdenotes⟩ :=
        applyToBits_denotes hc hsource htarget (Literal.bits_denotes hsource hv)
      rw [hresult] at hfold
      refine .after (perform_converted_known (x := ⟨.literal h v, value⟩) hfold) (.reporting s _) ?_
      exact (loadConstant_evaluates fun _ => hdenotes).mono fun _ _ _ hcode =>
        hcode.widen (Nat.zero_le d) (List.nil_subset zs)
    | _ => cases hliteral
  | false =>
    have hfold := perform_fold_none (p := p) (constantOf?_eq_none hx hplaced hliteral) c
    refine .bind_unwritten hfold (.refl s)
      ((hvalue.bind fun s' _ => convert_does hc hcast x.expr.span).mono ?_)
    rintro code a b ⟨m, hcode, hconvert⟩
    have hboth := hcode.andThen (hconvert.widen (Nat.zero_le d) hslots)
    rw [Nat.max_self] at hboth
    refine hboth.imp ?_
    rintro v w - ⟨u, -, hu, hw⟩ vars hvars
    rw [hw]
    exact (hu vars hvars).onBits hc hsource htarget

/-- An expression where a value of its own kind, or one that it may become, is wanted. -/
theorem inType_evaluates {x : Part} (hx : x.expr.Scalar scope k) (hplaced : scope.Placed p s place)
    (hj : j.isIntegral = true) (himplicit : Conversion.isImplicit k j = true)
    (hslots : [scratch, scratch + 1] ⊆ zs)
    (hvalue : ∀ s', s.Stays s' → Does x.value p s' (Evaluates scope place d zs k x.expr.number)) :
    Does (x.inType (.scalar j)) p s
      (Evaluates scope place d zs j fun vars => j.keep (x.expr.number vars)) := by
  have hk := hx.isIntegral
  have htype : x.type = .scalar k := hx.type_eq
  by_cases hsame : j = k
  · subst hsame
    have hact : x.inType (.scalar j) = x.value := by
      unfold Part.inType
      rw [if_neg (by rw [hx.isAbsent_eq]; decide), htype]
      simp
    rw [hact]
    refine (hvalue s (Path.refl s)).mono fun code a b hcode => hcode.imp ?_
    intro v w _ hw vars hvars
    have hn : j.Denotes (w.value j.isWide) (x.expr.number vars) := hw vars hvars
    show j.Denotes _ (j.keep (x.expr.number vars))
    rwa [hn.keep hk]
  · obtain ⟨known, hknown⟩ := perform_knownValue (p := p) (s := s) x.expr
    have hassign : Conversion.ofAssignment (.scalar j) x.type =
        (⟨k, j, Conversion.classify k j, false⟩, none) := by
      rw [htype, Conversion.ofAssignment, if_neg (by simp [Ty.scalar, himplicit])]
      rfl
    obtain ⟨ds, -, hperform⟩ := perform_inType_converted (p := p) hx.isAbsent_eq
      (show Ty.scalar j ≠ x.type by rw [htype]; simpa [Ty.scalar] using hsame)
        (by rw [hassign]) hknown
    rw [hassign] at hperform
    refine .after hperform (.reporting s ds) ?_
    have hs := (Emission.Writes.reporting s ds).toStays
    exact converted_evaluates (c := ⟨k, j, Conversion.classify k j, false⟩) hx (hplaced.stays hs)
      (direct_of_integral hk hj false) hj (fun h => Bool.noConfusion h) hslots (hvalue _ hs)

/-- A cast. -/
theorem cast_evaluates {h : ExprHead} {x : Part} (hx : x.expr.Scalar scope k)
    (hplaced : scope.Placed p s place)
    (hj : j.isIntegral = true) (hcastable : Conversion.isCastable k j = true)
    (htype : h.type = .scalar j) (hslots : [scratch, scratch + 1] ⊆ zs)
    (hvalue : ∀ s', s.Stays s' → Does x.value p s' (Evaluates scope place d zs k x.expr.number)) :
    Does (lowerCast h x) p s
      (Evaluates scope place d zs j fun vars => (Expr.cast h x.expr).number vars) := by
  have hk := hx.isIntegral
  have hown : x.type = .scalar k := hx.type_eq
  obtain ⟨known, hknown⟩ := perform_knownValue (p := p) (s := s) x.expr
  have hcast : ∃ ds, Checked.cast x.type h.type known h.span =
      ⟨⟨k, j, Conversion.classify k j, !Conversion.isImplicit k j⟩, true, ds⟩ := by
    have hof : Conversion.ofCast (.scalar k) (.scalar j) =
        (⟨k, j, Conversion.classify k j, !Conversion.isImplicit k j⟩, none) := by
      rw [Conversion.ofCast, if_neg (by simp [Ty.scalar, hcastable])]
      rfl
    rw [hown, htype]
    unfold Checked.cast
    rw [hof]
    exact ⟨_, rfl⟩
  obtain ⟨ds, hchecked⟩ := hcast
  have hs := (Emission.Writes.reporting s ds).toStays
  refine .bind_unwritten hknown (.refl s)
    (.bind_unwritten (perform_checked _ p s) (.reporting s _) ?_)
  rw [hchecked]
  have hnumber : (fun vars => (Expr.cast h x.expr).number vars) = fun vars =>
      j.keep (x.expr.number vars) := by
    funext vars
    rw [Expr.number, htype]
    rfl
  rw [hnumber]
  exact converted_evaluates (c := ⟨k, j, Conversion.classify k j, !Conversion.isImplicit k j⟩) hx
    (hplaced.stays hs)
    (direct_of_integral hk hj _) hj (fun _ => rfl) hslots (hvalue _ hs)

/-! ### Operators between two operands -/

section

variable {M : (SymbolId → ℤ) → Contents → Prop} {g : (SymbolId → ℤ) → ℤ} {code : LinkedCode}
  {a b m : ℕ} {F : ℤ → ℤ → ℤ}

/-- An operation on operands that are in their slots. -/
theorem Parks.operates (hstage : Parks d k.isWide (Stands M k f) (Stands M k g) code a m)
    (hoperates : Computes e valueSlots (fun v w => ∀ x y, k.Denotes (v.slot k.isWide intA) x →
      k.Denotes (v.slot k.isWide intB) y → j.Denotes (w.value j.isWide) (F x y)) code m b) :
    Gives (max d e) valueSlots j.isWide (Stands M j fun vars => F (f vars) (g vars)) code a b := by
  refine ((hstage.widen (Nat.le_max_left d e) (List.Subset.refl _)).andThen
    (hoperates.widen (Nat.le_max_right d e) (List.Subset.refl _))).imp ?_
  rintro v w - ⟨u, ⟨hA, hB⟩, hw⟩ vars hvars
  exact hw _ _ (hA vars hvars) (hB vars hvars)

end

variable {l r : Part} {op : BinaryOp} {res : Resolution} {M : (SymbolId → ℤ) → Contents → Prop}
  {g : (SymbolId → ℤ) → ℤ}

/-- Integers are calculated with in their slots. -/
theorem lowerInteger_does (hk : k.isInteger = true) (hop : op ∈ calculatingOps)
    (hoperand : res.operand = .scalar k)
    (hstage : Does (stage l r res intA intB) p s (Parks d k.isWide (Stands M k f) (Stands M k g))) :
    Does (lowerInteger op l r res) p s (Gives (max d (routineDepth op k)) valueSlots k.isWide
      (Stands M k fun vars => op.apply k (f vars) (g vars))) := by
  have hkind : res.operand.kind = k := by rw [hoperand]; rfl
  have hthen {rest : Lower Unit} {e : ℕ}
      (hrest : ∀ s', Does rest p s' (Calculates e k (op.apply k))) :
      Does (stage l r res intA intB >>= fun _ => rest) p s (Gives (max d e) valueSlots k.isWide
        (Stands M k fun vars => op.apply k (f vars) (g vars))) :=
    (hstage.bind fun s' _ => hrest s').mono fun _ _ _ ⟨_, h, h'⟩ => h.operates h'
  unfold lowerInteger
  rw [hkind]
  cases op <;> simp only [calculatingOps, List.mem_cons, List.not_mem_nil, or_false,
    reduceCtorEq] at hop
  case add => exact hthen fun s' => add_calculates hk
  case sub => exact hthen fun s' => sub_calculates hk
  case bitAnd => exact hthen fun s' => and_calculates hk
  case bitOr => exact hthen fun s' => or_calculates hk
  case bitXor => exact hthen fun s' => xor_calculates hk
  case mul => exact hthen fun s' => mul_calculates hk
  case div =>
    exact hthen fun s' => (division_does hk).mono fun _ _ _ h =>
      h.imp fun _ _ _ hw x y hx hy => (hw x y hx hy).1
  case mod =>
    refine hthen fun s' =>
      ((division_does hk).bind fun s'' _ => loadSlot_gets intRemainder k.isWide).mono ?_
    rintro code a b ⟨m, hdivide, hload⟩
    refine (hdivide.andThen (hload.widen (Nat.zero_le _) (List.nil_subset _))).imp ?_
    rintro v w - ⟨u, hu, hw⟩ x y hx hy
    rw [hw]
    exact (hu x y hx hy).2

/-- Integers and truth values are compared in their slots. -/
theorem lowerComparison_does (hk : k.isIntegral = true) (hop : op.isComparison = true)
    (hoperand : res.operand = .scalar k)
    (hstage : Does (stage l r res intA intB) p s (Parks d k.isWide (Stands M k f) (Stands M k g))) :
    Does (lowerComparison op l r res) p s (Gives d valueSlots false
      (Stands M .bool fun vars => op.apply k (f vars) (g vars))) := by
  have hkind : res.operand.kind = k := by rw [hoperand]; rfl
  have hact : lowerComparison op l r res = stage l r res intA intB >>= fun _ =>
      compareInteger op k := by
    unfold lowerComparison
    rw [hkind, if_neg (by rintro rfl; cases hk), if_neg (by rintro rfl; cases hk)]
  rw [hact]
  refine (hstage.bind fun s' _ => compareInteger_does hk hop).mono ?_
  rintro code a b ⟨m, hstage, hcompare⟩
  have hboth := hstage.operates (j := .bool) hcompare
  rwa [Nat.max_zero] at hboth

/-- The value of `and` and `or` is that of the left operand if it decides. -/
theorem apply_logical (hop : op.isLogical = true) (x y : ℤ) :
    op.apply .bool x y = if x = 0 ↔ op = .and then x else y := by
  cases op <;> first | cases hop; done | skip
  case and => simp [BinaryOp.apply]
  case or =>
    by_cases hx : x = 0
    · rw [BinaryOp.apply, if_pos hx, if_neg (by simp [hx])]
    · rw [BinaryOp.apply, if_neg hx, if_pos (by simp [hx])]

/-- The right operand of `and` and `or` is skipped when the left one decides. -/
theorem lowerLogical_does (hop : op.isLogical = true)
    (hl : ∀ s', s.Stays s' →
      Does (l.inType .bool) p s' (Gives d valueSlots false (Stands M .bool f)))
    (hr : ∀ s', s.Stays s' →
      Does (r.inType .bool) p s' (Gives e valueSlots false (Stands M .bool g))) :
    Does (lowerLogical op l r) p s (Gives (max d e) valueSlots false
      (Stands M .bool fun vars => op.apply .bool (f vars) (g vars))) := by
  refine (Does.label fun done s₁ hs₁ => (hl s₁ hs₁).bind fun s₂ hs₂ =>
      (Does.straight testA).bind fun s₃ hs₃ =>
    (Does.straight (branchTo (if op = .and then .beq else .bne) done)).bind fun s₄ hs₄ =>
    (hr s₄ (Path.trans hs₁ (Path.trans hs₂ (Path.trans hs₃ hs₄)))).bind fun s₅ _ =>
      Does.straight (place done)).mono ?_
  rintro code a b ⟨done, m₁, hl, m₂, htest, m₃, hbranch, m₄, hr, hplace⟩ v
  obtain ⟨hdone, rfl⟩ := hplace.bound
  obtain ⟨u, hpath, hu⟩ := hl v
  let u' := u.compare u.a 0
  have hcompared : code.Path d valueSlots m₁ u m₂ u' := htest.path rfl rfl (List.nil_subset _)
  have htakes : u'.takes? (if op = .and then .beq else .bne) =
      some (decide (u.a = 0 ↔ op = .and)) := by
    have hflag : u'.zero = decide (u.a = 0) := sub_beq_zero u.a 0
    by_cases hand : op = .and <;> simp [hand, View.takes?, hflag]
  have hzero (vars : SymbolId → ℤ) (hvars : M vars v.main) : u.a = 0 ↔ f vars = 0 := by
    rw [← (hu vars hvars).zero_iff rfl, ← Cpu.toUInt16_inj]
    rfl
  have hfirst := (hpath.trans hcompared).mono (Nat.le_max_left d e) (List.Subset.refl _)
  by_cases hdecides : u.a = 0 ↔ op = .and
  · rw [decide_eq_true hdecides] at htakes
    refine ⟨u', hfirst.trans (hbranch.branch_taken hdone htakes).path, fun vars hvars => ?_⟩
    show Kind.bool.Denotes _ (op.apply .bool (f vars) (g vars))
    rw [apply_logical hop, if_pos (by rwa [← hzero vars hvars])]
    exact hu vars hvars
  · rw [decide_eq_false hdecides] at htakes
    obtain ⟨w, hpath', hw⟩ := hr u'
    refine ⟨w, hfirst.trans ((hbranch.branch_skipped hdone htakes).path.trans
      (hpath'.mono (Nat.le_max_right d e) (List.Subset.refl _))), fun vars hvars => ?_⟩
    show Kind.bool.Denotes _ (op.apply .bool (f vars) (g vars))
    rw [apply_logical hop, if_neg (by rwa [← hzero vars hvars])]
    exact hw vars (hpath.frame.main ▸ hvars)

/-! ### Shifts -/

theorem apply_shift (hop : op.isShift = true) (x : ℤ) {y : ℤ} {n : UInt8}
    (hn : (n.toNat : ℤ) = y % 256) :
    op.apply k x y = shifted (op = .shl) k x n.toNat := by
  have hcount : (y % 256).toNat = n.toNat := by omega
  cases op <;> first | cases hop; done | skip
  case shl => simp [BinaryOp.apply, shifted, hcount]
  case shr => simp [BinaryOp.apply, shifted, hcount]

/-- The low byte of a number. -/
theorem low_denotes {v : View} {n : ℤ} (hk : k.isInteger = true)
    (h : k.Denotes (v.value k.isWide) n) :
    (v.a.toNat : ℤ) = n % 256 := by
  have hemod := h.emod (Kind.Denotes.integral_of_integer hk)
  have hlt := v.a.toNat_lt
  rw [View.toNat_value] at hemod
  cases hwide : k.isWide with
  | true =>
    rw [hwide, Kind.modulus_wide hwide] at hemod
    simp only [if_true] at hemod
    omega
  | false =>
    rw [hwide, Kind.modulus_narrow hwide] at hemod
    simp only [Bool.false_eq_true, if_false] at hemod
    omega

/-- A shift by a known count. -/
theorem shiftByLiteral_does (hk : k.isInteger = true) (hop : op.isShift = true) {n : UInt8} {y : ℤ}
    (hn : (n.toNat : ℤ) = y % 256) : Does (imm .ldy n >>= fun _ => shiftByY (op = .shl) k) p s
      (Computes 0 valueSlots fun v w => ∀ x, k.Denotes (v.value k.isWide) x →
        k.Denotes (w.value k.isWide) (op.apply k x y)) := by
  refine ((Does.straight (imm .ldy n)).bind fun s' _ => shiftByY_does hk (op = .shl)).mono ?_
  rintro code a b ⟨m, hcount, hshift⟩ v
  have hpath : code.Path 0 valueSlots a v m (v.setY n) := hcount.path rfl rfl (List.nil_subset _)
  obtain ⟨w, hpath', hw⟩ := hshift (v.setY n)
  refine ⟨w, hpath.trans (hpath'.mono (Nat.le_refl 0) (by decide)), fun x hx => ?_⟩
  rw [apply_shift hop x hn]
  exact hw x hx

/-- A shift by a count that is computed while the value waits. -/
theorem shiftByComputed_does {right : Lower Unit} (hk : k.isInteger = true)
    (hj : j.isInteger = true) (hop : op.isShift = true)
    (hright : ∀ s', s.Stays s' → Does right p s' (Gives e valueSlots j.isWide (Stands M j g)))
    (hroom : e + width k.isWide ≤ 256) :
    Does (push k.isWide >>= fun _ => right >>= fun _ => Lowering.op .tay >>= fun _ =>
      pop k.isWide >>= fun _ =>
      shiftByY (op = .shl) k) p s fun code m b =>
        ∀ a, Gives d valueSlots k.isWide (Stands M k f) code a m →
        Gives (max d (e + width k.isWide)) valueSlots k.isWide
          (Stands M k fun vars => op.apply k (f vars) (g vars)) code a b := by
  refine ((push_does k.isWide).bind fun s₁ hs₁ => (hright s₁ hs₁).bind fun s₂ _ =>
    (Does.straight (Lowering.op .tay)).bind
    fun s₃ _ => (pop_pulls k.isWide).bind fun s₄ _ => shiftByY_does hk (op = .shl)).mono ?_
  rintro code m₁ b ⟨m₂, hpush, m₃, hright, m₄, htay, m₅, hpop, hshift⟩ a hleft v
  have hcount : Computes e
      valueSlots (fun u w => ∀ vars, M vars u.main → (w.y.toNat : ℤ) = g vars % 256) code m₂
          m₄ := by
    intro u
    obtain ⟨w, hpath, hw⟩ := hright u
    refine ⟨_, hpath.trans (htay.path rfl rfl (List.nil_subset _)), fun vars hvars => ?_⟩
    exact low_denotes hj (hw vars hvars)
  obtain ⟨u, hpath, hf, u₁, u₂, hmain, hg, -, hy⟩ := hleft.waiting hpush hcount hpop hroom v
  obtain ⟨w, hpath', hw⟩ := hshift u
  refine ⟨w, hpath.trans (hpath'.mono (Nat.zero_le _) (by decide)), fun vars hvars => ?_⟩
  show k.Denotes _ (op.apply k (f vars) (g vars))
  rw [apply_shift hop _ (hy ▸ hg vars (hmain ▸ hvars))]
  exact hw _ (hf vars hvars)

/-! ### Operators before their operand -/

theorem lowerUnary_does {h : ExprHead} {op : UnaryOp} {x : Part} (hx : x.expr.Scalar scope k)
    (haccepted : (Resolution.resolveUnary op x.type).2 = none) (htype : h.type = x.type)
    (hvalue : ∀ s', s.Stays s' →
      Does x.value p s' (Evaluates scope place d valueSlots k x.expr.number)) :
    Does (lowerUnary h op x) p s
      (Evaluates scope place d valueSlots k fun vars => (Expr.unary h op x.expr).number vars) := by
  have hown : x.type = .scalar k := hx.type_eq
  have hk := hx.isIntegral
  have hkind : h.type.kind = k := by rw [htype, hown]; rfl
  have hchecked : Checked.unary op x.type h.span = ⟨.scalar k, true, []⟩ := by
    have hresult : (Resolution.resolveUnary op x.type).1 = x.type := by
      unfold Resolution.resolveUnary
      split
      · split <;> rfl
      · rfl
    unfold Checked.unary
    rcases hpair : Resolution.resolveUnary op x.type with ⟨t, mismatch⟩
    rw [hpair] at haccepted hresult
    obtain rfl : mismatch = none := haccepted
    rw [← hown, ← hresult]
    rfl
  refine .bind_unwritten (perform_checked _ p s) (.reporting s _) ?_
  rw [hchecked]
  have hs := (Emission.Writes.reporting s []).toStays
  -- what the operator makes of the value
  have hthen {rest : Lower Unit} (hrest : ∀ s', Does rest p s' (Changes k (op.apply k))) :
      Does (x.value >>= fun _ => rest) p (s.reporting []) (Evaluates scope place d valueSlots k
        fun vars => (Expr.unary h op x.expr).number vars) := by
    refine ((hvalue _ hs).bind fun s' _ => hrest s').mono ?_
    rintro code a b ⟨m, hcode, hchange⟩
    have hboth := Gives.andThen hcode (hchange.widen (Nat.zero_le d) (List.nil_subset _))
    rw [Nat.max_self] at hboth
    refine hboth.imp ?_
    rintro v w - ⟨u, -, hu, hw⟩ vars hvars
    show k.Denotes (w.value k.isWide) ((Expr.unary h op x.expr).number vars)
    rw [Expr.number, hkind]
    exact hw _ (hu vars hvars)
  rw [hown] at haccepted
  cases op with
  | neg =>
    have hinteger : k.isInteger = true := by
      have hall : ∀ k ∈ integralKinds, (Resolution.resolveUnary .neg (.scalar k)).2 = none →
        k.isInteger = true := by decide
      exact hall k (Kind.mem_integralKinds hk) haccepted
    exact hthen fun s' => negate_does hinteger
  | bitNot =>
    have hinteger : k.isInteger = true := by
      have hall : ∀ k ∈ integralKinds, (Resolution.resolveUnary .bitNot (.scalar k)).2 = none →
        k.isInteger = true := by decide
      exact hall k (Kind.mem_integralKinds hk) haccepted
    exact hthen fun s' => complement_does hinteger
  | not =>
    obtain rfl : k = .bool := by
      have hall : ∀ k ∈ integralKinds, (Resolution.resolveUnary .not (.scalar k)).2 = none →
        k = .bool := by decide
      exact hall k (Kind.mem_integralKinds hk) haccepted
    exact hthen fun s' => not_does
  | unknown => cases haccepted

/-! ### Expressions -/

theorem perform_lowerBinary {h : ExprHead} {l r : Part} (hl : l.expr.isAbsent = false)
    (hr : r.expr.isAbsent = false) (haccepted : Resolution.resolve? op l.type r.type = some res) :
    perform (lowerBinary h op l r) p s = perform (if op.isLogical then lowerLogical op l r
      else if op.isShift then lowerShift op l r res
      else if op.isComparison then lowerComparison op l r res
      else lowerArithmetic op l r res) p s := by
  have hchecked : Checked.binary op l.type r.type h.span = ⟨res, true, []⟩ := by
    rw [Checked.binary, Resolution.resolve, haccepted]
    rfl
  unfold lowerBinary
  rw [hl, hr, hchecked]
  simp only [Bool.or_self, Bool.false_eq_true, if_false]
  rw [perform_bind_ok (perform_checked _ p s)]
  rfl

theorem number_binary {vars : SymbolId → ℤ} {h : ExprHead} {l r : Expr}
    (haccepted : Resolution.resolve? op l.type r.type = some res) :
    (Expr.binary h op l r).number vars =
      op.apply res.operand.kind (res.left.target.keep (l.number vars))
        (res.right.target.keep (r.number vars)) := by
  have hresolve : (Resolution.resolve op l.type r.type).1 = res := by
    rw [Resolution.resolve, haccepted]
  rw [Expr.number, hresolve]

variable {constant : Expr → Ty → Lower Unit}

/-- The operands of an operation are brought to a common kind in their slots. -/
theorem stage_evaluates {l r : Expr} {c : Kind} {t : Ty} {k' : Kind} (hl : l.Scalar scope k)
    (hr : r.Scalar scope k') (hplaced : scope.Placed p s place) (hc : c.isIntegral = true)
    (hleft : ∀ s', s.Stays s' →
      Does (valueWith constant l) p s' (Evaluates scope place d valueSlots k l.number))
    (hright : ∀ s', s.Stays s' → Does (valueWith constant r) p s'
      (Evaluates scope place e (if r.isAtom then [scratch, scratch + 1] else valueSlots) k'
        r.number))
    (hroom : r.isAtom = false → e + width c.isWide ≤ 256) :
    Does (stage ⟨l, valueWith constant l⟩ ⟨r, valueWith constant r⟩
      (Resolution.common k k' c t) intA intB) p s
      (Parks (stagedDepth r.isAtom c.isWide d e) c.isWide
        (Stands (scope.Matches place) c fun vars => c.keep (l.number vars))
        (Stands (scope.Matches place) c fun vars => c.keep (r.number vars))) := by
  have hslots : [scratch, scratch + 1] ⊆
      (if r.isAtom then [scratch, scratch + 1] else valueSlots) := by
    split
    · exact List.Subset.refl _
    · decide
  refine stage_does ?_ (fun s' hs => ?_) (fun s' hs => ?_) hroom
  · exact converted_evaluates (x := ⟨l, valueWith constant l⟩)
      (c := ⟨k, c, Conversion.classify k c, false⟩) hl hplaced
      (direct_of_integral hl.isIntegral hc false) hc nofun (by decide) (hleft s (Path.refl s))
  · exact converted_evaluates (x := ⟨r, valueWith constant r⟩)
      (c := ⟨k', c, Conversion.classify k' c, false⟩) hr
      (hplaced.stays hs) (direct_of_integral hr.isIntegral hc false) hc nofun hslots (hright s' hs)
  · exact perform_isLeaf (c := ⟨k', c, Conversion.classify k' c, false⟩) hr (hplaced.stays hs)
      (direct_of_integral hr.isIntegral hc false)

/-- Literals and variables need neither slots nor the stack. -/
theorem atom_evaluates {e : Expr} (he : e.Scalar scope k) (hatom : e.isAtom = true)
    (hplaced : scope.Placed p s place) :
    Does (valueWith constant e) p s (Evaluates scope place 0 [] k e.number) := by
  cases he with
  | literal hk _ htype hv =>
    rw [valueWith]
    exact literal_evaluates hk htype hv
  | var _ hid _ => exact variable_evaluates hplaced hid
  | unary | binary | cast => cases hatom

/-- A shift, its count known or computed. -/
theorem lowerShift_evaluates {l r : Expr} {k' : Kind} (hl : l.Scalar scope k)
    (hr : r.Scalar scope k')
    (hplaced : scope.Placed p s place) (hk : k.isInteger = true) (hk' : k'.isInteger = true)
    (hop : op.isShift = true)
    (hleft : ∀ s', s.Stays s' →
      Does (valueWith constant l) p s' (Evaluates scope place d valueSlots k l.number))
    (hright : ∀ s', s.Stays s' →
      Does (valueWith constant r) p s' (Evaluates scope place e valueSlots k' r.number))
    (hroom : isOwnLiteral r = false → e + width k.isWide ≤ 256) :
    Does (lowerShift op ⟨l, valueWith constant l⟩ ⟨r, valueWith constant r⟩
      (Resolution.ofShift (.scalar k) (.scalar k'))) p s
      (Evaluates scope place (if isOwnLiteral r then d else max d (e + width k.isWide))
        valueSlots k fun vars =>
        op.apply k (k.keep (l.number vars)) (k'.keep (r.number vars))) := by
  have himplicit {k : Kind} (hk : k.isInteger = true) : Conversion.isImplicit k k = true := by
    cases k <;> first | rfl | cases hk
  have hvalue := inType_evaluates (x := ⟨l, valueWith constant l⟩) hl hplaced
    hl.isIntegral (himplicit hk)
    (by decide : [scratch, scratch + 1] ⊆ valueSlots) hleft
  unfold lowerShift
  cases hliteral : isOwnLiteral r with
  | true =>
    cases r with
    | literal h v =>
      obtain ⟨htag, hv⟩ : h.tag = 0 ∧ v.Typed k' := by
        cases hr with
        | literal _ htag _ hv => exact ⟨htag, hv⟩
      have hsome : (Expr.literal h v).literal? = some v := by simp [Expr.literal?, htag]
      have hint := (hv.of_integer hk').1
      have hcount : ((v.int.toUInt64.toUInt8).toNat : ℤ) = v.int.toInt % 256 := by
        have := v.toNat_int_mod
        rw [UInt64.toNat_toUInt8]
        omega
      refine Does.mono
        (P := Deed.andThen (Evaluates scope place d valueSlots k fun vars => k.keep (l.number vars))
        (Computes 0 valueSlots fun v' w => ∀ x, k.Denotes (v'.value k.isWide) x →
          k.Denotes (w.value k.isWide) (op.apply k x v.int.toInt)))
        (hvalue.bind fun s' hs =>
          Does.bind_unwritten (perform_constantOf constantOf?_literal) (.refl s') ?_) ?_
      · show Does (imm .ldy ((Expr.literal h v).literal?.getD {}).int.toUInt64.toUInt8 >>= fun _ =>
          shiftByY (op = .shl) k) p s' _
        rw [hsome]
        exact shiftByLiteral_does hk hop hcount
      · rintro code a b ⟨m, hcode, hshift⟩
        have hboth := hcode.andThen (hshift.widen (Nat.zero_le d) (List.Subset.refl _))
        rw [Nat.max_self] at hboth
        refine hboth.imp ?_
        rintro v' w - ⟨u, -, hu, hw⟩ vars hvars
        have hnumber : (Expr.literal h v).number vars = v.int.toInt := by
          rw [Expr.number, if_neg (by rw [hint]; decide)]
        have hkept : k'.keep v.int.toInt = v.int.toInt := by
          have := (Literal.bits_denotes hr.isIntegral hv).keep hr.isIntegral
          rwa [if_neg (by rw [hint]; decide)] at this
        show k.Denotes _ (op.apply k (k.keep (l.number vars))
          (k'.keep ((Expr.literal h v).number vars)))
        rw [hnumber, hkept]
        exact hw _ (hu vars hvars)
    | _ => cases hliteral
  | false =>
    refine (hvalue.bind fun s' hs => Does.bind_unwritten
      (perform_constantOf_none (constantOf?_eq_none hr (hplaced.stays hs) hliteral)) (.refl s')
      (shiftByComputed_does (d := d) (f := fun vars => k.keep (l.number vars))
        (g := fun vars => k'.keep (r.number vars))
        (M := scope.Matches place) hk hk' hop (fun s₂ hs' => ?_) (hroom hliteral))).mono ?_
    · have hr' := inType_evaluates (x := ⟨r, valueWith constant r⟩) hr
        (hplaced.stays (Path.trans hs hs')) hr.isIntegral
        (himplicit hk') (by decide : [scratch, scratch + 1] ⊆ valueSlots)
        fun s₃ hs₃ => hright s₃ (Path.trans hs (Path.trans hs' hs₃))
      have htype : Part.type ⟨r, valueWith constant r⟩ = .scalar k' := hr.type_eq
      rwa [htype]
    · rintro code a b ⟨m, hcode, hshift⟩
      exact hshift a hcode

/-- An operation between two operands. -/
theorem binary_evaluates {h : ExprHead} {l r : Expr} {k' : Kind} (hl : l.Scalar scope k)
    (hr : r.Scalar scope k')
    (haccepted : Resolution.resolve? op l.type r.type = some res) (hplaced : scope.Placed p s place)
    (hroom : (Expr.binary h op l r).depth ≤ 256)
    (hleft : ∀ s', s.Stays s' →
      Does (valueWith constant l) p s' (Evaluates scope place l.depth valueSlots k l.number))
    (hright : ∀ s', s.Stays s' →
      Does (valueWith constant r) p s' (Evaluates scope place r.depth valueSlots k' r.number)) :
    Does (lowerBinary h op ⟨l, valueWith constant l⟩ ⟨r, valueWith constant r⟩) p s
      (Evaluates scope place (Expr.binary h op l r).depth valueSlots res.result.kind fun vars =>
        (Expr.binary h op l r).number vars) := by
  have hperform := perform_lowerBinary (p := p) (s := s) (h := h) (l := ⟨l, valueWith constant l⟩)
    (r := ⟨r, valueWith constant r⟩) hl.isAbsent_eq hr.isAbsent_eq haccepted
  refine .after hperform (.refl s) ?_
  have hresolve : (Resolution.resolve op l.type r.type).1 = res := by
    rw [Resolution.resolve, haccepted]
  simp only [number_binary haccepted]
  rw [Expr.depth, hresolve] at hroom ⊢
  have hsuits : Resolution.Suits op k k' res := by
    rw [hl.type_eq, hr.type_eq] at haccepted
    exact .of_resolve? hl.isIntegral hr.isIntegral haccepted
  have hright' : ∀ s', s.Stays s' → Does (valueWith constant r) p s'
      (Evaluates scope place r.depth (if r.isAtom then [scratch, scratch + 1] else valueSlots)
          k' r.number) := by
    intro s' hs
    cases hatom : r.isAtom with
    | true =>
      exact (atom_evaluates hr hatom (hplaced.stays hs)).mono fun _ _ _ hcode =>
        hcode.widen (Nat.zero_le _) (List.nil_subset _)
    | false => exact hright s' hs
  cases hsuits with
  | logical hop =>
    simp only [hop, if_true] at hroom ⊢
    exact lowerLogical_does hop
      (fun s' hs => inType_evaluates (x := ⟨l, valueWith constant l⟩) hl (hplaced.stays hs)
        rfl rfl (by decide) fun s'' hs' => hleft s'' (Path.trans hs hs'))
      (fun s' hs => inType_evaluates (x := ⟨r, valueWith constant r⟩) hr (hplaced.stays hs)
        rfl rfl (by decide) fun s'' hs' => hright s'' (Path.trans hs hs'))
  | shift hop hk hk' =>
    have hlogical : op.isLogical = false := by cases op <;> first | rfl | cases hop
    simp only [hlogical, hop, Bool.false_eq_true, if_false, if_true] at hroom ⊢
    have hwide : l.type.isWide = k.isWide := by rw [hl.type_eq]; rfl
    rw [hwide] at hroom ⊢
    refine lowerShift_evaluates hl hr hplaced hk hk' hop hleft hright fun hliteral => ?_
    rw [if_neg (by simp [hliteral])] at hroom
    exact (Nat.le_max_right _ _).trans hroom
  | @comparison _ _ c hop hc =>
    have hlogical : op.isLogical = false := by cases op <;> first | rfl | cases hop
    have hshift : op.isShift = false := by cases op <;> first | rfl | cases hop
    simp only [hlogical, hshift, hop, Bool.false_eq_true, if_false, if_true] at hroom ⊢
    have hstaged := (Nat.le_max_left _ _).trans hroom
    refine (lowerComparison_does hc hop rfl
      (stage_evaluates (t := .bool) hl hr hplaced hc hleft hright'
      fun hatom => ?_)).mono fun _ _ _ hcode =>
        hcode.widen (Nat.le_max_left _ _) (List.Subset.refl _)
    rw [stagedDepth, if_neg (by simp [hatom])] at hstaged
    exact (Nat.le_max_right _ _).trans hstaged
  | @calculation _ _ c hop hc =>
    have hlogical : op.isLogical = false := by
      have hall : ∀ op ∈ calculatingOps, op.isLogical = false := by decide
      exact hall op hop
    have hshift : op.isShift = false := by
      have hall : ∀ op ∈ calculatingOps, op.isShift = false := by decide
      exact hall op hop
    have hcomparison : op.isComparison = false := by
      have hall : ∀ op ∈ calculatingOps, op.isComparison = false := by decide
      exact hall op hop
    simp only [hlogical, hshift, hcomparison, Bool.false_eq_true, if_false] at hroom ⊢
    have hstaged := (Nat.le_max_left _ _).trans hroom
    have hact (x y : Part) : lowerArithmetic op x y (Resolution.common k k' c (.scalar c)) =
        lowerInteger op x y (Resolution.common k k' c (.scalar c)) := by
      unfold lowerArithmetic
      change (if c = .string then _ else if c = .float then _ else if c =
        .fixed then _ else if c.isInteger then _ else _) = _
      rw [if_neg (by rintro rfl; cases hc), if_neg (by rintro rfl; cases hc),
        if_neg (by rintro rfl; cases hc), if_pos hc]
    rw [hact]
    refine lowerInteger_does hc hop rfl
      (stage_evaluates (t := .scalar c) hl hr hplaced (by simp [Kind.isIntegral, hc])
      hleft hright' fun hatom => ?_)
    rw [stagedDepth, if_neg (by simp [hatom])] at hstaged
    exact (Nat.le_max_right _ _).trans hstaged

/-- The code of an expression leaves the number that it stands for. -/
theorem value_evaluates (constant : Expr → Ty → Lower Unit) {e : Expr} (he : e.Scalar scope k) :
    ∀ s, scope.Placed p s place → e.depth ≤ 256 →
      Does (valueWith constant e) p s (Evaluates scope place e.depth valueSlots k e.number) := by
  induction he with
  | literal hk htag htype hv =>
    intro s hplaced _
    exact (atom_evaluates (.literal hk htag htype hv) rfl hplaced).mono fun _ _ _ hcode =>
      hcode.widen (Nat.zero_le _) (List.nil_subset _)
  | var hk hid htype =>
    intro s hplaced _
    exact (atom_evaluates (.var hk hid htype) rfl hplaced).mono fun _ _ _ hcode =>
      hcode.widen (Nat.zero_le _) (List.nil_subset _)
  | unary hx haccepted htype ih =>
    intro s hplaced hroom
    rw [Expr.depth] at hroom
    rw [valueWith, Expr.depth]
    exact lowerUnary_does (x := ⟨_, valueWith constant _⟩) hx haccepted htype
      fun s' hs => ih s' (hplaced.stays hs) hroom
  | binary hl hr haccepted htype ihl ihr =>
    intro s hplaced hroom
    rw [valueWith]
    exact binary_evaluates hl hr haccepted hplaced hroom
      (fun s' hs => ihl s' (hplaced.stays hs) ((Expr.depth_left_le _ _ _ _).trans hroom))
      (fun s' hs => ihr s' (hplaced.stays hs) ((Expr.depth_right_le _ _ _ _).trans hroom))
  | cast hx hj haccepted htype ih =>
    intro s hplaced hroom
    rw [Expr.depth] at hroom
    rw [valueWith, Expr.depth]
    exact cast_evaluates (x := ⟨_, valueWith constant _⟩) hx hplaced hj haccepted htype (by decide)
      fun s' hs => ih s' (hplaced.stays hs) hroom

/-- The code of an expression whose value is wanted in a type leaves its number in that type. -/
theorem lowerExpr_evaluates {e : Expr} (he : e.Scalar scope k) (hj : j.isIntegral = true)
    (himplicit : Conversion.isImplicit k j = true) (hplaced : scope.Placed p s place)
    (hroom : e.depth ≤ 256) :
    Does (lowerExpr e (.scalar j)) p s
      (Evaluates scope place e.depth valueSlots j fun vars => j.keep (e.number vars)) :=
  inType_evaluates (x := part e) he hplaced hj himplicit (by decide) fun s' hs =>
    .after (perform_lowerValue e p s') (.refl s') (value_evaluates _ he s' (hplaced.stays hs) hroom)

end Lowering

end Breadbin
