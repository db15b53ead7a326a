import Breadbin.Proofs.Machine.Code

/-!
# What code leaves alone

Code that computes a value changes registers, some slots of the zero page and, while it runs, the
stack below the stack pointer.  `View.Frame` says so with the slots and the depth of the stack; the
stack may wrap around its page, so depths are counted downwards from the stack pointer.
-/

namespace Breadbin.Machine

open Assembly

/-- Besides registers and flags, only the given slots and the next `depth` bytes of the stack may
have changed. -/
structure View.Frame (depth : Nat) (slots : List UInt8) (v w : View) : Prop where
  sp : w.sp = v.sp
  main : w.main = v.main
  zp : ∀ i, i ∉ slots → w.zp i = v.zp i
  stack : ∀ i : UInt8, depth ≤ (v.sp - i).toNat → w.stack i = v.stack i

namespace View.Frame

variable {u v w : View} {d e : Nat} {slots more : List UInt8}

theorem refl (v : View) : Frame 0 [] v v := ⟨rfl, rfl, fun _ _ => rfl, fun _ _ => rfl⟩

theorem mono (h : Frame d slots v w) (hd : d ≤ e) (hslots : slots ⊆ more) : Frame e more v w :=
  ⟨h.sp, h.main, fun i hi => h.zp i fun hmem => hi (hslots hmem),
    fun i hi => h.stack i (Nat.le_trans hd hi)⟩

theorem trans (h : Frame d slots u v) (h' : Frame d slots v w) : Frame d slots u w :=
  ⟨h'.sp.trans h.sp, h'.main.trans h.main, fun i hi => (h'.zp i hi).trans (h.zp i hi),
    fun i hi => (h'.stack i (by rwa [h.sp])).trans (h.stack i hi)⟩

/-- A view that differs in registers, flags and some slots. -/
theorem of_eq (hsp : w.sp = v.sp) (hmain : w.main = v.main) (hstack : w.stack = v.stack)
    (hzp : ∀ i, i ∉ slots → w.zp i = v.zp i) : Frame 0 slots v w :=
  ⟨hsp, hmain, hzp, fun i _ => congrFun hstack i⟩

/-- A byte that waits on the stack is kept, and may be pulled again. -/
theorem push {n : UInt8} (h : Frame d slots (v.push n) w) (hd : d ≤ 255) :
    w.top = n ∧ Frame (d + 1) slots v w.drop := by
  have hsp : w.sp = v.sp - 1 := h.sp
  have hback : v.sp - 1 + 1 = v.sp := by simp
  refine ⟨?_, ?_, h.main, h.zp, fun i hi => ?_⟩
  · rw [View.top, hsp, hback, h.stack v.sp]
    · exact Function.update_self ..
    · have := v.sp.toNat_lt
      change d ≤ (v.sp - 1 - v.sp).toNat
      simp only [UInt8.toNat_sub, UInt8.toNat_one]
      omega
  · rw [View.drop, hsp]
    exact hback
  · have hne : i ≠ v.sp := by
      rintro rfl
      simp at hi
    have hdist : d ≤ ((v.push n).sp - i).toNat := by
      have : (v.sp - 1 - i).toNat = (v.sp - i).toNat - 1 := by
        have := v.sp.toNat_lt
        have := i.toNat_lt
        simp only [UInt8.toNat_sub, UInt8.toNat_one] at hi ⊢
        omega
      change d ≤ (v.sp - 1 - i).toNat
      omega
    exact (h.stack i hdist).trans (Function.update_of_ne hne _ _)

end View.Frame

/-! ## Sequences -/

/-- The slot that an instruction stores into. -/
def slots : Line → List UInt8
  | .instr mn (.zeroPage z) =>
    if mn ∈ [.sta, .stx, .sty, .inc, .dec, .asl, .lsr, .rol, .ror] then [z] else []
  | _ => []

/-- Whether an instruction leaves the stack alone. -/
def isLevel : Line → Bool
  | .instr mn _ => mn ∉ [.pha, .pla]
  | _ => true

theorem View.Frame.store (v : View) (z n : UInt8) : v.Frame 0 [z] (v.store z n) :=
  .of_eq rfl rfl rfl fun i hi => Function.update_of_ne (by simpa using hi) _ _

theorem exec_frame {v w : View} {mn : Mnemonic} {arg : Arg} (h : v.exec mn arg = some w)
    (hlevel : isLevel (.instr mn arg) = true) : v.Frame 0 (slots (.instr mn arg)) w := by
  cases mn <;> simp only [View.exec, Option.map_eq_some_iff, reduceCtorEq] at h
  case sta | stx | sty =>
    cases arg <;> cases h
    exact .store v _ _
  case inc | dec | asl | lsr | rol | ror =>
    cases arg <;> cases h
    · exact .of_eq rfl rfl rfl fun _ _ => rfl
    · exact { View.Frame.store v _ _ with }
  case pha | pla => cases hlevel
  case tax | tay | txa | tya | inx | iny | dex | dey | clc | sec =>
    cases h
    exact .of_eq rfl rfl rfl fun _ _ => rfl
  all_goals
    obtain ⟨n, -, rfl⟩ := h
    exact .of_eq rfl rfl rfl fun _ _ => rfl

/-- Instructions in a row change the slots they store into. -/
theorem execAll_frame {v w : View} {ls : List Line} (h : LinkedCode.execAll v ls = some w)
    (hlevel : ls.all isLevel = true) : v.Frame 0 (ls.flatMap slots) w := by
  induction ls generalizing v with
  | nil =>
    obtain rfl := Option.some.inj h
    exact .refl v
  | cons line ls ih =>
    simp only [List.all_cons, Bool.and_eq_true] at hlevel
    cases line with
    | instr mn arg =>
      obtain ⟨u, hu, hw⟩ := Option.bind_eq_some_iff.1 h
      rw [List.flatMap_cons]
      exact ((exec_frame hu hlevel.1).mono (Nat.le_refl 0) (by simp)).trans
        ((ih hw hlevel.2).mono (Nat.le_refl 0) (by simp))
    | _ => cases h

/-- Whether an instruction leaves X alone. -/
def leavesX : Line → Bool
  | .instr mn _ => mn ∉ [.ldx, .tax, .inx, .dex]
  | _ => true

theorem exec_x {v w : View} {mn : Mnemonic} {arg : Arg} (h : v.exec mn arg = some w)
    (hx : leavesX (.instr mn arg) = true) : w.x = v.x := by
  cases mn <;> simp only [View.exec, Option.map_eq_some_iff, reduceCtorEq] at h
  case ldx | tax | inx | dex => cases hx
  case sta | stx | sty | inc | dec | asl | lsr | rol | ror =>
    cases arg <;> cases h <;> rfl
  case tay | txa | tya | iny | dey | clc | sec | pha | pla =>
    cases h
    rfl
  all_goals
    obtain ⟨n, -, rfl⟩ := h
    rfl

/-- Instructions in a row that leave X alone. -/
theorem execAll_x {v w : View} {ls : List Line} (h : LinkedCode.execAll v ls = some w)
    (hx : ls.all leavesX = true) : w.x = v.x := by
  induction ls generalizing v with
  | nil =>
    obtain rfl := Option.some.inj h
    rfl
  | cons line ls ih =>
    simp only [List.all_cons, Bool.and_eq_true] at hx
    cases line with
    | instr mn arg =>
      obtain ⟨u, hu, hw⟩ := Option.bind_eq_some_iff.1 h
      exact (ih hw hx.2).trans (exec_x hu hx.1)
    | _ => cases h

namespace LinkedCode

variable {code : LinkedCode} {a b c target : Nat} {u v w : View} {l : LabelId}
  {d : Nat} {zs : List UInt8}

/-- The processor comes from `a` and `v` to `b` and `w`, and changes no more than a frame allows. -/
structure Path (code : LinkedCode) (depth : Nat) (slots : List UInt8) (a : Nat) (v : View) (b : Nat)
    (w : View) : Prop where
  reaches : code.Reaches 0 a v b w
  frame : v.Frame depth slots w

theorem Path.trans (h : code.Path d zs a u b v) (h' : code.Path d zs b v c w) :
    code.Path d zs a u c w :=
  ⟨h.reaches.andThen h'.reaches, h.frame.trans h'.frame⟩

theorem Path.mono {e : Nat} {more : List UInt8} (h : code.Path d zs a v b w) (hd : d ≤ e)
    (hslots : zs ⊆ more) : code.Path e more a v b w :=
  ⟨h.reaches, h.frame.mono hd hslots⟩

/-- Going somewhere changes nothing. -/
theorem Reaches.path {k : Nat} (h : code.Reaches k a v b v) : code.Path d zs a v b v :=
  ⟨h.mono (Nat.zero_le k), (View.Frame.refl v).mono (Nat.zero_le d) (List.nil_subset zs)⟩

/-- The branch back at the end of a loop that counts a register down. -/
theorem Installed.again {n : UInt8} (h : code.Installed a [.instr .bne (.relative l)] b)
    (hl : code.At l target) (hzero : v.zero = (n == 0)) :
    code.Path d zs a v (if n = 0 then b else target) v := by
  by_cases hn : n = 0
  · rw [if_pos hn]
    exact (h.branch_skipped hl (by simp [View.takes?, hzero, hn])).path
  · rw [if_neg hn]
    exact (h.branch_taken hl (by simp [View.takes?, hzero, hn])).path

/-- A loop that counts a register down.  `Inv n` holds with `n` rounds to go. -/
theorem Path.countdown (count : View → UInt8) (Inv : Nat → View → Prop)
    (hround : ∀ n v, Inv (n + 1) v → ∃ w, code.Path d zs a v (if count w = 0 then b else a) w ∧
      count w = count v - 1 ∧ Inv n w)
    (n : Nat) (v : View) (hcount : (count v).toNat = n + 1) (hinv : Inv (n + 1) v) :
    ∃ w, code.Path d zs a v b w ∧ Inv 0 w := by
  induction n generalizing v with
  | zero =>
    obtain ⟨w, hpath, hw, hdone⟩ := hround 0 v hinv
    have hzero : count w = 0 := by rw [eq_zero_iff, hw, toNat_sub_one hcount]
    rw [if_pos hzero] at hpath
    exact ⟨w, hpath, hdone⟩
  | succ n ih =>
    obtain ⟨u, hpath, hu, hrest⟩ := hround (n + 1) v hinv
    have hleft : (count u).toNat = n + 1 := by rw [hu, toNat_sub_one hcount]
    have hne : count u ≠ 0 := by
      rw [Ne, eq_zero_iff]
      omega
    rw [if_neg hne] at hpath
    obtain ⟨w, hpath', hdone⟩ := ih u hleft hrest
    exact ⟨w, hpath.trans hpath', hdone⟩

/-- Instructions in a row. -/
theorem Installed.path {ls : List Line} (h : code.Installed a ls b) (hexec : execAll v ls = some w)
    (hlevel : ls.all isLevel = true) (hslots : ls.flatMap Machine.slots ⊆ zs) :
    code.Path d zs a v b w :=
  ⟨h.run hexec, (execAll_frame hexec hlevel).mono (Nat.zero_le d) hslots⟩

/-- A routine that starts with the view `v` ends at a return with the view `w`. -/
def Returns (code : LinkedCode) (a : Nat) (v w : View) : Prop :=
  ∃ r e, code.Reaches 0 a v r w ∧ code.Installed r [.instr .rts .implied] e

/-- Code in front of a routine. -/
theorem Path.returns (h : code.Path d zs a u b v) (h' : code.Returns b v w) :
    code.Returns a u w := by
  obtain ⟨r, e, hreaches, hrts⟩ := h'
  exact ⟨r, e, h.reaches.andThen hreaches, hrts⟩

/-- The return of a routine that leaves the return address alone. -/
theorem returnAddress_of_frame (h : (v.call b).Frame d zs w)
    (hd : d ≤ 254) (hb : 1 ≤ b) (hb' : b < 0x10001) :
    w.returnAddress = b ∧ v.Frame (d + 2) zs w.drop.drop := by
  obtain ⟨hlo, hinner⟩ := View.Frame.push h (by omega)
  obtain ⟨hhi, houter⟩ := hinner.push (by omega)
  refine ⟨?_, houter⟩
  rw [View.returnAddress, hlo, hhi, UInt8.toNat_ofNat', UInt8.toNat_ofNat']
  omega

/-- What a routine does: how far down the stack and in which slots it leaves traces, and what holds
of its end. -/
structure Behaviour where
  depth : Nat
  slots : List UInt8
  ends : View → View → Prop
  /-- what holds of the end has nothing to do with the stack -/
  level : ∀ {v w : View} {b : Nat}, ends (v.call b) w → ends v w.drop.drop

/-- The routine at an address does so from wherever it starts. -/
def Behaves (code : LinkedCode) (a : Nat) (r : Behaviour) : Prop :=
  ∀ v, ∃ w, code.Returns a v w ∧ v.Frame r.depth r.slots w ∧ r.ends v w

/-- A call of a routine. -/
theorem Behaves.call {r : Behaviour} (hr : code.Behaves target r) (hl : code.At l target)
    (h : code.Installed a [.instr .jsr (.absolute (.ofLabel l))] b)
    (hd : r.depth ≤ 254) (v : View) :
    ∃ w, code.Path (r.depth + 2) r.slots a v b w ∧ r.ends v w := by
  obtain ⟨w, ⟨e, e', hreaches, hrts⟩, hframe, hends⟩ := hr (v.call b)
  obtain ⟨op, -, hcontains, hb, -⟩ := h.instr rfl
  have hbounds := hcontains.bounds.2.1
  obtain ⟨haddress, houter⟩ :=
    returnAddress_of_frame hframe hd (by simp at hb; omega) (by rw [hb]; omega)
  have hback := hrts.giveBack (v := w) (by rw [haddress, hb]; omega)
  rw [haddress] at hback
  exact ⟨_, ⟨((h.call hl).andThen hreaches).andThen hback, houter⟩, r.level hends⟩

end LinkedCode

end Breadbin.Machine

/-!
## Reading and storing anywhere

The operand of an instruction may lie at an address that is only known while the code runs.
`View.peek` is the byte at any address, `LinkedCode.address?` the address an operand lies at and
`LinkedCode.value` what is read there.  A store is told only where it hits neither the first two
pages nor the code.
-/

namespace Breadbin.Machine

open Assembly

/-- The byte at an address. -/
def View.peek (v : View) (address : UInt16) : UInt8 :=
  if address.toNat < 0x100 then v.zp (UInt8.ofNat address.toNat)
  else if address.toNat < mainBase then v.stack (UInt8.ofNat (address.toNat - 0x100))
  else v.main address

/-- Executes an instruction that reads its operand, whose value is `n`. -/
def View.takeIn? (v : View) (n : UInt8) : Mnemonic → Option View
  | .lda => some (v.setA n)
  | .ldx => some (v.setX n)
  | .ldy => some (v.setY n)
  | .adc => some (v.add n)
  | .sbc => some (v.add (~~~n))
  | .and => some (v.setA (v.a &&& n))
  | .ora => some (v.setA (v.a ||| n))
  | .eor => some (v.setA (v.a ^^^ n))
  | .cmp => some (v.compare v.a n)
  | .cpx => some (v.compare v.x n)
  | .cpy => some (v.compare v.y n)
  | _ => none

/-- The byte that an instruction stores. -/
def View.giveOut? (v : View) : Mnemonic → Option UInt8
  | .sta => some v.a
  | .stx => some v.x
  | .sty => some v.y
  | _ => none

namespace Cpu.Shows

variable {c : Cpu} {v : View}

theorem peek (h : c.Shows v) (address : UInt16) : c.read address = v.peek address := by
  have hlt := address.toNat_lt
  unfold View.peek
  split
  next hzero =>
    rw [← h.zp]
    refine congrArg c.read (UInt16.toNat_inj.1 ?_)
    rw [UInt8.toNat_toUInt16, UInt8.toNat_ofNat', Nat.mod_eq_of_lt hzero]
  next hzero =>
    split
    next hstack =>
      rw [← h.stack]
      refine congrArg c.read (UInt16.toNat_inj.1 ?_)
      rw [mainBase] at hstack
      rw [toNat_stackSlot, UInt8.toNat_ofNat']
      omega
    next hmain => exact h.main address (Nat.le_of_not_lt hmain)

theorem takeIn (h : c.Shows v) (op : Opcode) {pos : UInt16} {n : UInt8}
    (hn : c.operand op.mode pos = n) {v' : View} (hexec : v.takeIn? n op.mnemonic = some v') :
    ∃ c', c.execute op pos = (c', none) ∧ c'.Shows v' ∧ c'.pc = c.pc := by
  obtain ⟨code, mn, mode, cycles⟩ := op
  replace hn : c.operand mode pos = n := hn
  cases mn <;> simp only [View.takeIn?, Option.some.injEq, reduceCtorEq] at hexec <;>
    subst hexec <;>
    refine ⟨_, rfl, ?_, rfl⟩ <;> simp only [hn, h.a, h.x, h.y]
  case lda | and | ora | eor => exact h.setA _
  case ldx => exact h.setX _
  case ldy => exact h.setY _
  case adc | sbc => exact h.add _
  case cmp | cpx | cpy => exact h.compare _ _

end Cpu.Shows

namespace LinkedCode

variable {code : LinkedCode} {a b : Nat} {v v' : View}

/-- The address that an operand in memory lies at. -/
def address? (code : LinkedCode) (v : View) : Arg → Option UInt16
  | .zeroPage z => some z.toUInt16
  | .absolute r => some (UInt16.ofNat (code.env.of r))
  | .absoluteX r => some (UInt16.ofNat (code.env.of r) + v.x.toUInt16)
  | .absoluteY r => some (UInt16.ofNat (code.env.of r) + v.y.toUInt16)
  | .indirectY z => some (Cpu.wordOf (v.zp z) (v.zp (z + 1)) + v.y.toUInt16)
  | _ => none

/-- The value of an operand that is read. -/
def value? (code : LinkedCode) (v : View) : Arg → Option UInt8
  | .immediate n => some n
  | .lowByte r => some (UInt8.ofNat (code.env.of r % 256))
  | .highByte r => some (UInt8.ofNat (code.env.of r / 256))
  | arg => (code.address? v arg).map v.peek

/-- The processor finds operands in memory where `address?` says. -/
theorem effectiveAddress {c : Cpu} {pos : UInt16} {arg : Arg} {op : UInt8} (hshows : c.Shows v)
    (hread : ∀ i n, (op :: arg.bytes code.env)[i]? = some n → c.read (pos + UInt16.ofNat i) = n)
    (hfits : ∀ r, arg.ref? = some r → code.env.of r < 0x10000) {address : UInt16}
    (haddress : code.address? v arg = some address) :
    c.effectiveAddress arg.mode pos = address := by
  have hword (r : AddressRef) (hr : arg.ref? = some r)
      (hbytes : arg.bytes code.env = wordBytes (code.env.of r)) :
      Cpu.wordOf (c.read (pos + 1)) (c.read (pos + 2)) = UInt16.ofNat (code.env.of r) := by
    have hlo : c.read (pos + 1) = UInt8.ofNat (code.env.of r % 256) :=
      hread 1 _ (by rw [hbytes]; rfl)
    have hhi : c.read (pos + 2) = UInt8.ofNat (code.env.of r / 256) :=
      hread 2 _ (by rw [hbytes]; rfl)
    rw [hlo, hhi]
    refine UInt16.toNat_inj.1 ?_
    rw [toNat_wordOf_wordBytes (hfits r hr), UInt16.toNat_ofNat', Nat.mod_eq_of_lt (hfits r hr)]
  cases arg <;> simp only [address?, Option.some.injEq, reduceCtorEq] at haddress <;> subst haddress
  case zeroPage z => exact congrArg UInt8.toUInt16 (hread 1 z rfl)
  case absolute r => exact hword r rfl rfl
  case absoluteX r =>
    rw [← hshows.x, ← hword r rfl rfl]
    rfl
  case absoluteY r =>
    rw [← hshows.y, ← hword r rfl rfl]
    rfl
  case indirectY z =>
    have hz : c.read (pos + 1) = z := hread 1 z rfl
    rw [← hshows.y, ← hshows.zp, ← hshows.zp, ← hz]
    rfl

/-- The processor reads the values that `value?` says. -/
theorem operand {c : Cpu} {pos : UInt16} {arg : Arg} {op : UInt8} (hshows : c.Shows v)
    (hread : ∀ i n, (op :: arg.bytes code.env)[i]? = some n → c.read (pos + UInt16.ofNat i) = n)
    (hfits : ∀ r, arg.ref? = some r → code.env.of r < 0x10000) {n : UInt8}
    (hn : code.value? v arg = some n) : c.operand arg.mode pos = n := by
  have hmemory {address : UInt16} (haddress : code.address? v arg = some address) :
      c.read (c.effectiveAddress arg.mode pos) = v.peek address := by
    rw [effectiveAddress hshows hread hfits haddress, hshows.peek]
  cases arg <;>
    simp only [value?, address?, Option.map_some, Option.map_none, Option.some.injEq,
      reduceCtorEq] at hn <;>
      subst hn
  case immediate n => exact hread 1 n rfl
  case lowByte r | highByte r => exact hread 1 _ rfl
  all_goals exact hmemory rfl

/-- An instruction that reads. -/
theorem Installed.takeIn {mn : Mnemonic} {arg : Arg}
    (h : code.Installed a [.instr mn arg] b) {n : UInt8}
    (hn : code.value? v arg = some n) (hexec : v.takeIn? n mn = some v') :
    code.Reaches 1 a v b v' := by
  have hbranch : arg.branch? = none := by
    cases arg <;> first | rfl | cases hn
  obtain ⟨op, known, hcontains, rfl, hfits⟩ := h.instr hbranch
  refine reaches_of_step hcontains (by simp) fun c hc => ?_
  obtain ⟨cycles, d, hstep, hd, hpc, hread⟩ := hc.execute known hcontains
  obtain ⟨c', hc', hshows, hpc'⟩ :=
    hd.takeIn ⟨op, mn, arg.mode, cycles⟩ (operand hd hread hfits hn) hexec
  have hkept : v'.main = v.main ∧ v'.chrout = v.chrout ∧ v'.plot = v.plot := by
    cases mn <;> cases hexec <;> exact ⟨rfl, rfl, rfl⟩
  exact ⟨c', by rw [hstep, hc'], hshows, by rw [hpc', hpc],
    hc.intact.of_main hkept.1 hkept.2.1 hkept.2.2⟩

theorem Intact.poke (h : code.Intact v) {address : UInt16}
    (hfree : ¬code.Covers address.toNat) (n : UInt8) :
    code.Intact (v.poke address n) := by
  refine ⟨fun i m hi => ?_, h.chrout, h.plot⟩
  rw [← h.bytes i m hi]
  refine Function.update_of_ne (fun heq => hfree ?_) _ _
  have hlt : i < code.bytes.length := (List.getElem?_eq_some_iff.1 hi).1
  rw [length_bytes] at hlt
  have := code.below
  rw [← heq, UInt16.toNat_ofNat', Nat.mod_eq_of_lt (by omega)]
  exact ⟨by omega, by omega⟩

/-- An instruction that stores behind the stack page and does not hit the code. -/
theorem Installed.giveOut {mn : Mnemonic} {arg : Arg}
    (h : code.Installed a [.instr mn arg] b) {n : UInt8}
    (hn : v.giveOut? mn = some n) {address : UInt16} (haddress : code.address? v arg = some address)
    (hmain : mainBase ≤ address.toNat) (hfree : ¬code.Covers address.toNat) :
    code.Reaches 1 a v b (v.poke address n) := by
  have hbranch : arg.branch? = none := by
    cases arg <;> first | rfl | cases haddress
  obtain ⟨op, known, hcontains, rfl, hfits⟩ := h.instr hbranch
  refine reaches_of_step hcontains (by simp) fun c hc => ?_
  obtain ⟨cycles, d, hstep, hd, hpc, hread⟩ := hc.execute known hcontains
  have hmemory := effectiveAddress hd hread hfits haddress
  have hexecute : d.execute ⟨op, mn, arg.mode, cycles⟩ c.pc = (d.write address n, none) := by
    cases mn <;> cases hn <;> simp only [Cpu.execute, hmemory, hd.a, hd.x, hd.y]
  exact ⟨_, hstep.trans hexecute, hd.poke hmain n, hpc, hc.intact.poke hfree n⟩

end LinkedCode

end Breadbin.Machine
