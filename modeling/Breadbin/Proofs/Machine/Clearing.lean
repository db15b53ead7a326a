import Breadbin.Proofs.Machine.Branching
import Breadbin.Proofs.Machine.Byte

/-!
# Code that clears memory

`clearing` is the code that stores zeros into a region: per page it counts X down and stores behind
the page's first address.  A full page is counted from 256, which the register holds as zero and the
first decrement turns into 255; the store changes no flag, so the branch still sees what the
decrement left.

Nothing here depends on where the code lies: its addresses may wrap around.
-/

namespace Breadbin.Machine

open Assembly

/-! ## Runs -/

namespace Cpu

/-- The processor comes to a state in some steps without a fault. -/
def Runs (c d : Cpu) : Prop := ∃ k, c.stepMany k = (d, none)

theorem Runs.refl (c : Cpu) : c.Runs c := ⟨0, rfl⟩

theorem Runs.head {c d e : Cpu} (hstep : c.step = (d, none)) (h : d.Runs e) : c.Runs e := by
  obtain ⟨k, hk⟩ := h
  exact ⟨k + 1, (stepMany_succ hstep k).trans hk⟩

theorem Runs.trans {c d e : Cpu} (h : c.Runs d) (h' : d.Runs e) : c.Runs e := by
  obtain ⟨k, hk⟩ := h
  induction k generalizing c with
  | zero =>
    obtain rfl : c = d := congrArg Prod.fst hk
    exact h'
  | succ k ih =>
    rw [stepMany] at hk
    split at hk
    next b hstep => exact .head hstep (ih hk)
    next b fault _ => cases congrArg Prod.snd hk

/-- Something is trapped at an address. -/
def TrapsAt (c : Cpu) (a : UInt16) : Prop :=
  c.chrout ≠ 0 ∧ a = c.chrout ∨ c.plot ≠ 0 ∧ a = c.plot

theorem untrapped_of_not_trapsAt {c : Cpu} (h : ¬c.TrapsAt c.pc) : c.Untrapped :=
  ⟨fun hchrout => h (.inl hchrout), fun hplot => h (.inr hplot)⟩

/-- The bytes lie in memory from an address on. -/
def Keeps (c : Cpu) (q : UInt16) (bytes : List UInt8) : Prop :=
  ∀ i b, bytes[i]? = some b → c.read (q + UInt16.ofNat i) = b

theorem Keeps.left {c : Cpu} {q : UInt16} {xs ys : List UInt8} (h : c.Keeps q (xs ++ ys)) :
    c.Keeps q xs := by
  intro i b hi
  refine h i b ?_
  rw [List.getElem?_append_left (List.getElem?_eq_some_iff.1 hi).1, hi]

theorem Keeps.right {c : Cpu} {q : UInt16} {xs ys : List UInt8} (h : c.Keeps q (xs ++ ys)) :
    c.Keeps (q + UInt16.ofNat xs.length) ys := by
  intro i b hi
  rw [UInt16.add_assoc, ← UInt16.ofNat_add]
  refine h _ b ?_
  rw [List.getElem?_append_right (Nat.le_add_right _ _), Nat.add_sub_cancel_left, hi]

/-- The processor executes the instruction it stands at. -/
theorem step_known {c : Cpu} (h : c.Untrapped) (mn : Mnemonic) (mode : Mode) {code : UInt8}
    (known : Opcode.encode? mn mode = some code) (hcode : c.read c.pc = code) :
    ∃ cycles, c.step = execute { c with
      pc := c.pc + UInt16.ofNat mode.size
      steps := c.steps + 1
      cycles := c.cycles + cycles } ⟨code, mn, mode, cycles⟩ c.pc := by
  obtain ⟨cycles, hdecode⟩ := Opcode.decode?_of_encode? known
  rw [← hcode] at hdecode ⊢
  have hstep := Cpu.step_eq h hdecode
  exact ⟨cycles, hstep⟩

theorem wordOf_toUInt8 (v : UInt16) : wordOf v.toUInt8 (v >>> 8).toUInt8 = v := by
  apply UInt16.toNat_inj.1
  have := v.toNat_lt
  simp [wordOf, Nat.shiftRight_eq_div_pow]
  omega

end Cpu

/-! ## The code -/

/-- The code that clears some bytes of a page, given zero in A. -/
def clearingPage (page : UInt16) (count : Nat) : List UInt8 :=
  [0xA2, UInt8.ofNat count, 0xCA, 0x9D, page.toUInt8, (page >>> 8).toUInt8, 0xD0, 0xFA]

/-- The code of one page of a region. -/
def clearingPageOf (base : UInt16) (n k : Nat) : List UInt8 :=
  clearingPage (base + UInt16.ofNat (256 * k)) (min (n - 256 * k) 256)

/-- How many pages a region has. -/
def clearingPages (n : Nat) : Nat := (n + 255) / 256

/-- The code that clears a region. -/
def clearing (base : UInt16) (n : Nat) : List UInt8 :=
  if n = 0 then [] else [0xA9, 0] ++ (List.range (clearingPages n)).flatMap (clearingPageOf base n)

/-- Where the instructions of the code of a page begin. -/
def clearingPageStarts : List Nat := [0, 2, 3, 6]

/-- Where the instructions of the code begin. -/
def clearingStarts (n : Nat) : List Nat :=
  if n = 0 then []
  else 0 :: (List.range (clearingPages n)).flatMap fun k => clearingPageStarts.map (2 + 8 * k + ·)

theorem length_flatMap_clearingPageOf (base : UInt16) (n : Nat) (ks : List Nat) :
    (ks.flatMap (clearingPageOf base n)).length = 8 * ks.length := by
  induction ks with
  | nil => rfl
  | cons k ks ih =>
    rw [List.flatMap_cons, List.length_append, ih, List.length_cons, clearingPageOf, clearingPage]
    simp only [List.length_cons, List.length_nil]
    omega

/-! ## What is cleared -/

/-- Some cells of `c` are zero in `d` and all others as they were; Y, the stack pointer and the
traps are those of `c`. -/
structure Cpu.Clears (c : Cpu) (P : UInt16 → Prop) (d : Cpu) : Prop where
  zero : ∀ a, P a → d.read a = 0
  kept : ∀ a, ¬P a → d.read a = c.read a
  y : d.y = c.y
  sp : d.sp = c.sp
  chrout : d.chrout = c.chrout
  plot : d.plot = c.plot

namespace Cpu.Clears

variable {c d e : Cpu} {P Q R : UInt16 → Prop}

/-- Nothing is cleared yet. -/
theorem refl (c : Cpu) : c.Clears (fun _ => False) c :=
  ⟨fun _ h => h.elim, fun _ _ => rfl, rfl, rfl, rfl, rfl⟩

theorem congr (h : c.Clears P d) (hPQ : ∀ a, P a ↔ Q a) : c.Clears Q d :=
  { h with zero := fun a ha => h.zero a ((hPQ a).2 ha), kept :=
    fun a ha => h.kept a (mt (hPQ a).1 ha) }

/-- Other registers do not matter. -/
theorem of_same (h : c.Clears P d) (hmemory : e.memory = d.memory) (hy : e.y = d.y)
    (hsp : e.sp = d.sp)
    (hchrout : e.chrout = d.chrout) (hplot : e.plot = d.plot) : c.Clears P e where
  zero a ha := (congrArg (·.read a) hmemory).trans (h.zero a ha)
  kept a ha := (congrArg (·.read a) hmemory).trans (h.kept a ha)
  y := hy.trans h.y
  sp := hsp.trans h.sp
  chrout := hchrout.trans h.chrout
  plot := hplot.trans h.plot

/-- One more cell is cleared. -/
theorem write (h : c.Clears P d) (address : UInt16) :
    c.Clears (fun a => P a ∨ a = address) (d.write address 0) where
  zero a ha := by
    by_cases heq : a = address
    · rw [heq]
      exact Memory.read_write_self _ _ _
    · exact (Memory.read_write_of_ne _ _ (Ne.symm heq)).trans (h.zero a (ha.resolve_right heq))
  kept a ha := by
    rw [not_or] at ha
    exact (Memory.read_write_of_ne _ _ (Ne.symm ha.2)).trans (h.kept a ha.1)
  y := h.y
  sp := h.sp
  chrout := h.chrout
  plot := h.plot

theorem trapsAt (h : c.Clears P d) (a : UInt16) : d.TrapsAt a ↔ c.TrapsAt a := by
  rw [Cpu.TrapsAt, Cpu.TrapsAt, h.chrout, h.plot]

end Cpu.Clears

/-! ## One page -/

/-- The code of a page lies at `q`, outside of a region and with no instruction at a trap. -/
structure ClearingCode (c : Cpu) (R : UInt16 → Prop) (q page : UInt16) (count : Nat) : Prop where
  bytes : c.Keeps q (clearingPage page count)
  apart : ∀ i < 8, ¬R (q + UInt16.ofNat i)
  untrapped : ∀ i ∈ clearingPageStarts, ¬c.TrapsAt (q + UInt16.ofNat i)

namespace ClearingCode

variable {c d : Cpu} {P R : UInt16 → Prop} {q page : UInt16} {count i : Nat} {x : UInt8}

/-- The processor stands somewhere in the code of a page, with zero in A and some cells cleared. -/
structure Stands (c : Cpu) (q : UInt16) (P : UInt16 → Prop) (i : Nat) (x : UInt8) (d : Cpu) : Prop
    extends c.Clears P d where
  pc : d.pc = q + UInt16.ofNat i
  a : d.a = 0
  x : d.x = x

/-- As long as only cells of the region are cleared the code is still there. -/
theorem Stands.read (hd : Stands c q P i x d) (h : ClearingCode c R q page count)
    (hPR : ∀ a, P a → R a) {k : Nat}
    {b : UInt8} (hk : (clearingPage page count)[i + k]? = some b) :
    d.read (d.pc + UInt16.ofNat k) = b := by
  have hlt : i + k < 8 := (List.getElem?_eq_some_iff.1 hk).1
  rw [hd.pc, UInt16.add_assoc, ← UInt16.ofNat_add, hd.kept _ fun hP => h.apart _ hlt (hPR _ hP)]
  exact h.bytes _ b hk

theorem Stands.step (hd : Stands c q P i x d) (h : ClearingCode c R q page count)
    (hPR : ∀ a, P a → R a)
    (hi : i ∈ clearingPageStarts) (mn : Mnemonic) (mode : Mode) {code : UInt8}
    (known : Opcode.encode? mn mode = some code)
    (hcode : (clearingPage page count)[i]? = some code) :
    ∃ cycles, d.step = Cpu.execute { d with
      pc := q + UInt16.ofNat (i + mode.size)
      steps := d.steps + 1
      cycles := d.cycles + cycles } ⟨code, mn, mode, cycles⟩ d.pc := by
  have hfree : d.Untrapped := by
    refine Cpu.untrapped_of_not_trapsAt ?_
    rw [hd.trapsAt, hd.pc]
    exact h.untrapped i hi
  obtain ⟨cycles, hstep⟩ :=
    Cpu.step_known hfree mn mode known (by simpa using hd.read h hPR (k := 0) hcode)
  refine ⟨cycles, hstep.trans ?_⟩
  rw [UInt16.ofNat_add, ← UInt16.add_assoc, ← hd.pc]

theorem Stands.load (hd : Stands c q P 0 x d) (h : ClearingCode c R q page count)
    (hPR : ∀ a, P a → R a) :
    ∃ e, d.step = (e, none) ∧ Stands c q P 2 (UInt8.ofNat count) e := by
  obtain ⟨cycles, hstep⟩ := hd.step h hPR (by decide) .ldx .immediate (by decide) rfl
  refine ⟨_, hstep, hd.of_same rfl rfl rfl rfl rfl, rfl, hd.a, ?_⟩
  exact hd.read h hPR (k := 1) rfl

theorem Stands.decrement (hd : Stands c q P 2 x d) (h : ClearingCode c R q page count)
    (hPR : ∀ a, P a → R a) :
    ∃ e, d.step = (e, none) ∧ Stands c q P 3 (x - 1) e ∧ e.flag .zero = (x - 1 == 0) := by
  obtain ⟨cycles, hstep⟩ := hd.step h hPR (by decide) .dex .implied (by decide) rfl
  refine ⟨_, hstep, ⟨hd.of_same rfl rfl rfl rfl rfl, rfl, hd.a, congrArg (· - 1) hd.x⟩, ?_⟩
  rw [← hd.x]
  exact hasFlag_withValue _ _ _

theorem Stands.store (hd : Stands c q P 3 x d) (h : ClearingCode c R q page count)
    (hPR : ∀ a, P a → R a) :
    ∃ e, d.step = (e, none) ∧ Stands c q (fun a => P a ∨ a = page + x.toUInt16) 6 x e ∧
      e.flag .zero = d.flag .zero := by
  obtain ⟨cycles, hstep⟩ := hd.step h hPR (by decide) .sta .absoluteX (by decide) rfl
  have haddress : Cpu.wordOf (d.read (d.pc + 1)) (d.read (d.pc + 2)) + d.x.toUInt16 =
      page + x.toUInt16 := by
    have hlo : d.read (d.pc + 1) = page.toUInt8 := hd.read h hPR (k := 1) rfl
    have hhi : d.read (d.pc + 2) = (page >>> 8).toUInt8 := hd.read h hPR (k := 2) rfl
    rw [hlo, hhi, Cpu.wordOf_toUInt8, hd.x]
  have hwrite := hd.write (page + x.toUInt16)
  rw [← hd.a] at hwrite
  refine ⟨_, hstep, ⟨hwrite.of_same ?_ rfl rfl rfl rfl, rfl, hd.a, hd.x⟩, rfl⟩
  exact congrArg (fun a => (d.write a d.a).memory) haddress

theorem Stands.branch (hd : Stands c q P 6 x d) (h : ClearingCode c R q page count)
    (hPR : ∀ a, P a → R a) :
    ∃ e, d.step = (e, none) ∧ Stands c q P (if d.flag .zero then 8 else 2) x e := by
  obtain ⟨cycles, hstep⟩ := hd.step h hPR (by decide) .bne .relative (by decide) rfl
  replace hstep : d.step = (Cpu.branch { d with
      pc := q + UInt16.ofNat 8
      steps := d.steps + 1
      cycles := d.cycles + cycles } (!d.flag .zero) d.pc, none) := hstep
  cases hflag : d.flag .zero with
  | true =>
    rw [hflag] at hstep
    exact ⟨_, hstep, hd.of_same rfl rfl rfl rfl rfl, rfl, hd.a, hd.x⟩
  | false =>
    rw [hflag] at hstep
    refine ⟨_, hstep, hd.of_same rfl rfl rfl rfl rfl, ?_, hd.a, hd.x⟩
    have hback : d.read (d.pc + 1) = 0xFA := hd.read h hPR (k := 1) rfl
    show Opcode.branchTarget d.pc (d.read (d.pc + 1)) = q + 2
    rw [hback, hd.pc, Opcode.branchTarget, UInt16.add_assoc, UInt16.add_assoc, UInt16.add_assoc]
    rfl

/-- What is cleared of a page when some of its first bytes still are as they were. -/
def Behind (P : UInt16 → Prop) (page : UInt16) (count j : Nat) (a : UInt16) : Prop :=
  P a ∨ ∃ i < count, j ≤ i ∧ a = page + UInt16.ofNat i

theorem toUInt16_ofNat {j : Nat} (hj : j < 256) : (UInt8.ofNat j).toUInt16 = UInt16.ofNat j := by
  apply UInt16.toNat_inj.1
  rw [UInt8.toNat_toUInt16, UInt8.toNat_ofNat', UInt16.toNat_ofNat']
  omega

/-- **One round.**  The processor clears the last of the `j + 1` bytes that are left; it stands
behind the code when that was the first byte of the page and at the decrement again otherwise. -/
theorem Stands.round {j : Nat}
    (hd : Stands c q (Behind P page count (j + 1)) 2 (UInt8.ofNat (j + 1)) d)
    (h : ClearingCode c R q page count) (hPR : ∀ a, Behind P page count 0 a → R a) (hj : j < count)
    (hcount : count ≤ 256) :
    ∃ e, d.Runs e ∧ Stands c q (Behind P page count j) (if j = 0 then 8 else 2)
      (UInt8.ofNat j) e := by
  have hsub : ∀ k a, Behind P page count k a → R a := by
    rintro k a (ha | ⟨i, hi, -, heq⟩)
    · exact hPR a (.inl ha)
    · exact hPR a (.inr ⟨i, hi, Nat.zero_le i, heq⟩)
  have hnext : UInt8.ofNat (j + 1) - 1 = UInt8.ofNat j := by
    apply UInt8.toNat_inj.1
    rw [UInt8.toNat_sub, UInt8.toNat_ofNat', UInt8.toNat_ofNat',
      show (1 : UInt8).toNat = 1 from rfl]
    omega
  have hzero : (UInt8.ofNat j == 0) = decide (j = 0) := by
    rw [Bool.eq_iff_iff, beq_iff_eq, decide_eq_true_eq, ← UInt8.toNat_inj, UInt8.toNat_ofNat']
    show j % 256 = 0 ↔ j = 0
    omega
  have hmore : ∀ a, (Behind P page count (j + 1) a ∨ a = page + (UInt8.ofNat j).toUInt16) ↔
      Behind P page count j a := by
    intro a
    rw [toUInt16_ofNat (by omega)]
    constructor
    · rintro ((ha | ⟨i, hi, hle, heq⟩) | rfl)
      · exact .inl ha
      · exact .inr ⟨i, hi, by omega, heq⟩
      · exact .inr ⟨j, hj, Nat.le_refl j, rfl⟩
    · rintro (ha | ⟨i, hi, hle, heq⟩)
      · exact .inl (.inl ha)
      · rcases Nat.eq_or_lt_of_le hle with rfl | hlt
        · exact .inr heq
        · exact .inl (.inr ⟨i, hi, hlt, heq⟩)
  obtain ⟨d₁, hstep₁, hd₁, hflag₁⟩ := hd.decrement h (hsub _)
  rw [hnext] at hd₁ hflag₁
  obtain ⟨d₂, hstep₂, hd₂, hflag₂⟩ := hd₁.store h (hsub _)
  replace hd₂ : Stands c q (Behind P page count j) 6 (UInt8.ofNat j) d₂ :=
    ⟨hd₂.toClears.congr hmore, hd₂.pc, hd₂.a, hd₂.x⟩
  -- the store leaves the flag of the decrement for the branch
  obtain ⟨e, hstep₃, he⟩ := hd₂.branch h (hsub _)
  simp only [hflag₂, hflag₁, hzero, decide_eq_true_eq] at he
  exact ⟨e, .head hstep₁ (.head hstep₂ (.head hstep₃ (.refl e))), he⟩

/-- The loop clears the bytes that are left. -/
theorem Stands.loop {j : Nat}
    (hd : Stands c q (Behind P page count (j + 1)) 2 (UInt8.ofNat (j + 1)) d)
    (h : ClearingCode c R q page count) (hPR : ∀ a, Behind P page count 0 a → R a) (hj : j < count)
    (hcount : count ≤ 256) :
    ∃ e, d.Runs e ∧ Stands c q (Behind P page count 0) 8 0 e := by
  induction j generalizing d with
  | zero => exact hd.round h hPR hj hcount
  | succ j ih =>
    obtain ⟨e, hruns, he⟩ := hd.round h hPR hj hcount
    obtain ⟨e', hruns', he'⟩ := ih he (by omega)
    exact ⟨e', hruns.trans hruns', he'⟩

/-- **One page.**  The code of a page clears as many bytes as it was made for. -/
theorem Stands.clearsPage (hd : Stands c q P 0 x d) (h : ClearingCode c R q page count)
    (hPR : ∀ a, Behind P page count 0 a → R a) (hpos : 0 < count) (hcount : count ≤ 256) :
    ∃ e, d.Runs e ∧ Stands c q (Behind P page count 0) 8 0 e := by
  obtain ⟨d₁, hstep, hd₁⟩ := hd.load h fun a ha => hPR a (.inl ha)
  obtain ⟨j, rfl⟩ := Nat.exists_eq_add_one.2 hpos
  have hnone : ∀ a, P a ↔ Behind P page (j + 1) (j + 1) a := by
    refine fun a => ⟨.inl, ?_⟩
    rintro (ha | ⟨i, hi, hle, -⟩)
    · exact ha
    · omega
  obtain ⟨e, hruns, he⟩ :=
    Stands.loop ⟨hd₁.toClears.congr hnone, hd₁.pc, hd₁.a, hd₁.x⟩ h hPR (Nat.lt_succ_self j) hcount
  exact ⟨e, .head hstep hruns, he⟩

end ClearingCode

/-! ## All pages -/

/-- The addresses of a region. -/
def InRegion (base : UInt16) (n : Nat) (a : UInt16) : Prop :=
  base.toNat ≤ a.toNat ∧ a.toNat < base.toNat + n

theorem not_inRegion_zero (base a : UInt16) : ¬InRegion base 0 a := by
  rintro ⟨hlow, hhigh⟩
  omega

/-- One more page of a region is its first bytes up to that page and the bytes of the page. -/
theorem within_page {base : UInt16} {n k : Nat} (hfits : base.toNat + n ≤ 0x10000)
    (hk : 256 * k < n) (a : UInt16) :
    InRegion base (min n (256 * (k + 1))) a ↔
      ClearingCode.Behind (InRegion base (min n (256 * k))) (base + UInt16.ofNat (256 * k))
        (min (n - 256 * k) 256) 0 a := by
  have hplace : ∀ i < min (n - 256 * k) 256,
      (base + UInt16.ofNat (256 * k) + UInt16.ofNat i).toNat = base.toNat + 256 * k + i := by
    intro i hi
    rw [UInt16.toNat_add, UInt16.toNat_add, UInt16.toNat_ofNat', UInt16.toNat_ofNat']
    omega
  constructor
  · rintro ⟨hlow, hhigh⟩
    by_cases hbefore : a.toNat < base.toNat + min n (256 * k)
    · exact .inl ⟨hlow, hbefore⟩
    · refine .inr ⟨a.toNat - (base.toNat + 256 * k), by omega, Nat.zero_le _, ?_⟩
      apply UInt16.toNat_inj.1
      rw [hplace _ (by omega)]
      omega
  · rintro (⟨hlow, hhigh⟩ | ⟨i, hi, -, rfl⟩)
    · exact ⟨hlow, by omega⟩
    · rw [InRegion, hplace i hi]
      omega

/-- The code of some pages lies at `q`, outside of the region and with no instruction at a trap. -/
structure ClearingPages (c : Cpu) (base : UInt16) (n k m : Nat) (q : UInt16) : Prop where
  bytes : c.Keeps q ((List.range' k m).flatMap (clearingPageOf base n))
  apart : ∀ i < 8 * m, ¬InRegion base n (q + UInt16.ofNat i)
  untrapped : ∀ j < m, ∀ i ∈ clearingPageStarts, ¬c.TrapsAt (q + UInt16.ofNat (8 * j + i))

namespace ClearingPages

variable {c d : Cpu} {base q : UInt16} {n k m : Nat}

theorem first (h : ClearingPages c base n k (m + 1) q) :
    ClearingCode c (InRegion base n) q (base + UInt16.ofNat (256 * k)) (min (n - 256 * k) 256) where
  bytes := by
    have hbytes := h.bytes
    rw [List.range'_succ, List.flatMap_cons] at hbytes
    exact hbytes.left
  apart i hi := h.apart i (by omega)
  untrapped i hi := by simpa using h.untrapped 0 (Nat.zero_lt_succ m) i hi

theorem rest (h : ClearingPages c base n k (m + 1) q) :
    ClearingPages c base n (k + 1) m (q + 8) where
  bytes := by
    have hbytes := h.bytes
    rw [List.range'_succ, List.flatMap_cons] at hbytes
    exact hbytes.right
  apart i hi := by
    have := h.apart (8 + i) (by omega)
    rwa [UInt16.ofNat_add, ← UInt16.add_assoc] at this
  untrapped j hj i hi := by
    have := h.untrapped (j + 1) (by omega) i hi
    rwa [Nat.mul_succ, Nat.add_right_comm, Nat.add_comm,
      UInt16.ofNat_add, ← UInt16.add_assoc] at this

/-- **All pages.**  From page `k` of a region on the code clears page after page. -/
theorem runs (h : ClearingPages c base n k m q) (hfits : base.toNat + n ≤ 0x10000)
    (hpages : 256 * (k + m) < n + 256)
    {x : UInt8} (hd : ClearingCode.Stands c q (InRegion base (min n (256 * k))) 0 x d) :
    ∃ e, d.Runs e ∧ e.pc = q + UInt16.ofNat (8 * m) ∧
      c.Clears (InRegion base (min n (256 * (k + m)))) e := by
  induction m generalizing k q x d with
  | zero => exact ⟨d, .refl d, hd.pc, hd.toClears⟩
  | succ m ih =>
    have hregion : ∀ a,
        ClearingCode.Behind (InRegion base (min n (256 * k))) (base + UInt16.ofNat (256 * k))
        (min (n - 256 * k) 256) 0 a → InRegion base n a := by
      intro a ha
      obtain ⟨hlow, hhigh⟩ := (within_page hfits (by omega) a).2 ha
      exact ⟨hlow, by omega⟩
    obtain ⟨e, hruns, he⟩ := hd.clearsPage h.first hregion (by omega) (by omega)
    have he' : ClearingCode.Stands c (q + 8) (InRegion base (min n (256 * (k + 1)))) 0 0 e :=
      ⟨he.toClears.congr fun a => (within_page hfits (by omega) a).symm,
        he.pc.trans (UInt16.add_zero _).symm, he.a, he.x⟩
    obtain ⟨e', hruns', hpc, hclears⟩ := ih h.rest (by omega) he'
    refine ⟨e', hruns.trans hruns', ?_, ?_⟩
    · rw [hpc, Nat.mul_succ, Nat.add_comm, UInt16.ofNat_add, ← UInt16.add_assoc]
      rfl
    · rwa [Nat.add_right_comm, Nat.add_assoc] at hclears

end ClearingPages

/-! ## The whole code -/

/-- The processor stands at the start of some code, which lies outside of a region and has no
instruction at a trap. -/
structure Cpu.Faces (c : Cpu) (code : List UInt8) (starts : List Nat)
    (R : UInt16 → Prop) : Prop where
  bytes : c.Keeps c.pc code
  apart : ∀ i < code.length, ¬R (c.pc + UInt16.ofNat i)
  untrapped : ∀ i ∈ starts, ¬c.TrapsAt (c.pc + UInt16.ofNat i)

/-- **The clearing code clears its region.**  It comes to its end with exactly the bytes of the
region zero; no other byte, Y or the stack pointer has changed. -/
theorem Cpu.Faces.clears {c : Cpu} {base : UInt16} {n : Nat}
    (h : c.Faces (clearing base n) (clearingStarts n) (InRegion base n))
    (hfits : base.toNat + n ≤ 0x10000) :
    ∃ d, c.Runs d ∧ d.pc = c.pc + UInt16.ofNat (clearing base n).length ∧
      c.Clears (InRegion base n) d := by
  by_cases hn : n = 0
  · have hnone : ∀ a, False ↔ InRegion base n a := fun a => ⟨False.elim, fun ⟨_, _⟩ => by omega⟩
    refine ⟨c, .refl c, ?_, (Cpu.Clears.refl c).congr hnone⟩
    rw [clearing, if_pos hn]
    exact (UInt16.add_zero _).symm
  · have hbytes := h.bytes
    have hstarts := h.untrapped
    have hlength := length_flatMap_clearingPageOf base n (List.range (clearingPages n))
    rw [clearing, if_neg hn] at hbytes
    rw [clearingStarts, if_neg hn] at hstarts
    have hall : (clearing base n).length = 2 + 8 * clearingPages n := by
      rw [clearing, if_neg hn, List.length_append, hlength, List.length_range]
      rfl
    -- A is loaded with zero
    have hfree : c.Untrapped := untrapped_of_not_trapsAt (by simpa using hstarts 0 (by simp))
    have hfirst : c.read c.pc = 0xA9 := by simpa using hbytes.left 0 0xA9 rfl
    obtain ⟨cycles, hstep⟩ := Cpu.step_known hfree .lda .immediate (by decide) hfirst
    have hzero : c.read (c.pc + 1) = 0 := hbytes.left 1 0 rfl
    have hpages : ClearingPages c base n 0 (clearingPages n) (c.pc + 2) := by
      refine ⟨?_, fun i hi => ?_, fun j hj i hi => ?_⟩
      · rw [← List.range_eq_range']
        exact hbytes.right
      · have := h.apart (2 + i) (by omega)
        rwa [UInt16.ofNat_add, ← UInt16.add_assoc] at this
      · have := hstarts (2 + 8 * j + i) (List.mem_cons_of_mem _
          (List.mem_flatMap.2 ⟨j, List.mem_range.2 hj, List.mem_map.2 ⟨i, hi, rfl⟩⟩))
        rwa [Nat.add_assoc, UInt16.ofNat_add, ← UInt16.add_assoc] at this
    have hnone : ∀ a, False ↔ InRegion base (min n (256 * 0)) a := by
      intro a
      rw [Nat.mul_zero, Nat.min_zero]
      exact (iff_false_intro (not_inRegion_zero base a)).symm
    have hloaded : ∃ d, c.step = (d, none) ∧
        ClearingCode.Stands c (c.pc + 2) (InRegion base (min n (256 * 0))) 0 c.x d :=
      ⟨_, hstep, ((Cpu.Clears.refl c).congr hnone).of_same rfl rfl rfl rfl rfl,
        (UInt16.add_zero _).symm, hzero, rfl⟩
    obtain ⟨d₁, hfirst, hd₁⟩ := hloaded
    obtain ⟨d, hruns, hpc, hclears⟩ := hpages.runs hfits (by unfold clearingPages; omega) hd₁
    refine ⟨d, .head hfirst hruns, ?_, ?_⟩
    · rw [hpc, hall, UInt16.ofNat_add, ← UInt16.add_assoc]
      rfl
    · have hmin : min n (256 * (0 + clearingPages n)) = n := by
        unfold clearingPages
        omega
      rwa [hmin] at hclears

end Breadbin.Machine
