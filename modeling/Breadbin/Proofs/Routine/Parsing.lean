import Breadbin.Proofs.Routine.Digits

/-!
# Texts as numbers

The digits of a string are taken one after the other, each behind ten times the number so far.  A
byte is a digit if less than ten is left of it above the zero, whatever the byte.
-/

namespace Breadbin.Routine

open Assembly Machine ZeroPage Writer LinkedCode

/-! ## Digits in strings -/

/-- The value of digits behind a number. -/
def decimalFrom (n : ℕ) (s : List UInt8) : ℕ := s.foldl (fun n c => 10 * n + (c.toNat - 0x30)) n

theorem decimalOf_eq (s : List UInt8) : decimalOf s = decimalFrom 0 s := rfl

/-- The number in front counts modulo 65536. -/
theorem decimalFrom_mod (n : ℕ) (s : List UInt8) :
    decimalFrom (n % 65536) s % 65536 = decimalFrom n s % 65536 := by
  have hcongr : ∀ s : List UInt8, ∀ m n : ℕ, m % 65536 = n % 65536 →
      decimalFrom m s % 65536 = decimalFrom n s % 65536 := by
    intro s
    induction s with
    | nil => exact fun _ _ h => h
    | cons c s ih =>
      refine fun m n h => ih _ _ ?_
      show (10 * m + (c.toNat - 0x30)) % 65536 = (10 * n + (c.toNat - 0x30)) % 65536
      omega
  exact hcongr s _ _ (Nat.mod_mod n 65536)

/-- A byte is a digit if it is less than ten above the zero. -/
theorem isDigit_iff (c : UInt8) : (0x30 ≤ c ∧ c ≤ 0x39) ↔ (c - 0x30).toNat < 10 := by
  have := c.toNat_lt
  rw [UInt8.le_iff_toNat_le, UInt8.le_iff_toNat_le, UInt8.toNat_sub]
  simp only [UInt8.reduceToNat]
  omega

/-- The digits from an index on, if there is one there. -/
theorem digits_drop_of_digit {s : List UInt8} {i : ℕ} (h : (s.getD i 0 - 0x30).toNat < 10) :
    i < s.length ∧ digits (s.drop i) = s.getD i 0 :: digits (s.drop (i + 1)) := by
  have hlt : i < s.length := by
    by_contra hle
    rw [List.getD_eq_default _ _ (Nat.le_of_not_lt hle)] at h
    revert h
    decide
  refine ⟨hlt, ?_⟩
  rw [List.drop_eq_getElem_cons hlt, digits, ← List.getD_eq_getElem _ 0, List.takeWhile_cons_of_pos]
  · rfl
  · exact decide_eq_true ((isDigit_iff _).2 h)

theorem digits_drop_of_not_digit {s : List UInt8} {i : ℕ} (h : ¬(s.getD i 0 - 0x30).toNat < 10) :
    digits (s.drop i) = [] := by
  rcases Nat.lt_or_ge i s.length with hlt | hle
  · rw [List.drop_eq_getElem_cons hlt, digits, ← List.getD_eq_getElem _ 0,
      List.takeWhile_cons_of_neg]
    rw [decide_eq_true_eq, isDigit_iff]
    exact h
  · rw [List.drop_eq_nil_of_le hle]
    rfl

/-- A routine without buffers leaves the memory alone. -/
theorem kept_main {t : Target} {id : RoutineId} {k : ℕ} {u v : View}
    (h : (conduct t id).Keeps k u v) (hid : (bounds id).buffers = []) :
    v.main = u.main := by
  refine funext fun address => h.main address fun hown => ?_
  obtain ⟨area, harea, -⟩ := hown
  rw [conduct, hid] at harea
  cases harea

/-! ## Parsing words -/

variable {t : Target} {u v w : View}

/-- The string that a routine reads. -/
def Reads (zs : List UInt8) (u : View) (s : List UInt8) : Prop := u.Spells zs (u.pointer string1) s

/-- The number so far, with the digits that are left behind it, is the one that is looked for. -/
def Parsing (number : ℕ) (y : ℕ) (u : View) : Prop :=
  ∀ s, Reads (word intR ++ workBytes 3) u s → u.y.toNat ≤ s.length → y ≤ s.length ∧
    decimalFrom number (digits (s.drop y)) % 65536 = decimalOf (digits (s.drop u.y.toNat)) % 65536

/-- A digit is taken. -/
theorem Parsing.step {number : ℕ} {y d : UInt8} (h : Parsing number y.toNat u)
    (hd : ∀ s, Reads (word intR ++ workBytes 3) u s → u.y.toNat ≤ s.length →
      d = s.getD y.toNat 0 - 0x30) (hten : d.toNat < 10) :
    Parsing ((10 * number + d.toNat) % 65536) (y.toNat + 1) u := by
  intro s hs hy
  obtain ⟨-, hvalue⟩ := h s hs hy
  have hdigit := hd s hs hy
  rw [hdigit] at hten
  obtain ⟨hlt, hdigits⟩ := digits_drop_of_digit hten
  refine ⟨hlt, ?_⟩
  have hsub : d.toNat = (s.getD y.toNat 0).toNat - 0x30 := by
    have := (s.getD y.toNat 0).toNat_lt
    rw [hdigit, UInt8.toNat_sub] at *
    simp only [UInt8.reduceToNat] at *
    omega
  rw [decimalFrom_mod, hsub, ← hvalue, hdigits]
  rfl

/-- A digit waits to be added, and so does a number, of which a multiple has taken the place. -/
structure Multiplied (k : ℕ) (u v : View) : Prop where
  parsing : Parsing ((10 * v.word work + (v.zp (work + 2)).toNat) % 65536) (v.y.toNat + 1) u
  digit : (v.zp (work + 2)).toNat < 10
  multiple : v.word intR = k * v.word work % 65536

theorem Multiplied.next {j k : ℕ} (h : Multiplied j u v)
    (hframe : v.Frame 0 [intR, intR + 1] w) (hy : w.y = v.y)
    (hmultiple : w.word intR = k * v.word work % 65536) : Multiplied k u w := by
  have hwork : w.word work = v.word work := hframe.word (by decide) (by decide)
  have hdigit : w.zp (work + 2) = v.zp (work + 2) := hframe.zp _ (by decide)
  refine ⟨?_, hdigit ▸ h.digit, hwork ▸ hmultiple⟩
  rw [hwork, hdigit, hy]
  exact h.parsing

theorem parseU16_conducted : Conducted t .parseU16 := by
  refine .last ?_
  simp only [body, parseU16, bind_assoc]
  refine .label (fun _ u v => parses u v) fun done => ?_
  let reading : Assertion := fun n u v => Parsing (v.word intR) v.y.toNat u ∧ 256 - v.y.toNat ≤ n
  refine .exec (Q := fun _ u v => Parsing (v.word intR) v.y.toNat u) rfl (fun _ u v huv => ?_) ?_
  · subst huv
    exact ⟨_, rfl, fun s _ hy => ⟨hy, rfl⟩⟩
  refine .renew (Q := reading) (.here fun loop => ?_) fun _ u v hv => ⟨_, hv, Nat.le_refl _⟩
  refine .knowing (.read (Q := fun n u v => reading n u v ∧
    ∀ s, Reads (word intR ++ workBytes 3) u s → u.y.toNat ≤ s.length →
      v.a = s.getD v.y.toNat 0) rfl rfl (fun n u v hv => ?_) ?_)
  · obtain ⟨hreading, -, hkeeps⟩ := hv
    have hpointer : v.pointer string1 = u.pointer string1 := by
      rw [View.pointer, kept hkeeps (by decide), kept hkeeps (by decide)]
      rfl
    refine ⟨_, _, rfl, rfl, hreading, fun s hs hy => ?_⟩
    show v.peek (v.pointer string1 + v.y.toUInt16) = _
    rw [hpointer]
    exact hs.peek (hreading.1 s hs hy).1 hkeeps.zp fun _ => by rw [kept_main hkeeps rfl]
  let taking (d : View → UInt8) : Assertion := fun n u v => reading n u v ∧
    ∀ s, Reads (word intR ++ workBytes 3) u s → u.y.toNat ≤ s.length →
      d v = s.getD v.y.toNat 0 - 0x30
  refine .exec (Q := fun n u v => taking View.a n u v ∧ v.carry = decide (10 ≤ v.a.toNat))
    rfl (fun n u v hv => ?_) ?_
  · obtain ⟨hreading, ha⟩ := hv
    refine ⟨_, rfl, ⟨hreading, fun s hs hy => ?_⟩, rfl⟩
    show UInt8.ofNat (v.a.toNat + (~~~(0x30 : UInt8)).toNat + bit true) = s.getD v.y.toNat 0 - 0x30
    rw [← ha s hs hy, ← UInt8.toNat_inj, UInt8.toNat_ofNat', UInt8.toNat_sub]
    show (v.a.toNat + 207 + 1) % 2 ^ 8 = (2 ^ 8 - 48 + v.a.toNat) % 2 ^ 8
    omega
  refine .branch (Q := fun n u v => taking View.a n u v ∧ v.a.toNat < 10) (fun n u v hv htaken =>
    ?_) (fun n u v hv hskipped => ?_) ?_
  · obtain ⟨⟨⟨hparsing, -⟩, ha⟩, hcarry⟩ := hv
    intro s hs hy
    obtain ⟨-, hvalue⟩ := hparsing s hs hy
    have hno : ¬(s.getD v.y.toNat 0 - 0x30).toNat < 10 := by
      rw [← ha s hs hy]
      simpa [View.takes?, hcarry] using htaken
    rw [digits_drop_of_not_digit hno] at hvalue
    rw [← hvalue]
    exact (Nat.mod_eq_of_lt (v.word_lt intR)).symm
  · obtain ⟨htaking, hcarry⟩ := hv
    exact ⟨htaking, by simpa [View.takes?, hcarry] using hskipped⟩
  -- ten times the number, by doubling
  let multiplied (k : ℕ) : Assertion := fun n u v => Multiplied k u v ∧ 256 - v.y.toNat ≤ n
  have hdouble (k n : ℕ) (u v : View) (hv : multiplied k n u v) :
      ∃ w, execAll v [.instr .asl (.zeroPage intR), .instr .rol (.zeroPage (intR + 1))] = some w ∧
          multiplied (2 * k) n u w := by
    obtain ⟨w, hexec, hdoubled, -, -, hy⟩ := shiftLeft_word v intR
    have hframe : v.Frame 0 [intR, intR + 1] w :=
      (execAll_frame hexec rfl).mono (Nat.le_refl 0) (by decide)
    refine ⟨w, hexec, hv.1.next hframe hy ?_, by rw [hy]; exact hv.2⟩
    rw [hdoubled, hv.1.multiple, Nat.mul_mod_mod, Nat.mul_assoc]
  refine .run (Q := fun n u v =>
    Parsing ((10 * v.word intR + (v.zp (work + 2)).toNat) % 65536) (v.y.toNat + 1) u ∧
    (v.zp (work + 2)).toNat < 10 ∧ 256 - v.y.toNat ≤ n) rfl (fun n u v hv => ?_) ?_
  · obtain ⟨⟨⟨hparsing, hn⟩, ha⟩, hten⟩ := hv
    exact ⟨_, rfl, hparsing.step ha hten, hten, hn⟩
  refine .run (Q := multiplied 1) rfl (fun n u v hv => ?_) ?_
  · obtain ⟨hparsing, hten, hn⟩ := hv
    have hmoved (w : View) (hlo : w.zp work = v.zp intR) (hhi : w.zp (work + 1) = v.zp (intR + 1))
        (hsame : w.word intR = v.word intR) (hdigit : w.zp (work + 2) = v.zp (work + 2))
            (hy : w.y = v.y) : multiplied 1 n u w := by
      have hword : w.word work = v.word intR := View.word_congr hlo hhi
      refine ⟨⟨?_, hdigit ▸ hten, ?_⟩, hy ▸ hn⟩
      · rw [hword, hdigit, hy]
        exact hparsing
      · rw [hword, hsame, Nat.one_mul, Nat.mod_eq_of_lt (v.word_lt intR)]
    exact ⟨_, rfl, hmoved _ rfl rfl rfl rfl rfl⟩
  refine .run (Q := multiplied 2) rfl (hdouble 1) (.run (Q := multiplied 4) rfl (hdouble 2) ?_)
  refine .run (Q := multiplied 5) rfl (fun n u v hv => ?_)
    (.run (Q := multiplied 10) rfl (hdouble 5) ?_)
  · obtain ⟨w, hexec, hsum, hy⟩ := add_word v (y := intR) (z := work) (by decide)
    have hframe : v.Frame 0 [intR, intR + 1] w :=
      (execAll_frame hexec rfl).mono (Nat.le_refl 0) (by decide)
    refine ⟨w, hexec, hv.1.next hframe hy ?_, by rw [hy]; exact hv.2⟩
    rw [hsum, hv.1.multiple]
    omega
  -- and the digit is added
  let added : Assertion := fun n u v => Parsing (v.word intR) (v.y.toNat + 1) u ∧
    256 - v.y.toNat ≤ n
  refine .label added fun noCarry => ?_
  refine .exec (Q := fun n u v => (∃ number, Parsing (number % 65536) (v.y.toNat + 1) u ∧
    (v.word intR + 256 * bit v.carry) % 65536 = number % 65536) ∧
    256 - v.y.toNat ≤ n) rfl (fun n u v hv => ?_) ?_
  · obtain ⟨hmultiplied, hn⟩ := hv
    refine ⟨_, rfl, ⟨_, hmultiplied.parsing, ?_⟩, hn⟩
    have hmultiple := hmultiplied.multiple
    have hten := hmultiplied.digit
    have := (v.zp intR).toNat_lt
    rw [View.word] at hmultiple
    show ((UInt8.ofNat ((v.zp intR).toNat + (v.zp (work + 2)).toNat + 0)).toNat +
      256 * (v.zp (intR + 1)).toNat +
      256 * bit (decide (256 ≤ (v.zp intR).toNat + (v.zp (work + 2)).toNat + 0))) % 65536 = _
    rw [← Nat.mod_add_mod (10 * v.word work), ← hmultiple, UInt8.toNat_ofNat']
    congr 1
    by_cases hcarry : 256 ≤ (v.zp intR).toNat + (v.zp (work + 2)).toNat + 0
    · rw [decide_eq_true hcarry, bit, Bool.toNat_true]
      omega
    · rw [decide_eq_false hcarry, bit, Bool.toNat_false]
      omega
  refine .branch (Q := fun n u v => (∃ number, Parsing (number % 65536) (v.y.toNat + 1) u ∧
    (v.word intR + 256) % 65536 = number % 65536) ∧ 256 - v.y.toNat ≤ n) (fun n u v hv htaken =>
      ?_) (fun n u v hv hskipped => ?_) ?_
  · obtain ⟨⟨number, hparsing, hword⟩, hn⟩ := hv
    have hno : v.carry = false := by simpa [View.takes?] using htaken
    rw [hno, bit, Bool.toNat_false, Nat.mul_zero, Nat.add_zero,
      Nat.mod_eq_of_lt (v.word_lt intR)] at hword
    exact ⟨hword ▸ hparsing, hn⟩
  · obtain ⟨⟨number, hparsing, hword⟩, hn⟩ := hv
    have hcarry : v.carry = true := by simpa [View.takes?] using hskipped
    rw [hcarry] at hword
    exact ⟨⟨number, hparsing, hword⟩, hn⟩
  refine .run (Q := added) rfl (fun n u v hv => ?_) (.bind ?_)
  · obtain ⟨⟨number, hparsing, hword⟩, hn⟩ := hv
    have hnext : (v.zp intR).toNat + 256 * (v.zp (intR + 1) + 1).toNat = number % 65536 := by
      rw [View.word] at hword
      rw [UInt8.toNat_add, UInt8.toNat_one]
      have := (v.zp intR).toNat_lt
      omega
    refine ⟨_, rfl, ?_, hn⟩
    show Parsing ((v.zp intR).toNat + 256 * (v.zp (intR + 1) + 1).toNat) (v.y.toNat + 1) u
    rw [hnext]
    exact hparsing
  -- the index wraps around only where no string is that long
  refine .run (Q := fun n u v => v.zero = decide (v.y.toNat = 0) ∧
    if v.y.toNat = 0 then Parsing (v.word intR) 256 u
    else Parsing (v.word intR) v.y.toNat u ∧ 256 - v.y.toNat < n) rfl (fun n u v hv => ?_) ?_
  · obtain ⟨hparsing, hn⟩ := hv
    refine ⟨_, rfl, ?_⟩
    show (v.y + 1 == 0) = decide ((v.y + 1).toNat = 0) ∧
      if (v.y + 1).toNat = 0 then Parsing (v.word intR) 256 u
      else Parsing (v.word intR) (v.y + 1).toNat u ∧ 256 - (v.y + 1).toNat < n
    rw [Bool.eq_iff_iff, beq_iff_eq, decide_eq_true_eq, eq_zero_iff]
    refine ⟨Iff.rfl, ?_⟩
    have := v.y.toNat_lt
    have hnext : (v.y + 1).toNat = (v.y.toNat + 1) % 256 := UInt8.toNat_add _ _
    split
    next hwrap =>
      rwa [show v.y.toNat + 1 = 256 by omega] at hparsing
    next hmore =>
      rw [show (v.y + 1).toNat = v.y.toNat + 1 by omega]
      exact ⟨hparsing, by omega⟩
  refine .branchBack (Q := fun _ u v => parses u v) (fun n u v hv htaken =>
    ?_) (fun n u v hv hskipped => ?_) (.bind ?_)
  · obtain ⟨hzero, hrest⟩ := hv
    have hmore : v.y.toNat ≠ 0 := by simpa [View.takes?, hzero] using htaken
    rw [if_neg hmore] at hrest
    exact ⟨_, hrest.2, hrest.1, Nat.le_refl _⟩
  · obtain ⟨hzero, hrest⟩ := hv
    have hwrap : v.y.toNat = 0 := by simpa [View.takes?, hzero] using hskipped
    rw [if_pos hwrap] at hrest
    intro s hs hy
    have := (hrest s hs hy).1
    have := hs.1
    omega
  exact .rts (fun _ _ _ hv => hv) (.done (by decide) _)

/-! ## Blanks and signs -/

theorem unindented_drop {s : List UInt8} {i : ℕ} (h : unindented s = unindented (s.drop i)) :
    if s.getD i 0 = 0x20 then i < s.length ∧ unindented s = unindented (s.drop (i + 1))
        else unindented s = s.drop i := by
  rcases Nat.lt_or_ge i s.length with hlt | hle
  · rw [h, List.drop_eq_getElem_cons hlt, List.getD_eq_getElem _ _ hlt, unindented]
    split
    next hblank => exact ⟨hlt, List.dropWhile_cons_of_pos (decide_eq_true hblank)⟩
    next hother => exact List.dropWhile_cons_of_neg (by simpa using hother)
  · rw [List.getD_eq_default _ _ hle, if_neg (by decide), h, List.drop_eq_nil_of_le hle]
    rfl

/-- Y has moved past the blanks in front of a string, and A holds the byte there. -/
def Unindented (zs : List UInt8) (u v : View) : Prop :=
  ∀ s, Reads zs u s → v.y.toNat ≤ s.length ∧ s.drop v.y.toNat = unindented s ∧
    v.a = s.getD v.y.toNat 0

/-- The blanks in front of a string are skipped. -/
theorem Flows.skipSpaces {id : RoutineId} {α : Type} {size : ℕ} {ahead : Ahead} {rest : Writer α}
    (zs : List UInt8) (hslots : (bounds id).slots ⊆ zs)
    (hz : string1 ∉ zs) (hz' : string1 + 1 ∉ zs) (hid : (bounds id).buffers = [])
    (hy : (conduct t id).setsY {} = true)
    (h : Flows (conduct t) t id (size - 40) [] ahead 0 (fun _ u v => Unindented zs u v) rest) :
    Flows (conduct t) t id size [] ahead 0 (fun _ => Eq)
      (Routine.skipSpaces >>= fun _ => rest) := by
  simp only [Routine.skipSpaces, bind_assoc]
  refine .label (fun _ u v => Unindented zs u v) fun done => ?_
  refine .run (Q := fun _ u v => v.y.toNat = 0) ?_ (fun _ u v hv => ⟨_, rfl, rfl⟩) ?_
  · show ((true && (conduct t id).setsY {}) && true) = true
    rw [hy]
    rfl
  let skipping : Assertion := fun n u v => 256 - v.y.toNat ≤ n ∧
    ∀ s, Reads zs u s → v.y.toNat ≤ s.length ∧ unindented s = unindented (s.drop v.y.toNat)
  refine .renew (Q := skipping) (.here fun loop => ?_) fun _ u v hv =>
    ⟨256, by omega, fun s _ => ?_⟩
  rotate_left
  · rw [hv]
    exact ⟨Nat.zero_le _, rfl⟩
  refine .knowing (.read (Q := fun n u v => skipping n u v ∧ ∀ s, Reads zs u s →
    v.a = s.getD v.y.toNat 0) rfl rfl (fun n u v hv => ?_) ?_)
  · obtain ⟨hskipping, -, hkeeps⟩ := hv
    have hzp (i : UInt8) (hi : i ∉ zs) : v.zp i = u.zp i := hkeeps.zp i fun hmem => hi (hslots hmem)
    have hpointer : v.pointer string1 = u.pointer string1 := by
      rw [View.pointer, hzp _ hz, hzp _ hz']
      rfl
    refine ⟨_, _, rfl, rfl, hskipping, fun s hs => ?_⟩
    show v.peek (v.pointer string1 + v.y.toUInt16) = _
    rw [hpointer]
    exact hs.peek (hskipping.2 s hs).1 hzp fun _ => by rw [kept_main hkeeps hid]
  refine .run (Q := fun n u v => (skipping n u v ∧ ∀ s, Reads zs u s → v.a = s.getD v.y.toNat 0) ∧
    v.zero = decide (v.a = 0x20)) rfl
    (fun n u v hv => ⟨_, rfl, hv, sub_beq_zero _ _⟩) ?_
  refine .branch (Q := fun n u v =>
    (skipping n u v ∧ ∀ s, Reads zs u s → v.a = s.getD v.y.toNat 0) ∧ v.a = 0x20)
    (fun n u v hv htaken => ?_) (fun n u v hv hskipped => ?_) ?_
  · obtain ⟨⟨⟨-, hskipping⟩, ha⟩, hzero⟩ := hv
    have hother : v.a ≠ 0x20 := by simpa [View.takes?, hzero] using htaken
    intro s hs
    obtain ⟨hle, hblanks⟩ := hskipping s hs
    have hend := unindented_drop hblanks
    rw [← ha s hs, if_neg hother] at hend
    exact ⟨hle, hend.symm, ha s hs⟩
  · obtain ⟨hskipping, hzero⟩ := hv
    exact ⟨hskipping, by simpa [View.takes?, hzero] using hskipped⟩
  refine .run (Q := fun n u v => v.zero = decide (v.y.toNat = 0) ∧
    (v.y.toNat ≠ 0 → 256 - v.y.toNat < n) ∧
    ∀ s, Reads zs u s → v.y.toNat ≠ 0 ∧ v.y.toNat ≤ s.length ∧
      unindented s = unindented (s.drop v.y.toNat)) ?_ (fun n u v hv => ?_) ?_
  · show ((conduct t id).setsY {} && true) = true
    rw [hy]
    rfl
  · obtain ⟨⟨⟨hn, hskipping⟩, ha⟩, hblank⟩ := hv
    have hnext : (v.y + 1).toNat = (v.y.toNat + 1) % 256 := UInt8.toNat_add _ _
    have := v.y.toNat_lt
    refine ⟨_, rfl, ?_⟩
    show (v.y + 1 == 0) = decide ((v.y + 1).toNat = 0) ∧
      ((v.y + 1).toNat ≠ 0 → 256 - (v.y + 1).toNat < n) ∧
      ∀ s, Reads zs u s → (v.y + 1).toNat ≠ 0 ∧ (v.y + 1).toNat ≤ s.length ∧
        unindented s = unindented (s.drop (v.y + 1).toNat)
    rw [Bool.eq_iff_iff, beq_iff_eq, decide_eq_true_eq, eq_zero_iff]
    refine ⟨Iff.rfl, by omega, fun s hs => ?_⟩
    have hdrop := unindented_drop (hskipping s hs).2
    rw [← ha s hs, if_pos hblank] at hdrop
    have := hs.1
    rw [show (v.y + 1).toNat = v.y.toNat + 1 by omega]
    exact ⟨by omega, by omega, hdrop.2⟩
  refine .branchBack (Q := fun _ u v => Unindented zs u v) (fun n u v hv htaken =>
    ?_) (fun n u v hv hskipped => ?_)
    (.bind (.forget (.fit h ?_) (List.nil_subset _)))
  · obtain ⟨hzero, hn, hskipping⟩ := hv
    have hmore : v.y.toNat ≠ 0 := by simpa [View.takes?, hzero] using htaken
    exact ⟨_, hn hmore, Nat.le_refl _, fun s hs => (hskipping s hs).2⟩
  · obtain ⟨hzero, -, hskipping⟩ := hv
    have hwrap : v.y.toNat = 0 := by simpa [View.takes?, hzero] using hskipped
    exact fun s hs => absurd hwrap (hskipping s hs).1
  · omega

/-- A string that has been read is still there when a part of it is parsed. -/
theorem Reads.parse {zs : List UInt8} {b : ℕ} {s : List UInt8} (h : Reads zs u s)
    (hslots : word intR ++ workBytes 3 ⊆ zs)
    (hzp : ∀ z, z ∉ zs → v.zp z = u.zp z) (hmain : v.main = u.main) (hz : string1 ∉ zs)
    (hz' : string1 + 1 ∉ zs)
    (hw : parses (v.call b) w) (hy : v.y.toNat ≤ s.length) :
    w.word intR = decimalOf (digits (s.drop v.y.toNat)) % 65536 := by
  have hpointer : v.pointer string1 = u.pointer string1 := by
    rw [View.pointer, hzp _ hz, hzp _ hz']
    rfl
  have hspells : v.Spells (word intR ++ workBytes 3) (v.pointer string1) s := by
    rw [hpointer]
    exact (View.Spells.congr h hzp hmain).mono hslots
  exact hw s hspells hy

theorem u16OfText_conducted : Conducted t .u16OfText := by
  refine .last ?_
  simp only [body, u16OfText, bind_assoc]
  refine .skipSpaces (word intR ++ workBytes 3) (by decide) (by decide) (by decide) rfl rfl ?_
  refine .knowing (.call (Q := fun _ u v => ∀ s, Reads (word intR ++ workBytes 3) u s →
    v.word intR = decimalOf (digits (unindented s)) % 65536)
    (by decide) (fun _ _ _ _ _ => trivial) (fun _ u v b w hv _ hw s hs => ?_) ?_)
  · obtain ⟨hblanks, -, hkeeps⟩ := hv
    obtain ⟨hle, hdrop, -⟩ := hblanks s hs
    rw [← hdrop]
    exact hs.parse (List.Subset.refl _) hkeeps.zp (kept_main hkeeps rfl) (by decide)
      (by decide) hw hle
  refine .exec (Q := fun _ u v => readsWord u v) rfl (fun _ u v hv => ⟨_, rfl, ⟨rfl, rfl⟩, hv⟩) ?_
  exact .rts (fun _ _ _ hv => hv) (.done (by decide) _)

theorem signedDecimal_of_minus {s : List UInt8} {i : ℕ} (h : s.getD i 0 = 0x2D) :
    i < s.length ∧ signedDecimal (s.drop i) = -decimalOf (digits (s.drop (i + 1))) := by
  rcases Nat.lt_or_ge i s.length with hlt | hle
  · rw [List.drop_eq_getElem_cons hlt, ← List.getD_eq_getElem _ 0, h]
    exact ⟨hlt, rfl⟩
  · rw [List.getD_eq_default _ _ hle] at h
    cases h

theorem signedDecimal_of_not_minus {s : List UInt8} {i : ℕ} (h : s.getD i 0 ≠ 0x2D) :
    signedDecimal (s.drop i) = decimalOf (digits (s.drop i)) := by
  rw [signedDecimal]
  intro rest hrest
  have hfirst : (s.drop i)[0]? = some 0x2D := by rw [hrest]; rfl
  rw [List.getElem?_drop, Nat.add_zero] at hfirst
  exact h (by rw [List.getD_eq_getElem?_getD, hfirst]; rfl)

/-- The sign of a string is known, and its digits come next. -/
def Signed (u v : View) : Prop :=
  ∀ s, Reads (word intR ++ workBytes 4) u s → v.y.toNat ≤ s.length ∧ signedDecimal (unindented s) =
    if v.zp (work + 3) = 0 then (decimalOf (digits (s.drop v.y.toNat)) : ℤ)
      else -decimalOf (digits (s.drop v.y.toNat))

theorem i16OfText_conducted : Conducted t .i16OfText := by
  refine .last ?_
  simp only [body, i16OfText, bind_assoc]
  refine .label (fun _ u v => Signed u v) fun parse => ?_
  refine .label (fun _ u v => ∀ s, Reads (word intR ++ workBytes 4) u s →
    (v.word intR : ℤ) = signedDecimal (unindented s) % 65536)
    fun positive => ?_
  refine .skipSpaces (word intR ++ workBytes 4) (by decide) (by decide) (by decide) rfl rfl ?_
  refine .exec (Q := fun _ u v =>
    (Unindented (word intR ++ workBytes 4) u v ∧ v.zp (work + 3) = 0) ∧
      v.zero = decide (v.a = 0x2D)) rfl
    (fun _ u v hv => ⟨_, rfl, ⟨hv, rfl⟩, sub_beq_zero _ _⟩) ?_
  refine .branch (Q := fun _ u v => Unindented (word intR ++ workBytes 4) u v ∧
    v.a = 0x2D) (fun _ u v hv htaken => ?_)
    (fun _ u v hv hskipped => ?_) ?_
  · obtain ⟨⟨hblanks, hsign⟩, hzero⟩ := hv
    have hother : v.a ≠ 0x2D := by simpa [View.takes?, hzero] using htaken
    intro s hs
    obtain ⟨hle, hdrop, ha⟩ := hblanks s hs
    rw [if_pos hsign, ← hdrop]
    exact ⟨hle, signedDecimal_of_not_minus (ha ▸ hother)⟩
  · obtain ⟨⟨hblanks, -⟩, hzero⟩ := hv
    exact ⟨hblanks, by simpa [View.takes?, hzero] using hskipped⟩
  refine .exec (Q := fun _ u v => Signed u v) rfl (fun _ u v hv => ?_) (.bind ?_)
  · obtain ⟨hblanks, ha⟩ := hv
    refine ⟨_, rfl, fun s hs => ?_⟩
    obtain ⟨hle, hdrop, hminus⟩ := hblanks s hs
    obtain ⟨hlt, hvalue⟩ := signedDecimal_of_minus (hminus ▸ ha)
    have hnext : (v.y + 1).toNat = v.y.toNat + 1 := by
      have := hs.1
      rw [UInt8.toNat_add, UInt8.toNat_one]
      omega
    show (v.y + 1).toNat ≤ s.length ∧ signedDecimal (unindented s) =
      if v.a = 0 then (decimalOf (digits (s.drop (v.y + 1).toNat)) : ℤ)
        else -decimalOf (digits (s.drop (v.y + 1).toNat))
    rw [ha, if_neg (by decide), hnext, ← hdrop]
    exact ⟨hlt, hvalue⟩
  refine .knowing (.call (Q := fun _ u v => ∀ s, Reads (word intR ++ workBytes 4) u s →
    signedDecimal (unindented s) % 65536 =
    if v.zp (work + 3) = 0 then (v.word intR : ℤ)
      else -(v.word intR : ℤ) % 65536) (by decide) (fun _ _ _ _ _ => trivial)
    (fun _ u v b w hv hkeeps' hw s hs => ?_) ?_)
  · obtain ⟨hsigned, -, hkeeps⟩ := hv
    obtain ⟨hle, hvalue⟩ := hsigned s hs
    have hparsed := hs.parse (by decide) hkeeps.zp (kept_main hkeeps rfl) (by decide)
      (by decide) hw hle
    have hsign : w.zp (work + 3) = v.zp (work + 3) := kept hkeeps' (by decide)
    show _ = if w.zp (work + 3) = 0 then (w.word intR : ℤ) else -(w.word intR : ℤ) % 65536
    rw [hsign, hparsed, hvalue]
    split <;> omega
  refine .exec (Q := fun _ u v =>
    (∀ s, Reads (word intR ++ workBytes 4) u s → signedDecimal (unindented s) % 65536 =
    if v.zp (work + 3) = 0 then (v.word intR : ℤ) else -(v.word intR : ℤ) % 65536) ∧
      v.zero = decide (v.zp (work + 3) = 0)) rfl
    (fun _ u v hv => ⟨_, rfl, hv, beq_eq_decide _ _⟩) ?_
  refine .branch (Q := fun _ u v => ∀ s, Reads (word intR ++ workBytes 4) u s →
    signedDecimal (unindented s) % 65536 = -(v.word intR : ℤ) % 65536) (fun _ u v hv htaken s hs =>
      ?_)
    (fun _ u v hv hskipped s hs => ?_) ?_
  · obtain ⟨hvalue, hzero⟩ := hv
    have hplus : v.zp (work + 3) = 0 := by simpa [View.takes?, hzero] using htaken
    rw [hvalue s hs, if_pos hplus]
  · obtain ⟨hvalue, hzero⟩ := hv
    have hminus : v.zp (work + 3) ≠ 0 := by simpa [View.takes?, hzero] using hskipped
    rw [hvalue s hs, if_neg hminus]
  refine .run (Q := fun _ u v => ∀ s, Reads (word intR ++ workBytes 4) u s →
    (v.word intR : ℤ) = signedDecimal (unindented s) % 65536)
    rfl (fun _ u v hv => ?_) (.bind ?_)
  · obtain ⟨w, hexec, hnegated⟩ := negate_word v intR
    refine ⟨w, hexec, fun s hs => ?_⟩
    have := v.word_lt intR
    rw [hv s hs, hnegated]
    omega
  refine .exec (Q := fun _ u v => readsSignedWord u v)
    rfl (fun _ u v hv => ⟨_, rfl, ⟨rfl, rfl⟩, hv⟩) ?_
  exact .rts (fun _ _ _ hv => hv) (.done (by decide) _)

end Breadbin.Routine
