import Breadbin.Proofs.Routine.Frames

/-!
# Inspecting strings

The routines that measure, compare and index strings read them byte by byte, and Y counts the bytes.
Every round of a loop that goes on has seen a character that is not the zero behind the string, so Y
does not pass the end, and as a string has at most 255 characters it does not wrap around.

Nothing but a work byte is stored into, and a call pushes its return address.  Wherever else a
string lies, on the zero page, on the stack page or across the end of the memory, it is read as it
is.
-/

namespace Breadbin.Routine

open Assembly Machine ZeroPage Writer LinkedCode

/-! ## Strings in memory -/

/-- A string of at most 255 characters and the zero behind it lie at some address. -/
structure Legible (u : View) (p : UInt16) (s : List UInt8) : Prop where
  short : s.length ≤ 255
  nonzero : 0 ∉ s
  bytes : ∀ i ≤ s.length, u.peek (p + UInt16.ofNat i) = s.getD i 0

/-- Of a string and the zero behind it nothing lies at some addresses. -/
def Avoids (away : List UInt16) (p : UInt16) (s : List UInt8) : Prop :=
  ∀ i ≤ s.length, p + UInt16.ofNat i ∉ away

instance (away : List UInt16) (p : UInt16) (s : List UInt8) : Decidable (Avoids away p s) :=
  inferInstanceAs (Decidable (∀ i ≤ s.length, p + UInt16.ofNat i ∉ away))

/-- Where a call from outside pushes its return address. -/
def pushed (u : View) : List UInt16 := [Cpu.stackSlot u.sp, Cpu.stackSlot (u.sp - 1)]

section Legible

variable {u v : View} {p : UInt16} {s : List UInt8}

theorem Legible.peek (h : Legible u p s) {y : UInt8} (hy : y.toNat ≤ s.length) :
    u.peek (p + y.toUInt16) = s.getD y.toNat 0 := by
  have hindex : UInt16.ofNat y.toNat = y.toUInt16 := by simp
  rw [← hindex]
  exact h.bytes y.toNat hy

/-- Where nothing has been stored into it, a string is still there. -/
theorem Legible.congr {away : List UInt16} (h : Legible u p s) (havoids : Avoids away p s)
    (hpeek : ∀ address ∉ away, v.peek address = u.peek address) : Legible v p s :=
  ⟨h.short, h.nonzero, fun i hi => (hpeek _ (havoids i hi)).trans (h.bytes i hi)⟩

theorem peek_push {n : UInt8} {address : UInt16} (h : address ≠ Cpu.stackSlot u.sp) :
    (u.push n).peek address = u.peek address := by
  have hslot := Cpu.toNat_stackSlot u.sp
  have hne : address.toNat ≠ 0x100 + u.sp.toNat :=
    fun heq => h (UInt16.toNat_inj.1 (heq.trans hslot.symm))
  have hbase : mainBase = 0x200 := rfl
  unfold View.peek
  split
  · rfl
  split
  · have haway : UInt8.ofNat (address.toNat - 0x100) ≠ u.sp := by
      intro heq
      rw [← heq, UInt8.toNat_ofNat'] at hne
      omega
    generalize UInt8.ofNat (address.toNat - 0x100) = slot at haway ⊢
    exact Function.update_of_ne haway n u.stack
  · rfl

/-- A call pushes two bytes and leaves the rest of the memory alone. -/
theorem peek_call {b : ℕ} {address : UInt16} (h : address ∉ pushed u) :
    (u.call b).peek address = u.peek address := by
  simp only [pushed, List.mem_cons, List.not_mem_nil, or_false, not_or] at h
  exact (peek_push h.2).trans (peek_push h.1)

theorem peek_store {z n : UInt8} {address : UInt16} (h : address ≠ z.toUInt16) :
    (u.store z n).peek address = u.peek address := by
  have hne : address.toNat ≠ z.toNat :=
    fun heq => h (UInt16.toNat_inj.1 (by rw [heq, UInt8.toNat_toUInt16]))
  unfold View.peek
  split
  · have haway : UInt8.ofNat address.toNat ≠ z := by
      intro heq
      rw [← heq, UInt8.toNat_ofNat'] at hne
      omega
    exact Function.update_of_ne haway n u.zp
  · rfl

/-- A routine that pushes nothing and stores into slots alone changes nothing else. -/
theorem asked_peek {id : RoutineId} {starts : View → Prop} {ends : Since} {k : ℕ}
    (h : (asked 0 id starts ends).Keeps k u v) (u' : View)
    (hzp : v.zp = u'.zp) (hmain : u'.main = u.main) (hstack : u'.stack = u.stack) :
    v.peek = u'.peek := by
  have hstack' : v.stack = u'.stack := (funext fun i => h.stack i (Nat.zero_le _)).trans hstack.symm
  have hmain' : v.main = u'.main := (asked_main h).trans hmain.symm
  funext address
  rw [View.peek, View.peek, hzp, hmain', hstack']

end Legible

/-! ## What is asked -/

/-- The length of a string is taken. -/
def takesLength (u w : View) : Prop := ∀ s, Legible u (u.pointer string1) s → w.a.toNat = s.length

/-- Two strings are compared. -/
def takesEquality (u w : View) : Prop :=
  ∀ s₁ s₂, Legible u (u.pointer string1) s₁ → Legible u (u.pointer string2) s₂ →
    w.a = if s₁ = s₂ then 1 else 0

/-- A byte of a string is taken, or the zero behind it; the index is stored first. -/
def takesByte (u w : View) : Prop :=
  ∀ s, Legible (u.store work u.a) (u.pointer string1) s → w.a = s.getD u.a.toNat 0

/-- The conducts of the routines that inspect strings, beside those of the others. -/
def inspecting (t : Target) : RoutineId → Conduct
  | .stringLength => asked 0 .stringLength (fun _ => True) takesLength
  | .stringEqual => asked 0 .stringEqual (fun _ => True) takesEquality
  | .stringAt => asked 0 .stringAt (fun _ => True) takesByte
  | id => conduct t id

theorem inspecting_areas (t : Target) (id : RoutineId) :
    (inspecting t id).areas = (conduct t id).areas := by
  cases id <;> rfl

/-- What is asked of a routine is met if it is met with the same conducts for it and for those that
it calls. -/
theorem Obeys.congr {K N : RoutineId → Conduct} {t : Target} {id : RoutineId} (h : Obeys K t id)
    (hid : N id = K id) (hcalls : ∀ callee ∈ id.calls, N callee = K callee) : Obeys N t id := by
  intro w hw
  obtain ⟨ls, hgrows, hroom, hls⟩ := h w hw
  refine ⟨ls, hgrows, hroom, fun code a b hfits hin hoffers n hback => ?_⟩
  rw [hid] at hfits hback ⊢
  refine hls code a b hfits hin (fun callee hcallee l hl => ?_) n hback
  rw [← hcalls callee hcallee]
  exact hoffers callee hcallee l hl

/-! ## Measuring -/

variable {t : Target}

theorem stringLength_inspects : Obeys (inspecting t) t .stringLength := by
  refine .last ?_
  simp only [body, stringLength, bind_assoc]
  let same : Since := fun u v => v.zp = u.zp
  refine .weaken (.measureOf (p := same) (S := fun u s => Legible u (u.pointer string1) s)
    rfl (fun u s hs => ⟨hs.short, hs.nonzero⟩)
    (fun u v hkeeps hzp s hs hle => ?_) (fun _ _ _ h hw _ => hw.trans h) ?_) fun _ u v huv =>
      huv ▸ rfl
  · have hpointer : v.pointer string1 = u.pointer string1 := by rw [View.pointer, hzp]; rfl
    rw [asked_peek hkeeps u hzp rfl rfl, hpointer]
    exact hs.peek hle
  refine .exec (Q := fun _ => takesLength) rfl (fun _ u v hv => ⟨_, rfl, hv.2⟩) ?_
  exact .rts (fun _ _ _ hv => hv) (.done (by decide) _)

/-! ## Comparing -/

/-- Two strings are the same in front of an index. -/
structure Alike (i : ℕ) (s₁ s₂ : List UInt8) : Prop where
  first : i ≤ s₁.length
  second : i ≤ s₂.length
  same : s₁.take i = s₂.take i

section Alike

variable {i : ℕ} {s₁ s₂ : List UInt8}

/-- Where both end, the strings are the same. -/
theorem Alike.eq (h : Alike i s₁ s₂) (h₁ : s₁.length ≤ i) (h₂ : s₂.length ≤ i) : s₁ = s₂ := by
  have hsame := h.same
  rwa [List.take_of_length_le h₁, List.take_of_length_le h₂] at hsame

/-- Where both go on with the same character, they are the same behind it. -/
theorem Alike.next (h : Alike i s₁ s₂) (h₁ : i < s₁.length) (h₂ : i < s₂.length)
    (hsame : s₁.getD i 0 = s₂.getD i 0) :
    Alike (i + 1) s₁ s₂ := by
  refine ⟨h₁, h₂, ?_⟩
  rw [List.getD_eq_getElem _ _ h₁, List.getD_eq_getElem _ _ h₂] at hsame
  rw [List.take_succ_eq_append_getElem h₁, List.take_succ_eq_append_getElem h₂, h.same, hsame]

end Alike

/-- The strings that the pointers lead to. -/
structure Pair (u : View) (s₁ s₂ : List UInt8) : Prop where
  first : Legible u (u.pointer string1) s₁
  second : Legible u (u.pointer string2) s₂

theorem stringEqual_inspects : Obeys (inspecting t) t .stringEqual := by
  have hread {u v : View} {z : UInt8} {s : List UInt8} (h : (inspecting t .stringEqual).Keeps 0 u v)
      (hs : Legible u (u.pointer z) s)
      (hle : v.y.toNat ≤ s.length) : v.peek (v.pointer z + v.y.toUInt16) = s.getD v.y.toNat 0 := by
    have hzp : v.zp = u.zp := funext fun i => h.zp i List.not_mem_nil
    have hpointer : v.pointer z = u.pointer z := by rw [View.pointer, hzp]; rfl
    rw [asked_peek h u hzp rfl rfl, hpointer]
    exact hs.peek hle
  refine .last ?_
  simp only [body, stringEqual, bind_assoc]
  let same : Assertion := fun _ u _ => ∀ s₁ s₂, Pair u s₁ s₂ → s₁ = s₂
  let differ : Assertion := fun _ u _ => ∀ s₁ s₂, Pair u s₁ s₂ → s₁ ≠ s₂
  refine .label same fun equal => .label differ fun different => ?_
  refine .run (Q := fun _ _ v => v.y = 0) rfl (fun _ _ _ _ => ⟨_, rfl, rfl⟩) ?_
  -- the strings are the same in front of Y
  let alike : Since := fun u v => ∀ s₁ s₂, Pair u s₁ s₂ → Alike v.y.toNat s₁ s₂
  let comparing : Assertion := fun n u v => alike u v ∧ 255 - v.y.toNat ≤ n
  refine .renew (Q := comparing) (.here fun loop => ?_) fun _ u v hy => ?_
  rotate_left
  · refine ⟨255, fun s₁ s₂ _ => ?_, Nat.sub_le _ _⟩
    rw [hy]
    exact ⟨Nat.zero_le _, Nat.zero_le _, rfl⟩
  let firstRead : Assertion := fun n u v => comparing n u v ∧ ∀ s₁ s₂, Pair u s₁ s₂ →
    v.a = s₁.getD v.y.toNat 0
  refine .knowing (.read (Q := firstRead) rfl rfl (fun n u v hv => ?_) ?_)
  · obtain ⟨hcomparing, -, hkeeps⟩ := hv
    exact ⟨_, _, rfl, rfl, hcomparing, fun s₁ s₂ hs =>
      hread hkeeps hs.first (hcomparing.1 s₁ s₂ hs).first⟩
  let bothRead : Assertion := fun n u v => firstRead n u v ∧
    ∀ s₁ s₂, Pair u s₁ s₂ → v.zero = decide (s₁.getD v.y.toNat 0 = s₂.getD v.y.toNat 0)
  refine .knowing (.read (Q := bothRead) rfl rfl (fun n u v hv => ?_) ?_)
  · obtain ⟨⟨hcomparing, ha⟩, -, hkeeps⟩ := hv
    refine ⟨_, _, rfl, rfl, ⟨hcomparing, ha⟩, fun s₁ s₂ hs => ?_⟩
    have hsecond := hread hkeeps hs.second (hcomparing.1 s₁ s₂ hs).second
    show (v.a - v.peek (v.pointer string2 + v.y.toUInt16) == 0) =
      decide (s₁.getD v.y.toNat 0 = s₂.getD v.y.toNat 0)
    rw [sub_beq_zero, hsecond, ha s₁ s₂ hs]
  let matching : Assertion := fun n u v => firstRead n u v ∧
    ∀ s₁ s₂, Pair u s₁ s₂ → s₁.getD v.y.toNat 0 = s₂.getD v.y.toNat 0
  refine .branch (Q := matching) (fun n u v hv htaken s₁ s₂ hs heq => ?_) (fun n u v hv hskipped =>
    ⟨hv.1, fun s₁ s₂ hs => ?_⟩) ?_
  · have hzero : v.zero = true := (hv.2 s₁ s₂ hs).trans (by rw [heq]; exact decide_eq_true rfl)
    simp [View.takes?, hzero] at htaken
  · have hzero := hv.2 s₁ s₂ hs
    simpa [View.takes?, hzero] using hskipped
  refine .run (Q := fun n u v => matching n u v ∧ v.zero = decide (v.a = 0))
    rfl (fun n u v hv => ⟨_, rfl, hv, ?_⟩) ?_
  · exact sub_beq_zero v.a 0
  -- both end here, or both go on
  let going : Assertion := fun n u v => comparing n u v ∧ ∀ s₁ s₂, Pair u s₁ s₂ →
    v.y.toNat < 255 ∧ Alike (v.y.toNat + 1) s₁ s₂
  refine .branch (Q := going) (fun n u v hv htaken s₁ s₂ hs => ?_) (fun n u v hv hskipped =>
    ⟨hv.1.1.1, fun s₁ s₂ hs => ?_⟩) ?_
  · obtain ⟨⟨⟨hcomparing, ha⟩, hsame⟩, hzero⟩ := hv
    have hend : v.a = 0 := by simpa [View.takes?, hzero] using htaken
    have hfirst : s₁.getD v.y.toNat 0 = 0 := (ha s₁ s₂ hs).symm.trans hend
    have hsecond : s₂.getD v.y.toNat 0 = 0 := (hsame s₁ s₂ hs).symm.trans hfirst
    exact (hcomparing.1 s₁ s₂ hs).eq ((getD_eq_zero_iff hs.first.nonzero).1 hfirst)
      ((getD_eq_zero_iff hs.second.nonzero).1 hsecond)
  · obtain ⟨⟨⟨hcomparing, ha⟩, hsame⟩, hzero⟩ := hv
    have hsome : v.a ≠ 0 := by simpa [View.takes?, hzero] using hskipped
    have hfirst : s₁.getD v.y.toNat 0 ≠ 0 := fun heq => hsome ((ha s₁ s₂ hs).trans heq)
    have hsecond : s₂.getD v.y.toNat 0 ≠ 0 := fun heq => hfirst ((hsame s₁ s₂ hs).trans heq)
    have hfirst := Nat.lt_of_not_le fun hle => hfirst ((getD_eq_zero_iff hs.first.nonzero).2 hle)
    have hsecond := Nat.lt_of_not_le fun hle => hsecond ((getD_eq_zero_iff hs.second.nonzero).2 hle)
    exact ⟨Nat.lt_of_lt_of_le hfirst hs.first.short,
      (hcomparing.1 s₁ s₂ hs).next hfirst hsecond (hsame s₁ s₂ hs)⟩
  let counted : Assertion := fun n u v => (v.y ≠ 0 → 255 - v.y.toNat < n) ∧
    (∀ s₁ s₂, Pair u s₁ s₂ → v.y ≠ 0 ∧ Alike v.y.toNat s₁ s₂) ∧
    v.zero = decide (v.y = 0)
  refine .run (Q := counted) rfl (fun n u v hv => ?_) ?_
  · obtain ⟨⟨-, hn⟩, halike⟩ := hv
    have hnext (hlt : v.y.toNat < 255) : (v.y + 1).toNat = v.y.toNat + 1 := by
      rw [UInt8.toNat_add, UInt8.toNat_one]
      omega
    refine ⟨_, rfl, fun hne => ?_, fun s₁ s₂ hs => ?_, beq_eq_decide _ _⟩
    · show 255 - (v.y + 1).toNat < n
      have hlt : v.y.toNat < 255 := by
        have := v.y.toNat_lt
        have hne : (v.y + 1).toNat ≠ 0 := fun heq => hne (UInt8.toNat_inj.1 heq)
        rw [UInt8.toNat_add, UInt8.toNat_one] at hne
        omega
      rw [hnext hlt]
      omega
    · obtain ⟨hlt, hrest⟩ := halike s₁ s₂ hs
      show v.y + 1 ≠ 0 ∧ Alike (v.y + 1).toNat s₁ s₂
      rw [hnext hlt, Ne, ← UInt8.toNat_inj, hnext hlt]
      exact ⟨Nat.succ_ne_zero _, hrest⟩
  refine .branchBack (Q := same) (fun n u v hv htaken => ?_) (fun n u v hv hskipped s₁ s₂ hs => ?_)
    (.bind ?_)
  · obtain ⟨hn, halike, hzero⟩ := hv
    have hne : v.y ≠ 0 := by simpa [View.takes?, hzero] using htaken
    exact ⟨255 - v.y.toNat, hn hne, fun s₁ s₂ hs => (halike s₁ s₂ hs).2, Nat.le_refl _⟩
  · obtain ⟨-, halike, hzero⟩ := hv
    have hwrapped : v.y = 0 := by simpa [View.takes?, hzero] using hskipped
    exact absurd hwrapped (halike s₁ s₂ hs).1
  refine .run (Q := fun n u v => same n u v ∧ v.a = 1) rfl (fun _ _ _ hv => ⟨_, rfl, hv, rfl⟩) ?_
  refine .rts (fun _ u v hv s₁ s₂ h₁ h₂ => ?_) (.bind ?_)
  · rw [hv.2, if_pos (hv.1 s₁ s₂ ⟨h₁, h₂⟩)]
  refine .run (Q := fun n u v => differ n u v ∧ v.a = 0) rfl (fun _ _ _ hv => ⟨_, rfl, hv, rfl⟩) ?_
  refine .rts (fun _ u v hv s₁ s₂ h₁ h₂ => ?_) (.done (by decide) _)
  rw [hv.2, if_neg (hv.1 s₁ s₂ ⟨h₁, h₂⟩)]

/-! ## Indexing -/

theorem stringAt_inspects : Obeys (inspecting t) t .stringAt := by
  have hread {u v : View} {s : List UInt8} (h : (inspecting t .stringAt).Keeps 0 u v)
      (hindex : v.zp work = u.a)
      (hs : Legible (u.store work u.a) (u.pointer string1) s) (hle : v.y.toNat ≤ s.length) :
      v.peek (v.pointer string1 + v.y.toUInt16) = s.getD v.y.toNat 0 := by
    have hzp : v.zp = (u.store work u.a).zp := by
      funext i
      by_cases hi : i = work
      · rw [hi, hindex]
        exact (Function.update_self work u.a u.zp).symm
      · show v.zp i = Function.update u.zp work u.a i
        rw [Function.update_of_ne hi]
        exact h.zp i (by simpa [inspecting, asked, bounds, workBytes] using hi)
    have hpointer : v.pointer string1 = u.pointer string1 := by
      rw [View.pointer, hzp]
      rfl
    rw [asked_peek h (u.store work u.a) hzp rfl rfl, hpointer]
    exact hs.peek hle
  refine .last ?_
  simp only [body, stringAt, bind_assoc]
  refine .label (fun _ => takesByte) fun done => ?_
  refine .run (Q := fun _ u v => v.zp work = u.a) rfl (fun _ u v hv => ⟨_, rfl, ?_⟩) ?_
  · rw [hv]
    exact Function.update_self work v.a v.zp
  refine .run (Q := fun _ u v => v.zp work = u.a ∧ v.y = 0)
    rfl (fun _ u v hv => ⟨_, rfl, hv, rfl⟩) ?_
  -- Y has passed neither the index nor the end of the string
  let seeking : Assertion :=
    fun n u v => (v.zp work = u.a ∧ v.y.toNat ≤ u.a.toNat ∧ 255 - v.y.toNat ≤ n) ∧
    ∀ s, Legible (u.store work u.a) (u.pointer string1) s → v.y.toNat ≤ s.length
  refine .renew (Q := seeking) (.here fun loop => ?_) fun _ u v hv => ?_
  rotate_left
  · obtain ⟨hindex, hy⟩ := hv
    exact ⟨255, ⟨hindex, by rw [hy]; exact Nat.zero_le _, Nat.sub_le _ _⟩,
      fun s _ => by rw [hy]; exact Nat.zero_le _⟩
  let found : Assertion := fun n u v => seeking n u v ∧
    ∀ s, Legible (u.store work u.a) (u.pointer string1) s → v.a = s.getD v.y.toNat 0
  refine .knowing (.read (Q := fun n u v => found n u v ∧ v.zero = decide (v.a = 0)) rfl
    rfl (fun n u v hv => ?_) ?_)
  · obtain ⟨hseeking, -, hkeeps⟩ := hv
    exact ⟨_, _, rfl, rfl, ⟨hseeking, fun s hs => hread hkeeps hseeking.1.1 hs (hseeking.2 s hs)⟩,
      beq_eq_decide _ _⟩
  let inside : Assertion := fun n u v => found n u v ∧
    ∀ s, Legible (u.store work u.a) (u.pointer string1) s → v.y.toNat < s.length
  refine .branch (Q := inside) (fun n u v hv htaken s hs => ?_) (fun n u v hv hskipped =>
    ⟨hv.1, fun s hs => ?_⟩) ?_
  · obtain ⟨⟨⟨⟨-, hle, -⟩, -⟩, ha⟩, hzero⟩ := hv
    have hend : v.a = 0 := by simpa [View.takes?, hzero] using htaken
    have hlength : s.length ≤ v.y.toNat :=
      (getD_eq_zero_iff hs.nonzero).1 ((ha s hs).symm.trans hend)
    rw [hend, List.getD_eq_default _ _ (hlength.trans hle)]
  · obtain ⟨⟨-, ha⟩, hzero⟩ := hv
    have hsome : v.a ≠ 0 := by simpa [View.takes?, hzero] using hskipped
    exact Nat.lt_of_not_le fun hle => hsome ((ha s hs).trans ((getD_eq_zero_iff hs.nonzero).2 hle))
  refine .run (Q := fun n u v => inside n u v ∧ v.zero = decide (v.y.toNat = (v.zp work).toNat)) rfl
    (fun n u v hv => ⟨_, rfl, hv, sub_beq_zero_toNat _ _⟩) ?_
  refine .branch (Q := fun n u v => inside n u v ∧
    v.y.toNat < u.a.toNat) (fun n u v hv htaken s hs => ?_) (fun n u v hv hskipped => ?_) ?_
  · obtain ⟨⟨⟨⟨⟨hindex, -, -⟩, -⟩, ha⟩, -⟩, hzero⟩ := hv
    have hhere : v.y.toNat = u.a.toNat := by simpa [View.takes?, hzero, hindex] using htaken
    rw [ha s hs, hhere]
  · obtain ⟨hinside, hzero⟩ := hv
    have hindex := hinside.1.1.1.1
    have hle := hinside.1.1.1.2.1
    have hne : v.y.toNat ≠ u.a.toNat := by simpa [View.takes?, hzero, hindex] using hskipped
    exact ⟨hinside, Nat.lt_of_le_of_ne hle hne⟩
  refine .run (Q := fun n u v => (v.zp work = u.a ∧ v.y.toNat ≤ u.a.toNat ∧ 255 - v.y.toNat < n) ∧
    (∀ s, Legible (u.store work u.a) (u.pointer string1) s → v.y.toNat ≤ s.length) ∧
    v.zero = false) rfl (fun n u v hv => ?_) ?_
  · obtain ⟨⟨⟨⟨⟨hindex, -, hn⟩, -⟩, -⟩, hlength⟩, hlt⟩ := hv
    have := u.a.toNat_lt
    have hnext : (v.y + 1).toNat = v.y.toNat + 1 := by
      rw [UInt8.toNat_add, UInt8.toNat_one]
      omega
    refine ⟨_, rfl, ⟨hindex, ?_, ?_⟩, fun s hs => ?_, ?_⟩
    · show (v.y + 1).toNat ≤ u.a.toNat
      omega
    · show 255 - (v.y + 1).toNat < n
      omega
    · show (v.y + 1).toNat ≤ s.length
      have := hlength s hs
      omega
    · show (v.y + 1 == 0) = false
      rw [beq_eq_false_iff_ne, Ne, ← UInt8.toNat_inj, hnext]
      exact Nat.succ_ne_zero _
  refine .branchBack (Q := .never) (fun n u v hv _ => ?_) (fun n u v hv hskipped => ?_) ?_
  · obtain ⟨⟨hindex, hle, hn⟩, hlength, -⟩ := hv
    exact ⟨255 - v.y.toNat, hn, ⟨hindex, hle, Nat.le_refl _⟩, hlength⟩
  · simp [View.takes?, hv.2.2] at hskipped
  refine .run (Q := .never) rfl (fun _ _ _ hv => hv.elim) (.bind ?_)
  exact .rts (fun _ _ _ hv => hv) (.done (by decide) _)

/-! ## Calls -/

/-- The routines that inspect strings. -/
def inspectors : List RoutineId := [.stringLength, .stringEqual, .stringAt]

theorem inspecting_eq {id : RoutineId} (h : id ∉ inspectors) : inspecting t id = conduct t id := by
  cases id
  case stringLength | stringEqual | stringAt => exact absurd (by decide) h
  all_goals rfl

/-- Every routine keeps to what is asked of it; none calls one that inspects strings. -/
theorem inspecting_obeyed (ht : Roomy t) (id : RoutineId) : Obeys (inspecting t) t id := by
  have hcalls : ∀ id ∈ RoutineId.all, ∀ callee ∈ id.calls, callee ∉ inspectors := by decide +kernel
  by_cases hid : id ∈ inspectors
  · simp only [inspectors, List.mem_cons, List.not_mem_nil, or_false] at hid
    rcases hid with rfl | rfl | rfl
    exacts [stringLength_inspects, stringEqual_inspects, stringAt_inspects]
  · exact (conducted ht id).congr (inspecting_eq hid) fun callee hcallee =>
      inspecting_eq (hcalls id (mem_all id) callee hcallee)

/-- What is asked of a routine is what a call from outside gets. -/
theorem serves_inspecting (ht : Roomy t) {ids : List RoutineId} {id : RoutineId}
    {p : Since} (hid : id ∈ ids)
    (hdepth : (inspecting t id).depth ≤ 253) (hstarts : ∀ v, (inspecting t id).starts v)
    (hends : ∀ u w, (inspecting t id).ends (u.call callEnd) w → p u w.drop.drop) :
    Serves t ids id p := by
  intro origin image hlink hapart
  obtain ⟨code, hcode, hbytes, hroutines⟩ :=
    stock_starts_as (fun _ _ r _ => inspecting_obeyed ht r) (inspecting_areas t) hlink hapart
  obtain ⟨address, hlookup, hfits, hruns⟩ := hroutines id hid
  refine ⟨address, hlookup, fun c hc => ?_⟩
  obtain ⟨n, c', w, hcall, hshows, -, hend⟩ :=
    hruns.call_eq hfits hdepth (hc.intact hcode hbytes) (hstarts _)
  exact ⟨n, c', w.drop.drop, hcall, hshows, hends _ _ hend⟩

/-- A slot points to a string that keeps clear of some slots and of the return address that a call
pushes. -/
def Inspectable (u : View) (zs : List UInt8) (z : UInt8) (s : List UInt8) : Prop :=
  Legible u (u.pointer z) s ∧ Avoids (zs.map UInt8.toUInt16 ++ pushed u) (u.pointer z) s

/-- Such a string is still there when the call has been made and the slot has been stored into. -/
theorem Inspectable.legible {u : View} {slot z : UInt8} {s : List UInt8}
    (h : Inspectable u [slot] z s) (b : ℕ) (n : UInt8) :
    Legible ((u.call b).store slot n) (u.pointer z) s := by
  refine h.1.congr h.2 fun address haway => ?_
  simp only [List.map_cons, List.map_nil, List.cons_append, List.nil_append,
    List.mem_cons, not_or] at haway
  exact (peek_store haway.1).trans (peek_call haway.2)

theorem Inspectable.called {u : View} {z : UInt8} {s : List UInt8}
    (h : Inspectable u [] z s) (b : ℕ) :
    Legible (u.call b) (u.pointer z) s :=
  h.1.congr h.2 fun _ haway => peek_call haway

/-- A gets the length of a string. -/
def measuresString (u w : View) : Prop := ∀ s, Inspectable u [] string1 s → w.a.toNat = s.length

/-- A tells whether two strings are equal. -/
def comparesStrings (u w : View) : Prop :=
  ∀ s₁ s₂, Inspectable u [] string1 s₁ → Inspectable u [] string2 s₂ →
    w.a = if s₁ = s₂ then 1 else 0

/-- A gets the byte of a string at the index in A, and zero from the end on. -/
def indexesString (u w : View) : Prop :=
  ∀ s, Inspectable u [work] string1 s → w.a = s.getD u.a.toNat 0

/-- On every accepted memory map, in every library that holds them and from whatever the processor
was doing before, the routines that inspect strings come back with the length, with the result of
the comparison and with the byte at an index. -/
theorem strings_inspected (ht : t.error? = none) :
    (∃ image, (stock t inspectors).stream.link libraryOrigin = .ok image ∧ LiesLow image) ∧
      ∀ ids : List RoutineId, (.stringLength ∈ ids → Serves t ids .stringLength measuresString) ∧
        (.stringEqual ∈ ids → Serves t ids .stringEqual comparesStrings) ∧
        (.stringAt ∈ ids → Serves t ids .stringAt indexesString) := by
  have hroomy := roomy_of_error? ht
  refine ⟨stock_links_low (fun _ _ r _ => inspecting_obeyed hroomy r) (by decide +kernel),
    fun ids => ⟨fun hid => ?_, fun hid => ?_, fun hid => ?_⟩⟩
  · exact serves_inspecting hroomy hid (Nat.zero_le _) (fun _ => trivial) fun u w hends s hs =>
      hends s (hs.called callEnd)
  · exact serves_inspecting hroomy hid (Nat.zero_le _) (fun _ => trivial)
        fun u w hends s₁ s₂ h₁ h₂ =>
      hends s₁ s₂ (h₁.called callEnd) (h₂.called callEnd)
  · exact serves_inspecting hroomy hid (Nat.zero_le _) (fun _ => trivial) fun u w hends s hs =>
      hends s (hs.legible callEnd u.a)

/-- A processor calls a routine of an image and gets a byte. -/
def Yields (image : Image) (c : Cpu) (id : RoutineId) (n : UInt8) : Prop :=
  ∃ address, image.lookup? id.name = some address ∧ ∃ c' w, c.call address 0 = (c', none) ∧
    c'.Shows w ∧ w.a = n

theorem Serves.yields {ids : List RoutineId} {id : RoutineId} {p : Since} (h : Serves t ids id p)
    {origin : UInt16} {image : Image}
    (hlink : (stock t ids).stream.link origin = .ok image) (hapart : LiesApart t ids image)
    {c : Cpu} (hc : c.Carries image) {n : UInt8}
    (hp : ∀ w, p c.view w → w.a = n) : Yields image c id n := by
  obtain ⟨address, hlookup, hcalls⟩ := h origin image hlink hapart
  obtain ⟨_, c', w, hcall, hshows, hw⟩ := hcalls c hc
  exact ⟨address, hlookup, c', w, hcall 0 (.inl rfl), hshows, hp w hw⟩

/-- A text that is clear of some slots can be read. -/
theorem legible_of_spells {u : View} {zs : List UInt8} {p : UInt16} {s : List UInt8}
    (h : u.Spells zs p s) : Legible u p s :=
  ⟨h.1, h.2.1, fun i hi => (h.2.2 i hi).peek (fun _ _ => rfl) fun _ => rfl⟩

/-- A word of two letters has the length two, is no mark and starts with its first letter. -/
theorem greeting_inspected : Target.c64.error? = none ∧ ∃ image,
    (stock .c64 inspectors).stream.link libraryOrigin = .ok image ∧
    let c := loading greeting image
    c.Carries image ∧ Inspectable c.view [] string1 [0x48, 0x49] ∧
      Inspectable c.view [work] string1 [0x48, 0x49] ∧
      Inspectable c.view [] string2 [0x21] ∧ c.view.a = 0 ∧
      Yields image c .stringLength 2 ∧ Yields image c .stringEqual 0 ∧
          Yields image c .stringAt 0x48 := by
  have ht : Target.c64.error? = none := by decide
  obtain ⟨⟨image, hlink, hlies⟩, hserves⟩ := strings_inspected ht
  obtain ⟨hlength, hequal, hat⟩ := hserves inspectors
  have hcarries := loading_carries (v := greeting) hlies rfl rfl
  have hsp : (loading greeting image).view.sp = 0xFF := sp_loading hlies
  have ha : (loading greeting image).view.a = 0 := by
    rw [loading_eq greeting hlies]
    rfl
  have hfirst : (loading greeting image).view.pointer string1 = 0x8000 := by
    rw [View.pointer, zp_loading hlies]
    rfl
  have hsecond : (loading greeting image).view.pointer string2 = 0xCF00 := by
    rw [View.pointer, zp_loading hlies]
    rfl
  have hword : Legible (loading greeting image).view 0x8000 [0x48, 0x49] := by
    refine legible_of_spells
      (@spells_main _ [] _ _ (by decide) (by decide) (by decide) (by decide) fun i hi => ?_)
    change i ≤ 2 at hi
    rw [main_loading hlies]
    all_goals interval_cases i <;> decide +kernel
  have hmark : Legible (loading greeting image).view 0xCF00 [0x21] := by
    refine legible_of_spells
      (@spells_main _ [] _ _ (by decide) (by decide) (by decide) (by decide) fun i hi => ?_)
    change i ≤ 1 at hi
    rw [main_loading hlies]
    all_goals interval_cases i <;> decide +kernel
  have hinspectable : Inspectable (loading greeting image).view [] string1 [0x48, 0x49] ∧
      Inspectable (loading greeting image).view [work] string1 [0x48, 0x49] ∧
          Inspectable (loading greeting image).view [] string2 [0x21] := by
    rw [Inspectable, Inspectable, Inspectable, hfirst, hsecond, pushed, hsp]
    exact ⟨⟨hword, by decide⟩, ⟨hword, by decide⟩, hmark, by decide⟩
  obtain ⟨hmeasured, hindexed, hcompared⟩ := hinspectable
  have hapart := hlies.apart inspectors
  refine ⟨ht, image, hlink, hcarries, hmeasured, hindexed, hcompared, ha, ?_, ?_, ?_⟩
  · exact (hlength (by decide)).yields hlink hapart hcarries fun w hw =>
      UInt8.toNat_inj.1 (hw _ hmeasured)
  · exact (hequal (by decide)).yields hlink hapart hcarries fun w hw => hw _ _ hmeasured hcompared
  · refine (hat (by decide)).yields hlink hapart hcarries fun w hw => ?_
    rw [hw _ hindexed, ha]
    rfl

/-- A string of one letter that lies in the work byte: the index is stored over the letter, and at
the index zero there is no letter any more. -/
theorem letter_in_work_lost :
    ∃ image, (stock .c64 [.stringAt]).stream.link libraryOrigin = .ok image ∧ LiesLow image ∧
    let c := loading (loaded work 0x41 string1 work.toNat) image
    c.Carries image ∧ Inspectable c.view [] string1 [0x41] ∧
      ([0x41] : List UInt8).getD c.view.a.toNat 0 = 0x41 ∧
      Yields image c .stringAt 0 := by
  have hroomy : Roomy .c64 := roomy_of_error? (by decide)
  obtain ⟨image, hlink, hlies⟩ : ∃ image, (stock .c64 [.stringAt]).stream.link libraryOrigin =
      .ok image ∧ LiesLow image :=
    stock_links_low (fun _ _ r _ => inspecting_obeyed hroomy r) (by decide +kernel)
  have hserves : Serves .c64 [.stringAt] .stringAt fun u w => takesByte (u.call callEnd) w :=
    serves_inspecting hroomy (List.mem_singleton_self _) (Nat.zero_le _) (fun _ => trivial)
      fun _ _ hends => hends
  generalize hv : loaded work 0x41 string1 work.toNat = v
  have hzp := zp_loading (v := v) hlies
  have hcarries := loading_carries (v := v) hlies (by rw [← hv]; rfl) (by rw [← hv]; rfl)
  have ha : (loading v image).view.a = 0 := by
    rw [loading_eq v hlies, ← hv]
    rfl
  have hsp : (loading v image).view.sp = 0xFF := by
    rw [sp_loading hlies, ← hv]
    rfl
  have hpointer : (loading v image).view.pointer string1 = work.toUInt16 := by
    rw [View.pointer, hzp, ← hv]
    rfl
  have hletter : (loading v image).view.zp work = 0x41 ∧
      (loading v image).view.zp (work + 1) = 0 := by
    rw [hzp, ← hv]
    exact ⟨rfl, rfl⟩
  refine ⟨image, hlink, hlies, hcarries,
    ⟨⟨by decide, by decide, fun i hi => ?_⟩, ?_⟩, by rw [ha]; rfl, ?_⟩
  · rw [hpointer]
    change i ≤ 1 at hi
    interval_cases i
    · exact hletter.1
    · exact hletter.2
  · rw [hpointer, pushed, hsp]
    decide
  · refine hserves.yields hlink (hlies.apart _) hcarries fun w hw =>
      hw [] ⟨by decide, List.not_mem_nil, fun i hi => ?_⟩
    obtain rfl : i = 0 := Nat.le_zero.1 hi
    show (((loading v image).view.call callEnd).store work (loading v image).view.a).peek
      ((loading v image).view.pointer string1 + UInt16.ofNat 0) = 0
    rw [hpointer, ha]
    exact Function.update_self work 0 (loading v image).view.zp

end Breadbin.Routine
