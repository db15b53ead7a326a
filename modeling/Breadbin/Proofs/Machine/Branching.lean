import Breadbin.Machine.Execute
import Breadbin.Proofs.Assembly.Linking

/-!
# Branches in linked images

A conditional branch of a linked image leads to its label when its condition holds and to the next
line when it does not, whether it was linked as one instruction or as the inverse branch around a
jump. Nothing else of the machine changes.
-/

namespace Breadbin.Machine

open Assembly

/-- The flag that a conditional branch looks at, and whether it has to be set. -/
def condition? : Mnemonic → Option (Flag × Bool)
  | .bcc => some (.carry, false)
  | .bcs => some (.carry, true)
  | .beq => some (.zero, true)
  | .bne => some (.zero, false)
  | .bmi => some (.negative, true)
  | .bpl => some (.negative, false)
  | .bvc => some (.overflow, false)
  | .bvs => some (.overflow, true)
  | _ => none

/-- Whether a conditional branch is taken with a status register. -/
def taken? (p : UInt8) (mn : Mnemonic) : Option Bool :=
  (condition? mn).map fun (flag, on) => hasFlag p flag == on

/-- The processor has an image in its memory, and no trap lies in it. -/
structure Cpu.Carries (c : Cpu) (image : Image) : Prop where
  bytes : ∀ i b, image.bytes.toList[i]? = some b → c.read (image.origin + UInt16.ofNat i) = b
  chrout : c.chrout ≠ 0 → c.chrout.toNat < image.origin.toNat ∨ image.stop ≤ c.chrout.toNat
  plot : c.plot ≠ 0 → c.plot.toNat < image.origin.toNat ∨ image.stop ≤ c.plot.toNat

/-! ## Conditions -/

theorem taken?_isSome {mn inverse : Mnemonic} (h : mn.inverse? = some inverse) (p : UInt8) :
    ∃ taken, taken? p mn = some taken := by
  cases mn <;> first | exact ⟨_, rfl⟩ | cases h

/-- The inverse branch is taken when the branch is not. -/
theorem taken?_inverse {mn inverse : Mnemonic} (h : mn.inverse? = some inverse)
    {p : UInt8} {taken : Bool}
    (htaken : taken? p mn = some taken) : taken? p inverse = some !taken := by
  cases mn <;> cases h <;> cases htaken <;> simp [taken?, condition?]

theorem Cpu.execute_branch {c : Cpu} {p : UInt8} (hp : c.p = p) {mn : Mnemonic} {taken : Bool}
    (h : taken? p mn = some taken) (code : UInt8) (mode : Mode) (cycles : Nat) (pos : UInt16) :
    c.execute ⟨code, mn, mode, cycles⟩ pos = (c.branch taken pos, none) := by
  subst hp
  cases mn <;> cases h <;> simp [Cpu.execute, Cpu.flag]

/-! ## Single steps -/

/-- The processor does not stand on a trap. -/
def Cpu.Untrapped (c : Cpu) : Prop :=
  ¬(c.chrout ≠ 0 ∧ c.pc = c.chrout) ∧ ¬(c.plot ≠ 0 ∧ c.pc = c.plot)

theorem Cpu.step_eq {c : Cpu} (h : c.Untrapped) {op : Opcode}
    (hop : Opcode.decode? (c.read c.pc) = some op) :
    c.step = Cpu.execute { c with
      pc := c.pc + UInt16.ofNat op.mode.size
      steps := c.steps + 1
      cycles := c.cycles + op.cycles } op c.pc := by
  unfold Cpu.step
  rw [if_neg h.1, if_neg h.2]
  simp only [hop]

/-- A branch instruction changes the program counter alone. -/
theorem Cpu.step_branch {c : Cpu} (h : c.Untrapped) {mn : Mnemonic} {code d : UInt8} {taken : Bool}
    (known : Opcode.encode? mn .relative = some code) (hcode : c.read c.pc = code)
    (hd : c.read (c.pc + 1) = d) (htaken : taken? c.p mn = some taken) :
    ∃ cycles, c.step = ({ c with
      pc := if taken then Opcode.branchTarget c.pc d else c.pc + 2
      steps := c.steps + 1
      cycles := cycles }, none) := by
  obtain ⟨n, hdecode⟩ := Opcode.decode?_of_encode? known
  rw [← hcode] at hdecode
  refine ⟨if taken then c.cycles + n + 1 else c.cycles + n, ?_⟩
  rw [Cpu.step_eq h hdecode, Cpu.execute_branch (p := c.p) ?hp htaken]
  case hp => rfl
  cases taken with
  | false => rfl
  | true =>
    subst hd
    rfl

/-- A jump changes the program counter alone. -/
theorem Cpu.step_jump {c : Cpu} (h : c.Untrapped) {target : Nat} (ht : target < 0x10000)
    (hread : ∀ i b, (0x4C :: wordBytes target)[i]? = some b → c.read (c.pc + UInt16.ofNat i) = b) :
    ∃ cycles, c.step = ({ c with
      pc := UInt16.ofNat target
      steps := c.steps + 1
      cycles := cycles }, none) := by
  have hcode : c.read c.pc = 0x4C := by simpa using hread 0 _ rfl
  have hlo : c.read (c.pc + 1) = UInt8.ofNat (target % 256) := hread 1 _ rfl
  have hhi : c.read (c.pc + 2) = UInt8.ofNat (target / 256) := hread 2 _ rfl
  have known : Opcode.encode? .jmp .absolute = some 0x4C := by decide
  obtain ⟨n, hdecode⟩ := Opcode.decode?_of_encode? known
  rw [← hcode] at hdecode
  have hword : Cpu.wordOf (c.read (c.pc + 1)) (c.read (c.pc + 2)) = UInt16.ofNat target := by
    apply UInt16.toNat_inj.1
    rw [hlo, hhi]
    simp only [Cpu.wordOf, UInt16.toNat_add, UInt16.toNat_mul, UInt8.toNat_toUInt16,
      UInt8.toNat_ofNat', UInt16.toNat_ofNat', UInt16.reduceToNat]
    omega
  refine ⟨c.cycles + n, ?_⟩
  rw [Cpu.step_eq h hdecode, ← hword]
  rfl

theorem Cpu.stepMany_succ {c d : Cpu} (h : c.step = (d, none)) (n : Nat) :
    c.stepMany (n + 1) = d.stepMany n := by
  rw [Cpu.stepMany, h]

/-! ## Images in memory -/

namespace Cpu.Carries

variable {c : Cpu} {image : Image} {front bytes back : List UInt8}

/-- The processor reads a part of the image where it lies. -/
theorem read (h : c.Carries image) (hbytes : image.bytes.toList = front ++ bytes ++ back)
    {i : Nat} {b : UInt8} (hi : bytes[i]? = some b) :
    c.read (image.origin + UInt16.ofNat front.length + UInt16.ofNat i) = b := by
  have hlt : i < bytes.length := (List.getElem?_eq_some_iff.1 hi).1
  rw [UInt16.add_assoc, ← UInt16.ofNat_add]
  apply h.bytes
  rw [hbytes, List.append_assoc, List.getElem?_append_right (Nat.le_add_right _ _),
    Nat.add_sub_cancel_left, List.getElem?_append_left hlt, hi]

/-- No address of the image is a trap. -/
theorem untrapped (h : c.Carries image) (habove : image.origin.toNat ≤ c.pc.toNat)
    (hbelow : c.pc.toNat < image.stop) : c.Untrapped := by
  constructor
  · rintro ⟨htrap, hpc⟩
    have := h.chrout htrap
    rw [← hpc] at this
    omega
  · rintro ⟨htrap, hpc⟩
    have := h.plot htrap
    rw [← hpc] at this
    omega

/-- Steps that change neither memory nor traps keep the image. -/
theorem congr (h : c.Carries image) {c' : Cpu} (hmemory : c'.memory = c.memory)
    (hchrout : c'.chrout = c.chrout) (hplot : c'.plot = c.plot) : c'.Carries image where
  bytes i b hi := by
    rw [← h.bytes i b hi, Cpu.read, Cpu.read, hmemory]
  chrout := hchrout ▸ h.chrout
  plot := hplot ▸ h.plot

end Cpu.Carries

theorem read_writeBytes_of_outside {m : Memory} {a b : UInt16} {bs : Bytes}
    (h : ∀ i < bs.length, b ≠ a + UInt16.ofNat i) : (m.writeBytes a bs).read b = m.read b := by
  induction bs generalizing m a with
  | nil => rfl
  | cons x bs ih =>
    have hfirst : b ≠ a := by simpa using h 0 (Nat.succ_pos _)
    rw [Memory.writeBytes, ih, Memory.read_write_of_ne m x hfirst.symm]
    intro i hi
    have := h (i + 1) (Nat.succ_lt_succ hi)
    rwa [Nat.add_comm, UInt16.ofNat_add, ← UInt16.add_assoc] at this

theorem read_writeBytes {m : Memory} {a : UInt16} {bs : Bytes}
    (hlength : bs.length ≤ 65536) {i : Nat}
    {b : UInt8} (hi : bs[i]? = some b) : (m.writeBytes a bs).read (a + UInt16.ofNat i) = b := by
  induction bs generalizing m a i with
  | nil => cases hi
  | cons x bs ih =>
    rw [List.length_cons] at hlength
    rw [Memory.writeBytes]
    cases i with
    | zero =>
      obtain rfl : x = b := by simpa using hi
      rw [show UInt16.ofNat 0 = 0 from rfl, UInt16.add_zero, read_writeBytes_of_outside,
        Memory.read_write_self]
      -- the bytes behind the first one do not wrap around to it
      intro j hj heq
      have := congrArg UInt16.toNat heq
      have hone : (1 : UInt16).toNat = 1 := rfl
      rw [UInt16.toNat_add, UInt16.toNat_add, UInt16.toNat_ofNat', hone] at this
      have := a.toNat_lt
      omega
    | succ i =>
      rw [Nat.add_comm, UInt16.ofNat_add, ← UInt16.add_assoc]
      exact ih (by omega) (by simpa using hi)

/-- A processor that has loaded an image carries it. -/
theorem Cpu.load_carries {c : Cpu} {image : Image} (hfits : image.stop ≤ 0x10000)
    (hchrout : c.chrout ≠ 0 → c.chrout.toNat < image.origin.toNat ∨ image.stop ≤ c.chrout.toNat)
    (hplot : c.plot ≠ 0 → c.plot.toNat < image.origin.toNat ∨ image.stop ≤ c.plot.toNat) :
    (c.load image.origin image.bytes.toList).1.Carries image := by
  unfold Image.stop at hfits
  have hload : c.load image.origin image.bytes.toList =
      ({ c with memory := c.memory.writeBytes image.origin image.bytes.toList }, none) := by
    unfold Cpu.load
    rw [if_neg (by rw [Array.length_toList]; omega)]
  rw [hload]
  exact ⟨fun i b hi => read_writeBytes (by rw [Array.length_toList]; omega) hi, hchrout, hplot⟩

/-! ## Linked branches -/

/-- The address that the inverse branch around a jump skips to. -/
theorem branchTarget_around (a : UInt16) : Opcode.branchTarget a 3 = a + UInt16.ofNat 5 := by
  unfold Opcode.branchTarget
  rw [if_pos (by decide), UInt16.add_zero, UInt16.add_assoc]
  rfl

/-- A branch from its bytes: the branch itself, or its inverse around a jump. -/
theorem Cpu.Carries.branch {c : Cpu} {image : Image} (h : c.Carries image) {env : Addresses}
    {front bytes back : List UInt8} (hbytes : image.bytes.toList = front ++ bytes ++ back)
    (hstop : image.stop ≤ 0x10000) (hpc : c.pc.toNat = image.origin.toNat + front.length)
    {mn : Mnemonic} {l : LabelId}
    (hencodes : (Line.instr mn (.relative l)).Encodes env c.pc.toNat bytes) (hl : l.isSome = true) :
    ∃ taken, taken? c.p mn = some taken ∧ ∃ cycles,
      let n := if decide (bytes.length = 5) && taken then 2 else 1
      c.stepMany n = ({ c with
        pc := if taken then UInt16.ofNat (env l) else c.pc + UInt16.ofNat bytes.length
        steps := c.steps + n
        cycles := cycles }, none) := by
  have hwithin : c.pc.toNat + bytes.length ≤ image.stop := by
    rw [hpc, Image.stop, ← Array.length_toList, hbytes, List.length_append, List.length_append]
    omega
  have hpos : image.origin + UInt16.ofNat front.length = c.pc := by
    apply UInt16.toNat_inj.1
    have := c.pc.toNat_lt
    rw [UInt16.toNat_add, UInt16.toNat_ofNat', hpc]
    omega
  have hread : ∀ {i : Nat} {b : UInt8}, bytes[i]? = some b → c.read (c.pc + UInt16.ofNat i) = b :=
    fun hi => hpos ▸ h.read hbytes hi
  have hfree : bytes ≠ [] → c.Untrapped := by
    intro hne
    have := List.length_pos_iff.2 hne
    exact h.untrapped (by omega) (by omega)
  cases hencodes with
  | instr known fixed fits => simp [Arg.branch?, hl] at fixed
  | @short _ _ code d known isSome lands =>
    obtain ⟨inverse, -, hinverse, -⟩ := Opcode.inverse?_of_encode? known
    obtain ⟨taken, htaken⟩ := taken?_isSome hinverse c.p
    obtain ⟨cycles, hstep⟩ :=
      Cpu.step_branch (hfree (by simp)) known (by simpa using hread (i := 0) rfl)
      (hread (i := 1) rfl) htaken
    refine ⟨taken, htaken, cycles, ?_⟩
    rw [UInt16.ofNat_toNat] at lands
    have hland : Opcode.branchTarget c.pc d = UInt16.ofNat (env l) := by
      rw [← lands, UInt16.ofNat_toNat]
    rw [hland] at hstep
    exact Cpu.stepMany_succ hstep 0
  | @long _ inverse _ code inverts known isSome fits =>
    obtain ⟨taken, htaken⟩ := taken?_isSome inverts c.p
    obtain ⟨cycles, hstep⟩ :=
      Cpu.step_branch (hfree (by simp)) known (by simpa using hread (i := 0) rfl)
      (hread (i := 1) rfl) (taken?_inverse inverts htaken)
    cases taken with
    | false =>
      -- the inverse branch skips the jump
      refine ⟨false, htaken, cycles, ?_⟩
      rw [Bool.not_false, if_pos rfl, branchTarget_around] at hstep
      exact Cpu.stepMany_succ hstep 0
    | true =>
      -- the inverse branch falls through to the jump
      rw [Bool.not_true, if_neg Bool.false_ne_true] at hstep
      let d : Cpu := { c with pc := c.pc + 2, steps := c.steps + 1, cycles := cycles }
      have hd : d.Carries image := h.congr rfl rfl rfl
      replace hwithin : c.pc.toNat + 5 ≤ image.stop := hwithin
      have hdpc : d.pc.toNat = c.pc.toNat + 2 := by
        show (c.pc + 2).toNat = _
        rw [UInt16.toNat_add, show (2 : UInt16).toNat = 2 from rfl]
        omega
      have hjump : ∀ i b, (0x4C :: wordBytes (env l))[i]? = some b →
          d.read (d.pc + UInt16.ofNat i) = b := by
        intro i b hi
        have := hread (i := i + 2) (b := b) (by simpa using hi)
        rwa [Nat.add_comm, UInt16.ofNat_add, ← UInt16.add_assoc] at this
      have hdfree : d.Untrapped := hd.untrapped (by rw [hdpc]; omega) (by omega)
      obtain ⟨cycles', hstep'⟩ := Cpu.step_jump hdfree fits hjump
      refine ⟨true, htaken, cycles', ?_⟩
      exact (Cpu.stepMany_succ hstep 1).trans (Cpu.stepMany_succ hstep' 0)

/-- **Branches mean the same whether they are linked short or long.**  In an image that was linked
from a stream without alignments, the processor goes from a conditional branch to the address of its
label when the condition holds and to the address of the next line otherwise: in one step, or in two
when a long branch is taken.  It changes nothing but the program counter and its counts of steps and
cycles. -/
theorem branch_steps {actions : List Action} {origin : UInt16} {image : Image}
    (unaligned : ∀ a ∈ actions, a.isAlign = false)
    (linked : (Stream.ofActions actions).link origin = .ok image) :
    ∃ env ps, (Listing.ofActions actions).Linked image env ps ∧ image.origin = origin ∧
      (∀ pre p post l, ps = pre ++ p :: post → p.line = .bound l →
        env l = origin.toNat + Placement.size pre) ∧
      ∀ pre p post mn l, ps = pre ++ p :: post →
        p.line = .instr mn (.relative l) → l.isSome = true →
        ∀ c : Cpu, c.Carries image → c.pc.toNat = origin.toNat + Placement.size pre →
          ∃ taken, taken? c.p mn = some taken ∧ ∃ cycles,
            let n := if p.isLong && taken then 2 else 1
            c.stepMany n = ({ c with
              pc := UInt16.ofNat
                (if taken then env l else origin.toNat + Placement.size (pre ++ [p]))
              steps := c.steps + n
              cycles := cycles }, none) := by
  have shows := Stream.ofActions_shows (Stream.link_eq linked).1
  obtain ⟨env, ps, hlinked, rfl, -, hlabels⟩ :=
    shows.link_unaligned (Listing.ofActions_not_align unaligned) linked
  refine ⟨env, ps, hlinked, rfl, hlabels, ?_⟩
  rintro pre p post mn l rfl hline hl c hc hpc
  have hencodes := hlinked.assembled.split.1
  rw [hline, ← hpc] at hencodes
  have hbytes : image.bytes.toList =
      pre.flatMap Placement.bytes ++ p.bytes ++ post.flatMap Placement.bytes := by
    rw [hlinked.bytes, List.flatMap_append, List.flatMap_cons, List.append_assoc]
  obtain ⟨taken, htaken, cycles, hsteps⟩ :=
    hc.branch hbytes (Stream.link_extent linked).2 hpc hencodes hl
  have hlong : p.isLong = decide (p.bytes.length = 5) := by
    simp only [Placement.isLong, hline]
  have hnext : UInt16.ofNat (image.origin.toNat + Placement.size (pre ++ [p])) =
      c.pc + UInt16.ofNat p.bytes.length := by
    rw [Placement.size_append, ← Nat.add_assoc, ← hpc, UInt16.ofNat_add, UInt16.ofNat_toNat]
    simp
  refine ⟨taken, htaken, cycles, ?_⟩
  rw [apply_ite UInt16.ofNat, hnext, hlong]
  exact hsteps

/-- The loop is loaded, and from its branch the processor goes back to its start. -/
theorem branch_steps_loop : ∃ image, (Stream.ofActions loopActions).link 0xC000 = .ok image ∧
    ∃ c : Cpu, c.Carries image ∧ ∃ n d, c.stepMany n = (d, none) ∧ d.pc = 0xC000 := by
  have hstop : ((Stream.ofActions loopActions).link 0xC000).toOption.map Image.stop =
      some 0xC007 := by
    decide +kernel
  obtain ⟨image, hlink, hstop⟩ := exists_ok_of_map hstop
  obtain ⟨env, ps, hlinked, horigin, hlabels, hbranch⟩ := branch_steps (by decide) hlink
  have hlines : ps.map Placement.line = [.bound ⟨2⟩, .instr .lda (.lowByte (.ofLabel ⟨1⟩ 2)),
      .instr .bne (.relative ⟨2⟩), .word (.ofLabel ⟨2⟩), .bound ⟨1⟩, .instr .rts .implied] :=
    hlinked.lines.trans (by decide)
  obtain ⟨start, rest, rfl, hstart, hlines⟩ := List.map_eq_cons_iff.1 hlines
  obtain ⟨load, rest, rfl, hload, hlines⟩ := List.map_eq_cons_iff.1 hlines
  obtain ⟨branch, rest, rfl, hline, -⟩ := List.map_eq_cons_iff.1 hlines
  have hsize : Placement.size [start, load] ≤ 7 := by
    have hbytes := congrArg List.length hlinked.bytes
    rw [Image.stop, horigin, ← Array.length_toList, hbytes] at hstop
    have hall : (0xC000 : UInt16).toNat + Placement.size ([start, load] ++ branch :: rest) =
      0xC007 := hstop
    rw [Placement.size_append, show (0xC000 : UInt16).toNat = 0xC000 from rfl] at hall
    omega
  let c : Cpu := { pc := UInt16.ofNat (0xC000 + Placement.size [start, load]) }
  have hcarries : (c.load image.origin image.bytes.toList).1.Carries image :=
    Cpu.load_carries (by omega)
      (fun _ => .inr (hstop ▸ (by decide : 0xC007 ≤ (0xFFD2 : UInt16).toNat)))
      fun _ => .inr (hstop ▸ (by decide : 0xC007 ≤ (0xFFF0 : UInt16).toNat))
  have hpc : (c.load image.origin image.bytes.toList).1.pc = c.pc := by
    unfold Cpu.load
    split <;> rfl
  have hp : (c.load image.origin image.bytes.toList).1.p = 0x24 := by
    unfold Cpu.load
    split <;> rfl
  obtain ⟨taken, htaken, cycles, hsteps⟩ :=
    hbranch [start, load] branch rest .bne ⟨2⟩ rfl hline rfl _ hcarries
    (by rw [hpc, UInt16.toNat_ofNat', Nat.mod_eq_of_lt (by omega)]; rfl)
  rw [hp] at htaken
  obtain rfl : true = taken := Option.some.inj htaken
  refine ⟨image, hlink, _, hcarries, _, _, hsteps, ?_⟩
  rw [if_pos rfl, hlabels [] start _ ⟨2⟩ rfl hstart]
  rfl

end Breadbin.Machine
