import Breadbin.Proofs.Machine.Frame

/-!
# The conduct of routines

A routine may change some slots of the zero page and some of the memory behind the stack page, may
have to keep index registers, and uses the stack below its return address.  `Conduct.Since` relates
the view at its start with a later one; `Conduct.Ends` says that from some place in the code the
routine gives control back and has kept to its conduct.

No step of the processor moves a trap.  There is a processor for every view, so code that leads from
one view to another leaves the traps alone, and what is known of a routine by the slots that it
stores into tells that it keeps to a conduct.
-/

namespace Breadbin.Machine

open Assembly

/-- What a routine may change, how deep it goes down the stack, what it relies on at its start and
what holds at its end. -/
structure Conduct where
  depth : Nat
  slots : List UInt8
  /-- memory that may change: first address and size -/
  areas : List (Nat × Nat) := []
  keepsX : Bool := false
  keepsY : Bool := false
  starts : View → Prop := fun _ => True
  ends : View → View → Prop := fun _ _ => True

/-- A condition on the view at the start of a routine and a later one. -/
abbrev Since := View → View → Prop

namespace Conduct

/-- Whether a byte behind the stack page may change. -/
def Owns (M : Conduct) (address : UInt16) : Prop :=
  ∃ area ∈ M.areas, area.1 ≤ address.toNat ∧ address.toNat < area.1 + area.2

/-- The code leaves the memory alone that may change. -/
def Fits (M : Conduct) (code : LinkedCode) : Prop :=
  ∀ address, M.Owns address → mainBase ≤ address.toNat ∧ ¬code.Covers address.toNat

/-- The second view comes from the first one, with some bytes pushed. -/
structure Keeps (M : Conduct) (pushed : Nat) (u v : View) : Prop where
  sp : v.sp = u.sp - UInt8.ofNat pushed
  zp : ∀ i, i ∉ M.slots → v.zp i = u.zp i
  main : ∀ address, ¬M.Owns address → v.main address = u.main address
  stack : ∀ i, M.depth ≤ (u.sp - i).toNat → v.stack i = u.stack i
  x : M.keepsX = true → v.x = u.x
  y : M.keepsY = true → v.y = u.y
  chrout : v.chrout = u.chrout
  plot : v.plot = u.plot

variable {M N : Conduct} {k : Nat} {u v w : View}

theorem Keeps.refl (M : Conduct) (u : View) : M.Keeps 0 u u :=
  ⟨by simp, fun _ _ => rfl, fun _ _ => rfl, fun _ _ => rfl, fun _ => rfl, fun _ => rfl, rfl, rfl⟩

/-- A view that differs from a kept one in the accumulator and the flags, and perhaps in index
registers and in slots. -/
theorem Keeps.change (h : M.Keeps k u v) (hsp : w.sp = v.sp) (hstack : w.stack = v.stack)
    (hmain : w.main = v.main)
    (hchrout : w.chrout = v.chrout) (hplot : w.plot = v.plot)
    (hzp : ∀ i, i ∉ M.slots → w.zp i = v.zp i)
    (hx : M.keepsX = true → w.x = v.x) (hy : M.keepsY = true → w.y = v.y) : M.Keeps k u w :=
  ⟨hsp.trans h.sp, fun i hi => (hzp i hi).trans (h.zp i hi),
    fun address ha => by rw [hmain]; exact h.main address ha,
    fun i hi => by rw [hstack]; exact h.stack i hi, fun hk => (hx hk).trans (h.x hk),
    fun hk => (hy hk).trans (h.y hk), hchrout.trans h.chrout, hplot.trans h.plot⟩

theorem Keeps.poke (h : M.Keeps k u v) {address : UInt16} (hown : M.Owns address) (n : UInt8) :
    M.Keeps k u (v.poke address n) :=
  { h with
    main := fun b hb => by
      have hne : b ≠ address := by
        rintro rfl
        exact hb hown
      exact (Function.update_of_ne hne _ _).trans (h.main b hb) }

theorem toNat_sub_sub {s i : UInt8} {k : Nat} (h : k ≤ (s - i).toNat) :
    (s - UInt8.ofNat k - i).toNat = (s - i).toNat - k := by
  have := s.toNat_lt
  have := i.toNat_lt
  simp only [UInt8.toNat_sub, UInt8.toNat_ofNat'] at h ⊢
  omega

theorem Keeps.push (h : M.Keeps k u v) (hk : k < M.depth) (n : UInt8) :
    M.Keeps (k + 1) u (v.push n) := by
  refine { h with sp := ?_, stack := fun i hi => ?_ }
  · rw [View.push, h.sp]
    apply UInt8.toNat_inj.1
    have := u.sp.toNat_lt
    simp only [UInt8.toNat_sub, UInt8.toNat_ofNat', UInt8.toNat_one]
    omega
  · have hne : i ≠ v.sp := by
      rintro rfl
      rw [h.sp] at hi
      have := u.sp.toNat_lt
      simp only [UInt8.toNat_sub, UInt8.toNat_ofNat'] at hi
      omega
    exact (Function.update_of_ne hne _ _).trans (h.stack i hi)

theorem Keeps.drop (h : M.Keeps (k + 1) u v) : M.Keeps k u v.drop := by
  refine { h with sp := ?_ }
  rw [View.drop, h.sp]
  apply UInt8.toNat_inj.1
  have := u.sp.toNat_lt
  simp only [UInt8.toNat_sub, UInt8.toNat_add, UInt8.toNat_ofNat', UInt8.toNat_one]
  omega

/-- The conduct of a routine that another one may call after it has pushed some bytes. -/
structure Allows (M : Conduct) (pushed : Nat) (N : Conduct) : Prop where
  slots : N.slots ⊆ M.slots
  areas : N.areas ⊆ M.areas
  x : M.keepsX = true → N.keepsX = true
  y : M.keepsY = true → N.keepsY = true
  depth : pushed + N.depth ≤ M.depth

instance (pushed : Nat) : Decidable (M.Allows pushed N) :=
  decidable_of_iff (N.slots ⊆ M.slots ∧ N.areas ⊆ M.areas ∧ (M.keepsX = true → N.keepsX = true) ∧
      (M.keepsY = true → N.keepsY = true) ∧ pushed + N.depth ≤ M.depth)
    ⟨fun ⟨h1, h2, h3, h4, h5⟩ => ⟨h1, h2, h3, h4, h5⟩, fun ⟨h1, h2, h3, h4, h5⟩ =>
      ⟨h1, h2, h3, h4, h5⟩⟩

/-- What another routine keeps is kept. -/
theorem Keeps.trans (h : M.Keeps k u v) (h' : N.Keeps 0 v w) (hallows : M.Allows k N) :
    M.Keeps k u w := by
  have hsp : w.sp = v.sp := by simpa using h'.sp
  refine ⟨hsp.trans h.sp, fun i hi => ?_, fun address ha => ?_, fun i hi =>
    ?_, fun hk => ?_, fun hk => ?_, h'.chrout.trans h.chrout, h'.plot.trans h.plot⟩
  · exact (h'.zp i fun hmem => hi (hallows.slots hmem)).trans (h.zp i hi)
  · refine (h'.main address fun ⟨area, harea, hin⟩ => ha ⟨area, hallows.areas harea, hin⟩).trans ?_
    exact h.main address ha
  · have hdepth := hallows.depth
    refine (h'.stack i ?_).trans (h.stack i hi)
    rw [h.sp, toNat_sub_sub (by omega)]
    omega
  · exact (h'.x (hallows.x hk)).trans (h.x hk)
  · exact (h'.y (hallows.y hk)).trans (h.y hk)

/-- A call pushes two bytes. -/
theorem Keeps.call (h : M.Keeps k u v) (hk : k + 2 ≤ M.depth) (b : Nat) :
    M.Keeps (k + 2) u (v.call b) :=
  (h.push (by omega) _).push (by omega) _

/-- The return address of a call is still there when the routine has kept the stack. -/
theorem returnAddress_call (h : N.Keeps 0 (v.call a) w) (hdepth : N.depth ≤ 254) (ha : 1 ≤ a)
    (ha' : a < 0x10001) : w.returnAddress = a := by
  have hframe : (v.call a).Frame N.depth [] { w with main := v.main, zp := v.zp } :=
    ⟨by simpa using h.sp, rfl, fun _ _ => rfl, h.stack⟩
  exact (LinkedCode.returnAddress_of_frame hframe hdepth ha ha').1

end Conduct

/-- A conditional branch is taken or not. -/
theorem View.takes?_of_inverse? {mn : Mnemonic} (h : mn.inverse?.isSome = true) (v : View) :
    ∃ taken, v.takes? mn = some taken := by
  cases mn <;> first | cases h; done | exact ⟨_, rfl⟩

namespace LinkedCode

variable {code : LinkedCode} {a b t : Nat} {u v w : View}

/-- Control comes back to the caller, with the view that `w` is without the return address. -/
def GivesBack (code : LinkedCode) (a : Nat) (v w : View) : Prop :=
  w.returnAddress < 0x10000 → code.Reaches 0 a v w.returnAddress w.drop.drop

theorem Reaches.givesBack {k : Nat} (h : code.Reaches k a u b v) (h' : code.GivesBack b v w) :
    code.GivesBack a u w :=
  fun hret => h.andThen (h' hret)

theorem Installed.givesBack (h : code.Installed a [.instr .rts .implied] b) :
    code.GivesBack a v v :=
  fun hret => (h.giveBack hret).mono (Nat.zero_le 1)

/-- The trap that prints a character gives control back. -/
theorem givesBack_chrout (hzero : v.chrout ≠ 0) (hend : v.chrout ≠ Cpu.returnTrap) :
    code.GivesBack v.chrout.toNat v v.print := by
  intro hret c hc
  have hpc : c.pc = c.chrout := by
    rw [hc.shows.chrout]
    exact UInt16.toNat_inj.1 hc.pc
  have hchrout : c.chrout = v.chrout := hc.shows.chrout
  have hstep : c.step = (c.printTrap, none) := by
    rw [Cpu.step, if_pos ⟨by rw [hchrout]; exact hzero, hpc⟩]
  obtain ⟨hlow, hlo⟩ := hc.shows.pull
  obtain ⟨hhigh, hhi⟩ := hlow.pull
  refine ⟨1, Nat.zero_le 1, c.printTrap, .one (by rw [hpc, hchrout]; exact hend) hstep,
    { hhigh with output := ?_ }, ?_, hc.intact.of_main rfl rfl rfl⟩
  · show c.output.push c.a = v.output.push v.a
    rw [hc.shows.output, hc.shows.a]
  change (c.pull.2.toUInt16 + c.pull.1.pull.2.toUInt16 * 256 + 1).toNat = v.returnAddress
  change v.returnAddress < 0x10000 at hret
  rw [hlo, hhi]
  rw [View.returnAddress] at hret ⊢
  simp
  omega

/-- A call of a fixed address, by which control comes back behind the call. -/
theorem Installed.callBack {arg : AddressRef} (h : code.Installed a [.instr .jsr (.absolute arg)] b)
    (ht : code.env.of arg = t) (hback : code.GivesBack t (v.call b) w)
    (hret : w.returnAddress = b) :
    code.Reaches 0 a v b w.drop.drop := by
  obtain ⟨op, known, hcontains, rfl, hfits⟩ := h.instr rfl
  obtain rfl : op = 0x20 := by
    have : Opcode.encode? .jsr .absolute = some 0x20 := by decide
    exact Option.some.inj (known.symm.trans this)
  have hlt := hfits _ rfl
  rw [ht] at hlt
  have hcall : code.Reaches 1 a v t (v.call (a + 3)) := by
    refine Contains.call ?_ hlt
    rwa [Arg.bytes, ht] at hcontains
  have hbelow := hcontains.bounds.2.1
  have := hback (by rw [hret]; simpa using Nat.lt_succ_of_le hbelow)
  rw [hret] at this
  exact hcall.andThen this

/-- A jump to a fixed address. -/
theorem Installed.jumpTo {arg : AddressRef} (h : code.Installed a [.instr .jmp (.absolute arg)] b)
    (ht : code.env.of arg = t) : code.Reaches 1 a v t v := by
  obtain ⟨op, known, hcontains, -, hfits⟩ := h.instr rfl
  obtain rfl : op = 0x4C := by
    have : Opcode.encode? .jmp .absolute = some 0x4C := by decide
    exact Option.some.inj (known.symm.trans this)
  have hlt := hfits _ rfl
  rw [ht] at hlt
  refine Contains.jump ?_ hlt
  rwa [Arg.bytes, ht] at hcontains

theorem At.of_label {l : LabelId} (h : code.At l t) : code.env.of (.ofLabel l) = t := by
  obtain ⟨hsome, rfl⟩ := h
  simp [Addresses.of, AddressRef.isLabel, AddressRef.ofLabel, hsome]

end LinkedCode

namespace Conduct

variable {M N : Conduct} {code : LinkedCode} {a b t k j : Nat} {P Q : Since} {u v w : View}

/-- The code is still in memory when only what may change has changed. -/
theorem Keeps.intact (h : M.Keeps k u v) (hfits : M.Fits code) (hu : code.Intact u) :
    code.Intact v := by
  refine ⟨fun i n hi => ?_, by rw [h.chrout]; exact hu.chrout, by rw [h.plot]; exact hu.plot⟩
  have hlt : i < code.bytes.length := (List.getElem?_eq_some_iff.1 hi).1
  rw [LinkedCode.length_bytes] at hlt
  have := code.below
  rw [← hu.bytes i n hi]
  refine h.main _ fun hown => (hfits _ hown).2 ?_
  rw [UInt16.toNat_ofNat', Nat.mod_eq_of_lt (by omega)]
  exact ⟨by omega, by omega⟩

/-- From here the routine gives control back. -/
def Ends (M : Conduct) (code : LinkedCode) (pushed : Nat) (P : Since) (a : Nat) : Prop :=
  ∀ u v, code.Intact u → M.starts u → M.Keeps pushed u v → P u v →
    ∃ w, code.GivesBack a v w ∧ M.Keeps 0 u w ∧ M.ends u w

/-- The routine that starts here keeps to its conduct. -/
def Starts (N : Conduct) (code : LinkedCode) (t : Nat) : Prop :=
  N.Ends code 0 Eq t

theorem Ends.mono (h : M.Ends code k Q a) (hP : ∀ u v, P u v → Q u v) : M.Ends code k P a :=
  fun u v hu hs hv hp => h u v hu hs hv (hP u v hp)

/-- What nothing comes to. -/
theorem Ends.never (hP : ∀ u v, ¬P u v) : M.Ends code k P a :=
  fun u v _ _ _ hp => absurd hp (hP u v)

/-- Code that leads to a place from which the routine ends. -/
theorem Ends.after (h : M.Ends code j Q b)
    (hlead : ∀ u v, code.Intact u → M.starts u → M.Keeps k u v → P u v →
      ∃ v' n, code.Reaches n a v b v' ∧ M.Keeps j u v' ∧ Q u v') : M.Ends code k P a := by
  intro u v hu hs hv hp
  obtain ⟨v', n, hreaches, hv', hq⟩ := hlead u v hu hs hv hp
  obtain ⟨w, hback, hw, hends⟩ := h u v' hu hs hv' hq
  exact ⟨w, hreaches.givesBack hback, hw, hends⟩

theorem Ends.rts (h : code.Installed a [.instr .rts .implied] b)
    (hends : ∀ u v, M.starts u → M.Keeps 0 u v → P u v → M.ends u v) : M.Ends code 0 P a :=
  fun u v _ hs hv hp => ⟨v, h.givesBack, hv, hends u v hs hv hp⟩

/-- A conditional branch, however it was linked. -/
theorem Ends.branch {R : Since} {mn : Mnemonic} {l : LabelId} (hb : M.Ends code k Q b)
    (ht : M.Ends code k R t)
    (h : code.Installed a [.instr mn (.relative l)] b) (hl : code.At l t)
    (hmn : mn.inverse?.isSome = true) (htaken : ∀ u v, P u v → v.takes? mn = some true → R u v)
    (hskipped : ∀ u v, P u v → v.takes? mn = some false → Q u v) : M.Ends code k P a := by
  intro u v hu hs hv hp
  obtain ⟨taken, htakes⟩ := View.takes?_of_inverse? hmn v
  have hreaches := h.branch hl htakes
  cases taken with
  | true =>
    obtain ⟨w, hback, hw⟩ := ht u v hu hs hv (htaken u v hp htakes)
    exact ⟨w, hreaches.givesBack hback, hw⟩
  | false =>
    obtain ⟨w, hback, hw⟩ := hb u v hu hs hv (hskipped u v hp htakes)
    exact ⟨w, hreaches.givesBack hback, hw⟩

/-- A jump within the code. -/
theorem Ends.jump {l : LabelId} (ht : M.Ends code k P t)
    (h : code.Installed a [.instr .jmp (.absolute (.ofLabel l))] b) (hl : code.At l t) :
    M.Ends code k P a := by
  intro u v hu hs hv hp
  obtain ⟨w, hback, hw⟩ := ht u v hu hs hv hp
  exact ⟨w, (h.jump hl).givesBack hback, hw⟩

/-- A jump to a routine in place of a call and a return. -/
theorem Ends.tail {l : LabelId} (h : code.Installed a [.instr .jmp (.absolute (.ofLabel l))] b)
    (hfits : M.Fits code) (hl : code.At l t) (hN : N.Starts code t) (hallows : M.Allows 0 N)
    (hstarts : ∀ u v, P u v → N.starts v)
    (hends : ∀ u v w, P u v → N.Keeps 0 v w → N.ends v w → M.ends u w) : M.Ends code 0 P a := by
  intro u v hu hs hv hp
  obtain ⟨w, hback, hw, hend⟩ := hN v v (hv.intact hfits hu) (hstarts u v hp) (.refl N v) rfl
  exact ⟨w, (h.jumpTo hl.of_label).givesBack hback, hv.trans hw hallows, hends u v w hp hw hend⟩

/-- A call of a routine. -/
theorem Ends.call {l : LabelId} (hb : M.Ends code k Q b)
    (h : code.Installed a [.instr .jsr (.absolute (.ofLabel l))] b) (hfits : M.Fits code)
    (hl : code.At l t) (hN : N.Starts code t) (hallows : M.Allows (k + 2) N)
    (hdepth : N.depth ≤ 254) (hstarts : ∀ u v, P u v → N.starts (v.call b))
    (hends : ∀ u v w, P u v → N.Keeps 0 (v.call b) w → N.ends (v.call b) w → Q u w.drop.drop) :
    M.Ends code k P a := by
  refine hb.after fun u v hu hs hv hp => ?_
  have hroom := hallows.depth
  have hcalled := hv.call (by omega) b
  obtain ⟨w, hback, hw, hend⟩ :=
    hN _ _ (hcalled.intact hfits hu) (hstarts u v hp) (.refl N (v.call b)) rfl
  obtain ⟨op, -, hcontains, hsize, -⟩ := h.instr rfl
  have hbelow := hcontains.bounds.2.1
  simp only [List.length_cons] at hsize hbelow
  have hret : w.returnAddress = b := returnAddress_call hw (by omega) (by omega) (by omega)
  exact ⟨_, 0, h.callBack hl.of_label hback hret, ((hcalled.trans hw hallows).drop).drop,
    hends u v w hp hw hend⟩

/-- A call of the trap that prints a character. -/
theorem Ends.print {address : UInt16} (hb : M.Ends code k Q b)
    (h : code.Installed a [.instr .jsr (.absolute (.fixed address))] b) (hk : k + 2 ≤ M.depth)
    (htrap : ∀ u, M.starts u → u.chrout = address ∧ address ≠ 0 ∧ address ≠ Cpu.returnTrap)
    (hends : ∀ u v, P u v → Q u (v.call b).print.drop.drop) : M.Ends code k P a := by
  refine hb.after fun u v _ hs hv hp => ?_
  obtain ⟨htrapped, hzero, hend⟩ := htrap u hs
  have hchrout : (v.call b).chrout = address := hv.chrout.trans htrapped
  obtain ⟨op, -, hcontains, hsize, -⟩ := h.instr rfl
  have hbelow := hcontains.bounds.2.1
  simp only [List.length_cons] at hsize hbelow
  have hret : (v.call b).returnAddress = b :=
    returnAddress_call (.refl { depth := 0, slots := [] } _) (by simp) (by omega) (by omega)
  have hback : code.GivesBack address.toNat (v.call b) (v.call b).print := by
    rw [← hchrout]
    exact LinkedCode.givesBack_chrout (by rwa [hchrout]) (by rwa [hchrout])
  have hprinted : M.Keeps (k + 2) u (v.call b).print := { hv.call hk b with }
  exact ⟨_, 0, h.callBack rfl hback hret, (hprinted.drop).drop, hends u v hp⟩

/-- A jump to the trap that prints a character. -/
theorem Ends.printTail {address : UInt16}
    (h : code.Installed a [.instr .jmp (.absolute (.fixed address))] b)
    (htrap : ∀ u, M.starts u → u.chrout = address ∧ address ≠ 0 ∧ address ≠ Cpu.returnTrap)
    (hends : ∀ u v, P u v → M.ends u v.print) : M.Ends code 0 P a := by
  intro u v _ hs hv hp
  obtain ⟨htrapped, hzero, hend⟩ := htrap u hs
  have hchrout : v.chrout = address := hv.chrout.trans htrapped
  refine ⟨v.print, (h.jumpTo rfl).givesBack (w := v.print) ?_, { hv with }, hends u v hp⟩
  change code.GivesBack address.toNat v v.print
  rw [← hchrout]
  exact LinkedCode.givesBack_chrout (by rwa [hchrout]) (by rwa [hchrout])

end Conduct

end Breadbin.Machine

/-! ## Traps stay where they are -/

namespace Breadbin.Machine

open Assembly

theorem Cpu.execute_traps (c : Cpu) (op : Opcode) (pos : UInt16) :
    (c.execute op pos).1.chrout = c.chrout ∧ (c.execute op pos).1.plot = c.plot := by
  obtain ⟨code, mn, mode, cycles⟩ := op
  have hmodify (g : UInt8 → UInt8 → UInt8 × UInt8) :
      (c.modify mode pos g).chrout = c.chrout ∧ (c.modify mode pos g).plot = c.plot := by
    unfold Cpu.modify
    split <;> exact ⟨rfl, rfl⟩
  have hbranch (taken : Bool) : (c.branch taken pos).chrout = c.chrout ∧
      (c.branch taken pos).plot = c.plot := by
    cases taken <;> exact ⟨rfl, rfl⟩
  cases mn
  case inc | dec | asl | lsr | rol | ror =>
    simp only [Cpu.execute]
    exact hmodify _
  case bcc | bcs | beq | bne | bmi | bpl | bvc | bvs => exact hbranch _
  all_goals exact ⟨rfl, rfl⟩

theorem Cpu.step_traps (c : Cpu) : c.step.1.chrout = c.chrout ∧ c.step.1.plot = c.plot := by
  unfold Cpu.step
  split
  · exact ⟨rfl, rfl⟩
  split
  · unfold Cpu.cursorTrap
    split <;> exact ⟨rfl, rfl⟩
  · dsimp only
    split
    · exact ⟨rfl, rfl⟩
    · exact Cpu.execute_traps _ _ _

theorem Cpu.Goes.traps {n : Nat} {c d : Cpu} (h : Goes n c d) :
    d.chrout = c.chrout ∧ d.plot = c.plot := by
  induction n generalizing c with
  | zero =>
    obtain rfl : d = c := h
    exact ⟨rfl, rfl⟩
  | succ n ih =>
    obtain ⟨-, e, hstep, hrest⟩ := h
    have hone := c.step_traps
    rw [hstep] at hone
    exact ⟨(ih hrest).1.trans hone.1, (ih hrest).2.trans hone.2⟩

/-! ## Processors for views -/

/-- Memory with the bytes that a function gives. -/
def memoryOf (f : UInt16 → UInt8) : Memory := ⟨Vector.ofFn fun i => f (UInt16.ofNat i)⟩

theorem read_memoryOf (f : UInt16 → UInt8) (a : UInt16) : (memoryOf f).read a = f a := by
  simp [memoryOf, Memory.read]

/-- The byte of a view at an address. -/
def View.byteAt (v : View) (a : UInt16) : UInt8 :=
  if a.toNat < 0x100 then v.zp a.toUInt8
  else if a.toNat < mainBase then v.stack a.toUInt8
  else v.main a

/-- The processor that a view shows, at an address. -/
def View.processor (v : View) (pc : UInt16) : Cpu where
  a := v.a
  x := v.x
  y := v.y
  sp := v.sp
  p := withFlag (withFlag (withFlag (withFlag 0 .carry v.carry) .zero v.zero) .negative v.negative)
    .overflow v.overflow
  pc := pc
  row := v.row
  column := v.column
  chrout := v.chrout
  plot := v.plot
  memory := memoryOf v.byteAt
  output := v.output

theorem View.processor_shows (v : View) (pc : UInt16) : (v.processor pc).Shows v where
  a := rfl
  x := rfl
  y := rfl
  sp := rfl
  carry := by simp [processor, Cpu.flag, hasFlag_withFlag]
  zero := by simp [processor, Cpu.flag, hasFlag_withFlag]
  negative := by simp [processor, Cpu.flag, hasFlag_withFlag]
  overflow := by simp [processor, Cpu.flag, hasFlag_withFlag]
  zp i := by
    have := i.toNat_lt
    show (memoryOf v.byteAt).read _ = _
    rw [read_memoryOf, byteAt, if_pos (by simpa using this)]
    simp
  stack i := by
    have := i.toNat_lt
    show (memoryOf v.byteAt).read _ = _
    rw [read_memoryOf, byteAt, Cpu.toNat_stackSlot, if_neg (by omega),
      if_pos (by rw [mainBase]; omega)]
    congr 1
    apply UInt8.toNat_inj.1
    rw [UInt16.toNat_toUInt8, Cpu.toNat_stackSlot]
    omega
  main a ha := by
    have hbase : mainBase = 0x200 := rfl
    show (memoryOf v.byteAt).read _ = _
    rw [read_memoryOf, byteAt, if_neg (by omega), if_neg (by omega)]
  chrout := rfl
  plot := rfl
  output := rfl
  row := rfl
  column := rfl

namespace LinkedCode

variable {code : LinkedCode} {a b k : Nat} {v w : View}

/-- Code leaves the traps alone. -/
theorem Reaches.traps (h : code.Reaches k a v b w) (hintact : code.Intact v) (ha : a < 0x10000) :
    w.chrout = v.chrout ∧ w.plot = v.plot := by
  have hshows := v.processor_shows (UInt16.ofNat a)
  obtain ⟨n, -, d, hgoes, hd⟩ := h _ ⟨hshows, by
    show (UInt16.ofNat a).toNat = a
    rw [UInt16.toNat_ofNat', Nat.mod_eq_of_lt ha], hintact⟩
  obtain ⟨hchrout, hplot⟩ := hgoes.traps
  exact ⟨hd.shows.chrout.symm.trans (hchrout.trans hshows.chrout),
    hd.shows.plot.symm.trans (hplot.trans hshows.plot)⟩

/-- Code that has been gone through is still there. -/
theorem Reaches.intact (h : code.Reaches k a v b w) (hintact : code.Intact v) (ha : a < 0x10000) :
    code.Intact w := by
  obtain ⟨n, -, d, -, hd⟩ := h _ ⟨v.processor_shows (UInt16.ofNat a), by
    show (UInt16.ofNat a).toNat = a
    rw [UInt16.toNat_ofNat', Nat.mod_eq_of_lt ha], hintact⟩
  exact hd.intact

/-- Code lies within memory. -/
theorem Installed.lt {ls : List Line} (h : code.Installed a ls b) : a < 0x10000 := by
  obtain ⟨pre, mid, post, hplacements, -, rfl, -⟩ := h
  have hbelow := code.below
  rw [hplacements, Placement.size_append, Placement.size_append] at hbelow
  omega

theorem Returns.givesBack (h : code.Returns a v w) : code.GivesBack a v w := by
  obtain ⟨r, e, hreaches, hrts⟩ := h
  exact hreaches.givesBack hrts.givesBack

end LinkedCode

/-- A routine that returns and stores into known slots keeps to a conduct that asks no more. -/
theorem Conduct.Starts.of_returns {M : Conduct} {code : LinkedCode} {a d : Nat} {zs : List UInt8}
    {p : View → View → Prop}
    (h : ∀ v, ∃ w, code.Returns a v w ∧ v.Frame d zs w ∧ p v w) (ha : a < 0x10000)
    (hdepth : d ≤ M.depth)
    (hslots : zs ⊆ M.slots) (hx : M.keepsX = false) (hy : M.keepsY = false)
    (hends : ∀ v w, p v w → M.ends v w) :
    M.Starts code a := by
  rintro u v hintact - - rfl
  obtain ⟨w, hreturns, hframe, hend⟩ := h u
  obtain ⟨hchrout, hplot⟩ : w.chrout = u.chrout ∧ w.plot = u.plot := by
    obtain ⟨b, e, hreaches, -⟩ := hreturns
    exact hreaches.traps hintact ha
  have hframe := hframe.mono hdepth hslots
  refine ⟨w, hreturns.givesBack,
    ⟨by simpa using hframe.sp, hframe.zp, fun _ _ => by rw [hframe.main], hframe.stack, ?_, ?_,
    hchrout, hplot⟩, hends u w hend⟩
  · simp [hx]
  · simp [hy]

end Breadbin.Machine
