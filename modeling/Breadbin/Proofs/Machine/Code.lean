import Breadbin.Proofs.Assembly.Growth
import Breadbin.Proofs.Machine.View

/-!
# Running linked code

`LinkedCode` is a linked listing in memory.  `LinkedCode.Reaches` says that the processor goes from
one address and view to another one; there is a rule for each kind of line, so that what a listing
does is told without opcodes and trampolines.  A branch that had to be linked as a branch around a
jump has the rule of a branch.
-/

namespace Breadbin.Machine

open Assembly

/-- A listing linked for a place behind the stack page.  The address where calls end is no part of
it.
-/
structure LinkedCode where
  env : Addresses
  origin : Nat
  placements : List Placement
  assembled : Placement.Assembled env origin placements
  /-- each label is that of the line behind it -/
  labels : ∀ pre p post, placements = pre ++ p :: post → ∀ l, p.line = .bound l →
    l.isSome = true ∧ env l = origin + Placement.size pre
  above : mainBase ≤ origin
  below : origin + Placement.size placements ≤ 0xFFFF

namespace LinkedCode

/-- The bytes of the code. -/
def bytes (code : LinkedCode) : List UInt8 := code.placements.flatMap Placement.bytes

/-- The addresses of the code. -/
def Covers (code : LinkedCode) (a : Nat) : Prop :=
  code.origin ≤ a ∧ a < code.origin + Placement.size code.placements

/-- The code is in memory, and no trap is. -/
structure Intact (code : LinkedCode) (v : View) : Prop where
  bytes : ∀ i n, code.bytes[i]? = some n → v.main (UInt16.ofNat (code.origin + i)) = n
  chrout : ¬code.Covers v.chrout.toNat
  plot : ¬code.Covers v.plot.toNat

/-- The processor stands at an address with a view, and the code is in memory. -/
structure Holds (code : LinkedCode) (c : Cpu) (a : Nat) (v : View) : Prop where
  shows : c.Shows v
  pc : c.pc.toNat = a
  intact : code.Intact v

/-- The lines lie in the code from `a` up to `b`. -/
def Installed (code : LinkedCode) (a : Nat) (ls : List Line) (b : Nat) : Prop :=
  ∃ pre mid post, code.placements = pre ++ mid ++ post ∧ mid.map Placement.line = ls ∧
    a = code.origin + Placement.size pre ∧ b = a + Placement.size mid

/-- A label with its address. -/
def At (code : LinkedCode) (l : LabelId) (a : Nat) : Prop := l.isSome = true ∧ code.env l = a

/-- The bytes lie in the code from `a` on. -/
def Contains (code : LinkedCode) (a : Nat) (bytes : List UInt8) : Prop :=
  ∃ pre post, code.bytes = pre ++ bytes ++ post ∧ a = code.origin + pre.length

variable {code : LinkedCode} {a b : Nat} {v v' : View} {c : Cpu}

/-! ## Lines -/

theorem Installed.nil (h : code.Installed a [] b) : b = a := by
  obtain ⟨pre, mid, post, -, hmid, -, rfl⟩ := h
  obtain rfl : mid = [] := by simpa using hmid
  simp

theorem Installed.split (ls : List Line) {ms : List Line} (h : code.Installed a (ls ++ ms) b) :
    ∃ m, code.Installed a ls m ∧ code.Installed m ms b := by
  obtain ⟨pre, mid, post, hps, hmid, ha, rfl⟩ := h
  obtain ⟨first, last, rfl, rfl, rfl⟩ := List.map_eq_append_iff.1 hmid
  refine ⟨a + Placement.size first, ⟨pre, first, last ++ post, ?_, rfl, ha, rfl⟩,
    ⟨pre ++ first, last, post, ?_, rfl, ?_, ?_⟩⟩
  · simp [hps]
  · simp [hps]
  · simp [ha, Nat.add_assoc]
  · simp [Nat.add_assoc]

theorem Installed.cons {line : Line} {ls : List Line} (h : code.Installed a (line :: ls) b) :
    ∃ m, code.Installed a [line] m ∧ code.Installed m ls b :=
  h.split [line]

theorem Installed.line {line : Line} (h : code.Installed a [line] b) :
    ∃ bytes, line.Encodes code.env a bytes ∧ code.Contains a bytes ∧ b = a + bytes.length := by
  obtain ⟨pre, mid, post, hps, hmid, rfl, rfl⟩ := h
  obtain ⟨p, rest, rfl, rfl, hrest⟩ := List.map_eq_cons_iff.1 hmid
  obtain rfl : rest = [] := by simpa using hrest
  have hps : code.placements = pre ++ p :: post := by simpa using hps
  have hassembled := code.assembled
  rw [hps] at hassembled
  refine ⟨p.bytes, hassembled.split.1,
    ⟨pre.flatMap Placement.bytes, post.flatMap Placement.bytes, ?_, rfl⟩, by simp⟩
  simp [bytes, hps]

theorem Installed.bound {l : LabelId} (h : code.Installed a [.bound l] b) :
    code.At l a ∧ b = a := by
  obtain ⟨bytes, hencodes, -, rfl⟩ := h.line
  obtain ⟨pre, mid, post, hps, hmid, rfl, -⟩ := h
  obtain ⟨p, rest, rfl, hline, hrest⟩ := List.map_eq_cons_iff.1 hmid
  cases hencodes
  exact ⟨code.labels pre p (rest ++ post) (by simpa using hps) l hline, rfl⟩

theorem Installed.label {l : LabelId} {ls : List Line} (h : code.Installed a (.bound l :: ls) b) :
    code.At l a ∧ code.Installed a ls b := by
  obtain ⟨m, hbound, hls⟩ := h.cons
  obtain ⟨hl, rfl⟩ := hbound.bound
  exact ⟨hl, hls⟩

/-- A linked stream as code. -/
theorem exists_of_link {s : Stream} {ls : List Line} {origin : UInt16} {image : Image}
    (hgrows : Stream.Grows {} s ls) (hlink : s.link origin = .ok image)
    (above : mainBase ≤ origin.toNat) (below : origin.toNat + image.bytes.size ≤ 0xFFFF) :
    ∃ code : LinkedCode, code.origin = origin.toNat ∧ code.bytes = image.bytes.toList ∧
      code.Installed code.origin ls (code.origin + Placement.size code.placements) ∧
      ∃ L, s.Shows L ∧ L.lines = ls ∧ L.Linked image code.env code.placements := by
  obtain ⟨L, shows, rfl⟩ := hgrows.shows (Stream.link_eq hlink).1
  obtain ⟨env, ps, hlinked, rfl, -, hlabels⟩ := shows.link_unaligned hgrows.not_align hlink
  have hsize : Placement.size ps = image.bytes.size := by
    rw [Placement.size, ← hlinked.bytes, Array.length_toList]
  have hbound : ∀ pre p post, ps = pre ++ p :: post → ∀ l, p.line = .bound l →
      l.isSome = true ∧ env l = image.origin.toNat + Placement.size pre := by
    intro pre p post hps l hl
    refine ⟨(shows.bound (pre.map Placement.line) l (post.map Placement.line) ?_).1,
      hlabels pre p post l hps hl⟩
    rw [← hlinked.lines, hps, ← hl]
    simp
  exact ⟨⟨env, _, ps, hlinked.assembled, hbound, above, by rwa [hsize]⟩, rfl, hlinked.bytes.symm,
    ⟨[], ps, [], by simp, hlinked.lines, by simp, rfl⟩, L, shows, rfl, hlinked⟩

/-! ## Bytes -/

theorem length_bytes (code : LinkedCode) : code.bytes.length = Placement.size code.placements := rfl

theorem Contains.bounds {bytes : List UInt8} (h : code.Contains a bytes) :
    code.origin ≤ a ∧ a + bytes.length ≤ 0xFFFF ∧
      a + bytes.length ≤ code.origin + Placement.size code.placements := by
  obtain ⟨pre, post, hbytes, rfl⟩ := h
  have hlength := congrArg List.length hbytes
  rw [length_bytes] at hlength
  have := code.below
  simp only [List.length_append] at hlength
  omega

theorem toNat_pc_add (h : code.Holds c a v) {bytes : List UInt8} (hbytes : code.Contains a bytes)
    {i : Nat} (hi : i ≤ bytes.length) : (c.pc + UInt16.ofNat i).toNat = a + i := by
  obtain ⟨-, hbelow, -⟩ := hbytes.bounds
  rw [UInt16.toNat_add, h.pc, UInt16.toNat_ofNat']
  omega

/-- The processor reads the bytes of the code. -/
theorem Holds.read (h : code.Holds c a v) {bytes : List UInt8} (hbytes : code.Contains a bytes)
    {i : Nat} {n : UInt8} (hi : bytes[i]? = some n) : c.read (c.pc + UInt16.ofNat i) = n := by
  have hlt : i < bytes.length := (List.getElem?_eq_some_iff.1 hi).1
  have haddress := toNat_pc_add h hbytes (Nat.le_of_lt hlt)
  obtain ⟨habove, hbelow, -⟩ := hbytes.bounds
  have := code.above
  rw [h.shows.main _ (by omega)]
  obtain ⟨pre, post, hcode, rfl⟩ := hbytes
  have hn : code.bytes[pre.length + i]? = some n := by
    rw [hcode, List.append_assoc, List.getElem?_append_right (by omega), Nat.add_sub_cancel_left,
      List.getElem?_append_left hlt, hi]
  rw [← h.intact.bytes _ n hn]
  congr 1
  apply UInt16.toNat_inj.1
  rw [haddress, UInt16.toNat_ofNat']
  omega

theorem Contains.covers {bytes : List UInt8} (h : code.Contains a bytes) (hne : bytes ≠ []) :
    code.Covers a := by
  have := List.length_pos_iff.2 hne
  obtain ⟨habove, -, hwithin⟩ := h.bounds
  exact ⟨habove, by omega⟩

/-! ## Steps -/

/-- The processor behind an instruction, before it is executed. -/
def behind (c : Cpu) (op : Opcode) : Cpu :=
  { c with
    pc := c.pc + UInt16.ofNat op.mode.size
    steps := c.steps + 1
    cycles := c.cycles + op.cycles }

theorem Holds.behind_shows (h : code.Holds c a v) (op : Opcode) : (behind c op).Shows v :=
  { h.shows with }

/-- The code holds no trap, so the processor executes what it reads. -/
theorem Holds.step (h : code.Holds c a v) (hcovers : code.Covers a) {op : Opcode}
    (hop : Opcode.decode? (c.read c.pc) = some op) : c.step = (behind c op).execute op c.pc := by
  have hchrout : ¬(c.chrout ≠ 0 ∧ c.pc = c.chrout) := by
    rintro ⟨-, hpc⟩
    refine h.intact.chrout ?_
    rwa [← h.shows.chrout, ← hpc, h.pc]
  have hplot : ¬(c.plot ≠ 0 ∧ c.pc = c.plot) := by
    rintro ⟨-, hpc⟩
    refine h.intact.plot ?_
    rwa [← h.shows.plot, ← hpc, h.pc]
  simp only [Cpu.step, if_neg hchrout, if_neg hplot, hop]
  rfl

theorem Holds.pc_ne_returnTrap (h : code.Holds c a v) (hcovers : code.Covers a) :
    c.pc ≠ Cpu.returnTrap := by
  intro hpc
  have := congrArg UInt16.toNat hpc
  rw [h.pc] at this
  have hbelow := code.below
  have := hcovers.2
  have : Cpu.returnTrap.toNat = 0xFFFF := rfl
  omega

end LinkedCode

/-- The processor makes so many steps without a fault and before the call returns. -/
def Cpu.Goes : Nat → Cpu → Cpu → Prop
  | 0, c, c' => c' = c
  | n + 1, c, c' => c.pc ≠ returnTrap ∧ ∃ d, c.step = (d, none) ∧ Goes n d c'

theorem Cpu.Goes.trans {m n : Nat} {c d e : Cpu} (h : Goes m c d) (h' : Goes n d e) :
    Goes (m + n) c e := by
  induction m generalizing c with
  | zero =>
    obtain rfl : d = c := h
    rwa [Nat.zero_add]
  | succ m ih =>
    obtain ⟨hpc, c', hstep, hrest⟩ := h
    rw [Nat.add_right_comm]
    exact ⟨hpc, c', hstep, ih hrest⟩

theorem Cpu.Goes.one {c d : Cpu} (hpc : c.pc ≠ returnTrap) (hstep : c.step = (d, none)) :
    Goes 1 c d :=
  ⟨hpc, d, hstep, rfl⟩

/-- A run goes on behind the steps it has made. -/
theorem Cpu.Goes.runUntilReturn {n : Nat} {c d : Cpu} (h : Goes n c d) (limit budget : Nat) :
    Cpu.runUntilReturn limit (n + budget) c = Cpu.runUntilReturn limit budget d := by
  induction n generalizing c with
  | zero =>
    obtain rfl : d = c := h
    rw [Nat.zero_add]
  | succ n ih =>
    obtain ⟨hpc, c', hstep, hrest⟩ := h
    rw [Nat.add_right_comm, Cpu.runUntilReturn, if_neg hpc, hstep]
    exact ih hrest

/-- A run without a limit is unfolded by one step. -/
theorem Cpu.runFreely_eq (c : Cpu) : Cpu.runFreely c =
    match advance c with
    | .inl d => Cpu.runFreely d
    | .inr ended => ended := by
  rw [Cpu.runFreely, repeatM_eq_of_monadTail]
  cases h : advance c <;> simp only [repeatM.body, h] <;> rfl

theorem Cpu.Goes.runFreely {n : Nat} {c d : Cpu} (h : Goes n c d) :
    Cpu.runFreely c = Cpu.runFreely d := by
  induction n generalizing c with
  | zero =>
    obtain rfl : d = c := h
    rfl
  | succ n ih =>
    obtain ⟨hpc, c', hstep, hrest⟩ := h
    rw [Cpu.runFreely_eq, advance, if_neg hpc, hstep]
    exact ih hrest

namespace LinkedCode

variable {code : LinkedCode} {a b : Nat} {v v' : View}

/-- From `a` and `v` the processor comes to `b` and `v'`, in at least `k` steps. -/
def Reaches (code : LinkedCode) (k a : Nat) (v : View) (b : Nat) (v' : View) : Prop :=
  ∀ c, code.Holds c a v → ∃ n, k ≤ n ∧ ∃ c', c.Goes n c' ∧ code.Holds c' b v'

theorem Reaches.refl (code : LinkedCode) (a : Nat) (v : View) : code.Reaches 0 a v a v :=
  fun c h => ⟨0, Nat.le_refl 0, c, rfl, h⟩

theorem Reaches.trans {k l m : Nat} {w : View} (h : code.Reaches k a v b v')
    (h' : code.Reaches l b v' m w) : code.Reaches (k + l) a v m w := by
  intro c hc
  obtain ⟨n, hn, d, hgoes, hd⟩ := h c hc
  obtain ⟨n', hn', e, hgoes', he⟩ := h' d hd
  exact ⟨n + n', Nat.add_le_add hn hn', e, hgoes.trans hgoes', he⟩

theorem Reaches.mono {k l : Nat} (h : code.Reaches k a v b v') (hle : l ≤ k) :
    code.Reaches l a v b v' := by
  intro c hc
  obtain ⟨n, hn, hrest⟩ := h c hc
  exact ⟨n, Nat.le_trans hle hn, hrest⟩

theorem Reaches.andThen {k l m : Nat} {w : View} (h : code.Reaches k a v b v')
    (h' : code.Reaches l b v' m w) : code.Reaches 0 a v m w :=
  (h.trans h').mono (Nat.zero_le _)

/-- One step that the processor makes for an instruction at `a`. -/
theorem reaches_of_step {bytes : List UInt8} (hbytes : code.Contains a bytes) (hne : bytes ≠ [])
    (h : ∀ c, code.Holds c a v → ∃ c', c.step = (c', none) ∧ code.Holds c' b v') :
    code.Reaches 1 a v b v' := by
  intro c hc
  obtain ⟨c', hstep, hc'⟩ := h c hc
  exact ⟨1, Nat.le_refl 1, c', .one (hc.pc_ne_returnTrap (hbytes.covers hne)) hstep, hc'⟩

/-! ## Instructions -/

theorem toNat_wordOf (lo hi : UInt8) : (Cpu.wordOf lo hi).toNat = lo.toNat + 256 * hi.toNat := by
  have := lo.toNat_lt
  have := hi.toNat_lt
  simp [Cpu.wordOf]
  omega

theorem toNat_wordOf_wordBytes {n : Nat} (h : n < 0x10000) :
    (Cpu.wordOf (UInt8.ofNat (n % 256)) (UInt8.ofNat (n / 256))).toNat = n := by
  rw [toNat_wordOf, UInt8.toNat_ofNat', UInt8.toNat_ofNat']
  omega

/-- The opcode and the operand of an instruction that is no branch. -/
theorem Installed.instr {mn : Mnemonic} {arg : Arg} (h : code.Installed a [.instr mn arg] b)
    (hbranch : arg.branch? = none) :
    ∃ op, Opcode.encode? mn arg.mode = some op ∧ code.Contains a (op :: arg.bytes code.env) ∧
      b = a + (op :: arg.bytes code.env).length ∧
      ∀ r, arg.ref? = some r → code.env.of r < 0x10000 := by
  obtain ⟨bytes, hencodes, hcontains, rfl⟩ := h.line
  cases hencodes with
  | instr known fixed fits => exact ⟨_, known, hcontains, rfl, fits⟩
  | short known isSome lands => simp [Arg.branch?, isSome] at hbranch
  | long inverts known isSome fits => simp [Arg.branch?, isSome] at hbranch

theorem length_arg_bytes (env : Addresses) (arg : Arg) :
    (arg.bytes env).length = arg.mode.operandSize := by
  cases arg <;> rfl

/-- The processor at an instruction that is no branch executes it. -/
theorem Holds.execute {c : Cpu} {mn : Mnemonic} {arg : Arg} {op : UInt8} (h : code.Holds c a v)
    (known : Opcode.encode? mn arg.mode = some op)
    (hcontains : code.Contains a (op :: arg.bytes code.env)) :
    ∃ cycles d, c.step = Cpu.execute d ⟨op, mn, arg.mode, cycles⟩ c.pc ∧ d.Shows v ∧
      d.pc.toNat = a + (op :: arg.bytes code.env).length ∧
      ∀ i n, (op :: arg.bytes code.env)[i]? = some n → d.read (c.pc + UInt16.ofNat i) = n := by
  obtain ⟨cycles, hdecode⟩ := Opcode.decode?_of_encode? known
  have hread : c.read c.pc = op := by
    have := h.read hcontains (i := 0) rfl
    simpa using this
  rw [← hread] at hdecode
  have hsize : arg.mode.size = (op :: arg.bytes code.env).length := by
    simp [Mode.size, length_arg_bytes, Nat.add_comm]
  refine ⟨cycles, behind c ⟨op, mn, arg.mode, cycles⟩, ?_, { h.shows with }, ?_,
    fun i n hi => h.read hcontains hi⟩
  · rw [h.step (hcontains.covers (by simp)) hdecode, hread]
  · rw [behind, hsize]
    exact toNat_pc_add h hcontains (Nat.le_refl _)

/-- The operand of an instruction is fetched from the code. -/
theorem fetches {c : Cpu} {pos : UInt16} {arg : Arg} {op : UInt8}
    (hread : ∀ i n, (op :: arg.bytes code.env)[i]? = some n → c.read (pos + UInt16.ofNat i) = n) :
    Cpu.Shows.Fetches c pos arg := by
  cases arg with
  | immediate n | zeroPage n => exact hread 1 n rfl
  | absolute r =>
    intro hr
    have hlo : c.read (pos + 1) = UInt8.ofNat (r.address.toNat % 256) := by
      simpa [Arg.bytes, wordBytes, Addresses.of, hr] using hread 1 _ rfl
    have hhi : c.read (pos + 2) = UInt8.ofNat (r.address.toNat / 256) := by
      simpa [Arg.bytes, wordBytes, Addresses.of, hr] using hread 2 _ rfl
    rw [hlo, hhi]
    exact UInt16.toNat_inj.1 (toNat_wordOf_wordBytes r.address.toNat_lt)
  | _ => trivial

theorem Intact.of_main (h : code.Intact v) (hmain : v'.main = v.main)
    (hchrout : v'.chrout = v.chrout) (hplot : v'.plot = v.plot) : code.Intact v' :=
  ⟨by rw [hmain]; exact h.bytes, by rw [hchrout]; exact h.chrout, by rw [hplot]; exact h.plot⟩

/-- An instruction that goes on with the next one. -/
theorem Installed.exec {mn : Mnemonic} {arg : Arg} (h : code.Installed a [.instr mn arg] b)
    (hexec : v.exec mn arg = some v') : code.Reaches 1 a v b v' := by
  obtain ⟨bytes, hencodes, hcontains, rfl⟩ := h.line
  cases hencodes with
  | short known isSome lands =>
    obtain ⟨inverse, -, hinverse, -⟩ := Opcode.inverse?_of_encode? known
    rw [View.exec_of_inverse? hinverse] at hexec
    cases hexec
  | long inverts known isSome fits =>
    rw [View.exec_of_inverse? inverts] at hexec
    cases hexec
  | @instr mn arg op known fixed fits =>
    refine reaches_of_step hcontains (by simp) fun c hc => ?_
    obtain ⟨cycles, d, hstep, hd, hpc, hread⟩ := hc.execute known hcontains
    obtain ⟨c', hc', hshows, hpc'⟩ :=
      hd.execute ⟨op, mn, arg.mode, cycles⟩ rfl (fetches hread) hexec
    obtain ⟨hmain, hchrout, hplot⟩ := View.exec_main hexec
    exact ⟨c', by rw [hstep, hc'], hshows, by rw [hpc', hpc], hc.intact.of_main hmain hchrout hplot⟩

/-- A store behind the stack page that does not hit the code. -/
theorem Installed.store {mn : Mnemonic} {address : UInt16} {n : UInt8}
    (h : code.Installed a [.instr mn (.absolute (.fixed address))] b)
    (hmn : mn = .sta ∧ n = v.a ∨ mn = .stx ∧ n = v.x) (hmain : mainBase ≤ address.toNat)
    (hfree : ¬code.Covers address.toNat) : code.Reaches 1 a v b (v.poke address n) := by
  obtain ⟨op, known, hcontains, rfl, -⟩ := h.instr rfl
  refine reaches_of_step hcontains (by simp) fun c hc => ?_
  obtain ⟨cycles, d, hstep, hd, hpc, hread⟩ := hc.execute known hcontains
  have haddress : d.effectiveAddress .absolute c.pc = address := fetches hread rfl
  have hshows := hd.poke hmain n
  have hexecute : d.execute ⟨op, mn, .absolute, cycles⟩ c.pc = (d.write address n, none) := by
    rcases hmn with ⟨rfl, rfl⟩ | ⟨rfl, rfl⟩
    · simp only [Cpu.execute, haddress, hd.a]
    · simp only [Cpu.execute, haddress, hd.x]
  refine ⟨_, hstep.trans hexecute, hshows, hpc, ?_, hc.intact.chrout, hc.intact.plot⟩
  intro i m hi
  rw [← hc.intact.bytes i m hi]
  refine Function.update_of_ne (fun heq => hfree ?_) _ _
  have hlt : i < code.bytes.length := (List.getElem?_eq_some_iff.1 hi).1
  rw [length_bytes] at hlt
  have := code.below
  rw [← heq, UInt16.toNat_ofNat', Nat.mod_eq_of_lt (by omega)]
  exact ⟨by omega, by omega⟩

/-! ## Branches and jumps -/

theorem Contains.left (xs : List UInt8) {ys : List UInt8} (h : code.Contains a (xs ++ ys)) :
    code.Contains a xs := by
  obtain ⟨pre, post, hbytes, ha⟩ := h
  exact ⟨pre, ys ++ post, by simp [hbytes], ha⟩

theorem Contains.right (xs : List UInt8) {ys : List UInt8} (h : code.Contains a (xs ++ ys)) :
    code.Contains (a + xs.length) ys := by
  obtain ⟨pre, post, hbytes, rfl⟩ := h
  exact ⟨pre ++ xs, post, by simp [hbytes], by simp [Nat.add_assoc]⟩

theorem execute_branch {c : Cpu} (h : c.Shows v) {mn : Mnemonic} {taken : Bool}
    (htaken : v.takes? mn = some taken) (op : UInt8) (mode : Mode) (cycles : Nat) (pos : UInt16) :
    c.execute ⟨op, mn, mode, cycles⟩ pos = (c.branch taken pos, none) := by
  cases mn <;> simp only [View.takes?, Option.some.injEq, reduceCtorEq] at htaken <;>
    subst htaken <;>
    simp only [Cpu.execute, h.carry, h.zero, h.negative, h.overflow]

/-- The branch instruction itself. -/
theorem Contains.branch {mn : Mnemonic} {op d : UInt8} {taken : Bool}
    (h : code.Contains a [op, d]) (known : Opcode.encode? mn .relative = some op)
    (htaken : v.takes? mn = some taken) :
    code.Reaches 1 a v
      (if taken then (Opcode.branchTarget (UInt16.ofNat a) d).toNat else a + 2) v := by
  refine reaches_of_step h (by simp) fun c hc => ?_
  obtain ⟨cycles, hdecode⟩ := Opcode.decode?_of_encode? known
  have hop : c.read c.pc = op := by simpa using hc.read h (i := 0) rfl
  have hd : c.read (c.pc + 1) = d := hc.read h (i := 1) rfl
  have hpc : c.pc = UInt16.ofNat a := by rw [← hc.pc, UInt16.ofNat_toNat]
  rw [← hop] at hdecode
  refine ⟨_, (hc.step (h.covers (by simp)) hdecode).trans
    (execute_branch (hc.behind_shows _) htaken _ _ _ _), ?_⟩
  cases taken with
  | true =>
    refine ⟨{ hc.shows with }, ?_, hc.intact⟩
    change (Opcode.branchTarget c.pc (c.read (c.pc + 1))).toNat = _
    rw [hd, hpc]
    rfl
  | false => exact ⟨{ hc.shows with }, toNat_pc_add hc h (Nat.le_refl 2), hc.intact⟩

/-- The jump instruction itself. -/
theorem Contains.jump {target : Nat} (h : code.Contains a (0x4C :: wordBytes target))
    (ht : target < 0x10000) : code.Reaches 1 a v target v := by
  refine reaches_of_step h (by simp) fun c hc => ?_
  have known : Opcode.encode? .jmp .absolute = some 0x4C := by decide
  obtain ⟨cycles, hdecode⟩ := Opcode.decode?_of_encode? known
  have hop : c.read c.pc = 0x4C := by simpa using hc.read h (i := 0) rfl
  have hlo : c.read (c.pc + 1) = UInt8.ofNat (target % 256) := hc.read h (i := 1) rfl
  have hhi : c.read (c.pc + 2) = UInt8.ofNat (target / 256) := hc.read h (i := 2) rfl
  rw [← hop] at hdecode
  refine ⟨_, hc.step (h.covers (by simp)) hdecode, { hc.shows with }, ?_, hc.intact⟩
  change (Cpu.wordOf (c.read (c.pc + 1)) (c.read (c.pc + 2))).toNat = target
  rw [hlo, hhi, toNat_wordOf_wordBytes ht]

theorem takes?_of_inverse? {mn inverse : Mnemonic} (h : mn.inverse? = some inverse) {taken : Bool}
    (htaken : v.takes? mn = some taken) : v.takes? inverse = some !taken := by
  cases mn <;> cases h <;> simp_all [View.takes?]

/-- A conditional branch, however it was linked. -/
theorem Installed.branch {mn : Mnemonic} {l : LabelId} {target : Nat} {taken : Bool}
    (h : code.Installed a [.instr mn (.relative l)] b) (hl : code.At l target)
    (htaken : v.takes? mn = some taken) : code.Reaches 1 a v (if taken then target else b) v := by
  obtain ⟨hsome, rfl⟩ := hl
  obtain ⟨bytes, hencodes, hcontains, rfl⟩ := h.line
  cases hencodes with
  | instr known fixed fits => simp [Arg.branch?, hsome] at fixed
  | short known isSome lands =>
    have := hcontains.branch known htaken
    rwa [lands] at this
  | @long _ inverse _ op inverts known isSome fits =>
    have hbranch := (hcontains.left [op, 3]).branch known (takes?_of_inverse? inverts htaken)
    have hjump := (hcontains.right [op, 3]).jump (v := v) fits
    cases taken with
    | true => exact (hbranch.trans hjump).mono (by decide)
    | false =>
      have hland : (Opcode.branchTarget (UInt16.ofNat a) 3).toNat = a + 5 := by
        have hbelow := hcontains.bounds.2.1
        simp only [List.length_append, List.length_cons, List.length_nil, wordBytes] at hbelow
        simp [Opcode.branchTarget]
        omega
      simpa [hland, wordBytes] using hbranch

theorem Installed.branch_taken {mn : Mnemonic} {l : LabelId} {target : Nat}
    (h : code.Installed a [.instr mn (.relative l)] b) (hl : code.At l target)
    (htaken : v.takes? mn = some true) : code.Reaches 1 a v target v :=
  h.branch hl htaken

theorem Installed.branch_skipped {mn : Mnemonic} {l : LabelId} {target : Nat}
    (h : code.Installed a [.instr mn (.relative l)] b) (hl : code.At l target)
    (htaken : v.takes? mn = some false) : code.Reaches 1 a v b v :=
  h.branch hl htaken

/-- A jump to a label. -/
theorem Installed.jump {l : LabelId} {target : Nat}
    (h : code.Installed a [.instr .jmp (.absolute (.ofLabel l))] b) (hl : code.At l target) :
    code.Reaches 1 a v target v := by
  obtain ⟨hsome, rfl⟩ := hl
  obtain ⟨op, known, hcontains, -, hfits⟩ := h.instr rfl
  obtain rfl : op = 0x4C := by
    have : Opcode.encode? .jmp .absolute = some 0x4C := by decide
    exact Option.some.inj (known.symm.trans this)
  have henv : code.env.of (.ofLabel l) = code.env l := by
    simp [Addresses.of, AddressRef.isLabel, AddressRef.ofLabel, hsome]
  have hlt := hfits _ rfl
  rw [henv] at hlt
  refine Contains.jump ?_ hlt
  rwa [Arg.bytes, henv] at hcontains

/-! ## Calls -/

theorem Contains.call {target : Nat} (h : code.Contains a (0x20 :: wordBytes target))
    (ht : target < 0x10000) : code.Reaches 1 a v target (v.call (a + 3)) := by
  refine reaches_of_step h (by simp) fun c hc => ?_
  have known : Opcode.encode? .jsr .absolute = some 0x20 := by decide
  obtain ⟨cycles, hdecode⟩ := Opcode.decode?_of_encode? known
  have hop : c.read c.pc = 0x20 := by simpa using hc.read h (i := 0) rfl
  rw [← hop] at hdecode
  -- the pushes leave the code alone, so the target is still read from it
  let d := (behind c ⟨c.read c.pc, .jsr, .absolute, cycles⟩).pushAddress (c.pc + 2)
  have hword : [(c.pc + 2).toUInt8, ((c.pc + 2) >>> 8).toUInt8] = wordBytes (a + 2) := by
    rw [← wordBytes_toNat]
    exact congrArg wordBytes (toNat_pc_add hc h (i := 2) (by simp [wordBytes]))
  simp only [wordBytes, List.cons.injEq, and_true] at hword
  have hshows : d.Shows (v.call (a + 3)) := by
    rw [View.call, show a + 3 - 1 = a + 2 from rfl, ← hword.1, ← hword.2]
    exact ((hc.behind_shows _).push _).push _
  have hd : code.Holds { d with pc := c.pc } a (v.call (a + 3)) :=
    ⟨{ hshows with }, hc.pc, hc.intact.of_main rfl rfl rfl⟩
  have hlo : d.read (c.pc + 1) = UInt8.ofNat (target % 256) := hd.read h (i := 1) rfl
  have hhi : d.read (c.pc + 2) = UInt8.ofNat (target / 256) := hd.read h (i := 2) rfl
  refine ⟨_, hc.step (h.covers (by simp)) hdecode, { hshows with }, ?_, hd.intact⟩
  change (Cpu.wordOf (d.read (c.pc + 1)) (d.read (c.pc + 2))).toNat = target
  rw [hlo, hhi, toNat_wordOf_wordBytes ht]

/-- A call of a label. -/
theorem Installed.call {l : LabelId} {target : Nat}
    (h : code.Installed a [.instr .jsr (.absolute (.ofLabel l))] b) (hl : code.At l target) :
    code.Reaches 1 a v target (v.call b) := by
  obtain ⟨hsome, rfl⟩ := hl
  obtain ⟨op, known, hcontains, rfl, hfits⟩ := h.instr rfl
  obtain rfl : op = 0x20 := by
    have : Opcode.encode? .jsr .absolute = some 0x20 := by decide
    exact Option.some.inj (known.symm.trans this)
  have henv : code.env.of (.ofLabel l) = code.env l := by
    simp [Addresses.of, AddressRef.isLabel, AddressRef.ofLabel, hsome]
  have hlt := hfits _ rfl
  rw [henv] at hlt
  refine Contains.call ?_ hlt
  rwa [Arg.bytes, henv] at hcontains

/-- A return to the address on the stack. -/
theorem Installed.giveBack (h : code.Installed a [.instr .rts .implied] b)
    (hret : v.returnAddress < 0x10000) : code.Reaches 1 a v v.returnAddress v.drop.drop := by
  obtain ⟨op, known, hcontains, rfl, -⟩ := h.instr rfl
  refine reaches_of_step hcontains (by simp) fun c hc => ?_
  obtain ⟨cycles, d, hstep, hd, -, -⟩ := hc.execute known hcontains
  obtain ⟨hlow, hlo⟩ := hd.pull
  obtain ⟨hhigh, hhi⟩ := hlow.pull
  refine ⟨_, hstep, { hhigh with }, ?_, hc.intact.of_main rfl rfl rfl⟩
  change (d.pull.2.toUInt16 + d.pull.1.pull.2.toUInt16 * 256 + 1).toNat = v.returnAddress
  rw [hlo, hhi]
  rw [View.returnAddress] at hret ⊢
  simp
  omega

/-! ## Sequences -/

/-- Executes lines in order as long as each goes on with the next one. -/
def execAll (v : View) : List Line → Option View
  | [] => some v
  | .instr mn arg :: ls => (v.exec mn arg).bind fun w => execAll w ls
  | _ :: _ => none

theorem execAll_append (v : View) (ls ms : List Line) :
    execAll v (ls ++ ms) = (execAll v ls).bind fun w => execAll w ms := by
  induction ls generalizing v with
  | nil => rfl
  | cons line ls ih =>
    cases line with
    | instr mn arg =>
      show (v.exec mn arg).bind (fun w => execAll w (ls ++ ms)) =
        ((v.exec mn arg).bind fun w => execAll w ls).bind _
      rw [Option.bind_assoc]
      exact congrArg _ (funext ih)
    | _ => rfl

/-- Some lines after others. -/
theorem execAll_trans {u v w : View} {ls ms : List Line} (h : execAll u ls = some v)
    (h' : execAll v ms = some w) :
    execAll u (ls ++ ms) = some w := by
  rw [execAll_append, h]
  exact h'

/-- Instructions one after the other. -/
theorem Installed.run {ls : List Line} (h : code.Installed a ls b)
    (hexec : execAll v ls = some v') :
    code.Reaches 0 a v b v' := by
  induction ls generalizing a v with
  | nil =>
    obtain rfl := h.nil
    obtain rfl := Option.some.inj hexec
    exact .refl _ _ _
  | cons line ls ih =>
    obtain ⟨m, hline, hrest⟩ := h.cons
    cases line with
    | instr mn arg =>
      obtain ⟨w, hw, hexec⟩ := Option.bind_eq_some_iff.1 hexec
      exact (hline.exec hw).andThen (ih hrest hexec)
    | _ => cases hexec

/-- The processor goes on for at least `k` steps. -/
def Persists (code : LinkedCode) (k a : Nat) (v : View) : Prop :=
  ∀ c, code.Holds c a v → ∃ n, k ≤ n ∧ ∃ c', c.Goes n c'

theorem Reaches.persists {k l : Nat} (h : code.Reaches k a v b v') (h' : code.Persists l b v') :
    code.Persists (k + l) a v := by
  intro c hc
  obtain ⟨n, hn, d, hgoes, hd⟩ := h c hc
  obtain ⟨n', hn', e, hgoes'⟩ := h' d hd
  exact ⟨n + n', Nat.add_le_add hn hn', e, hgoes.trans hgoes'⟩

theorem Persists.mono {k l : Nat} (h : code.Persists k a v) (hle : l ≤ k) :
    code.Persists l a v := by
  intro c hc
  obtain ⟨n, hn, hrest⟩ := h c hc
  exact ⟨n, Nat.le_trans hle hn, hrest⟩

theorem Persists.zero (code : LinkedCode) (a : Nat) (v : View) : code.Persists 0 a v :=
  fun c _ => ⟨0, Nat.le_refl 0, c, rfl⟩

end LinkedCode

/-! ## Calls from outside -/

/-- The return address that a call from outside pushes leads to where such calls end. -/
def callEnd : Nat := 0xFFFF

/-- A run that makes more steps than it may reaches its limit. -/
theorem Cpu.Goes.stepLimit {n : Nat} {c d : Cpu} (h : Goes n c d) {budget : Nat} (hlt : budget < n)
    (limit : Nat) : ∃ pc, (Cpu.runUntilReturn limit budget c).2 = some (.stepLimit limit pc) := by
  induction budget generalizing c n with
  | zero =>
    cases n with
    | zero => omega
    | succ n => exact ⟨c.pc, by rw [Cpu.runUntilReturn, if_neg h.1]⟩
  | succ budget ih =>
    cases n with
    | zero => omega
    | succ n =>
      obtain ⟨hpc, c', hstep, hrest⟩ := h
      rw [Cpu.runUntilReturn, if_neg hpc, hstep]
      exact ih hrest (by omega)

/-- The processor at the start of a call from outside. -/
def Cpu.entered (c : Cpu) (address : UInt16) : Cpu :=
  { c.pushAddress (returnTrap - 1) with pc := address }

theorem Cpu.call_eq (c : Cpu) (address : UInt16) (limit : Nat) :
    c.call address limit =
      if limit = 0 then runFreely (c.entered address)
        else runUntilReturn limit limit (c.entered address) := rfl

namespace LinkedCode

variable {code : LinkedCode} {a : Nat} {v w : View} {c : Cpu} {address : UInt16}

theorem entered_holds (hshows : c.Shows v) (hintact : code.Intact v) :
    code.Holds (c.entered address) address.toNat (v.call callEnd) := by
  have hpush := (hshows.push (UInt8.ofNat ((callEnd - 1) / 256))).push
    (UInt8.ofNat ((callEnd - 1) % 256))
  exact ⟨{ hpush with }, rfl, hintact.of_main rfl rfl rfl⟩

/-- Code that reaches the end of the call returns if there is no limit or it is large enough. -/
theorem Reaches.call_eq {k : Nat} (hshows : c.Shows v) (hintact : code.Intact v)
    (h : code.Reaches k address.toNat (v.call callEnd) callEnd w) :
    ∃ n c', c'.Shows w ∧ ∀ limit, limit = 0 ∨ n < limit → c.call address limit = (c', none) := by
  obtain ⟨n, -, c', hgoes, hc'⟩ := h _ (entered_holds hshows hintact)
  refine ⟨n, c', hc'.shows, fun limit hlimit => ?_⟩
  have hpc : c'.pc = Cpu.returnTrap := UInt16.toNat_inj.1 hc'.pc
  rw [Cpu.call_eq]
  split
  next => rw [hgoes.runFreely, Cpu.runFreely_eq, Cpu.advance, if_pos hpc]
  next hne =>
    have hlt : n < limit := hlimit.resolve_left hne
    obtain ⟨budget, hbudget⟩ := Nat.exists_eq_add_of_lt hlt
    rw [show Cpu.runUntilReturn limit limit =
      Cpu.runUntilReturn limit (n + (budget + 1)) by
        rw [hbudget, Nat.add_assoc], hgoes.runUntilReturn, Cpu.runUntilReturn, if_pos hpc]

/-- Code that goes on for ever never returns. -/
theorem call_stepLimit (hshows : c.Shows v) (hintact : code.Intact v)
    (h : ∀ k, code.Persists k address.toNat (v.call callEnd)) {limit : Nat} (hlimit : limit ≠ 0) :
    ∃ pc, (c.call address limit).2 = some (.stepLimit limit pc) := by
  rw [Cpu.call_eq, if_neg hlimit]
  obtain ⟨n, hn, d, hgoes⟩ := h (limit + 1) _ (entered_holds hshows hintact)
  exact hgoes.stepLimit hn limit

end LinkedCode

end Breadbin.Machine
