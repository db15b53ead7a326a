import Breadbin.Proofs.Assembly.Settling
import Breadbin.Proofs.Instruction.Encoding

/-!
# Filling in operands

When the layout has settled, each fixup writes the bytes of one spot.  `Layout.patchAll_encodes`
says that the code then consists of an encoding of each line, one after the other.
-/

namespace Breadbin.Assembly

open Spot

/-- The addresses that a layout gives to the labels. -/
def Layout.addresses (l : Layout) : Addresses := fun label => l.origin + l.offset label

/-- A line with the bytes that stand for it. -/
structure Placement where
  line : Line
  bytes : List UInt8
  deriving DecidableEq, Repr

namespace Placement

/-- The number of bytes of some placements. -/
def size (ps : List Placement) : Nat := (ps.flatMap Placement.bytes).length

@[simp] theorem size_nil : size [] = 0 := rfl

@[simp] theorem size_cons (p : Placement) (ps : List Placement) :
    size (p :: ps) = p.bytes.length + size ps := by
  simp [size]

@[simp] theorem size_append (ps qs : List Placement) : size (ps ++ qs) = size ps + size qs := by
  simp [size]

/-- The padding in front of the next byte that is none. -/
def gap : List Placement → Nat
  | [] => 0
  | p :: ps => if p.line.isSolid then 0 else p.bytes.length + gap ps

/-- The lines are encoded one after the other from `a` on, and each label has the address of what
follows it. -/
def Assembled (env : Addresses) : Nat → List Placement → Prop
  | _, [] => True
  | a, p :: ps =>
    p.line.Encodes env a p.bytes ∧ (∀ l, p.line = .bound l → env l = a + gap ps) ∧
      Assembled env (a + p.bytes.length) ps

theorem Assembled.split {env : Addresses} {a : Nat} {pre post : List Placement} {p : Placement}
    (h : Assembled env a (pre ++ p :: post)) :
    p.line.Encodes env (a + size pre) p.bytes ∧
      ∀ l, p.line = .bound l → env l = a + size pre + gap post := by
  induction pre generalizing a with
  | nil => exact ⟨h.1, h.2.1⟩
  | cons q pre ih =>
    have := ih h.2.2
    simpa [Nat.add_assoc] using this

end Placement

/-! ## Branches -/

/-- The operand byte of a branch that reaches leads to its target. -/
theorem branchTarget_displacement {a target : Nat} {d : Int} (hd : Opcode.branchFits d = true)
    (ht : target < 0x10000) (hsum : (target : Int) = a + 2 + d) :
    (Opcode.branchTarget (UInt16.ofNat a) (UInt8.ofNat (d % 256).toNat)).toNat = target := by
  simp only [Opcode.branchFits, Bool.and_eq_true, decide_eq_true_eq] at hd
  have hbyte : (UInt8.ofNat (d % 256).toNat).toNat = (d % 256).toNat := by
    rw [UInt8.toNat_ofNat']
    omega
  have hlt : UInt8.ofNat (d % 256).toNat < 0x80 ↔ 0 ≤ d := by
    rw [UInt8.lt_iff_toNat_lt, hbyte, show (0x80 : UInt8).toNat = 128 from rfl]
    omega
  simp only [Opcode.branchTarget]
  split
  next h =>
    have := hlt.1 h
    simp only [UInt16.toNat_add, UInt16.toNat_ofNat', UInt8.toNat_toUInt16, hbyte]
    simp
    omega
  next h =>
    have : ¬0 ≤ d := fun h' => h (hlt.2 h')
    simp only [UInt16.toNat_add, UInt16.toNat_ofNat', UInt8.toNat_toUInt16, hbyte]
    simp
    omega

/-! ## One fixup -/

/-- The bytes that a fixup writes for a target. -/
def FixupKind.bytes (kind : FixupKind) (target : Nat) (d : Int) : List UInt8 :=
  match kind with
  | .relative => [UInt8.ofNat (d % 256).toNat]
  | .absolute | .address => wordBytes target
  | .addressLow => [UInt8.ofNat (target % 256)]
  | .addressHigh => [UInt8.ofNat (target / 256)]

/-- The bytes that stand where a fixup will write. -/
def FixupKind.zeros : FixupKind → List UInt8
  | .absolute | .address => [0, 0]
  | .relative | .addressLow | .addressHigh => [0]

/-- A fixup replaces the zeros at its site. -/
theorem Layout.patch_bytes {l l' : Layout} {f : Fixup} {xs ys : List UInt8}
    (hcode : l.code.toList = xs ++ f.kind.zeros ++ ys) (hsite : f.site = xs.length)
    (h : l.patch f = .ok l') :
    l.addresses f.label + f.addend.toNat < 0x10000 ∧
      (f.kind = .relative → Opcode.branchFits (l.displacement f) = true) ∧
      l'.code.toList =
        xs ++ f.kind.bytes (l.addresses f.label + f.addend.toNat) (l.displacement f) ++ ys ∧
      l' = { l with code := l'.code } := by
  simp only [patch] at h
  split at h
  · cases h
  next htarget =>
    refine ⟨by simpa [addresses] using htarget, ?_⟩
    cases hk : f.kind with
    | relative =>
      simp only [hk] at h hcode
      split at h
      next hfits =>
        obtain rfl := Except.ok.inj h
        exact ⟨fun _ => hfits, by simp [hcode, hsite, FixupKind.bytes, FixupKind.zeros], rfl⟩
      next => cases h
    | absolute | address | addressLow | addressHigh =>
      simp only [hk] at h hcode
      obtain rfl := Except.ok.inj h
      refine ⟨by simp, ?_, rfl⟩
      simp [hcode, hsite, FixupKind.bytes, FixupKind.zeros, wordBytes, addresses]

theorem bytes_wholeKind (mn : Mnemonic) (target : Nat) (d : Int) :
    (wholeKind mn).bytes target d = wordBytes target := by
  simp only [wholeKind]
  split <;> rfl

theorem zeros_wholeKind (mn : Mnemonic) : (wholeKind mn).zeros = [0, 0] := by
  simp only [wholeKind]
  split <;> rfl

theorem wholeKind_ne_relative (mn : Mnemonic) : wholeKind mn ≠ .relative := by
  simp only [wholeKind]
  split <;> simp

theorem Addresses.of_label (env : Addresses) {r : AddressRef} (h : r.isLabel = true) :
    env.of r = env r.label + r.address.toNat := by
  simp [Addresses.of, h]

/-- A spot with a fixup ends in the zeros of its operand, and filling them in encodes the line. -/
theorem encodes_fixup {s : Spot} {offset : Nat} {f : Fixup} (valid : s.line.IsValid)
    (h : s.fixup? offset = some f) :
    ∃ head, s.raw = head ++ f.kind.zeros ∧ f.site = offset + head.length ∧
      ∀ (env : Addresses) (a : Nat) (d : Int), env f.label + f.addend.toNat < 0x10000 →
        (f.kind = .relative → Opcode.branchFits d = true ∧
          (env f.label + f.addend.toNat : Int) = a + 2 + d) →
        s.line.Encodes env a (head ++ f.kind.bytes (env f.label + f.addend.toNat) d) := by
  obtain ⟨line, grown⟩ := s
  cases line with
  | instr mn arg =>
    obtain ⟨code, hcode, hraw⟩ := raw_instr valid
    cases arg with
    | absolute r | absoluteX r | absoluteY r | indirect r =>
      simp only [fixup?, argFixup?] at h
      split at h
      next hr =>
        obtain rfl := Option.some.inj h
        refine ⟨[code], by simp [Spot.raw, hraw, Arg.raw, hr, zeros_wholeKind], rfl,
          fun env a d hlt _ => ?_⟩
        dsimp only at hlt ⊢
        rw [← env.of_label hr] at hlt
        rw [bytes_wholeKind, ← env.of_label hr]
        exact .instr hcode rfl (by rintro _ ⟨⟩; exact hlt)
      next => cases h
    | lowByte r | highByte r =>
      simp only [fixup?, argFixup?] at h
      split at h
      next hr =>
        obtain rfl := Option.some.inj h
        refine ⟨[code], by simp [Spot.raw, hraw, Arg.raw, hr, FixupKind.zeros], rfl,
          fun env a d hlt _ => ?_⟩
        dsimp only at hlt ⊢
        rw [← env.of_label hr] at hlt ⊢
        exact .instr hcode rfl (by rintro _ ⟨⟩; exact hlt)
      next => cases h
    | relative l =>
      simp only [fixup?, argFixup?] at h
      split at h
      · cases h
      next hsome =>
        have hsome : l.isSome = true := by simpa using hsome
        split at h
        next hgrown =>
          obtain rfl := Option.some.inj h
          refine ⟨[code], by simp [Spot.raw, isLong, hgrown, hraw, Arg.raw, FixupKind.zeros], rfl,
            fun env a d hlt hd => .short hcode hsome ?_⟩
          obtain ⟨hfits, hsum⟩ := hd rfl
          exact branchTarget_displacement hfits (by simpa using hlt) (by simpa using hsum)
        next hgrown =>
          obtain rfl := Option.some.inj h
          obtain ⟨inv, opposite, hinv, hopposite, hcodes⟩ := Opcode.inverse?_of_encode? hcode
          have hinverse : inverse mn = opposite := by
            have hcode : Opcode.encode? mn .relative = some code := hcode
            rw [inverse, hcode, Option.bind_some, hcodes, Option.getD_some]
          refine ⟨[opposite, 3, 0x4C], ?_, rfl, fun env a d hlt _ => ?_⟩
          · simp [Spot.raw, isLong, hsome, hgrown, hinverse, FixupKind.zeros]
          · exact .long hinv hopposite hsome (by simpa using hlt)
    | implied | accumulator | immediate _ | zeroPage _ | zeroPageX _ | indirectY _ =>
      simp [fixup?, argFixup?] at h
  | word r =>
    simp only [fixup?] at h
    split at h
    next hr =>
      obtain rfl := Option.some.inj h
      refine ⟨[], by simp [Spot.raw, Line.raw, hr, FixupKind.zeros], rfl, fun env a d hlt _ => ?_⟩
      dsimp only at hlt ⊢
      rw [← env.of_label hr] at hlt ⊢
      exact .word hlt
    next => cases h
  | data _ | bound _ | align _ => simp [fixup?] at h

/-- A spot without a fixup is encoded already. -/
theorem encodes_raw {env : Addresses} {a offset : Nat} {s : Spot} (valid : s.line.IsValid)
    (aligned : ∀ n, s.line = .align n → (a + s.size) % n = 0 ∧ s.size < n)
    (h : s.fixup? offset = none) : s.line.Encodes env a s.raw := by
  obtain ⟨line, grown⟩ := s
  cases line with
  | instr mn arg =>
    obtain ⟨code, hcode, hraw⟩ := raw_instr valid
    have hfixed : ∀ r, arg.ref? = some r → r.isLabel = false := by
      intro r hr
      cases arg <;> cases hr <;> simpa [fixup?, argFixup?] using h
    have hshort : arg.branch? = none := by
      cases arg with
      | relative l =>
        cases hsome : l.isSome with
        | false => simp [Arg.branch?, hsome]
        | true =>
          simp only [fixup?, argFixup?, hsome, Bool.not_true, Bool.false_eq_true, if_false] at h
          split at h <;> cases h
      | _ => rfl
    have hbytes : Spot.raw ⟨.instr mn arg, grown⟩ = code :: arg.bytes env := by
      cases arg <;> simp_all [Spot.raw, Arg.raw, Arg.bytes, Addresses.of, Arg.ref?,
        isLong, Arg.branch?]
    rw [hbytes]
    refine .instr hcode hshort fun r hr => ?_
    have := r.address.toNat_lt
    simpa [Addresses.of, hfixed r hr] using this
  | data bs => exact .data bs
  | word r =>
    have hr : r.isLabel = false := by simpa [fixup?] using h
    have := r.address.toNat_lt
    have hof : env.of r = r.address.toNat := by simp [Addresses.of, hr]
    have hraw : Spot.raw ⟨.word r, grown⟩ = wordBytes (env.of r) := by
      simp [Spot.raw, Line.raw, hr, hof]
    rw [hraw]
    exact .word (by omega)
  | bound l => exact .bound l
  | align n =>
    obtain ⟨hmod, hlt⟩ := aligned n rfl
    rw [size_align] at hmod hlt
    exact .align hmod hlt

/-- Placements for spots have the padding of the spots. -/
theorem gap_eq_lead {ps : List Placement} {ss : List Spot}
    (hlines : ps.map Placement.line = ss.map Spot.line)
    (hsizes : ps.map (fun p => p.bytes.length) = ss.map Spot.size) :
    Placement.gap ps = lead ss := by
  induction ps generalizing ss with
  | nil =>
    cases ss with
    | nil => rfl
    | cons s ss => simp at hlines
  | cons p ps ih =>
    cases ss with
    | nil => simp at hlines
    | cons s ss =>
      simp only [List.map_cons, List.cons.injEq] at hlines hsizes
      cases hs : s.line.isSolid <;>
        simp [Placement.gap, lead, Spot.isSolid, hs, hlines.1, hsizes.1, ih hlines.2 hsizes.2]

/-- Filling in the fixup of a spot, if it has one, encodes the spot. -/
theorem Layout.patch_spot {s : Spot} {done rest : List UInt8} {l l' : Layout}
    (valid : s.line.IsValid) (hcode : l.code.toList = done ++ s.raw ++ rest)
    (aligned : ∀ n, s.line = .align n → (l.origin + done.length + s.size) % n = 0 ∧ s.size < n)
    (h : (s.fixup? done.length).toList.foldlM patch l = .ok l') :
    ∃ bs, s.line.Encodes l.addresses (l.origin + done.length) bs ∧ bs.length = s.size ∧
      l'.code.toList = done ++ bs ++ rest ∧ l' = { l with code := l'.code } := by
  cases hf : s.fixup? done.length with
  | none =>
    rw [hf] at h
    obtain rfl := Except.ok.inj h
    exact ⟨s.raw, encodes_raw valid aligned hf, rfl, hcode, rfl⟩
  | some f =>
    have h : l.patch f = .ok l' := by simpa [hf] using h
    obtain ⟨head, hraw, hsite, hencodes⟩ := encodes_fixup valid hf
    rw [hraw, ← List.append_assoc] at hcode
    obtain ⟨hlt, hfits, hcode', hrest⟩ := patch_bytes hcode (by simpa using hsite) h
    refine ⟨_, hencodes _ _ (l.displacement f) hlt fun hk => ⟨hfits hk, ?_⟩, ?_, ?_, hrest⟩
    · obtain ⟨mn, label, -, -, rfl⟩ := fixup?_relative hf hk
      simp only [displacement, addresses]
      simp
      omega
    · cases hk : f.kind <;> simp [size, hraw, hk, FixupKind.bytes, FixupKind.zeros, wordBytes]
    · simpa using hcode'

/-- Filling in the fixups of the spots encodes them one after the other. -/
theorem Layout.foldlM_patch_assembled (done rest : List UInt8) {ss : List Spot} {l l' : Layout}
    (valid : ∀ s ∈ ss, s.line.IsValid) (hcode : l.code.toList = done ++ ss.flatMap Spot.raw ++ rest)
    (aligned : Aligned l.origin done.length ss)
    (labels : ∀ us b vs, ss = us ++ b :: vs → ∀ label, b.line = .bound label →
      l.addresses label = l.origin + (done.length + extent us + lead vs))
    (h : (gather fixup? done.length ss).foldlM patch l = .ok l') :
    ∃ ps : List Placement, ps.map Placement.line = ss.map Spot.line ∧
      ps.map (fun p => p.bytes.length) = ss.map Spot.size ∧
      l'.code.toList = done ++ ps.flatMap Placement.bytes ++ rest ∧
        l' = { l with code := l'.code } ∧
      Placement.Assembled l.addresses (l.origin + done.length) ps := by
  induction ss generalizing done l with
  | nil =>
    obtain rfl := Except.ok.inj h
    exact ⟨[], rfl, rfl, hcode, rfl, trivial⟩
  | cons s ss ih =>
    rw [gather, List.foldlM_append] at h
    cases hs : (s.fixup? done.length).toList.foldlM patch l with
    | error e => simp [hs, bind, Except.bind] at h
    | ok l₁ =>
      simp only [hs, bind, Except.bind] at h
      obtain ⟨hplace, haligned⟩ := aligned
      obtain ⟨bs, hencodes, hlen, hcode₁, hrest⟩ :=
        patch_spot (valid s (by simp)) (by simpa using hcode) hplace hs
      have hdone : (done ++ bs).length = done.length + s.size := by simp [hlen]
      have horigin : l₁.origin = l.origin := by rw [hrest]
      have haddresses : l₁.addresses = l.addresses := by rw [hrest]; rfl
      obtain ⟨ps, hlines, hsizes, hcode', hrest', hassembled⟩ :=
        ih (done ++ bs) (l := l₁) (fun t ht => valid t (by simp [ht])) (by simpa using hcode₁)
          (by rw [horigin, hdone]; exact haligned)
          (by
            intro us b vs e label hb
            rw [haddresses, labels (s :: us) b vs (by simp [e]) label hb, horigin,
              hdone, extent_cons]
            omega)
          (by rw [hdone]; exact h)
      refine ⟨⟨s.line, bs⟩ :: ps, by simp [hlines], by simp [hlen, hsizes], by simp [hcode'],
        by rw [hrest', hrest], hencodes, ?_, ?_⟩
      · intro label hb
        rw [labels [] s ss rfl label hb, gap_eq_lead hlines hsizes]
        simp
        omega
      · rw [haddresses, horigin, List.length_append, ← Nat.add_assoc] at hassembled
        exact hassembled

end Breadbin.Assembly
