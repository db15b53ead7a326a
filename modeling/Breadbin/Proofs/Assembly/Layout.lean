import Breadbin.Proofs.Assembly.Listing

/-!
# Layouts

The linker changes the layout of a list of lines, one line at a time.
-/

/-!
## Lines while they are laid out

A spot is a line together with the bytes the linker has added to it: three for a branch that was
replaced by a jump, the zeros of an alignment.  A layout shows a list of spots when its code, its
fixups, its marks and the offsets of its labels are those of the spots, one after the other.
Widening a branch or padding a mark changes the layout to the one of the list with that spot
changed; these two facts carry everything the linker does.
-/

namespace Breadbin.Assembly

/-- A line and how many bytes were added to it. -/
structure Spot where
  line : Line
  grown : Nat := 0
  deriving DecidableEq, Repr

namespace Spot

/-- The opcode that replaces the one of a branch when it is widened. -/
def inverse (mn : Mnemonic) : UInt8 :=
  ((Opcode.encode? mn .relative).bind Opcode.inverse?).getD 0

/-- Whether a spot is a widened branch. -/
def isLong (s : Spot) : Bool :=
  match s.line with
  | .instr _ (.relative l) => l.isSome && s.grown ≠ 0
  | _ => false

/-- The bytes of a spot before its operand is filled in. -/
def raw (s : Spot) : List UInt8 :=
  match s.line with
  | .instr mn (.relative _) => if s.isLong then [inverse mn, 3, 0x4C, 0, 0] else s.line.raw
  | .align _ => List.replicate s.grown 0
  | line => line.raw

/-- The number of bytes of a spot. -/
def size (s : Spot) : Nat := s.raw.length

/-- How the whole address of a label is filled in behind an instruction. -/
def wholeKind (mn : Mnemonic) : FixupKind :=
  if mn = .jmp ∨ mn = .jsr then .absolute else .address

/-- The fixup of an operand at `site`. -/
def argFixup? (mn : Mnemonic) (site grown : Nat) : Arg → Option Fixup
  | .absolute r | .absoluteX r | .absoluteY r | .indirect r =>
    if r.isLabel then some ⟨site, r.label, wholeKind mn, r.address⟩ else none
  | .lowByte r => if r.isLabel then some ⟨site, r.label, .addressLow, r.address⟩ else none
  | .highByte r => if r.isLabel then some ⟨site, r.label, .addressHigh, r.address⟩ else none
  | .relative l =>
    if !l.isSome then none
    else if grown = 0 then some ⟨site, l, .relative, 0⟩ else some ⟨site + 2, l, .absolute, 0⟩
  | _ => none

/-- The fixup of a spot at an offset. -/
def fixup? (offset : Nat) (s : Spot) : Option Fixup :=
  match s.line with
  | .instr mn arg => argFixup? mn (offset + 1) s.grown arg
  | .word r => if r.isLabel then some ⟨offset, r.label, .address, r.address⟩ else none
  | _ => none

/-- The mark of a spot at an offset. -/
def mark? (offset : Nat) (s : Spot) : Option AlignMark :=
  match s.line with
  | .align n => some ⟨offset, n, s.grown⟩
  | _ => none

/-- Whether a spot has bytes of its own, which are no padding. -/
def isSolid (s : Spot) : Bool := s.line.isSolid

theorem size_pos_of_isSolid {s : Spot} (h : s.isSolid = true) : 0 < s.size := by
  obtain ⟨line, grown⟩ := s
  have hraw : 0 < line.raw.length := by
    simpa [isSolid, Line.isSolid, List.length_pos_iff] using h
  cases line with
  | instr mn arg =>
    cases arg <;> simp only [size, raw] <;> (try split) <;> simp_all
  | data _ | word _ | bound _ | align _ => simp_all [size, raw, Line.raw]

/-- A spot for each line. -/
def ofLines (ls : List Line) : List Spot := ls.map fun l => ⟨l, 0⟩

/-- The number of bytes of some spots. -/
def extent (ss : List Spot) : Nat := (ss.flatMap raw).length

@[simp] theorem extent_nil : extent [] = 0 := rfl

@[simp] theorem extent_cons (s : Spot) (ss : List Spot) :
    extent (s :: ss) = s.size + extent ss := by
  simp [extent, size]

@[simp] theorem extent_append (xs ys : List Spot) : extent (xs ++ ys) = extent xs + extent ys := by
  simp [extent]

/-- What `f` finds along some spots, each at its offset. -/
def gather {β : Type} (f : Nat → Spot → Option β) : Nat → List Spot → List β
  | _, [] => []
  | offset, s :: ss => (f offset s).toList ++ gather f (offset + s.size) ss

theorem gather_append {β : Type} (f : Nat → Spot → Option β) (xs ys : List Spot) (offset : Nat) :
    gather f offset (xs ++ ys) = gather f offset xs ++ gather f (offset + extent xs) ys := by
  induction xs generalizing offset with
  | nil => simp [gather]
  | cons s xs ih => simp [gather, ih, Nat.add_assoc]

/-- The finding at an index belongs to one spot, and the findings before it to the spots before. -/
theorem gather_split {β : Type} {f : Nat → Spot → Option β} {ss : List Spot}
    {offset i : Nat} {b : β} (h : (gather f offset ss)[i]? = some b) :
    ∃ xs s ys, ss = xs ++ s :: ys ∧ (gather f offset xs).length = i ∧
      f (offset + extent xs) s = some b := by
  induction ss generalizing offset i with
  | nil => simp [gather] at h
  | cons s ss ih =>
    cases hs : f offset s with
    | none =>
      simp only [gather, hs, Option.toList_none, List.nil_append] at h
      obtain ⟨xs, t, ys, rfl, hlen, ht⟩ := ih h
      refine ⟨s :: xs, t, ys, rfl, ?_, ?_⟩
      · simp [gather, hs, hlen]
      · rw [extent_cons, ← Nat.add_assoc]
        exact ht
    | some c =>
      simp only [gather, hs, Option.toList_some, List.singleton_append] at h
      cases i with
      | zero =>
        refine ⟨[], s, ss, rfl, rfl, ?_⟩
        simpa [hs] using h
      | succ i =>
        obtain ⟨xs, t, ys, rfl, hlen, ht⟩ := ih (by simpa using h)
        refine ⟨s :: xs, t, ys, rfl, ?_, ?_⟩
        · simp [gather, hs, hlen]
        · rw [extent_cons, ← Nat.add_assoc]
          exact ht

/-- The padding in front of the next byte that is none. -/
def lead : List Spot → Nat
  | [] => 0
  | s :: ss => if s.isSolid then 0 else s.size + lead ss

theorem lead_append_solid {xs ys zs : List Spot} {s t : Spot} (hs : s.isSolid = true)
    (ht : t.isSolid = true) : lead (xs ++ s :: ys) = lead (xs ++ t :: zs) := by
  induction xs with
  | nil => simp [lead, hs, ht]
  | cons x xs ih => simp [lead, ih]

/-- Only padding stands between the end of `xs` and what leads into the rest. -/
theorem lead_append (xs ys : List Spot) :
    lead (xs ++ ys) = if xs.any isSolid then lead xs else extent xs + lead ys := by
  induction xs with
  | nil => simp
  | cons x xs ih =>
    by_cases hx : x.isSolid = true
    · simp [lead, hx]
    · simp only [Bool.not_eq_true] at hx
      simp only [List.cons_append, lead, hx, Bool.false_eq_true, if_false, ih, List.any_cons,
        Bool.false_or, extent_cons]
      split <;> omega

theorem lead_le_extent (ss : List Spot) : lead ss ≤ extent ss := by
  induction ss with
  | nil => simp [lead]
  | cons s ss ih =>
    simp only [lead, extent_cons]
    split <;> omega

theorem lead_lt_extent {ss : List Spot} (h : ss.any isSolid = true) : lead ss < extent ss := by
  induction ss with
  | nil => simp at h
  | cons s ss ih =>
    by_cases hs : s.isSolid = true
    · have hpos := size_pos_of_isSolid hs
      simp only [lead, hs, if_true, extent_cons]
      omega
    · have := ih (by simpa [hs] using h)
      simp only [lead, hs, extent_cons]
      simp
      omega

end Spot

/-- Where one element of a list changes, every other element stands before or behind it. -/
theorem split_around {α : Type} {xs ys us vs : List α} {s b : α}
    (h : xs ++ s :: ys = us ++ b :: vs) :
    (∃ ms, xs = us ++ b :: ms ∧ vs = ms ++ s :: ys) ∨ (xs = us ∧ s = b ∧ ys = vs) ∨
      ∃ ms, us = xs ++ s :: ms ∧ ys = ms ++ b :: vs := by
  rcases List.append_eq_append_iff.1 h with ⟨ms, rfl, hm⟩ | ⟨ms, rfl, hm⟩
  · cases ms with
    | nil =>
      obtain ⟨rfl, rfl⟩ := by simpa using hm
      exact .inr (.inl ⟨by simp, rfl, rfl⟩)
    | cons m ms =>
      obtain ⟨rfl, rfl⟩ := by simpa using hm
      exact .inr (.inr ⟨ms, rfl, rfl⟩)
  · cases ms with
    | nil =>
      obtain ⟨rfl, rfl⟩ := by simpa using hm
      exact .inr (.inl ⟨by simp, rfl, rfl⟩)
    | cons m ms =>
      obtain ⟨rfl, rfl⟩ := by simpa using hm
      exact .inl ⟨ms, rfl, rfl⟩

end Breadbin.Assembly

/-!
## Layouts of listings

`Layout.Lays l ss` says that the layout `l` is the one of the spots `ss`.  Widening a branch
(`expand_lays`) and padding a mark (`alignMark_lays`) lead from the layout of a list of spots to the
layout of the list with one spot changed.
-/

namespace Breadbin.Assembly

open Spot

/-- Whether a line can be written: its instruction exists in its mode, and an alignment is to more
than one byte. -/
def Line.IsValid : Line → Prop
  | .instr mn arg => (Opcode.encode? mn arg.mode).isSome = true
  | .align n => 1 < n
  | _ => True

/-- The layout is the one of the spots. -/
structure Layout.Lays (l : Layout) (ss : List Spot) : Prop where
  valid : ∀ s ∈ ss, s.line.IsValid
  code : l.code.toList = ss.flatMap Spot.raw
  fixups : l.fixups.toList = gather fixup? 0 ss
  marks : l.marks.toList = gather mark? 0 ss
  labels : ∀ us b vs, ss = us ++ b :: vs → ∀ label, b.line = .bound label →
    l.offsets[label.number.toNat - 1]? = some (extent us + lead vs)
  trampolines : l.trampolines = ss.countP isLong

/-- The layout is the one of the spots, but for the marks, which may stand elsewhere. -/
structure Layout.Spread (l : Layout) (ss : List Spot) : Prop where
  valid : ∀ s ∈ ss, s.line.IsValid
  code : l.code.toList = ss.flatMap Spot.raw
  fixups : l.fixups.toList = gather fixup? 0 ss
  labels : ∀ us b vs, ss = us ++ b :: vs → ∀ label, b.line = .bound label →
    l.offsets[label.number.toNat - 1]? = some (extent us + lead vs)
  trampolines : l.trampolines = ss.countP isLong

theorem Layout.Lays.spread {l : Layout} {ss : List Spot} (h : l.Lays ss) : l.Spread ss :=
  ⟨h.valid, h.code, h.fixups, h.labels, h.trampolines⟩

/-- Two layouts are at one origin and have equally many labels. -/
structure Layout.Kin (l l' : Layout) : Prop where
  origin : l'.origin = l.origin
  labels : l'.offsets.size = l.offsets.size

theorem Layout.Kin.refl (l : Layout) : l.Kin l := ⟨rfl, rfl⟩

theorem Layout.Kin.trans {l l' l'' : Layout} (h : l.Kin l') (h' : l'.Kin l'') : l.Kin l'' :=
  ⟨h'.origin.trans h.origin, h'.labels.trans h.labels⟩

theorem Layout.Spread.offset {l : Layout} {ss us vs : List Spot} {b : Spot} {label : LabelId}
    (h : l.Spread ss) (hs : ss = us ++ b :: vs) (hb : b.line = .bound label) :
    l.offset label = extent us + lead vs := by
  have := h.labels us b vs hs label hb
  simp [Layout.offset, Array.getD_eq_getD_getElem?, this]

theorem Layout.Lays.offset {l : Layout} {ss us vs : List Spot} {b : Spot} {label : LabelId}
    (h : l.Lays ss) (hs : ss = us ++ b :: vs) (hb : b.line = .bound label) :
    l.offset label = extent us + lead vs :=
  h.spread.offset hs hb

/-! ### Where fixups and marks lie -/

theorem length_argRaw (arg : Arg) : arg.raw.length = arg.mode.operandSize := by
  cases arg <;> simp only [Arg.raw, Arg.mode, Mode.operandSize] <;> (try split) <;> rfl

theorem raw_instr {mn : Mnemonic} {arg : Arg} (h : (Line.instr mn arg).IsValid) :
    ∃ code, Opcode.encode? mn arg.mode = some code ∧ (Line.instr mn arg).raw = code :: arg.raw := by
  obtain ⟨code, hc⟩ := Option.isSome_iff_exists.1 h
  exact ⟨code, hc, by simp [Line.raw, hc]⟩

/-- A fixup lies inside the bytes of its spot. -/
theorem site_bounds {s : Spot} {offset : Nat} {f : Fixup} (valid : s.line.IsValid)
    (h : s.fixup? offset = some f) : offset ≤ f.site ∧ f.site < offset + s.size := by
  obtain ⟨line, grown⟩ := s
  cases line with
  | instr mn arg =>
    obtain ⟨code, -, hraw⟩ := raw_instr valid
    cases arg <;> simp only [fixup?, argFixup?] at h <;>
      (try split at h) <;> simp_all [size, Spot.raw, isLong, Arg.raw, wordBytes]
    all_goals (try subst h; simp)
    split at h <;> simp_all
    all_goals subst h; simp <;> omega
  | word r =>
    simp only [fixup?] at h
    split at h <;> simp_all [size, Spot.raw, Line.raw]
    subst h; simp
  | data _ | bound _ | align _ => simp [fixup?] at h

/-- A fixup moves with its spot. -/
theorem fixup?_eq (s : Spot) (offset : Nat) :
    s.fixup? offset = (s.fixup? 0).map fun f => { f with site := f.site + offset } := by
  obtain ⟨line, grown⟩ := s
  cases line with
  | instr mn arg =>
    have e : offset + 1 = 0 + 1 + offset := by omega
    cases arg <;> simp only [fixup?, argFixup?, e] <;> (try split) <;> (try rfl)
    split
    · simp
    · simp
      omega
  | word r => simp only [fixup?]; split <;> simp
  | data _ | bound _ | align _ => rfl

/-- A mark stands where its spot begins. -/
theorem mark?_offset {s : Spot} {offset : Nat} {m : AlignMark} (h : s.mark? offset = some m) :
    ∃ n, s.line = .align n ∧ m = ⟨offset, n, s.grown⟩ := by
  obtain ⟨line, grown⟩ := s
  cases line with
  | align n => exact ⟨n, rfl, by simpa [mark?] using h.symm⟩
  | instr _ _ | data _ | word _ | bound _ => simp [mark?] at h

/-- A label has no bytes. -/
theorem size_bound {b : Spot} {label : LabelId} (h : b.line = .bound label) : b.size = 0 := by
  obtain ⟨line, grown⟩ := b
  subst h
  rfl

theorem isSolid_bound {b : Spot} {label : LabelId} (h : b.line = .bound label) :
    b.isSolid = false := by
  simp [Spot.isSolid, Line.isSolid, h, Line.raw]

/-! ### Moving everything behind a spot -/

theorem moved_of_lt {start offset : Nat} {delta : Int} (h : offset < start) :
    Layout.moved start delta offset = offset := by
  simp [Layout.moved, Nat.not_le.2 h]

theorem moved_of_le {start offset offset' : Nat} {delta : Int} (h : start ≤ offset)
    (hd : (offset' : Int) = offset + delta) : Layout.moved start delta offset = offset' := by
  simp only [Layout.moved, h, if_true]
  omega

/-- What is found along some spots is changed by `g` when each finding is. -/
theorem map_gather {β : Type} {f : Nat → Spot → Option β} {g : β → β} {ss : List Spot} {o o' : Nat}
    (h : ∀ us b vs, ss = us ++ b :: vs → (f (o + extent us) b).map g = f (o' + extent us) b) :
    (gather f o ss).map g = gather f o' ss := by
  induction ss generalizing o o' with
  | nil => rfl
  | cons s ss ih =>
    have hs := h [] s ss rfl
    simp only [extent_nil, Nat.add_zero] at hs
    simp only [gather, List.map_append, ← hs]
    rw [ih]
    · cases f o s <;> rfl
    · intro us b vs e
      have := h (s :: us) b vs (by simp [e])
      simpa [Nat.add_assoc] using this

section Move

variable {xs ys : List Spot} (s s' : Spot) (start : Nat) (delta : Int)

/-- The fixups before a spot stay and those behind it move. -/
theorem gather_fixup?_moved (valid : ∀ t ∈ xs ++ s :: ys, t.line.IsValid)
    (lo : extent xs ≤ start) (hi : start ≤ extent xs + s.size)
    (hd : (s'.size : Int) = s.size + delta) :
    (gather fixup? 0 (xs ++ s :: ys)).map
        (fun f => { f with site := Layout.moved start delta f.site }) =
      gather fixup? 0 xs ++
        (s.fixup? (extent xs)).toList.map
          (fun f => { f with site := Layout.moved start delta f.site }) ++
        gather fixup? (extent xs + s'.size) ys := by
  rw [gather_append, List.map_append, gather, List.map_append, Nat.zero_add, List.append_assoc]
  congr 1
  · refine map_gather fun us b vs e => ?_
    cases hf : b.fixup? (0 + extent us) with
    | none => rfl
    | some f =>
      subst e
      have hb := site_bounds (valid b (by simp)) hf
      have : f.site < start := by
        simp only [extent_append, extent_cons] at lo
        omega
      simp [moved_of_lt this]
  · congr 1
    refine map_gather fun us b vs e => ?_
    rw [fixup?_eq b, fixup?_eq b (extent xs + s'.size + extent us), Option.map_map]
    refine Option.map_congr fun f _ => ?_
    have e : Layout.moved start delta (f.site + (extent xs + s.size + extent us)) =
        f.site + (extent xs + s'.size + extent us) := moved_of_le (by omega) (by omega)
    simp [e]

/-- The marks before a spot stay and those behind it move. -/
theorem gather_mark?_moved (hi : start ≤ extent xs + s.size)
    (hd : (s'.size : Int) = s.size + delta)
    (fresh : ∀ us b vs, xs = us ++ b :: vs → b.line.isAlign = true → extent us < start) :
    (gather mark? 0 (xs ++ s :: ys)).map
        (fun m => { m with offset := Layout.moved start delta m.offset }) =
      gather mark? 0 xs ++
        (s.mark? (extent xs)).toList.map
          (fun m => { m with offset := Layout.moved start delta m.offset }) ++
        gather mark? (extent xs + s'.size) ys := by
  rw [gather_append, List.map_append, gather, List.map_append, Nat.zero_add, List.append_assoc]
  congr 1
  · refine map_gather fun us b vs e => ?_
    cases hm : b.mark? (0 + extent us) with
    | none => rfl
    | some m =>
      obtain ⟨n, hn, rfl⟩ := mark?_offset hm
      have := fresh us b vs e (by simp [hn, Line.isAlign])
      simp [moved_of_lt this]
  · congr 1
    refine map_gather fun us b vs e => ?_
    cases hm : b.mark? (extent xs + s.size + extent us) with
    | none =>
      rcases b with ⟨_ | _ | _ | _ | _, _⟩ <;> first | rfl | simp [mark?] at hm
    | some m =>
      obtain ⟨n, hn, rfl⟩ := mark?_offset hm
      have e : Layout.moved start delta (extent xs + s.size + extent us) =
          extent xs + s'.size + extent us := moved_of_le (by omega) (by omega)
      simp [mark?, hn, e]

/-- A label before a spot stays with what it stands for, a label behind it moves. -/
theorem label_moved {us vs : List Spot} {b : Spot} {label : LabelId}
    (e : xs ++ s' :: ys = us ++ b :: vs) (hb : b.line = .bound label) (hs' : s'.line ≠ .bound label)
    (lo : extent xs ≤ start) (hi : start ≤ extent xs + s.size)
    (hd : (s'.size : Int) = s.size + delta)
    (kind : s.isSolid = true ∧ s'.isSolid = true ∧ extent xs < start ∨
      s.isSolid = false ∧ s'.isSolid = false ∧ start = extent xs) :
    ∃ us' vs', xs ++ s :: ys = us' ++ b :: vs' ∧
      Layout.moved start delta (extent us' + lead vs') = extent us + lead vs := by
  have hsize := size_bound hb
  rcases split_around e with ⟨ms, rfl, rfl⟩ | ⟨rfl, rfl, rfl⟩ | ⟨ms, rfl, rfl⟩
  · refine ⟨us, ms ++ s :: ys, by simp, ?_⟩
    simp only [extent_append, extent_cons, hsize] at lo hi kind
    rw [lead_append, lead_append]
    by_cases hms : ms.any isSolid = true
    · have := lead_lt_extent hms
      simp only [hms, if_true]
      exact moved_of_lt (by omega)
    · simp only [hms]
      rcases kind with ⟨h1, h2, h3⟩ | ⟨h1, h2, h3⟩
      · simp only [lead, h1, h2, if_true]
        exact moved_of_lt (by simp; omega)
      · simp only [lead, h1, h2]
        exact moved_of_le (by simp; omega) (by simp; omega)
  · exact absurd hb hs'
  · refine ⟨xs ++ s :: ms, vs, by simp, ?_⟩
    simp only [extent_append, extent_cons]
    exact moved_of_le (by omega) (by omega)

end Move

/-! ### Widening a branch -/

theorem raw_short {mn : Mnemonic} {label : LabelId}
    (valid : (Line.instr mn (.relative label)).IsValid) :
    ∃ code, Opcode.encode? mn .relative = some code ∧
      Spot.raw ⟨.instr mn (.relative label), 0⟩ = [code, 0] := by
  obtain ⟨code, hc, hraw⟩ := raw_instr valid
  exact ⟨code, hc, by simp [Spot.raw, isLong, hraw, Arg.raw]⟩

theorem raw_long {mn : Mnemonic} {label : LabelId} {op inv : UInt8} (hsome : label.isSome = true)
    (hop : Opcode.encode? mn .relative = some op) (hinv : Opcode.inverse? op = some inv) :
    Spot.raw ⟨.instr mn (.relative label), 3⟩ = [inv, 3, 0x4C, 0, 0] := by
  have : inverse mn = inv := by rw [inverse, hop, Option.bind_some, hinv, Option.getD_some]
  simp [Spot.raw, isLong, hsome, this]

/-- A branch that is still short is the fixup of kind `relative`. -/
theorem fixup?_relative {s : Spot} {offset : Nat} {f : Fixup} (h : s.fixup? offset = some f)
    (hk : f.kind = .relative) :
    ∃ mn label, s = ⟨.instr mn (.relative label), 0⟩ ∧ label.isSome = true ∧
      f = ⟨offset + 1, label, .relative, 0⟩ := by
  obtain ⟨line, grown⟩ := s
  cases line with
  | instr mn arg =>
    have hw : wholeKind mn ≠ .relative := by simp only [wholeKind]; split <;> simp
    cases arg <;> simp only [fixup?, argFixup?] at h <;> (try split at h) <;>
      (try split at h) <;> simp_all <;> subst h <;> simp_all
  | word r =>
    simp only [fixup?] at h
    split at h <;> simp_all
    subst h
    simp at hk
  | data _ | bound _ | align _ => simp [fixup?] at h

theorem toList_extract_before {code : Array UInt8} {xs ms ys : List UInt8} {n : Nat}
    (h : code.toList = xs ++ ms ++ ys) (hn : n = xs.length) : (code.extract 0 n).toList = xs := by
  simp [h, hn]

theorem toList_extract_behind {code : Array UInt8} {xs ms ys : List UInt8} {n : Nat}
    (h : code.toList = xs ++ ms ++ ys) (hn : n = xs.length + ms.length) :
    (code.extract n code.size).toList = ys := by
  have hsize : code.size = (xs ++ ms).length + ys.length := by
    rw [← Array.length_toList, h, List.length_append]
  rw [Array.toList_extract, h, hn, hsize, ← List.length_append, List.extract_eq_take_drop,
    List.drop_left, Nat.add_sub_cancel_left, List.take_length]

/-- What a layout with one more trampoline is made of. -/
theorem Layout.expand_eq {l l' : Layout} {i : Nat} {f : Fixup} (h : l.expand i f = .ok l') :
    ∃ inv, Opcode.inverse? (l.code.getD (f.site - 1) 0) = some inv ∧
      l'.origin = l.origin ∧
      l'.code = l.code.extract 0 (f.site - 1) ++ #[inv, 3, 0x4C, 0, 0] ++
        l.code.extract (f.site + 1) l.code.size ∧
      l'.offsets = l.offsets.map (moved (f.site + 1) 3) ∧
      l'.fixups = (l.fixups.map fun g => { g with site := moved (f.site + 1) 3 g.site }).set! i
        { f with site := f.site + 2, kind := .absolute } ∧
      l'.marks = l.marks.map (fun m => { m with offset := moved (f.site + 1) 3 m.offset }) ∧
      l'.trampolines = l.trampolines + 1 := by
  unfold expand at h
  extract_lets code at h
  split at h
  · cases h
  next inv hinv =>
    obtain rfl := Except.ok.inj h
    exact ⟨inv, hinv, rfl, rfl, rfl, rfl, rfl, rfl⟩

/-- Widening a branch leaves the kinds of the other fixups. -/
theorem Layout.expand_kinds {l l' : Layout} {i : Nat} {f : Fixup} (h : l.expand i f = .ok l')
    {j : Nat} (hj : j ≠ i) : l'.fixups[j]?.map Fixup.kind = l.fixups[j]?.map Fixup.kind := by
  obtain ⟨_, -, -, -, -, hfixups, -, -⟩ := expand_eq h
  rw [hfixups]
  simp [Array.set!_eq_setIfInBounds, Ne.symm hj, Function.comp_def]

/-- Widening the branch of a fixup widens its spot. -/
theorem Layout.expand_lays {l l' : Layout} {ss : List Spot} {i : Nat} {f : Fixup} (h : l.Lays ss)
    (hf : l.fixups[i]? = some f) (hk : f.kind = .relative) (he : l.expand i f = .ok l') :
    ∃ xs ys mn label, ss = xs ++ ⟨.instr mn (.relative label), 0⟩ :: ys ∧
      l'.Lays (xs ++ ⟨.instr mn (.relative label), 3⟩ :: ys) ∧ l.Kin l' ∧
      label.isSome = true ∧ f = ⟨extent xs + 1, label, .relative, 0⟩ := by
  have hf' : (gather fixup? 0 ss)[i]? = some f := by rw [← h.fixups]; simpa using hf
  obtain ⟨xs, s, ys, rfl, hi, hs⟩ := gather_split hf'
  rw [Nat.zero_add] at hs
  obtain ⟨mn, label, rfl, hsome, rfl⟩ := fixup?_relative hs hk
  obtain ⟨inv, hinv, origin, hcode, hoffsets, hfixups, hmarks, htramp⟩ := expand_eq he
  obtain ⟨op, hop, hraw⟩ := raw_short (h.valid ⟨.instr mn (.relative label), 0⟩ (by simp))
  have hold : l.code.toList = xs.flatMap Spot.raw ++ [op, 0] ++ ys.flatMap Spot.raw := by
    simp [h.code, hraw]
  have hlen : (xs.flatMap Spot.raw).length = extent xs := rfl
  have hat : l.code.getD (extent xs) 0 = op := by
    rw [Array.getD_eq_getD_getElem?, ← Array.getElem?_toList, hold, ← hlen]
    simp
  have hraw' : Spot.raw ⟨.instr mn (.relative label), 3⟩ = [inv, 3, 0x4C, 0, 0] := by
    rw [Nat.add_sub_cancel, hat] at hinv
    exact raw_long hsome hop hinv
  have hsize : Spot.size ⟨.instr mn (.relative label), 0⟩ = 2 := by simp [size, hraw]
  have hsize' : Spot.size ⟨.instr mn (.relative label), 3⟩ = 5 := by simp [size, hraw']
  have hsolid : Spot.isSolid ⟨.instr mn (.relative label), 0⟩ = true := by
    simpa [Spot.isSolid, Line.isSolid, Spot.raw, isLong] using congrArg (fun b => !b.isEmpty) hraw
  refine ⟨xs, ys, mn, label, rfl, ⟨?_, ?_, ?_, ?_, ?_, ?_⟩,
    ⟨origin, by simp [hoffsets]⟩, hsome, rfl⟩
  · intro t ht
    rcases List.mem_append.1 ht with ht | ht
    · exact h.valid t (by simp [ht])
    · rcases List.mem_cons.1 ht with rfl | ht
      · exact h.valid ⟨.instr mn (.relative label), 0⟩ (by simp)
      · exact h.valid t (by simp [ht])
  · rw [hcode, Array.toList_append, Array.toList_append,
      toList_extract_before hold (by simp [hlen]), toList_extract_behind hold (by simp [hlen])]
    simp [hraw']
  · rw [hfixups]
    simp only [Array.set!_eq_setIfInBounds, Array.toList_setIfInBounds, Array.toList_map, h.fixups]
    rw [gather_fixup?_moved _ ⟨.instr mn (.relative label), 3⟩ _ _ h.valid (by omega)
      (by omega) (by omega), ← hi, hs, gather_append, gather, Nat.zero_add]
    simp [fixup?, argFixup?, hsome]
  · rw [hmarks]
    simp only [Array.toList_map, h.marks]
    rw [gather_mark?_moved _ ⟨.instr mn (.relative label), 3⟩ _ _ (by omega)
      (by omega), gather_append, gather, Nat.zero_add]
    · simp [mark?]
    · intro us b vs e _
      have : extent us ≤ extent xs := by simp [e]
      omega
  · intro us b vs e label' hb
    obtain ⟨us', vs', e', hmoved⟩ := label_moved ⟨.instr mn (.relative label), 0⟩ _
      (extent xs + 1 + 1) 3 e hb (by simp) (by omega) (by omega)
      (by omega) (.inl ⟨hsolid, hsolid, by omega⟩)
    rw [hoffsets, Array.getElem?_map, h.labels us' b vs' e' label' hb, Option.map_some, hmoved]
  · rw [htramp, h.trampolines]
    simp [isLong, hsome]
    omega

end Breadbin.Assembly
