import Mathlib.Algebra.BigOperators.Group.Finset.Basic
import Mathlib.Data.Int.Interval
import Mathlib.Order.Bounds.Basic
import Breadbin.Proofs.Assembly.Progress
import Breadbin.Proofs.Assembly.Growth

/-!
# Short and long branches

The linker widens the branches that have to be, and no others.
-/

/-!
## The fewest trampolines

A choice of branches to widen fixes where every line begins, and so how far each branch has to
reach. It suffices when every other branch reaches its label.  Widening one more branch moves the
ends of a branch only apart, so the choices that suffice have a least one; a branch that the linker
widens was out of reach in a layout with fewer long branches than any choice that suffices, and is
therefore in each of them.
-/

namespace Breadbin.Assembly

open Spot

/-! ### Choices of branches -/

/-- The label that a branch goes to. -/
def Line.target? : Line → Option LabelId
  | .instr _ arg => arg.branch?
  | _ => none

namespace Listing

/-- The label that the branch in a line goes to. -/
def target? (L : Listing) (i : Nat) : Option LabelId := L.lines[i]?.bind Line.target?

/-- The lines that are branches to a label. -/
def branches (L : Listing) : Finset Nat :=
  (Finset.range L.lines.length).filter fun i => (L.target? i).isSome

/-- The bytes of a line when the branches in `S` are long. -/
def size (L : Listing) (S : Finset Nat) (i : Nat) : Nat :=
  (L.lines[i]?.elim 0 fun line => line.raw.length) + if i ∈ S then 3 else 0

/-- Where a line begins when the branches in `S` are long. -/
def offset (L : Listing) (S : Finset Nat) (i : Nat) : Nat := ∑ k ∈ Finset.range i, L.size S k

/-- How far a short branch in line `i` has to reach, counted from its end, when the branches in `S`
are long. -/
def displacement (L : Listing) (S : Finset Nat) (i : Nat) (l : LabelId) : Int :=
  L.offset S (L.lines.idxOf (.bound l)) - (L.offset S i + 2)

/-- When the branches in `S` are long, every other branch reaches its label. -/
structure Suffices (L : Listing) (S : Finset Nat) : Prop where
  branches : S ⊆ L.branches
  reaches : ∀ i l, L.target? i = some l → i ∉ S → -128 ≤ L.displacement S i l ∧
    L.displacement S i l ≤ 127

variable {L : Listing} {S S' : Finset Nat}

theorem target?_eq_some {i : Nat} {l : LabelId} :
    L.target? i = some l ↔ ∃ mn, L.lines[i]? = some (.instr mn (.relative l)) ∧
      l.isSome = true := by
  rw [target?, Option.bind_eq_some_iff]
  refine ⟨fun ⟨line, hline, hl⟩ => ?_, fun ⟨mn, hline, hl⟩ => ⟨_, hline, ?_⟩⟩
  · cases line with
    | instr mn arg =>
      cases arg with
      | relative l' =>
        simp only [Line.target?, Arg.branch?, Option.ite_none_right_eq_some,
          Option.some.injEq] at hl
        obtain ⟨hsome, rfl⟩ := hl
        exact ⟨mn, hline, hsome⟩
      | _ => cases hl
    | _ => cases hl
  · simp [Line.target?, Arg.branch?, hl]

theorem offset_succ (L : Listing) (S : Finset Nat) (i : Nat) :
    L.offset S (i + 1) = L.offset S i + L.size S i := Finset.sum_range_succ _ i

theorem size_mono (h : S ⊆ S') (i : Nat) : L.size S i ≤ L.size S' i := by
  refine Nat.add_le_add_left ?_ _
  by_cases hi : i ∈ S
  · simp [hi, h hi]
  · simp [hi]

/-- More long branches between two lines move them apart. -/
theorem offset_apart (h : S ⊆ S') {i j : Nat} (hij : i ≤ j) :
    L.offset S i ≤ L.offset S j ∧
      L.offset S j + L.offset S' i ≤ L.offset S' j + L.offset S i := by
  induction j, hij using Nat.le_induction with
  | base => exact ⟨Nat.le_refl _, Nat.le_of_eq (Nat.add_comm _ _)⟩
  | succ j _ ih =>
    obtain ⟨hle, hapart⟩ := ih
    have := L.size_mono h j
    rw [offset_succ, offset_succ]
    omega

theorem offset_mono (h : S ⊆ S') (i : Nat) : L.offset S i ≤ L.offset S' i := by
  have := (L.offset_apart h (Nat.zero_le i)).2
  simpa [offset] using this

/-- A branch that is out of reach stays out of reach when more branches are long. -/
theorem displacement_out (h : S ⊆ S') {i : Nat} {l : LabelId}
    (hout : ¬(-128 ≤ L.displacement S i l ∧ L.displacement S i l ≤ 127)) :
    ¬(-128 ≤ L.displacement S' i l ∧ L.displacement S' i l ≤ 127) := by
  simp only [displacement] at hout ⊢
  generalize L.lines.idxOf (.bound l) = j at hout ⊢
  rcases Nat.le_total i j with hij | hji
  · -- the label is ahead: the branch is out of reach upwards
    obtain ⟨hle, hapart⟩ := L.offset_apart h hij
    omega
  · obtain ⟨hle, hapart⟩ := L.offset_apart h hji
    omega

end Listing

/-! ### The branches that are long -/

/-- The spots that are long branches. -/
def Spot.longAt (ss : List Spot) : Finset Nat :=
  (Finset.range ss.length).filter fun i => ss[i]?.any isLong

theorem mem_longAt {ss : List Spot} {i : Nat} :
    i ∈ longAt ss ↔ ∃ s, ss[i]? = some s ∧ s.isLong = true := by
  simp only [longAt, Finset.mem_filter, Finset.mem_range, Option.any_eq_true]
  refine ⟨fun h => h.2, fun h => ⟨?_, h⟩⟩
  obtain ⟨s, hs, -⟩ := h
  exact (List.getElem?_eq_some_iff.1 hs).1

theorem isLong_iff {s : Spot} :
    s.isLong = true ↔
      ∃ mn label, s.line = .instr mn (.relative label) ∧ label.isSome = true ∧ s.grown ≠ 0 := by
  obtain ⟨line, grown⟩ := s
  cases line with
  | instr mn arg => cases arg <;> simp [isLong]
  | data _ | word _ | bound _ | align _ => simp [isLong]

/-- Widening a branch adds it to the long ones. -/
theorem longAt_widen {xs ys : List Spot} {s s' : Spot} :
    longAt (xs ++ s' :: ys) ⊆ insert xs.length (longAt (xs ++ s :: ys)) := by
  intro i hi
  rw [Finset.mem_insert]
  by_cases hne : i = xs.length
  · exact .inl hne
  · obtain ⟨t, ht, hlong⟩ := mem_longAt.1 hi
    refine .inr (mem_longAt.2 ⟨t, ?_, hlong⟩)
    rcases Nat.lt_or_gt_of_ne hne with hlt | hgt
    · rw [List.getElem?_append_left hlt] at ht ⊢
      exact ht
    · rw [List.getElem?_append_right (Nat.le_of_lt hgt)] at ht ⊢
      obtain ⟨k, hk⟩ := Nat.exists_eq_succ_of_ne_zero (Nat.sub_ne_zero_of_lt hgt)
      rw [hk] at ht ⊢
      exact ht

theorem card_longAt (ss : List Spot) : (longAt ss).card = ss.countP isLong := by
  induction ss using List.reverseRecOn with
  | nil => rfl
  | append_singleton ss s ih =>
    have hbefore : ∀ i < ss.length, (ss ++ [s])[i]? = ss[i]? := fun i hi =>
      List.getElem?_append_left hi
    have hlast : (ss ++ [s])[ss.length]? = some s := by simp
    have hsplit : longAt (ss ++ [s]) =
        if s.isLong then insert ss.length (longAt ss) else longAt ss := by
      rw [longAt, List.length_append, List.length_singleton, Finset.range_add_one,
        Finset.filter_insert, hlast, Option.any_some, longAt]
      have hsame : (Finset.range ss.length).filter (fun i => (ss ++ [s])[i]?.any isLong) =
          (Finset.range ss.length).filter fun i => ss[i]?.any isLong :=
        Finset.filter_congr fun i hi => by rw [hbefore i (Finset.mem_range.1 hi)]
      rw [hsame]
    have hnew : ss.length ∉ longAt ss := fun h => by simp [longAt] at h
    rw [hsplit, List.countP_append, List.countP_singleton, ← ih]
    split
    · exact Finset.card_insert_of_notMem hnew
    · rfl

/-! ### Layouts of listings without alignments -/

/-- The layout is the one of spots of the lines of a listing that asks for no alignment. -/
structure Layout.Plain (l : Layout) (L : Listing) (ss : List Spot) : Prop where
  lays : l.Lays ss
  lines : ss.map Spot.line = L.lines
  unaligned : ∀ line ∈ L.lines, line.isAlign = false
  bound : ∀ line ∈ L.lines, ∀ label, line.needs? = some label → label ∈ L.labels

namespace Layout.Plain

variable {l : Layout} {L : Listing} {ss : List Spot}

theorem unaligned_spot (h : l.Plain L ss) {s : Spot} (hs : s ∈ ss) : s.line.isAlign = false :=
  h.unaligned s.line (h.lines ▸ List.mem_map_of_mem hs)

theorem line_getElem? (h : l.Plain L ss) (i : Nat) : L.lines[i]? = ss[i]?.map Spot.line := by
  rw [← h.lines, List.getElem?_map]

/-- The spots begin where the lines of the listing do when the same branches are long. -/
theorem extent_take (h : l.Plain L ss) {i : Nat} (hi : i ≤ ss.length) :
    extent (ss.take i) = L.offset (longAt ss) i := by
  induction i with
  | zero => simp [Listing.offset]
  | succ i ih =>
    have hlt : i < ss.length := hi
    have hmem : ss[i] ∈ ss := List.getElem_mem hlt
    have hline : L.lines[i]? = some ss[i].line := by simp [h.line_getElem?, hlt]
    have hlong : i ∈ longAt ss ↔ ss[i].isLong = true := by simp [mem_longAt, hlt]
    rw [List.take_succ_eq_append_getElem hlt, extent_append, ih (Nat.le_of_lt hlt),
      extent_cons, extent_nil, Listing.offset_succ, Listing.size, hline,
      Option.elim_some, Nat.add_zero,
      size_eq (h.lays.valid _ hmem) (h.unaligned_spot hmem)]
    simp only [hlong]

theorem extent_eq_offset (h : l.Plain L ss) {xs ys : List Spot} (hs : ss = xs ++ ys) :
    extent xs = L.offset (longAt ss) xs.length := by
  rw [← h.extent_take (by simp [hs]), hs, List.take_left]

theorem lead_eq_zero {vs : List Spot} (valid : ∀ s ∈ vs, s.line.IsValid)
    (unaligned : ∀ s ∈ vs, s.line.isAlign = false) : lead vs = 0 := by
  induction vs with
  | nil => rfl
  | cons s vs ih =>
    rw [lead, ih (fun t ht => valid t (List.mem_cons_of_mem _ ht)) fun t ht =>
      unaligned t (List.mem_cons_of_mem _ ht)]
    split
    · rfl
    next hsolid =>
      exact size_eq_zero (valid s List.mem_cons_self) (by simpa [Spot.isSolid] using hsolid)
        (unaligned s List.mem_cons_self)

/-- A label is where the line that binds it begins. -/
theorem label_offset (h : l.Plain L ss) {label : LabelId} (hlabel : label ∈ L.labels) :
    l.offset label = L.offset (longAt ss) (L.lines.idxOf (.bound label)) := by
  have hmem : Line.bound label ∈ L.lines := by
    obtain ⟨line, hline, hlabel⟩ := List.mem_filterMap.1 hlabel
    obtain rfl : line = .bound label := by cases line <;> simp_all [Line.label?]
    exact hline
  have hlt : L.lines.idxOf (.bound label) < L.lines.length := List.idxOf_lt_length_iff.2 hmem
  have hget : L.lines[L.lines.idxOf (.bound label)]? = some (.bound label) := by
    rw [List.getElem?_eq_getElem hlt, List.getElem_idxOf]
  generalize L.lines.idxOf (.bound label) = j at hget
  rw [h.line_getElem?, Option.map_eq_some_iff] at hget
  obtain ⟨b, hb, hline⟩ := hget
  obtain ⟨hj, rfl⟩ := List.getElem?_eq_some_iff.1 hb
  have hsplit : ss = ss.take j ++ ss[j] :: ss.drop (j + 1) := by simp
  rw [h.lays.offset hsplit hline, h.extent_take (Nat.le_of_lt hj), lead_eq_zero]
  · rfl
  · exact fun s hs => h.lays.valid s (List.mem_of_mem_drop hs)
  · exact fun s hs => h.unaligned_spot (List.mem_of_mem_drop hs)

/-- The displacement of a short branch is the one that the long branches give it. -/
theorem displacement_eq (h : l.Plain L ss) {xs ys : List Spot} {mn : Mnemonic} {label : LabelId}
    (hs : ss = xs ++ ⟨.instr mn (.relative label), 0⟩ :: ys) (hsome : label.isSome = true) :
    l.displacement ⟨extent xs + 1, label, .relative, 0⟩ =
      L.displacement (longAt ss) xs.length label := by
  have hline : Line.instr mn (.relative label) ∈ L.lines := by
    rw [← h.lines, hs]
    simp
  have hlabel := h.bound _ hline label (by simp [Line.needs?, hsome])
  rw [Layout.displacement, Listing.displacement, h.label_offset hlabel, h.extent_eq_offset hs]
  simp only [UInt16.toNat_ofNat]
  omega

/-- A short branch to a label is a fixup of its layout. -/
theorem fixup_mem (h : l.Plain L ss) {xs ys : List Spot} {mn : Mnemonic} {label : LabelId}
    (hs : ss = xs ++ ⟨.instr mn (.relative label), 0⟩ :: ys) (hsome : label.isSome = true) :
    ⟨extent xs + 1, label, .relative, 0⟩ ∈ l.fixups.toList := by
  rw [h.lays.fixups, hs, gather_append, gather]
  simp [fixup?, argFixup?, hsome]

theorem aligned (h : l.Plain L ss) (origin offset : Nat) : Aligned origin offset ss :=
  aligned_of_not_align (fun _ => h.unaligned_spot) origin offset

end Layout.Plain

theorem branchFits_iff {d : Int} : Opcode.branchFits d = true ↔ -128 ≤ d ∧ d ≤ 127 := by
  simp [Opcode.branchFits]

/-! ### What the linker widens -/

/-- The layout is one of a listing, and every choice of branches that suffices has its long ones. -/
def Layout.Sparing (L : Listing) (l₀ l : Layout) : Prop :=
  l₀.Kin l ∧ ∃ ss, l.Plain L ss ∧ ∀ S, L.Suffices S → longAt ss ⊆ S

/-- A branch is widened only if it is long in every choice that suffices. -/
theorem Layout.sparing_keptByWidening (L : Listing) (l₀ : Layout) :
    KeptByWidening (Layout.Sparing L l₀) := by
  rintro l l' i f ⟨hkin, ss, hplain, hleast⟩ hf hk hout he
  obtain ⟨xs, ys, mn, label, hs, hlays', hkin', hsome, rfl⟩ := expand_lays hplain.lays hf hk he
  have hlines : (xs ++ ⟨.instr mn (.relative label), 3⟩ :: ys).map Spot.line = L.lines := by
    rw [← hplain.lines, hs]
    simp
  refine ⟨hkin.trans hkin', _, ⟨hlays', hlines, hplain.unaligned, hplain.bound⟩, fun S hS => ?_⟩
  refine longAt_widen.trans (Finset.insert_subset ?_ (hs ▸ hleast S hS))
  rw [branchFits_iff, hplain.displacement_eq hs hsome] at hout
  have htarget : L.target? xs.length = some label := by
    refine Listing.target?_eq_some.2 ⟨mn, ?_, hsome⟩
    rw [hplain.line_getElem?, hs]
    simp
  exact by_contra fun hmem => L.displacement_out (hleast S hS) hout (hS.reaches _ _ htarget hmem)

/-- Once every branch that is still short reaches its label, the long ones suffice. -/
theorem Layout.Plain.suffices {l : Layout} {L : Listing} {ss : List Spot} (h : l.Plain L ss)
    (hreaches : l.Reaches) : L.Suffices (longAt ss) := by
  refine ⟨fun i hi => ?_, fun i label htarget hshort => ?_⟩
  · obtain ⟨s, hs, hlong⟩ := mem_longAt.1 hi
    obtain ⟨mn, label, hline, hsome⟩ := isLong_iff.1 hlong
    have htarget : L.target? i = some label :=
      Listing.target?_eq_some.2 ⟨mn, by rw [h.line_getElem?, hs, Option.map_some, hline], hsome.1⟩
    refine Finset.mem_filter.2 ⟨Finset.mem_range.2 ?_, by simp [htarget]⟩
    rw [← h.lines, List.length_map]
    exact (List.getElem?_eq_some_iff.1 hs).1
  · obtain ⟨mn, hline, hsome⟩ := Listing.target?_eq_some.1 htarget
    rw [h.line_getElem?, Option.map_eq_some_iff] at hline
    obtain ⟨⟨line, grown⟩, hs, rfl⟩ := hline
    obtain rfl : grown = 0 := by
      by_contra hgrown
      exact hshort (mem_longAt.2 ⟨_, hs, isLong_iff.2 ⟨mn, label, rfl, hsome, hgrown⟩⟩)
    obtain ⟨hlt, hget⟩ := List.getElem?_eq_some_iff.1 hs
    have hsplit : ss = ss.take i ++ ⟨.instr mn (.relative label), 0⟩ :: ss.drop (i + 1) := by
      rw [← hget]
      simp
    have hlen : (ss.take i).length = i := by
      rw [List.length_take]
      omega
    have hfits := hreaches _ (h.fixup_mem hsplit hsome) rfl
    rwa [branchFits_iff, h.displacement_eq hsplit hsome, hlen] at hfits

/-- Without marks there is nothing to pad, and laying out is putting in trampolines. -/
theorem Layout.settle_of_plain {passes : Nat} {l l' : Layout} {L : Listing} {ss : List Spot}
    (h : l.Plain L ss) (hl : settle passes l = .ok l') :
    l'.Reaches ∧ ∀ P, KeptByWidening P → P l → P l' := by
  cases passes with
  | zero => cases hl
  | succ n =>
    obtain ⟨l₁, h₁, hl⟩ := bind_eq_ok.1 hl
    have hspells : l.Spells l (ss.map written) := ⟨.refl l, ss, h.lays, rfl⟩
    have hreaches := trampoline_fits hspells
    rw [h₁] at hreaches
    obtain ⟨⟨-, ss₁, hlays₁, hwritten⟩, hreaches⟩ := hreaches
    have hmarks : l₁.marks.size = 0 := by
      rw [← Array.length_toList, hlays₁.marks, length_gather_mark?, List.countP_eq_zero]
      intro s hs
      have hmem : s.line ∈ L.lines := by
        rw [← h.lines, ← map_fst_written, ← hwritten, map_fst_written]
        exact List.mem_map_of_mem hs
      simp [h.unaligned _ hmem]
    have hpad : l₁.alignAll = (l₁, false) := by simp [alignAll, hmarks]
    rw [hpad] at hl
    obtain rfl := pure_eq_ok.1 hl
    exact ⟨hreaches, fun P keeps hP => trampoline_keeps keeps hP h₁⟩

/-! ### Images with the fewest trampolines -/

/-- **Linking widens the fewest branches.**  The branches that are long in the image of a stream
without alignments are the least set of branches such that, when exactly those are long, every other
branch reaches its label; each line begins where that set puts it, and no other set that suffices
makes the image shorter. -/
theorem link_widens_least {actions : List Action} {origin : UInt16} {image : Image}
    (unaligned : ∀ a ∈ actions, a.isAlign = false)
    (ok : (Stream.ofActions actions).error = none)
    (linked : (Stream.ofActions actions).link origin = .ok image) :
    ∃ env ps S, (Listing.ofActions actions).Linked image env ps ∧ image.origin = origin ∧
      IsLeast {S | (Listing.ofActions actions).Suffices S} S ∧
      (∀ i p, ps[i]? = some p → (p.isLong = true ↔ i ∈ S)) ∧ image.trampolines = S.card ∧
      (∀ i ≤ ps.length, Placement.size (ps.take i) = (Listing.ofActions actions).offset S i) ∧
      ∀ S', (Listing.ofActions actions).Suffices S' →
        image.bytes.size ≤ (Listing.ofActions actions).offset S' ps.length := by
  have shows := Stream.ofActions_shows ok
  have notAlign := Listing.ofActions_not_align unaligned
  generalize Listing.ofActions actions = L at shows notAlign ⊢
  generalize Stream.ofActions actions = s at shows linked
  obtain ⟨-, hresolved, l, l', found, hsettle, hpatch, hsymbols, rfl⟩ := Stream.link_eq linked
  have hlines : (ofLines L.lines).map Spot.line = L.lines := by simp [ofLines, Function.comp_def]
  have hplain : (Layout.ofStream s origin).Plain L (ofLines L.lines) :=
    ⟨Layout.ofStream_lays shows origin, hlines, notAlign, fun line hline label hneeds =>
      shows.needs_bound hresolved hline hneeds⟩
  have hnone : longAt (ofLines L.lines) = ∅ := by
    rw [← Finset.card_eq_zero, card_longAt, countP_isLong_ofLines]
  obtain ⟨hreaches, keeps⟩ := Layout.settle_of_plain hplain hsettle
  obtain ⟨hkin, ss, hplain, hleast⟩ := keeps _ (Layout.sparing_keptByWidening L _)
    ⟨.refl _, _, hplain, fun S _ => by simp [hnone]⟩
  obtain ⟨ps, hlinked, hpl, hps⟩ := shows.patched hresolved hplain.lays.spread hkin hplain.lines
    (hplain.aligned _ 0) hpatch hsymbols
  have hlength : ps.length = ss.length := by simpa using congrArg List.length hpl
  have hsize : ∀ i ≤ ps.length, Placement.size (ps.take i) = L.offset (longAt ss) i := by
    intro i hi
    have hextent : extent (ss.take i) = ((ss.map Spot.size).take i).sum := by
      rw [← List.map_take, extent, List.length_flatMap]
      rfl
    rw [← hplain.extent_take (hlength ▸ hi), hextent, ← hps, ← List.map_take, Placement.size,
      List.length_flatMap]
  refine ⟨l.addresses, ps, longAt ss, hlinked, rfl,
    ⟨hplain.suffices hreaches, hleast⟩, ?_, ?_, hsize, fun S' hS' => ?_⟩
  · intro i p hp
    obtain ⟨hi, rfl⟩ := List.getElem?_eq_some_iff.1 hp
    have hi' : i < ss.length := hlength ▸ hi
    have hline : ps[i].line = ss[i].line := by
      have := congrArg (·[i]?) hpl
      simpa [hi, hi'] using this
    have hbytes : ps[i].bytes.length = ss[i].size := by
      have := congrArg (·[i]?) hps
      simpa [hi, hi'] using this
    rw [isLong_of_size (hplain.lays.valid _ (List.getElem_mem hi')) hline hbytes, mem_longAt]
    simp [hi']
  · rw [hlinked.trampolines, countP_isLong hplain.lays.valid hpl hps, card_longAt]
  · have htotal : l'.code.size = L.offset (longAt ss) ps.length := by
      rw [← hsize _ (Nat.le_refl _), List.take_length, Placement.size, ← hlinked.bytes,
        Array.length_toList]
    rw [htotal]
    exact L.offset_mono (hleast S' hS') _

/-- A branch that reaches its label only as long as the branch behind it is short, which it cannot
stay. -/
def farActions : List Action :=
  [.addLabel (Text.bytesOf "end"), .placeLabel (Text.bytesOf "start"), .branch .bne ⟨1⟩,
    .data (List.replicate 125 0xEA), .branch .beq ⟨2⟩, .bind ⟨1⟩, .op .rts]

/-- Both branches are widened, and no choice of branches makes do with fewer. -/
theorem farActions_least :
    ∃ image, (Stream.ofActions farActions).link 0xC000 = .ok image ∧ image.trampolines = 2 ∧
      ∃ S : Finset Nat, IsLeast {S | (Listing.ofActions farActions).Suffices S} S ∧ S.card = 2 := by
  have linked : ((Stream.ofActions farActions).link 0xC000).toOption.map Image.trampolines =
      some 2 := by
    decide +kernel
  obtain ⟨image, h, htwo⟩ := exists_ok_of_map linked
  obtain ⟨_, _, S, -, -, hleast, -, hcard, -⟩ :=
    link_widens_least (by decide) (Stream.link_eq h).1 h
  exact ⟨image, h, htwo, S, hleast, hcard ▸ htwo⟩

end Breadbin.Assembly

/-!
## Near branches

A branch back to a label behind which nothing else branches reaches it whatever else is widened, so
the linker leaves it short.  Its bytes are then known before anything is linked.
-/

namespace Breadbin.Assembly

open Spot

/-! ### Images with the fewest long branches -/

/-- The image is a listing without alignments: each label is bound once and is the address of what
follows it, and the long branches are in every choice that suffices. -/
structure Listing.LinkedSparingly (L : Listing) (image : Image) (env : Addresses)
    (ps : List Placement) : Prop
    extends L.Linked image env ps where
  once : L.labels.Nodup
  unaligned : ∀ line ∈ L.lines, line.isAlign = false
  labels : ∀ pre p post l, ps = pre ++ p :: post → p.line = .bound l →
    l.isSome = true ∧ env l = image.origin.toNat + Placement.size pre
  least : ∀ S, L.Suffices S → ∀ i p, ps[i]? = some p → p.isLong = true → i ∈ S

/-- A stream that has grown from the empty one is linked with the fewest long branches. -/
theorem Stream.Grows.link_sparing {s : Stream} {ls : List Line} {origin : UInt16} {image : Image}
    (hgrows : Stream.Grows {} s ls) (linked : s.link origin = .ok image) :
    ∃ (L : Listing) (env : Addresses) (ps : List Placement), L.lines = ls ∧ image.origin = origin ∧
      L.LinkedSparingly image env ps := by
  have unaligned := hgrows.not_align
  have once := hgrows.nodup_labels (Stream.link_eq linked).1
  obtain ⟨L, h, rfl⟩ := hgrows.shows (Stream.link_eq linked).1
  obtain ⟨-, hresolved, l, l', found, hsettle, hpatch, hsymbols, rfl⟩ := Stream.link_eq linked
  have hlines : (ofLines L.lines).map Spot.line = L.lines := by simp [ofLines, Function.comp_def]
  have hfirst : (Layout.ofStream s origin).Plain L (ofLines L.lines) :=
    ⟨Layout.ofStream_lays h origin, hlines, unaligned, fun line hline label hneeds =>
      h.needs_bound hresolved hline hneeds⟩
  have hnone : longAt (ofLines L.lines) = ∅ := by
    rw [← Finset.card_eq_zero, card_longAt, countP_isLong_ofLines]
  obtain ⟨hkin, ss, hplain, hleast⟩ := (Layout.settle_of_plain hfirst hsettle).2 _
    (Layout.sparing_keptByWidening L _) ⟨.refl _, _, hfirst, fun S _ => by simp [hnone]⟩
  obtain ⟨ps, hlinked, hpl, hps⟩ := h.patched hresolved hplain.lays.spread hkin hplain.lines
    (hplain.aligned _ 0) hpatch hsymbols
  have hsized : ∀ p ∈ ps, p.Sized := fun p hp =>
    hlinked.sizes p hp (unaligned p.line (hlinked.lines ▸ List.mem_map_of_mem hp))
  refine ⟨L, l.addresses, ps, rfl, rfl, hlinked, once, unaligned, ?_,
    fun S hS i p hp hlong => hleast S hS ?_⟩
  · rintro pre p post label rfl hl
    rw [hlinked.assembled.split.2 label hl, gap_of_sized fun q hq =>
      hsized q (by simp [hq]), Nat.add_zero]
    refine ⟨(h.bound (pre.map Placement.line) label (post.map Placement.line) ?_).1, rfl⟩
    rw [← hlinked.lines, ← hl]
    simp
  · -- a placement is long when its spot is
    have hspot : ∃ spot, ss[i]? = some spot ∧ p.line = spot.line ∧ p.bytes.length = spot.size := by
      have hline := congrArg (·[i]?) hpl
      have hsize := congrArg (·[i]?) hps
      simp only [List.getElem?_map, hp, Option.map_some] at hline hsize
      obtain ⟨spot, hspot, hline⟩ := Option.map_eq_some_iff.1 hline.symm
      rw [hspot, Option.map_some] at hsize
      exact ⟨spot, hspot, hline.symm, Option.some.inj hsize⟩
    obtain ⟨spot, hspot, hline, hsize⟩ := hspot
    refine mem_longAt.2 ⟨spot, hspot, ?_⟩
    rw [← isLong_of_size (hplain.lays.valid _ (List.mem_of_getElem? hspot)) hline hsize, hlong]

/-! ### Lines without branches -/

namespace Listing

variable {L : Listing} {S : Finset Nat} {us mid vs : List Line}

/-- Lines that are no branches have their own bytes whatever is widened. -/
theorem offset_span (hlines : L.lines = us ++ mid ++ vs) (hmid : ∀ line ∈ mid, line.target? = none)
    (hS : S ⊆ L.branches) :
    L.offset S (us.length + mid.length) = L.offset S us.length + (mid.flatMap Line.raw).length := by
  induction mid using List.reverseRecOn generalizing vs with
  | nil => rfl
  | append_singleton mid line ih =>
    have hget : L.lines[us.length + mid.length]? = some line := by
      rw [hlines, List.append_assoc, List.getElem?_append_right (Nat.le_add_right _ _)]
      simp
    have hplain : us.length + mid.length ∉ S := by
      intro hmem
      have hbranch := (Finset.mem_filter.1 (hS hmem)).2
      rw [target?, hget, Option.bind_some, hmid line (by simp)] at hbranch
      cases hbranch
    have hlonger : L.lines = us ++ mid ++ line :: vs := by simp [hlines]
    have ih := ih hlonger fun line hline => hmid line (by simp [hline])
    rw [List.length_append, List.length_singleton, ← Nat.add_assoc, offset_succ, ih, size, hget,
      Option.elim_some, if_neg hplain]
    simp [Nat.add_assoc]

/-- A label that is bound once stands where it is first bound. -/
theorem idxOf_bound {l : LabelId} (hlines : L.lines = us ++ .bound l :: vs)
    (hnodup : L.labels.Nodup) :
    L.lines.idxOf (.bound l) = us.length := by
  have hnew : Line.bound l ∉ us := by
    intro hmem
    rw [labels, hlines, List.filterMap_append] at hnodup
    have hfirst : l ∈ us.filterMap Line.label? := List.mem_filterMap.2 ⟨_, hmem, rfl⟩
    exact (List.nodup_append.1 hnodup).2.2 l hfirst l (by simp [Line.label?]) rfl
  rw [hlines, List.idxOf_append_of_notMem hnew, List.idxOf_cons_self, Nat.add_zero]

/-- All branches but one that goes back over few bytes suffice. -/
theorem suffices_erase {mn : Mnemonic} {l : LabelId}
    (hlines : L.lines = us ++ .bound l :: (mid ++ .instr mn (.relative l) :: vs))
    (hnodup : L.labels.Nodup)
    (hmid : ∀ line ∈ mid, line.target? = none) (hnear : (mid.flatMap Line.raw).length ≤ 126) :
    L.Suffices (L.branches.erase (us.length + (mid.length + 1))) := by
  refine ⟨Finset.erase_subset _ _, fun i label htarget hout => ?_⟩
  have hbranch : i ∈ L.branches := by
    refine Finset.mem_filter.2 ⟨Finset.mem_range.2 ?_, by simp [htarget]⟩
    obtain ⟨mn, hget, -⟩ := target?_eq_some.1 htarget
    exact (List.getElem?_eq_some_iff.1 hget).1
  obtain rfl : i = us.length + (mid.length + 1) := by
    by_contra hne
    exact hout (Finset.mem_erase.2 ⟨hne, hbranch⟩)
  obtain rfl : label = l := by
    obtain ⟨mn', hget, -⟩ := target?_eq_some.1 htarget
    rw [hlines, List.getElem?_append_right (Nat.le_add_right _ _), Nat.add_sub_cancel_left,
      List.getElem?_cons_succ, List.getElem?_append_right (Nat.le_refl _), Nat.sub_self] at hget
    cases hget
    rfl
  have hmiddle : L.lines = us ++ (.bound label :: mid) ++ .instr mn (.relative label) :: vs := by
    simp [hlines]
  have hspan := offset_span hmiddle (by simpa [Line.target?] using hmid)
    (Finset.erase_subset (us.length + (mid.length + 1)) L.branches)
  rw [List.length_cons, List.flatMap_cons, Line.raw, List.nil_append] at hspan
  rw [displacement, idxOf_bound hlines hnodup, hspan]
  omega

/-- A line ends before the image does. -/
theorem LinkedSparingly.within {image : Image} {env : Addresses}
    {pre post : List Placement} {p : Placement}
    (h : L.LinkedSparingly image env (pre ++ p :: post)) :
    image.origin.toNat + Placement.size pre + p.bytes.length ≤ image.stop := by
  have hall : image.bytes.size = Placement.size (pre ++ p :: post) := by
    rw [← Array.length_toList, h.bytes, Placement.size]
  rw [Placement.size_append, Placement.size_cons] at hall
  rw [Image.stop]
  omega

/-- **A near branch is short.**  A branch back to a label, with no branch and few bytes in between,
is linked as one instruction. -/
theorem LinkedSparingly.not_isLong {image : Image} {env : Addresses}
    {pre near post : List Placement} {b p : Placement} {mn : Mnemonic} {l : LabelId}
    (h : L.LinkedSparingly image env (pre ++ b :: (near ++ p :: post))) (hb : b.line = .bound l)
    (hp : p.line = .instr mn (.relative l)) (hplain : ∀ q ∈ near, q.line.target? = none)
    (hnear : ((near.map Placement.line).flatMap Line.raw).length ≤ 126) : p.isLong = false := by
  have hlines : L.lines = pre.map Placement.line ++ .bound l ::
      (near.map Placement.line ++ .instr mn (.relative l) :: post.map Placement.line) := by
    rw [← h.lines, ← hb, ← hp]
    simp
  have hsuffices := suffices_erase hlines h.once (by simpa using hplain) hnear
  rw [Bool.eq_false_iff]
  intro hlong
  have hmem := h.least _ hsuffices (pre.length + (near.length + 1)) p (by simp) hlong
  simp at hmem

end Listing

end Breadbin.Assembly
