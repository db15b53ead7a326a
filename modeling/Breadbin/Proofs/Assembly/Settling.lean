import Breadbin.Proofs.Assembly.Layout

/-!
# Trampolines and padding

Linking starts from the layout of a listing and puts in trampolines and padding in turn.  Neither
changes what is written: the lines stay, trampolines change no padding, and padding brings each mark
to its multiple.
-/

namespace Breadbin.Assembly

open Spot

/-! ## Trampolines -/

/-- What is written at a spot: its line and the zeros of an alignment. -/
def Spot.written (s : Spot) : Line × Nat := (s.line, if s.line.isAlign then s.grown else 0)

/-- The layout comes from `l₀` and is one of lines with the given padding. -/
structure Layout.Spells (l l₀ : Layout) (ws : List (Line × Nat)) : Prop where
  kin : l₀.Kin l
  laid : ∃ ss, l.Lays ss ∧ ss.map written = ws

/-- The fixups in a queue are those of branches that are still short. -/
structure Layout.Opens (l : Layout) (queue : List Nat) : Prop where
  nodup : queue.Nodup
  kind : ∀ i ∈ queue, l.fixups[i]?.map Fixup.kind = some .relative

namespace Layout

theorem opens_openBranches (l : Layout) : l.Opens l.openBranches := by
  refine ⟨List.nodup_range.filter _, fun i hi => ?_⟩
  obtain ⟨hlt, hk⟩ := List.mem_filter.1 hi
  have hlt := List.mem_range.1 hlt
  simpa [Array.getD_eq_getD_getElem?, hlt] using hk

/-- What every replacement of a branch out of reach keeps. -/
def KeptByWidening (P : Layout → Prop) : Prop :=
  ∀ (l l' : Layout) (i : Nat) (f : Fixup), P l → l.fixups[i]? = some f → f.kind = .relative →
    ¬Opcode.branchFits (l.displacement f) = true → l.expand i f = .ok l' → P l'

variable {P : Layout → Prop}

/-- A look at one open branch replaces at most that one. -/
theorem Walk.step_keeps {w w' : Walk} {i : Nat} {queue : List Nat} (keeps : KeptByWidening P)
    (h : P w.layout) (hopen : w.layout.Opens (i :: queue ++ w.fitting)) (hw : w.step i = .ok w') :
    P w'.layout ∧ w'.layout.Opens (queue ++ w'.fitting) := by
  obtain ⟨nodup, kind⟩ := hopen
  obtain ⟨f, hf, hk⟩ := Option.map_eq_some_iff.1 (kind i (by simp))
  have hget : w.layout.fixups.getD i default = f := by simp [Array.getD_eq_getD_getElem?, hf]
  simp only [Walk.step, hget] at hw
  split at hw
  · obtain rfl := Except.ok.inj hw
    have hperm : (queue ++ i :: w.fitting).Perm (i :: queue ++ w.fitting) := List.perm_middle
    exact ⟨h, hperm.nodup_iff.2 nodup, fun j hj => kind j (hperm.mem_iff.1 hj)⟩
  next hfits =>
    cases he : w.layout.expand i f with
    | error e => simp [he, bind, Except.bind] at hw
    | ok l =>
      simp only [he, bind, Except.bind] at hw
      obtain rfl := Except.ok.inj hw
      refine ⟨keeps _ _ _ _ h hf hk hfits he, (List.nodup_cons.1 nodup).2, fun j hj => ?_⟩
      have hne : j ≠ i := by
        rintro rfl
        exact (List.nodup_cons.1 nodup).1 hj
      exact (expand_kinds he hne).trans (kind j (List.mem_cons_of_mem i hj))

theorem foldlM_step_keeps {queue : List Nat} {w w' : Walk} (keeps : KeptByWidening P)
    (h : P w.layout) (hopen : w.layout.Opens (queue ++ w.fitting))
    (hw : queue.foldlM Walk.step w = .ok w') :
    P w'.layout ∧ w'.layout.Opens w'.fitting := by
  induction queue generalizing w with
  | nil =>
    obtain rfl := Except.ok.inj hw
    exact ⟨h, hopen⟩
  | cons i queue ih =>
    rw [List.foldlM_cons] at hw
    cases hs : w.step i with
    | error e => simp [hs, bind, Except.bind] at hw
    | ok v =>
      obtain ⟨h', hopen'⟩ := Walk.step_keeps keeps h hopen hs
      exact ih h' hopen' (by simpa [hs, bind, Except.bind] using hw)

theorem settleBranches_keeps {walks : Nat} {l l' : Layout} {queue : List Nat}
    (keeps : KeptByWidening P) (h : P l) (hopen : l.Opens queue)
    (hl : settleBranches walks l queue = .ok l') : P l' := by
  induction walks generalizing l queue with
  | zero =>
    obtain rfl := Except.ok.inj hl
    exact h
  | succ n ih =>
    cases queue with
    | nil =>
      obtain rfl := Except.ok.inj hl
      exact h
    | cons i queue =>
      simp only [settleBranches] at hl
      cases hw : (i :: queue).foldlM Walk.step { layout := l } with
      | error e => simp [hw, bind, Except.bind] at hl
      | ok w =>
        obtain ⟨h', hopen'⟩ :=
          foldlM_step_keeps (w := { layout := l }) keeps h (by simpa using hopen) hw
        simp only [hw, bind, Except.bind] at hl
        split at hl
        · cases hc : w.layout.checkSize with
          | error e => simp [hc] at hl
          | ok _ =>
            simp only [hc] at hl
            refine ih h' ⟨List.pairwise_reverse.2 (hopen'.nodup.imp Ne.symm), fun j hj => ?_⟩ hl
            exact hopen'.kind j (List.mem_reverse.1 hj)
        · obtain rfl := Except.ok.inj hl
          exact h'

/-- Putting in trampolines keeps what each replacement keeps. -/
theorem trampoline_keeps {l l' : Layout} (keeps : KeptByWidening P) (h : P l)
    (hl : l.trampoline = .ok l') : P l' :=
  settleBranches_keeps keeps h l.opens_openBranches hl

/-- Replacing a branch leaves what is written. -/
theorem spells_keptByWidening (l₀ : Layout) (ws : List (Line × Nat)) :
    KeptByWidening (·.Spells l₀ ws) := by
  rintro l l' i f ⟨hkin, ss, hlays, hws⟩ hf hk - he
  obtain ⟨xs, ys, mn, label, rfl, hlays', hkin', -⟩ := expand_lays hlays hf hk he
  refine ⟨hkin.trans hkin', _, hlays', ?_⟩
  rw [← hws]
  simp [written, Line.isAlign]

/-- Putting in trampolines leaves what is written. -/
theorem trampoline_spells {l l₀ l' : Layout} {ws : List (Line × Nat)}
    (h : l.Spells l₀ ws) (hl : l.trampoline = .ok l') : l'.Spells l₀ ws :=
  trampoline_keeps (spells_keptByWidening l₀ ws) h hl

end Layout

/-! ## Padding

Alignments with nothing but labels between them ask for one place.  The first of them is padded;
the others find the place aligned when the first is a multiple of them. -/

/-- The first of the alignments that ask for the current place. -/
def Line.asked (g : Option Nat) : Line → Option Nat
  | .align n => some (g.getD n)
  | line => if line.isSolid then none else g

/-- Where several alignments ask for one place, the first is a multiple of the others. -/
def Line.LargestFirst : Option Nat → List Line → Prop
  | _, [] => True
  | g, line :: ls =>
    (∀ n, line = .align n → ∀ m ∈ g, n ∣ m) ∧ Line.LargestFirst (line.asked g) ls

/-- Where several alignments ask for one place, only the first is padded. -/
def Spot.Snug : Option Nat → List (Line × Nat) → Prop
  | _, [] => True
  | g, (line, pad) :: ws =>
    (line.isAlign = true → g.isSome = true → pad = 0) ∧ Spot.Snug (line.asked g) ws

/-- Every alignment is on its multiple, with the least padding. -/
def Spot.Aligned (origin : Nat) : Nat → List Spot → Prop
  | _, [] => True
  | offset, s :: ss =>
    (∀ n, s.line = .align n → (origin + offset + s.size) % n = 0 ∧ s.size < n) ∧
      Aligned origin (offset + s.size) ss

theorem Spot.aligned_of_not_align {ss : List Spot} (h : ∀ s ∈ ss, s.line.isAlign = false)
    (origin offset : Nat) :
    Aligned origin offset ss := by
  induction ss generalizing offset with
  | nil => trivial
  | cons s ss ih =>
    refine ⟨fun n hn => ?_, ih (fun t ht => h t (List.mem_cons_of_mem _ ht)) _⟩
    have := h s List.mem_cons_self
    simp [hn, Line.isAlign] at this

theorem Line.isAlign_iff {line : Line} : line.isAlign = true ↔ ∃ n, line = .align n := by
  cases line <;> simp [Line.isAlign]

theorem Line.asked_of_not_align {line : Line} (h : ¬line.isAlign = true) (g : Option Nat) :
    line.asked g = if line.isSolid then none else g := by
  cases line <;> first | rfl | exact absurd rfl h

theorem mark?_of_not_align {s : Spot} (h : ¬s.line.isAlign = true) (offset : Nat) :
    s.mark? offset = none := by
  obtain ⟨line, grown⟩ := s
  cases line <;> first | rfl | exact absurd rfl h

theorem padding_spec {n a : Nat} (h : 0 < n) :
    (a + Layout.padding n a) % n = 0 ∧ Layout.padding n a < n := by
  refine ⟨?_, Nat.mod_lt _ h⟩
  rw [Layout.padding, Nat.add_mod_mod]
  have hlt := Nat.mod_lt a h
  have hdiv := Nat.div_add_mod a n
  have : a + (n - a % n) = n * (a / n + 1) := by
    rw [Nat.mul_add]
    omega
  rw [this, Nat.mul_mod_right]

theorem padding_eq_zero {n a : Nat} (h : a % n = 0) : Layout.padding n a = 0 := by
  simp [Layout.padding, h]

theorem foldl_asked_some {ls : List Line} {m : Nat} (h : ls.foldl Line.asked (some m) = none) :
    ls.any Line.isSolid = true := by
  induction ls generalizing m with
  | nil => cases h
  | cons line ls ih =>
    cases hs : line.isSolid with
    | true => simp [hs]
    | false =>
      have : line.asked (some m) = some m := by
        cases line <;> simp_all [Line.asked]
      rw [List.foldl_cons, this] at h
      simp [ih h]

theorem raw_align (n g : Nat) : Spot.raw ⟨.align n, g⟩ = List.replicate g 0 := rfl

theorem size_align (n g : Nat) : Spot.size ⟨.align n, g⟩ = g := by simp [size, raw_align]

/-- The code with the zeros of one alignment replaced. -/
theorem toList_repad {code : Array UInt8} {xs ys : List UInt8} {g : Nat} (want : Nat)
    (h : code.toList = xs ++ List.replicate g 0 ++ ys) :
    (if g < want then
        code.extract 0 xs.length ++ Array.replicate (want - g) 0 ++ code.extract xs.length code.size
      else code.extract 0 xs.length ++ code.extract (xs.length + (g - want)) code.size).toList =
      xs ++ List.replicate want 0 ++ ys := by
  split
  next hlt =>
    have hsplit : code.toList = xs ++ [] ++ (List.replicate g 0 ++ ys) := by simp [h]
    rw [Array.toList_append, Array.toList_append, toList_extract_before hsplit rfl,
      toList_extract_behind hsplit (n := xs.length) rfl, Array.toList_replicate,
      List.append_assoc, ← List.append_assoc
      (List.replicate _ _), List.replicate_append_replicate, Nat.sub_add_cancel (Nat.le_of_lt hlt),
      ← List.append_assoc]
  next hge =>
    have hsplit : code.toList = xs ++ List.replicate (g - want) 0 ++
        (List.replicate want 0 ++ ys) := by
      rw [h, List.append_assoc,
        List.append_assoc, ← List.append_assoc (List.replicate (g - want) _),
        List.replicate_append_replicate, Nat.sub_add_cancel (Nat.le_of_not_lt hge)]
    rw [Array.toList_append, toList_extract_before hsplit rfl,
      toList_extract_behind hsplit (by simp), ← List.append_assoc]

/-- The place of an alignment is still free of marks. -/
def Spot.Fresh (pre : List Spot) : Prop :=
  ∀ us b vs, pre = us ++ b :: vs → b.line.isAlign = true → extent us < extent pre

/-- Padding a mark that stands at its spot anew changes the spot. -/
theorem Layout.alignMark_spread {p : Layout × Bool} {pre post : List Spot} {n g i : Nat}
    (h : p.1.Spread (pre ++ ⟨.align n, g⟩ :: post))
    (hmark : p.1.marks[i]? = some ⟨extent pre, n, g⟩) :
    (alignMark p i).1.Spread (pre ++ ⟨.align n, padding n (p.1.origin + extent pre)⟩ :: post) ∧
      p.1.Kin (alignMark p i).1 := by
  obtain ⟨l, changed⟩ := p
  have hget : l.marks.getD i default = ⟨extent pre, n, g⟩ := by
    rw [Array.getD_eq_getD_getElem?, hmark]
    rfl
  generalize hwant : padding n (l.origin + extent pre) = want
  dsimp only at h hwant ⊢
  simp only [alignMark, hget, hwant]
  split
  next heq => exact ⟨heq ▸ h, .refl l⟩
  next hne =>
  have hold : l.code.toList = pre.flatMap Spot.raw ++ List.replicate g 0 ++
      post.flatMap Spot.raw := by
    simp [h.code, raw_align]
  have hsize := size_align n g
  have hsize' := size_align n want
  refine ⟨⟨?_, ?_, ?_, ?_, ?_⟩, ⟨rfl, by simp [shift]⟩⟩
  · intro t ht
    rcases List.mem_append.1 ht with ht | ht
    · exact h.valid t (by simp [ht])
    · rcases List.mem_cons.1 ht with rfl | ht
      · exact h.valid ⟨.align n, g⟩ (by simp)
      · exact h.valid t (by simp [ht])
  · have := toList_repad want hold
    simp only [shift]
    rw [show extent pre = (pre.flatMap Spot.raw).length from rfl, this]
    simp [raw_align]
  · simp only [shift, Array.toList_map, h.fixups]
    rw [gather_fixup?_moved _ ⟨.align n, want⟩ _ _ h.valid (Nat.le_refl _) (by omega) (by omega),
      gather_append, gather, Nat.zero_add]
    simp [fixup?]
  · intro us b vs e label hb
    obtain ⟨us', vs', e', hmoved⟩ := label_moved ⟨.align n, g⟩ _ (extent pre)
      ((want : Int) - g) e hb (by simp) (Nat.le_refl _) (by omega) (by omega)
      (.inr ⟨rfl, rfl, rfl⟩)
    simp only [shift]
    rw [Array.getElem?_map, h.labels us' b vs' e' label hb, Option.map_some, hmoved]
  · have := h.trampolines
    simpa [isLong, shift] using this

/-- Padding a mark anew changes its spot. -/
theorem Layout.alignMark_lays {p : Layout × Bool} {pre post : List Spot} {n g : Nat}
    (h : p.1.Lays (pre ++ ⟨.align n, g⟩ :: post))
    (free : Fresh pre ∨ padding n (p.1.origin + extent pre) = g) :
    (alignMark p (gather mark? 0 pre).length).1.Lays
        (pre ++ ⟨.align n, padding n (p.1.origin + extent pre)⟩ :: post) ∧
      p.1.Kin (alignMark p (gather mark? 0 pre).length).1 := by
  have hmark : p.1.marks[(gather mark? 0 pre).length]? = some ⟨extent pre, n, g⟩ := by
    rw [← Array.getElem?_toList, h.marks, gather_append]
    simp [gather, mark?]
  obtain ⟨hspread, hkin⟩ := alignMark_spread h.spread hmark
  refine ⟨⟨hspread.valid, hspread.code, hspread.fixups, ?_, hspread.labels, hspread.trampolines⟩,
    hkin⟩
  obtain ⟨l, changed⟩ := p
  have hget : l.marks.getD (gather mark? 0 pre).length default = ⟨extent pre, n, g⟩ := by
    rw [Array.getD_eq_getD_getElem?, hmark]
    rfl
  generalize hwant : padding n (l.origin + extent pre) = want at free
  dsimp only at h hwant ⊢
  simp only [alignMark, hget, hwant]
  split
  next heq => exact heq ▸ h.marks
  next hne =>
  have fresh : Fresh pre := free.resolve_right hne
  have hsize := size_align n g
  have hsize' := size_align n want
  simp only [shift, Array.set!_eq_setIfInBounds, Array.toList_setIfInBounds,
    Array.toList_map, h.marks]
  rw [gather_mark?_moved _ ⟨.align n, want⟩ _ _ (by omega) (by omega) fresh, gather_append, gather,
    Nat.zero_add]
  simp [mark?]

/-- The first alignment that asks for the place behind some spots. -/
def Spot.askedBehind (pre : List Spot) : Option Nat := (pre.map Spot.line).foldl Line.asked none

theorem askedBehind_snoc (pre : List Spot) (s : Spot) :
    askedBehind (pre ++ [s]) = s.line.asked (askedBehind pre) := by
  simp [askedBehind]

theorem extent_pos_of_any {ss : List Spot} (h : (ss.map Spot.line).any Line.isSolid = true) :
    0 < extent ss := by
  have h' : ss.any Spot.isSolid = true := by simpa [Spot.isSolid] using h
  have := lead_lt_extent h'
  omega

theorem fresh_of_askedBehind {pre : List Spot} (h : askedBehind pre = none) : Fresh pre := by
  intro us b vs e hb
  obtain ⟨n, hn⟩ := Line.isAlign_iff.1 hb
  subst e
  simp only [askedBehind, List.map_append, List.map_cons, List.foldl_append, List.foldl_cons, hn,
    Line.asked] at h
  have := extent_pos_of_any (foldl_asked_some h)
  simp only [extent_append, extent_cons]
  omega

theorem size_eq_zero {s : Spot} (valid : s.line.IsValid) (hsolid : s.line.isSolid = false)
    (halign : s.line.isAlign = false) : s.size = 0 := by
  obtain ⟨line, grown⟩ := s
  cases line with
  | instr mn arg =>
    obtain ⟨code, -, hraw⟩ := raw_instr valid
    simp [Line.isSolid, hraw] at hsolid
  | align n => simp [Line.isAlign] at halign
  | data _ | word _ | bound _ => simpa [Line.isSolid, size, Spot.raw] using hsolid

theorem length_gather_mark? (pre : List Spot) (offset : Nat) :
    (gather mark? offset pre).length = pre.countP (·.line.isAlign) := by
  induction pre generalizing offset with
  | nil => rfl
  | cons s pre ih =>
    obtain ⟨line, grown⟩ := s
    cases line <;> simp [gather, mark?, ih, Line.isAlign]

/-- Padding mark after mark brings every alignment to its multiple. -/
theorem Layout.foldl_alignMark_lays (pre : List Spot) {ss : List Spot} {p q : Layout × Bool}
    (h : p.1.Lays (pre ++ ss))
    (largest : Line.LargestFirst (askedBehind pre) (ss.map Spot.line))
    (snug : Snug (askedBehind pre) (ss.map written))
    (placed : ∀ m ∈ askedBehind pre, (p.1.origin + extent pre) % m = 0)
    (hq : (List.range' (gather mark? 0 pre).length (ss.countP (·.line.isAlign))).foldl
      alignMark p = q) :
    ∃ ss', q.1.Lays (pre ++ ss') ∧ p.1.Kin q.1 ∧ ss'.map Spot.line = ss.map Spot.line ∧
      Snug (askedBehind pre) (ss'.map written) ∧ Aligned p.1.origin (extent pre) ss' := by
  induction ss generalizing pre p with
  | nil =>
    subst hq
    exact ⟨[], h, .refl p.1, rfl, snug, trivial⟩
  | cons s ss ih =>
    obtain ⟨line, g⟩ := s
    obtain ⟨hlargest, largest⟩ := largest
    obtain ⟨hsnug, snug⟩ := snug
    dsimp only at hlargest hsnug largest snug
    by_cases halign : line.isAlign = true
    · obtain ⟨n, rfl⟩ := Line.isAlign_iff.1 halign
      have hn : 0 < n := Nat.lt_of_succ_lt (h.valid ⟨.align n, g⟩ (by simp))
      -- a later alignment of the same place needs no padding and has none
      have hlater : ∀ m, askedBehind pre = some m →
          padding n (p.1.origin + extent pre) = 0 ∧ g = 0 := by
        intro m hm
        have hdvd := Nat.dvd_trans (hlargest n rfl m hm) (Nat.dvd_of_mod_eq_zero (placed m hm))
        refine ⟨padding_eq_zero (Nat.mod_eq_zero_of_dvd hdvd), ?_⟩
        simpa [Line.isAlign] using hsnug rfl (by simp [hm])
      have free : Fresh pre ∨ padding n (p.1.origin + extent pre) = g := by
        cases hm : askedBehind pre with
        | none => exact .inl (fresh_of_askedBehind hm)
        | some m => exact .inr ((hlater m hm).1.trans (hlater m hm).2.symm)
      obtain ⟨hlays, hkin⟩ := alignMark_lays h free
      have hspec := padding_spec (a := p.1.origin + extent pre) hn
      generalize padding n (p.1.origin + extent pre) = want at hlays hspec hlater
      have hbehind := askedBehind_snoc pre ⟨.align n, want⟩
      have hextent : extent (pre ++ [⟨.align n, want⟩]) = extent pre + want := by simp [size_align]
      have hplaced : ∀ m ∈ askedBehind (pre ++ [⟨.align n, want⟩]),
          (p.1.origin + extent (pre ++ [⟨.align n, want⟩])) % m = 0 := by
        intro m hm
        rw [hextent, ← Nat.add_assoc]
        cases hg : askedBehind pre with
        | none =>
          obtain rfl : n = m := by simpa [hbehind, hg, Line.asked] using hm
          exact hspec.1
        | some k =>
          obtain rfl : k = m := by simpa [hbehind, hg, Line.asked] using hm
          rw [(hlater k hg).1]
          exact placed k hg
      obtain ⟨ss', hlays', hkin', hlines, hsnug', haligned⟩ :=
        ih (pre ++ [⟨.align n, want⟩]) (by simpa using hlays) (by rw [hbehind]; exact largest)
          (by rw [hbehind]; exact snug) (by rw [hkin.origin]; exact hplaced)
          (by
            rw [← hq, gather_append]
            simp [gather, mark?, Line.isAlign, List.range'_succ])
      refine ⟨⟨.align n, want⟩ :: ss', by simpa using hlays', hkin.trans hkin',
        by simp [hlines], ⟨?_, by rw [hbehind] at hsnug'; exact hsnug'⟩, ?_, ?_⟩
      · intro _ hsome
        obtain ⟨m, hm⟩ := Option.isSome_iff_exists.1 hsome
        simp [Line.isAlign, (hlater m hm).1]
      · rintro n' ⟨⟩
        rw [size_align]
        exact hspec
      · rw [size_align, ← hextent, ← hkin.origin]
        exact haligned
    · have hmark : mark? (extent pre) ⟨line, g⟩ = none := mark?_of_not_align halign _
      have hbehind := askedBehind_snoc pre ⟨line, g⟩
      have hplaced : ∀ m ∈ askedBehind (pre ++ [⟨line, g⟩]),
          (p.1.origin + extent (pre ++ [⟨line, g⟩])) % m = 0 := by
        intro m hm
        rw [hbehind, Line.asked_of_not_align halign] at hm
        split at hm
        · cases hm
        next hsolid =>
          have hzero : Spot.size ⟨line, g⟩ = 0 := size_eq_zero (h.valid ⟨line, g⟩ (by simp))
            (by simpa using hsolid) (by simpa using halign)
          simpa [hzero] using placed m hm
      obtain ⟨ss', hlays', hkin', hlines, hsnug', haligned⟩ :=
        ih (pre ++ [⟨line, g⟩]) (by simpa using h) (by rw [hbehind]; exact largest)
          (by rw [hbehind]; exact snug) hplaced
          (by
            rw [← hq, gather_append]
            simp [gather, hmark, halign])
      refine ⟨⟨line, g⟩ :: ss', by simpa using hlays', hkin', by simp [hlines],
        ⟨fun ha => absurd ha halign, by rw [hbehind] at hsnug'; exact hsnug'⟩, ?_, ?_⟩
      · rintro n rfl
        exact absurd rfl halign
      · simpa using haligned

/-- What is written with a padding that the linker may have put in. -/
structure Spot.WellPadded (ws : List (Line × Nat)) : Prop where
  largest : Line.LargestFirst none (ws.map Prod.fst)
  snug : Snug none ws

theorem map_fst_written (ss : List Spot) : (ss.map written).map Prod.fst = ss.map Spot.line := by
  simp [written]

/-- Padding all marks brings every alignment to its multiple. -/
theorem Layout.alignAll_lays {l : Layout} {ss : List Spot} (h : l.Lays ss)
    (padded : WellPadded (ss.map written)) :
    ∃ ss', l.alignAll.1.Lays ss' ∧ l.Kin l.alignAll.1 ∧
      ss'.map Spot.line = ss.map Spot.line ∧ WellPadded (ss'.map written) ∧
      Aligned l.origin 0 ss' := by
  have hsize : l.marks.size = ss.countP (·.line.isAlign) := by
    rw [← Array.length_toList, h.marks, length_gather_mark?]
  have largest := padded.largest
  rw [map_fst_written] at largest
  obtain ⟨ss', hlays, hkin, hlines, hsnug, haligned⟩ :=
    foldl_alignMark_lays [] (p := (l, false)) h largest padded.snug nofun rfl
  have hall : l.alignAll = (List.range' (gather mark? 0 []).length
      (ss.countP (·.line.isAlign))).foldl alignMark (l, false) := by
    rw [alignAll, hsize, List.range_eq_range']
    rfl
  rw [← hall] at hlays hkin
  exact ⟨ss', hlays, hkin, hlines, ⟨by rw [map_fst_written, hlines]; exact largest, hsnug⟩,
    haligned⟩

/-- Laying a listing out keeps its lines and brings every alignment to its multiple. -/
theorem Layout.settle_lays {passes : Nat} {l l₀ l' : Layout} {ws : List (Line × Nat)}
    (h : l.Spells l₀ ws) (padded : WellPadded ws) (hl : settle passes l = .ok l') :
    ∃ ss, l'.Lays ss ∧ l₀.Kin l' ∧ ss.map Spot.line = ws.map Prod.fst ∧
      WellPadded (ss.map written) ∧ Aligned l'.origin 0 ss := by
  induction passes generalizing l ws with
  | zero => simp [settle] at hl
  | succ n ih =>
    rw [settle] at hl
    cases ht : l.trampoline with
    | error e => simp [ht, bind, Except.bind] at hl
    | ok l₁ =>
      obtain ⟨hkin, ss, hlays, rfl⟩ := trampoline_spells h ht
      obtain ⟨ss', hlays', hkin', hlines, padded', aligned⟩ := alignAll_lays hlays padded
      simp only [ht, bind, Except.bind] at hl
      split at hl
      · obtain ⟨ss'', hlays'', hkin'', hlines', rest⟩ :=
          ih ⟨hkin.trans hkin', ss', hlays', rfl⟩ padded' hl
        refine ⟨ss'', hlays'', hkin'', ?_, rest⟩
        rw [hlines', map_fst_written, map_fst_written, hlines]
      · obtain rfl := Except.ok.inj hl
        refine ⟨ss', hlays', hkin.trans hkin', by rw [map_fst_written, hlines], padded', ?_⟩
        rw [hkin'.origin]
        exact aligned

end Breadbin.Assembly
