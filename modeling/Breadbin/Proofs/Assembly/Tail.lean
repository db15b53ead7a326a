import Breadbin.Proofs.Assembly.Progress

/-!
# Images of code with data behind it

The marks of the data are padded in order, each once, and never again.  Where several stand at one
place the earlier ones move with what the later ones add, so the layout is no longer that of the
spots, but its code and its labels are.  An image of code with data behind it is therefore its
listing, wherever the powers of two that the data is put on come from.

A label of the data stands for what follows it, behind all the padding in between.  It stays on its
power of two: padding for another one skips no smaller multiple and a larger multiple is one of the
smaller.
-/

namespace Breadbin.Assembly

open Spot

/-! ## Padding what is not padded yet -/

/-- Marks that are gathered from another offset stand that much further on. -/
theorem gather_mark?_add (ss : List Spot) (offset shift : Nat) :
    gather mark? (offset + shift) ss = (gather mark? offset ss).map fun m =>
      { m with offset := m.offset + shift } := by
  refine (map_gather fun us b vs _ => ?_).symm
  obtain ⟨line, grown⟩ := b
  cases line with
  | align n =>
    show some _ = some _
    simp only [Option.some.injEq, AlignMark.mk.injEq, and_true]
    omega
  | instr _ _ | data _ | word _ | bound _ => rfl

theorem Spot.Aligned.append {origin offset : Nat} {xs ys : List Spot}
    (hx : Aligned origin offset xs)
    (hy : Aligned origin (offset + extent xs) ys) : Aligned origin offset (xs ++ ys) := by
  induction xs generalizing offset with
  | nil => simpa using hy
  | cons x xs ih =>
    refine ⟨hx.1, ih hx.2 ?_⟩
    rw [extent_cons, ← Nat.add_assoc] at hy
    exact hy

namespace Layout

/-- Padding mark after mark pads the spots of fresh marks one after the other. -/
theorem foldl_alignMark_spread (pre : List Spot) {ss : List Spot} {i : Nat} {p q : Layout × Bool}
    (h : p.1.Spread (pre ++ ss)) (hfresh : ∀ s ∈ ss, s.line.isAlign = true → s.grown = 0)
    (hmarks : ∀ (j : Nat) (m : AlignMark), (gather mark? (extent pre) ss)[j]? = some m →
      p.1.marks[i + j]? = some m)
    (hq : (List.range' i (ss.countP (·.line.isAlign))).foldl alignMark p = q) :
    ∃ ss', q.1.Spread (pre ++ ss') ∧ p.1.Kin q.1 ∧ ss'.map Spot.line = ss.map Spot.line ∧
      Aligned p.1.origin (extent pre) ss' := by
  induction ss generalizing pre i p with
  | nil =>
    subst hq
    exact ⟨[], h, .refl p.1, rfl, trivial⟩
  | cons s ss ih =>
    obtain ⟨line, g⟩ := s
    have hrest : ∀ t ∈ ss, t.line.isAlign = true → t.grown = 0 := fun t ht =>
      hfresh t (List.mem_cons_of_mem _ ht)
    by_cases halign : line.isAlign = true
    · obtain ⟨n, rfl⟩ := Line.isAlign_iff.1 halign
      obtain rfl : g = 0 := hfresh _ List.mem_cons_self rfl
      have hn : 0 < n := Nat.lt_of_succ_lt (h.valid ⟨.align n, 0⟩ (by simp))
      have hmark : p.1.marks[i]? = some ⟨extent pre, n, 0⟩ := hmarks 0 _ (by simp [gather, mark?])
      obtain ⟨hspread, hkin⟩ := alignMark_spread h hmark
      obtain ⟨want, hwant, hmoved, -⟩ := alignMark_eq p.2 hmark rfl
      rw [← hwant] at hspread
      have hspec := padding_spec (a := p.1.origin + extent pre) hn
      rw [← hwant] at hspec
      have hextent : extent (pre ++ [⟨.align n, want⟩]) = extent pre + want := by simp [size_align]
      -- the marks behind it move as their spots do
      have hmarks' : ∀ (j : Nat) (m : AlignMark),
          (gather mark? (extent (pre ++ [⟨.align n, want⟩])) ss)[j]? = some m →
            (alignMark p i).1.marks[i + 1 + j]? = some m := by
        intro j m hm
        rw [hextent, gather_mark?_add, List.getElem?_map, Option.map_eq_some_iff] at hm
        obtain ⟨m', hm', rfl⟩ := hm
        have hold : p.1.marks[i + 1 + j]? = some m' := by
          rw [Nat.add_assoc]
          exact hmarks (1 + j) m'
            (by rw [Nat.add_comm 1 j]; simpa [gather, mark?, size_align] using hm')
        have hbehind : extent pre ≤ m'.offset :=
          (pairwise_gather_mark? ss _).2 m' (List.mem_of_getElem? hm')
        rw [show alignMark p i = alignMark (p.1, p.2) i from rfl, hmoved, if_neg (by omega),
          hold, Option.map_some, moved_of_le hbehind rfl]
      obtain ⟨ss', hspread', hkin', hlines, haligned⟩ :=
        ih (pre ++ [⟨.align n, want⟩]) (by simpa using hspread) hrest hmarks' (by
          rw [← hq]
          simp [Line.isAlign, List.range'_succ])
      refine ⟨⟨.align n, want⟩ ::
        ss', by simpa using hspread', hkin.trans hkin', by simp [hlines], ?_, ?_⟩
      · rintro n' ⟨⟩
        rw [size_align]
        exact hspec
      · rw [size_align, ← hextent, ← hkin.origin]
        exact haligned
    · have hsize : extent (pre ++ [⟨line, g⟩]) = extent pre + Spot.size ⟨line, g⟩ := by simp
      obtain ⟨ss', hspread', hkin', hlines, haligned⟩ :=
        ih (pre ++ [⟨line, g⟩]) (by simpa using h) hrest
          (fun j m hm => hmarks j m (by
            rw [hsize] at hm
            simpa [gather, mark?_of_not_align (s := ⟨line, g⟩) halign] using hm))
          (by
            rw [← hq]
            simp [halign])
      refine ⟨⟨line, g⟩ :: ss', by simpa using hspread', hkin', by simp [hlines], ?_, ?_⟩
      · rintro n rfl
        exact absurd rfl halign
      · rw [← hsize]
        exact haligned

variable {l : Layout} {us vs : List Spot} {code data : List Line}

theorem Unpadded.not_align (h : l.Unpadded us vs code data) (hlines : Line.CodeThenData code data) :
    ∀ s ∈ us, s.line.isAlign = false := fun s hs =>
  hlines.unpadded s.line (h.code ▸ List.mem_map_of_mem hs)

/-- Padding the data brings each of its marks to its power of two. -/
theorem Unpadded.alignAll (h : l.Unpadded us vs code data) (hlines : Line.CodeThenData code data) :
    ∃ vs', l.alignAll.1.Spread (us ++ vs') ∧ l.Kin l.alignAll.1 ∧ vs'.map Spot.line = data ∧
      Aligned l.origin (extent us) vs' := by
  have hplain := h.not_align hlines
  have hnone : gather mark? 0 us = [] := by
    refine List.eq_nil_of_length_eq_zero ?_
    rw [length_gather_mark?, List.countP_eq_zero]
    exact fun s hs => by simp [hplain s hs]
  have hmarks : l.marks.toList = gather mark? (extent us) vs := by
    rw [h.lays.marks, gather_append, hnone, Nat.zero_add, List.nil_append]
  have hsize : l.marks.size = vs.countP (·.line.isAlign) := by
    rw [← Array.length_toList, hmarks, length_gather_mark?]
  obtain ⟨vs', hspread, hkin, hdata, haligned⟩ :=
    foldl_alignMark_spread us (i := 0) (p := (l, false)) h.lays.spread h.zero
      (fun j m hm => by rw [Nat.zero_add, ← Array.getElem?_toList, hmarks, hm]) rfl
  rw [← hsize, ← List.range_eq_range'] at hspread hkin
  exact ⟨vs', hspread, hkin, hdata.trans h.data, haligned⟩

end Layout

/-- The addresses of the labels in the settled layout. -/
def Stream.addresses (s : Stream) (origin : UInt16) : Addresses :=
  match (Layout.ofStream s origin).settle Layout.maxPasses with
  | .ok l => l.addresses
  | .error _ => fun _ => 0

/-- The image of code with data behind it is its listing, however the lines of the stream are told
apart. -/
theorem Stream.Shows.link_tail {s : Stream} {L : Listing} {origin : UInt16} {image : Image}
    {code data : List Line}
    (h : s.Shows L) (hL : L.lines = code ++ data) (hlines : Line.CodeThenData code data)
    (hlink : s.link origin = .ok image) :
    ∃ ps, L.Linked image (s.addresses origin) ps ∧ image.origin = origin := by
  obtain ⟨-, hresolved, settled, l'', found, hsettle, hpatch, hsymbols, rfl⟩ := Stream.link_eq hlink
  have hfits := h.settle_fits hL hlines origin
  rw [hsettle] at hfits
  obtain ⟨-, l, us, vs, hunpadded, hkin, rfl⟩ := hfits
  obtain ⟨vs', hspread, hkin', hdata, haligned⟩ := hunpadded.alignAll hlines
  have hplain := aligned_of_not_align (hunpadded.not_align hlines) l.alignAll.1.origin 0
  rw [← hkin'.origin] at haligned
  obtain ⟨ps, hlinked, -, -⟩ := h.patched hresolved hspread (hkin.trans hkin')
    (by rw [List.map_append, hunpadded.code, hdata, hL])
      (hplain.append (by rwa [Nat.zero_add])) hpatch hsymbols
  have haddresses : s.addresses origin = l.alignAll.1.addresses := by
    unfold Stream.addresses
    rw [hsettle]
  rw [haddresses]
  exact ⟨ps, hlinked, rfl⟩

/-! ## Rows of data -/

/-- Bytes with a label in front of them, to be put on a multiple of a number; 0 and 1 ask for
none. -/
structure Row where
  multiple : Nat
  label : LabelId
  bytes : List UInt8
  deriving DecidableEq, Repr

/-- The lines that a row is written as. -/
def Row.lines (r : Row) : List Line :=
  (if r.multiple ≤ 1 then [] else [.align r.multiple]) ++ [.bound r.label, .data r.bytes]

/-- The operations that write a row. -/
def Row.actions (r : Row) : List Action :=
  [.align (UInt16.ofNat r.multiple), .bind r.label, .data r.bytes]

/-- A row that can be written is put on a power of two, if on anything. -/
def Row.Valid (r : Row) : Prop := 1 < r.multiple → ∃ k, r.multiple = 2 ^ k

/-- A number without a bit in common with the one before it is a power of two. -/
theorem power_of_and_eq_zero {n : UInt16} (hn : ¬n ≤ 1) (h : n &&& (n - 1) = 0) :
    ∃ k, n.toNat = 2 ^ k := by
  have hone : (1 : UInt16).toNat = 1 := rfl
  have hmore : 1 < n.toNat := by
    rwa [UInt16.le_iff_toNat_le, hone, Nat.not_le] at hn
  have hpred : (n - 1).toNat = n.toNat - 1 := by
    have := n.toNat_lt
    rw [UInt16.toNat_sub, hone]
    omega
  refine (Nat.and_sub_one_eq_zero_iff_isPowerOfTwo (by omega)).1 ?_
  rw [← hpred, ← UInt16.toNat_and, h]
  rfl

namespace Row

variable {rows : List Row}

theorem toNat_multiple {r : Row} (hsmall : r.multiple < 65536) :
    (UInt16.ofNat r.multiple).toNat = r.multiple := by
  rw [UInt16.toNat_ofNat', Nat.mod_eq_of_lt hsmall]

theorem multiple_le_one {r : Row} (hsmall : r.multiple < 65536) :
    UInt16.ofNat r.multiple ≤ 1 ↔ r.multiple ≤ 1 := by
  rw [UInt16.le_iff_toNat_le, toNat_multiple hsmall]
  rfl

/-- The lines of a row are its alignment, if it has one, its label and its bytes. -/
theorem mem_lines {r : Row} {line : Line} (h : line ∈ r.lines) :
    line = .align r.multiple ∧ 1 < r.multiple ∨ line = .bound r.label ∨ line = .data r.bytes := by
  unfold lines at h
  split at h
  · exact .inr (by simpa using h)
  next hmore => simpa [Nat.lt_of_not_le hmore] using h

/-- The operations of rows write their lines. -/
theorem foldl_add (hsmall : ∀ r ∈ rows, r.multiple < 65536) (L : Listing) :
    (rows.flatMap actions).foldl Listing.add L = ⟨L.names, L.lines ++ rows.flatMap lines⟩ := by
  induction rows generalizing L with
  | nil => simp
  | cons r rows ih =>
    obtain ⟨hr, hsmall⟩ := List.forall_mem_cons.1 hsmall
    have hadded : r.actions.foldl Listing.add L = ⟨L.names, L.lines ++ r.lines⟩ := by
      simp only [actions, List.foldl_cons, List.foldl_nil, Listing.add, Action.names,
        Action.lines, lines, multiple_le_one hr, toNat_multiple hr]
      simp
    rw [List.flatMap_cons, List.foldl_append, hadded, ih hsmall]
    simp

/-- A row that is written without an error is valid. -/
theorem valid_of_error {s : Stream} {r : Row} (hsmall : r.multiple < 65536)
    (ok : (r.actions.foldl Action.perform s).error = none) : r.Valid := by
  intro hmore
  have haligned : (s.align (UInt16.ofNat r.multiple)).error = none :=
    Action.error_of_perform (a := .bind r.label) (Action.error_of_perform (a := .data r.bytes) ok)
  have hs : s.error = none :=
    Action.error_of_perform (a := .align (UInt16.ofNat r.multiple)) haligned
  have hlarge : ¬UInt16.ofNat r.multiple ≤ 1 := by
    rw [multiple_le_one hsmall]
    omega
  rw [← toNat_multiple hsmall]
  refine power_of_and_eq_zero hlarge ?_
  by_contra hbits
  simp only [Stream.align, hs, if_neg hlarge] at haligned
  rw [if_pos hbits] at haligned
  exact Stream.error_of_fail haligned

theorem all_valid_of_error {s : Stream} (hsmall : ∀ r ∈ rows, r.multiple < 65536)
    (ok : ((rows.flatMap actions).foldl Action.perform s).error = none) : ∀ r ∈ rows, r.Valid := by
  induction rows generalizing s with
  | nil => simp
  | cons r rows ih =>
    rw [List.flatMap_cons, List.foldl_append] at ok
    obtain ⟨hr, hsmall⟩ := List.forall_mem_cons.1 hsmall
    exact List.forall_mem_cons.2 ⟨valid_of_error hr (foldl_perform_error ok), ih hsmall ok⟩

theorem labels_lines (rows : List Row) :
    (rows.flatMap lines).filterMap Line.label? = rows.map label := by
  induction rows with
  | nil => rfl
  | cons r rows ih =>
    have hone : r.lines.filterMap Line.label? = [r.label] := by
      unfold lines
      split <;> rfl
    rw [List.flatMap_cons, List.filterMap_append, hone, ih]
    rfl

end Row

/-- Rows stand one behind the other from an address on, each at the address of its label and on its
multiple, with nothing but zeros in between. -/
inductive Row.Stand (env : Addresses) : Nat → List Row → List UInt8 → Prop where
  | none (a : Nat) : Stand env a [] []
  | row {a : Nat} {r : Row} {rows : List Row} {rest : List UInt8} (zeros : Nat)
      (place : env r.label = a + zeros)
      (multiple : 1 < r.multiple → r.multiple ∣ env r.label)
      (behind : Stand env (env r.label + r.bytes.length) rows rest) :
      Stand env a (r :: rows) (List.replicate zeros 0 ++ (r.bytes ++ rest))

namespace Row.Stand

variable {env : Addresses} {a : Nat} {rows : List Row} {bytes : List UInt8}

/-- More zeros in front of rows. -/
theorem zeros {n : Nat} (h : Row.Stand env (a + n) rows bytes) (hrows : rows = [] → n = 0) :
    Row.Stand env a rows (List.replicate n 0 ++ bytes) := by
  cases h with
  | none =>
    rw [hrows rfl]
    exact .none a
  | row zeros place multiple behind =>
    rw [← List.append_assoc, List.replicate_append_replicate]
    exact .row (n + zeros) (by omega) multiple behind

/-- Each row lies at the address of its label. -/
theorem lies (h : Row.Stand env a rows bytes) :
    ∀ r ∈ rows, (1 < r.multiple → r.multiple ∣ env r.label) ∧
    ∃ front back, bytes = front ++ r.bytes ++ back ∧ env r.label = a + front.length := by
  induction h with
  | none => simp
  | @row a r rows rest zeros place multiple behind ih =>
    intro r' hr'
    rcases List.mem_cons.1 hr' with rfl | hr'
    · exact ⟨multiple, List.replicate zeros 0, rest, by simp, by simp [place]⟩
    · obtain ⟨hmultiple, front, back, hbytes, hplace⟩ := ih r' hr'
      refine ⟨hmultiple, List.replicate zeros 0 ++ (r.bytes ++ front), back, by simp [hbytes], ?_⟩
      simp only [List.length_append, List.length_replicate]
      omega

theorem from_le (h : Row.Stand env a rows bytes) : ∀ r ∈ rows, a ≤ env r.label := by
  intro r hr
  obtain ⟨-, front, -, -, hplace⟩ := h.lies r hr
  omega

/-- No row reaches into a later one. -/
theorem apart (h : Row.Stand env a rows bytes) :
    rows.Pairwise fun r r' => env r.label + r.bytes.length ≤ env r'.label := by
  induction h with
  | none => exact .nil
  | row zeros place multiple behind ih => exact List.pairwise_cons.2 ⟨behind.from_le, ih⟩

end Row.Stand

/-- Padding for one power of two keeps a place on any other. -/
theorem padded_dvd {a zeros k m : Nat} (hdvd : 2 ^ k ∣ a) (hmultiple : (a + zeros) % 2 ^ m = 0)
    (hleast : zeros < 2 ^ m) : 2 ^ k ∣ a + zeros := by
  rcases Nat.le_total k m with hle | hle
  · exact Nat.dvd_trans (Nat.pow_dvd_pow 2 hle) (Nat.dvd_of_mod_eq_zero hmultiple)
  · have hall : 2 ^ m ∣ a := Nat.dvd_trans (Nat.pow_dvd_pow 2 hle) hdvd
    have hzeros : 2 ^ m ∣ zeros := (Nat.dvd_add_right hall).1 (Nat.dvd_of_mod_eq_zero hmultiple)
    rwa [Nat.eq_zero_of_dvd_of_lt hzeros hleast]

namespace Placement

variable {env : Addresses} {a : Nat} {ps : List Placement}

theorem Assembled.behind {pre post : List Placement} (h : Assembled env a (pre ++ post)) :
    Assembled env (a + size pre) post := by
  induction pre generalizing a with
  | nil => exact h
  | cons p pre ih => simpa [Nat.add_assoc] using ih h.2.2

/-- A row that is assembled: its padding, then its label, then its bytes. -/
theorem Assembled.row {r : Row} {rest : List Line} (h : Assembled env a ps)
    (hlines : ps.map Placement.line = r.lines ++ rest) :
    ∃ zeros qs, ps.flatMap Placement.bytes = List.replicate zeros 0 ++
      (r.bytes ++ qs.flatMap Placement.bytes) ∧
      qs.map Placement.line = rest ∧ Assembled env (a + zeros + r.bytes.length) qs ∧
      gap ps = zeros + (if r.bytes = [] then gap qs else 0) ∧
      env r.label = a + zeros + (if r.bytes = [] then gap qs else 0) ∧
      (if r.multiple ≤ 1 then zeros = 0 else (a + zeros) % r.multiple = 0 ∧
        zeros < r.multiple) := by
  have hplain (b : Nat) (ps : List Placement) (h : Assembled env b ps)
      (hlines : ps.map Placement.line = [.bound r.label, .data r.bytes] ++ rest) :
      ∃ qs, ps.flatMap Placement.bytes = r.bytes ++ qs.flatMap Placement.bytes ∧
        qs.map Placement.line = rest ∧
        Assembled env (b + r.bytes.length) qs ∧ gap ps = (if r.bytes = [] then gap qs else 0) ∧
        env r.label = b + (if r.bytes = [] then gap qs else 0) := by
    obtain ⟨p, ps, rfl, hp, hlines⟩ := List.map_eq_cons_iff.1 hlines
    obtain ⟨q, qs, rfl, hq, hqs⟩ := List.map_eq_cons_iff.1 hlines
    obtain ⟨hbound, hplace, hdata, -, hrest⟩ := h
    rw [hp] at hbound
    rw [hq] at hdata
    have hplace := hplace _ hp
    cases hpb : p.bytes with
    | cons b bs => rw [hpb] at hbound; cases hbound
    | nil =>
    have hqb : q.bytes = r.bytes := by
      generalize q.bytes = bytes at hdata ⊢
      cases hdata
      rfl
    have hgap : gap (q :: qs) = if r.bytes = [] then gap qs else 0 := by
      rw [gap, hq, hqb]
      by_cases hempty : r.bytes = [] <;> simp [Line.isSolid, Line.raw, hempty]
    refine ⟨qs, by simp [hpb, hqb], hqs, by simpa [hpb, hqb] using hrest, ?_, by rw [hplace, hgap]⟩
    rw [gap, hp, hpb, hgap]
    simp [Line.isSolid, Line.raw]
  unfold Row.lines at hlines
  by_cases hone : r.multiple ≤ 1
  · rw [if_pos hone, List.nil_append] at hlines
    obtain ⟨qs, hbytes, hqs, hrest, hgap, hplace⟩ := hplain a ps h hlines
    exact ⟨0, qs, by
      simpa using hbytes, hqs, by simpa using hrest, by simpa using hgap, by simpa using hplace,
      by rw [if_pos hone]⟩
  · rw [if_neg hone] at hlines
    obtain ⟨p, ps, rfl, hp, hlines⟩ := List.map_eq_cons_iff.1 hlines
    obtain ⟨hpad, -, hbehind⟩ := h
    rw [hp] at hpad
    generalize hpb : p.bytes = padding at hpad hbehind
    cases hpad with
    | @align _ zeros multiple least =>
    rw [List.length_replicate] at hbehind
    obtain ⟨qs, hbytes, hqs, hrest, hgap, hplace⟩ := hplain (a + zeros) ps hbehind hlines
    refine ⟨zeros, qs, by
      simp [hpb, hbytes], hqs, hrest, ?_, hplace, by rw [if_neg hone]; exact ⟨multiple, least⟩⟩
    rw [gap, hp, hpb, hgap]
    simp [Line.isSolid, Line.raw]

/-- Rows that are assembled stand behind the padding in front of the first byte that is none. -/
theorem Assembled.stand {rows : List Row} (h : Assembled env a ps)
    (hlines : ps.map Placement.line = rows.flatMap Row.lines)
    (hpowers : ∀ r ∈ rows, r.Valid) :
    (∃ bytes, ps.flatMap Placement.bytes = List.replicate (gap ps) 0 ++ bytes ∧
      Row.Stand env (a + gap ps) rows bytes) ∧ ∀ k, 2 ^ k ∣ a → 2 ^ k ∣ a + gap ps := by
  induction rows generalizing a ps with
  | nil =>
    obtain rfl : ps = [] := by simpa using hlines
    exact ⟨⟨[], rfl, .none _⟩, fun k hk => hk⟩
  | cons r rows ih =>
    obtain ⟨hpower, hpowers⟩ := List.forall_mem_cons.1 hpowers
    have hlines : ps.map Placement.line = r.lines ++ rows.flatMap Row.lines := hlines
    obtain ⟨zeros, qs, hbytes, hqs, hrest, hgap, hplace, hpadded⟩ := h.row hlines
    obtain ⟨⟨rest, hrestBytes, hstand⟩, hkeeps⟩ := ih hrest hqs hpowers
    have hpad (k : Nat) (hk : 2 ^ k ∣ a) : 2 ^ k ∣ a + zeros := by
      by_cases hone : r.multiple ≤ 1
      · rw [if_pos hone] at hpadded
        rwa [hpadded]
      · rw [if_neg hone] at hpadded
        obtain ⟨m, hm⟩ := hpower (by omega)
        rw [hm] at hpadded
        exact padded_dvd hk hpadded.1 hpadded.2
    have hown (hmore : 1 < r.multiple) : ∃ k, r.multiple = 2 ^ k ∧ 2 ^ k ∣ a + zeros := by
      obtain ⟨k, hk⟩ := hpower hmore
      rw [if_neg (by omega)] at hpadded
      exact ⟨k, hk, hk ▸ Nat.dvd_of_mod_eq_zero hpadded.1⟩
    by_cases hempty : r.bytes = []
    · -- a row without bytes stands behind the padding of the next one with bytes
      rw [if_pos hempty] at hgap hplace
      simp only [hempty, List.length_nil, Nat.add_zero, List.nil_append] at hstand hkeeps hbytes
      have hat : a + gap ps = a + zeros + gap qs := by omega
      refine ⟨⟨rest, ?_, ?_⟩, fun k hk => hat ▸ hkeeps k (hpad k hk)⟩
      · rw [hbytes, hrestBytes, ← List.append_assoc, List.replicate_append_replicate, hgap]
      · have hrow : Row.Stand env (a + gap ps) (r :: rows)
            (List.replicate 0 0 ++ (r.bytes ++ rest)) := by
          refine .row 0 (by omega) (fun hmore => ?_) ?_
          · obtain ⟨k, hk, hdvd⟩ := hown hmore
            rw [hk, hplace]
            exact hkeeps k hdvd
          · rw [hempty, hplace]
            exact hstand
        simpa [hempty] using hrow
    · rw [if_neg hempty, Nat.add_zero] at hgap hplace
      have hbehind : Row.Stand env (a + zeros + r.bytes.length) rows
          (qs.flatMap Placement.bytes) := by
        rw [hrestBytes]
        refine hstand.zeros fun hnone => ?_
        subst hnone
        obtain rfl : qs = [] := by simpa using hqs
        rfl
      refine ⟨⟨r.bytes ++ qs.flatMap Placement.bytes, hgap ▸ hbytes, ?_⟩,
        fun k hk => hgap ▸ hpad k hk⟩
      rw [hgap]
      refine .row (r := r) 0 hplace (fun hmore => ?_) (hplace ▸ hbehind)
      obtain ⟨k, hk, hdvd⟩ := hown hmore
      rw [hk, hplace]
      exact hdvd

end Placement

/-- In the image of a listing that ends with rows they stand behind everything else. -/
theorem Listing.Linked.rows {L : Listing} {image : Image} {env : Addresses} {ps : List Placement}
    {front : List Line}
    {rows : List Row} (h : L.Linked image env ps)
    (hlines : L.lines = front ++ rows.flatMap Row.lines) (hvalid : ∀ r ∈ rows, r.Valid) :
    ∃ pre post, ps = pre ++ post ∧ pre.map Placement.line = front ∧
      Row.Stand env (image.origin.toNat + Placement.size pre) rows
        (post.flatMap Placement.bytes) := by
  obtain ⟨pre, post, rfl, hpre, hpost⟩ := List.map_eq_append_iff.1 (h.lines.trans hlines)
  obtain ⟨⟨bytes, hbytes, hstand⟩, -⟩ := h.assembled.behind.stand hpost hvalid
  refine ⟨pre, post, rfl, hpre, ?_⟩
  rw [hbytes]
  refine hstand.zeros fun hnone => ?_
  subst hnone
  obtain rfl : post = [] := by simpa using hpost
  rfl

end Breadbin.Assembly
