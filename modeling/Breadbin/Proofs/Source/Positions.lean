import Mathlib.Algebra.Group.Nat.Defs
import Mathlib.Data.List.DropRight
import Breadbin.Source.FileSet

/-!
# Lines and columns

A source is cut at an offset: its line is one more than the line feeds in front of the cut, its
column one more than the bytes behind the last of them, and the text of the line is what stands on
both sides of the cut as far as the nearest line feeds.  The list of line ends gives all of these,
since it is cut into the ends in front and those behind.  So the places of a source are in the order
of its bytes.
-/

namespace Breadbin

/-! ## Line feeds -/

/-- A byte that ends no line. -/
def staysInLine (b : UInt8) : Bool := b != 0x0A

/-- The offsets of the line feeds among bytes, the first of which stands at `n`. -/
def feeds (n : Nat) : Bytes → List Nat
  | [] => []
  | b :: bs => if b == 0x0A then n :: feeds (n + 1) bs else feeds (n + 1) bs

theorem lineEndsFrom_eq (content : Bytes) :
    lineEndsFrom content = (feeds 0 content).map UInt32.ofNat := by
  have hfold (bs : Bytes) (n : Nat) (ends : List UInt32) :
      (bs.foldl (fun (acc : Nat × List UInt32) b =>
        (acc.1 + 1, if b == 0x0A then UInt32.ofNat acc.1 :: acc.2 else acc.2)) (n,
        ends)).2.reverse =
      ends.reverse ++ (feeds n bs).map UInt32.ofNat := by
    induction bs generalizing n ends with
    | nil => simp [feeds]
    | cons b bs ih =>
      rw [List.foldl_cons, ih, feeds]
      split <;> simp
  exact hfold content 0 []

theorem feeds_append (n : Nat) (xs ys : Bytes) :
    feeds n (xs ++ ys) = feeds n xs ++ feeds (n + xs.length) ys := by
  induction xs generalizing n with
  | nil => rfl
  | cons b xs ih =>
    rw [List.cons_append, feeds, feeds, ih, List.length_cons,
      Nat.add_right_comm n 1, ← Nat.add_assoc]
    split <;> rfl

theorem feeds_bounds {n e : Nat} {xs : Bytes} (h : e ∈ feeds n xs) : n ≤ e ∧ e < n + xs.length := by
  induction xs generalizing n with
  | nil => cases h
  | cons b xs ih =>
    rw [List.length_cons]
    rw [feeds] at h
    split at h
    · rcases List.mem_cons.1 h with rfl | h
      · omega
      · have := ih h
        omega
    · have := ih h
      omega

theorem length_feeds (n : Nat) (xs : Bytes) : (feeds n xs).length = xs.count 0x0A := by
  induction xs generalizing n with
  | nil => rfl
  | cons b xs ih =>
    rw [feeds, List.count_cons]
    split <;> simp [ih]

/-- The first line feed stands behind the bytes up to it. -/
theorem head?_feeds (n : Nat) (xs : Bytes) :
    (feeds n xs).head?.getD (n + xs.length) = n + (xs.takeWhile staysInLine).length := by
  induction xs generalizing n with
  | nil => rfl
  | cons b xs ih =>
    rw [feeds, List.takeWhile_cons, staysInLine, bne]
    cases b == 0x0A with
    | true => rfl
    | false =>
      have hnext := ih (n + 1)
      simp only [Bool.not_false, Bool.false_eq_true, if_false, if_true, List.length_cons] at hnext ⊢
      rw [Nat.add_right_comm n 1, Nat.add_assoc] at hnext
      rw [hnext]
      omega

/-- The bytes behind the last line feed are the rest from there. -/
theorem getLast?_feeds (xs : Bytes) :
    ((feeds 0 xs).getLast?.map (· + 1)).getD 0 + (xs.rtakeWhile staysInLine).length =
      xs.length := by
  induction xs using List.reverseRecOn with
  | nil => rfl
  | append_singleton xs b ih =>
    rw [feeds_append, Nat.zero_add, feeds, feeds, List.rtakeWhile_concat, staysInLine, bne,
      List.length_append]
    cases b == 0x0A with
    | true => simp
    | false =>
      simp only [Bool.not_false, Bool.false_eq_true, if_false, if_true, List.append_nil,
        List.length_append]
      omega

/-! ## Cutting a source -/

/-- The number of the line an offset lies in. -/
def lineNumber (content : Bytes) (offset : Nat) : Nat := 1 + (content.take offset).count 0x0A

/-- What stands in front of an offset in its line. -/
def lineFront (content : Bytes) (offset : Nat) : Bytes :=
  (content.take offset).rtakeWhile staysInLine

/-- What stands from an offset on in its line. -/
def lineBack (content : Bytes) (offset : Nat) : Bytes := (content.drop offset).takeWhile staysInLine

/-- The offset of the first byte of the line an offset lies in. -/
def lineStart (content : Bytes) (offset : Nat) : Nat := offset - (lineFront content offset).length

/-- The column of an offset. -/
def columnNumber (content : Bytes) (offset : Nat) : Nat := 1 + (offset - lineStart content offset)

/-- A tab is shown as a space. -/
def spaced (b : UInt8) : UInt8 := if b == 0x09 then 0x20 else b

section Cut

variable {content : Bytes} {offset : Nat}

/-- The ends of all lines are those in front of an offset and those from there on. -/
theorem feeds_cut (h : offset ≤ content.length) :
    feeds 0 content = feeds 0 (content.take offset) ++ feeds offset (content.drop offset) := by
  have hsplit := feeds_append 0 (content.take offset) (content.drop offset)
  rwa [List.take_append_drop, List.length_take, Nat.min_eq_left h, Nat.zero_add] at hsplit

/-- The line ends in front of an offset are those that are less. -/
theorem takeWhile_lineEnds {off : UInt32} (hsize : content.length < 2 ^ 32)
    (h : off.toNat ≤ content.length) :
    (lineEndsFrom content).takeWhile (· < off) = (feeds 0 (content.take off.toNat)).map
      UInt32.ofNat := by
  have hoff := off.toNat_lt
  rw [lineEndsFrom_eq, feeds_cut h, List.map_append, List.takeWhile_append_of_pos,
    List.takeWhile_eq_nil_iff.2, List.append_nil]
  · intro hsome
    rw [List.get_eq_getElem, List.getElem_map, decide_eq_true_eq, UInt32.lt_iff_toNat_lt,
      UInt32.toNat_ofNat']
    rw [List.length_map] at hsome
    have := feeds_bounds (List.getElem_mem hsome)
    rw [List.length_drop] at this
    dsimp only
    omega
  · intro e he
    obtain ⟨n, hn, rfl⟩ := List.mem_map.1 he
    have := feeds_bounds hn
    rw [List.length_take] at this
    rw [decide_eq_true_eq, UInt32.lt_iff_toNat_lt, UInt32.toNat_ofNat']
    omega

theorem length_lineFront_le (h : offset ≤ content.length) :
    (lineFront content offset).length ≤ offset := by
  have hle := (List.rtakeWhile_suffix staysInLine (content.take offset)).length_le
  rwa [List.length_take, Nat.min_eq_left h] at hle

theorem columnNumber_eq (h : offset ≤ content.length) :
    columnNumber content offset = 1 + (lineFront content offset).length := by
  have := length_lineFront_le h
  unfold columnNumber lineStart
  omega

theorem lineNumber_le (content : Bytes) (offset : Nat) :
    lineNumber content offset ≤ 1 + offset := by
  have hcount := List.count_le_length (a := (0x0A : UInt8)) (l := content.take offset)
  rw [List.length_take] at hcount
  unfold lineNumber
  omega

/-- The line feed in front of an offset stands in front of its line. -/
theorem lineStart_eq (h : offset ≤ content.length) :
    ((feeds 0 (content.take offset)).getLast?.map (· + 1)).getD 0 = lineStart content offset := by
  have hlast := getLast?_feeds (content.take offset)
  rw [List.length_take, Nat.min_eq_left h] at hlast
  unfold lineStart lineFront
  omega

/-- The line and the column, as far as 32 bits go. -/
theorem ofOffset_eq {off : UInt32} (hsize : content.length < 2 ^ 32)
    (h : off.toNat ≤ content.length) :
    LineColumn.ofOffset (lineEndsFrom content) off =
      ⟨UInt32.ofNat (lineNumber content off.toNat),
        UInt32.ofNat (columnNumber content off.toNat)⟩ := by
  have hstart : (((feeds 0 (content.take off.toNat)).map UInt32.ofNat).getLast?.map (· + 1)).getD
      0 =
      UInt32.ofNat (lineStart content off.toNat) := by
    rw [← lineStart_eq h, List.getLast?_map]
    cases (feeds 0 (content.take off.toNat)).getLast? with
    | none => rfl
    | some e => exact (UInt32.ofNat_add e 1).symm
  unfold LineColumn.ofOffset
  rw [takeWhile_lineEnds hsize h]
  dsimp only
  rw [hstart, List.length_map, length_feeds, lineNumber, Nat.add_comm 1]
  congr 1
  rw [← UInt32.toNat_inj, columnNumber]
  have := off.toNat_lt
  have : lineStart content off.toNat ≤ off.toNat := Nat.sub_le _ _
  rw [UInt32.toNat_add, UInt32.toNat_sub, UInt32.toNat_ofNat',
    UInt32.toNat_ofNat', UInt32.toNat_one]
  omega

/-- The places of offsets are in their order. -/
theorem place_lt {offset' : Nat} (hlt : offset < offset') (h : offset' ≤ content.length) :
    lineNumber content offset < lineNumber content offset' ∨
      lineNumber content offset = lineNumber content offset' ∧
        columnNumber content offset < columnNumber content offset' := by
  let between := (content.drop offset).take (offset' - offset)
  have hlength : between.length = offset' - offset := by
    rw [List.length_take, List.length_drop]
    omega
  have hsplit : content.take offset' = content.take offset ++ between := by
    rw [← List.take_add, Nat.add_sub_cancel' hlt.le]
  rw [columnNumber_eq (by omega), columnNumber_eq h]
  unfold lineNumber lineFront
  rw [hsplit, List.count_append]
  by_cases hfeed : 0x0A ∈ between
  · have := List.count_pos_iff.2 hfeed
    left
    omega
  · have hstays : ∀ b ∈ between.reverse, staysInLine b = true := fun b hb =>
      bne_iff_ne.2 fun heq => hfeed (heq ▸ List.mem_reverse.1 hb)
    right
    rw [List.count_eq_zero_of_not_mem hfeed, List.rtakeWhile, List.rtakeWhile, List.reverse_append,
      List.takeWhile_append_of_pos hstays, List.length_reverse, List.length_reverse,
      List.length_append, List.length_reverse]
    omega

/-- What stands around an offset is a piece of the source that starts with the line. -/
theorem take_drop_lineStart (h : offset ≤ content.length) :
    (content.drop (lineStart content offset)).take
      (offset + (lineBack content offset).length - lineStart content offset) =
      lineFront content offset ++ lineBack content offset := by
  obtain ⟨pre, hpre⟩ : ∃ pre, pre ++ lineFront content offset = content.take offset :=
    List.rtakeWhile_suffix _ _
  have hlength := congrArg List.length hpre
  rw [List.length_append, List.length_take, Nat.min_eq_left h] at hlength
  have hstart : lineStart content offset = pre.length := by
    unfold lineStart
    omega
  have hwidth : offset + (lineBack content offset).length - pre.length =
      (lineFront content offset ++ lineBack content offset).length := by
    rw [List.length_append]
    omega
  rw [hstart, hwidth]
  calc (content.drop pre.length).take (lineFront content offset ++ lineBack content offset).length
      = ((content.take offset ++ content.drop offset).drop pre.length).take
          (lineFront content offset ++ lineBack content offset).length := by
            rw [List.take_append_drop]
    _ = (lineFront content offset ++ content.drop offset).take
          (lineFront content offset ++ lineBack content offset).length := by
        rw [← hpre, List.append_assoc, List.drop_left]
    _ = lineFront content offset ++ lineBack content offset := by
        rw [← List.takeWhile_append_dropWhile (p := staysInLine)
          (l := content.drop offset), ← List.append_assoc]
        exact List.take_left

end Cut

/-! ## Sources -/

/-- The list of line ends is that of the content. -/
def SourceFile.Indexed (f : SourceFile) : Prop := f.lineEnds = lineEndsFrom f.content

theorem SourceFile.indexed_ofMemory (path : String) (content : Bytes) :
    (ofMemory path content).Indexed := rfl

theorem SourceFile.indexed_ofStored (path : String) (raw : Bytes) :
    (ofStored path raw).Indexed := by
  unfold ofStored
  split
  rfl

/-- The line and the column of an offset fit 32 bits. -/
def PlaceFits (content : Bytes) (offset : Nat) : Prop :=
  lineNumber content offset < 2 ^ 32 ∧ columnNumber content offset < 2 ^ 32

section Sources

variable {f : SourceFile} {offset : Nat}

/-- A line is what stands on both sides of any offset in it. -/
theorem lineBytes_lineNumber (hindexed : f.Indexed) (hsize : f.content.length < 2 ^ 32)
    (h : offset ≤ f.content.length) :
    f.lineBytes (lineNumber f.content offset) =
      (lineFront f.content offset ++ lineBack f.content offset).map spaced := by
  have hends : f.lineEnds.map UInt32.toNat = feeds 0 f.content := by
    rw [show f.lineEnds = _ from hindexed, lineEndsFrom_eq, List.map_map]
    refine (List.map_congr_left fun e he => ?_).trans (List.map_id _)
    have := feeds_bounds he
    rw [Nat.zero_add] at this
    exact UInt32.toNat_ofNat_of_lt (Nat.lt_trans this.2 hsize)
  have hcount := length_feeds 0 (f.content.take offset)
  have hcut := hends.trans (feeds_cut h)
  have hlo : (if 1 < lineNumber f.content offset then
      (f.lineEnds[lineNumber f.content offset - 2]?.map (·.toNat + 1)).getD 0
          else 0) = lineStart f.content offset := by
    rw [← lineStart_eq h, List.getLast?_eq_getElem?, hcount, lineNumber]
    split
    next hmore =>
      have hthere : f.lineEnds[1 + (f.content.take offset).count 0x0A - 2]?.map UInt32.toNat =
          (feeds 0 (f.content.take offset))[(f.content.take offset).count 0x0A - 1]? := by
        rw [← List.getElem?_map, hcut, List.getElem?_append_left (by omega)]
        congr 1
        omega
      rw [← hthere, Option.map_map]
      rfl
    next hfirst =>
      rw [List.getElem?_eq_none (by omega)]
      rfl
  have hhi : (f.lineEnds[lineNumber f.content offset - 1]?.map (·.toNat)).getD f.content.length =
      offset + (lineBack f.content offset).length := by
    have hthere : f.lineEnds[lineNumber f.content offset - 1]?.map (·.toNat) =
        (feeds offset (f.content.drop offset)).head? := by
      rw [← List.getElem?_map, hcut, lineNumber, List.getElem?_append_right (by omega),
        List.head?_eq_getElem?]
      congr 1
      omega
    have hbehind := head?_feeds offset (f.content.drop offset)
    rw [List.length_drop, Nat.add_sub_cancel' h] at hbehind
    rw [hthere, hbehind, lineBack]
  have hfront := length_lineFront_le h
  unfold SourceFile.lineBytes
  rw [hlo, hhi]
  dsimp only
  rw [if_neg (by unfold lineStart; omega), take_drop_lineStart h]
  rfl

/-- The byte at an offset stands in its column. -/
theorem getElem?_lineBytes (hindexed : f.Indexed) (hsize : f.content.length < 2 ^ 32) {b : UInt8}
    (hb : f.content[offset]? = some b) (hstays : b ≠ 0x0A) :
    (f.lineBytes (lineNumber f.content offset))[columnNumber f.content offset - 1]? =
      some (spaced b) := by
  obtain ⟨hlt, rfl⟩ := List.getElem?_eq_some_iff.1 hb
  have hback : lineBack f.content offset =
      f.content[offset] :: (f.content.drop (offset + 1)).takeWhile staysInLine := by
    have hstay : staysInLine f.content[offset] = true := bne_iff_ne.2 hstays
    rw [lineBack, List.drop_eq_getElem_cons hlt, List.takeWhile_cons_of_pos hstay]
  rw [lineBytes_lineNumber hindexed hsize hlt.le, columnNumber_eq hlt.le, Nat.add_sub_cancel_left,
    hback, List.map_append, List.getElem?_append_right (by rw [List.length_map]),
    List.length_map, Nat.sub_self]
  rfl

/-- An offset in front of the last one there may be fits in. -/
theorem placeFits_of_lt {content : Bytes} (hlt : offset < 2 ^ 32 - 1) :
    PlaceFits content offset := by
  have hline := lineNumber_le content offset
  unfold PlaceFits columnNumber
  omega

/-- Lines and columns are exact wherever they fit 32 bits: the line counts the line feeds in front
of the offset, the column the bytes from the start of the line on, and the line is shown with the
byte of the offset in that column. They grow with the offset, and no two offsets have the same
place. -/
theorem positions_exact (hindexed : f.Indexed) (hsize : f.content.length < 2 ^ 32) :
    (∀ off : UInt32, off.toNat ≤ f.content.length →
      (off < 0xFFFFFFFF → PlaceFits f.content off.toNat) ∧ (PlaceFits f.content off.toNat →
        let place := LineColumn.ofOffset f.lineEnds off
        place.line.toNat = lineNumber f.content off.toNat ∧
          place.column.toNat = columnNumber f.content off.toNat ∧
        f.lineBytes place.line.toNat =
          (lineFront f.content off.toNat ++ lineBack f.content off.toNat).map spaced ∧
        ∀ b, f.content[off.toNat]? = some b → b ≠ 0x0A →
          (f.lineBytes place.line.toNat)[place.column.toNat - 1]? = some (spaced b))) ∧
    (∀ off off' : UInt32, off < off' → off'.toNat ≤ f.content.length →
      PlaceFits f.content off'.toNat →
      let place := LineColumn.ofOffset f.lineEnds off
      let place' := LineColumn.ofOffset f.lineEnds off'
      place.line < place'.line ∨ place.line = place'.line ∧ place.column < place'.column) ∧
    ∀ off off' : UInt32, off.toNat ≤ f.content.length → off'.toNat ≤ f.content.length →
      LineColumn.ofOffset f.lineEnds off = LineColumn.ofOffset f.lineEnds off' → off = off' := by
  have hplace (off : UInt32) (h : off.toNat ≤ f.content.length) :
      LineColumn.ofOffset f.lineEnds off =
      ⟨UInt32.ofNat (lineNumber f.content off.toNat),
          UInt32.ofNat (columnNumber f.content off.toNat)⟩ := by
    rw [show f.lineEnds = _ from hindexed, ofOffset_eq hsize h]
  have hfirst (off off' : UInt32) (hlt : off < off') : PlaceFits f.content off.toNat := by
    have := off'.toNat_lt
    exact placeFits_of_lt (by rw [UInt32.lt_iff_toNat_lt] at hlt; omega)
  refine ⟨fun off h => ⟨fun hlt => hfirst off _ hlt, fun hfits => ?_⟩,
    fun off off' hlt h hfits => ?_, ?_⟩
  · dsimp only
    rw [hplace off h]
    dsimp only
    rw [UInt32.toNat_ofNat_of_lt' hfits.1, UInt32.toNat_ofNat_of_lt' hfits.2]
    exact ⟨rfl, rfl, lineBytes_lineNumber hindexed hsize h, fun b =>
      getElem?_lineBytes hindexed hsize⟩
  · have hfits' := hfirst off off' hlt
    rw [UInt32.lt_iff_toNat_lt] at hlt
    dsimp only
    rw [hplace off (by omega), hplace off' h]
    simp only [UInt32.lt_iff_toNat_lt, ← UInt32.toNat_inj, UInt32.toNat_ofNat_of_lt' hfits.1,
      UInt32.toNat_ofNat_of_lt' hfits.2, UInt32.toNat_ofNat_of_lt' hfits'.1,
      UInt32.toNat_ofNat_of_lt' hfits'.2]
    exact place_lt hlt h
  · have hne (off off' : UInt32) (hlt : off < off') (h' : off'.toNat ≤ f.content.length) :
        LineColumn.ofOffset f.lineEnds off ≠ LineColumn.ofOffset f.lineEnds off' := by
      obtain ⟨hline, hcolumn⟩ := hfirst off off' hlt
      rw [UInt32.lt_iff_toNat_lt] at hlt
      rw [hplace off (by omega), hplace off' h']
      intro heq
      injection heq with hlines hcolumns
      rw [← UInt32.toNat_inj, UInt32.toNat_ofNat', UInt32.toNat_ofNat'] at hlines hcolumns
      have hbound := off'.toNat_lt
      have hline' := lineNumber_le f.content off'.toNat
      -- a number that does not fit wraps to zero, which is neither a line nor a column
      have hlines : lineNumber f.content off.toNat = lineNumber f.content off'.toNat := by
        unfold lineNumber at *
        omega
      have hcolumns : columnNumber f.content off.toNat = columnNumber f.content off'.toNat := by
        unfold columnNumber at *
        omega
      have := place_lt hlt h'
      omega
    intro off off' h h' heq
    rcases Nat.lt_trichotomy off.toNat off'.toNat with hlt | hsame | hlt
    · exact absurd heq (hne off off' (UInt32.lt_iff_toNat_lt.2 hlt) h')
    · exact UInt32.toNat_inj.1 hsame
    · exact absurd heq.symm (hne off' off (UInt32.lt_iff_toNat_lt.2 hlt) h)

end Sources

/-- The last byte of three lines, the middle one of which is empty, stands behind a tab. -/
theorem tab_position : let f := SourceFile.ofMemory "a" [0x61, 0x0A, 0x0A, 0x09, 0x62]
    let place := LineColumn.ofOffset f.lineEnds 4
    f.Indexed ∧ f.content.length < 2 ^ 32 ∧ PlaceFits f.content 4 ∧ place.line.toNat = 3 ∧
      place.column.toNat = 2 ∧
      f.lineBytes place.line.toNat = [0x20, 0x62] := by
  have hindexed := SourceFile.indexed_ofMemory "a" [0x61, 0x0A, 0x0A, 0x09, 0x62]
  obtain ⟨hfits, hexact⟩ := (positions_exact hindexed (by decide)).1 4 (by decide)
  obtain ⟨hline, hcolumn, hbytes, -⟩ := hexact (hfits (by decide))
  exact ⟨hindexed, by
    decide, hfits (by decide), hline.trans (by decide), hcolumn.trans (by decide),
    hbytes.trans (by decide)⟩

/-- In a source without line feeds the last offset there may be is in no column. -/
theorem ofOffset_nil {f : SourceFile} (hends : f.lineEnds = []) :
    LineColumn.ofOffset f.lineEnds 4294967295 = ⟨1, 0⟩ ∧
      LineColumn.ofOffset f.lineEnds 0 = ⟨1, 1⟩ := by
  rw [hends]
  exact ⟨rfl, rfl⟩

/-- In a line of as many bytes as 32 bits count, the end comes back to the column before the first
one. -/
theorem endless_line_wraps : let f := SourceFile.ofMemory "a" (List.replicate 4294967295 0x61)
    let place := LineColumn.ofOffset f.lineEnds 4294967295
    f.Indexed ∧ f.content.length < 2 ^ 32 ∧ (4294967295 : UInt32).toNat ≤ f.content.length ∧
      place.column.toNat ≠ columnNumber f.content (4294967295 : UInt32).toNat ∧
      place.line = (LineColumn.ofOffset f.lineEnds 0).line ∧
          place.column < (LineColumn.ofOffset f.lineEnds 0).column := by
  intro f place
  have hindexed : f.Indexed := SourceFile.indexed_ofMemory _ _
  have hlength : f.content.length = 4294967295 := List.length_replicate
  have hnone : feeds 0 f.content = [] := by
    rw [← List.length_eq_zero_iff, length_feeds]
    exact List.count_eq_zero_of_not_mem fun hmem =>
      absurd (List.eq_of_mem_replicate hmem) (by decide)
  have hends : f.lineEnds = [] := by
    rw [show f.lineEnds = _ from hindexed, lineEndsFrom_eq, hnone, List.map_nil]
  obtain ⟨hend, hstart⟩ := ofOffset_nil hends
  refine ⟨hindexed, by rw [hlength]; decide, by rw [hlength]; decide, ?_, ?_, ?_⟩
  · rw [show place = _ from hend, columnNumber]
    exact Nat.ne_of_lt (Nat.lt_add_right _ Nat.one_pos)
  · rw [show place = _ from hend, hstart]
  · rw [show place = _ from hend, hstart]
    decide

end Breadbin
