import Breadbin.Proofs.Assembly.Layout

/-!
# Streams of listings

A stream without an error holds the bytes, fixups, marks and labels of the listing of the operations
that built it.  Errors stay, so every shorter sequence of operations had none either.
-/

namespace Breadbin.Assembly

open Spot

/-- The stream is the one of a listing. -/
structure Stream.Shows (s : Stream) (L : Listing) : Prop where
  valid : ∀ line ∈ L.lines, line.IsValid
  code : s.code.toList = L.lines.flatMap Line.raw
  fixups : s.fixups.toList = gather fixup? 0 (ofLines L.lines)
  marks : s.marks.toList = gather mark? 0 (ofLines L.lines)
  names : s.labels.toList.map Label.name = L.names
  bound : ∀ us label vs, L.lines = us ++ .bound label :: vs →
    label.isSome = true ∧ s.offset? label = some (us.flatMap Line.raw).length
  unbound : ∀ i label, s.labels[i]? = some label → label.offset.isSome = true →
    ∃ l ∈ L.labels, l.number.toNat = i + 1

namespace Stream

/-! ## Errors stay -/

theorem fail_error {s : Stream} {e : Error} (h : s.error = some e) (e' : Error) :
    (s.fail e').error = some e := by
  simp [fail, h]

theorem error_of_fail {s : Stream} {e : Error} : (s.fail e).error ≠ none := by
  simp only [fail]
  split <;> simp_all

theorem bind_error {s : Stream} {e : Error} (h : s.error = some e) (l : LabelId) :
    (s.bind l).error = some e := by
  simp only [bind]
  split
  · exact fail_error h _
  · split
    · exact fail_error h _
    · exact h

theorem emit_error {s : Stream} {e : Error} (h : s.error = some e) (mn : Mnemonic) (op : Operand) :
    (s.emit mn op).error = some e := by
  simp [emit, h]

theorem op_error {s : Stream} {e : Error} (h : s.error = some e) (mn : Mnemonic) :
    (s.op mn).error = some e := by
  simp only [op]
  split <;> exact emit_error h _ _

end Stream

/-- An error stays. -/
theorem Action.perform_error {s : Stream} {e : Error} (h : s.error = some e) (a : Action) :
    (a.perform s).error = some e := by
  cases a with
  | addLabel name => exact h
  | placeLabel name => exact Stream.bind_error (s := (s.addLabel name).1) h _
  | bind l => exact Stream.bind_error h l
  | emit mn arg => exact Stream.emit_error h mn _
  | op mn => exact Stream.op_error h mn
  | branch mn l => exact Stream.emit_error h mn _
  | jump l | call l => exact Stream.emit_error h _ _
  | data bytes => simp [perform, Stream.data, h]
  | word r => simp [perform, Stream.word, h]
  | align n => simp [perform, Stream.align, h]

theorem Action.error_of_perform {s : Stream} {a : Action} (h : (a.perform s).error = none) :
    s.error = none := by
  cases he : s.error with
  | none => rfl
  | some e => rw [perform_error he a] at h; cases h

/-! ## One more line -/

theorem raw_ofLine (line : Line) : Spot.raw ⟨line, 0⟩ = line.raw := by
  cases line with
  | instr mn arg => cases arg <;> simp [Spot.raw, isLong]
  | _ => rfl

theorem flatMap_raw_ofLines (ls : List Line) :
    (ofLines ls).flatMap Spot.raw = ls.flatMap Line.raw := by
  simp [ofLines, List.flatMap_map, raw_ofLine]

theorem extent_ofLines (ls : List Line) : extent (ofLines ls) = (ls.flatMap Line.raw).length := by
  rw [extent, flatMap_raw_ofLines]

theorem gather_ofLines_snoc {β : Type} (f : Nat → Spot → Option β) (ls : List Line) (line : Line) :
    gather f 0 (ofLines (ls ++ [line])) =
      gather f 0 (ofLines ls) ++ (f (ls.flatMap Line.raw).length ⟨line, 0⟩).toList := by
  have : ofLines (ls ++ [line]) = ofLines ls ++ [⟨line, 0⟩] := by simp [ofLines]
  rw [this, gather_append, Nat.zero_add, extent_ofLines]
  simp [gather]

theorem length_code {s : Stream} {L : Listing} (h : s.Shows L) :
    s.code.size = (L.lines.flatMap Line.raw).length := by
  rw [← h.code, Array.length_toList]

/-- A line other than a label is appended with its bytes, its fixup and its mark. -/
theorem Stream.Shows.snoc {s s' : Stream} {L : Listing} {line : Line} (h : s.Shows L)
    (valid : line.IsValid) (hbound : line.label? = none)
    (code : s'.code.toList = s.code.toList ++ line.raw)
    (fixups : s'.fixups.toList = s.fixups.toList ++ (fixup? s.code.size ⟨line, 0⟩).toList)
    (marks : s'.marks.toList = s.marks.toList ++ (mark? s.code.size ⟨line, 0⟩).toList)
    (labels : s'.labels = s.labels) : s'.Shows ⟨L.names, L.lines ++ [line]⟩ where
  valid := by
    intro t ht
    rcases List.mem_append.1 ht with ht | ht
    · exact h.valid t ht
    · obtain rfl := List.mem_singleton.1 ht
      exact valid
  code := by simp [code, h.code]
  fixups := by rw [fixups, h.fixups, gather_ofLines_snoc, length_code h]
  marks := by rw [marks, h.marks, gather_ofLines_snoc, length_code h]
  names := by rw [labels, h.names]
  bound := by
    intro us label vs e
    have hoffset : s'.offset? label = s.offset? label := by
      simp [Stream.offset?, Stream.label?, labels]
    rw [hoffset]
    rcases split_around e with ⟨ms, hl, -⟩ | ⟨-, rfl, -⟩ | ⟨ms, -, hm⟩
    · exact h.bound us label ms hl
    · cases hbound
    · simp at hm
  unbound := by
    intro i label hi hsome
    rw [labels] at hi
    obtain ⟨l, hl, hn⟩ := h.unbound i label hi hsome
    exact ⟨l, by simp [Listing.labels] at hl ⊢; exact .inl hl, hn⟩

theorem toList_pushAll (code : Array UInt8) (bytes : List UInt8) :
    (Stream.pushAll code bytes).toList = code.toList ++ bytes := by
  simp [Stream.pushAll]

theorem wordBytes_toNat (v : UInt16) : wordBytes v.toNat = [v.toUInt8, (v >>> 8).toUInt8] := by
  simp only [wordBytes, List.cons.injEq, and_true]
  constructor
  · apply UInt8.toNat_inj.1
    simp
  · apply UInt8.toNat_inj.1
    simp [Nat.shiftRight_eq_div_pow]

theorem operand_mode (arg : Arg) : arg.operand.mode = arg.mode := by
  cases arg with
  | lowByte r | highByte r =>
    simp only [Arg.operand, Operand.lowByte, Operand.highByte]
    split <;> rfl
  | _ => rfl

theorem operandBytes_operand (arg : Arg) : Stream.operandBytes arg.operand = arg.raw := by
  cases arg with
  | absolute r | absoluteX r | absoluteY r | indirect r =>
    cases hr : r.isLabel <;>
      simp_all [Stream.operandBytes, Arg.operand, Operand.absolute, Operand.absoluteX,
        Operand.absoluteY, Operand.indirect, Operand.ofRef, Mode.operandSize, Arg.raw,
        AddressRef.isLabel, wordBytes_toNat]
  | lowByte r | highByte r =>
    have hword := wordBytes_toNat r.address
    simp only [wordBytes, List.cons.injEq, and_true] at hword
    have hbyte (v : UInt8) : v.toUInt16.toUInt8 = v := by simp
    cases hr : r.isLabel <;>
      simp_all [-UInt16.toUInt16_toUInt8, Stream.operandBytes, Arg.operand,
        Operand.lowByte, Operand.highByte, Operand.immediate, LabelId.isSome, LabelId.none,
        Mode.operandSize, Arg.raw, AddressRef.isLabel]
  | implied | accumulator => rfl
  | immediate v | zeroPage v | zeroPageX v | indirectY v =>
    simp [Stream.operandBytes, Arg.operand, Operand.immediate, Operand.zeroPage, Operand.zeroPageX,
      Operand.indirectY, LabelId.isSome, LabelId.none, Mode.operandSize, Arg.raw]
  | relative l =>
    simp only [Stream.operandBytes, Arg.operand, Operand.relative, Mode.operandSize, Arg.raw]
    by_cases hl : l.isSome = true <;> simp only [hl] <;> rfl

/-- The fixup that an operand needs is the one of its line. -/
theorem fixup_operand (mn : Mnemonic) (arg : Arg) (offset : Nat) :
    (if arg.operand.label.isSome && arg.operand.mode.operandSize != 0 then
        [(⟨offset + 1, arg.operand.label, Stream.fixupKind mn arg.operand,
          arg.operand.value⟩ : Fixup)]
      else []) = (fixup? offset ⟨.instr mn arg, 0⟩).toList := by
  cases arg with
  | absolute r | absoluteX r | absoluteY r | indirect r =>
    cases hr : r.isLabel <;>
      simp_all [fixup?, argFixup?, Arg.operand, Operand.absolute, Operand.absoluteX,
        Operand.absoluteY, Operand.indirect, Operand.ofRef, Mode.operandSize, wholeKind,
        AddressRef.isLabel, Stream.fixupKind]
  | lowByte r | highByte r =>
    cases hr : r.isLabel <;>
      simp_all [fixup?, argFixup?, Arg.operand, Operand.lowByte, Operand.highByte,
        Operand.immediate, LabelId.isSome, LabelId.none, Mode.operandSize, AddressRef.isLabel,
        Stream.fixupKind]
  | implied | accumulator | immediate v | zeroPage v | zeroPageX v | indirectY v => rfl
  | relative l =>
    cases hl : l.isSome <;>
      simp [fixup?, argFixup?, Arg.operand, Operand.relative, Mode.operandSize,
        Stream.fixupKind, hl]

/-- An instruction that causes no error appends its line. -/
theorem Stream.Shows.emit {s : Stream} {L : Listing} {mn : Mnemonic} {arg : Arg} (h : s.Shows L)
    (he : (s.emit mn arg.operand).error = none) :
    (s.emit mn arg.operand).Shows ⟨L.names, L.lines ++ [.instr mn arg]⟩ := by
  have hs : s.error = none := Action.error_of_perform (a := .emit mn arg) he
  simp only [Stream.emit, hs, operand_mode] at he ⊢
  split at he
  · exact absurd he error_of_fail
  next code hcode =>
    split at he
    · exact absurd he error_of_fail
    next hlabel =>
      simp only [hlabel]
      refine h.snoc ?_ rfl ?_ ?_ ?_ rfl
      · simp [Line.IsValid, hcode]
      · simp [toList_pushAll, operandBytes_operand, Line.raw, hcode]
      · rw [← fixup_operand, operand_mode]
        simp only [Bool.false_eq_true, if_false]
        split <;> simp
      · simp [mark?]

theorem Stream.Shows.data {s : Stream} {L : Listing} (h : s.Shows L) (hs : s.error = none)
    (bytes : List UInt8) : (s.data bytes).Shows ⟨L.names, L.lines ++ [.data bytes]⟩ := by
  simp only [Stream.data, hs]
  exact h.snoc trivial rfl (toList_pushAll _ _) (by simp [fixup?]) (by simp [mark?]) rfl

theorem Stream.Shows.word {s : Stream} {L : Listing} {r : AddressRef} (h : s.Shows L)
    (hs : s.error = none) (he : (s.word r).error = none) :
    (s.word r).Shows ⟨L.names, L.lines ++ [.word r]⟩ := by
  simp only [Stream.word, hs] at he ⊢
  split at he
  next hr =>
    split at he
    · exact absurd he error_of_fail
    next hlabel =>
      simp only [hr, hlabel, if_true]
      refine h.snoc trivial rfl ?_ ?_ (by simp [mark?]) rfl
      · simp [toList_pushAll, Line.raw, hr]
      · simp [fixup?, hr]
  next hr =>
    simp only [hr, Stream.data, hs]
    refine h.snoc trivial rfl ?_ (by simp [fixup?, hr]) (by simp [mark?]) rfl
    simp [toList_pushAll, Line.raw, hr, wordBytes_toNat]

theorem Stream.Shows.align {s : Stream} {L : Listing} {n : UInt16} (h : s.Shows L)
    (hs : s.error = none) (he : (s.align n).error = none) (hn : ¬n ≤ 1) :
    (s.align n).Shows ⟨L.names, L.lines ++ [.align n.toNat]⟩ := by
  simp only [Stream.align, hs, hn, if_false] at he ⊢
  split at he
  · exact absurd he error_of_fail
  next hpow =>
    simp only [hpow]
    refine h.snoc ?_ rfl (by simp [Line.raw]) (by simp [fixup?]) (by simp [mark?]) rfl
    simpa [Line.IsValid, UInt16.le_iff_toNat_le] using hn

theorem Stream.offset?_eq {s : Stream} {l : LabelId} {offset : Nat} :
    s.offset? l = some offset ↔
      l.isSome = true ∧ ∃ label, s.labels[l.number.toNat - 1]? = some label ∧
        label.offset = some offset := by
  simp only [Stream.offset?, Stream.label?]
  split <;> simp_all [Option.bind_eq_some_iff]

theorem LabelId.eq_of_toNat {l l' : LabelId} (h : l.number.toNat = l'.number.toNat) : l = l' := by
  obtain ⟨n⟩ := l
  obtain ⟨n'⟩ := l'
  exact congrArg LabelId.mk (UInt32.toNat_inj.1 h)

theorem LabelId.pos_of_isSome {l : LabelId} (h : l.isSome = true) : 0 < l.number.toNat := by
  rcases Nat.eq_zero_or_pos l.number.toNat with hzero | hpos
  · have : l.number = 0 := UInt32.toNat_inj.1 hzero
    simp [LabelId.isSome, this] at h
  · exact hpos

/-- Labels that are made later change no offset. -/
theorem Stream.Shows.addLabel {s : Stream} {L : Listing} (h : s.Shows L) (name : Bytes) :
    (s.addLabel name).1.Shows ⟨L.names ++ [name], L.lines⟩ where
  valid := h.valid
  code := h.code
  fixups := h.fixups
  marks := h.marks
  names := by simp [Stream.addLabel, h.names]
  bound := by
    intro us label vs e
    obtain ⟨hsome, hoffset⟩ := h.bound us label vs e
    obtain ⟨-, entry, hentry, ho⟩ := Stream.offset?_eq.1 hoffset
    refine ⟨hsome, Stream.offset?_eq.2 ⟨hsome, entry, ?_, ho⟩⟩
    have hlt := (Array.getElem?_eq_some_iff.1 hentry).1
    simp [Stream.addLabel, Array.getElem?_push, Nat.ne_of_lt hlt, hentry]
  unbound := by
    intro i label hi hsome
    simp only [Stream.addLabel, Array.getElem?_push] at hi
    split at hi
    · obtain rfl := Option.some.inj hi
      cases hsome
    · exact h.unbound i label hi hsome

/-- Binding a label gives it the current position and no other label a new one. -/
theorem Stream.Shows.bind {s : Stream} {L : Listing} {l : LabelId} (h : s.Shows L)
    (he : (s.bind l).error = none) : (s.bind l).Shows ⟨L.names, L.lines ++ [.bound l]⟩ := by
  simp only [Stream.bind] at he ⊢
  split at he
  · exact absurd he error_of_fail
  next entry hentry =>
    split at he
    · exact absurd he error_of_fail
    next hopen =>
      have hsome : l.isSome = true := by
        cases hl : l.isSome <;> simp_all [Stream.label?]
      have hentry : s.labels[l.number.toNat - 1]? = some entry := by
        simpa [Stream.label?, hsome] using hentry
      have hlt := (Array.getElem?_eq_some_iff.1 hentry).1
      refine ⟨?_, by simp [h.code, Line.raw], ?_, ?_, ?_, ?_, ?_⟩
      · intro line hline
        rcases List.mem_append.1 hline with hline | hline
        · exact h.valid line hline
        · obtain rfl := List.mem_singleton.1 hline
          trivial
      · rw [gather_ofLines_snoc, h.fixups]
        simp [fixup?]
      · rw [gather_ofLines_snoc, h.marks]
        simp [mark?]
      · rw [← h.names]
        apply List.ext_getElem?
        intro i
        simp only [Array.set!_eq_setIfInBounds, Array.toList_setIfInBounds, List.getElem?_map,
          List.getElem?_set, Array.getElem?_toList]
        split
        next heq =>
          subst heq
          rw [hentry]
          simp [hlt]
        next => rfl
      · intro us label vs e
        rcases split_around e with ⟨ms, hl, -⟩ | ⟨rfl, hb, -⟩ | ⟨ms, -, hm⟩
        · obtain ⟨hsome', hoffset⟩ := h.bound us label ms hl
          obtain ⟨-, entry', hentry', ho⟩ := Stream.offset?_eq.1 hoffset
          refine ⟨hsome', Stream.offset?_eq.2 ⟨hsome', entry', ?_, ho⟩⟩
          have hne : l.number.toNat - 1 ≠ label.number.toNat - 1 := by
            intro heq
            rw [← heq, hentry] at hentry'
            obtain rfl := Option.some.inj hentry'
            simp [hopen] at ho
          simp [Array.set!_eq_setIfInBounds, hne, hentry']
        · obtain rfl : l = label := by simpa using hb
          refine ⟨hsome, Stream.offset?_eq.2 ⟨hsome, ⟨entry.name, some s.code.size⟩, ?_, ?_⟩⟩
          · simp [Array.set!_eq_setIfInBounds, hlt]
          · simp [length_code h]
        · simp at hm
      · intro i label hi hoffset
        simp only [Array.set!_eq_setIfInBounds, Array.getElem?_setIfInBounds] at hi
        split at hi
        next heq =>
          refine ⟨l, by simp [Listing.labels, Line.label?], ?_⟩
          have := LabelId.pos_of_isSome hsome
          omega
        next =>
          obtain ⟨l', hl', hn⟩ := h.unbound i label hi hoffset
          exact ⟨l', by simp [Listing.labels] at hl' ⊢; exact .inl hl', hn⟩

theorem Listing.add_eq (L : Listing) {a : Action} (h : a.names = []) :
    L.add a = ⟨L.names, L.lines ++ a.lines L.names.length⟩ := by
  simp [Listing.add, h]

/-- An operation that causes no error adds its lines. -/
theorem Action.perform_shows {s : Stream} {L : Listing} {a : Action} (h : s.Shows L)
    (he : (a.perform s).error = none) : (a.perform s).Shows (L.add a) := by
  have hs := error_of_perform he
  cases a with
  | addLabel name =>
    have hadd : L.add (.addLabel name) = ⟨L.names ++ [name], L.lines⟩ := by
      simp [Listing.add, Action.names, Action.lines]
    rw [hadd]
    exact h.addLabel name
  | placeLabel name =>
    have hsize : s.labels.size = L.names.length := by
      rw [← h.names, List.length_map, Array.length_toList]
    have := (h.addLabel name).bind he
    simp only [Stream.addLabel, hsize] at this
    simp only [perform, Stream.placeLabel, Stream.addLabel, hsize]
    exact this
  | op mn =>
    have hop : s.op mn = s.emit mn (ownArg mn).operand := by cases mn <;> rfl
    rw [perform, hop] at he ⊢
    rw [Listing.add_eq L rfl]
    exact h.emit he
  | align n =>
    rw [Listing.add_eq L rfl]
    by_cases hn : n ≤ 1
    · have hsame : s.align n = s := by simp [Stream.align, hs, hn]
      simpa [Action.lines, hn, perform, hsame] using h
    · simpa only [Action.lines, hn, if_false, perform] using h.align hs he hn
  | bind l => rw [Listing.add_eq L rfl]; exact h.bind he
  | emit mn arg => rw [Listing.add_eq L rfl]; exact h.emit he
  | branch mn l => rw [Listing.add_eq L rfl]; exact @Stream.Shows.emit s L mn (.relative l) h he
  | jump l | call l =>
    rw [Listing.add_eq L rfl]
    exact @Stream.Shows.emit s L _ (.absolute (.ofLabel l)) h he
  | data bytes => rw [Listing.add_eq L rfl]; exact h.data hs bytes
  | word r => rw [Listing.add_eq L rfl]; exact h.word hs he

theorem foldl_perform_error {actions : List Action} {s : Stream}
    (h : (actions.foldl Action.perform s).error = none) : s.error = none := by
  induction actions generalizing s with
  | nil => exact h
  | cons a actions ih => exact Action.error_of_perform (ih h)

/-- Operations that cause no error add their lines. -/
theorem Stream.Shows.perform {s : Stream} {L : Listing} {actions : List Action} (h : s.Shows L)
    (he : (actions.foldl Action.perform s).error = none) :
    (actions.foldl Action.perform s).Shows (actions.foldl Listing.add L) := by
  induction actions generalizing s L with
  | nil => exact h
  | cons a actions ih => exact ih (Action.perform_shows h (foldl_perform_error he)) he

/-- A stream without an error is the one of the listing of its operations. -/
theorem Stream.ofActions_shows {actions : List Action}
    (h : (Stream.ofActions actions).error = none) :
    (Stream.ofActions actions).Shows (Listing.ofActions actions) :=
  Shows.perform (s := {}) (L := {}) ⟨by simp, rfl, rfl, rfl, rfl, by simp, by simp⟩ h

end Breadbin.Assembly
