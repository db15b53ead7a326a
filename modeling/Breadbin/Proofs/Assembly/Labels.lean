import Breadbin.Proofs.Assembly.Growth

/-!
# Labels of a stream

A label is open from the moment it is made until it is bound.  `Stream.Tidy` says which labels of a
stream are open, that nothing went wrong so far and that no branch goes to a far label: the labels
of data, which may end up out of the reach of a branch, are far.
-/

namespace Breadbin.Assembly

namespace Stream

/-- The stream has made the label. -/
def Knows (s : Stream) (l : LabelId) : Prop := (s.label? l).isSome = true

/-- The label is made and not bound yet. -/
def Open (s : Stream) (l : LabelId) : Prop := ∃ label, s.label? l = some label ∧ label.offset = none

variable {s : Stream} {l l' : LabelId}

theorem Open.knows (h : s.Open l) : s.Knows l := by
  obtain ⟨label, hlabel, -⟩ := h
  simp [Knows, hlabel]

theorem Knows.isSome (h : s.Knows l) : l.isSome = true := by
  cases hl : l.isSome with
  | true => rfl
  | false => simp [Knows, label?, hl] at h

/-- The labels of a stream are numbered from one on. -/
theorem knows_iff : s.Knows l ↔ l.isSome = true ∧ l.number.toNat ≤ s.labels.size := by
  refine ⟨fun h => ⟨h.isSome, ?_⟩, fun ⟨hl, hle⟩ => ?_⟩
  · have hl := h.isSome
    simp only [Knows, label?, hl, if_true, Option.isSome_iff_exists] at h
    obtain ⟨label, h⟩ := h
    have := (Array.getElem?_eq_some_iff.1 h).1
    omega
  · have := LabelId.pos_of_isSome hl
    have hlt : l.number.toNat - 1 < s.labels.size := by omega
    simp [Knows, label?, hl, hlt]

/-- A label is open or bound. -/
theorem Knows.open_or_bound (h : s.Knows l) : s.Open l ∨ ∃ offset, s.offset? l = some offset := by
  obtain ⟨label, hlabel⟩ := Option.isSome_iff_exists.1 h
  cases ho : label.offset with
  | none => exact .inl ⟨label, hlabel, ho⟩
  | some offset => exact .inr ⟨offset, by simp [offset?, hlabel, ho]⟩

/-! ## New labels -/

section NewLabel

variable (few : s.labels.size + 1 < 4294967296) (name : Bytes)
include few

theorem number_addLabel : (s.addLabel name).2.number.toNat = s.labels.size + 1 := by
  show (UInt32.ofNat (s.labels.size + 1)).toNat = _
  rw [UInt32.toNat_ofNat']
  omega

theorem isSome_addLabel : (s.addLabel name).2.isSome = true := by
  have h := number_addLabel few name
  rw [LabelId.isSome, bne_iff_ne]
  intro hzero
  simp [hzero] at h

/-- A new label is none of the labels so far. -/
theorem not_knows_addLabel : ¬s.Knows (s.addLabel name).2 := by
  rw [knows_iff, number_addLabel few]
  omega

theorem label?_addLabel (l : LabelId) :
    (s.addLabel name).1.label? l = if l = (s.addLabel name).2 then some { name }
      else s.label? l := by
  have hnumber := number_addLabel few name
  have hpush : (s.addLabel name).1.labels = s.labels.push { name } := rfl
  simp only [label?, hpush, Array.getElem?_push]
  by_cases heq : l = (s.addLabel name).2
  · simp [heq, isSome_addLabel few, hnumber]
  · simp only [heq, if_false]
    cases hl : l.isSome with
    | false => rfl
    | true =>
      have hpos := LabelId.pos_of_isSome hl
      have hne : l.number.toNat - 1 ≠ s.labels.size := by
        intro hsame
        exact heq (LabelId.eq_of_toNat (by omega))
      simp [hne]

theorem open_addLabel_iff : (s.addLabel name).1.Open l ↔ l = (s.addLabel name).2 ∨ s.Open l := by
  simp only [Open, label?_addLabel few]
  split
  next heq => simp [heq]
  next hne => simp [hne]

theorem knows_addLabel_iff : (s.addLabel name).1.Knows l ↔ l = (s.addLabel name).2 ∨ s.Knows l := by
  simp only [Knows, label?_addLabel few]
  split
  next heq => simp [heq]
  next hne => simp [hne]

end NewLabel

/-! ## Binding -/

theorem label?_bind (h : s.Open l) (l' : LabelId) :
    ∃ label : Label, label.offset = some s.code.size ∧
      (s.bind l).label? l' = if l' = l then some label else s.label? l' := by
  obtain ⟨label, hlabel, hopen⟩ := h
  have hl : l.isSome = true := Knows.isSome (s := s) (by simp [Knows, hlabel])
  have hindex := hlabel
  simp only [label?, hl, if_true] at hindex
  have hlt := (Array.getElem?_eq_some_iff.1 hindex).1
  refine ⟨{ label with offset := some s.code.size }, rfl, ?_⟩
  simp only [bind, hlabel, hopen]
  simp only [label?, Array.set!_eq_setIfInBounds, Array.getElem?_setIfInBounds]
  by_cases heq : l' = l
  · simp [heq, hl, hlt]
  · simp only [heq, if_false]
    cases hl' : l'.isSome with
    | false => rfl
    | true =>
      have := LabelId.pos_of_isSome hl
      have := LabelId.pos_of_isSome hl'
      have hne : l.number.toNat - 1 ≠ l'.number.toNat - 1 := by
        intro hsame
        exact heq (LabelId.eq_of_toNat (by omega))
      simp [hne]

theorem error_bind (h : s.Open l) : (s.bind l).error = s.error := by
  obtain ⟨label, hlabel, hopen⟩ := h
  simp [bind, hlabel, hopen]

theorem open_bind_iff (h : s.Open l) : (s.bind l).Open l' ↔ l' ≠ l ∧ s.Open l' := by
  obtain ⟨label, ho, hlabel⟩ := label?_bind h l'
  simp only [Open, hlabel]
  split
  next heq => simp [heq, ho]
  next hne => simp [hne]

theorem knows_bind_iff (h : s.Open l) : (s.bind l).Knows l' ↔ s.Knows l' := by
  obtain ⟨label, -, hlabel⟩ := label?_bind h l'
  simp only [Knows, hlabel]
  split
  next heq => simpa [heq, Knows] using h.knows
  next hne => rfl

/-! ## Instructions -/

/-- What an operand refers to is known, and a branch does not go to a far label. -/
def Admits (far : LabelId → Prop) (s : Stream) (arg : Arg) : Prop :=
  (arg.operand.label.isSome = true → s.Knows arg.operand.label) ∧ ∀ l, arg = .relative l → ¬far l

/-- An instruction that has an encoding is appended. -/
theorem emit_eq {mn : Mnemonic} {arg : Arg} (hs : s.error = none)
    (hmode : (Opcode.encode? mn arg.mode).isSome = true)
    (hlabel : arg.operand.label.isSome = true → s.Knows arg.operand.label) :
    ∃ code fixups, s.emit mn arg.operand = { s with code, fixups } ∧
      ∀ f ∈ fixups.toList, f ∈ s.fixups.toList ∨ s.Knows f.label := by
  obtain ⟨code, hcode⟩ := Option.isSome_iff_exists.1 hmode
  have hknown : (arg.operand.label.isSome && (s.label? arg.operand.label).isNone) = false := by
    cases hl : arg.operand.label.isSome with
    | false => rfl
    | true => simpa [Knows, Option.isSome_iff_ne_none] using hlabel hl
  simp only [emit, hs, operand_mode, hcode, hknown, Bool.false_eq_true, if_false]
  refine ⟨_, _, rfl, fun f hf => ?_⟩
  split at hf
  next hfixup =>
    simp only [Array.toList_push, List.mem_append, List.mem_singleton] at hf
    rcases hf with hf | rfl
    · exact .inl hf
    · exact .inr (hlabel (by simp_all))
  next => exact .inl hf

/-! ## The number of labels -/

@[simp] theorem labels_fail (s : Stream) (e : Error) : (s.fail e).labels = s.labels := by
  simp only [fail]
  split <;> rfl

@[simp] theorem labels_emit (s : Stream) (mn : Mnemonic) (o : Operand) :
    (s.emit mn o).labels = s.labels := by
  simp only [emit]
  repeat' split
  all_goals simp

@[simp] theorem labels_data (s : Stream) (bytes : List UInt8) :
    (s.data bytes).labels = s.labels := by
  simp only [data]
  split <;> rfl

@[simp] theorem labels_align (s : Stream) (n : UInt16) : (s.align n).labels = s.labels := by
  simp only [align]
  repeat' split
  all_goals simp

@[simp] theorem size_labels_bind (s : Stream) (l : LabelId) :
    (s.bind l).labels.size = s.labels.size := by
  simp only [bind]
  repeat' split
  all_goals simp

@[simp] theorem size_labels_addLabel (s : Stream) (name : Bytes) :
    (s.addLabel name).1.labels.size = s.labels.size + 1 := by
  simp [addLabel]

/-- No label is forgotten. -/
theorem Precedes.labels {s s' : Stream} (h : s.Precedes s') : s.labels.size ≤ s'.labels.size := by
  obtain ⟨actions, rfl⟩ := h
  induction actions generalizing s with
  | nil => exact Nat.le_refl _
  | cons a actions ih =>
    refine Nat.le_trans ?_ (ih (s := a.perform s))
    cases a with
    | op mn => cases mn <;> simp [Action.perform, op]
    | word r =>
      rw [Action.perform, word]
      repeat' split
      all_goals simp
    | _ => simp [Action.perform, placeLabel, branch, jump, call]

/-! ## The names of labels -/

/-- The names of the labels, in order. -/
def names (s : Stream) : List Bytes := s.labels.toList.map Label.name

@[simp] theorem names_emit (s : Stream) (mn : Mnemonic) (op : Operand) :
    (s.emit mn op).names = s.names := by
  rw [names, labels_emit, names]

@[simp] theorem names_data (s : Stream) (bytes : List UInt8) : (s.data bytes).names = s.names := by
  rw [names, labels_data, names]

@[simp] theorem names_addLabel (s : Stream) (name : Bytes) :
    (s.addLabel name).1.names = s.names ++ [name] := by
  simp [names, addLabel]

@[simp] theorem names_bind (s : Stream) (l : LabelId) : (s.bind l).names = s.names := by
  unfold bind
  split
  · rw [names, labels_fail, names]
  next label hlabel =>
    split
    · rw [names, labels_fail, names]
    · have hget : s.labels[l.number.toNat - 1]? = some label := by
        unfold label? at hlabel
        split at hlabel
        · exact hlabel
        · cases hlabel
      refine List.ext_getElem? fun i => ?_
      simp only [names, Array.set!_eq_setIfInBounds, Array.toList_setIfInBounds, List.getElem?_map,
        List.getElem?_set, Array.getElem?_toList]
      split
      next heq =>
        subst heq
        rw [hget]
        obtain ⟨hlt, -⟩ := Array.getElem?_eq_some_iff.1 hget
        rw [Array.length_toList, if_pos hlt]
        rfl
      next => rfl

/-! ## Code behind code -/

/-- The label was made between two streams, as labels are numbered in 32 bits. -/
def Between (s s' : Stream) (l : LabelId) : Prop :=
  s'.labels.size < 4294967296 → s.labels.size < l.number.toNat

theorem Between.mono {s₀ s s' s₁ : Stream} (h : s.Between s' l) (h₀ : s₀.Precedes s)
    (h₁ : s'.Precedes s₁) :
    s₀.Between s₁ l := fun few =>
  Nat.lt_of_le_of_lt h₀.labels (h (Nat.lt_of_le_of_lt h₁.labels few))

theorem between_addLabel {s s' : Stream} {name : Bytes} (h : (s.addLabel name).1.Precedes s') :
    s.Between s' (s.addLabel name).2 := fun few => by
  have hsize := h.labels
  rw [size_labels_addLabel] at hsize
  rw [number_addLabel (Nat.lt_of_le_of_lt hsize few)]
  exact Nat.lt_succ_self _

/-- The second stream is the first one with code behind it, which branches to its own labels only
and ends with bytes. -/
def Continues (s s' : Stream) : Prop :=
  ∃ ls, s.Grows s' ls ∧ (∀ mn l, .instr mn (.relative l) ∈ ls → l.isSome = true → s.Between s' l) ∧
    (ls = [] ∨ Line.Ends ls)

theorem Continues.refl (s : Stream) : s.Continues s := ⟨[], .refl s, by simp, .inl rfl⟩

theorem Continues.trans {s t u : Stream} (h : s.Continues t) (h' : t.Continues u) :
    s.Continues u := by
  obtain ⟨ls, hls, hown, hends⟩ := h
  obtain ⟨ms, hms, hown', hends'⟩ := h'
  refine ⟨ls ++ ms, hls.trans hms, fun mn l hl hsome => ?_, ?_⟩
  · rcases List.mem_append.1 hl with hl | hl
    · exact (hown mn l hl hsome).mono (.refl s) hms.precedes
    · exact (hown' mn l hl hsome).mono hls.precedes (.refl u)
  · rcases hends' with rfl | hends'
    · simpa using hends
    · exact .inr (hends'.append ls)

/-! ## Bytes behind the labels -/

/-- Something follows every bound label. -/
def Followed (s : Stream) : Prop := ∀ l offset, s.offset? l = some offset → offset < s.code.size

/-- A label stands within the code or at its end. -/
theorem Shows.offset_le {L : Listing} (h : s.Shows L) {offset : Nat}
    (ho : s.offset? l = some offset) :
    offset ≤ s.code.size := by
  obtain ⟨line, hline, hl⟩ := List.mem_filterMap.1 (h.mem_labels ho)
  obtain ⟨us, vs, hsplit⟩ := List.append_of_mem hline
  obtain rfl : line = .bound l := by
    cases line <;> simp_all [Line.label?]
  obtain ⟨-, hoffset⟩ := h.bound us l vs hsplit
  obtain rfl : _ = offset := Option.some.inj (hoffset.symm.trans ho)
  rw [← Array.length_toList, h.code, hsplit, List.flatMap_append, List.length_append]
  exact Nat.le_add_right _ _

/-- With more bytes than before and the same labels, something follows all of them. -/
theorem Shows.followed {s' : Stream} {L : Listing} (h : s.Shows L) (hlabels : s'.labels = s.labels)
    (hsize : s.code.size < s'.code.size) : s'.Followed := by
  intro l offset ho
  have hsame : s'.offset? l = s.offset? l := by
    simp only [offset?, label?, hlabels]
  exact Nat.lt_of_le_of_lt (h.offset_le (hsame ▸ ho)) hsize

theorem Followed.addLabel (h : s.Followed) (few : s.labels.size + 1 < 4294967296) (name : Bytes) :
    (s.addLabel name).1.Followed := by
  intro l offset ho
  rw [offset?, label?_addLabel few] at ho
  split at ho
  · cases ho
  · exact h l offset ho

theorem size_pushAll (code : Array UInt8) (bytes : List UInt8) :
    (pushAll code bytes).size = code.size + bytes.length := by
  rw [← Array.length_toList, toList_pushAll, List.length_append, Array.length_toList]

/-! ## Regular streams -/

/-- A stream without errors whose lines are good and whose open labels are the given ones. -/
structure Regular (good : List Line → Prop) (s : Stream) (unbound : List LabelId) : Prop where
  error : s.error = none
  few : s.labels.size < 4294967296
  shows : ∃ L, s.Shows L ∧ good L.lines
  known : ∀ f ∈ s.fixups.toList, s.Knows f.label
  opened : ∀ l, s.Open l ↔ l ∈ unbound
  nodup : unbound.Nodup

namespace Regular

variable {good good' : List Line → Prop} {unbound unbound' : List LabelId}

theorem empty (hgood : good []) : Regular good {} [] where
  error := rfl
  few := by decide
  shows := ⟨{}, ⟨by simp, rfl, rfl, rfl, rfl, by simp, by simp⟩, hgood⟩
  known := by simp
  opened l := by simp [Open, label?]
  nodup := .nil

theorem perm (h : s.Regular good unbound) (hperm : unbound.Perm unbound') :
    s.Regular good unbound' :=
  { h with
    opened := fun l => (h.opened l).trans hperm.mem_iff
    nodup := hperm.nodup_iff.1 h.nodup }

theorem mono (h : s.Regular good unbound) (hgood : ∀ ls, good ls → good' ls) :
    s.Regular good' unbound :=
  { h with shows := h.shows.imp fun _ hL => ⟨hL.1, hgood _ hL.2⟩ }

theorem addLabel (h : s.Regular good unbound)
    (few : s.labels.size + 1 < 4294967296) (name : Bytes) :
    (s.addLabel name).1.Regular good ((s.addLabel name).2 :: unbound) where
  error := h.error
  few := by rwa [size_labels_addLabel]
  shows := by
    obtain ⟨L, hL, hgood⟩ := h.shows
    exact ⟨_, hL.addLabel name, hgood⟩
  known f hf := (knows_addLabel_iff few name).2 (.inr (h.known f hf))
  opened l := by rw [open_addLabel_iff few, h.opened, List.mem_cons]
  nodup := by
    refine List.nodup_cons.2 ⟨fun hmem => ?_, h.nodup⟩
    exact not_knows_addLabel few name ((h.opened _).2 hmem).knows

theorem bind (h : s.Regular good (l :: unbound)) (hgood : ∀ ls, good ls → good (ls ++ [.bound l])) :
    (s.bind l).Regular good unbound := by
  have hopen : s.Open l := (h.opened l).2 (by simp)
  have hfresh := List.nodup_cons.1 h.nodup
  have herror : (s.bind l).error = none := by rw [error_bind hopen, h.error]
  refine ⟨herror, ?_, ?_, fun f hf => ?_, fun l' => ?_, hfresh.2⟩
  · rw [size_labels_bind]
    exact h.few
  · obtain ⟨L, hL, hlines⟩ := h.shows
    exact ⟨_, hL.bind herror, hgood _ hlines⟩
  · refine (knows_bind_iff hopen).2 (h.known f ?_)
    obtain ⟨label, hlabel, hnone⟩ := hopen
    simpa [Stream.bind, hlabel, hnone] using hf
  · rw [open_bind_iff hopen, h.opened, List.mem_cons]
    constructor
    · rintro ⟨hne, heq | hmem⟩
      · exact absurd heq hne
      · exact hmem
    · intro hmem
      refine ⟨?_, .inr hmem⟩
      rintro rfl
      exact hfresh.1 hmem

theorem emit (h : s.Regular good unbound) {m : Mnemonic} {a : Arg}
    (hmode : (Opcode.encode? m a.mode).isSome = true)
    (hlabel : a.operand.label.isSome = true → s.Knows a.operand.label)
    (hgood : ∀ ls, good ls → good (ls ++ [.instr m a])) :
    (s.emit m a.operand).Regular good unbound := by
  obtain ⟨code, fixups, heq, hfixups⟩ := emit_eq h.error hmode hlabel
  obtain ⟨L, hL, hlines⟩ := h.shows
  have hshows := @Stream.Shows.emit s L m a hL (by rw [heq]; exact h.error)
  rw [heq] at hshows ⊢
  refine ⟨h.error, h.few, ⟨_, hshows, hgood _ hlines⟩, fun f hf => ?_, h.opened, h.nodup⟩
  rcases hfixups f hf with hold | hknown
  · exact h.known f hold
  · exact hknown

theorem data (h : s.Regular good unbound) (bytes : List UInt8)
    (hgood : ∀ ls, good ls → good (ls ++ [.data bytes])) : (s.data bytes).Regular good unbound := by
  obtain ⟨L, hL, hlines⟩ := h.shows
  have hshows := hL.data h.error bytes
  rw [show s.data bytes = { s with code := pushAll s.code bytes } by simp [Stream.data, h.error]]
    at hshows ⊢
  exact ⟨h.error, h.few, ⟨_, hshows, hgood _ hlines⟩, h.known, h.opened, h.nodup⟩

/-- Alignment to a power of two, or to nothing. -/
theorem align (h : s.Regular good unbound) {n : UInt16} (hn : n ≤ 1 ∨ n &&& (n - 1) = 0)
    (hgood : ¬n ≤ 1 → ∀ ls, good ls → good (ls ++ [.align n.toNat])) :
    (s.align n).Regular good unbound := by
  by_cases hsmall : n ≤ 1
  · rw [show s.align n = s by simp [Stream.align, h.error, hsmall]]
    exact h
  · have heq : s.align n =
        { s with marks := s.marks.push { offset := s.code.size, alignment := n.toNat } } := by
      simp [Stream.align, h.error, hsmall, hn.resolve_left hsmall]
    obtain ⟨L, hL, hlines⟩ := h.shows
    have hshows := hL.align h.error (n := n) (by rw [heq]; exact h.error) hsmall
    rw [heq] at hshows ⊢
    exact ⟨h.error, h.few, ⟨_, hshows, hgood hsmall _ hlines⟩, h.known, h.opened, h.nodup⟩

theorem followed_emit (h : s.Regular good unbound) {m : Mnemonic} {a : Arg}
    (hmode : (Opcode.encode? m a.mode).isSome = true)
    (hlabel : a.operand.label.isSome = true → s.Knows a.operand.label) :
    (s.emit m a.operand).Followed := by
  obtain ⟨L, hL, -⟩ := h.shows
  obtain ⟨code, hcode⟩ := Option.isSome_iff_exists.1 hmode
  have hsize : s.code.size < (s.emit m a.operand).code.size := by
    have hknown : (a.operand.label.isSome && (s.label? a.operand.label).isNone) = false := by
      cases hl : a.operand.label.isSome with
      | false => rfl
      | true => simpa [Knows, Option.isSome_iff_ne_none] using hlabel hl
    simp only [Stream.emit, h.error, operand_mode, hcode, hknown, Bool.false_eq_true, if_false,
      size_pushAll, Array.size_push]
    omega
  exact hL.followed (labels_emit s m a.operand) hsize

theorem followed_data (h : s.Regular good unbound) {bytes : List UInt8} (hbytes : bytes ≠ []) :
    (s.data bytes).Followed := by
  obtain ⟨L, hL, -⟩ := h.shows
  refine hL.followed (labels_data s bytes) ?_
  have := List.length_pos_iff.2 hbytes
  simp only [Stream.data, h.error, size_pushAll]
  omega

/-- With no label open, every label that is referred to is bound. -/
theorem unresolved? (h : s.Regular good []) : s.unresolved? = none := by
  refine Array.find?_eq_none.2 fun f hf => ?_
  rcases (h.known f (Array.mem_toList_iff.2 hf)).open_or_bound with hopen | ⟨offset, ho⟩
  · exact absurd ((h.opened _).1 hopen) nofun
  · simp [ho]

end Regular

/-! ## Tidy streams -/

/-- Lines of code: no padding, and no branch to a far label. -/
def IsCode (far : LabelId → Prop) (line : Line) : Prop :=
  line.isAlign = false ∧ ∀ mn l, line = .instr mn (.relative l) → ¬far l

/-- A regular stream of code. -/
abbrev Tidy (far : LabelId → Prop) : Stream → List LabelId → Prop :=
  Regular fun lines => ∀ line ∈ lines, IsCode far line

namespace Tidy

variable {far : LabelId → Prop} {unbound : List LabelId}

theorem isCode_snoc {lines : List Line} {line : Line} (h : ∀ line ∈ lines, IsCode far line)
    (hline : IsCode far line) : ∀ line' ∈ lines ++ [line], IsCode far line' := by
  intro line' hmem
  rcases List.mem_append.1 hmem with hmem | hmem
  · exact h line' hmem
  · exact List.mem_singleton.1 hmem ▸ hline

theorem bind (h : s.Tidy far (l :: unbound)) : (s.bind l).Tidy far unbound :=
  Regular.bind h fun _ hls => isCode_snoc hls ⟨rfl, nofun⟩

theorem emit (h : s.Tidy far unbound) {m : Mnemonic} {a : Arg}
    (hmode : (Opcode.encode? m a.mode).isSome = true) (hadmits : s.Admits far a) :
    (s.emit m a.operand).Tidy far unbound :=
  Regular.emit h hmode hadmits.1 fun _ hls =>
    isCode_snoc hls ⟨rfl, fun _ l heq => hadmits.2 l (Line.instr.inj heq).2⟩

theorem data (h : s.Tidy far unbound) (bytes : List UInt8) : (s.data bytes).Tidy far unbound :=
  Regular.data h bytes fun _ hls => isCode_snoc hls ⟨rfl, nofun⟩

end Tidy

end Stream

end Breadbin.Assembly
