import Mathlib.Data.List.Induction
import Breadbin.Proofs.Assembly.Linking

/-!
# Streams that grow

A stream is appended to line by line, with new labels in between.  `Stream.Grows` forgets how many
labels were made and when; a stream that has grown from the empty one is the stream of its lines.
-/

namespace Breadbin

/-- Whether an instruction does not end the run. -/
@[reducible] def Mnemonic.goesOn : Mnemonic → Bool
  | brk => false
  | _ => true

namespace Assembly

/-- The operation that writes a line. -/
def Line.action : Line → Action
  | instr mn arg => .emit mn arg
  | data bytes => .data bytes
  | word r => .word r
  | bound l => .bind l
  | align n => .align (UInt16.ofNat n)

/-- Whether an operation writes the same lines wherever it stands, and no alignment. -/
def Action.isPlain : Action → Bool
  | placeLabel _ | align _ => false
  | _ => true

/-- A line of running code: a label, or an instruction that is no break and branches to near labels
only. -/
def Line.IsText (near : LabelId → Prop) : Line → Prop
  | .instr mn .implied => mn.goesOn = true
  | .instr _ (.relative l) => near l
  | .instr _ _ | .bound _ => True
  | .data _ | .word _ | .align _ => False

theorem Line.IsText.mono {near near' : LabelId → Prop} {line : Line} (h : line.IsText near)
    (hnear : ∀ l, near l → near' l) : line.IsText near' := by
  unfold IsText at h ⊢
  split at h <;> first | exact h | exact hnear _ h

/-- The last of some lines has bytes. -/
def Line.Ends (ls : List Line) : Prop := ∃ init line, ls = init ++ [line] ∧ line.isSolid = true

theorem Line.Ends.append {ls : List Line} (h : Line.Ends ls) (pre : List Line) :
    Line.Ends (pre ++ ls) := by
  obtain ⟨init, line, rfl, hline⟩ := h
  exact ⟨pre ++ init, line, by simp, hline⟩

theorem Line.Ends.singleton {line : Line} (h : line.isSolid = true) : Line.Ends [line] :=
  ⟨[], line, rfl, h⟩

theorem Line.isSolid_instr {mn : Mnemonic} {arg : Arg} (h : Opcode.takes mn arg.mode = true) :
    (Line.instr mn arg).isSolid = true := by
  obtain ⟨code, hcode⟩ := Option.isSome_iff_exists.1 (Opcode.encode?_isSome h)
  simp [Line.isSolid, Line.raw, hcode]

/-- Something with bytes stands behind each label of lines that end with bytes. -/
theorem Line.Ends.followed {ls us vs : List Line} {l : LabelId} (h : Line.Ends ls)
    (hsplit : ls = us ++ .bound l :: vs) :
    vs.any Line.isSolid = true := by
  obtain ⟨init, line, rfl, hline⟩ := h
  rcases List.eq_nil_or_concat vs with rfl | ⟨ws, last, rfl⟩
  · obtain ⟨-, rfl⟩ := by simpa using List.append_inj' hsplit rfl
    cases hline
  · have hlast : init ++ [line] = (us ++ .bound l :: ws) ++ [last] := by simpa using hsplit
    obtain ⟨-, hlast⟩ := List.append_inj' hlast rfl
    obtain rfl : line = last := by simpa using hlast
    simp [hline]

namespace Stream

/-- A stream with more lines. -/
def writing (s : Stream) (ls : List Line) : Stream := (ls.map Line.action).foldl Action.perform s

/-- The second stream is the first one with more lines and possibly more labels. -/
def Grows (s s' : Stream) (ls : List Line) : Prop :=
  ∃ actions : List Action, (∀ a ∈ actions, a.isPlain = true) ∧ s' = actions.foldl Action.perform s ∧
    ls = actions.flatMap (Action.lines 0)

/-- The second stream is the first one after more operations. -/
def Precedes (s s' : Stream) : Prop := ∃ actions : List Action, s' = actions.foldl Action.perform s

theorem Precedes.refl (s : Stream) : s.Precedes s := ⟨[], rfl⟩

theorem Precedes.trans {s t u : Stream} (h : s.Precedes t) (h' : t.Precedes u) : s.Precedes u := by
  obtain ⟨as, rfl⟩ := h
  obtain ⟨bs, rfl⟩ := h'
  exact ⟨as ++ bs, by simp⟩

theorem Precedes.perform (s : Stream) (a : Action) : s.Precedes (a.perform s) := ⟨[a], rfl⟩

/-- An error stays. -/
theorem Precedes.error {s s' : Stream} (h : s.Precedes s') (ok : s'.error = none) :
    s.error = none := by
  obtain ⟨actions, rfl⟩ := h
  exact foldl_perform_error ok

theorem Grows.precedes {s s' : Stream} {ls : List Line} (h : s.Grows s' ls) : s.Precedes s' := by
  obtain ⟨actions, -, hs', -⟩ := h
  exact ⟨actions, hs'⟩

theorem Grows.refl (s : Stream) : s.Grows s [] := ⟨[], by simp, rfl, rfl⟩

theorem Grows.trans {s t u : Stream} {ls ms : List Line} (h : s.Grows t ls) (h' : t.Grows u ms) :
    s.Grows u (ls ++ ms) := by
  obtain ⟨as, has, rfl, rfl⟩ := h
  obtain ⟨bs, hbs, rfl, rfl⟩ := h'
  refine ⟨as ++ bs, ?_, by simp, by simp⟩
  intro a ha
  rcases List.mem_append.1 ha with ha | ha
  · exact has a ha
  · exact hbs a ha

theorem Grows.addLabel (s : Stream) (name : Bytes) : s.Grows (s.addLabel name).1 [] :=
  ⟨[.addLabel name], by simp [Action.isPlain], rfl, rfl⟩

theorem Grows.writing (s : Stream) {ls : List Line} (h : ls.any Line.isAlign = false) :
    s.Grows (s.writing ls) ls := by
  replace h : ∀ line ∈ ls, line.isAlign = false := by simpa using h
  refine ⟨ls.map Line.action, ?_, rfl, ?_⟩
  · intro a ha
    obtain ⟨line, hline, rfl⟩ := List.mem_map.1 ha
    have := h line hline
    cases line <;> simp_all [Line.action, Action.isPlain, Line.isAlign]
  · induction ls with
    | nil => rfl
    | cons line ls ih =>
      have hline := h line (by simp)
      have ih := ih fun l hl => h l (by simp [hl])
      rw [List.map_cons, List.flatMap_cons, ← ih]
      cases line <;> first | rfl | cases hline

theorem writing_append (s : Stream) (ls ms : List Line) :
    (s.writing ls).writing ms = s.writing (ls ++ ms) := by
  simp [writing]

/-! ## Grown streams are linked -/

theorem lines_of_isPlain {a : Action} (h : a.isPlain = true) (made : Nat) :
    a.lines made = a.lines 0 := by
  cases a <;> first | rfl | cases h

theorem lines_foldl_add {actions : List Action}
    (h : ∀ a ∈ actions, a.isPlain = true) (L : Listing) :
    (actions.foldl Listing.add L).lines = L.lines ++ actions.flatMap (Action.lines 0) := by
  induction actions generalizing L with
  | nil => simp
  | cons a actions ih =>
    rw [List.foldl_cons, ih fun b hb => h b (by simp [hb]), List.flatMap_cons, Listing.add,
      lines_of_isPlain (h a (by simp)), List.append_assoc]

/-- A stream that has grown from the empty one shows its lines. -/
theorem Grows.shows {s : Stream} {ls : List Line} (h : Stream.Grows {} s ls) (ok : s.error = none) :
    ∃ L : Listing, s.Shows L ∧ L.lines = ls := by
  obtain ⟨actions, hplain, rfl, rfl⟩ := h
  refine ⟨Listing.ofActions actions, Stream.ofActions_shows ok, ?_⟩
  exact (lines_foldl_add hplain {}).trans (List.nil_append _)

/-- A label that can be bound has not been bound before. -/
theorem Shows.not_mem_labels {s : Stream} {L : Listing} {l : LabelId} (h : s.Shows L)
    (ok : (s.bind l).error = none) : l ∉ L.labels := by
  intro hmem
  obtain ⟨line, hline, hlabel⟩ := List.mem_filterMap.1 hmem
  obtain ⟨us, vs, hsplit⟩ := List.append_of_mem hline
  obtain rfl : line = .bound l := by
    cases line <;> simp_all [Line.label?]
  obtain ⟨hl, entry, hentry, hoffset⟩ := Stream.offset?_eq.1 (h.bound us l vs hsplit).2
  simp only [Stream.bind, Stream.label?, hl, if_true, hentry, hoffset] at ok
  exact error_of_fail ok

/-- No label is bound twice. -/
theorem ofActions_nodup_labels {actions : List Action} (ok : (ofActions actions).error = none) :
    (Listing.ofActions actions).labels.Nodup := by
  induction actions using List.reverseRecOn with
  | nil => exact .nil
  | append_singleton actions a ih =>
    have hstream : ofActions (actions ++ [a]) = a.perform (ofActions actions) := by simp [ofActions]
    have hlisting : Listing.ofActions (actions ++ [a]) = (Listing.ofActions actions).add a := by
      simp [Listing.ofActions]
    rw [hstream] at ok
    rw [hlisting]
    have hbefore := Action.error_of_perform ok
    have hnodup := ih hbefore
    have hshows := ofActions_shows hbefore
    generalize Listing.ofActions actions = L at *
    have hbound (l : LabelId) (hl : l ∉ L.labels) : (L.labels ++ [l]).Nodup :=
      List.nodup_append.2 ⟨hnodup, List.pairwise_singleton .., fun l' hl' l'' hl'' heq =>
        hl (by rwa [heq, List.mem_singleton.1 hl''] at hl')⟩
    rw [Listing.labels, Listing.add, List.filterMap_append]
    cases a with
    | bind l => exact hbound l (hshows.not_mem_labels ok)
    | placeLabel name =>
      have hsize : (ofActions actions).labels.size = L.names.length := by
        rw [← hshows.names, List.length_map, Array.length_toList]
      have hfresh : ((ofActions actions).addLabel name).2 ∉ L.labels :=
        (hshows.addLabel name).not_mem_labels ok
      rw [addLabel, hsize] at hfresh
      exact hbound _ hfresh
    | align n =>
      have hnone : (Action.lines L.names.length (.align n)).filterMap Line.label? = [] := by
        by_cases hn : n ≤ 1 <;> simp [Action.lines, hn, Line.label?]
      rw [hnone]
      exact (List.append_nil _).symm ▸ hnodup
    | _ => exact (List.append_nil _).symm ▸ hnodup

theorem Grows.nodup_labels {s : Stream} {ls : List Line} (h : Stream.Grows {} s ls)
    (ok : s.error = none) : (ls.filterMap Line.label?).Nodup := by
  obtain ⟨actions, hplain, rfl, rfl⟩ := h
  have hlines := lines_foldl_add hplain {}
  have hnodup := ofActions_nodup_labels ok
  rwa [Listing.labels, Listing.ofActions, hlines, List.nil_append] at hnodup

theorem Grows.not_align {s s' : Stream} {ls : List Line} (h : s.Grows s' ls) :
    ∀ line ∈ ls, line.isAlign = false := by
  obtain ⟨actions, hplain, -, rfl⟩ := h
  intro line hline
  obtain ⟨a, ha, hline⟩ := List.mem_flatMap.1 hline
  have := hplain a ha
  cases a <;> simp_all [Action.lines, Action.isPlain, Line.isAlign]

end Stream

end Assembly

end Breadbin
