import Mathlib.Data.List.Perm.Subperm
import Breadbin.Proofs.Routine.Labels
import Breadbin.Routine.Library

/-!
# The routines bind their labels

Every routine of the library binds each label it makes once and writes instructions that exist.  The
library writes every routine that was asked for: a pass that writes none has found all of them
written, and there are more passes than routines.
-/

namespace Breadbin.Routine

open Assembly Writer

theorem exists_leaves {R : List RoutineId} {n : Nat} {x : Writer Unit}
    (h : Leaves R n true [] [] x []) (few : n ≤ 32) : ∃ n ≤ 32, Leaves R n true [] [] x [] :=
  ⟨n, few, h⟩

/-- The text of every routine follows the rules of `Writer.Leaves`. -/
theorem body_leaves (id : RoutineId) : ∃ n ≤ 32, Leaves id.calls n true [] [] (body id) [] := by
  cases id <;>
    simp only [body, RoutineId.calls, mul8, mul16, divU8, negateA, absoluteByte, divS8, divU16,
      divS16, multiplyWide, saturate, signedResult, fixedMul, fixedDiv, branchSpecial, branchZero,
      branchNan, returnConstant,
      returnSigned, unpack, swapBytes, floatPack, floatAdd, floatSub, floatMul, floatDiv, sortKey,
      floatCompare, floatOfMagnitude, floatOfU16, floatOfI16, floatTruncate, floatSaturate,
      floatToU16, floatToI16, floatOfFixed, floatToFixed, measure, returnAddress, stringConcat,
      stringEqual, stringLength, stringAt, formatU16, textOfU16, minusSign, textOfI16, textOfFixed,
      textOfFloat, textOfBool, parseU16, skipSpaces, u16OfText, i16OfText, printString,
      printLineEnd, randomSeed, randomNext, randomInit, randomRange, returnWord, moveWord, setWord,
      addWord, subWord, negateWord, shiftLeftWord, shiftRightWord, sticky, shiftRightSticky,
      compareWord, testWord, absoluteWord]
  all_goals
    apply exists_leaves
    · repeat' first | with_reducible constructor | exact List.cons_ne_nil _ _ | intro _ | rfl | simp
    · decide

/-! ## One routine -/

variable {far : LabelId → Prop} {w : Workspace} {unbound : List LabelId}

/-- What is left of asking whether a routine is to be written. -/
theorem emitOne_cases (id : RoutineId) (w : Workspace) :
    (emitOne id w = (false, w) ∧ ((w.label? id).isSome = true → id ∈ w.emitted)) ∨
      ∃ l, w.label? id = some l ∧ id ∉ w.emitted ∧
        emitOne id w = (true, (body id { w with
          emitted := id :: w.emitted, stream := w.stream.bind l }).2) := by
  cases hl : w.label? id with
  | none =>
    refine .inl ⟨?_, nofun⟩
    simp only [emitOne, Writer.bind_apply, Writer.get_apply, hl]
    rfl
  | some l =>
    by_cases hid : id ∈ w.emitted
    · refine .inl ⟨?_, fun _ => hid⟩
      simp only [emitOne, Writer.bind_apply, Writer.get_apply, hl]
      simp [hid]
    · refine .inr ⟨l, rfl, hid, ?_⟩
      simp only [emitOne, Writer.bind_apply, Writer.get_apply, hl]
      simp [hid]
      rfl

theorem emitOne_keeps (id : RoutineId) (w : Workspace) : w.Keeps (emitOne id w).2 := by
  rcases emitOne_cases id w with ⟨h, -⟩ | ⟨l, -, -, h⟩
  · rw [h]
    exact .refl w
  · rw [h]
    obtain ⟨n, -, hleaves⟩ := body_leaves id
    have hbody := (hleaves.extends { w with
      emitted := id :: w.emitted, stream := w.stream.bind l }).toKeeps
    exact ⟨hbody.target, (w.bound_extends l).stream.trans hbody.stream⟩

/-- What is written is no longer to be written. -/
theorem pending_cons {id : RoutineId} {l : LabelId} (keys : (w.labels.map Prod.fst).Nodup)
    (hl : w.label? id = some l) (hid : id ∉ w.emitted) :
    w.pending.Perm (l :: Workspace.pending { w with emitted := id :: w.emitted }) := by
  obtain ⟨pre, post, hlabels, -⟩ := List.lookup_eq_some_iff.1 hl
  rw [hlabels, List.map_append, List.map_cons, List.perm_middle.nodup_iff] at keys
  have hother : ∀ e ∈ pre ++ post, e.1 ≠ id := by
    intro e he heq
    refine (List.nodup_cons.1 keys).1 ?_
    rw [← List.map_append]
    exact List.mem_map.2 ⟨e, he, heq⟩
  have hsame (es : List (RoutineId × LabelId)) (hes : ∀ e ∈ es, e.1 ≠ id) :
      (es.filterMap fun e => if (id :: w.emitted).contains e.1 then none else some e.2) =
        es.filterMap fun e => if w.emitted.contains e.1 then none else some e.2 := by
    induction es with
    | nil => rfl
    | cons e es ih =>
      have he := hes e (by simp)
      simp only [List.filterMap_cons, ih fun e he => hes e (by simp [he])]
      simp [he]
  have hpre := hsame pre fun e he => hother e (by simp [he])
  have hpost := hsame post fun e he => hother e (by simp [he])
  simp only [Workspace.pending, hlabels, List.filterMap_append, List.filterMap_cons, hpre, hpost]
  simp [hid]

/-- Writing a routine keeps the workspace tidy, and what it writes last follows all labels. -/
theorem emitOne_tidy (id : RoutineId) (h : w.Tidy far unbound) (hend : w.stream.Followed)
    (few : (emitOne id w).2.stream.labels.size < 4294967296) :
    (emitOne id w).2.Tidy far unbound ∧ (emitOne id w).2.stream.Followed := by
  rcases emitOne_cases id w with ⟨heq, -⟩ | ⟨l, hl, hid, heq⟩
  · rw [heq]
    exact ⟨h, hend⟩
  · rw [heq] at few ⊢
    have hpending := pending_cons h.keys hl hid
    have hmarked : Workspace.Tidy far { w with emitted := id :: w.emitted } (l :: unbound) :=
      { stream := h.stream.perm ((hpending.append_left unbound).trans List.perm_middle)
        routines := h.routines
        keys := h.keys
        asked := fun id' hid' => by
          rcases List.mem_cons.1 hid' with rfl | hid'
          · exact Option.isSome_iff_exists.2 ⟨l, hl⟩
          · exact h.asked id' hid'
        far := h.far }
    obtain ⟨n, -, hleaves⟩ := body_leaves id
    obtain ⟨htidy, hfollowed⟩ := hleaves.tidy_followed (U := unbound) hmarked.bind nofun few
    exact ⟨htidy, hfollowed rfl⟩

/-! ## The library -/

/-- A list of routines gone over once; the second part says whether one was written. -/
def emitEach (ids : List RoutineId) (written : Bool) : Writer Bool :=
  ids.foldlM (fun written id => return (← emitOne id) || written) written

theorem emitEach_cons (id : RoutineId) (ids : List RoutineId) (written : Bool) (w : Workspace) :
    emitEach (id :: ids) written w =
      emitEach ids ((emitOne id w).1 || written) (emitOne id w).2 := rfl

theorem emitEach_keeps (ids : List RoutineId) (written : Bool) (w : Workspace) :
    w.Keeps (emitEach ids written w).2 := by
  induction ids generalizing written w with
  | nil => exact .refl w
  | cons id ids ih => exact (emitOne_keeps id w).trans (ih _ _)

theorem emitEach_tidy (ids : List RoutineId) (written : Bool) (h : w.Tidy far unbound)
    (hend : w.stream.Followed) (few : (emitEach ids written w).2.stream.labels.size < 4294967296) :
    (emitEach ids written w).2.Tidy far unbound ∧ (emitEach ids written w).2.stream.Followed := by
  induction ids generalizing written w with
  | nil => exact ⟨h, hend⟩
  | cons id ids ih =>
    rw [emitEach_cons] at few ⊢
    have hrest := (emitEach_keeps ids ((emitOne id w).1 || written) (emitOne id w).2).labels
    obtain ⟨htidy, hfollowed⟩ := emitOne_tidy id h hend (Nat.lt_of_le_of_lt hrest few)
    exact ih _ htidy hfollowed few

/-- Writing nothing, the state stays, and all that was asked for is written. -/
theorem emitEach_false {ids : List RoutineId} {written : Bool}
    (h : (emitEach ids written w).1 = false) :
    written = false ∧ (emitEach ids written w).2 = w ∧
      ∀ id ∈ ids, (w.label? id).isSome = true → id ∈ w.emitted := by
  induction ids generalizing written w with
  | nil => exact ⟨h, rfl, by simp⟩
  | cons id ids ih =>
    rw [emitEach_cons] at h ⊢
    obtain ⟨hor, hsame, hrest⟩ := ih h
    rcases emitOne_cases id w with ⟨heq, hid⟩ | ⟨l, -, -, heq⟩
    · rw [heq] at hor hsame hrest
      rw [heq]
      refine ⟨by simpa using hor, hsame, fun id' hid' => ?_⟩
      rcases List.mem_cons.1 hid' with rfl | hid'
      · exact hid
      · exact hrest id' hid'
    · simp [heq] at hor

/-- The routines written later differ from each other and from those written before. -/
theorem emitEach_emitted (ids : List RoutineId) (written : Bool) (h : w.emitted.Nodup) :
    (emitEach ids written w).2.emitted.Nodup ∧
      w.emitted.length ≤ (emitEach ids written w).2.emitted.length ∧
      ((emitEach ids written w).1 = true →
        written = true ∨ w.emitted.length < (emitEach ids written w).2.emitted.length) := by
  induction ids generalizing written w with
  | nil => exact ⟨h, Nat.le_refl _, .inl⟩
  | cons id ids ih =>
    rw [emitEach_cons]
    rcases emitOne_cases id w with ⟨heq, -⟩ | ⟨l, -, hid, heq⟩
    · rw [heq]
      exact ih _ h
    · have hemitted : (emitOne id w).2.emitted = id :: w.emitted := by
        obtain ⟨n, -, hleaves⟩ := body_leaves id
        rw [heq]
        exact (hleaves.extends _).emitted
      obtain ⟨hnodup, hle, -⟩ := ih ((emitOne id w).1 || written)
        (hemitted ▸ List.nodup_cons.2 ⟨hid, h⟩)
      rw [hemitted, List.length_cons] at hle
      exact ⟨hnodup, by omega, fun _ => .inr (by omega)⟩

theorem emitPass_eq (w : Workspace) : emitPass w = emitEach RoutineId.all false w := rfl

theorem emitPasses_succ (n : Nat) (w : Workspace) :
    (emitPasses (n + 1) w).2 = if (emitPass w).1 then (emitPasses n (emitPass w).2).2
      else (emitPass w).2 := by
  rw [emitPasses, bind_apply]
  generalize emitPass w = r
  cases h : r.1 <;> rfl

theorem emitPass_keeps (w : Workspace) : w.Keeps (emitPass w).2 := by
  rw [emitPass_eq]
  exact emitEach_keeps _ _ w

theorem emitPass_tidy (h : w.Tidy far unbound) (hend : w.stream.Followed)
    (few : (emitPass w).2.stream.labels.size < 4294967296) :
    (emitPass w).2.Tidy far unbound ∧ (emitPass w).2.stream.Followed := by
  rw [emitPass_eq] at few ⊢
  exact emitEach_tidy _ _ h hend few

theorem emitPasses_keeps (n : Nat) (w : Workspace) : w.Keeps (emitPasses n w).2 := by
  induction n generalizing w with
  | zero => exact .refl w
  | succ n ih =>
    rw [emitPasses_succ]
    split
    · exact (emitPass_keeps w).trans (ih _)
    · exact emitPass_keeps w

theorem emitPasses_tidy (n : Nat) (h : w.Tidy far unbound) (hend : w.stream.Followed)
    (few : (emitPasses n w).2.stream.labels.size < 4294967296) :
    (emitPasses n w).2.Tidy far unbound ∧ (emitPasses n w).2.stream.Followed := by
  induction n generalizing w with
  | zero => exact ⟨h, hend⟩
  | succ n ih =>
    rw [emitPasses_succ] at few ⊢
    split at few
    next hmore =>
      rw [if_pos hmore]
      have hrest := (emitPasses_keeps n (emitPass w).2).labels
      obtain ⟨htidy, hfollowed⟩ := emitPass_tidy h hend (Nat.lt_of_le_of_lt hrest few)
      exact ih htidy hfollowed few
    next hdone =>
      rw [if_neg hdone]
      exact emitPass_tidy h hend few

theorem length_emitted_le (h : w.emitted.Nodup) : w.emitted.length ≤ RoutineId.all.length :=
  (List.subperm_of_subset h fun id _ => mem_all id).length_le

/-- With more passes than routines are left, all that was asked for is written. -/
theorem emitPasses_complete {n : Nat} (h : w.emitted.Nodup)
    (hn : RoutineId.all.length < n + w.emitted.length) {id : RoutineId}
    (hid : ((emitPasses n w).2.label? id).isSome = true) : id ∈ (emitPasses n w).2.emitted := by
  induction n generalizing w with
  | zero => exact absurd (length_emitted_le h) (by omega)
  | succ n ih =>
    obtain ⟨hnodup, hle, hmore⟩ := emitEach_emitted RoutineId.all false h
    rw [← emitPass_eq] at hnodup hle hmore
    rw [emitPasses_succ] at hid ⊢
    split at hid
    next hwritten =>
      rw [if_pos hwritten]
      have := (hmore hwritten).resolve_left nofun
      exact ih hnodup (by omega) hid
    next hnone =>
      rw [if_neg hnone]
      rw [Bool.not_eq_true, emitPass_eq] at hnone
      obtain ⟨-, hsame, hall⟩ := emitEach_false hnone
      rw [emitPass_eq, hsame] at hid ⊢
      exact hall id (mem_all id) hid

/-- Then no routine is left to be written. -/
theorem emitPasses_pending {n : Nat} (h : w.emitted.Nodup)
    (hn : RoutineId.all.length < n + w.emitted.length) : (emitPasses n w).2.pending = [] := by
  refine List.filterMap_eq_nil_iff.2 fun e he => ?_
  simpa using emitPasses_complete h hn (List.lookup_isSome_iff.2 ⟨e, he, by simp⟩)

theorem emitLibrary_keeps (w : Workspace) : w.Keeps (emitLibrary w).2 := by
  unfold emitLibrary
  exact emitPasses_keeps _ w

theorem emitLibrary_tidy (h : w.Tidy far unbound) (hend : w.stream.Followed)
    (few : (emitLibrary w).2.stream.labels.size < 4294967296) :
    (emitLibrary w).2.Tidy far unbound ∧ (emitLibrary w).2.stream.Followed := by
  unfold emitLibrary at few ⊢
  exact emitPasses_tidy _ h hend few

/-- Writing the library leaves no routine out. -/
theorem emitLibrary_emitted (h : w.emitted.Nodup) {id : RoutineId}
    (hid : ((emitLibrary w).2.label? id).isSome = true) : id ∈ (emitLibrary w).2.emitted := by
  unfold emitLibrary at hid ⊢
  exact emitPasses_complete h (by omega) hid

theorem emitLibrary_pending (h : w.emitted.Nodup) : (emitLibrary w).2.pending = [] := by
  unfold emitLibrary
  exact emitPasses_pending h (by omega)

/-- What is kept by writing a routine is kept by writing the library. -/
theorem emitLibrary_induction {P : Workspace → Prop} (step : ∀ id w, P w → P (emitOne id w).2)
    {w : Workspace} (h : P w) :
    P (emitLibrary w).2 := by
  have heach (ids : List RoutineId) (written : Bool) (w : Workspace) (h : P w) :
      P (emitEach ids written w).2 := by
    induction ids generalizing written w with
    | nil => exact h
    | cons id ids ih => exact ih _ _ (step id w h)
  have hpasses (n : Nat) (w : Workspace) (h : P w) : P (emitPasses n w).2 := by
    induction n generalizing w with
    | zero => exact h
    | succ n ih =>
      have hpass := heach RoutineId.all false w h
      rw [← emitPass_eq] at hpass
      rw [emitPasses_succ]
      split
      · exact ih _ hpass
      · exact hpass
  exact hpasses _ w h

/-- A routine is written behind what there is. -/
theorem emitOne_continues (id : RoutineId) (w : Workspace) :
    w.stream.Continues (emitOne id w).2.stream := by
  rcases emitOne_cases id w with ⟨h, -⟩ | ⟨l, -, -, h⟩
  · rw [h]
    exact .refl _
  · rw [h]
    obtain ⟨n, -, hleaves⟩ := body_leaves id
    obtain ⟨ls, hls, hnear, hends⟩ := hleaves.lines { w with
      emitted := id :: w.emitted, stream := w.stream.bind l }
    have hbound : w.stream.Grows (w.stream.bind l) [.bound l] :=
      @Stream.Grows.writing w.stream [.bound l] rfl
    refine ⟨_, hbound.trans hls.stream, fun mn l' hl' hsome => ?_, .inr ((hends rfl).append _)⟩
    rcases hnear mn l' (by simpa using hl') hsome with hl' | hl'
    · cases hl'
    · exact hl'.mono hbound.precedes (.refl _)

/-- The library is written behind what there is. -/
theorem emitLibrary_continues (w : Workspace) : w.stream.Continues (emitLibrary w).2.stream :=
  emitLibrary_induction (P := fun w' => w.stream.Continues w'.stream)
    (fun id _ h => h.trans (emitOne_continues id _)) (.refl _)

end Breadbin.Routine
