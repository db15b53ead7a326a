import Breadbin.Proofs.Assembly.Progress
import Breadbin.Proofs.Routine.Flow

/-!
# Room for code

Code whose lines are short enough is linked: every layout on the way has room below the end of
memory, and so have its labels.  What can go wrong apart from that has been ruled out where lines
are followed through the linker; here it is want of room that is ruled out.
-/

namespace Breadbin.Assembly

open Spot Routine

/-! ## The size of lines -/

/-- A line takes no more bytes than it is given, as a branch around a jump too. -/
theorem Spot.size_le_room {s : Spot} (h : s.line.isAlign = false) : s.size ≤ room s.line := by
  have hoperand (arg : Arg) : arg.raw.length ≤ 2 := by
    cases arg <;> simp only [Arg.raw, wordBytes] <;> (try split) <;> simp
  have hinstr (mn : Mnemonic) (arg : Arg) : (Line.instr mn arg).raw.length ≤ 5 := by
    have := hoperand arg
    rw [Line.raw]
    split
    · rw [List.length_cons]
      omega
    · exact Nat.zero_le 5
  obtain ⟨line, grown⟩ := s
  cases line with
  | instr mn arg =>
    cases arg with
    | relative l =>
      show (if isLong ⟨.instr mn (.relative l), grown⟩ then [inverse mn, 3, 0x4C, 0, 0]
        else (Line.instr mn (.relative l)).raw).length ≤ 5
      split
      · exact Nat.le_refl 5
      · exact hinstr mn _
    | _ => exact hinstr mn _
  | data bytes => exact Nat.le_refl _
  | word r =>
    show (Line.word r).raw.length ≤ 2
    rw [Line.raw]
    split <;> exact Nat.le_refl 2
  | bound l => exact Nat.le_refl 0
  | align n => cases h

theorem extent_le_rooms {ss : List Spot} (h : ∀ s ∈ ss, s.line.isAlign = false) :
    extent ss ≤ rooms (ss.map Spot.line) := by
  induction ss with
  | nil => exact Nat.le_refl 0
  | cons s ss ih =>
    rw [extent_cons, List.map_cons, rooms]
    exact Nat.add_le_add (size_le_room (h s List.mem_cons_self))
      (ih fun t ht => h t (List.mem_cons_of_mem s ht))

/-- The label that a fixup is for is one that the line needs. -/
theorem needs?_of_fixup? {s : Spot} {offset : Nat} {f : Fixup} (h : s.fixup? offset = some f) :
    s.line.needs? = some f.label := by
  obtain ⟨line, grown⟩ := s
  cases line with
  | instr mn arg =>
    cases arg <;> simp only [fixup?, argFixup?, Line.needs?, Arg.ref?] at h ⊢ <;> grind
  | word r => simp only [fixup?, Line.needs?] at h ⊢; grind
  | _ => cases h

/-- Without alignments there are no marks. -/
theorem gather_mark?_eq_nil {ss : List Spot} {offset : Nat} (h : ∀ s ∈ ss, s.line.isAlign = false) :
    gather mark? offset ss = [] := by
  induction ss generalizing offset with
  | nil => rfl
  | cons s ss ih =>
    have hnone : s.mark? offset = none := by
      have hline := h s List.mem_cons_self
      unfold mark?
      split
      next n heq =>
        rw [heq] at hline
        cases hline
      next => rfl
    rw [gather, hnone, ih fun t ht => h t (List.mem_cons_of_mem s ht)]
    rfl

/-! ## Failures other than for want of room -/

/-- A result with a property, or a failure that is not for want of room. -/
def Ample {α : Type} (x : Except Error α) (P : α → Prop) : Prop :=
  match x with
  | .ok a => P a
  | .error e => e.isShortage = false

/-- What fails for want of room only, and not for want of room, does not fail. -/
theorem Ample.succeeds {α : Type} {P : α → Prop} {x : Except Error α} (h : Ample x P)
    (hfits : Fits x fun _ => True) :
    ∃ a, x = .ok a ∧ P a := by
  cases x with
  | ok a => exact ⟨a, rfl, h⟩
  | error e =>
    have hshort : e.isShortage = true := hfits
    have hample : e.isShortage = false := h
    rw [hshort] at hample
    cases hample

namespace Ample

variable {α β : Type} {P : α → Prop} {Q : β → Prop}

theorem bind {x : Except Error α} {f : α → Except Error β} (hx : Ample x P)
    (hf : ∀ a, P a → Ample (f a) Q) :
    Ample (x >>= f) Q := by
  cases x with
  | error e => exact hx
  | ok a => exact hf a hx

theorem foldlM {f : β → α → Except Error β} {xs : List α}
    (step : ∀ b, ∀ x ∈ xs, Q b → Ample (f b x) Q) {b : β} (hb : Q b) : Ample (xs.foldlM f b) Q := by
  induction xs generalizing b with
  | nil => exact hb
  | cons x xs ih =>
    rw [List.foldlM_cons]
    exact (step b x List.mem_cons_self hb).bind fun c hc =>
      ih (fun d y hy => step d y (List.mem_cons_of_mem x hy)) hc

theorem mapM {f : α → Except Error β} {xs : List α} (step : ∀ x ∈ xs, Ample (f x) fun _ => True) :
    Ample (xs.mapM f) fun _ => True := by
  induction xs with
  | nil => trivial
  | cons x xs ih =>
    rw [List.mapM_cons]
    exact (step x List.mem_cons_self).bind fun _ _ =>
      (ih fun y hy => step y (List.mem_cons_of_mem x hy)).bind fun _ _ => trivial

end Ample

/-! ## Layouts of short code -/

/-- A layout on the way from a stream to its image, in which no label is referred to with an
offset. -/
structure Layout.OnTheWay (s : Stream) (L : Listing) (origin : UInt16) (l : Layout) : Prop where
  spells : l.Spells (.ofStream s origin) ((ofLines L.lines).map written)
  addends : ∀ f ∈ l.fixups.toList, f.addend = 0

namespace Layout

variable {s : Stream} {L : Listing} {origin : UInt16} {l l' : Layout}

theorem onTheWay_keptByWidening (s : Stream) (L : Listing) (origin : UInt16) :
    KeptByWidening (OnTheWay s L origin) := by
  intro l l' i f h hf hk hfits he
  refine ⟨spells_keptByWidening _ _ l l' i f h.spells hf hk hfits he, fun g hg => ?_⟩
  obtain ⟨_, -, -, -, -, hfixups, -, -⟩ := expand_eq he
  have hzero : f.addend = 0 := h.addends f (List.mem_iff_getElem?.2 ⟨i, by simpa using hf⟩)
  rw [hfixups, Array.set!_eq_setIfInBounds, Array.toList_setIfInBounds] at hg
  rcases List.mem_or_eq_of_mem_set hg with hg | rfl
  · rw [Array.toList_map] at hg
    obtain ⟨g', hg', rfl⟩ := List.mem_map.1 hg
    exact h.addends g' hg'
  · exact hzero

namespace OnTheWay

theorem start (h : s.Shows L) (origin : UInt16) (haddends : ∀ f ∈ s.fixups.toList, f.addend = 0) :
    OnTheWay s L origin (.ofStream s origin) :=
  ⟨⟨.refl _, _, ofStream_lays h origin, rfl⟩, haddends⟩

theorem origin_eq (h : OnTheWay s L origin l) : l.origin = origin.toNat := h.spells.kin.origin

/-- The lines are those of the listing. -/
theorem laid (h : OnTheWay s L origin l) : ∃ ss, l.Lays ss ∧ ss.map Spot.line = L.lines := by
  obtain ⟨-, ss, hlays, hwritten⟩ := h.spells
  refine ⟨ss, hlays, ?_⟩
  rw [← map_fst_written, hwritten, map_fst_written]
  simp [ofLines, Function.comp_def]

theorem size_le (h : OnTheWay s L origin l) (hplain : ∀ line ∈ L.lines, line.isAlign = false) :
    l.code.size ≤ rooms L.lines := by
  obtain ⟨ss, hlays, hlines⟩ := h.laid
  rw [← Array.length_toList, hlays.code, ← hlines]
  exact extent_le_rooms fun t ht => hplain _ (hlines ▸ List.mem_map_of_mem ht)

/-- A bound label stands in the code or at its end. -/
theorem offset_le (h : OnTheWay s L origin l) {label : LabelId} (hlabel : label ∈ L.labels) :
    ∃ o, l.offsets[label.number.toNat - 1]? = some o ∧ o ≤ l.code.size := by
  obtain ⟨ss, hlays, hlines⟩ := h.laid
  obtain ⟨line, hline, hbound⟩ := List.mem_filterMap.1 hlabel
  obtain ⟨b, hb, rfl⟩ := List.mem_map.1 (hlines ▸ hline)
  obtain ⟨us, vs, rfl⟩ := List.append_of_mem hb
  have hbline : b.line = .bound label := by
    cases hb' : b.line <;> simp_all [Line.label?]
  refine ⟨_, hlays.labels us b vs rfl label hbline, ?_⟩
  rw [← Array.length_toList, hlays.code]
  show extent us + lead vs ≤ extent (us ++ b :: vs)
  rw [extent_append, extent_cons]
  have := lead_le_extent vs
  omega

/-- The fixups are those of lines, and so their labels are bound. -/
theorem mem_labels (h : OnTheWay s L origin l) (hs : s.Shows L)
    (hresolved : s.unresolved? = none) {f : Fixup}
    (hf : f ∈ l.fixups.toList) : f.label ∈ L.labels := by
  obtain ⟨ss, hlays, hlines⟩ := h.laid
  rw [hlays.fixups] at hf
  obtain ⟨i, hi⟩ := List.mem_iff_getElem?.1 hf
  obtain ⟨xs, t, ys, rfl, -, ht⟩ := gather_split hi
  exact hs.needs_bound hresolved (hlines ▸ List.mem_map_of_mem (by simp)) (needs?_of_fixup? ht)

end OnTheWay

theorem step_ample {w : Walk} {i : Nat} {queue : List Nat} (h : OnTheWay s L origin w.layout)
    (hopen : w.layout.Opens (i :: queue ++ w.fitting)) :
    Ample (w.step i) fun w' => OnTheWay s L origin w'.layout ∧
      w'.layout.Opens (queue ++ w'.fitting) := by
  cases hw : w.step i with
  | ok w' => exact Walk.step_keeps (onTheWay_keptByWidening s L origin) h hopen hw
  | error e =>
    simp only [Walk.step] at hw
    split at hw
    · cases hw
    · cases he : w.layout.expand i (w.layout.fixups.getD i default) with
      | ok l =>
        rw [he] at hw
        cases hw
      | error e' =>
        rw [he] at hw
        cases hw
        unfold expand at he
        extract_lets code at he
        split at he <;> cases he
        rfl

theorem foldlM_step_ample {w : Walk} {queue : List Nat} (h : OnTheWay s L origin w.layout)
    (hopen : w.layout.Opens (queue ++ w.fitting)) :
    Ample (queue.foldlM Walk.step w) fun w' => OnTheWay s L origin w'.layout ∧
      w'.layout.Opens w'.fitting := by
  induction queue generalizing w with
  | nil => exact ⟨h, hopen⟩
  | cons i queue ih =>
    rw [List.foldlM_cons]
    exact (step_ample h hopen).bind fun v hv => ih hv.1 hv.2

section Plain

variable (hplain : ∀ line ∈ L.lines, line.isAlign = false)
  (hroom : origin.toNat + rooms L.lines < 0x10000)

include hplain hroom

/-- Bound labels have addresses. -/
theorem OnTheWay.address_lt (h : OnTheWay s L origin l) {label : LabelId}
    (hlabel : label ∈ L.labels) :
    ∃ o, l.offsets[label.number.toNat - 1]? = some o ∧ l.origin + o < 0x10000 := by
  obtain ⟨o, ho, hle⟩ := h.offset_le hlabel
  have hsize := h.size_le hplain
  have horigin := h.origin_eq
  exact ⟨o, ho, by omega⟩

theorem OnTheWay.checkSize_eq (h : OnTheWay s L origin l) : l.checkSize = .ok () := by
  have := h.size_le hplain
  have := h.origin_eq
  rw [checkSize, if_neg (by omega)]

theorem settleBranches_ample {walks : Nat} {queue : List Nat} (h : OnTheWay s L origin l)
    (hopen : l.Opens queue) :
    Ample (settleBranches walks l queue) (OnTheWay s L origin) := by
  induction walks generalizing l queue with
  | zero => exact h
  | succ n ih =>
    cases queue with
    | nil => exact h
    | cons i queue =>
      rw [settleBranches_cons]
      refine (foldlM_step_ample h (by simpa using hopen)).bind fun w hw => ?_
      split
      · rw [hw.1.checkSize_eq hplain hroom]
        exact ih hw.1 ⟨List.pairwise_reverse.2 (hw.2.nodup.imp Ne.symm), fun j hj =>
          hw.2.kind j (List.mem_reverse.1 hj)⟩
      · exact hw.1

omit hroom in
/-- Without alignments nothing is padded. -/
theorem OnTheWay.alignAll_eq (h : OnTheWay s L origin l) : l.alignAll = (l, false) := by
  obtain ⟨ss, hlays, hlines⟩ := h.laid
  have hmarks : l.marks.size = 0 := by
    rw [← Array.length_toList, hlays.marks, gather_mark?_eq_nil fun t ht =>
      hplain _ (hlines ▸ List.mem_map_of_mem ht)]
    rfl
  rw [Layout.alignAll, hmarks]
  rfl

theorem settle_ample {passes : Nat} (h : OnTheWay s L origin l) :
    Ample (settle passes l) (OnTheWay s L origin) := by
  cases passes with
  | zero => rfl
  | succ n =>
    rw [settle]
    refine (settleBranches_ample hplain hroom h l.opens_openBranches).bind fun l' hl' => ?_
    rw [hl'.alignAll_eq hplain]
    exact hl'

theorem patchAll_ample (h : OnTheWay s L origin l) (hs : s.Shows L)
    (hresolved : s.unresolved? = none) :
    Ample l.patchAll fun l' => l'.origin = l.origin ∧ l'.offsets = l.offsets ∧
      l'.code.size = l.code.size := by
  unfold patchAll
  rw [h.checkSize_eq hplain hroom, ← Array.foldlM_toList]
  refine Ample.foldlM (fun l' f hf ⟨horigin, hoffsets, hsize⟩ => ?_) ⟨rfl, rfl, rfl⟩
  obtain ⟨o, ho, hlt⟩ := h.address_lt hplain hroom (h.mem_labels hs hresolved hf)
  have hoffset : l'.offset f.label = o := by
    simp [Layout.offset, Array.getD_eq_getD_getElem?, hoffsets, ho]
  have hzero : f.addend.toNat = 0 := by rw [h.addends f hf]; rfl
  unfold patch
  dsimp only
  rw [if_neg (by omega)]
  split
  · split
    · exact ⟨horigin, hoffsets, by simpa using hsize⟩
    · rfl
  all_goals exact ⟨horigin, hoffsets, by simpa using hsize⟩

theorem symbols_ample (h : OnTheWay s L origin l) (hs : s.Shows L) {l' : Layout}
    (horigin : l'.origin = l.origin)
    (hoffsets : l'.offsets = l.offsets) : Ample (l'.symbols s.labels.toList) fun _ => True := by
  unfold symbols
  refine (Ample.mapM fun p hp => ?_).bind fun _ _ => trivial
  obtain ⟨i, hi⟩ := List.mem_iff_getElem?.1 hp
  obtain ⟨hlabel, hoffset⟩ := List.getElem?_zip_eq_some.1 hi
  unfold symbol?
  split
  · trivial
  next hnamed =>
    have hsome : p.1.offset.isSome = true := by
      cases hp' : p.1.offset <;> simp_all
    obtain ⟨label, hmem, hnumber⟩ := hs.unbound i p.1 (by simpa using hlabel) hsome
    obtain ⟨o, ho, hlt⟩ := h.address_lt hplain hroom hmem
    obtain rfl : o = p.2 := by
      rw [hoffsets, Array.getElem?_toList] at hoffset
      rw [hnumber, Nat.add_sub_cancel, hoffset] at ho
      exact (Option.some.inj ho).symm
    dsimp only
    rw [if_neg (by omega)]
    trivial

end Plain

end Layout

/-- Short code without alignments, in which labels are referred to without offsets, is linked. -/
theorem Stream.Shows.exists_link {s : Stream} {L : Listing} (hs : s.Shows L)
    (herror : s.error = none)
    (hresolved : s.unresolved? = none) (hplain : ∀ line ∈ L.lines, line.isAlign = false)
    (haddends : ∀ f ∈ s.fixups.toList, f.addend = 0) {origin : UInt16}
    (hroom : origin.toNat + rooms L.lines < 0x10000) (hfits : Fits (s.link origin) fun _ => True) :
    ∃ image, s.link origin = .ok image ∧ image.bytes.size ≤ rooms L.lines := by
  refine Ample.succeeds ?_ hfits
  unfold Stream.link
  rw [herror, hresolved]
  refine (Layout.settle_ample hplain hroom (.start hs origin haddends)).bind fun l hl => ?_
  refine (Layout.patchAll_ample hplain hroom hl hs hresolved).bind
    fun l' ⟨horigin, hoffsets, hsize⟩ => ?_
  refine (Layout.symbols_ample hplain hroom hl hs horigin hoffsets).bind fun symbols _ => ?_
  exact hsize.trans_le (hl.size_le hplain)

end Breadbin.Assembly
