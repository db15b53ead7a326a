import Mathlib.Algebra.Group.Nat.Defs
import Breadbin.Proofs.Assembly.Linking
import Breadbin.Proofs.Assembly.Labels

/-!
# Linking code with data behind it

Where all padding stands behind the code, linking fails only for want of room.  Every branch that is
out of reach can be replaced, each walk that replaces one leaves fewer branches, and padding behind
the code moves no branch and no target of one.  So the second pass changes nothing.
-/

namespace Breadbin.Assembly

open Spot

/-- The failures of what would lie past the end of memory. -/
def Error.isShortage : Error → Bool
  | imageTooLarge .. | targetTooLarge _ | labelTooLarge _ => true
  | _ => false

/-- A result with a property, or a failure for want of room. -/
def Fits {α : Type} (x : Except Error α) (P : α → Prop) : Prop :=
  match x with
  | .ok a => P a
  | .error e => e.isShortage = true

namespace Fits

variable {α β : Type} {P : α → Prop} {Q : β → Prop}

theorem bind {x : Except Error α} {f : α → Except Error β} (hx : Fits x P)
    (hf : ∀ a, P a → Fits (f a) Q) : Fits (x >>= f) Q := by
  cases x with
  | error e => exact hx
  | ok a => exact hf a hx

theorem mono {P' : α → Prop} {x : Except Error α} (hx : Fits x P) (h : ∀ a, P a → P' a) :
    Fits x P' := by
  cases x with
  | error e => exact hx
  | ok a => exact h a hx

theorem foldlM {f : β → α → Except Error β} {xs : List α}
    (step : ∀ b, ∀ x ∈ xs, Q b → Fits (f b x) Q) {b : β} (hb : Q b) : Fits (xs.foldlM f b) Q := by
  induction xs generalizing b with
  | nil => exact hb
  | cons x xs ih =>
    rw [List.foldlM_cons]
    exact (step b x List.mem_cons_self hb).bind fun c hc =>
      ih (fun d y hy => step d y (List.mem_cons_of_mem x hy)) hc

theorem mapM {f : α → Except Error β} {xs : List α} (step : ∀ x ∈ xs, Fits (f x) fun _ => True) :
    Fits (xs.mapM f) fun _ => True := by
  induction xs with
  | nil => trivial
  | cons x xs ih =>
    rw [List.mapM_cons]
    exact (step x List.mem_cons_self).bind fun _ _ =>
      (ih fun y hy => step y (List.mem_cons_of_mem x hy)).bind fun _ _ => trivial

end Fits

namespace Layout

/-- Every branch that is still short reaches its label. -/
def Reaches (l : Layout) : Prop :=
  ∀ f ∈ l.fixups.toList, f.kind = .relative → Opcode.branchFits (l.displacement f) = true

/-! ## Trampolines -/

/-- The opcode in front of a short branch's fixup has an inverse. -/
theorem expand_succeeds {l : Layout} {ss : List Spot} {i : Nat} {f : Fixup} (h : l.Lays ss)
    (hf : l.fixups[i]? = some f) (hk : f.kind = .relative) : ∃ l', l.expand i f = .ok l' := by
  have hf' : (gather fixup? 0 ss)[i]? = some f := by
    rw [← h.fixups]
    simpa using hf
  obtain ⟨xs, s, ys, rfl, -, hs⟩ := gather_split hf'
  rw [Nat.zero_add] at hs
  obtain ⟨mn, label, rfl, -, rfl⟩ := fixup?_relative hs hk
  obtain ⟨op, hop, hraw⟩ := raw_short (h.valid ⟨.instr mn (.relative label), 0⟩ (by simp))
  have hat : l.code.getD (extent xs) 0 = op := by
    rw [Array.getD_eq_getD_getElem?, ← Array.getElem?_toList, h.code,
      show extent xs = (xs.flatMap Spot.raw).length from rfl]
    simp [hraw]
  obtain ⟨_, inverse, -, -, hinverse⟩ := Opcode.inverse?_of_encode? hop
  unfold expand
  simp only [Nat.add_sub_cancel, hat, hinverse]
  exact ⟨_, rfl⟩

/-- The fixups outside a list are those of no short branch. -/
def Covered (l : Layout) (queue : List Nat) : Prop :=
  ∀ i, l.fixups[i]?.map Fixup.kind = some .relative → i ∈ queue

/-- What is known while the short branches in a queue are walked over. -/
structure Walk.Going (w : Walk) (start l₀ : Layout) (ws : List (Line × Nat))
    (queue : List Nat) : Prop where
  spells : w.layout.Spells l₀ ws
  opens : w.layout.Opens (queue ++ w.fitting)
  covered : w.layout.Covered (queue ++ w.fitting)
  /-- until a trampoline is put in nothing has changed, and what was looked at fits -/
  still : w.inserted = false → w.layout = start ∧
    ∀ i ∈ w.fitting, ∀ f, start.fixups[i]? = some f →
      Opcode.branchFits (start.displacement f) = true

theorem fixups_expand_self {l l' : Layout} {i : Nat} {f : Fixup} (hf : l.fixups[i]? = some f)
    (h : l.expand i f = .ok l') : l'.fixups[i]?.map Fixup.kind = some .absolute := by
  obtain ⟨_, -, -, -, -, hfixups, -, -⟩ := expand_eq h
  obtain ⟨hlt, -⟩ := Array.getElem?_eq_some_iff.1 hf
  simp [hfixups, hlt]

theorem Walk.step_going {w : Walk} {start l₀ : Layout} {ws : List (Line × Nat)} {i : Nat}
    {queue : List Nat} (h : w.Going start l₀ ws (i :: queue)) :
    ∃ w', w.step i = .ok w' ∧ w'.Going start l₀ ws queue ∧
      (w'.fitting.length = w.fitting.length + 1 ∧ w'.inserted = w.inserted ∨
        w'.fitting.length = w.fitting.length ∧ w'.inserted = true) := by
  obtain ⟨f, hf, hk⟩ := Option.map_eq_some_iff.1 (h.opens.kind i (by simp))
  have hget : w.layout.fixups.getD i default = f := by simp [Array.getD_eq_getD_getElem?, hf]
  have hperm : (queue ++ i :: w.fitting).Perm (i :: queue ++ w.fitting) := List.perm_middle
  by_cases hfits : Opcode.branchFits (w.layout.displacement f) = true
  · have hstep : w.step i = .ok { w with fitting := i :: w.fitting } := by
      simp only [Walk.step, hget, hfits, if_true]
      rfl
    obtain ⟨hspells, hopens⟩ :=
      Walk.step_keeps (spells_keptByWidening l₀ ws) h.spells h.opens hstep
    refine ⟨_, hstep, ⟨hspells, hopens, fun j hj => hperm.mem_iff.2 (h.covered j hj), ?_⟩,
      .inl ⟨rfl, rfl⟩⟩
    intro hstill
    obtain ⟨hsame, hfitting⟩ := h.still hstill
    refine ⟨hsame, fun j hj g hg => ?_⟩
    rcases List.mem_cons.1 hj with rfl | hj
    · rw [hsame] at hf hfits
      obtain rfl := Option.some.inj (hf.symm.trans hg)
      exact hfits
    · exact hfitting j hj g hg
  · obtain ⟨hkin, ss, hlays, hws⟩ := h.spells
    obtain ⟨l, hexpand⟩ := expand_succeeds hlays hf hk
    have hstep : w.step i = .ok { w with layout := l, inserted := true } := by
      simp only [Walk.step, hget, hfits, hexpand]
      rfl
    obtain ⟨hspells, hopens⟩ :=
      Walk.step_keeps (spells_keptByWidening l₀ ws) h.spells h.opens hstep
    refine ⟨_, hstep, ⟨hspells, hopens, fun j hj => ?_, by simp⟩, .inr ⟨rfl, rfl⟩⟩
    have hne : j ≠ i := by
      rintro rfl
      rw [fixups_expand_self hf hexpand] at hj
      cases hj
    exact (List.mem_cons.1 (h.covered j ((expand_kinds hexpand hne).symm.trans hj))).resolve_left
      hne

theorem foldlM_step_going {queue : List Nat} {w : Walk} {start l₀ : Layout} {ws : List (Line × Nat)}
    (h : w.Going start l₀ ws queue) :
    ∃ w', queue.foldlM Walk.step w = .ok w' ∧ w'.Going start l₀ ws [] ∧
      w'.fitting.length ≤ w.fitting.length + queue.length ∧
      (w'.inserted = true → w.inserted = true ∨
        w'.fitting.length < w.fitting.length + queue.length) := by
  induction queue generalizing w with
  | nil => exact ⟨w, rfl, h, Nat.le_refl _, .inl⟩
  | cons i queue ih =>
    obtain ⟨v, hstep, hgoing, hcase⟩ := Walk.step_going h
    obtain ⟨w', hrest, hgoing', hle, hless⟩ := ih hgoing
    refine ⟨w', by rw [List.foldlM_cons, hstep]; exact hrest, hgoing', ?_, fun hinserted => ?_⟩
    · rw [List.length_cons]
      omega
    · rw [List.length_cons]
      rcases hcase with ⟨hlength, hsame⟩ | ⟨hlength, -⟩
      · rw [hsame] at hless
        exact (hless hinserted).imp id fun _ => by omega
      · right
        omega

theorem checkSize_fits (l : Layout) : Fits l.checkSize fun _ => True := by
  unfold checkSize
  split
  · rfl
  · trivial

theorem settleBranches_cons (n : Nat) (l : Layout) (i : Nat) (queue : List Nat) :
    settleBranches (n + 1) l (i :: queue) = (do
      let w ← (i :: queue).foldlM Walk.step { layout := l }
      if w.inserted then
        w.layout.checkSize
        settleBranches n w.layout w.fitting.reverse
      else return w.layout) := by
  rw [settleBranches]
  simp

/-- With more walks than short branches, the branches that stay short reach their labels. -/
theorem settleBranches_fits {walks : Nat} {l l₀ : Layout} {ws : List (Line × Nat)}
    {queue : List Nat} (h : l.Spells l₀ ws) (opens : l.Opens queue) (covered : l.Covered queue)
    (hwalks : queue.length < walks) :
    Fits (settleBranches walks l queue) fun l' => l'.Spells l₀ ws ∧ l'.Reaches := by
  induction walks generalizing l queue with
  | zero => omega
  | succ n ih =>
    have hreaches : ∀ {queue' : List Nat}, l.Covered queue' →
        (∀ i ∈ queue', ∀ f, l.fixups[i]? = some f →
        Opcode.branchFits (l.displacement f) = true) → l.Reaches := by
      intro queue' hcovered hfits f hf hk
      obtain ⟨i, hi⟩ := List.mem_iff_getElem?.1 hf
      rw [Array.getElem?_toList] at hi
      exact hfits i (hcovered i (by rw [hi, Option.map_some, hk])) f hi
    cases queue with
    | nil => exact ⟨h, hreaches covered nofun⟩
    | cons i queue =>
      have hstart : Walk.Going { layout := l } l l₀ ws (i :: queue) :=
        ⟨h, by simpa using opens, by simpa using covered, by simp⟩
      obtain ⟨w, hwalk, hgoing, hle, hless⟩ := foldlM_step_going hstart
      rw [settleBranches_cons, hwalk]
      show Fits (if w.inserted then _ else _) _
      split
      next hinserted =>
        refine (checkSize_fits _).bind fun _ _ => ih hgoing.spells
          ⟨List.pairwise_reverse.2 (hgoing.opens.nodup.imp Ne.symm), fun j hj =>
            ?_⟩ (fun j hj => ?_) ?_
        · exact hgoing.opens.kind j (List.mem_reverse.1 hj)
        · exact List.mem_reverse.2 (hgoing.covered j hj)
        · have := (hless hinserted).resolve_left nofun
          simp only [List.length_nil, List.length_cons, List.length_reverse] at this hwalks ⊢
          omega
      next hstill =>
        obtain ⟨hsame, hfitting⟩ := hgoing.still (by simpa using hstill)
        refine ⟨hgoing.spells, ?_⟩
        rw [hsame]
        have hcovered := hgoing.covered
        rw [hsame] at hcovered
        exact hreaches hcovered hfitting

/-- Putting in trampolines leaves the lines as they are and only branches that reach their
labels. -/
theorem trampoline_fits {l l₀ : Layout} {ws : List (Line × Nat)} (h : l.Spells l₀ ws) :
    Fits l.trampoline fun l' => l'.Spells l₀ ws ∧ l'.Reaches := by
  refine settleBranches_fits h l.opens_openBranches (fun i hi => ?_) (Nat.lt_succ_self _)
  obtain ⟨f, hf, hk⟩ := Option.map_eq_some_iff.1 hi
  obtain ⟨hlt, -⟩ := Array.getElem?_eq_some_iff.1 hf
  refine List.mem_filter.2 ⟨List.mem_range.2 hlt, ?_⟩
  simp [Array.getD_eq_getD_getElem?, hf, hk]

/-- Where every branch reaches its label no trampoline is put in. -/
theorem trampoline_of_reaches {l : Layout} (h : l.Reaches) : l.trampoline = .ok l := by
  have hfold : ∀ (queue : List Nat) (w : Walk), w.layout = l → w.inserted = false →
      (∀ i ∈ queue, l.fixups[i]?.map Fixup.kind = some .relative) →
      ∃ w', queue.foldlM Walk.step w = .ok w' ∧ w'.layout = l ∧ w'.inserted = false := by
    intro queue
    induction queue with
    | nil => exact fun w hl hi _ => ⟨w, rfl, hl, hi⟩
    | cons i queue ih =>
      intro w hl hi hkind
      obtain ⟨f, hf, hk⟩ := Option.map_eq_some_iff.1 (hkind i (by simp))
      have hget : l.fixups.getD i default = f := by simp [Array.getD_eq_getD_getElem?, hf]
      have hfits := h f (List.mem_iff_getElem?.2 ⟨i, by simpa using hf⟩) hk
      have hstep : w.step i = .ok { w with fitting := i :: w.fitting } := by
        simp only [Walk.step, hl, hget, hfits, if_true]
        rfl
      rw [List.foldlM_cons, hstep]
      exact ih _ hl hi fun j hj => hkind j (by simp [hj])
  obtain ⟨w, hwalk, hl, hi⟩ :=
    hfold l.openBranches { layout := l } rfl rfl l.opens_openBranches.kind
  unfold trampoline
  cases hqueue : l.openBranches with
  | nil => rfl
  | cons i queue =>
    rw [hqueue] at hwalk
    rw [settleBranches_cons, hwalk]
    show (if w.inserted then _ else _) = _
    rw [hi, hl]
    rfl

/-! ## Padding behind the code -/

/-- Nothing before `stop` is different in the second layout. -/
structure SameBelow (stop : Nat) (l l' : Layout) : Prop where
  origin : l'.origin = l.origin
  fixups : ∀ f' ∈ l'.fixups.toList, ∃ f ∈ l.fixups.toList,
    f' = { f with site := f'.site } ∧ (f.site < stop → f'.site = f.site)
  offset : ∀ label, l.offset label < stop → l'.offset label = l.offset label

theorem SameBelow.refl (stop : Nat) (l : Layout) : SameBelow stop l l :=
  ⟨rfl, fun f hf => ⟨f, hf, rfl, fun _ => rfl⟩, fun _ _ => rfl⟩

theorem SameBelow.trans {stop : Nat} {l l' l'' : Layout} (h : SameBelow stop l l')
    (h' : SameBelow stop l' l'') : SameBelow stop l l'' := by
  refine ⟨h'.origin.trans h.origin, fun f'' hf'' => ?_, fun label hlabel => ?_⟩
  · obtain ⟨f', hf', heq', hsite'⟩ := h'.fixups f'' hf''
    obtain ⟨f, hf, heq, hsite⟩ := h.fixups f' hf'
    refine ⟨f, hf, by rw [heq', heq], fun hlt => ?_⟩
    have := hsite hlt
    rw [hsite' (by omega), this]
  · have := h.offset label hlabel
    rw [h'.offset label (by omega), this]

/-- The branches of the code reach their labels as long as nothing changes there. -/
theorem Reaches.sameBelow {stop : Nat} {l l' : Layout} (h : l.Reaches) (hsame : SameBelow stop l l')
    (hbelow : ∀ f ∈ l.fixups.toList, f.kind = .relative → f.site < stop ∧ l.offset f.label < stop) :
    l'.Reaches := by
  intro f' hf' hk
  obtain ⟨f, hf, heq, hsite⟩ := hsame.fixups f' hf'
  have hkind : f.kind = .relative := by
    rw [heq] at hk
    exact hk
  obtain ⟨hlt, hlabel⟩ := hbelow f hf hkind
  have hfits := h f hf hkind
  have heq : f' = f := by rw [heq, hsite hlt]
  rw [heq]
  simpa only [displacement, hsame.offset f.label hlabel] using hfits

theorem shift_sameBelow {stop start : Nat} (delta : Nat) (l : Layout) (h : stop ≤ start) :
    SameBelow stop l (l.shift start delta) := by
  refine ⟨rfl, fun f' hf' => ?_, fun label hlabel => ?_⟩
  · simp only [shift, Array.toList_map, List.mem_map] at hf'
    obtain ⟨f, hf, rfl⟩ := hf'
    exact ⟨f, hf, rfl, fun hlt => moved_of_lt (by omega)⟩
  · simp only [offset, shift, Array.getD_eq_getD_getElem?, Array.getElem?_map] at hlabel ⊢
    cases ho : l.offsets[label.number.toNat - 1]? with
    | none => rfl
    | some o =>
      rw [ho, Option.getD_some] at hlabel
      exact moved_of_lt (by omega)

/-- Marks in order behind `stop`, of which so many have their padding. -/
structure Marked (stop done : Nat) (l : Layout) : Prop where
  power : ∀ (i : Nat) (m : AlignMark), l.marks[i]? = some m → ∃ k, m.alignment = 2 ^ k
  behind : ∀ (i : Nat) (m : AlignMark), l.marks[i]? = some m → stop ≤ m.offset
  padded : ∀ (i : Nat) (m : AlignMark), l.marks[i]? = some m → i < done →
    padding m.alignment (l.origin + m.offset) = m.pad
  fresh : ∀ (i : Nat) (m : AlignMark), l.marks[i]? = some m → done ≤ i → m.pad = 0
  order : ∀ (i j : Nat) (m m' : AlignMark), l.marks[i]? = some m → l.marks[j]? = some m' →
    i < j → done ≤ j →
    m.offset + m.pad ≤ m'.offset

theorem moved_zero (start offset : Nat) : moved start 0 offset = offset := by
  simp only [moved]
  split <;> omega

/-- A mark gets its padding, and what stands behind it moves. -/
theorem alignMark_eq {l : Layout} (changed : Bool) {i : Nat} {m : AlignMark}
    (hm : l.marks[i]? = some m) (hfresh : m.pad = 0) :
    ∃ want : Nat, want = padding m.alignment (l.origin + m.offset) ∧
      (∀ j, (alignMark (l, changed) i).1.marks[j]? =
        if j = i then some { m with pad := want }
        else l.marks[j]?.map fun n => { n with offset := moved m.offset want n.offset }) ∧
      ∀ stop, stop ≤ m.offset → SameBelow stop l (alignMark (l, changed) i).1 := by
  have hget : l.marks.getD i default = m := by simp [Array.getD_eq_getD_getElem?, hm]
  obtain ⟨hlt, -⟩ := Array.getElem?_eq_some_iff.1 hm
  refine ⟨_, rfl, ?_⟩
  simp only [alignMark, hget, hfresh, Int.natCast_zero, Int.sub_zero]
  split
  next hzero =>
    refine ⟨fun j => ?_, fun stop _ => .refl stop l⟩
    rw [hzero]
    split
    next hj =>
      obtain ⟨_, _, _⟩ := m
      simp_all
    next => simp [moved_zero]
  next hmoves =>
    refine ⟨fun j => ?_, fun stop hstop => ?_⟩
    · simp only [shift, Array.set!_eq_setIfInBounds, Array.getElem?_setIfInBounds,
        Array.getElem?_map, Array.size_map]
      by_cases hj : j = i
      · simp [hj, hlt]
      · simp [hj, Ne.symm hj]
    · obtain ⟨horigin, hfixups, hoffset⟩ :=
        shift_sameBelow (padding m.alignment (l.origin + m.offset)) l hstop
      exact ⟨horigin, hfixups, hoffset⟩

theorem dvd_of_padding_eq_zero {n a : Nat} (hn : 0 < n) (h : padding n a = 0) : n ∣ a := by
  have := (padding_spec (a := a) hn).1
  rw [h] at this
  exact Nat.dvd_of_mod_eq_zero this

/-- Of two powers of two at one place either asks for nothing more once the other is padded. -/
theorem padding_padded {j k a : Nat} (h : padding (2 ^ j) a = 0) :
    padding (2 ^ j) (a + padding (2 ^ k) a) = 0 := by
  have hdvd := dvd_of_padding_eq_zero (Nat.two_pow_pos j) h
  refine padding_eq_zero (Nat.mod_eq_zero_of_dvd ?_)
  rcases Nat.le_total j k with hle | hle
  · exact Nat.dvd_trans (Nat.pow_dvd_pow 2 hle)
      (Nat.dvd_of_mod_eq_zero (padding_spec (a := a) (Nat.two_pow_pos k)).1)
  · rw [padding_eq_zero (Nat.mod_eq_zero_of_dvd (Nat.dvd_trans (Nat.pow_dvd_pow 2 hle) hdvd))]
    exact hdvd

theorem Marked.alignMark {stop done : Nat} {l : Layout} (h : l.Marked stop done) (changed : Bool)
    {m : AlignMark} (hm : l.marks[done]? = some m) :
    (alignMark (l, changed) done).1.Marked stop (done + 1) ∧
      SameBelow stop l (Layout.alignMark (l, changed) done).1 := by
  obtain ⟨want, hwant, hmarks, hsame⟩ := alignMark_eq changed hm
    (h.fresh done m hm (Nat.le_refl _))
  have hsame := hsame stop (h.behind done m hm)
  generalize Layout.alignMark (l, changed) done = after at hmarks hsame
  -- where a mark goes: the padded one stays, the others move if they stand behind it
  have hmark : ∀ i n, after.1.marks[i]? = some n → i = done ∧ n = { m with pad := want } ∨
      i ≠ done ∧ ∃ n', l.marks[i]? = some n' ∧
        n = { n' with offset := moved m.offset want n'.offset } := by
    intro i n hn
    rw [hmarks] at hn
    split at hn
    next hi => exact .inl ⟨hi, (Option.some.inj hn).symm⟩
    next hi =>
      obtain ⟨n', hn', rfl⟩ := Option.map_eq_some_iff.1 hn
      exact .inr ⟨hi, n', hn', rfl⟩
  refine ⟨⟨fun i n hn => ?_, fun i n hn => ?_, fun i n hn hi => ?_, fun i n hn hi => ?_,
    fun i j n n' hn hn' hij hj => ?_⟩, hsame⟩
  · rcases hmark i n hn with ⟨rfl, rfl⟩ | ⟨-, n', hn', rfl⟩
    · exact h.power i m hm
    · exact h.power i n' hn'
  · rcases hmark i n hn with ⟨rfl, rfl⟩ | ⟨-, n', hn', rfl⟩
    · exact h.behind i m hm
    · have := h.behind i n' hn'
      simp only [moved]
      split <;> omega
  · rw [hsame.origin]
    rcases hmark i n hn with ⟨rfl, rfl⟩ | ⟨hne, n', hn', rfl⟩
    · exact hwant.symm
    · have hpadded := h.padded i n' hn' (by omega)
      have horder := h.order i done n' m hn' hm (by omega) (Nat.le_refl _)
      simp only [moved]
      split
      next hle =>
        have hzero : n'.pad = 0 := by omega
        have hplace : n'.offset = m.offset := by omega
        obtain ⟨j, hj⟩ := h.power i n' hn'
        obtain ⟨k, hk⟩ := h.power done m hm
        rw [hzero, hplace, hj] at hpadded
        have := padding_padded (k := k) hpadded
        rw [← hk, ← hwant] at this
        rw [hplace, hj, hzero, ← this]
        congr 1
        omega
      next => exact hpadded
  · rcases hmark i n hn with ⟨rfl, -⟩ | ⟨-, n', hn', rfl⟩
    · omega
    · exact h.fresh i n' hn' (by omega)
  · rcases hmark j n' hn' with ⟨rfl, -⟩ | ⟨-, m', hm', rfl⟩
    · omega
    · have hbehind := h.order done j m m' hm hm' (by omega) (by omega)
      have hmoved : moved m.offset want m'.offset = m'.offset + want := by
        rw [moved, if_pos (by omega)]
        omega
      simp only [hmoved]
      rcases hmark i n hn with ⟨rfl, rfl⟩ | ⟨hne, k, hk, rfl⟩
      · have := h.fresh i m hm (Nat.le_refl _)
        simp only
        omega
      · have horder := h.order i j k m' hk hm' hij (by omega)
        simp only [moved]
        split <;> omega

theorem size_marks_alignMark (state : Layout × Bool) (i : Nat) :
    (Layout.alignMark state i).1.marks.size = state.1.marks.size := by
  unfold alignMark
  dsimp only
  split
  · rfl
  · simp [shift]

/-- Padding all marks gives each its padding. -/
theorem Marked.alignAll {stop : Nat} {l : Layout} (h : l.Marked stop 0) :
    l.alignAll.1.Marked stop l.alignAll.1.marks.size ∧ SameBelow stop l l.alignAll.1 := by
  have hprefix : ∀ n ≤ l.marks.size,
      ((List.range n).foldl Layout.alignMark (l, false)).1.Marked stop n ∧
        SameBelow stop l ((List.range n).foldl Layout.alignMark (l, false)).1 ∧
        ((List.range n).foldl Layout.alignMark (l, false)).1.marks.size = l.marks.size := by
    intro n hn
    induction n with
    | zero => exact ⟨h, .refl stop l, rfl⟩
    | succ n ih =>
      obtain ⟨hmarked, hsame, hsize⟩ := ih (by omega)
      rw [List.range_succ, List.foldl_append]
      generalize (List.range n).foldl Layout.alignMark (l, false) = state at hmarked hsame hsize
      obtain ⟨hmarked', hsame'⟩ := hmarked.alignMark state.2
        (Array.getElem?_eq_getElem (show n < state.1.marks.size by omega))
      exact ⟨hmarked', hsame.trans hsame', (size_marks_alignMark state n).trans hsize⟩
  obtain ⟨hmarked, hsame, hsize⟩ := hprefix l.marks.size (Nat.le_refl _)
  unfold Layout.alignAll
  rw [hsize]
  exact ⟨hmarked, hsame⟩

/-- Marks that have their padding stay. -/
theorem Marked.alignAll_eq {stop : Nat} {l : Layout} (h : l.Marked stop l.marks.size) :
    l.alignAll = (l, false) := by
  have hmark : ∀ i < l.marks.size, Layout.alignMark (l, false) i = (l, false) := by
    intro i hi
    have hm := Array.getElem?_eq_getElem hi
    have hpadded := h.padded i l.marks[i] hm hi
    have hget : l.marks.getD i default = l.marks[i] := by
      simp [Array.getD_eq_getD_getElem?, hm]
    simp only [Layout.alignMark, hget, hpadded, if_true]
  unfold Layout.alignAll
  suffices ∀ is : List Nat, (∀ i ∈ is, i < l.marks.size) →
      is.foldl Layout.alignMark (l, false) = (l, false) from
    this _ fun i hi => List.mem_range.1 hi
  intro is his
  induction is with
  | nil => rfl
  | cons i is ih =>
    rw [List.foldl_cons, hmark i (his i (by simp))]
    exact ih fun j hj => his j (by simp [hj])

/-- Code with padding behind it settles in two passes. -/
theorem settle_fits (passes : Nat) {l l₀ : Layout} {ws : List (Line × Nat)} (h : l.Spells l₀ ws)
    (marked : ∀ l' : Layout, l'.Spells l₀ ws → ∃ stop, l'.Marked stop 0 ∧
      ∀ f ∈ l'.fixups.toList, f.kind = .relative → f.site < stop ∧ l'.offset f.label < stop) :
    Fits (settle (passes + 2) l) fun l' => l'.Reaches ∧ ∃ l₁ : Layout, l₁.Spells l₀ ws ∧
      l' = l₁.alignAll.1 := by
  rw [settle]
  refine (trampoline_fits h).bind fun l₁ h₁ => ?_
  obtain ⟨hspells, hreaches⟩ := h₁
  obtain ⟨stop, hmarked, hbelow⟩ := marked l₁ hspells
  obtain ⟨hpadded, hsame⟩ := hmarked.alignAll
  have hreaches' := hreaches.sameBelow hsame hbelow
  have hall : ∃ l₁' : Layout, l₁'.Spells l₀ ws ∧ l₁.alignAll.1 = l₁'.alignAll.1 :=
    ⟨l₁, hspells, rfl⟩
  rcases halign : l₁.alignAll with ⟨l₂, changed⟩
  rw [halign] at hpadded hreaches' hall
  dsimp only at hpadded hreaches' hall ⊢
  split
  · rw [settle, trampoline_of_reaches hreaches']
    show Fits (if l₂.alignAll.2 then settle passes l₂.alignAll.1 else pure l₂.alignAll.1) _
    rw [hpadded.alignAll_eq]
    exact ⟨hreaches', hall⟩
  · exact ⟨hreaches', hall⟩

/-! ## Filling in operands -/

theorem patch_fits {l : Layout} {f : Fixup}
    (h : f.kind = .relative → Opcode.branchFits (l.displacement f) = true) :
    Fits (l.patch f) fun l' => l'.offsets = l.offsets := by
  unfold patch
  dsimp only
  split
  · rfl
  · split
    next hk =>
      rw [if_pos (h hk)]
      rfl
    all_goals rfl

theorem patchAll_fits {l : Layout} (h : l.Reaches) : Fits l.patchAll fun _ => True := by
  unfold patchAll
  refine (checkSize_fits l).bind fun _ _ => ?_
  rw [← Array.foldlM_toList]
  refine (Fits.foldlM (Q := fun l' : Layout => l'.offsets = l.offsets) (fun l' f hf hl' => ?_)
    rfl).mono fun _ _ => trivial
  refine (patch_fits fun hk => ?_).mono fun l'' hl'' => hl''.trans hl'
  simpa [displacement, offset, hl'] using h f hf hk

theorem symbols_fits (l : Layout) (labels : List Label) :
    Fits (l.symbols labels) fun _ => True := by
  unfold symbols
  refine (Fits.mapM fun p _ => ?_).bind fun _ _ => trivial
  unfold symbol?
  split
  · trivial
  · dsimp only
    split
    · rfl
    · trivial

end Layout

/-! ## Code with data behind it -/

/-- Code that has bytes behind each of its labels and branches to its own labels only, and behind it
data that is put on powers of two. -/
structure Line.CodeThenData (code data : List Line) : Prop where
  unpadded : ∀ line ∈ code, line.isAlign = false
  followed : ∀ us l vs, code = us ++ .bound l :: vs → vs.any Line.isSolid = true
  targets : ∀ mn l, .instr mn (.relative l) ∈ code → l.isSome = true → .bound l ∈ code
  plain : ∀ mn arg, .instr mn arg ∉ data
  words : ∀ r, .word r ∉ data
  powers : ∀ n, .align n ∈ data → ∃ k, n = 2 ^ k

theorem pairwise_gather_mark? (ss : List Spot) (offset : Nat) :
    (gather mark? offset ss).Pairwise (fun m m' => m.offset ≤ m'.offset) ∧
      ∀ m ∈ gather mark? offset ss, offset ≤ m.offset := by
  induction ss generalizing offset with
  | nil => exact ⟨.nil, nofun⟩
  | cons s ss ih =>
    obtain ⟨hpairwise, hbehind⟩ := ih (offset + s.size)
    cases hs : s.mark? offset with
    | none =>
      simp only [gather, hs, Option.toList_none, List.nil_append]
      exact ⟨hpairwise, fun m hm => Nat.le_trans (Nat.le_add_right _ _) (hbehind m hm)⟩
    | some m =>
      obtain ⟨_, -, rfl⟩ := mark?_offset hs
      simp only [gather, hs, Option.toList_some, List.singleton_append]
      refine ⟨List.pairwise_cons.2 ⟨fun m hm => ?_, hpairwise⟩, fun m hm => ?_⟩
      · exact Nat.le_trans (Nat.le_add_right _ _) (hbehind m hm)
      · rcases List.mem_cons.1 hm with rfl | hm
        · exact Nat.le_refl _
        · exact Nat.le_trans (Nat.le_add_right _ _) (hbehind m hm)

namespace Layout

variable {l : Layout} {us vs : List Spot} {code data : List Line}

/-- Spots of code and of data behind it, with nothing padded yet. -/
structure Unpadded (l : Layout) (us vs : List Spot) (code data : List Line) : Prop where
  lays : l.Lays (us ++ vs)
  code : us.map Spot.line = code
  data : vs.map Spot.line = data
  zero : ∀ s ∈ vs, s.line.isAlign = true → s.grown = 0

/-- A spot that is not among the first ones stands behind all of them. -/
theorem extent_le_of_not_mem {xs ys : List Spot} {s : Spot} (h : us ++ vs = xs ++ s :: ys)
    (hs : s ∉ us) : s ∈ vs ∧ extent us ≤ extent xs := by
  rcases List.append_eq_append_iff.1 h with ⟨ms, rfl, rfl⟩ | ⟨ms, rfl, hm⟩
  · exact ⟨by simp, by simp⟩
  · cases ms with
    | nil =>
      rw [List.nil_append] at hm
      exact ⟨by simp [← hm], by simp⟩
    | cons m ms =>
      obtain ⟨rfl, -⟩ := by simpa using hm
      simp at hs

/-- A spot that is not among the last ones stands before all of them. -/
theorem split_of_not_mem {xs ys : List Spot} {s : Spot} (h : us ++ vs = xs ++ s :: ys)
    (hs : s ∉ vs) : ∃ ms, us = xs ++ s :: ms := by
  rcases List.append_eq_append_iff.1 h with ⟨ms, rfl, rfl⟩ | ⟨ms, rfl, hm⟩
  · simp at hs
  · cases ms with
    | nil =>
      rw [List.nil_append] at hm
      simp [← hm] at hs
    | cons m ms =>
      obtain ⟨rfl, -⟩ := by simpa using hm
      exact ⟨ms, rfl⟩

theorem Unpadded.mark (h : l.Unpadded us vs code data) (hlines : Line.CodeThenData code data)
    {i : Nat} {m : AlignMark} (hm : l.marks[i]? = some m) :
    extent us ≤ m.offset ∧ m.pad = 0 ∧ .align m.alignment ∈ data := by
  have hgather : (gather mark? 0 (us ++ vs))[i]? = some m := by
    rw [← h.lays.marks]
    simpa using hm
  obtain ⟨xs, s, ys, hsplit, -, hs⟩ := gather_split hgather
  obtain ⟨n, hn, rfl⟩ := mark?_offset hs
  have halign : s.line.isAlign = true := by simp [hn, Line.isAlign]
  have hcode : s ∉ us := by
    intro hmem
    have := hlines.unpadded s.line (h.code ▸ List.mem_map_of_mem hmem)
    simp [halign] at this
  obtain ⟨hdata, hle⟩ := extent_le_of_not_mem hsplit hcode
  refine ⟨by simpa using hle, h.zero s hdata halign, ?_⟩
  rw [← h.data]
  exact hn ▸ List.mem_map_of_mem hdata

theorem Unpadded.marked (h : l.Unpadded us vs code data) (hlines : Line.CodeThenData code data) :
    l.Marked (extent us) 0 where
  power i m hm := hlines.powers _ (h.mark hlines hm).2.2
  behind i m hm := (h.mark hlines hm).1
  padded i m _ hi := absurd hi (Nat.not_lt_zero i)
  fresh i m hm _ := (h.mark hlines hm).2.1
  order i j m m' hm hm' hij _ := by
    rw [(h.mark hlines hm).2.1, Nat.add_zero]
    have hsorted := (pairwise_gather_mark? (us ++ vs) 0).1
    rw [← h.lays.marks, List.pairwise_iff_getElem] at hsorted
    obtain ⟨hi, rfl⟩ := Array.getElem?_eq_some_iff.1 hm
    obtain ⟨hj, rfl⟩ := Array.getElem?_eq_some_iff.1 hm'
    exact hsorted i j (by simpa using hi) (by simpa using hj) hij

/-- The branches and their targets stand before the end of the code. -/
theorem Unpadded.branch (h : l.Unpadded us vs code data) (hlines : Line.CodeThenData code data)
    {f : Fixup} (hf : f ∈ l.fixups.toList) (hk : f.kind = .relative) :
    f.site < extent us ∧ l.offset f.label < extent us := by
  obtain ⟨i, hi⟩ := List.mem_iff_getElem?.1 hf
  rw [h.lays.fixups] at hi
  obtain ⟨xs, s, ys, hsplit, -, hs⟩ := gather_split hi
  obtain ⟨mn, label, rfl, hsome, rfl⟩ := fixup?_relative hs hk
  have hplain : (⟨.instr mn (.relative label), 0⟩ : Spot) ∉ vs := fun hmem =>
    hlines.plain mn (.relative label) (h.data ▸ List.mem_map_of_mem hmem)
  obtain ⟨ms, rfl⟩ := split_of_not_mem hsplit hplain
  generalize hus : xs ++ (⟨.instr mn (.relative label), 0⟩ : Spot) :: ms = us at h
  have hbranch : (⟨.instr mn (.relative label), 0⟩ : Spot) ∈ us := by simp [← hus]
  have htarget := hlines.targets mn label (h.code ▸ List.mem_map_of_mem hbranch) hsome
  refine ⟨?_, ?_⟩
  · obtain ⟨op, -, hraw⟩ := raw_short (h.lays.valid _ (List.mem_append_left _ hbranch))
    rw [← hus, extent_append, extent_cons, size, hraw]
    simp only [List.length_cons, List.length_nil]
    omega
  · rw [← h.code] at htarget
    obtain ⟨b, hmem, hb⟩ := List.mem_map.1 htarget
    obtain ⟨before, behind, hsplit⟩ := List.append_of_mem hmem
    have hsolid : behind.any isSolid = true := by
      have hcode : code = before.map Spot.line ++ .bound label :: behind.map Spot.line := by
        rw [← h.code, hsplit, List.map_append, List.map_cons, hb]
      simpa [Spot.isSolid, Function.comp_def] using hlines.followed _ _ _ hcode
    rw [h.lays.offset (show us ++ vs = before ++ b :: (behind ++ vs) by simp [hsplit]) hb,
      lead_append, if_pos hsolid, hsplit, extent_append, extent_cons]
    have := lead_lt_extent hsolid
    omega

end Layout

/-- Settling puts in trampolines and then pads the data; the code stays as the trampolines left
it. -/
theorem Stream.Shows.settle_fits {s : Stream} {L : Listing} {code data : List Line} (h : s.Shows L)
    (hL : L.lines = code ++ data) (hlines : Line.CodeThenData code data) (origin : UInt16) :
    Fits ((Layout.ofStream s origin).settle Layout.maxPasses) fun l' => l'.Reaches ∧
      ∃ l us vs, Layout.Unpadded l us vs code data ∧ (Layout.ofStream s origin).Kin l ∧
        l' = l.alignAll.1 := by
  have hspells : (Layout.ofStream s origin).Spells (Layout.ofStream s origin)
      ((ofLines L.lines).map written) :=
    ⟨.refl _, _, Layout.ofStream_lays h origin, rfl⟩
  have hunpadded : ∀ l : Layout,
      l.Spells (Layout.ofStream s origin) ((ofLines L.lines).map written) →
      ∃ us vs, l.Unpadded us vs code data := by
    rintro l ⟨-, ss, hlays, hwritten⟩
    have hpadding : ∀ s ∈ ss, s.line.isAlign = true → s.grown = 0 := by
      intro t ht halign
      have hmem : t.written ∈ (ofLines L.lines).map written := hwritten ▸ List.mem_map_of_mem ht
      obtain ⟨u, hu, heq⟩ := List.mem_map.1 hmem
      obtain ⟨line, -, rfl⟩ := List.mem_map.1 hu
      simpa [written, halign] using (congrArg Prod.snd heq).symm
    have hmap : ss.map Spot.line = code ++ data := by
      rw [← map_fst_written, hwritten, map_fst_written, ← hL]
      simp [ofLines, Function.comp_def]
    obtain ⟨us, vs, rfl, hus, hvs⟩ := List.map_eq_append_iff.1 hmap
    exact ⟨us, vs, hlays, hus, hvs, fun t ht => hpadding t (List.mem_append_right _ ht)⟩
  refine (Layout.settle_fits 30 hspells fun l hl => ?_).mono fun l' hl' => ?_
  · obtain ⟨us, vs, hunpadded⟩ := hunpadded l hl
    exact ⟨_, hunpadded.marked hlines, fun f hf hk => hunpadded.branch hlines hf hk⟩
  · obtain ⟨hreaches, l, hl, hpadded⟩ := hl'
    obtain ⟨us, vs, hunpadded⟩ := hunpadded l hl
    exact ⟨hreaches, l, us, vs, hunpadded, hl.1, hpadded⟩

/-- Linking code with data behind it fails only for want of room. -/
theorem Stream.Shows.link_fits {s : Stream} {L : Listing} {code data : List Line} (h : s.Shows L)
    (hs : s.error = none) (hresolved : s.unresolved? = none) (hL : L.lines = code ++ data)
    (hlines : Line.CodeThenData code data) (origin : UInt16) :
    Fits (s.link origin) fun _ => True := by
  unfold Stream.link
  rw [hs, hresolved]
  exact (h.settle_fits hL hlines origin).bind fun l hl =>
      (Layout.patchAll_fits hl.1).bind fun l' _ =>
    (Layout.symbols_fits l' _).bind fun _ _ => trivial

/-- In code that goes on behind each label, something solid follows each label. -/
theorem Stream.Shows.solid_of_followed {s : Stream} {L : Listing} (h : s.Shows L)
    (hend : s.Followed) {us vs : List Line}
    {l : LabelId} (hsplit : L.lines = us ++ .bound l :: vs) : vs.any Line.isSolid = true := by
  obtain ⟨-, hoffset⟩ := h.bound us l vs hsplit
  have hlt := hend l _ hoffset
  rw [← Array.length_toList, h.code, hsplit, List.flatMap_append, List.length_append,
    List.flatMap_cons] at hlt
  have hne : vs.flatMap Line.raw ≠ [] := by
    intro hnil
    rw [hnil] at hlt
    simp [Line.raw] at hlt
  obtain ⟨line, hline, hraw⟩ : ∃ line ∈ vs, line.raw ≠ [] := by
    simpa [List.flatMap_eq_nil_iff] using hne
  exact List.any_eq_true.2 ⟨line, hline, by simpa [Line.isSolid] using hraw⟩

/-- Linking tidy code with all labels bound fails only for want of room. -/
theorem Stream.Tidy.link_fits {s : Stream} (h : s.Tidy (fun _ => False) []) (hend : s.Followed)
    (origin : UInt16) : Fits (s.link origin) fun _ => True := by
  obtain ⟨L, hL, hcode⟩ := h.shows
  have hresolved := h.unresolved?
  refine hL.link_fits h.error hresolved (show L.lines = L.lines ++ [] from (List.append_nil _).symm)
    ⟨fun line hline => (hcode line hline).1, fun us l vs hsplit =>
      hL.solid_of_followed hend hsplit, ?_,
      fun _ _ => List.not_mem_nil, fun _ => List.not_mem_nil, fun _ h =>
        absurd h List.not_mem_nil⟩ origin
  intro mn l hmem hl
  have hbound : l ∈ L.labels := hL.needs_bound hresolved hmem (by simp [Line.needs?, hl])
  obtain ⟨line, hline, hlabel⟩ := List.mem_filterMap.1 hbound
  obtain rfl : line = .bound l := by
    cases line <;> simp_all [Line.label?]
  exact hline

end Breadbin.Assembly
