import Breadbin.Proofs.Lowering.Deeds
import Breadbin.Proofs.Routine.Linked
import Breadbin.Proofs.Routine.Chance
import Breadbin.Proofs.Lowering.Statements
import Breadbin.Proofs.Routine.Calls

/-!
# Lowered code that runs

Code is linked with the library behind it, and called.
-/

/-!
## The library behind lowered code

Whatever routines were asked for, once the library is written behind the code those that calculate
with integers stand at their labels.  A routine is shown to behave from those that it calls, which
need fewer ones.
-/

namespace Breadbin.Routine

open Assembly Machine ZeroPage

variable {w : Workspace}

/-! ### The divisions ask for what they call -/

/-- The division of signed bytes leads to the label of the other one, whether that was asked for
before or not. -/
theorem divS8_grows (w : Workspace) : ∃ unsigned proceed first second quotientDone remainderDone,
    (divS8 w).2.label? .divU8 = some unsigned ∧
      w.Grows (divS8 w).2
        (divS8Lines unsigned proceed first second quotientDone remainderDone) := by
  have hplain : [Line.instr .lda (.zeroPage intB), .instr .bne (.relative w.nextLabel)].any
    Line.isAlign = false := rfl
  have hfirst := ((Workspace.Writes.refl w).labelled []).writing hplain
  obtain ⟨v, hv⟩ : ∃ v, v = ((w.labelled []).writing
    [.instr .lda (.zeroPage intB), .instr .bne (.relative w.nextLabel)]).require .divU8 := ⟨_, rfl⟩
  have hasked : v.1.label? .divU8 = some v.2 := hv ▸ Workspace.label?_require _ _
  have hrequire {u : Workspace} (hu : u.label? .divU8 = some v.2) :
      u.require .divU8 = (u, v.2) := Workspace.require_alone (by decide +kernel) hu
  have hbefore := hfirst.toGrows.trans (hv ▸ Workspace.require_grows _ .divU8)
  simp only [divS8, absoluteByte, negateA, Writer.tailCall, Writer.call, Writer.bind_apply,
    Writer.zp_apply, Writer.imm_apply, Writer.op_apply, Writer.branch_apply, Writer.jump_apply,
    Writer.callLabel_apply, Writer.bound_apply, Writer.label_apply, Writer.require_apply,
    Workspace.writing_writing, List.cons_append, List.nil_append, Action.ownArg]
  rw [← hv]
  simp only [hrequire, hasked, Workspace.label?_writing, Workspace.label?_labelled,
    Workspace.writing_writing, List.cons_append, List.nil_append]
  exact ⟨v.2, _, _, _, _, _, rfl,
    hbefore.trans (((((((((Workspace.Writes.refl v.1).writing rfl).labelled []).writing
    rfl).labelled []).writing rfl).labelled []).labelled []).writing rfl).toGrows⟩

/-- The same for words. -/
theorem divS16_grows (w : Workspace) : ∃ unsigned proceed first second quotientDone remainderDone,
    (divS16 w).2.label? .divU16 = some unsigned ∧
      w.Grows (divS16 w).2
        (divS16Lines unsigned proceed first second quotientDone remainderDone) := by
  have hplain : [Line.instr .lda (.zeroPage intB), .instr .ora (.zeroPage (intB + 1)),
    .instr .bne (.relative w.nextLabel)].any Line.isAlign = false := rfl
  have hfirst := ((Workspace.Writes.refl w).labelled []).writing hplain
  obtain ⟨v, hv⟩ : ∃ v, v = ((w.labelled []).writing
    [.instr .lda (.zeroPage intB), .instr .ora (.zeroPage (intB + 1)),
        .instr .bne (.relative w.nextLabel)]).require .divU16 :=
    ⟨_, rfl⟩
  have hasked : v.1.label? .divU16 = some v.2 := hv ▸ Workspace.label?_require _ _
  have hrequire {u : Workspace} (hu : u.label? .divU16 = some v.2) :
      u.require .divU16 = (u, v.2) := Workspace.require_alone (by decide +kernel) hu
  have hbefore := hfirst.toGrows.trans (hv ▸ Workspace.require_grows _ .divU16)
  simp only [divS16, Writer.testWord, Writer.absoluteWord, Writer.negateWord, Writer.returnWord,
    Writer.tailCall, Writer.call, Writer.bind_apply, Writer.zp_apply, Writer.imm_apply,
    Writer.op_apply, Writer.branch_apply, Writer.jump_apply, Writer.callLabel_apply,
    Writer.bound_apply, Writer.label_apply, Writer.require_apply,
    Workspace.writing_writing, List.cons_append,
    List.nil_append, Action.ownArg]
  rw [← hv]
  simp only [hrequire, hasked, Workspace.label?_writing, Workspace.label?_labelled,
    Workspace.writing_writing, List.cons_append, List.nil_append]
  exact ⟨v.2, _, _, _, _, _, rfl,
    hbefore.trans (((((((((Workspace.Writes.refl v.1).writing rfl).labelled []).writing
    rfl).labelled []).writing rfl).labelled []).labelled []).writing rfl).toGrows⟩

end Breadbin.Routine

namespace Breadbin.Lowering

open Assembly Machine Routine

/-! ### Routines that numbers are drawn with -/

/-- The routine that draws from a range, and those that it calls. -/
def drawing : List RoutineId := [.randomNext, .divU16, .randomRange]

variable {id : RoutineId}

theorem drawing_closed (h : id ∈ drawing) : id.calls ⊆ drawing := by
  have hall : ∀ id ∈ drawing, id.calls ⊆ drawing := by decide
  exact hall id h

theorem drawing_conducted {t : Target} (h : id ∈ drawing) : Conducted t id := by
  simp only [drawing, List.mem_cons, List.not_mem_nil, or_false] at h
  rcases h with rfl | rfl | rfl
  exacts [randomNext_conducted, divU16_conducted, randomRange_conducted]

/-- They change no memory behind the stack page. -/
theorem drawing_fits {t : Target} (h : id ∈ drawing) (code : LinkedCode) :
    (conduct t id).Fits code := by
  have hnone : (conduct t id).areas = [] := by
    simp only [drawing, List.mem_cons, List.not_mem_nil, or_false] at h
    rcases h with rfl | rfl | rfl <;> rfl
  rintro address ⟨area, harea, -⟩
  rw [hnone] at harea
  cases harea

/-! ### Routines that are written -/

/-- Wherever the lines are installed the routine behaves, if those that it calls stand at their
labels; one that numbers are drawn with keeps to its conduct. -/
structure Behaving (w : Workspace) (id : RoutineId) (ls : List Line) : Prop where
  behaves : ∀ (code : LinkedCode) a b r, behaviour? id = some r → code.Installed a ls b →
    (∀ c ∈ id.calls, ∀ l, w.label? c = some l → Serves code c l) → code.Behaves a r
  sound : id ∈ drawing → w.Sound (conduct w.target) id ls

variable {w w' : Workspace} {ls : List Line} {base : Workspace} {segments : List Segment}

theorem Behaving.grow {more : List Line} (h : Behaving w id ls) (hgrows : w.Grows w' more) :
    Behaving w' id ls where
  behaves code a b r hr hin hcalls := h.behaves code a b r hr hin fun c hc l hl =>
    hcalls c hc l (hgrows.labels c l hl)
  sound hid := by
    rw [hgrows.target]
    exact (h.sound hid).mono hgrows.labels

/-- Each routine is written so that it behaves. -/
theorem body_behaving (id : RoutineId) (w : Workspace) :
    ∃ ls, w.Grows (body id w).2 ls ∧ Behaving (body id w).2 id ls := by
  cases hknown : behaviour? id with
  | none =>
    have hnothing {v : Workspace} {ls : List Line}
        (hsound : id ∈ drawing → v.Sound (conduct v.target) id ls) :
        Behaving v id ls := by
      refine ⟨fun code a b r hr => ?_, hsound⟩
      rw [hknown] at hr
      cases hr
    by_cases hid : id ∈ drawing
    · obtain ⟨ls, hgrows, -, hflows⟩ := drawing_conducted hid w rfl
      refine ⟨ls, hgrows, hnothing fun _ code a b hfits hin hoffers => ?_⟩
      rw [hgrows.target] at hfits hoffers ⊢
      exact (hflows code a b hfits hin hoffers 0 nofun).2
    · obtain ⟨n, -, hleaves⟩ := body_leaves id
      obtain ⟨ls, hgrows, -⟩ := hleaves.lines w
      exact ⟨ls, hgrows, hnothing fun h => absurd h hid⟩
  | some known =>
    cases id <;> first | cases hknown; done | skip
    case mul8 =>
      obtain ⟨loop, skip, hwrites⟩ := mul8_writes w
      refine ⟨_, hwrites.toGrows, fun code a b r hr hin _ => ?_, fun h => absurd h (by decide)⟩
      cases hr
      exact mul8_behaves hin
    case mul16 =>
      obtain ⟨loop, skip, hwrites⟩ := mul16_writes w
      refine ⟨_, hwrites.toGrows, fun code a b r hr hin _ => ?_, fun h => absurd h (by decide)⟩
      cases hr
      exact mul16_behaves hin
    case divU8 =>
      obtain ⟨proceed, loop, subtract, next, hwrites⟩ := divU8_writes w
      refine ⟨_, hwrites.toGrows, fun code a b r hr hin _ => ?_, fun h => absurd h (by decide)⟩
      cases hr
      exact divU8_behaves hin
    case divU16 =>
      obtain ⟨proceed, loop, subtract, next, hwrites⟩ := divU16_writes w
      refine ⟨_, hwrites.toGrows, fun code a b r hr hin _ => ?_, fun _ code a b _ hin _ => ?_⟩
      · cases hr
        exact divU16_behaves hin
      · exact divU16_starts (divU16_behaves hin) hin.lt
    case divS8 =>
      obtain ⟨unsigned, proceed, first, second, quotientDone, remainderDone, hasked, hgrows⟩ :=
        divS8_grows w
      refine ⟨_, hgrows, fun code a b r hr hin hcalls => ?_, fun h => absurd h (by decide)⟩
      cases hr
      obtain ⟨target, hat, hdivides⟩ := hcalls .divU8 (by decide) unsigned hasked _ rfl
      exact divS8_behaves hin hat hdivides
    case divS16 =>
      obtain ⟨unsigned, proceed, first, second, quotientDone, remainderDone, hasked, hgrows⟩ :=
        divS16_grows w
      refine ⟨_, hgrows, fun code a b r hr hin hcalls => ?_, fun h => absurd h (by decide)⟩
      cases hr
      obtain ⟨target, hat, hdivides⟩ := hcalls .divU16 (by decide) unsigned hasked _ rfl
      exact divS16_behaves hin hat hdivides

/-! ### The library -/

/-- Behind `base` routines have been written that behave. -/
structure Stocks (base w : Workspace) (segments : List Segment) : Prop where
  target : w.target = base.target
  lines : base.stream.Grows w.stream (segments.flatMap Segment.lines)
  labels : ∀ id l, base.label? id = some l → w.label? id = some l
  once : w.emitted.Nodup
  texts : ∀ id ∈ w.emitted, ∃ l ls, .routine id l ls ∈ segments ∧
    w.label? id = some l ∧ Behaving w id ls

namespace Stocks

/-- No routine has been written yet. -/
theorem start (h : w.emitted = []) : Stocks w w [] :=
  ⟨rfl, .refl _, fun _ _ hl => hl, by simp [h], by simp [h]⟩

theorem emitOne (h : Stocks base w segments) (id : RoutineId) :
    ∃ more, Stocks base (emitOne id w).2 more := by
  rcases emitOne_cases id w with ⟨heq, -⟩ | ⟨l, hl, hid, heq⟩
  · rw [heq]
    exact ⟨segments, h⟩
  let v : Workspace := { w with emitted := id :: w.emitted, stream := w.stream.bind l }
  have hv : (Routine.emitOne id w).2 = (body id v).2 := congrArg Prod.snd heq
  obtain ⟨ls, hls, hbehaving⟩ := body_behaving id v
  have hplain : [Line.bound l].any Line.isAlign = false := rfl
  have hbind : w.stream.Grows v.stream [.bound l] := .writing w.stream hplain
  rw [hv]
  refine ⟨segments ++ [.routine id l ls], hls.target.trans h.target, ?_, fun r l hl =>
    hls.labels r l (h.labels r l hl), ?_, fun r hr => ?_⟩
  · rw [List.flatMap_append, List.flatMap_singleton]
    exact h.lines.trans (hbind.trans hls.stream)
  · rw [hls.emitted]
    exact List.nodup_cons.2 ⟨hid, h.once⟩
  · rw [hls.emitted] at hr
    rcases List.mem_cons.1 hr with rfl | hr
    · exact ⟨l, ls, by simp, hls.labels r l hl, hbehaving⟩
    · obtain ⟨l', ls', hmem, hl', hbehaves⟩ := h.texts r hr
      have hkept : Behaving v r ls' := ⟨hbehaves.behaves, hbehaves.sound⟩
      exact ⟨l', ls', List.mem_append_left _ hmem, hls.labels r l' hl', hkept.grow hls⟩

variable {code : LinkedCode} {a b : ℕ} {l : LabelId}

/-- A routine that was written is installed at its label. -/
theorem installed (h : Stocks base w segments)
    (hin : code.Installed a (segments.flatMap Segment.lines) b)
    (hid : id ∈ w.emitted) (hl : w.label? id = some l) :
    ∃ start ls e, code.At l start ∧ code.Installed start ls e ∧ Behaving w id ls := by
  obtain ⟨l', ls, hmem, hl', hbehaving⟩ := h.texts id hid
  obtain rfl : l = l' := Option.some.inj (hl.symm.trans hl')
  obtain ⟨before, behind, rfl⟩ := List.append_of_mem hmem
  rw [List.flatMap_append, List.flatMap_cons] at hin
  obtain ⟨start, -, hrest⟩ := hin.split _
  obtain ⟨e, hsegment, -⟩ := hrest.split _
  obtain ⟨hat, hbody⟩ := hsegment.label
  exact ⟨start, ls, e, hat, hbody, hbehaving⟩

/-- In linked code every routine that was written stands at its label. -/
theorem serves (h : Stocks base w segments)
    (hin : code.Installed a (segments.flatMap Segment.lines) b)
    (hall : ∀ c l, w.label? c = some l → c ∈ w.emitted) (hl : w.label? id = some l) :
    Serves code id l := by
  intro r hr
  induction hn : id.postorder.length using Nat.strong_induction_on generalizing id l r with
  | _ n ih =>
    obtain ⟨start, ls, e, hat, hbody, hbehaving⟩ := h.installed hin (hall id l hl) hl
    refine ⟨start, hat, hbehaving.behaves code start e r hr hbody fun c hc lc hlc rc hrc => ?_⟩
    exact ih _ (hn ▸ length_postorder_lt hc) hlc rc hrc rfl

/-- In linked code the routines that numbers are drawn with keep to their conducts. -/
theorem offers (h : Stocks base w segments)
    (hin : code.Installed a (segments.flatMap Segment.lines) b)
    (hall : ∀ c l, w.label? c = some l → c ∈ w.emitted) :
    w.Offers (conduct w.target) code drawing := by
  intro id hid l hl
  induction hn : id.postorder.length using Nat.strong_induction_on generalizing id l with
  | _ n ih =>
    obtain ⟨start, ls, e, hat, hbody, hbehaving⟩ := h.installed hin (hall id l hl) hl
    refine ⟨start, hat,
      hbehaving.sound hid code start e (drawing_fits hid code) hbody fun c hc lc hlc => ?_⟩
    exact ih _ (hn ▸ length_postorder_lt hc) c (drawing_closed hid hc) lc hlc rfl

end Stocks

/-- The library is written behind the code, and supplies it with the routines that it asked for. -/
theorem emitLibrary_supplies (h : w.emitted = []) :
    ∃ ls, w.stream.Grows (emitLibrary w).2.stream ls ∧
    ∀ (code : LinkedCode) a b, code.Installed a ls b →
      Supplies code w ∧ w.Offers (conduct w.target) code drawing := by
  obtain ⟨segments, hstocks⟩ := emitLibrary_induction (P := fun v => ∃ more, Stocks w v more)
    (fun id _ ⟨_, hv⟩ => hv.emitOne id) ⟨[], Stocks.start h⟩
  have hall (c : RoutineId) (l : LabelId) (hc : (emitLibrary w).2.label? c = some l) :
      c ∈ (emitLibrary w).2.emitted :=
    emitLibrary_emitted (by simp [h]) (Option.isSome_iff_exists.2 ⟨l, hc⟩)
  refine ⟨_, hstocks.lines, fun code a b hin => ⟨fun id l hl => ?_, fun id hid l hl => ?_⟩⟩
  · exact hstocks.serves hin hall (hstocks.labels id l hl)
  · rw [← hstocks.target]
    exact hstocks.offers hin hall id hid l (hstocks.labels id l hl)

end Breadbin.Lowering

/-!
## Running lowered code

Code that is lowered on its own is made a subroutine, with the library behind it.  Linked behind the
stack page and called by a processor that has the image in its memory, it does what is known of it.
-/

namespace Breadbin.Lowering

open Assembly Machine ZeroPage

/-! ### Subroutines -/

/-- The code as a subroutine, and the library behind it. -/
def subroutine (act : Lower Unit) : Lower Unit := do
  act
  Lowering.op .rts
  write Routine.emitLibrary

/-- An image that lies behind the stack page, and before the last address. -/
structure Lies (origin : UInt16) (image : Image) : Prop where
  above : mainBase ≤ origin.toNat
  below : origin.toNat + image.bytes.size ≤ 0xFFFF

section

variable {p : Program} {s s' : Emission} {act : Lower Unit} {P : Deed} {before : List Line}

attribute [local irreducible] Routine.emitLibrary

/-- Lines are installed where they are linked with more code and the library behind it, and are
offered the routines that they ask for. -/
theorem Emission.Writes.linked {ls : List Line} (hwrites : s.Writes s' ls)
    (hbegun : Stream.Grows {} s.workspace.stream before)
    {w : Routine.Workspace} {more : List Line} (hmore : s'.workspace.Grows w more)
    (hemitted : w.emitted = [])
    {origin : UInt16} {image : Image}
    (hlink : (Routine.emitLibrary w).2.stream.link origin = .ok image) (hlies : Lies origin image) :
    ∃ code : LinkedCode, code.origin = origin.toNat ∧ code.bytes = image.bytes.toList ∧
      ∃ a b c, (before = [] → a = code.origin) ∧ code.Installed a ls b ∧ code.Installed b more c ∧
        Supplies code s'.workspace ∧
          s'.workspace.Offers (Routine.conduct s'.workspace.target) code drawing := by
  obtain ⟨library, hlibrary, hsupplies⟩ := emitLibrary_supplies hemitted
  have hgrows := ((hbegun.trans hwrites.grows.stream).trans hmore.stream).trans hlibrary
  obtain ⟨code, horigin, hbytes, hin, -⟩ :=
    LinkedCode.exists_of_link hgrows hlink hlies.above hlies.below
  obtain ⟨m, hin, hinLibrary⟩ := hin.split _
  obtain ⟨b, hin, hinMore⟩ := hin.split _
  obtain ⟨a, hinBefore, hinCode⟩ := hin.split _
  obtain ⟨hsupplies, hoffers⟩ := hsupplies code _ _ hinLibrary
  refine ⟨code, horigin, hbytes, a, b, m, ?_, hinCode, hinMore, hsupplies.of_grows hmore,
    fun id hid l hl => ?_⟩
  · rintro rfl
    exact hinBefore.nil
  · rw [← hmore.target]
    exact hoffers id hid l (hmore.labels id l hl)

/-- Code does what it does where it is linked with more code and the library behind it. -/
theorem Does.linked (h : Does act p s P) (hbegun : Stream.Grows {} s.workspace.stream before) :
    ∃ s', perform act p s = (.ok (), s') ∧ s'.workspace.emitted = s.workspace.emitted ∧
      ∀ w more, s'.workspace.Grows w more → w.emitted = [] →
        ∀ origin image, (Routine.emitLibrary w).2.stream.link origin = .ok image →
          Lies origin image →
          ∃ code : LinkedCode, code.origin = origin.toNat ∧ code.bytes = image.bytes.toList ∧
            ∃ a b c, a ≤ 0xFFFF ∧ (before = [] → a = code.origin) ∧ P code a b ∧
              code.Installed b more c := by
  obtain ⟨s', ls, hperform, hwrites, hdeed⟩ := h
  refine ⟨s', hperform, hwrites.grows.emitted,
    fun w more hmore hemitted origin image hlink hlies => ?_⟩
  obtain ⟨code, horigin, hbytes, a, b, c, hentry, hcode, hinMore, hsupplies, -⟩ :=
    hwrites.linked hbegun hmore hemitted hlink hlies
  exact ⟨code, horigin, hbytes, a, b, c, Nat.le_of_lt_succ hcode.lt, hentry,
    hdeed code a b hcode hsupplies, hinMore⟩

/-- Behind the code of a subroutine there is its return. -/
theorem perform_subroutine (h : perform act p s = (.ok (), s')) :
    s'.Writes (s'.writing [.instr .rts .implied]) [.instr .rts .implied] ∧
      perform (subroutine act) p s =
      (.ok (), { s' with workspace :=
        (Routine.emitLibrary (s'.writing [.instr .rts .implied]).workspace).2 }) := by
  refine ⟨.writing s' rfl, ?_⟩
  have hrts : perform (Lowering.op .rts) p s' = (.ok (), s'.writing [.instr .rts .implied]) :=
    Straight.performs p s'
  unfold subroutine
  rw [perform_bind_ok h, perform_bind_ok hrts]
  rfl

/-- Code that has kept the stack comes back from a call. -/
theorem call_of_reaches {code : LinkedCode} {a r e : ℕ} {c : Cpu} {w : View}
    (hintact : code.Intact c.view)
    (hreaches : code.Reaches 0 a (c.view.call callEnd) r w)
    (hkeeps : (c.view.call callEnd).Keeps 254 w) (ha : a < 0x10000)
    (hrts : code.Installed r [.instr .rts .implied] e) :
    ∃ n c', (∀ limit, limit = 0 ∨ n < limit → c.call (UInt16.ofNat a) limit = (c', none)) ∧
      c'.Shows w.drop.drop ∧
      w.drop.drop.sp = c.view.sp := by
  -- the memory and the slots play no part in what waits on the stack
  have hframe : (c.view.call callEnd).Frame 254 []
      { w with main := c.view.main, zp := c.view.zp } :=
    ⟨hkeeps.sp, rfl, fun _ _ => rfl, hkeeps.stack⟩
  obtain ⟨hreturns, hframe⟩ :=
    LinkedCode.returnAddress_of_frame hframe (by decide) (by decide) (by decide)
  have hreturns : w.returnAddress = callEnd := hreturns
  have hback := hrts.giveBack (v := w) (by rw [hreturns]; decide)
  rw [hreturns] at hback
  have hreaches := hreaches.andThen hback
  rw [← UInt16.toNat_ofNat_of_lt' ha] at hreaches
  obtain ⟨n, c', hshows, hcall⟩ := hreaches.call_eq c.shows_view hintact
  exact ⟨n, c', hcall, hshows, hframe.sp⟩

/-- A subroutine comes back from a call, and leaves what its code computes. -/
theorem Does.called {d : ℕ} {zs : List UInt8} {R : View → View → Prop}
    (h : Does act p s (Computes d zs R)) (hd : d ≤ 254)
    (hbegun : Stream.Grows {} s.workspace.stream before) (hemitted : s.workspace.emitted = []) :
    ∃ s', perform (subroutine act) p s = (.ok (), s') ∧
      ∀ origin image, s'.workspace.stream.link origin = .ok image → Lies origin image →
        ∃ entry : UInt16, (before = [] → entry = origin) ∧ ∀ c : Cpu, c.Carries image →
          ∃ n c' w, (∀ limit, limit = 0 ∨ n < limit → c.call entry limit = (c', none)) ∧
            c'.Shows w.drop.drop ∧
            c.view.Frame (d + 2) zs w.drop.drop ∧ R (c.view.call callEnd) w := by
  obtain ⟨s₁, hperform, hkept, hlinked⟩ := h.linked hbegun
  obtain ⟨hreturn, hwhole⟩ := perform_subroutine hperform
  have hemitted' := hreturn.grows.emitted.trans (hkept.trans hemitted)
  refine ⟨_, hwhole, fun origin image hlink hlies => ?_⟩
  obtain ⟨code, horigin, hbytes, a, b, m, hlast, hentry, hcode, hreturn⟩ :=
    hlinked _ _ hreturn.grows hemitted' origin image hlink hlies
  have ha : a < 0x10000 := Nat.lt_succ_of_le hlast
  refine ⟨UInt16.ofNat a, fun hbefore => ?_, fun c hcarries => ?_⟩
  · rw [← UInt16.toNat_inj, UInt16.toNat_ofNat_of_lt' ha, hentry hbefore, horigin]
  · have hintact := hcarries.intact (by rw [horigin, (Stream.link_extent hlink).1]) hbytes
    obtain ⟨w, hpath, hw⟩ := hcode (c.view.call callEnd)
    obtain ⟨n, c', hcall, hshows, -⟩ :=
      call_of_reaches hintact hpath.reaches (hpath.frame.keeps.mono hd) ha hreturn
    exact ⟨n, c', w, hcall, hshows,
      (LinkedCode.returnAddress_of_frame hpath.frame hd (by decide) (by decide)).2, hw⟩

end

/-! ### Expressions -/

variable {p : Program} {s : Emission} {scope : Scope} {place : SymbolId → UInt16} {k j : Kind}
  {before : List Line}

/-- What expressions leave alone: the memory behind the stack page, and the zero page but for a few
slots. -/
theorem Frame.read_eq {c c' : Cpu} {d : ℕ} {w : View} (hshows : c'.Shows w)
    (hframe : c.view.Frame d valueSlots w)
    {address : UInt16} (h : c'.read address ≠ c.read address) :
    address.toNat < mainBase ∧ (address.toNat < 0x100 → address.toUInt8 ∈ valueSlots) := by
  constructor
  · by_contra hmain
    refine h ((hshows.main address (by omega)).trans ?_)
    rw [hframe.main]
    rfl
  · intro hpage
    by_contra hslot
    have haddress : address.toUInt8.toUInt16 = address := by
      rw [← UInt16.toNat_inj, UInt8.toNat_toUInt16, UInt16.toNat_toUInt8]
      exact Nat.mod_eq_of_lt hpage
    have hkept := (hshows.zp address.toUInt8).trans (hframe.zp _ hslot)
    rw [haddress] at hkept
    refine h (hkept.trans ?_)
    show c.read address.toUInt8.toUInt16 = _
    rw [haddress]

/-- Called from any registers and any memory in which truth values are 0 or 1, the code comes back
and leaves the number that an expression stands for, as the kind keeps it, in A or in A and X.  The
stack pointer is as it was, and nothing but the slots and the stack page has changed. -/
def Determines (image : Image) (entry : UInt16) (scope : Scope) (place : SymbolId → UInt16)
    (e : Expr) (k : Kind) : Prop :=
  ∀ c : Cpu, c.Carries image →
    (∀ id, scope id = some .bool → c.read (place id) = 0 ∨ c.read (place id) = 1) →
    ∃ n c', (∀ limit, limit = 0 ∨ n < limit → c.call entry limit = (c', none)) ∧
      k.Denotes (if k.isWide then Cpu.wordOf c'.a c'.x else c'.a.toUInt16)
        (k.keep (e.number (scope.reading place c.read))) ∧
      c'.sp = c.sp ∧ ∀ address, c'.read address ≠ c.read address →
        address.toNat < mainBase ∧ (address.toNat < 0x100 → address.toUInt8 ∈ valueSlots)

/-- **Expressions are lowered to code that evaluates them.**  The code of an expression over
integers, truth values and variables, wanted in some type, determines what the expression stands for
wherever it is linked as a subroutine. -/
theorem expressions_evaluated {e : Expr} (he : e.Scalar scope k) (hj : j.isIntegral = true)
    (himplicit : Conversion.isImplicit k j = true) (hplaced : scope.Placed p s place)
    (hroom : e.depth ≤ 254)
    (hbegun : Stream.Grows {} s.workspace.stream before) (hemitted : s.workspace.emitted = []) :
    ∃ s', perform (subroutine (lowerExpr e (.scalar j))) p s = (.ok (), s') ∧
      ∀ origin image, s'.workspace.stream.link origin = .ok image → Lies origin image →
        ∃ entry, (before = [] → entry = origin) ∧ Determines image entry scope place e j := by
  obtain ⟨s', hperform, hruns⟩ :=
    (lowerExpr_evaluates he hj himplicit hplaced (by omega)).called hroom hbegun hemitted
  refine ⟨s', hperform, fun origin image hlink hlies => ?_⟩
  obtain ⟨entry, hentry, hcalls⟩ := hruns origin image hlink hlies
  refine ⟨entry, hentry, fun c hcarries htruths => ?_⟩
  obtain ⟨n, c', w, hcall, hshows, hframe, hw⟩ := hcalls c hcarries
  refine ⟨n, c', hcall, ?_, hshows.sp.trans hframe.sp, fun address => Frame.read_eq hshows hframe⟩
  have hvars : scope.Matches place (scope.reading place c.read) c.read :=
    Scope.matches_reading htruths
  have hn := hw _ hvars
  rw [hshows.a, hshows.x]
  exact hn

/-! #### A word and its triple -/

/-- A program with a word. -/
def oneWord : Program := { symbols := .of [{ name := Text.bytesOf "x", type := .u16 }] }

/-- The state in which it has an address. -/
def wordPlaced : Emission :=
  { workspace := { target := .c64 }
    allocator := { Allocator.ofTarget .c64 with slots := #[⟨1, [], 0xC000, 2⟩] }
    reports := .filtering (.ofLimit 0) }

/-- The variables of the program. -/
def wordScope : Scope := fun id => if id = 1 then some .u16 else none

/-- The expression `x * 3 > x >> 1`. -/
def grown : Expr :=
  .binary { type := .bool } .gt
    (.binary { type := .u16 } .mul (.var { type := .u16 } 1)
      (.literal { type := .u8 } { int := 3 }))
    (.binary { type := .u16 } .shr (.var { type := .u16 } 1)
      (.literal { type := .u8 } { int := 1 }))

theorem grown_scalar : grown.Scalar wordScope .bool := by
  have hx : (Expr.var { type := .u16 } 1).Scalar wordScope .u16 := .var rfl rfl rfl
  have hthree : (Expr.literal { type := .u8 } { int := 3 }).Scalar wordScope .u8 :=
    .literal rfl rfl rfl ⟨rfl, by decide, by decide⟩
  have hone : (Expr.literal { type := .u8 } { int := 1 }).Scalar wordScope .u8 :=
    .literal rfl rfl rfl ⟨rfl, by decide, by decide⟩
  have hproduct : (Expr.binary { type := .u16 } .mul (.var { type := .u16 } 1)
      (.literal { type := .u8 } { int := 3 })).Scalar
      wordScope .u16 :=
        @Expr.Scalar.binary _ _ _ _ _ _ _ (.common .u16 .u8 .u16 .u16) hx hthree rfl rfl
  have hhalf : (Expr.binary { type := .u16 } .shr (.var { type := .u16 } 1)
      (.literal { type := .u8 } { int := 1 })).Scalar
      wordScope .u16 := @Expr.Scalar.binary _ _ _ _ _ _ _ (.ofShift .u16 .u8) hx hone rfl rfl
  exact @Expr.Scalar.binary _ _ _ _ _ _ _ (.common .u16 .u16 .u16 .bool) hproduct hhalf rfl rfl

theorem word_placed : wordScope.Placed oneWord wordPlaced fun _ => 0xC000 := by
  intro id k hid
  obtain ⟨rfl, rfl⟩ : id = 1 ∧ k = .u16 := by
    unfold wordScope at hid
    split at hid
    · exact ⟨‹_›, (Option.some.inj hid).symm⟩
    · cases hid
  exact ⟨rfl, ⟨_, rfl, rfl⟩, rfl, by decide, by decide⟩

/-- The code of the comparison evaluates it. -/
theorem grown_evaluated :
    ∃ s', perform (subroutine (lowerExpr grown (.scalar .u8))) oneWord wordPlaced = (.ok (), s') ∧
    ∀ origin image, s'.workspace.stream.link origin = .ok image → Lies origin image →
      ∃ entry, entry = origin ∧ Determines image entry wordScope (fun _ => 0xC000) grown .u8 := by
  obtain ⟨s', hperform, hruns⟩ := expressions_evaluated grown_scalar rfl rfl word_placed (by decide)
    (Stream.Grows.refl _ : Stream.Grows {} wordPlaced.workspace.stream []) rfl (j := .u8)
  refine ⟨s', hperform, fun origin image hlink hlies => ?_⟩
  obtain ⟨entry, hentry, hdetermines⟩ := hruns origin image hlink hlies
  exact ⟨entry, hentry rfl, hdetermines⟩

/-! ### Functions -/

section

variable {result : Option Kind}

attribute [local irreducible] Routine.emitLibrary

/-- Called with the values of the variables in memory, a function does what its body does.  It comes
back with the values that the body leaves in the variables, its own value in A or in A and X, and
the stack pointer as it was; while the body goes on, so does the call. -/
def Performs (image : Image) (entry : UInt16) (scope : Scope) (place : SymbolId → UInt16)
    (result : Option Kind) (exec : ℕ → Store → Outcome) : Prop :=
  ∀ (c : Cpu) (vars : Store), c.Carries image → scope.Matches place vars c.read →
    (∀ n e vars', exec n vars = some (e, vars') →
      ∃ m c', (∀ limit, limit = 0 ∨ m < limit → c.call entry limit = (c', none)) ∧
        scope.Matches place vars' c'.read ∧
        c'.sp = c.sp ∧ ∀ i, e.value = some i →
          ∃ k, result = some k ∧
            k.Denotes (if k.isWide then Cpu.wordOf c'.a c'.x else c'.a.toUInt16) i) ∧
    ((∀ n, exec n vars = none) → ∀ limit, limit ≠ 0 →
      ∃ pc, (c.call entry limit).2 = some (.stepLimit limit pc))

/-- The bytes of the variables are no part of an image. -/
def Scope.Outside (scope : Scope) (place : SymbolId → UInt16) (origin : UInt16)
    (image : Image) : Prop :=
  ∀ id k, scope id = some k → ∀ byte, Within (place id) k.isWide byte →
    byte.toNat < origin.toNat ∨ origin.toNat + image.bytes.size ≤ byte.toNat

/-- Variables behind the stack page are seen in memory. -/
theorem matches_of_shows {vars : Store} {c : Cpu} {v : View} (hplaced : scope.Placed p s place)
    (hshows : c.Shows v)
    (h : scope.Matches place vars v.main) : scope.Matches place vars c.read := by
  intro id k hid
  obtain ⟨-, -, -, habove, hfits⟩ := hplaced id k hid
  have hread (byte : UInt16) (hbyte : Within (place id) k.isWide byte) :
      c.read byte = v.main byte := by
    refine hshows.main byte ?_
    rcases hbyte with rfl | ⟨hwide, rfl⟩
    · exact habove
    · rw [hwide, width, if_pos rfl] at hfits
      rw [UInt16.toNat_add, UInt16.toNat_one]
      omega
  rw [Contents.get_congr hread]
  exact h id k hid

/-- **Functions are lowered to code that does what their bodies do.** -/
theorem functions_performed {f : Function} {l : LabelId} (hl : s.functions.lookup f.id = some l)
    (hresult : ∀ k, result = some k → f.result = .scalar k) (hplaced : scope.Placed p s place)
    (hapart : scope.Apart place)
    (hwritable : scope.Writable p) (hbody : f.body.Structured scope result false)
    (hbegun : Stream.Grows {} s.workspace.stream before) :
    ∃ s', perform (lowerFunction f) p s = (.ok (), s') ∧
      s'.workspace.emitted = s.workspace.emitted ∧
      ∀ w more, s'.workspace.Grows w more → w.emitted = [] →
        ∀ origin image, (Routine.emitLibrary w).2.stream.link origin = .ok image →
          Lies origin image →
          Scope.Outside scope place origin image →
            ∃ entry, (before = [] → entry = origin) ∧
              Performs image entry scope place result fun n => f.body.exec scope result n := by
  obtain ⟨s', hperform, hkept, hlinked⟩ :=
    (lowerFunction_obeys hl hresult hplaced hapart hwritable hbody).linked hbegun
  refine ⟨s', hperform, hkept, fun w more hmore hemitted origin image hlink hlies houtside => ?_⟩
  obtain ⟨code, horigin, hbytes, a, b, m, hlast, hentry, ⟨-, hobeys⟩, -⟩ :=
    hlinked w more hmore hemitted origin image hlink hlies
  have hspared : Spared scope place code := by
    rintro id k hid byte hbyte ⟨habove, hbelow⟩
    have hsize : Placement.size code.placements = image.bytes.size := by
      rw [← LinkedCode.length_bytes, hbytes, Array.length_toList]
    rcases houtside id k hid byte hbyte with h | h <;> omega
  have hobeys := hobeys hspared
  have ha : (UInt16.ofNat a).toNat = a := UInt16.toNat_ofNat_of_lt' (Nat.lt_succ_of_le hlast)
  refine ⟨UInt16.ofNat a, fun hbefore => ?_, fun c vars hcarries hvars =>
    ⟨fun n e vars' hexec => ?_, fun hdiverges limit hlimit => ?_⟩⟩
  · rw [← UInt16.toNat_inj, ha, hentry hbefore, horigin]
  · have hintact := hcarries.intact (by rw [horigin, (Stream.link_extent hlink).1]) hbytes
    have hruns := hobeys n (c.view.call callEnd) vars hvars
    dsimp only at hexec hruns
    rw [hexec] at hruns
    obtain ⟨w, ⟨r, r', hreaches, hrts⟩, hkeeps, hvars', hvalue⟩ := hruns
    obtain ⟨m, c', hcall, hshows, hsp⟩ :=
      call_of_reaches hintact hreaches hkeeps (Nat.lt_succ_of_le hlast) hrts
    refine ⟨m, c', hcall, matches_of_shows hplaced hshows hvars',
      hshows.sp.trans hsp, fun i hi => ?_⟩
    rw [hshows.a, hshows.x]
    exact hvalue i hi
  · have hintact := hcarries.intact (by rw [horigin, (Stream.link_extent hlink).1]) hbytes
    refine LinkedCode.call_stepLimit c.shows_view hintact (fun k => ?_) hlimit
    have hruns := hobeys k (c.view.call callEnd) vars hvars
    dsimp only at hdiverges hruns
    rw [hdiverges k] at hruns
    rwa [ha]

/-! #### A word is halved -/

/-- The function that halves the word while it is larger than three, unless it comes to a hundred,
and returns it. -/
def halving : Function :=
  let x : Expr := .var { type := .u16 } 1
  let number (i : Int64) : Expr := .literal { type := .u8 } { int := i }
  let stop : Arm :=
    .mk (.binary { type := .bool } .eq x (number 100)) (.of [.leave { tag := 4 }] false .none)
  { id := 1
    result := .u16
    body := .of
      [.loop { tag := 7 } (.binary { type := .bool } .gt x (number 3))
        (.of [.choose { tag := 6 } [stop] true .absent, .assign { tag := 1 } x (number 1) .shr true]
          false .none),
      .giveBack { tag := Stmt.giveBackTag } x] false .none }

/-- The state in which the function has a label. -/
def halvingPlaced : Emission :=
  { wordPlaced with workspace := wordPlaced.workspace.labelled [], functions :=
    [(1, wordPlaced.workspace.nextLabel)] }

theorem halving_structured : halving.body.Structured wordScope (some .u16) false := by
  have hx : (Expr.var { type := .u16 } 1).Scalar wordScope .u16 := .var rfl rfl rfl
  have hnumber (i : Int64) (hi : 0 ≤ i.toInt ∧ i.toInt ≤ 255) :
      (Expr.literal { type := .u8 } { int := i }).Scalar wordScope .u8 :=
    .literal rfl rfl rfl ⟨rfl, hi.1, hi.2⟩
  have hlarge : (Expr.binary { type := .bool } .gt (.var { type := .u16 } 1)
      (.literal { type := .u8 } { int := 3 })).Scalar
      wordScope .bool :=
    @Expr.Scalar.binary _ _ _ _ _ _ _ (.common .u16 .u8 .u16 .bool) hx
      (hnumber 3 (by decide)) rfl rfl
  have hstop : (Expr.binary { type := .bool } .eq (.var { type := .u16 } 1)
      (.literal { type := .u8 } { int := 100 })).Scalar
      wordScope .bool :=
    @Expr.Scalar.binary _ _ _ _ _ _ _ (.common .u16 .u8 .u16 .bool) hx
      (hnumber 100 (by decide)) rfl rfl
  have hhalf : (compoundValue (.var { type := .u16 } 1) (.literal { type := .u8 } { int := 1 }) .shr
      .none).Scalar wordScope
      .u16 := @Expr.Scalar.binary _ _ _ _ _ _ _ (.ofShift .u16 .u8) hx
        (hnumber 1 (by decide)) rfl rfl
  refine ⟨⟨by decide, ⟨hlarge, by decide⟩,
    ⟨by decide, by simp, ⟨⟨hstop, by decide⟩, ⟨⟨by decide, rfl⟩, trivial⟩, trivial⟩, trivial⟩,
    ⟨by decide, rfl, .u16, rfl, rfl, ⟨.u16, hhalf, rfl⟩, by decide⟩, trivial⟩, ?_, trivial⟩
  exact .inr ⟨.u16, rfl, rfl, ⟨.u16, hx, rfl⟩, by decide⟩

/-- The code of the function does what its body does. -/
theorem halving_performed :
    ∃ s', perform (lowerFunction halving) oneWord halvingPlaced = (.ok (), s') ∧
    ∀ origin image, (Routine.emitLibrary s'.workspace).2.stream.link origin = .ok image →
      Lies origin image →
      Scope.Outside wordScope (fun _ => 0xC000) origin image →
        Performs image origin wordScope (fun _ => 0xC000) (some .u16) fun n =>
          halving.body.exec wordScope (some .u16) n := by
  have hplaced : wordScope.Placed oneWord halvingPlaced fun _ => 0xC000 := fun id k hid =>
    have h := word_placed id k hid
    ⟨h.constants, h.symbol, h.lies, h.above, h.fits⟩
  have hid {id : SymbolId} {k : Kind} (hid : wordScope id = some k) : id = 1 := by
    unfold wordScope at hid
    split at hid
    · assumption
    · cases hid
  have hapart : wordScope.Apart fun _ => 0xC000 := fun id k id' k' h h' hne =>
    absurd ((hid h).trans (hid h').symm) hne
  have hwritable : wordScope.Writable oneWord := by
    rintro id k sym h hsym
    obtain rfl := hid h
    obtain rfl : sym = _ := (Option.some.inj hsym).symm
    decide
  have hbegun : Stream.Grows {} halvingPlaced.workspace.stream [] :=
    (Emission.Writes.labelled wordPlaced 0 []).grows.stream
  obtain ⟨s', hperform, hkept, hruns⟩ := functions_performed (f := halving)
    (l := wordPlaced.workspace.nextLabel) rfl
    (by rintro k ⟨⟩; rfl) hplaced hapart hwritable halving_structured hbegun
  refine ⟨s', hperform, fun origin image hlink hlies houtside => ?_⟩
  obtain ⟨entry, hentry, hperforms⟩ :=
    hruns s'.workspace [] (.refl _) hkept origin image hlink hlies houtside
  obtain rfl := hentry rfl
  exact hperforms

end

end Breadbin.Lowering
