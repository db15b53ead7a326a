import Breadbin.Proofs.Lowering.Constants
import Breadbin.Proofs.Machine.Frame
import Breadbin.Proofs.Routine.Multiplication
import Breadbin.Proofs.Routine.SignedDivision

/-!
# What lowered code does

`Does act p s P` says that lowering succeeds and that the code it writes has the property `P`
wherever it is linked.  Properties are composed along the text of the lowering: of two parts, one
after the other, both hold with an address in between, and a part that makes a label has its
property for some label.  Parts that write the same lines in every state are `Straight`.
-/

namespace Breadbin.Lowering

open Assembly Machine

/-! ## Lines -/

namespace Emission

/-- The state with more lines. -/
def writing (s : Emission) (ls : List Line) : Emission :=
  { s with workspace := s.workspace.writing ls }

/-- The second state is the first one with more lines, its tables being the same. -/
structure Writes (s s' : Emission) (ls : List Line) : Prop extends s.Stays s' where
  grows : s.workspace.Grows s'.workspace ls

theorem Writes.refl (s : Emission) : s.Writes s [] := ⟨Path.refl s, .refl _⟩

theorem Writes.trans {s t u : Emission} {ls ms : List Line} (h : s.Writes t ls)
    (h' : t.Writes u ms) :
    s.Writes u (ls ++ ms) :=
  ⟨Path.trans h.toStays h'.toStays, h.grows.trans h'.grows⟩

theorem Writes.writing (s : Emission) {ls : List Line} (h : ls.any Line.isAlign = false) :
    s.Writes (s.writing ls) ls :=
  have hgrows := ((Routine.Workspace.Writes.refl s.workspace).writing h).toGrows
  ⟨⟨⟨⟨hgrows.target, hgrows.stream.precedes⟩, .refl _, [], rfl⟩, rfl, rfl, rfl, rfl⟩, hgrows⟩

theorem Writes.labelled (s : Emission) (n : Nat) (name : Bytes) :
    s.Writes { s with labels := n, workspace := s.workspace.labelled name } [] :=
  have hgrows := ((Routine.Workspace.Writes.refl s.workspace).labelled name).toGrows
  ⟨⟨⟨⟨hgrows.target, hgrows.stream.precedes⟩, .refl _, [], rfl⟩, rfl, rfl, rfl, rfl⟩, hgrows⟩

theorem Writes.reporting (s : Emission) (ds : List Diagnostic) : s.Writes (s.reporting ds) [] :=
  ⟨⟨⟨.refl _, .refl _, ds, rfl⟩, rfl, rfl, rfl, rfl⟩, .refl _⟩

end Emission

/-! ## Properties of code -/

/-- What is known of a routine. -/
def behaviour? : RoutineId → Option LinkedCode.Behaviour
  | .mul8 => some Routine.byteProduct
  | .mul16 => some Routine.wordProduct
  | .divU8 => some Routine.byteDivision
  | .divU16 => some Routine.wordDivision
  | .divS8 => some Routine.signedByteDivision
  | .divS16 => some Routine.signedWordDivision
  | _ => none

/-- The routine stands at a label. -/
def Serves (code : LinkedCode) (id : RoutineId) (l : LabelId) : Prop :=
  ∀ r, behaviour? id = some r → ∃ a, code.At l a ∧ code.Behaves a r

/-- The routines that were asked for stand at their labels. -/
def Supplies (code : LinkedCode) (w : Routine.Workspace) : Prop :=
  ∀ id l, w.label? id = some l → Serves code id l

theorem Supplies.of_grows {code : LinkedCode} {w w' : Routine.Workspace} {ls : List Line}
    (h : Supplies code w') (hgrows : w.Grows w' ls) : Supplies code w :=
  fun id l hl => h id l (hgrows.labels id l hl)

/-- A property of code that lies between two addresses. -/
abbrev Deed := LinkedCode → Nat → Nat → Prop

/-- One piece of code behind the other. -/
def Deed.andThen (P Q : Deed) : Deed := fun code a b => ∃ m, P code a m ∧ Q code m b

/-- The lines lie there. -/
def Lines (ls : List Line) : Deed := fun code a b => code.Installed a ls b

/-- Lowering succeeds, and the code that is written has a property wherever it is linked. -/
def Does (act : Lower Unit) (p : Program) (s : Emission) (P : Deed) : Prop :=
  ∃ s' ls, perform act p s = (.ok (), s') ∧ s.Writes s' ls ∧
    ∀ code a b, code.Installed a ls b → Supplies code s'.workspace → P code a b

variable {p : Program} {s s' : Emission} {P Q : Deed} {α : Type} {x y : Lower Unit}

theorem Does.mono (h : Does x p s P) (hPQ : ∀ code a b, P code a b → Q code a b) :
    Does x p s Q := by
  obtain ⟨s', ls, hperform, hwrites, hdeed⟩ := h
  exact ⟨s', ls, hperform, hwrites, fun code a b hcode hsupplies =>
    hPQ code a b (hdeed code a b hcode hsupplies)⟩

theorem Does.bind (hx : Does x p s P) (hy : ∀ s', s.Stays s' → Does y p s' Q) :
    Does (x >>= fun _ => y) p s (P.andThen Q) := by
  obtain ⟨s₁, ls, hperform, hwrites, hdeed⟩ := hx
  obtain ⟨s₂, ms, hperform', hwrites', hdeed'⟩ := hy s₁ hwrites.toStays
  refine ⟨s₂, ls ++ ms, by rw [perform_bind_ok hperform, hperform'], hwrites.trans hwrites', ?_⟩
  intro code a b hcode hsupplies
  obtain ⟨m, hfirst, hlast⟩ := hcode.split ls
  exact ⟨m, hdeed code a m hfirst (hsupplies.of_grows hwrites'.grows),
    hdeed' code m b hlast hsupplies⟩

/-- Something is done in a state that is reached without writing anything. -/
theorem Does.after {act act' : Lower Unit} (hperform : perform act p s = perform act' p s')
    (hwrites : s.Writes s' []) (h : Does act' p s' P) : Does act p s P := by
  obtain ⟨s'', ls, hdone, hwrites', hdeed⟩ := h
  exact ⟨s'', ls, hperform.trans hdone, hwrites.trans hwrites', hdeed⟩

/-- A first part that writes nothing. -/
theorem Does.bind_unwritten {first : Lower α} {f : α → Lower Unit} {r : α}
    (hperform : perform first p s = (.ok r, s')) (hwrites : s.Writes s' [])
    (h : Does (f r) p s' P) :
    Does (first >>= f) p s P :=
  .after (perform_bind_ok hperform) hwrites h

theorem Does.pure : Does (pure ()) p s (Lines []) := ⟨s, [], rfl, .refl s, fun _ _ _ h _ => h⟩

/-- A part that makes a label. -/
theorem Does.label {name : String} {f : LabelId → Lower Unit} {P : LabelId → Deed}
    (h : ∀ l s', s.Stays s' → Does (f l) p s' (P l)) :
    Does (newLabel name >>= f) p s fun code a b => ∃ l, P l code a b := by
  have hmade := Emission.Writes.labelled s (s.labels + 1) (Text.bytesOf s!"{name}_{s.labels + 1}")
  refine Does.bind_unwritten rfl hmade ?_
  exact (h s.workspace.nextLabel _ hmade.toStays).mono fun code a b hP => ⟨_, hP⟩

/-! ## Straight code -/

/-- The same lines are written in every state. -/
class Straight (act : Lower Unit) where
  lines : List Line
  performs : ∀ p s, perform act p s = (.ok (), s.writing lines)
  plain : lines.any Line.isAlign = false

theorem Does.straight (act : Lower Unit) [h : Straight act] : Does act p s (Lines h.lines) :=
  ⟨_, _, h.performs p s, .writing s h.plain, fun _ _ _ hcode _ => hcode⟩

namespace Straight

instance : Straight (Pure.pure ()) where
  lines := []
  performs _ _ := rfl
  plain := rfl

instance {f : Unit → Lower Unit} [hx : Straight x] [hf : Straight (f ())] : Straight (x >>= f) where
  lines := hx.lines ++ hf.lines
  performs p s := by
    rw [perform_bind_ok (hx.performs p s), hf.performs]
    simp only [Emission.writing, Routine.Workspace.writing_writing]
  plain := by rw [List.any_append, hx.plain, hf.plain]; rfl

instance {c : Prop} [Decidable c] [hx : Straight x] [hy : Straight y] :
    Straight (if c then x else y) where
  lines := if c then hx.lines else hy.lines
  performs p s := by
    split
    · exact hx.performs p s
    · exact hy.performs p s
  plain := by
    split
    · exact hx.plain
    · exact hy.plain

instance (mn : Mnemonic) : Straight (op mn) where
  lines := [.instr mn (Action.ownArg mn)]
  performs p s := by
    have hop := Routine.Writer.op_apply s.workspace mn
    change (Except.ok (Routine.Writer.op mn s.workspace).1,
      { s with workspace := (Routine.Writer.op mn s.workspace).2 }) = _
    rw [hop]
    rfl
  plain := rfl

instance (mn : Mnemonic) (v : UInt8) : Straight (imm mn v) where
  lines := [.instr mn (.immediate v)]
  performs _ _ := rfl
  plain := rfl

instance (mn : Mnemonic) (z : UInt8) : Straight (zp mn z) where
  lines := [.instr mn (.zeroPage z)]
  performs _ _ := rfl
  plain := rfl

instance (mn : Mnemonic) (r : AddressRef) : Straight (mem mn r) where
  lines := [.instr mn (.absolute r)]
  performs _ _ := rfl
  plain := rfl

instance (mn : Mnemonic) (l : LabelId) : Straight (branchTo mn l) where
  lines := [.instr mn (.relative l)]
  performs _ _ := rfl
  plain := rfl

instance (l : LabelId) : Straight (jumpTo l) where
  lines := [.instr .jmp (.absolute (.ofLabel l))]
  performs _ _ := rfl
  plain := rfl

instance (l : LabelId) : Straight (place l) where
  lines := [.bound l]
  performs _ _ := rfl
  plain := rfl

instance : Straight testA := inferInstanceAs (Straight (imm .cmp 0))

instance (ref : AddressRef) (wide : Bool) : Straight (load ref wide) :=
  inferInstanceAs (Straight (do mem .lda ref; if wide then mem .ldx (ref.plus 1)))

instance (ref : AddressRef) (wide : Bool) : Straight (store ref wide) :=
  inferInstanceAs (Straight (do mem .sta ref; if wide then mem .stx (ref.plus 1)))

instance (slot : UInt8) (wide : Bool) : Straight (loadSlot slot wide) :=
  inferInstanceAs (Straight (do zp .lda slot; if wide then zp .ldx (slot + 1)))

instance (slot : UInt8) (wide : Bool) : Straight (storeSlot slot wide) :=
  inferInstanceAs (Straight (do zp .sta slot; if wide then zp .stx (slot + 1)))

instance (v : UInt16) (wide : Bool) : Straight (loadConstant v wide) :=
  inferInstanceAs (Straight (do imm .lda v.toUInt8; if wide then imm .ldx (v >>> 8).toUInt8))

instance (wide : Bool) : Straight (push wide) :=
  inferInstanceAs (Straight (do op .pha; if wide then do op .txa; op .pha))

instance (wide : Bool) : Straight (pop wide) :=
  inferInstanceAs (Straight (do
    if wide then
      op .pla
      op .tax
    op .pla))

instance (n : Nat) [h : Straight x] : Straight (times n x) where
  lines := (List.replicate n h.lines).flatten
  performs p s := by
    induction n generalizing s with
    | zero => rfl
    | succ n ih =>
      rw [times, perform_bind_ok (h.performs p s), ih]
      simp only [Emission.writing, Routine.Workspace.writing_writing, List.replicate_succ,
        List.flatten_cons]
  plain := by
    induction n with
    | zero => rfl
    | succ n ih => rw [List.replicate_succ, List.flatten_cons, List.any_append, h.plain, ih]; rfl

end Straight

end Breadbin.Lowering
