import Mathlib.Algebra.Group.Nat.Defs
import Breadbin.Proofs.Machine.Contents
import Breadbin.Proofs.Machine.Leeway
import Breadbin.Proofs.Machine.Word
import Breadbin.Proofs.Routine.Conducts
import Breadbin.Proofs.Routine.Labels
import Breadbin.Routine.Library

/-!
# The flow of control in routines

Rules for the text of a routine, one for each kind of thing that a writer writes.  `Flows` says of a
text that control may enter it where an assertion holds, and that it then gives control back as the
conduct of the routine asks.  Labels that the text will bind promise what holds where they stand.  A
label that is already bound may be jumped back to as long as a budget goes down, and so every loop
ends.
-/

namespace Breadbin.Routine

open Assembly Machine

/-- A condition on the view at the start of a routine and a later one, where so many jumps back are
left to the loop that control is in. -/
abbrev Assertion := Nat → Since

namespace Assertion

def free : Assertion := fun _ _ _ => True

def never : Assertion := fun _ _ _ => False

/-- A condition on the later view alone. -/
def holds (p : View → Prop) : Assertion := fun _ _ v => p v

/-- A measure that the budget is not below. -/
def within (f : View → Nat) : Assertion := fun n _ v => f v ≤ n

def also (P Q : Assertion) : Assertion := fun n u v => P n u v ∧ Q n u v

/-- An assertion rests on index registers and slots. -/
class RestsOn (P : Assertion) (r : outParam Footing) : Prop where
  kept : ∀ n u v w, v.Agrees r w → P n u v → P n u w

instance : RestsOn free {} := ⟨fun _ _ _ _ _ _ => trivial⟩

instance : RestsOn never {} := ⟨fun _ _ _ _ _ h => h⟩

/-- The budget plays no part in an assertion. -/
class Timeless (P : Assertion) : Prop where
  anytime : ∀ m n u v, P m u v → P n u v

/-- A condition on the start alone. -/
def given (p : View → Prop) : Assertion := fun _ u _ => p u

/-- A condition on the word in a slot. -/
def word (a : UInt8) (p : View → Nat → Prop) : Assertion := fun _ u v => p u (v.word a)

/-- A condition on the byte in a slot. -/
def byte (a : UInt8) (p : View → UInt8 → Prop) : Assertion := fun _ u v => p u (v.zp a)

instance (p : View → Prop) : RestsOn (given p) {} := ⟨fun _ _ _ _ _ h => h⟩

instance (a : UInt8) (p : View → Nat → Prop) : RestsOn (word a p) { slots := [a, a + 1] } := ⟨by
  intro n u v w hagrees h
  rwa [word, View.word, hagrees.zp a (by simp), hagrees.zp (a + 1) (by simp)]⟩

instance (a : UInt8) (p : View → UInt8 → Prop) : RestsOn (byte a p) { slots := [a] } := ⟨by
  intro n u v w hagrees h
  rwa [byte, hagrees.zp a (by simp)]⟩

instance : Timeless free := ⟨fun _ _ _ _ h => h⟩

instance (p : View → Prop) : Timeless (given p) := ⟨fun _ _ _ _ h => h⟩

instance (p : View → Prop) : Timeless (holds p) := ⟨fun _ _ _ _ h => h⟩

instance (a : UInt8) (p : View → Nat → Prop) : Timeless (word a p) := ⟨fun _ _ _ _ h => h⟩

instance (a : UInt8) (p : View → UInt8 → Prop) : Timeless (byte a p) := ⟨fun _ _ _ _ h => h⟩

instance (P Q : Assertion) [hP : Timeless P] [hQ : Timeless Q] : Timeless (P.also Q) :=
  ⟨fun m n u v h => ⟨hP.anytime m n u v h.1, hQ.anytime m n u v h.2⟩⟩

/-- A measure of the index registers. -/
def counted (f : UInt8 → UInt8 → Nat) : Assertion := within fun v => f v.x v.y

instance (f : UInt8 → UInt8 → Nat) : RestsOn (counted f) { x := true, y := true } := ⟨by
  intro n u v w hagrees h
  rw [counted, within, hagrees.x rfl, hagrees.y rfl]
  exact h⟩

instance (P Q : Assertion) (r s : Footing) [RestsOn P r] [RestsOn Q s] :
    RestsOn (P.also Q) ⟨r.x || s.x, r.y || s.y, r.slots ++ s.slots⟩ := ⟨by
  rintro n u v w hagrees ⟨hp, hq⟩
  refine ⟨RestsOn.kept n u v w ⟨fun hx => ?_, fun hy => ?_, fun z hz => ?_⟩ hp,
    RestsOn.kept n u v w ⟨fun hx => ?_, fun hy => ?_, fun z hz => ?_⟩ hq⟩
  · exact hagrees.x (by simp [hx])
  · exact hagrees.y (by simp [hy])
  · exact hagrees.zp z (by simp [hz])
  · exact hagrees.x (by simp [hx])
  · exact hagrees.y (by simp [hy])
  · exact hagrees.zp z (by simp [hz])⟩

/-- At the start of a round of a loop X tells how many rounds are left. -/
def turning (I : Nat → Since) : Assertion :=
  fun b u v => I v.x.toNat u v ∧ 1 ≤ v.x.toNat ∧ v.x.toNat ≤ b

/-- In a round what holds with one round less is reached before X is counted down. -/
def turned (I : Nat → Since) : Assertion :=
  fun b u v => I (v.x.toNat - 1) u v ∧ 1 ≤ v.x.toNat ∧ v.x.toNat ≤ b

end Assertion

/-- What a label promises that is bound later: where it stands control may come, or bytes lie. -/
inductive Promise where
  | entry (P : Assertion)
  | table (bytes : List UInt8)

/-- A promise is kept. -/
def Promise.Kept (M : Conduct) (code : LinkedCode) (n : Nat) (l : LabelId) : Promise → Prop
  | entry P => ∃ t, code.At l t ∧ M.Ends code 0 (P n) t
  | table bytes => ∃ t, code.At l t ∧ code.Contains t bytes

/-- Labels that are bound, and labels that will be. -/
abbrev Back := List (LabelId × Assertion)

abbrev Ahead := List (LabelId × Promise)

/-- Jumps back end when they use up some of the budget. -/
def Back.Hold (back : Back) (M : Conduct) (code : LinkedCode) (n : Nat) : Prop :=
  ∀ l P, (l, P) ∈ back → ∃ t, code.At l t ∧ ∀ m < n, M.Ends code 0 (P m) t

def Ahead.Hold (ahead : Ahead) (M : Conduct) (code : LinkedCode) (n : Nat) : Prop :=
  ∀ l p, (l, p) ∈ ahead → p.Kept M code n l

/-- An assertion that another one follows from. -/
class Assertion.Entails (P Q : Assertion) : Prop where
  entails : ∀ n u v, P n u v → Q n u v

section Entails

variable (P Q : Assertion)

instance : P.Entails P := ⟨fun _ _ _ h => h⟩

instance : P.Entails .free := ⟨fun _ _ _ _ => trivial⟩

instance : Assertion.never.Entails P := ⟨fun _ _ _ h => h.elim⟩

instance : (P.also Q).Entails P := ⟨fun _ _ _ h => h.1⟩

end Entails

/-- A label that has been bound may be jumped back to. -/
class Back.Knows (back : Back) (l : LabelId) (P : outParam Assertion) : Prop where
  mem : (l, P) ∈ back

/-- A label makes a promise that is still to be kept. -/
class Ahead.Promises (ahead : Ahead) (l : LabelId) (p : outParam Promise) : Prop where
  mem : (l, p) ∈ ahead

/-- A label's promise is one of those still to be kept, and `rest` are the others. -/
class Ahead.Keeps (ahead : Ahead) (l : LabelId) (p : outParam Promise)
    (rest : outParam Ahead) : Prop where
  removes : Removes (l, p) ahead rest

section Labels

variable (l : LabelId) (P : Assertion) (p : Promise) (back : Back) (ahead rest : Ahead)

instance : Back.Knows ((l, P) :: back) l P := ⟨.head _⟩

instance (priority := low) (other : LabelId × Assertion) [h : back.Knows l P] :
    Back.Knows (other :: back) l P :=
  ⟨.tail _ h.mem⟩

instance : Ahead.Promises ((l, p) :: ahead) l p := ⟨.head _⟩

instance (priority := low) (other : LabelId × Promise) [h : ahead.Promises l p] :
    Ahead.Promises (other :: ahead) l p :=
  ⟨.tail _ h.mem⟩

instance : Ahead.Keeps ((l, p) :: ahead) l p ahead := ⟨.head⟩

instance (priority := low) (other : LabelId × Promise) [h : ahead.Keeps l p rest] :
    Ahead.Keeps (other :: ahead) l p (other :: rest) :=
  ⟨.tail h.removes⟩

end Labels

/-- Instructions that branch. -/
class Branches (mn : Mnemonic) : Prop where
  inverse : mn.inverse?.isSome = true

instance : Branches .bcc := ⟨rfl⟩

instance : Branches .bcs := ⟨rfl⟩

instance : Branches .beq := ⟨rfl⟩

instance : Branches .bne := ⟨rfl⟩

instance : Branches .bmi := ⟨rfl⟩

instance : Branches .bpl := ⟨rfl⟩

/-- The routines that a routine calls are in the code and keep to their conducts. -/
def Workspace.Offers (K : RoutineId → Conduct) (w : Workspace) (code : LinkedCode)
    (ids : List RoutineId) : Prop :=
  ∀ id ∈ ids, ∀ l, w.label? id = some l → ∃ a, code.At l a ∧ (K id).Starts code a

/-- The bytes that a line takes at most. -/
def room : Line → Nat
  | .instr .. => 5
  | .data bytes => bytes.length
  | .word _ => 2
  | _ => 0

/-- The bytes that lines take at most. -/
def rooms : List Line → Nat
  | [] => 0
  | line :: ls => room line + rooms ls

theorem rooms_append (ls ms : List Line) : rooms (ls ++ ms) = rooms ls + rooms ms := by
  induction ls with
  | nil => exact (Nat.zero_add _).symm
  | cons line ls ih => rw [List.cons_append, rooms, rooms, ih, Nat.add_assoc]

variable (K : RoutineId → Conduct) (t : Target) (id : RoutineId)

/-- The text of a part of a routine leads from where `P` holds to the end of the routine. -/
def Flows {α : Type} (size : Nat) (back : Back) (ahead : Ahead) (pushed : Nat) (P : Assertion)
    (m : Writer α) : Prop :=
  ∀ w : Workspace, w.target = t → ∃ ls, w.Grows (m w).2 ls ∧ rooms ls < size ∧
    ∀ (code : LinkedCode) a b, (K id).Fits code → code.Installed a ls b →
      (m w).2.Offers K code id.calls → ∀ n, back.Hold (K id) code n →
        ahead.Hold (K id) code n ∧ (K id).Ends code pushed (P n) a

namespace Flows

variable {K t id} {α β : Type} {size j k : Nat} {back back' : Back}
  {ahead ahead' : Ahead} {P Q : Assertion}

/-! ## Assertions -/

theorem weaken {m : Writer α} (h : Flows K t id size back ahead k Q m)
    (hP : ∀ n u v, P n u v → Q n u v) :
    Flows K t id size back ahead k P m := by
  intro w hw
  obtain ⟨ls, hgrows, hroom, hls⟩ := h w hw
  refine ⟨ls, hgrows, hroom, fun code a b hfits hin hoffers n hback => ?_⟩
  obtain ⟨hahead, hends⟩ := hls code a b hfits hin hoffers n hback
  exact ⟨hahead, hends.mono (hP n)⟩

/-- Outside of loops any budget may be taken. -/
theorem renew {m : Writer α} (h : Flows K t id size [] ahead k Q m)
    (hP : ∀ n u v, P n u v → ∃ n', Q n' u v) :
    Flows K t id size back ahead k P m := by
  intro w hw
  obtain ⟨ls, hgrows, hroom, hls⟩ := h w hw
  refine ⟨ls, hgrows, hroom, fun code a b hfits hin hoffers n _ => ?_⟩
  have hany := fun n => hls code a b hfits hin hoffers n nofun
  refine ⟨(hany n).1, fun u v hu hs hv hp => ?_⟩
  obtain ⟨n', hq⟩ := hP n u v hp
  exact (hany n').2 u v hu hs hv hq

/-- Labels that are not jumped back to any more. -/
theorem forget {m : Writer α} (h : Flows K t id size back ahead k P m) (hsub : back ⊆ back') :
    Flows K t id size back' ahead k P m := by
  intro w hw
  obtain ⟨ls, hgrows, hroom, hls⟩ := h w hw
  exact ⟨ls, hgrows, hroom, fun code a b hfits hin hoffers n hback =>
    hls code a b hfits hin hoffers n fun l R hl => hback l R (hsub hl)⟩

/-! ## Texts -/

theorem last {m : Writer Unit} (h : Flows K t id size back ahead k P (m >>= fun _ => pure ())) :
    Flows K t id size back ahead k P m := h

theorem fit {m : Writer α} (h : Flows K t id j back ahead k P m) (hsize : j ≤ size) :
    Flows K t id size back ahead k P m := by
  intro w hw
  obtain ⟨ls, hgrows, hroom, hls⟩ := h w hw
  exact ⟨ls, hgrows, Nat.lt_of_lt_of_le hroom hsize, hls⟩

/-- The end of a text, which control does not come to. -/
theorem done (hsize : 0 < size) (a : α) :
    Flows K t id size back [] k .never (pure a : Writer α) := by
  intro w _
  refine ⟨[], .refl w, hsize, fun code a b _ _ _ n _ => ⟨nofun, .never fun _ _ h => h⟩⟩

/-- Lines in front of a text. -/
theorem front {m rest : Writer α} (ls : List Line)
    (h : Flows K t id (size - rooms ls) back' ahead' j Q rest)
    (hm : ∀ w, m w = rest (w.writing ls))
    (hplain : ls.any Line.isAlign = false)
    (hlead : ∀ (code : LinkedCode) a b, (K id).Fits code → code.Installed a ls b →
      (∀ n, back'.Hold (K id) code n →
        ahead'.Hold (K id) code n ∧ (K id).Ends code j (Q n) b) →
      ∀ n, back.Hold (K id) code n →
        ahead.Hold (K id) code n ∧ (K id).Ends code k (P n) a) :
    Flows K t id size back ahead k P m := by
  intro w hw
  rw [hm]
  obtain ⟨ms, hgrows, hroom, hms⟩ := h (w.writing ls) hw
  refine ⟨ls ++ ms, ((Workspace.Writes.refl w).writing hplain).toGrows.trans hgrows, ?_, ?_⟩
  · rw [rooms_append]
    omega
  · intro code a b hfits hin hoffers
    obtain ⟨c, hfront, hbehind⟩ := hin.split ls
    exact hlead code a c hfits hfront (hms code c b hfits hbehind hoffers)

/-- A line after which the same labels are known. -/
theorem line {m rest : Writer α} (line : Line)
    (h : Flows K t id (size - room line) back ahead j Q rest)
    (hm : ∀ w, m w = rest (w.writing [line])) (hplain : line.isAlign = false)
    (hlead : ∀ (code : LinkedCode) a b, (K id).Fits code → code.Installed a [line] b → ∀ n,
      back.Hold (K id) code n → ahead.Hold (K id) code n →
      (K id).Ends code j (Q n) b → (K id).Ends code k (P n) a) :
    Flows K t id size back ahead k P m := by
  refine .front [line] h hm (by simp [hplain]) fun code a b hfits hin hrest n hback => ?_
  obtain ⟨hahead, hends⟩ := hrest n hback
  exact ⟨hahead, hlead code a b hfits hin n hback hahead hends⟩

end Flows

/-! ## Straight code -/

/-- Code without labels of its own writes fixed lines, whatever stands before them. -/
class Straight (x : Writer Unit) (count : outParam Nat) where
  lines : List Line
  writes : ∀ w, x w = ((), w.writing lines)
  length : lines.length = count

section Straight

variable (mn : Mnemonic) (a b c n z : UInt8) (address v : UInt16) (l : LabelId)

instance : Straight (Writer.zp mn z) 1 := ⟨[.instr mn (.zeroPage z)], fun _ => rfl, rfl⟩

instance : Straight (Writer.imm mn n) 1 := ⟨[.instr mn (.immediate n)], fun _ => rfl, rfl⟩

instance : Straight (Writer.op mn) 1 :=
  ⟨[.instr mn (Action.ownArg mn)], fun w => Writer.op_apply w mn, rfl⟩

instance : Straight (Writer.indY mn z) 1 := ⟨[.instr mn (.indirectY z)], fun _ => rfl, rfl⟩

instance : Straight (Writer.abs mn address) 1 :=
  ⟨[.instr mn (.absolute (.fixed address))], fun _ => rfl, rfl⟩

instance : Straight (Writer.absY mn address) 1 :=
  ⟨[.instr mn (.absoluteY (.fixed address))], fun _ => rfl, rfl⟩

instance : Straight (Writer.tableX mn l) 1 :=
  ⟨[.instr mn (.absoluteX (.ofLabel l))], fun _ => rfl, rfl⟩

instance : Straight (Writer.loadAddress l) 2 :=
  ⟨[.instr .lda (.lowByte (.ofLabel l)), .instr .ldx (.highByte (.ofLabel l))], fun _ => rfl, rfl⟩

instance (x y : Writer Unit) (i j : Nat) [hx : Straight x i] [hy : Straight y j] :
    Straight (x >>= fun _ => y) (i + j) :=
  ⟨hx.lines ++ hy.lines, fun w => by
    rw [Writer.bind_apply, hx.writes, hy.writes, Workspace.writing_writing], by
    rw [List.length_append, hx.length, hy.length]⟩

instance : Straight (Writer.moveWord a b) 4 := by
  delta Writer.moveWord
  infer_instance

instance : Straight (Writer.setWord a v) 4 := by
  delta Writer.setWord
  infer_instance

instance : Straight (Writer.addWord a b c) 7 := by
  delta Writer.addWord
  infer_instance

instance : Straight (Writer.subWord a b c) 7 := by
  delta Writer.subWord
  infer_instance

instance : Straight (Writer.negateWord a) 7 := by
  delta Writer.negateWord
  infer_instance

instance : Straight (Writer.shiftLeftWord a) 2 := by
  delta Writer.shiftLeftWord
  infer_instance

instance : Straight (Writer.shiftRightWord a) 2 := by
  delta Writer.shiftRightWord
  infer_instance

instance : Straight (Writer.compareWord a b) 4 := by
  delta Writer.compareWord
  infer_instance

instance : Straight (Writer.testWord a) 2 := by
  delta Writer.testWord
  infer_instance

end Straight

/-- A text begins with straight code and goes on with `rest`. -/
class Leading {α : Type} (m : Writer α) (rest : outParam (Writer α)) (count : outParam Nat) where
  lines : List Line
  writes : ∀ w, m w = rest (w.writing lines)
  length : lines.length = count

instance (priority := low) {α : Type} (m : Writer α) : Leading m m 0 := ⟨[], fun _ => rfl, rfl⟩

instance {α : Type} (x : Writer Unit) (m rest : Writer α) (i j : Nat) [hx : Straight x i]
    [hm : Leading m rest j] :
    Leading (x >>= fun _ => m) rest (i + j) :=
  ⟨hx.lines ++ hm.lines, fun w => by
    rw [Writer.bind_apply, hx.writes, hm.writes, Workspace.writing_writing], by
    rw [List.length_append, hx.length, hm.length]⟩

section Leading

variable {α : Type} (m : Writer α) (mn mn' : Mnemonic) (n : UInt8) (address : UInt16) (l : LabelId)

-- straight code ends where control goes elsewhere, or bytes are pushed and pulled
instance (priority := high) :
    Leading (Writer.op .rts >>= fun _ => m) (Writer.op .rts >>= fun _ => m) 0 :=
  ⟨[], fun _ => rfl, rfl⟩

instance (priority := high) :
    Leading (Writer.op .pha >>= fun _ => m) (Writer.op .pha >>= fun _ => m) 0 :=
  ⟨[], fun _ => rfl, rfl⟩

instance (priority := high) :
    Leading (Writer.op .pla >>= fun _ => m) (Writer.op .pla >>= fun _ => m) 0 :=
  ⟨[], fun _ => rfl, rfl⟩

instance (priority := high) :
    Leading (Writer.abs .jsr address >>= fun _ => m) (Writer.abs .jsr address >>= fun _ => m) 0 :=
  ⟨[], fun _ => rfl, rfl⟩

instance (priority := high) :
    Leading (Writer.abs .jmp address >>= fun _ => m) (Writer.abs .jmp address >>= fun _ => m) 0 :=
  ⟨[], fun _ => rfl, rfl⟩

-- and where the memory is read through a pointer or stored into
instance (priority := high) (z : UInt8) :
    Leading (Writer.indY mn z >>= fun _ => m) (Writer.indY mn z >>= fun _ => m) 0 :=
  ⟨[], fun _ => rfl, rfl⟩

instance (priority := high) :
    Leading (Writer.absY mn address >>= fun _ => m) (Writer.absY mn address >>= fun _ => m) 0 :=
  ⟨[], fun _ => rfl, rfl⟩

instance (priority := high) :
    Leading (Writer.tableX mn l >>= fun _ => m) (Writer.tableX mn l >>= fun _ => m) 0 :=
  ⟨[], fun _ => rfl, rfl⟩

-- and in front of the end of a loop
instance (priority := high) :
    Leading (Writer.op mn >>= fun _ => Writer.branch .bne l >>= fun _ => m)
      (Writer.op mn >>= fun _ => Writer.branch .bne l >>= fun _ => m) 0 :=
  ⟨[], fun _ => rfl, rfl⟩

instance (priority := high) :
    Leading (Writer.op mn >>= fun _ => Writer.imm mn' n >>= fun _ =>
      Writer.branch .bne l >>= fun _ => m)
      (Writer.op mn >>= fun _ => Writer.imm mn' n >>= fun _ => Writer.branch .bne l >>= fun _ => m)
        0 :=
  ⟨[], fun _ => rfl, rfl⟩

end Leading

/-! ## Rules -/

/-- Permitted lines are instructions. -/
theorem permitted_instr {M : Conduct} {r : Footing} {ls : List Line}
    (h : ls.all (M.permits r) = true) :
    ls.any Line.isAlign = false ∧ rooms ls = 5 * ls.length := by
  induction ls with
  | nil => exact ⟨rfl, rfl⟩
  | cons line ls ih =>
    simp only [List.all_cons, Bool.and_eq_true] at h
    obtain ⟨halign, hroom⟩ := ih h.2
    cases line with
    | instr =>
      refine ⟨halign, ?_⟩
      rw [rooms, hroom, List.length_cons, room]
      omega
    | _ => cases h.1

theorem Back.Hold.mono {back : Back} {M : Conduct} {code : LinkedCode} {m n : Nat}
    (h : back.Hold M code n) (hmn : m ≤ n) :
    back.Hold M code m := by
  intro l P hl
  obtain ⟨t, hat, hends⟩ := h l P hl
  exact ⟨t, hat, fun i hi => hends i (Nat.lt_of_lt_of_le hi hmn)⟩

theorem Back.Hold.nil (M : Conduct) (code : LinkedCode) (n : Nat) : Back.Hold [] M code n := nofun

/-- Going back uses up some of the budget. -/
theorem Back.Hold.ends {back : Back} {M : Conduct} {code : LinkedCode} {n : Nat}
    (h : back.Hold M code n) {l : LabelId} {R : Assertion} (hl : (l, R) ∈ back) :
    ∃ t, code.At l t ∧ M.Ends code 0 (fun u v => ∃ m < n, R m u v) t := by
  obtain ⟨t, hat, hends⟩ := h l R hl
  refine ⟨t, hat, fun u v hu hs hv hr => ?_⟩
  obtain ⟨m, hm, hr⟩ := hr
  exact hends m hm u v hu hs hv hr

/-- A routine of which nothing is asked may end anywhere. -/
theorem trivially {P : Assertion} (n : Nat) (u v : View) (_ : P n u v) : True := trivial

/-- The bounds of a routine that another one may call after it has pushed some bytes. -/
structure Bounds.Allows (M : Bounds) (pushed : Nat) (N : Bounds) : Prop where
  slots : N.slots ⊆ M.slots
  buffers : N.buffers ⊆ M.buffers
  x : M.keepsX = true → N.keepsX = true
  y : M.keepsY = true → N.keepsY = true
  depth : pushed + N.depth ≤ M.depth

instance (M N : Bounds) (pushed : Nat) : Decidable (M.Allows pushed N) :=
  decidable_of_iff
      (N.slots ⊆ M.slots ∧ N.buffers ⊆ M.buffers ∧ (M.keepsX = true → N.keepsX = true) ∧
      (M.keepsY = true → N.keepsY = true) ∧ pushed + N.depth ≤ M.depth)
    ⟨fun ⟨h1, h2, h3, h4, h5⟩ => ⟨h1, h2, h3, h4, h5⟩, fun ⟨h1, h2, h3, h4, h5⟩ =>
      ⟨h1, h2, h3, h4, h5⟩⟩

/-- On every machine the conduct of the one routine allows that of the other. -/
theorem Bounds.Allows.conduct {id callee : RoutineId} {pushed : Nat}
    (h : (bounds id).Allows pushed (bounds callee))
    (t : Target) : (conduct t id).Allows pushed (conduct t callee) where
  slots := h.slots
  areas := fun area harea => by
    obtain ⟨buffer, hbuffer, hmem⟩ := List.mem_flatMap.1 harea
    exact List.mem_flatMap.2 ⟨buffer, h.buffers hbuffer, hmem⟩
  x := h.x
  y := h.y
  depth := h.depth

/-- A routine keeps the slots that are not among its own. -/
theorem kept {t : Target} {id : RoutineId} {k : Nat} {u v : View}
    (h : (conduct t id).Keeps k u v) {z : UInt8} (hz : z ∉ (bounds id).slots) : v.zp z = u.zp z :=
  h.zp z hz

/-- A routine may call another one where it has pushed `k` bytes. -/
structure MayCall (id : RoutineId) (k : Nat) (callee : RoutineId) : Prop where
  known : callee ∈ id.calls
  allows : (bounds id).Allows (k + 2) (bounds callee)
  depth : (bounds callee).depth ≤ 254

instance (id : RoutineId) (k : Nat) (callee : RoutineId) : Decidable (MayCall id k callee) :=
  decidable_of_iff
    (callee ∈ id.calls ∧ (bounds id).Allows (k + 2) (bounds callee) ∧ (bounds callee).depth ≤ 254)
    ⟨fun h => ⟨h.1, h.2.1, h.2.2⟩, fun h => ⟨h.known, h.allows, h.depth⟩⟩

/-- A routine may end with a jump to another one. -/
structure MayEndWith (id callee : RoutineId) : Prop where
  known : callee ∈ id.calls
  allows : (bounds id).Allows 0 (bounds callee)

instance (id callee : RoutineId) : Decidable (MayEndWith id callee) :=
  decidable_of_iff (callee ∈ id.calls ∧ (bounds id).Allows 0 (bounds callee))
    ⟨fun h => ⟨h.1, h.2⟩, fun h => ⟨h.known, h.allows⟩⟩

/-- The routine's label leads to the routine. -/
theorem Workspace.Offers.starts {K : RoutineId → Conduct} {w : Workspace} {code : LinkedCode}
    {ids : List RoutineId}
    (h : w.Offers K code ids) {id : RoutineId} (hid : id ∈ ids) {v : Workspace} {ls : List Line}
    (hgrows : (v.require id).1.Grows w ls) :
    ∃ a, code.At (v.require id).2 a ∧ (K id).Starts code a :=
  h id hid _ (hgrows.labels id _ (v.label?_require id))

namespace Flows

variable {K : RoutineId → Conduct} {t : Target} {id callee : RoutineId} {α : Type} {size k : Nat}
  {back : Back} {ahead ahead' : Ahead} {P Q R : Assertion}
  {f : Unit → Writer α} {l : LabelId} {mn : Mnemonic}

/-- Straight code that does nothing worth telling. -/
theorem straight {m rest : Writer α} {count : Nat} [hm : Leading m rest count]
    {r : Footing} [P.RestsOn r]
    (hok : hm.lines.all ((K id).permits r) = true)
    (h : Flows K t id (size - 5 * count) back ahead k P rest) :
    Flows K t id size back ahead k P m := by
  obtain ⟨halign, hroom⟩ := permitted_instr hok
  rw [← hm.length, ← hroom] at h
  refine .front hm.lines h hm.writes halign fun code a b hfits hin hrest n hback => ?_
  obtain ⟨hahead, hends⟩ := hrest n hback
  refine ⟨hahead, hends.after fun u v _ _ hv hp => ?_⟩
  obtain ⟨v', hreaches, hv', hagrees⟩ := hv.permittedAll hok hfits hin
  exact ⟨v', 0, hreaches, hv', Assertion.RestsOn.kept n u v v' hagrees hp⟩

/-- Straight code in front, executed, by which one condition is kept and another one changes. -/
theorem turn {m rest : Writer α} {count : Nat} [hm : Leading m rest count]
    {r : Footing} [P.RestsOn r] (hok : hm.lines.all ((K id).permits r) = true)
    (hexec : ∀ n u v, P n u v → Q n u v → ∃ v', LinkedCode.execAll v hm.lines = some v' ∧ R n u v')
    (h : Flows K t id (size - 5 * count) back ahead k (P.also R) rest) :
    Flows K t id size back ahead k (P.also Q) m := by
  obtain ⟨halign, hroom⟩ := permitted_instr hok
  rw [← hm.length, ← hroom] at h
  refine .front hm.lines h hm.writes halign fun code a b hfits hin hrest n hback => ?_
  obtain ⟨hahead, hends⟩ := hrest n hback
  refine ⟨hahead, hends.after fun u v _ _ hv ⟨hp, hq⟩ => ?_⟩
  obtain ⟨v', hexec, hr⟩ := hexec n u v hp hq
  obtain ⟨hv', hagrees⟩ := hv.execAll hok hexec
  exact ⟨v', 0, hin.run hexec, hv', Assertion.RestsOn.kept n u v v' hagrees hp, hr⟩

/-- Straight code in front, executed. -/
theorem exec {m rest : Writer α} {count : Nat} [hm : Leading m rest count]
    (hok : hm.lines.all ((K id).permits {}) = true)
    (hexec : ∀ n u v, P n u v → ∃ v', LinkedCode.execAll v hm.lines = some v' ∧ Q n u v')
    (h : Flows K t id (size - 5 * count) back ahead k Q rest) :
    Flows K t id size back ahead k P m :=
  .weaken (.turn (P := .free) hok (fun n u v _ hp => hexec n u v hp)
    (h.weaken fun _ _ _ hq => hq.2))
    fun _ _ _ hp => ⟨trivial, hp⟩

/-- One piece of straight code, executed, by which one condition is kept and another one changes. -/
theorem piece {x : Writer Unit} {m : Writer α} {count : Nat} [hx : Straight x count]
    {r : Footing} [P.RestsOn r] (hok : hx.lines.all ((K id).permits r) = true)
    (hexec : ∀ n u v, P n u v → Q n u v → ∃ v', LinkedCode.execAll v hx.lines = some v' ∧ R n u v')
    (h : Flows K t id (size - 5 * count) back ahead k (P.also R) m) :
    Flows K t id size back ahead k (P.also Q) (x >>= fun _ => m) :=
  letI : Leading (x >>= fun _ => m) m count :=
    ⟨hx.lines, fun w => by rw [Writer.bind_apply, hx.writes], hx.length⟩
  .turn hok hexec h

/-- One piece of straight code, executed. -/
theorem run {x : Writer Unit} {m : Writer α} {count : Nat} [hx : Straight x count]
    (hok : hx.lines.all ((K id).permits {}) = true)
    (hexec : ∀ n u v, P n u v → ∃ v', LinkedCode.execAll v hx.lines = some v' ∧ Q n u v')
    (h : Flows K t id (size - 5 * count) back ahead k Q m) :
    Flows K t id size back ahead k P (x >>= fun _ => m) :=
  .weaken (.piece (P := .free) hok (fun n u v _ hp => hexec n u v hp)
    (h.weaken fun _ _ _ hq => hq.2))
    fun _ _ _ hp => ⟨trivial, hp⟩

/-- What a routine relies on and keeps is known all along. -/
theorem knowing {m : Writer α}
    (h : Flows K t id size back ahead
      k (fun n u v => P n u v ∧ (K id).starts u ∧ (K id).Keeps k u v) m) :
    Flows K t id size back ahead k P m := by
  intro w hw
  obtain ⟨ls, hgrows, hroom, hls⟩ := h w hw
  refine ⟨ls, hgrows, hroom, fun code a b hfits hin hoffers n hback => ?_⟩
  obtain ⟨hahead, hends⟩ := hls code a b hfits hin hoffers n hback
  exact ⟨hahead, fun u v hu hs hv hp => hends u v hu hs hv ⟨hp, hs, hv⟩⟩

/-! ### Memory -/

section Memory

variable {x : Writer Unit} [hx : Straight x 1] {arg : Arg}

/-- An instruction that reads. -/
theorem read (hline : hx.lines = [.instr mn arg]) (hok : (K id).permits {} (.instr mn arg) = true)
    (hreads : ∀ n u v, P n u v → ∃ b v', v.value? arg = some b ∧
      v.takeIn? b mn = some v' ∧ Q n u v')
    (h : Flows K t id (size - 5) back ahead k Q (f ())) :
    Flows K t id size back ahead k P (x >>= f) := by
  refine .line (.instr mn arg) h (fun w => by rw [Writer.bind_apply, hx.writes, hline]) rfl
    fun code a b hfits hin n hback hahead hends => ?_
  refine hends.after fun u v _ _ hv hp => ?_
  obtain ⟨byte, v', hbyte, htakes, hq⟩ := hreads n u v hp
  exact ⟨v', 1, hin.takeIn (View.code_value? code hbyte) htakes, (hv.takeIn hok htakes).1, hq⟩

/-- An instruction that reads a byte of a table. -/
theorem lookup {bytes : List UInt8} [hl : ahead.Promises l (.table bytes)]
    (hok : (K id).permits {} (.instr mn (.absoluteX (.ofLabel l))) = true)
    (hreads : ∀ n u v, P n u v → ∃ b v', bytes[v.x.toNat]? = some b ∧
      v.takeIn? b mn = some v' ∧ Q n u v')
    (h : Flows K t id (size - 5) back ahead k Q (f ())) :
    Flows K t id size back ahead k P (Writer.tableX mn l >>= f) := by
  refine .line (.instr mn (.absoluteX (.ofLabel l))) h (fun _ => rfl) rfl
    fun code a b hfits hin n hback hahead hends => ?_
  refine hends.after fun u v hu _ hv hp => ?_
  obtain ⟨byte, v', hbyte, htakes, hq⟩ := hreads n u v hp
  obtain ⟨first, hat, hcontains⟩ := hahead l _ hl.mem
  have hpeek := (hv.intact hfits hu).peek hcontains hbyte
  refine ⟨v', 1, hin.takeIn (n := byte) ?_ htakes, (hv.takeIn hok htakes).1, hq⟩
  rw [← hpeek, UInt16.ofNat_add, ← hat.of_label]
  simp [LinkedCode.value?, LinkedCode.address?]

/-- An instruction that stores where the routine may. -/
theorem store (hline : hx.lines = [.instr mn arg])
    (hstores : ∀ n u v, P n u v → ∃ b address, v.giveOut? mn = some b ∧
      v.address? arg = some address ∧ (K id).Owns address ∧ Q n u (v.poke address b))
    (h : Flows K t id (size - 5) back ahead k Q (f ())) :
    Flows K t id size back ahead k P (x >>= f) := by
  refine .line (.instr mn arg) h (fun w => by rw [Writer.bind_apply, hx.writes, hline]) rfl
    fun code a b hfits hin n hback hahead hends => ?_
  refine hends.after fun u v _ _ hv hp => ?_
  obtain ⟨byte, address, hbyte, haddress, howns, hq⟩ := hstores n u v hp
  obtain ⟨hmain, hfree⟩ := hfits address howns
  exact ⟨_, 1, hin.giveOut hbyte (View.code_address? code haddress) hmain hfree,
    hv.poke howns byte, hq⟩

/-- An instruction that stores into the stack page. -/
theorem overwrite (hline : hx.lines = [.instr mn arg])
    (hstores : ∀ n u v, P n u v → (K id).Keeps k u v → ∃ b address, v.giveOut? mn = some b ∧
      v.address? arg = some address ∧
      0x100 ≤ address.toNat ∧ address.toNat < mainBase ∧
        (u.sp - UInt8.ofNat (address.toNat - 0x100)).toNat < (K id).depth ∧
        Q n u { v with stack := Function.update v.stack (UInt8.ofNat (address.toNat - 0x100)) b })
    (h : Flows K t id (size - 5) back ahead k Q (f ())) :
    Flows K t id size back ahead k P (x >>= f) := by
  refine .line (.instr mn arg) h (fun w => by rw [Writer.bind_apply, hx.writes, hline]) rfl
    fun code a b hfits hin n hback hahead hends => ?_
  refine hends.after fun u v _ _ hv hp => ?_
  obtain ⟨byte, address, hbyte, haddress, hlow, hhigh, hdeep, hq⟩ := hstores n u v hp hv
  have habove := code.above
  have hwrite : v.write address byte =
      { v with stack := Function.update v.stack (UInt8.ofNat (address.toNat - 0x100)) byte } := by
    rw [View.write, if_neg (by omega), if_pos hhigh]
  have hreaches := hin.write hbyte (View.code_address? code haddress) fun hcovers =>
    absurd hcovers.1 (by omega)
  rw [hwrite] at hreaches
  generalize UInt8.ofNat (address.toNat - 0x100) = slot at hreaches hdeep hq
  refine ⟨_, 1, hreaches, { hv with stack := fun i hi => ?_ }, hq⟩
  have hne : i ≠ slot := fun heq => Nat.not_lt.2 hi (heq ▸ hdeep)
  exact (Function.update_of_ne hne _ _).trans (hv.stack i hi)

end Memory

/-! ### Labels -/

theorem promise {g : LabelId → Writer α} (promise : Promise)
    (h : ∀ l, Flows K t id size back ((l, promise) :: ahead) k P (g l)) :
    Flows K t id size back ahead k P (Writer.label >>= g) := by
  intro w hw
  obtain ⟨ls, hgrows, hroom, hls⟩ := h w.nextLabel (w.labelled []) hw
  have hlabelled := ((Workspace.Writes.refl w).labelled []).toGrows.trans hgrows
  refine ⟨ls, hlabelled, hroom, fun code a b hfits hin hoffers n hback => ?_⟩
  obtain ⟨hahead, hends⟩ := hls code a b hfits hin hoffers n hback
  exact ⟨fun l p hl => hahead l p (List.mem_cons_of_mem _ hl), hends⟩

/-- A label that control may come to. -/
theorem label {g : LabelId → Writer α} (R : Assertion)
    (h : ∀ l, Flows K t id size back ((l, .entry R) :: ahead) k P (g l)) :
    Flows K t id size back ahead k P (Writer.label >>= g) :=
  .promise (.entry R) h

/-- A label is bound, and from now on may be jumped back to. -/
theorem bind [hl : ahead.Keeps l (.entry R) ahead'] [hP : P.Entails R]
    (h : Flows K t id size ((l, R) :: back) ahead' 0 R (f ())) :
    Flows K t id size back ahead 0 P (Writer.bind l >>= f) := by
  refine .front [.bound l] h (fun _ => rfl) rfl fun code a b hfits hin hrest n hback => ?_
  obtain ⟨hat, rfl⟩ := hin.bound
  -- by strong induction on the budget the text may be entered here
  have hends : ∀ n, back.Hold (K id) code n →
      ahead'.Hold (K id) code n ∧ (K id).Ends code 0 (R n) b := by
    intro n
    induction n using Nat.strongRecOn with
    | ind n ih =>
      intro hback
      refine hrest n fun l' R' hl' => ?_
      rcases List.mem_cons.1 hl' with heq | hl'
      · cases heq
        exact ⟨b, hat, fun m hm => (ih m hm (hback.mono (Nat.le_of_lt hm))).2⟩
      · exact hback l' R' hl'
  obtain ⟨hahead, hends⟩ := hends n hback
  refine ⟨fun l' p hl' => ?_, hends.mono (hP.entails n)⟩
  rcases List.mem_cons.1 (hl.removes.perm.mem_iff.1 hl') with heq | hl'
  · cases heq
    exact ⟨b, hat, hends⟩
  · exact hahead l' p hl'

theorem here {g : LabelId → Writer α}
    (h : ∀ l, Flows K t id size ((l, P) :: back) ahead 0 P (g l)) :
    Flows K t id size back ahead 0 P (Writer.here >>= g) := by
  have hlabel : Flows K t id size back ahead 0 P
      (Writer.label >>= fun l => Writer.bind l >>= fun _ => g l) :=
    .label P fun l => .bind (h l)
  exact hlabel

/-- A label with bytes behind it. -/
theorem table {bytes : List UInt8} [hl : ahead.Keeps l (.table bytes) ahead']
    (h : Flows K t id (size - bytes.length) back ahead' k .never (f ())) :
    Flows K t id size back ahead k .never
      (Writer.bind l >>= fun _ => Writer.data bytes >>= f) := by
  have hsize : rooms [.bound l, .data bytes] = bytes.length := by simp [rooms, room]
  rw [← hsize] at h
  refine .front [.bound l, .data bytes] h (fun _ => rfl) rfl fun code a b hfits hin hrest n hback =>
    ?_
  obtain ⟨hat, hdata⟩ := hin.label
  obtain ⟨_, hencodes, hcontains, -⟩ := hdata.line
  cases hencodes
  refine ⟨fun l' p hl' => ?_, .never fun _ _ hp => hp⟩
  rcases List.mem_cons.1 (hl.removes.perm.mem_iff.1 hl') with heq | hl'
  · cases heq
    exact ⟨a, hat, hcontains⟩
  · exact (hrest n hback).1 l' p hl'

/-- Bytes that control does not come to. -/
theorem data {bytes : List UInt8}
    (h : Flows K t id (size - bytes.length) back ahead k .never (f ())) :
    Flows K t id size back ahead k .never (Writer.data bytes >>= f) := by
  refine .line (.data bytes) h (fun _ => rfl) rfl fun _ _ _ _ _ _ _ _ _ => .never fun _ _ hp => hp

/-! ### Branches and jumps -/

theorem branch [hmn : Branches mn] [hl : ahead.Promises l (.entry R)]
    (htaken : ∀ n u v, P n u v → v.takes? mn = some true → R n u v)
    (hskipped : ∀ n u v, P n u v → v.takes? mn = some false → Q n u v)
    (h : Flows K t id (size - 5) back ahead 0 Q (f ())) :
    Flows K t id size back ahead 0 P (Writer.branch mn l >>= f) := by
  refine .line (.instr mn (.relative l)) h (fun _ => rfl) rfl
    fun code a b hfits hin n hback hahead hends => ?_
  obtain ⟨t, hat, ht⟩ := hahead l _ hl.mem
  exact hends.branch ht hin hat hmn.inverse (htaken n) (hskipped n)

/-- A branch to a label that the same may be said of. -/
theorem branchOn [Branches mn] [ahead.Promises l (.entry R)] [hP : P.Entails R]
    (h : Flows K t id (size - 5) back ahead 0 P (f ())) :
    Flows K t id size back ahead 0 P (Writer.branch mn l >>= f) :=
  .branch (fun n u v hp _ => hP.entails n u v hp) (fun _ _ _ hp _ => hp) h

theorem branchBack [hmn : Branches mn] [hl : back.Knows l R]
    (htaken : ∀ n u v, P n u v → v.takes? mn = some true → ∃ m < n, R m u v)
    (hskipped : ∀ n u v, P n u v → v.takes? mn = some false → Q n u v)
    (h : Flows K t id (size - 5) back ahead 0 Q (f ())) :
    Flows K t id size back ahead 0 P (Writer.branch mn l >>= f) := by
  refine .line (.instr mn (.relative l)) h (fun _ => rfl) rfl
    fun code a b hfits hin n hback hahead hends => ?_
  obtain ⟨t, hat, ht⟩ := hback.ends hl.mem
  exact hends.branch ht hin hat hmn.inverse (htaken n) (hskipped n)

theorem jump [hl : ahead.Promises l (.entry R)] [hP : P.Entails R]
    (h : Flows K t id (size - 5) back ahead 0 .never (f ())) :
    Flows K t id size back ahead 0 P (Writer.jump l >>= f) := by
  refine .line (.instr .jmp (.absolute (.ofLabel l))) h (fun _ => rfl) rfl
    fun code a b hfits hin n hback hahead hends => ?_
  obtain ⟨t, hat, ht⟩ := hahead l _ hl.mem
  exact (ht.mono (hP.entails n)).jump hin hat

theorem jumpBack [hl : back.Knows l R] (hP : ∀ n u v, P n u v → ∃ m < n, R m u v)
    (h : Flows K t id (size - 5) back ahead 0 .never (f ())) :
    Flows K t id size back ahead 0 P (Writer.jump l >>= f) := by
  refine .line (.instr .jmp (.absolute (.ofLabel l))) h (fun _ => rfl) rfl
    fun code a b hfits hin n hback hahead hends => ?_
  obtain ⟨t, hat, ht⟩ := hback.ends hl.mem
  exact (ht.mono (hP n)).jump hin hat

theorem target {g : Target → Writer α} (h : Flows K t id size back ahead k P (g t)) :
    Flows K t id size back ahead k P (Writer.target >>= g) := by
  intro w hw
  obtain ⟨ls, hgrows, hls⟩ := h w hw
  rw [show (Writer.target >>= g) w = g w.target w from rfl, hw]
  exact ⟨ls, hgrows, hls⟩

/-! ### Returns and calls -/

theorem rts (hends : ∀ n u v, P n u v → (K id).ends u v)
    (h : Flows K t id (size - 5) back ahead 0 .never (f ())) :
    Flows K t id size back ahead 0 P (Writer.op .rts >>= f) := by
  refine .line (.instr .rts .implied) h (fun _ => rfl) rfl
    fun code a b hfits hin n hback hahead _ => ?_
  exact .rts hin fun u v _ _ hp => hends n u v hp

/-- A call of a routine that may change no more than this one. -/
theorem callOf (hknown : callee ∈ id.calls) (hallows : (K id).Allows (k + 2) (K callee))
    (hdepth : (K callee).depth ≤ 254) (hstarts : ∀ n u v b, P n u v → (K callee).starts (v.call b))
    (hends : ∀ n u v b w, P n u v → (K callee).Keeps 0 (v.call b) w →
      (K callee).ends (v.call b) w → Q n u w.drop.drop)
    (h : Flows K t id (size - 5) back ahead k Q (f ())) :
    Flows K t id size back ahead k P (Writer.call callee >>= f) := by
  intro w hw
  have hplain : [Line.instr .jsr (.absolute (.ofLabel (w.require callee).2))].any Line.isAlign =
    false := rfl
  have hcall := (Workspace.Writes.refl (w.require callee).1).writing hplain
  obtain ⟨rest, hgrows, hroom, hrest⟩ := h ((w.require callee).1.writing _)
    ((w.require_grows callee).target.trans hw)
  have hgrown := hcall.toGrows.trans hgrows
  refine ⟨_, (w.require_grows callee).trans hgrown, ?_, ?_⟩
  · simp only [List.nil_append, List.cons_append, rooms, room]
    omega
  · intro code a b hfits hin hoffers n hback
    obtain ⟨m, hjsr, hbehind⟩ := hin.cons
    obtain ⟨t, hat, hcallee⟩ := hoffers.starts hknown hgrown
    obtain ⟨hahead, hends'⟩ := hrest code m b hfits hbehind hoffers n hback
    exact ⟨hahead, hends'.call hjsr hfits hat hcallee hallows hdepth
      (fun u v hp => hstarts n u v m hp) fun u v w hp hw hend => hends n u v m w hp hw hend⟩

theorem call (hmay : MayCall id k callee)
    (hstarts : ∀ n u v b, P n u v → (conduct t callee).starts (v.call b))
    (hends : ∀ n u v b w, P n u v → (conduct t callee).Keeps 0 (v.call b) w →
      (conduct t callee).ends (v.call b) w → Q n u w.drop.drop)
    (h : Flows (conduct t) t id (size - 5) back ahead k Q (f ())) :
    Flows (conduct t) t id size back ahead k P (Writer.call callee >>= f) :=
  .callOf hmay.known (hmay.allows.conduct t) hmay.depth hstarts hends h

/-- A call that nothing has to be known for. -/
theorem callFree (hmay : MayCall id k callee) (hstarts : ∀ v, (conduct t callee).starts v)
    (h : Flows (conduct t) t id (size - 5) back ahead k .free (f ())) :
    Flows (conduct t) t id size back ahead k P (Writer.call callee >>= f) :=
  .call hmay (fun _ _ _ _ _ => hstarts _) (fun _ _ _ _ _ _ _ _ => trivial) h

theorem tailCall (hmay : MayEndWith id callee)
    (hstarts : ∀ n u v, P n u v → (conduct t callee).starts v)
    (hends : ∀ n u v w, P n u v → (conduct t callee).ends v w → (conduct t id).ends u w)
    (h : Flows (conduct t) t id (size - 5) back ahead 0 .never (f ())) :
    Flows (conduct t) t id size back ahead 0 P (Writer.tailCall callee >>= f) := by
  intro w hw
  have hplain : [Line.instr .jmp (.absolute (.ofLabel (w.require callee).2))].any Line.isAlign =
    false := rfl
  have hcall := (Workspace.Writes.refl (w.require callee).1).writing hplain
  obtain ⟨rest, hgrows, hroom, hrest⟩ := h ((w.require callee).1.writing _)
    ((w.require_grows callee).target.trans hw)
  have hgrown := hcall.toGrows.trans hgrows
  refine ⟨_, (w.require_grows callee).trans hgrown, ?_, ?_⟩
  · simp only [List.nil_append, List.cons_append, rooms, room]
    omega
  · intro code a b hfits hin hoffers n hback
    obtain ⟨m, hjmp, hbehind⟩ := hin.cons
    obtain ⟨t, hat, hcallee⟩ := hoffers.starts hmay.known hgrown
    obtain ⟨hahead, -⟩ := hrest code m b hfits hbehind hoffers n hback
    exact ⟨hahead, .tail hjmp hfits hat hcallee (hmay.allows.conduct _) (hstarts n)
      fun u v w hp _ hend => hends n u v w hp hend⟩

theorem print {r : Footing} [P.RestsOn r] (hdoes : ∀ u, (K id).starts u → PrintsByTrap t u)
    (hk : k + 2 ≤ (K id).depth)
    (h : Flows K t id (size - 5) back ahead k P (f ())) :
    Flows K t id size back ahead k P (Writer.abs .jsr t.chrout >>= f) := by
  refine .line (.instr .jsr (.absolute (.fixed t.chrout))) h (fun _ => rfl) rfl
    fun code a b hfits hin n hback hahead hends => ?_
  refine hends.print hin hk (fun u hs => (hdoes u hs).trap) fun u v hp => ?_
  exact Assertion.RestsOn.kept n u v _ ⟨fun _ => rfl, fun _ => rfl, fun _ _ => rfl⟩ hp

theorem printTail (hdoes : ∀ u, (K id).starts u → PrintsByTrap t u)
    (hends : ∀ n u v, P n u v → (K id).ends u v.print)
    (h : Flows K t id (size - 5) back ahead 0 .never (f ())) :
    Flows K t id size back ahead 0 P (Writer.abs .jmp t.chrout >>= f) := by
  refine .line (.instr .jmp (.absolute (.fixed t.chrout))) h (fun _ => rfl) rfl
    fun code a b hfits hin n hback hahead _ => ?_
  exact .printTail hin (fun u hs => (hdoes u hs).trap) (hends n)

/-! ### Loops that count -/

/-- A loop for which the index registers tell how often it goes round. -/
theorem loop {g : LabelId → Writer α} (f : UInt8 → UInt8 → Nat)
    (h : ∀ l, Flows K t id size [(l, .counted f)] ahead 0 (.counted f) (g l)) :
    Flows K t id size back ahead 0 P (Writer.here >>= g) :=
  .renew (.here h) fun _ _ v _ => ⟨_, Nat.le_refl (f v.x v.y)⟩

end Flows

/-- The rounds left before a register has been counted down to zero. -/
def downTo (r : UInt8) : Nat := (r - 1).toNat

/-- The rounds left before a register has been counted up to a limit. -/
def upTo (limit r : UInt8) : Nat := (limit - 1 - r).toNat

theorem downTo_lt {r : UInt8} (h : r - 1 ≠ 0) : downTo (r - 1) < downTo r := by
  have := (r - 1).toNat_lt
  have hne : (r - 1).toNat ≠ 0 := fun heq => h (UInt8.toNat_inj.1 heq)
  rw [downTo, downTo, UInt8.toNat_sub, UInt8.toNat_one]
  omega

theorem upTo_lt {limit r : UInt8} (h : r + 1 ≠ limit) : upTo limit (r + 1) < upTo limit r := by
  have := r.toNat_lt
  have := limit.toNat_lt
  rw [Ne, ← UInt8.toNat_inj] at h
  simp only [upTo, UInt8.toNat_sub, UInt8.toNat_add, UInt8.toNat_one] at h ⊢
  omega

namespace Flows

variable {K : RoutineId → Conduct} {t : Target} {id : RoutineId} {α : Type} {size : Nat}
  {back : Back} {ahead : Ahead} {m : Writer α} {l : LabelId}

/-- The branch back at the end of a loop; where it is taken, a round has been used up. -/
theorem again (f : UInt8 → UInt8 → Nat) [back.Knows l (.counted f)]
    (h : Flows K t id (size - 5) back ahead 0 .free m) :
    Flows K t id size back ahead 0 (fun n _ v => v.zero = false → f v.x v.y < n)
      (Writer.branch .bne l >>= fun _ => m) := by
  refine .branchBack (fun n u v hv htaken => ?_) (fun _ _ _ _ _ => trivial) h
  exact ⟨_, hv (by simpa [View.takes?] using htaken), Nat.le_refl _⟩

/-- The end of a loop that counts X down. -/
theorem countdownX [back.Knows l (.counted fun x _ => downTo x)] (hok : (K id).setsX {} = true)
    (h : Flows K t id (size - 5 * 1 - 5) back ahead 0 .free m) :
    Flows K t id size back ahead 0 (.counted fun x _ => downTo x)
      (Writer.op .dex >>= fun _ => Writer.branch .bne l >>= fun _ => m) := by
  refine .run ?_ (fun n u v hp => ⟨_, rfl, fun hzero => ?_⟩) (again _ h)
  · simpa [Straight.lines, Conduct.permits] using hok
  · exact Nat.lt_of_lt_of_le (downTo_lt (by simpa using hzero)) hp

/-- The end of a loop that counts Y down. -/
theorem countdownY [back.Knows l (.counted fun _ y => downTo y)] (hok : (K id).setsY {} = true)
    (h : Flows K t id (size - 5 * 1 - 5) back ahead 0 .free m) :
    Flows K t id size back ahead 0 (.counted fun _ y => downTo y)
      (Writer.op .dey >>= fun _ => Writer.branch .bne l >>= fun _ => m) := by
  refine .run ?_ (fun n u v hp => ⟨_, rfl, fun hzero => ?_⟩) (again _ h)
  · simpa [Straight.lines, Conduct.permits] using hok
  · exact Nat.lt_of_lt_of_le (downTo_lt (by simpa using hzero)) hp

/-- The end of a loop that counts Y up until it wraps around. -/
theorem countupY [back.Knows l (.counted fun _ y => upTo 0 y)] (hok : (K id).setsY {} = true)
    (h : Flows K t id (size - 5 * 1 - 5) back ahead 0 .free m) :
    Flows K t id size back ahead 0 (.counted fun _ y => upTo 0 y)
      (Writer.op .iny >>= fun _ => Writer.branch .bne l >>= fun _ => m) := by
  refine .run ?_ (fun n u v hp => ⟨_, rfl, fun hzero => ?_⟩) (again _ h)
  · simpa [Straight.lines, Conduct.permits] using hok
  · exact Nat.lt_of_lt_of_le (upTo_lt (by simpa using hzero)) hp

/-- The end of a loop that counts Y up to a limit. -/
theorem countupToY {limit : UInt8} [back.Knows l (.counted fun _ y => upTo limit y)]
    (hok : (K id).setsY {} = true)
    (h : Flows K t id (size - 5 * (1 + 1) - 5) back ahead 0 .free m) :
    Flows K t id size back ahead 0 (.counted fun _ y => upTo limit y)
      (Writer.op .iny >>= fun _ => Writer.imm .cpy limit >>= fun _ =>
        Writer.branch .bne l >>= fun _ => m) := by
  have hend : Flows K t id size back ahead 0 (.counted fun _ y => upTo limit y)
      ((Writer.op .iny >>= fun _ => Writer.imm .cpy limit) >>= fun _ =>
          Writer.branch .bne l >>= fun _ => m) := by
    refine .run ?_ (fun n u v hp => ?_) (again _ h)
    · simpa [Straight.lines, Conduct.permits, readable] using hok
    · refine ⟨_, rfl, fun hzero => Nat.lt_of_lt_of_le (upTo_lt fun heq => ?_) hp⟩
      simp [heq] at hzero
  exact hend

/-! ### Loops with an invariant -/

variable {P : Assertion} {r : Footing} {I : Nat → Since}

/-- A loop in which X tells how many rounds are left, and the invariant may speak of them. -/
theorem rounds {g : LabelId → Writer α} [hP : P.Timeless]
    (h : ∀ l, Flows K t id size [(l, P.also (.turning I))] ahead 0 (P.also (.turning I)) (g l)) :
    Flows K t id size back ahead 0 (P.also fun _ u v => I v.x.toNat u v ∧ 1 ≤ v.x.toNat)
      (Writer.here >>= g) :=
  .renew (.here h) fun n u v hv =>
    ⟨v.x.toNat, hP.anytime n _ u v hv.1, hv.2.1, hv.2.2, Nat.le_refl _⟩

/-- The end of a round, after which the invariant holds for one round less. -/
theorem nextRound [P.RestsOn r] [hP : P.Timeless] [back.Knows l (P.also (.turning I))]
    (hok : (K id).setsX r = true) (hI : ∀ k u v w, w.zp = v.zp → I k u v → I k u w)
    (h : Flows K t id (size - 10) [] ahead 0 (P.also fun _ u v => I 0 u v) m) :
    Flows K t id size back ahead 0 (P.also (.turned I))
      (Writer.op .dex >>= fun _ => Writer.branch .bne l >>= fun _ => m) := by
  refine .piece (R := fun b u v => I v.x.toNat u v ∧ v.x.toNat < b ∧
    v.zero = decide (v.x.toNat = 0)) ?_ (fun b u v _ hv => ?_) ?_
  · show ((K id).setsX r && true) = true
    rw [hok]
    rfl
  · obtain ⟨hinv, hpos, hb⟩ := hv
    have hnext : (v.x - 1).toNat = v.x.toNat - 1 := toNat_sub_one (by omega)
    refine ⟨_, rfl, ?_, ?_, ?_⟩
    · show I (v.x - 1).toNat u _
      rw [hnext]
      exact hI _ u v _ rfl hinv
    · show (v.x - 1).toNat < b
      omega
    · show (v.x - 1 == 0) = decide ((v.x - 1).toNat = 0)
      rw [Bool.eq_iff_iff, beq_iff_eq, eq_zero_iff, decide_eq_true_eq]
  refine .branchBack (fun b u v hv htaken => ?_) (fun b u v hv hskipped => ?_)
    (.forget (.fit h ?_) (List.nil_subset _))
  · obtain ⟨hp, hinv, hb, hzero⟩ := hv
    have hleft : v.x.toNat ≠ 0 := by simpa [View.takes?, hzero] using htaken
    exact ⟨_, hb, hP.anytime b _ u v hp, hinv, Nat.pos_of_ne_zero hleft, Nat.le_refl _⟩
  · obtain ⟨hp, hinv, -, hzero⟩ := hv
    have hdone : v.x.toNat = 0 := by simpa [View.takes?, hzero] using hskipped
    exact ⟨hp, hdone ▸ hinv⟩
  · simp only [Nat.sub_sub]
    exact Nat.le_refl _

end Flows

/-- A routine keeps to what is asked of it, if those that it calls do, and its text is short. -/
def Obeys (K : RoutineId → Conduct) (t : Target) (id : RoutineId) : Prop :=
  Flows K t id 2048 [] [] 0 (fun _ => Eq) (body id)

/-- A routine keeps to its conduct. -/
def Conducted (t : Target) (id : RoutineId) : Prop := Obeys (conduct t) t id

end Breadbin.Routine
