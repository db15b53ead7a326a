import Breadbin.Proofs.Lowering.Expressions
import Breadbin.Proofs.Lowering.Level
import Breadbin.Proofs.Lowering.Pointers

/-!
# Statements

The code of a statement does what the statement does.
-/

set_option synthInstance.maxSize 100000
set_option synthInstance.maxHeartbeats 100000

/-!
## Branches on conditions over variables

What comes of a condition over variables is whether its number is not zero, and its code leaves the
memory alone.
-/

namespace Breadbin

namespace Lowering

open Assembly Machine ZeroPage

variable {σ : Type} {p : Program} {s : Emission} {scope : Scope}
  {place : SymbolId → UInt16} {k : Kind}

/-- The leaves of an expression give their numbers in a state and do not change it. -/
def Meaning.Steady (M : Meaning σ) (vars : SymbolId → ℤ) (st : σ) (e : Expr) : Prop :=
  ∀ x ∈ e.leaves, M.eval x st = some (decide (x.number vars ≠ 0), st)

/-- What comes of one operand and then of the other one. -/
theorem Course.outcome_orElse {c : Course σ} {next : σ → Course σ} {d bit bit' : Bool} {st : σ}
    (hc : c.outcome = some (bit, st)) (hnext : (next st).outcome = some (bit', st)) :
    (c.orElse d next).outcome = some (if bit = d then d else bit', st) := by
  unfold Course.orElse Course.bind
  rw [hc]
  dsimp only
  by_cases hdecides : bit = d
  · rw [if_pos hdecides, if_pos hdecides]
    rfl
  · rw [if_neg hdecides, if_neg hdecides]
    exact hnext

end Lowering

namespace Expr

variable {scope : Scope} {k : Kind}

/-- A truth value is a condition with truth values for its leaves, and what comes of it is whether
its number is not zero. -/
theorem Scalar.condition {e : Expr} (he : e.Scalar scope k) (hk : k = .bool) : e.IsCondition ∧
    (∀ x ∈ e.leaves, x.Scalar scope .bool ∧ x.depth ≤ e.depth) ∧
    ∀ {σ : Type} (M : Lowering.Meaning σ) (vars : SymbolId → ℤ) (st : σ), M.Steady vars st e →
      (M.truth e st).outcome = some (decide (e.number vars ≠ 0), st) := by
  have hleaf {e : Expr} (he : e.Scalar scope .bool) (hconnective : e.isConnective = false) :
      e.IsCondition ∧
      (∀ x ∈ e.leaves, x.Scalar scope .bool ∧ x.depth ≤ e.depth) ∧
      ∀ {σ : Type} (M : Lowering.Meaning σ) (vars : SymbolId → ℤ) (st : σ), M.Steady vars st e →
        (M.truth e st).outcome = some (decide (e.number vars ≠ 0), st) := by
    refine ⟨.leaf hconnective he.type_eq, fun x hx => ?_, fun M vars st hsteady => ?_⟩
    · rw [leaves_of_leaf hconnective, List.mem_singleton] at hx
      subst hx
      exact ⟨he, Nat.le_refl _⟩
    · rw [M.truth_leaf hconnective]
      exact hsteady e (by rw [leaves_of_leaf hconnective]; exact List.mem_singleton_self e)
  induction he with
  | literal hlit htag htype hv => exact hleaf (hk ▸ .literal hlit htag htype hv) rfl
  | var hvar hid htype => exact hleaf (hk ▸ .var hvar hid htype) rfl
  | cast hx hj hcastable htype _ => exact hleaf (hk ▸ .cast hx hj hcastable htype) rfl
  | @unary h op x k hx haccepted htype ih =>
    subst hk
    obtain rfl : op = .not := by
      rw [hx.type_eq] at haccepted
      cases op <;> first | rfl | cases haccepted
    obtain ⟨hcondition, hleaves, htruth⟩ := ih rfl
    refine ⟨.not (htype.trans hx.type_eq) hcondition, hleaves, fun M vars st hsteady => ?_⟩
    have hnumber : decide ((Expr.unary h .not x).number vars ≠ 0) = !decide
        (x.number vars ≠ 0) := by
      rw [number, UnaryOp.apply, truth]
      by_cases hzero : x.number vars = 0 <;> simp [hzero]
    rw [Lowering.Meaning.truth, Lowering.Course.bind, htruth M vars st hsteady, hnumber]
    rfl
  | @binary h op l r k j res hl hr haccepted htype ihl ihr =>
    have hsuits : Resolution.Suits op k j res := by
      have htyped := haccepted
      rw [hl.type_eq, hr.type_eq] at htyped
      exact .of_resolve? hl.isIntegral hr.isIntegral htyped
    have hwhole : (Expr.binary h op l r).Scalar scope .bool := hk ▸ .binary hl hr haccepted htype
    cases hsuits with
    | logical hop =>
      obtain ⟨hconditionl, hleavesl, htruthl⟩ := ihl rfl
      obtain ⟨hconditionr, hleavesr, htruthr⟩ := ihr rfl
      have hdepth : (Expr.binary h op l r).depth = max l.depth r.depth := by rw [depth, if_pos hop]
      have hnumber (vars : SymbolId → ℤ) (d : Bool) (hd : d = decide (op = .or)) :
          decide ((Expr.binary h op l r).number vars ≠ 0) =
            if decide (l.number vars ≠ 0) = d then d else decide (r.number vars ≠ 0) := by
        have hkeep (i : ℤ) : Kind.bool.keep i = 0 ↔ i = 0 := by
          change (if i = 0 then (0 : ℤ) else 1) = 0 ↔ i = 0
          split <;> simp [*]
        rw [Lowering.number_binary haccepted]
        change decide (op.apply .bool (Kind.bool.keep (l.number vars))
          (Kind.bool.keep (r.number vars)) ≠ 0) = _
        rw [Lowering.apply_logical hop, hd]
        by_cases hzero : l.number vars = 0 <;> cases op <;>
          first | cases hop; done | simp [hkeep, hzero]
      have hleaves : ∀ x ∈ l.leaves ++ r.leaves, x.Scalar scope .bool ∧
          x.depth ≤ (Expr.binary h op l r).depth := by
        intro x hx
        rw [hdepth]
        rcases List.mem_append.1 hx with hx | hx
        · exact ⟨(hleavesl x hx).1, (hleavesl x hx).2.trans (Nat.le_max_left _ _)⟩
        · exact ⟨(hleavesr x hx).1, (hleavesr x hx).2.trans (Nat.le_max_right _ _)⟩
      cases op <;> first | cases hop; done | skip
      case and =>
        refine ⟨.and htype hconditionl hconditionr, hleaves, fun M vars st hsteady => ?_⟩
        rw [hnumber vars false rfl]
        exact Lowering.Course.outcome_orElse
          (htruthl M vars st fun x hx => hsteady x (List.mem_append_left _ hx))
          (htruthr M vars st fun x hx => hsteady x (List.mem_append_right _ hx))
      case or =>
        refine ⟨.or htype hconditionl hconditionr, hleaves, fun M vars st hsteady => ?_⟩
        rw [hnumber vars true rfl]
        exact Lowering.Course.outcome_orElse
          (htruthl M vars st fun x hx => hsteady x (List.mem_append_left _ hx))
          (htruthr M vars st fun x hx => hsteady x (List.mem_append_right _ hx))
    | shift hop _ _ =>
      refine hleaf hwhole ?_
      cases op <;> first | rfl | cases hop
    | comparison hop _ =>
      refine hleaf hwhole ?_
      cases op <;> first | rfl | cases hop
    | calculation hop _ =>
      have hall : ∀ op ∈ calculatingOps, (Expr.binary h op l r).isConnective = false := by
        intro op hop
        cases op <;> first | rfl | simp [calculatingOps] at hop
      exact hleaf hwhole (hall op hop)

end Expr

namespace Lowering

open Assembly Machine ZeroPage

variable {p : Program} {s : Emission} {scope : Scope} {place : SymbolId → UInt16}

/-- What conditions do: from the view and with the values at the start the memory stays as it
was. -/
def Meaning.ofScope (scope : Scope) (place : SymbolId → UInt16) (d : ℕ) :
    Meaning (View × (SymbolId → ℤ)) where
  eval x st := some (decide (x.number st.2 ≠ 0), st)
  shows _ w st := scope.Matches place st.2 st.1.main ∧ st.1.Frame d valueSlots w
  shows_flags _ _ _ _ _ _ _ _ h := ⟨h.1, h.2.sp, h.2.main, h.2.zp, h.2.stack⟩

/-- The code of a condition does that. -/
theorem ofScope_describes {e : Expr} {d : ℕ} (he : e.Scalar scope .bool)
    (hplaced : scope.Placed p s place)
    (hdepth : e.depth ≤ d) (hroom : d ≤ 256) : (Meaning.ofScope scope place d).Describes p s e := by
  intro s' hs
  refine .after (perform_lowerValue e p s') (.refl s')
    ((value_evaluates (constantIn p) he s' (hplaced.stays hs) (hdepth.trans hroom)).mono ?_)
  rintro code a b hcode v ⟨st, vars⟩ ⟨hvars, hframe⟩
  obtain ⟨w, hpath, hw⟩ := hcode v
  refine ⟨w, hpath.reaches,
    ⟨hvars, hframe.trans (hpath.frame.mono hdepth (List.Subset.refl _))⟩, ?_⟩
  have hdenotes : Kind.bool.Denotes w.a.toUInt16 (e.number vars) := hw vars (hframe.main ▸ hvars)
  have hzero : w.a.toNat = 0 ↔ e.number vars = 0 := by
    rw [← hdenotes.zero_iff rfl, ← UInt16.toNat_inj]
    rfl
  have hone : w.a.toNat ≤ 1 := hdenotes.fits.2 rfl
  rw [← UInt8.toNat_inj]
  by_cases h : e.number vars = 0
  · rw [hzero.2 h, truthByte, if_neg (by simp [h])]
    rfl
  · have hne := mt hzero.1 h
    rw [truthByte, if_pos (by simp [h])]
    show w.a.toNat = 1
    omega

theorem Visits.reaches {code : LinkedCode} {es : List Expr} {a b : ℕ} {v w : View}
    (h : Visits p code es a v b w) :
    code.Reaches 0 a v b w := by
  induction es generalizing a v with
  | nil => exact h.1
  | cons e es ih =>
    obtain ⟨m, n, u, u', hslides, -, hreaches, hrest⟩ := h
    exact (hslides.1.andThen hreaches).andThen (ih hrest)

/-- The branch on a condition is taken when the number of the condition is as it should be. -/
theorem branchOn_evaluates {e : Expr} (he : e.Scalar scope .bool) (hplaced : scope.Placed p s place)
    (hroom : e.depth ≤ 256)
    (value : Bool) (target : LabelId) : Does (branchOn value target e) p s fun code a b =>
      ∀ t, code.At target t → ∀ v vars, scope.Matches place vars v.main →
        ∃ w, code.Path e.depth valueSlots a v
          (if decide (e.number vars ≠ 0) = value then t else b) w := by
  obtain ⟨hcondition, hleaves, htruth⟩ := he.condition rfl
  have hdescribes (x : Expr) (hx : x ∈ e.leaves) :
      (Meaning.ofScope scope place e.depth).Describes p s x :=
    ofScope_describes (hleaves x hx).1 hplaced (hleaves x hx).2 hroom
  refine (branch_does hcondition hdescribes value target).mono
    fun code a b hbranched t ht v vars hvars => ?_
  have hfollows :=
    hbranched v (v, vars) t ⟨hvars, (View.Frame.refl v).mono (Nat.zero_le _) (List.nil_subset _)⟩ ht
  rw [Follows, htruth _ vars (v, vars) fun x _ => rfl] at hfollows
  obtain ⟨m, w, hvisits, ⟨-, hframe⟩, rfl⟩ := hfollows
  exact ⟨w, hvisits.reaches, hframe⟩

end Lowering

end Breadbin

/-!
## The code of statements

The code of a statement does what the statement does: it goes through to its end, jumps to a label
of the loop around or returns, with the values of the variables in memory.  A statement that does
not end within some rounds of its loops has code that does not end within as many steps.
-/

namespace Breadbin

/-! ### Structured statements -/

/-- An expression whose value is wanted in a kind, and whose code needs no more stack than there
is. -/
structure Expr.Suited (scope : Scope) (k : Kind) (e : Expr) : Prop where
  integral : k.isIntegral = true
  scalar : ∃ j, e.Scalar scope j ∧ Conversion.isImplicit j k = true
  room : e.depth ≤ 254

section

variable (scope : Scope) (result : Option Kind)

mutual

/-- First values of and assignments to variables, choices, loops, jumps within loops and returns,
over integers and truth values. -/
def Stmt.Structured (inLoop : Bool) : Stmt → Prop
  | .define h id v => h.tag ≠ Stmt.giveBackTag ∧
    ∃ k, scope id = some k ∧ (v.isAbsent = true ∧ k.isIntegral = true ∨ v.Suited scope k)
  | .assign h (.var h' id) v op compound => h.tag ≠ Stmt.giveBackTag ∧ v.isAbsent = false ∧
    ∃ k, scope id = some k ∧
      (if compound then Lowering.compoundValue (.var h' id) v op h.span else v).Suited scope k
  | .giveBack _ v => v.isAbsent = true ∨ ∃ k, result = some k ∧ v.Suited scope k
  | .leave h | .next h => h.tag ≠ Stmt.giveBackTag ∧ inLoop = true
  | .choose h arms _ otherwise => h.tag ≠ Stmt.giveBackTag ∧ arms ≠ [] ∧
      Arm.AllStructured inLoop arms ∧
    otherwise.Structured inLoop
  | .loop h c body => h.tag ≠ Stmt.giveBackTag ∧ (c.Scalar scope .bool ∧ c.depth ≤ 254) ∧
      body.Structured true
  | _ => False

def Block.Structured (inLoop : Bool) : Block → Prop
  | .absent => True
  | .of ss _ _ => Stmt.AllStructured inLoop ss

def Stmt.AllStructured (inLoop : Bool) : List Stmt → Prop
  | [] => True
  | s :: ss => s.Structured inLoop ∧ Stmt.AllStructured inLoop ss

def Arm.AllStructured (inLoop : Bool) : List Arm → Prop
  | [] => True
  | .mk c body :: arms => (c.Scalar scope .bool ∧ c.depth ≤ 254) ∧ body.Structured inLoop ∧
      Arm.AllStructured inLoop arms

end

end

/-! #### How structured statements end -/

/-- The rounds of a loop end in the loop around no more than the loop does. -/
theorem rounds_ending {test : Store → Prop} [DecidablePred test] {body : Store → Outcome} {n : ℕ}
    {st st' : Store} {e : Ending}
    (h : rounds test body n st = some (e, st')) : e ≠ .left ∧ e ≠ .again := by
  induction n generalizing st with
  | zero => cases h
  | succ n ih =>
    rw [rounds] at h
    by_cases htest : test st
    · rw [if_pos htest] at h
      rcases hbody : body st with _ | ⟨ending, st''⟩
      · rw [hbody] at h
        cases h
      · rw [hbody] at h
        cases ending with
        | left | returned =>
          cases h
          exact ⟨Ending.noConfusion, Ending.noConfusion⟩
        | done | again => exact ih h
    · rw [if_neg htest] at h
      cases h
      exact ⟨Ending.noConfusion, Ending.noConfusion⟩

section

variable {scope : Scope} {result : Option Kind} {inLoop : Bool} {n : ℕ}
  {vars vars' : Store} {e : Ending}

/-- Nothing outside of a loop is left, and nothing goes on. -/
def Ending.Within (inLoop : Bool) (e : Ending) : Prop := e = .left ∨ e = .again → inLoop = true

mutual

theorem Stmt.Structured.ending (st : Stmt) {vars : Store} (h : st.Structured scope result inLoop)
    (hexec : st.exec scope result n vars = some (e, vars')) : e.Within inLoop := by
  cases st with
  | blank | evaluate | count => exact h.elim
  | define head id v => cases hexec; nofun
  | assign head target v op compound =>
    cases target with
    | var h' id => cases hexec; nofun
    | _ => exact h.elim
  | giveBack head v => cases hexec; nofun
  | leave head => exact fun _ => h.2
  | next head => exact fun _ => h.2
  | choose head arms m otherwise =>
    obtain ⟨-, -, harms, hotherwise⟩ := h
    exact Arm.AllStructured.ending arms
      harms (fun _ => Block.Structured.ending otherwise hotherwise) hexec
  | loop head c body =>
    obtain ⟨hleft, hagain⟩ := rounds_ending hexec
    exact fun h => (h.elim hleft hagain).elim

theorem Block.Structured.ending (block : Block) {vars : Store}
    (h : block.Structured scope result inLoop)
    (hexec : block.exec scope result n vars = some (e, vars')) : e.Within inLoop := by
  cases block with
  | absent => cases hexec; nofun
  | of ss m span => exact Stmt.AllStructured.ending ss h hexec

theorem Stmt.AllStructured.ending (ss : List Stmt) {vars : Store}
    (h : Stmt.AllStructured scope result inLoop ss)
    (hexec : Stmt.execAll scope result n ss vars = some (e, vars')) : e.Within inLoop := by
  cases ss with
  | nil => cases hexec; nofun
  | cons st ss =>
    obtain ⟨hst, hss⟩ := h
    rw [Stmt.execAll] at hexec
    split at hexec
    next => exact Stmt.AllStructured.ending ss hss hexec
    next => exact Stmt.Structured.ending st hst hexec

theorem Arm.AllStructured.ending (arms : List Arm) {vars : Store}
    (h : Arm.AllStructured scope result inLoop arms)
    {last : Store → Outcome} (hlast : ∀ st, last st = some (e, vars') → e.Within inLoop)
    (hexec : Arm.execFirst scope result n arms last vars = some (e, vars')) : e.Within inLoop := by
  cases arms with
  | nil => exact hlast _ hexec
  | cons arm arms =>
    obtain ⟨c, body⟩ := arm
    obtain ⟨-, hbody, harms⟩ := h
    rw [Arm.execFirst] at hexec
    split at hexec
    next => exact Block.Structured.ending body hbody hexec
    next => exact Arm.AllStructured.ending arms harms hlast hexec

end

/-- Only a return has the tag of one. -/
theorem Stmt.Structured.giveBack_of_tag {st : Stmt} (h : st.Structured scope result inLoop)
    (htag : st.tag = Stmt.giveBackTag) :
    ∃ head v, st = .giveBack head v := by
  cases st with
  | blank | evaluate | count => exact h.elim
  | assign head target v op compound =>
    cases target with
    | var => exact absurd htag h.1
    | _ => exact h.elim
  | define | leave | next | choose | loop => exact absurd htag h.1
  | giveBack head v => exact ⟨head, v, rfl⟩

/-- Statements of which the last one is a return do not run off their end. -/
theorem Stmt.AllStructured.not_done {ss : List Stmt} (h : Stmt.AllStructured scope result inLoop ss)
    (hends : ss.getLast?.any (fun st => st.tag == Stmt.giveBackTag) = true)
    (hexec : Stmt.execAll scope result n ss vars = some (e, vars')) : e ≠ .done := by
  induction ss generalizing vars with
  | nil => cases hends
  | cons st ss ih =>
    obtain ⟨hst, hss⟩ := h
    rw [Stmt.execAll] at hexec
    split at hexec
    next st' hfirst =>
      cases ss with
      | nil =>
        obtain ⟨head, v, rfl⟩ := hst.giveBack_of_tag (by simpa using hends)
        cases hfirst
      | cons st' ss => exact ih hss (by simpa using hends) hexec
    next hother =>
      rintro rfl
      exact hother _ hexec

end

/-! ### Variables that are stored into -/

namespace Scope

open Machine

variable {scope : Scope} {place : SymbolId → UInt16} {vars : Store} {m : Contents}
  {id : SymbolId} {k : Kind}

/-- No two variables share a byte. -/
def Apart (scope : Scope) (place : SymbolId → UInt16) : Prop :=
  ∀ id k id' k', scope id = some k → scope id' = some k' → id ≠ id' →
    ∀ byte, Within (place id) k.isWide byte → ¬Within (place id') k'.isWide byte

/-- No variable is a constant. -/
def Writable (scope : Scope) (p : Program) : Prop :=
  ∀ id k s, scope id = some k → p.symbol? id = some s → s.symbolClass ≠ .constant

/-- A variable gets another value. -/
theorem Matches.set (h : scope.Matches place vars m) (hapart : scope.Apart place)
    (hid : scope id = some k) {n : UInt16} {i : ℤ}
    (hn : k.Denotes n i) :
    scope.Matches place (Function.update vars id i) (m.set (place id) k.isWide n) := by
  intro id' k' hid'
  by_cases hsame : id' = id
  · subst hsame
    obtain rfl : k = k' := Option.some.inj (hid.symm.trans hid')
    rw [Function.update_self, Contents.get_set _ _ _ _ hn.fits.1]
    exact hn
  · rw [Function.update_of_ne hsame, Contents.get_congr fun byte hbyte =>
      m.set_of_not_within (place id) k.isWide n (hapart id' k' id k hid' hid hsame byte hbyte)]
    exact h id' k' hid'

end Scope

namespace Lowering

open Assembly Machine ZeroPage

variable {p : Program} {s s' : Emission} {scope : Scope} {place : SymbolId → UInt16} {k : Kind}
  {code : LinkedCode}
  {a b m t : ℕ} {v u w : View}

/-- The bytes of the variables are no part of the code. -/
def Spared (scope : Scope) (place : SymbolId → UInt16) (code : LinkedCode) : Prop :=
  ∀ id k, scope id = some k → code.Spares (place id) k.isWide

/-! ### What the code of a statement does -/

/-- Where the code comes to at the end of a statement. -/
def Arrives (code : LinkedCode) (loops : List LoopLabels) (result : Option Kind) (a b : ℕ)
    (v w : View) : Ending → Prop
  | .done => code.Reaches 0 a v b w
  | .left => ∀ l ls t, loops = l :: ls → code.At l.exit t → code.Reaches 1 a v t w
  | .again => ∀ l ls t, loops = l :: ls → code.At l.next t → code.Reaches 1 a v t w
  | .returned value => code.Returns a v w ∧ ∀ i, value = some i → ∃ k, result = some k ∧
      k.Denotes (w.value k.isWide) i

/-- What the code does where a statement has some outcome: it comes to where the statement ends,
with the store in memory, or goes on for as many steps as there were rounds. -/
def Meets (scope : Scope) (place : SymbolId → UInt16) (result : Option Kind)
    (loops : List LoopLabels) (code : LinkedCode) (a b n : ℕ) (v : View) : Outcome → Prop
  | none => code.Persists n a v
  | some (e, vars) => ∃ w, v.Keeps 254 w ∧ scope.Matches place vars w.main ∧
      Arrives code loops result a b v w e

/-- From `a`, and through to `b` unless it goes elsewhere, the code does what `exec` says, which is
given a number of rounds. -/
def Simulates (scope : Scope) (place : SymbolId → UInt16) (result : Option Kind)
    (loops : List LoopLabels) (exec : ℕ → Store → Outcome) (code : LinkedCode) (a b : ℕ) : Prop :=
  ∀ n v vars, scope.Matches place vars v.main →
    Meets scope place result loops code a b n v (exec n vars)

/-- The same for code that leaves the variables alone. -/
abbrev Executes (scope : Scope) (place : SymbolId → UInt16) (result : Option Kind)
    (loops : List LoopLabels) (exec : ℕ → Store → Outcome) : Deed :=
  fun code a b => Spared scope place code → Simulates scope place result loops exec code a b

variable {loops : List LoopLabels} {result : Option Kind} {e : Ending}

/-- What leads there comes first. -/
theorem Arrives.after (hreaches : code.Reaches 0 a v m u)
    (h : Arrives code loops result m b u w e) :
    Arrives code loops result a b v w e := by
  have hone {t : ℕ} (h : code.Reaches 1 m u t w) : code.Reaches 1 a v t w :=
    (hreaches.trans h).mono (by omega)
  cases e with
  | done => exact hreaches.andThen h
  | left => exact fun l ls t hl ht => hone (h l ls t hl ht)
  | again => exact fun l ls t hl ht => hone (h l ls t hl ht)
  | returned value =>
    obtain ⟨⟨e, e', hrest, hreturn⟩, hvalue⟩ := h
    exact ⟨⟨e, e', hreaches.andThen hrest, hreturn⟩, hvalue⟩

/-- Only the regular end depends on where the code ends. -/
theorem Arrives.elsewhere (h : Arrives code loops result a m v w e) (he : e ≠ .done) :
    Arrives code loops result a b v w e := by
  cases e with
  | done => exact absurd rfl he
  | left | again | returned => exact h

theorem Meets.after {n : ℕ} {outcome : Outcome} (hreaches : code.Reaches 0 a v m u)
    (hkeeps : v.Keeps 254 u)
    (h : Meets scope place result loops code m b n u outcome) :
    Meets scope place result loops code a b n v outcome := by
  cases outcome with
  | none => exact (hreaches.persists h).mono (Nat.le_add_left n 0)
  | some out =>
    obtain ⟨w, hkeeps', hvars, harrives⟩ := h
    exact ⟨w, hkeeps.trans hkeeps', hvars, harrives.after hreaches⟩

namespace Simulates

variable {exec exec' : ℕ → Store → Outcome}

/-- One statement after the other. -/
theorem andThen (h : Simulates scope place result loops exec code a m)
    (h' : Simulates scope place result loops exec' code m b) :
    Simulates scope place result loops (fun n st =>
      match exec n st with
      | some (.done, st') => exec' n st'
      | outcome => outcome) code a b := by
  intro n v vars hvars
  have hfirst := h n v vars hvars
  dsimp only
  rcases hexec : exec n vars with _ | ⟨e, vars'⟩ <;> rw [hexec] at hfirst
  · exact hfirst
  obtain ⟨u, hkeeps, hvars', harrives⟩ := hfirst
  cases e with
  | done => exact (h' n u vars' hvars').after harrives hkeeps
  | left | again | returned => exact ⟨u, hkeeps, hvars', harrives.elsewhere nofun⟩

/-- Nothing is done. -/
theorem nothing : Simulates scope place result loops (fun _ st => some (.done, st)) code a a :=
  fun _ v _ hvars => ⟨v, (View.Keeps.refl v).mono (Nat.zero_le _), hvars, .refl code a v⟩

/-- Behind its regular end the code jumps. -/
theorem jump {l : LabelId} (h : Simulates scope place result loops exec code a m)
    (hjump : code.Installed m [.instr .jmp (.absolute (.ofLabel l))] b) (hl : code.At l t) :
    Simulates scope place result loops exec code a t := by
  intro n v vars hvars
  have hfirst := h n v vars hvars
  rcases hexec : exec n vars with _ | ⟨e, vars'⟩ <;> rw [hexec] at hfirst
  · exact hfirst
  obtain ⟨w, hkeeps, hvars', harrives⟩ := hfirst
  refine ⟨w, hkeeps, hvars', ?_⟩
  cases e with
  | done => exact LinkedCode.Reaches.andThen harrives (hjump.jump hl)
  | left | again | returned => exact harrives.elsewhere nofun

/-- A condition is tested, and the code goes on at one of two places. -/
theorem test {c : Expr} (hroom : c.depth ≤ 254)
    (htest : ∀ v vars, scope.Matches place vars v.main →
      ∃ w, code.Path c.depth valueSlots a v (if decide (c.number vars ≠ 0) = false then t else m) w)
    (hholds : Simulates scope place result loops exec code m b)
    (hfails : Simulates scope place result loops exec' code t b) :
    Simulates scope place result
      loops (fun n st => if c.number st ≠ 0 then exec n st else exec' n st) code a b := by
  intro n v vars hvars
  obtain ⟨u, hpath⟩ := htest v vars hvars
  have hkeeps : v.Keeps 254 u := hpath.frame.keeps.mono hroom
  have hvars' : scope.Matches place vars u.main := hpath.frame.main ▸ hvars
  have hreaches := hpath.reaches
  dsimp only
  by_cases hc : c.number vars = 0
  · rw [if_pos (by simp [hc])] at hreaches
    rw [if_neg (by simp [hc])]
    exact (hfails n u vars hvars').after hreaches hkeeps
  · rw [if_neg (by simp [hc])] at hreaches
    rw [if_pos hc]
    exact (hholds n u vars hvars').after hreaches hkeeps

/-- The rounds of a loop.  Every round takes a step at least, the jump to the next one. -/
theorem loop {c : Expr} {l : LoopLabels} (hroom : c.depth ≤ 254)
    (htest : ∀ v vars, scope.Matches place vars v.main →
      ∃ w, code.Path c.depth valueSlots a v (if decide (c.number vars ≠ 0) = false then b else m) w)
    (hbody : Simulates scope place result (l :: loops) exec code m t)
    (hjump : code.Installed t [.instr .jmp (.absolute (.ofLabel l.next))] b)
    (hnext : code.At l.next a) (hexit : code.At l.exit b) :
    Simulates scope place
      result loops (fun n => rounds (fun st => c.number st ≠ 0) (exec n) n) code a b := by
  intro n v vars hvars
  have hrounds (r : ℕ) (hr : r ≤ n) : ∀ v vars, scope.Matches place vars v.main →
      Meets scope place result loops code a b r v
          (rounds (fun st => c.number st ≠ 0) (exec n) r vars) := by
    induction r with
    | zero => exact fun v _ _ => .zero code a v
    | succ r ih =>
      intro v vars hvars
      obtain ⟨u, hpath⟩ := htest v vars hvars
      have hkeeps : v.Keeps 254 u := hpath.frame.keeps.mono hroom
      have hvars' : scope.Matches place vars u.main := hpath.frame.main ▸ hvars
      have hreaches := hpath.reaches
      rw [rounds]
      by_cases hc : c.number vars = 0
      · rw [if_pos (by simp [hc])] at hreaches
        rw [if_neg (by simp [hc])]
        exact ⟨u, hkeeps, hvars', hreaches⟩
      rw [if_neg (by simp [hc])] at hreaches
      rw [if_pos hc]
      have hround := (hbody n u vars hvars').after hreaches hkeeps
      -- another round begins
      have hagain {w : View} {vars' : Store} (hkeeps : v.Keeps 254 w)
          (hvars' : scope.Matches place vars' w.main)
          (hback : code.Reaches 1 a v a w) :
          Meets scope place result loops code a b (r + 1) v
              (rounds (fun st => c.number st ≠ 0) (exec n) r vars') := by
        have hrest := ih (by omega) w vars' hvars'
        rcases hexec : rounds (fun st => c.number st ≠ 0)
          (exec n) r vars' with _ | out <;> rw [hexec] at hrest
        · exact (hback.persists hrest).mono (by omega)
        · exact hrest.after (hback.mono (Nat.zero_le 1)) hkeeps
      rcases hexec : exec n vars with _ | ⟨e, vars'⟩ <;> rw [hexec] at hround
      · exact LinkedCode.Persists.mono hround hr
      obtain ⟨w, hkeeps', hvars'', harrives⟩ := hround
      cases e with
      | done => exact hagain hkeeps' hvars'' ((LinkedCode.Reaches.trans harrives
          (hjump.jump hnext)).mono (by omega))
      | again => exact hagain hkeeps' hvars'' (harrives l loops a rfl hnext)
      | left => exact ⟨w, hkeeps', hvars'', (harrives l loops b rfl hexit).mono (Nat.zero_le 1)⟩
      | returned value => exact ⟨w, hkeeps', hvars'', harrives⟩
  exact hrounds n (Nat.le_refl n) v vars hvars

end Simulates

/-! ### Assignments -/

/-- A value is stored into a variable. -/
theorem store_executes {act : Lower Unit} {id : SymbolId} {d : ℕ} {f : Store → ℤ}
    (hapart : scope.Apart place)
    (hplaced : scope.Placed p s place) (hid : scope id = some k) (hd : d ≤ 254)
    (hvalue : Does act p s (Evaluates scope place d valueSlots k f)) :
    Does (act >>= fun _ => store (.fixed (place id)) k.isWide) p s
      (Executes scope place result loops fun _ st =>
        some (.done, Function.update st id (f st))) := by
  refine (hvalue.bind fun s' _ => store_does (place id) k.isWide).mono ?_
  rintro code a b ⟨m, hcode, hstore⟩ hspared n v vars hvars
  obtain ⟨u, hpath, hu⟩ := hcode v
  obtain ⟨-, -, -, habove, hfits⟩ := hplaced id k hid
  refine ⟨u.storeAt (place id) k.isWide, ?_, ?_,
    hpath.reaches.andThen (hstore (hspared id k hid) u)⟩
  · exact (hpath.frame.keeps.mono hd).trans
      ((u.storeAt_keeps k.isWide habove hfits).mono (Nat.zero_le _))
  · rw [u.storeAt_main k.isWide habove hfits]
    exact Scope.Matches.set (hpath.frame.main ▸ hvars) hapart hid (hu vars hvars)

/-- A value that is wanted in the kind of a variable is stored into it. -/
theorem assigned_executes {value : Expr} {id : SymbolId} (hapart : scope.Apart place)
    (hplaced : scope.Placed p s place) (hid : scope id = some k) (hvalue : value.Suited scope k) :
    Does (lowerExpr value (.scalar k) >>= fun _ => store (.fixed (place id)) k.isWide) p s
      (Executes scope place result loops fun _ st =>
        some (.done, Function.update st id (scope.keep id (value.number st)))) := by
  obtain ⟨hk, ⟨j, hscalar, himplicit⟩, hroom⟩ := hvalue
  have hkeep (i : ℤ) : scope.keep id i = k.keep i := by rw [Scope.keep, hid]
  simp only [hkeep]
  exact store_executes hapart hplaced hid hroom
    (lowerExpr_evaluates hscalar hk himplicit hplaced (by omega))

/-- A first value. -/
theorem lowerDefine_executes {id : SymbolId} {value : Expr} (hapart : scope.Apart place)
    (hplaced : scope.Placed p s place)
    (hid : scope id = some k)
    (hvalue : value.isAbsent = true ∧ k.isIntegral = true ∨ value.Suited scope k) (span : Span) :
    Does (lowerDefine id value span) p s (Executes scope place result loops fun _ st =>
      some (.done, Function.update st id
        (if value.isAbsent then 0 else scope.keep id (value.number st)))) := by
  obtain ⟨sym, hsym, -, htype⟩ := (hplaced id k hid).perform_symbol
  refine .bind_unwritten hsym (.refl s)
    (.bind_unwritten (hplaced id k hid).perform_symbolRef (.refl s) ?_)
  rw [htype, if_neg (by simp [Ty.scalar])]
  rcases hvalue with ⟨habsent, hk⟩ | hsuited
  · have hzero : Does (loadConstant 0 k.isWide) p s
        (Evaluates scope place 0 valueSlots k fun _ => 0) :=
      (loadConstant_evaluates fun _ => Kind.Denotes.zero hk).mono fun _ _ _ h =>
        h.widen (Nat.le_refl 0) (List.nil_subset _)
    simp only [habsent, if_true]
    exact store_executes hapart hplaced hid (Nat.zero_le _) hzero
  · have hpresent : value.isAbsent = false := by
      obtain ⟨j, hscalar, -⟩ := hsuited.scalar
      exact hscalar.isAbsent_eq
    simp only [hpresent, Bool.false_eq_true, if_false]
    exact assigned_executes hapart hplaced hid hsuited

/-- An assignment to a variable is lowered to the code of its value and a store. -/
theorem perform_lowerAssign {h : ExprHead} {id : SymbolId} {value : Expr} {op : BinaryOp}
    {compound : Bool} {span : Span} {address : UInt16} (hvariable : Variable p s id k address)
    (hwritable : ∀ sym, p.symbol? id = some sym → sym.symbolClass ≠ .constant)
    (hpresent : value.isAbsent = false) :
    perform (lowerAssign (.var h id) value op compound span) p s =
      perform (lowerExpr (if compound then compoundValue (.var h id) value op span else value)
        (.scalar k) >>= fun _ =>
        store (.fixed address) k.isWide) p s := by
  obtain ⟨sym, hsym, hsymbol, htype⟩ := hvariable.perform_symbol
  have hperform : perform (lowerAssign (.var h id) value op compound span) p s =
      perform (assignVariable id
          (if compound then compoundValue (.var h id) value op span else value) span) p s := by
    unfold lowerAssign
    rw [hpresent]
    rfl
  rw [hperform]
  unfold assignVariable
  rw [perform_bind_ok hsym, if_neg (hwritable sym hsymbol), htype, if_neg (by simp [Ty.scalar]),
    perform_bind_ok hvariable.perform_symbolRef]
  rfl

/-- An assignment. -/
theorem lowerAssign_executes {h : ExprHead} {id : SymbolId} {value : Expr} {op : BinaryOp}
    {compound : Bool} {span : Span}
    (hapart : scope.Apart place) (hwritable : scope.Writable p) (hplaced : scope.Placed p s place)
    (hid : scope id = some k) (hpresent : value.isAbsent = false)
    (hvalue : (if compound then compoundValue (.var h id) value op span else value).Suited
      scope k) :
    Does (lowerAssign (.var h id) value op compound span) p s
      (Executes scope place result loops fun _ st =>
      some (.done, Function.update st id (scope.keep id
        (if compound then (Expr.binary {} op (.var h id) value).number st
          else value.number st)))) := by
  have hassigned : Does _ p s (Executes scope place result loops _) :=
    assigned_executes hapart hplaced hid hvalue
  refine .after (perform_lowerAssign (hplaced id k hid) (fun sym => hwritable id k sym hid)
    hpresent) (.refl s) ?_
  cases compound
  · exact hassigned
  · exact hassigned

/-! ### Lowering statements -/

instance (base : UInt16) (size : ℕ) : Moves Emission.Level (clearRegion base size) := by
  unfold clearRegion
  infer_instance

instance (id : SymbolId) (value : Expr) (span : Span) :
    Moves Emission.Level (lowerDefine id value span) := by
  unfold lowerDefine
  infer_instance

instance (id : SymbolId) (value : Expr) (span : Span) :
    Moves Emission.Level (assignVariable id value span) := by
  unfold assignVariable
  infer_instance

instance (h : ExprHead) (id : SymbolId) (value : Expr) (op : BinaryOp)
    (compound : Bool) (span : Span) :
    Moves Emission.Level (lowerAssign (.var h id) value op compound span) := by
  unfold lowerAssign
  infer_instance

instance (e : Element) [Moves Emission.Level e.index.value] :
    Moves Emission.Level (storeElement e) := by
  unfold storeElement
  dsimp only
  repeat' first | infer_instance | split

/-- Only what has nothing to do with the code changes. -/
theorem Emission.Writes.of_eq (workspace : s'.workspace = s.workspace)
    (allocator : s'.allocator = s.allocator)
    (reports : s'.reports = s.reports) (functions : s'.functions = s.functions)
    (data : s'.data = s.data)
    (constants : s'.constants = s.constants) (globalSize : s'.globalSize = s.globalSize) :
    s.Writes s' [] := by
  refine ⟨⟨⟨?_, ?_, [], ?_⟩, functions, data, constants, globalSize⟩, ?_⟩
  · rw [workspace]
    exact .refl _
  · rw [allocator]
    exact .refl _
  · exact reports
  · rw [workspace]
    exact .refl _

/-- What is known while the statements of a function are lowered: where its variables are, what it
returns, and the loops around. -/
structure Surroundings (p : Program) (scope : Scope) (place : SymbolId → UInt16)
    (result : Option Kind) (loops : List LoopLabels) (s : Emission) : Prop where
  placed : scope.Placed p s place
  apart : scope.Apart place
  writable : scope.Writable p
  current : ∃ f, s.current = some f ∧ ∀ k, result = some k → f.result = .scalar k
  loops : s.loops = loops

theorem Surroundings.stays (h : Surroundings p scope place result loops s) (hstays : s.Stays s')
    (hlevel : s.Level s') :
    Surroundings p scope place result loops s' where
  placed := h.placed.stays hstays
  apart := h.apart
  writable := h.writable
  current := by rw [hlevel.current]; exact h.current
  loops := hlevel.loops.trans h.loops

/-- Within another loop. -/
theorem Surroundings.within (h : Surroundings p scope place result loops s) (labels : LoopLabels) :
    Surroundings p scope place result (labels :: loops) { s with loops := labels :: s.loops } :=
  have hsame : s.Writes { s with loops := labels :: s.loops } [] :=
    .of_eq rfl rfl rfl rfl rfl rfl rfl
  ⟨h.placed.stays hsame.toStays, h.apart, h.writable, h.current, congrArg (labels :: ·) h.loops⟩

/-- A function is left. -/
theorem lowerGiveBack_executes {value : Expr} (h : Surroundings p scope place result loops s)
    (hvalue : value.isAbsent = true ∨ ∃ k, result = some k ∧ value.Suited scope k) (span : Span) :
    Lowers (lowerGiveBack value span) p s (Executes scope place result loops fun _ st =>
      some (.returned (if value.isAbsent then none else result.map fun k =>
        k.keep (value.number st)), st)) := by
  obtain ⟨f, hcurrent, hresult⟩ := h.current
  have hreturn (s' : Emission) : Lowers (Lowering.op .rts) p s' (Lines [.instr .rts .implied]) :=
    .straight _
  refine .bind_unwritten (r := s) rfl (.refl s) ⟨rfl, rfl⟩ ?_
  rw [hcurrent]
  rcases hvalue with habsent | ⟨k, hk, hsuited⟩
  · simp only [habsent, if_true, Bool.not_true, Bool.false_eq_true, if_false]
    refine (hreturn s).mono fun code a b hcode _ n v vars hvars =>
      ⟨v, (View.Keeps.refl v).mono (Nat.zero_le _), hvars, ?_⟩
    exact ⟨⟨a, b, .refl code a v, hcode⟩, nofun⟩
  · obtain ⟨hintegral, ⟨j, hscalar, himplicit⟩, hroom⟩ := hsuited
    have hhas : f.hasResult = true := by
      rw [Function.hasResult, hresult k hk]
      cases k <;> first | rfl | cases hintegral
    simp only [hscalar.isAbsent_eq, Bool.not_false, if_true, hhas, hk, Option.map_some,
      hresult k hk, Bool.false_eq_true, if_false]
    have hcomputes : Lowers (lowerExpr value (.scalar k)) p s _ :=
      (lowerExpr_evaluates hscalar hintegral himplicit h.placed (hroom.trans (by decide))).lowers
    refine (hcomputes.bind fun s' _ _ => hreturn s').mono ?_
    rintro code a b ⟨m, hcode, hrts⟩ - n v vars hvars
    obtain ⟨w, hpath, hw⟩ := hcode v
    refine ⟨w, hpath.frame.keeps.mono hroom, hpath.frame.main ▸ hvars,
      ⟨m, b, hpath.reaches, hrts⟩, ?_⟩
    rintro i ⟨⟩
    exact ⟨k, rfl, hw vars hvars⟩

/-- A jump within a loop. -/
theorem lowerJump_executes (label : LoopLabels → LabelId) (e : Ending)
    (h : Surroundings p scope place result loops s)
    (hinside : loops ≠ []) (harrives : ∀ (code : LinkedCode) (a b : ℕ) (v : View),
      (∀ l ls t, loops = l :: ls → code.At (label l) t →
        code.Reaches 1 a v t v) → Arrives code loops result a b v v e)
    (span : Span) (word : String) :
    Lowers (lowerJump span word label) p s
      (Executes scope place result loops fun _ st => some (e, st)) := by
  obtain ⟨l, ls, rfl⟩ := List.exists_cons_of_ne_nil hinside
  refine .bind_unwritten (r := s) rfl (.refl s) ⟨rfl, rfl⟩ ?_
  have hjump : Lowers (jumpTo (label l)) p s
    (Lines [.instr .jmp (.absolute (.ofLabel (label l)))]) := .straight _
  rw [h.loops]
  refine hjump.mono fun code a b hcode _ n v vars hvars =>
    ⟨v, (View.Keeps.refl v).mono (Nat.zero_le _), hvars, ?_⟩
  refine harrives code a b v fun l' ls' t hl ht => ?_
  obtain ⟨rfl, rfl⟩ := List.cons.inj hl
  exact hcode.jump ht

/-- The body of a loop. -/
theorem Lowers.within {labels : LoopLabels} {body : Lower Unit} {P : Deed}
    (h : Lowers body p { s with loops := labels :: s.loops } P) :
    Lowers (withinLoop labels body) p s P := by
  obtain ⟨⟨s₁, ls, hperform, hwrites, hdeed⟩, hlevel⟩ := h
  rw [hperform] at hlevel
  have hwhole : perform (withinLoop labels body) p s =
      (.ok (), { s₁ with loops := s₁.loops.tail }) := by
    unfold withinLoop
    change perform (body >>= fun _ => _) p { s with loops := labels :: s.loops } = _
    rw [perform_bind_ok hperform]
    rfl
  refine ⟨⟨_, ls, hwhole,
    ⟨⟨⟨hwrites.workspace, hwrites.allocator, hwrites.reports⟩, hwrites.functions, hwrites.data,
    hwrites.constants, hwrites.globalSize⟩, hwrites.grows⟩, hdeed⟩, ?_⟩
  rw [hwhole]
  exact ⟨by rw [hlevel.loops]; rfl, hlevel.current⟩

mutual

/-- The code of a statement does what the statement does. -/
theorem lowerStmt_executes (st : Stmt) {s : Emission} {loops : List LoopLabels} {inLoop : Bool}
    (h : Surroundings p scope place result loops s) (hinside : inLoop = true → loops ≠ [])
    (hst : st.Structured scope result inLoop) :
    Lowers (lowerStmt st) p s
      (Executes scope place result loops fun n => st.exec scope result n) := by
  cases st with
  | blank | evaluate | count => exact hst.elim
  | define head id value =>
    obtain ⟨-, k, hid, hvalue⟩ := hst
    exact (lowerDefine_executes h.apart h.placed hid hvalue head.span).lowers
  | assign head target value op compound =>
    cases target with
    | var h' id =>
      obtain ⟨-, hpresent, k, hid, hvalue⟩ := hst
      exact (lowerAssign_executes h.apart h.writable h.placed hid hpresent hvalue).lowers
    | _ => exact hst.elim
  | giveBack head value => exact lowerGiveBack_executes h hst head.span
  | leave head =>
    exact lowerJump_executes (·.exit) .left h (hinside hst.2) (fun _ _ _ _ harrives => harrives)
      head.span "break"
  | next head =>
    exact lowerJump_executes (·.next) .again h (hinside hst.2) (fun _ _ _ _ harrives => harrives)
      head.span "continue"
  | choose head arms n otherwise =>
    obtain ⟨-, hne, harms, hotherwise⟩ := hst
    have hchosen : arms.isEmpty = false := by
      cases arms with
      | nil => exact absurd rfl hne
      | cons => rfl
    refine .label fun exit s₁ hstays hlevel => ?_
    have h := h.stays hstays hlevel
    have hlast (s' : Emission) (h : Surroundings p scope place result loops s') :
        Lowers (lowerBlock otherwise) p s' fun code a b =>
        Executes scope place result loops (fun n => otherwise.exec scope result n) code a b ∧
          (otherwise.isAbsent = true → b = a) := by
      cases otherwise with
      | absent => exact Lowers.pure.mono fun code a b hcode =>
          ⟨fun _ => hcode.nil ▸ .nothing, fun _ => hcode.nil⟩
      | of ss n span =>
        exact (lowerStmts_executes ss h hinside hotherwise).mono fun code a b hcode =>
          ⟨hcode, nofun⟩
    have hexit (s' : Emission) :
        Lowers (do Lowering.place exit; if arms.isEmpty then throw .emptyChoice) p s'
            (Lines [.bound exit]) := by
      simp only [hchosen, Bool.false_eq_true, if_false]
      exact .straight (do Lowering.place exit; Pure.pure ())
    have harms := lowerArms_executes arms h hinside harms exit (!otherwise.isAbsent)
    refine (harms.bind fun s₂ hstays hlevel => (hlast s₂ (h.stays hstays hlevel)).bind fun s₃ _ _ =>
      hexit s₃).mono ?_
    rintro code a b ⟨m, harms, t, ⟨hlast, habsent⟩, hexit⟩ hspared
    obtain ⟨ht, rfl⟩ := hexit.bound
    exact harms b _ ht (fun hnone => habsent (by simpa using hnone)) hspared (hlast hspared)
  | loop head c body =>
    obtain ⟨-, ⟨hc, hroom⟩, hbody⟩ := hst
    refine .label fun top s₁ hstays hlevel => .label fun exit s₂ hstays' hlevel' => ?_
    have h := (h.stays hstays hlevel).stays hstays' hlevel'
    have htop : Lowers (Lowering.place top) p s₂ (Lines [.bound top]) := .straight _
    have htest (s' : Emission) (h : Surroundings p scope place result loops s') :=
      (branchOn_evaluates hc h.placed (hroom.trans (by decide)) false exit).lowers
    have hround (s' : Emission) (h : Surroundings p scope place result loops s') :=
      Lowers.within (lowerBlock_executes body
        (h.within { next := top, exit }) (fun _ => List.cons_ne_nil _ _) hbody)
    have hback (s' : Emission) : Lowers (do jumpTo top; Lowering.place exit) p s'
      (Lines [.instr .jmp (.absolute (.ofLabel top)), .bound exit]) := .straight _
    refine (htop.bind fun s₃ hstays hlevel =>
      have h := h.stays hstays hlevel
      (htest s₃ h).bind fun s₄ hstays hlevel =>
        (hround s₄ (h.stays hstays hlevel)).bind fun s₅ _ _ => hback s₅).mono ?_
    rintro code a b ⟨m, htop, n, htest, t, hround, hback⟩ hspared
    obtain ⟨htop, rfl⟩ := htop.bound
    obtain ⟨u, hjump, hexit⟩ := hback.cons
    obtain ⟨hexit, rfl⟩ := hexit.bound
    exact .loop hroom (fun v vars hvars => htest _ hexit v vars hvars)
      (hround hspared) hjump htop hexit

theorem lowerBlock_executes (block : Block) {s : Emission} {loops : List LoopLabels} {inLoop : Bool}
    (h : Surroundings p scope place result loops s) (hinside : inLoop = true → loops ≠ [])
    (hblock : block.Structured scope result inLoop) :
    Lowers (lowerBlock block) p s
      (Executes scope place result loops fun n => block.exec scope result n) := by
  cases block with
  | absent => exact Lowers.pure.mono fun code a b hcode _ => hcode.nil ▸ .nothing
  | of ss n span => exact lowerStmts_executes ss h hinside hblock

theorem lowerStmts_executes (ss : List Stmt) {s : Emission}
    {loops : List LoopLabels} {inLoop : Bool}
    (h : Surroundings p scope place result loops s) (hinside : inLoop = true → loops ≠ [])
    (hss : Stmt.AllStructured scope result inLoop ss) :
    Lowers (lowerStmts ss) p s
      (Executes scope place result loops fun n => Stmt.execAll scope result n ss) := by
  cases ss with
  | nil => exact Lowers.pure.mono fun code a b hcode _ => hcode.nil ▸ .nothing
  | cons st ss =>
    obtain ⟨hst, hss⟩ := hss
    refine ((lowerStmt_executes st h hinside hst).bind fun s' hstays hlevel =>
      lowerStmts_executes ss (h.stays hstays hlevel) hinside hss).mono ?_
    rintro code a b ⟨m, hfirst, hlast⟩ hspared
    exact (hfirst hspared).andThen (hlast hspared)

theorem lowerArms_executes (arms : List Arm) {s : Emission}
    {loops : List LoopLabels} {inLoop : Bool}
    (h : Surroundings p scope place result loops s) (hinside : inLoop = true → loops ≠ [])
    (harms : Arm.AllStructured scope result inLoop arms) (exit : LabelId) (hasLast : Bool) :
    Lowers (lowerArms exit hasLast arms) p s fun code a b => ∀ t last, code.At exit t →
      (hasLast = false → t = b) →
      Spared scope place code → Simulates scope place result loops last code b t →
        Simulates scope place result loops (fun n => Arm.execFirst scope result n arms (last n))
          code a t := by
  cases arms with
  | nil =>
    refine Lowers.pure.mono fun code a b hcode t last _ _ _ hlast => ?_
    rw [← hcode.nil]
    exact hlast
  | cons arm arms =>
    obtain ⟨c, body⟩ := arm
    obtain ⟨⟨hc, hroom⟩, hbody, harms⟩ := harms
    have hbranch (target : LabelId) (s' : Emission)
        (h : Surroundings p scope place result loops s') :=
      (branchOn_evaluates hc h.placed (hroom.trans (by decide)) false target).lowers
    unfold lowerArms
    split
    next honly =>
      obtain ⟨hnil, hnone⟩ : arms = [] ∧ hasLast = false := by simpa using honly
      subst hnil hnone
      have hlast (s' : Emission) : Lowers (lowerArms exit false []) p s' (Lines []) := .pure
      refine ((hbranch exit s h).bind fun s₁ hstays hlevel =>
        (lowerBlock_executes body (h.stays hstays hlevel) hinside hbody).bind
        fun s₂ _ _ => hlast s₂).mono ?_
      rintro code a b ⟨m, hbranch, m', hbody, hnil⟩ t last ht hend hspared hlast
      obtain rfl := hnil.nil
      obtain rfl := hend rfl
      exact .test hroom (fun v vars hvars => hbranch t ht v vars hvars) (hbody hspared) hlast
    next =>
      refine .label fun next s₁ hstays hlevel => ?_
      have h := h.stays hstays hlevel
      have hnext (s' : Emission) : Lowers (do jumpTo exit; Lowering.place next) p s'
        (Lines [.instr .jmp (.absolute (.ofLabel exit)), .bound next]) := .straight _
      have hrest (s' : Emission) (h : Surroundings p scope place result loops s') :=
        lowerArms_executes arms h hinside harms exit hasLast
      have hbetween (s' : Emission) (h : Surroundings p scope place result loops s') :
          Lowers (do jumpTo exit; Lowering.place next; lowerArms exit hasLast arms) p s' _ :=
        (hnext s').bind fun s'' hstays hlevel => hrest s'' (h.stays hstays hlevel)
      refine ((hbranch next s₁ h).bind fun s₂ hstays hlevel =>
        have h := h.stays hstays hlevel
        (lowerBlock_executes body h hinside hbody).bind fun s₃ hstays hlevel =>
          hbetween s₃ (h.stays hstays hlevel)).mono ?_
      rintro code a b ⟨m, hbranch, m', hbody, u, hnext, hrest⟩ t last ht hend hspared hlast
      obtain ⟨u', hjump, hnext⟩ := hnext.cons
      obtain ⟨hnext, rfl⟩ := hnext.bound
      exact .test hroom (fun v vars hvars => hbranch u hnext v vars hvars)
        ((hbody hspared).jump hjump ht)
        (hrest t last ht hend hspared hlast)

end

/-! ### Functions -/

/-- Lowering that succeeds is what an attempt at it does. -/
theorem Does.tryCatch {act : Lower Unit} {handler : LoweringError → Lower Unit} {P : Deed}
    (h : Does act p s P) :
    Does (tryCatch act handler) p s P := by
  obtain ⟨s', ls, hperform, hrest⟩ := h
  exact ⟨s', ls, by rw [perform_tryCatch, hperform], hrest⟩

theorem Lowers.tryCatch {act : Lower Unit} {handler : LoweringError → Lower Unit} {P : Deed}
    (h : Lowers act p s P) :
    Lowers (tryCatch act handler) p s P := by
  refine ⟨h.does.tryCatch, ?_⟩
  obtain ⟨⟨s', ls, hperform, -⟩, hlevel⟩ := h
  rw [perform_tryCatch, hperform]
  rwa [hperform] at hlevel

/-- The code of a function does what its body does and returns with the value of the function, if it
has one. -/
def Obeys (scope : Scope) (place : SymbolId → UInt16) (result : Option Kind)
    (exec : ℕ → Store → Outcome) (code : LinkedCode) (a : ℕ) : Prop :=
  ∀ n v vars, scope.Matches place vars v.main →
    match exec n vars with
    | none => code.Persists n a v
    | some (e, vars') => ∃ w, code.Returns a v w ∧ v.Keeps 254 w ∧
        scope.Matches place vars' w.main ∧
      ∀ i, e.value = some i → ∃ k, result = some k ∧ k.Denotes (w.value k.isWide) i

/-- A body is a function if a return follows it, unless it does not run off its end. -/
theorem Simulates.obeys {body : Block} (hbody : body.Structured scope result false)
    (h : Simulates scope place result [] (fun n => body.exec scope result n) code a m)
    (hreturn : endsWithReturn body = false → ∃ b, code.Installed m [.instr .rts .implied] b) :
    Obeys scope place result (fun n => body.exec scope result n) code a := by
  intro n v vars hvars
  have hmeets := h n v vars hvars
  dsimp only at hmeets ⊢
  rcases hexec : body.exec scope result n vars with _ | ⟨e, vars'⟩ <;> rw [hexec] at hmeets
  · exact hmeets
  obtain ⟨w, hkeeps, hvars', harrives⟩ := hmeets
  have hwithin := Block.Structured.ending body hbody hexec
  cases e with
  | done =>
    have hopen : endsWithReturn body = false := by
      by_contra hends
      rw [Bool.not_eq_false] at hends
      cases body with
      | absent => cases hends
      | of ss k span => exact Stmt.AllStructured.not_done hbody hends hexec rfl
    obtain ⟨b, hrts⟩ := hreturn hopen
    exact ⟨w, ⟨m, b, harrives, hrts⟩, hkeeps, hvars', nofun⟩
  | left => cases hwithin (.inl rfl)
  | again => cases hwithin (.inr rfl)
  | returned value => exact ⟨w, harrives.1, hkeeps, hvars', harrives.2⟩

/-- The code of a function obeys its body. -/
theorem functionBody_obeys {f : Function} {l : LabelId} (hl : s.functions.lookup f.id = some l)
    (hresult : ∀ k, result = some k → f.result = .scalar k) (hplaced : scope.Placed p s place)
    (hapart : scope.Apart place)
    (hwritable : scope.Writable p) (hbody : f.body.Structured scope result false) :
    Does (functionBody f) p s fun code a _ => code.At l a ∧
      (Spared scope place code →
        Obeys scope place result (fun n => f.body.exec scope result n) code a) := by
  let s' : Emission := { s with current := some f, loops := [] }
  have hbegun : s.Writes s' [] := .of_eq rfl rfl rfl rfl rfl rfl rfl
  have haround : Surroundings p scope place result [] s' :=
    ⟨hplaced.stays hbegun.toStays, hapart, hwritable, ⟨f, rfl, hresult⟩, rfl⟩
  have hplace : Lowers (Lowering.place l) p s' (Lines [.bound l]) := .straight _
  have hend (t : Emission) : Lowers (do if !endsWithReturn f.body then Lowering.op .rts)
      p t fun code a _ =>
      endsWithReturn f.body = false → ∃ b, code.Installed a [.instr .rts .implied] b := by
    cases endsWithReturn f.body with
    | true => exact Lowers.pure.mono fun _ _ _ _ => nofun
    | false =>
      have hrts : Lowers (Lowering.op .rts) p t (Lines [.instr .rts .implied]) := .straight _
      exact hrts.mono fun code a b hcode _ => ⟨b, hcode⟩
  unfold functionBody
  refine .bind_unwritten (r := s) rfl (.refl s) ?_
  rw [hl]
  have hset : perform (modify fun s => { s with current := some f, loops := [] }) p s =
    (.ok (), s') := rfl
  refine .bind_unwritten hset hbegun ?_
  have hblock (t : Emission) (h : Surroundings p scope place result [] t) :=
    lowerBlock_executes f.body h (fun h : false = true => nomatch h) hbody
  refine (hplace.bind fun t hstays hlevel =>
    (hblock t (haround.stays hstays hlevel)).tryCatch.bind fun t' _ _ => hend t').does.mono ?_
  rintro code a b ⟨m, hplace, m', hbodied, hreturn⟩
  obtain ⟨hl, rfl⟩ := hplace.bound
  exact ⟨hl, fun hspared => (hbodied hspared).obeys hbody hreturn⟩

/-- The same, with the function recorded. -/
theorem lowerFunction_obeys {f : Function} {l : LabelId} (hl : s.functions.lookup f.id = some l)
    (hresult : ∀ k, result = some k → f.result = .scalar k) (hplaced : scope.Placed p s place)
    (hapart : scope.Apart place)
    (hwritable : scope.Writable p) (hbody : f.body.Structured scope result false) :
    Does (lowerFunction f) p s fun code a _ => code.At l a ∧
      (Spared scope place code →
        Obeys scope place result (fun n => f.body.exec scope result n) code a) := by
  obtain ⟨span, t, hopen, hwrites⟩ : ∃ span t,
      perform (openSpan .function ("func:" ++ Text.shown f.name)) p s = (.ok span, t) ∧
          s.Writes t [] :=
    ⟨_, _, rfl, .of_eq rfl rfl rfl rfl rfl rfl rfl⟩
  have hclose (t : Emission) :
      Does (do closeSpan span ""; modify fun s => { s with current := none }) p t (Lines []) :=
    ⟨_, _, rfl, .of_eq rfl rfl rfl rfl rfl rfl rfl, fun _ _ _ hcode _ => hcode⟩
  have hl' : t.functions.lookup f.id = some l := by rw [hwrites.functions, hl]
  unfold lowerFunction
  refine .bind_unwritten hopen hwrites ?_
  refine ((functionBody_obeys hl' hresult (hplaced.stays hwrites.toStays) hapart hwritable
      hbody).tryCatch.bind fun t _ =>
    hclose t).mono ?_
  exact fun code a b ⟨m, hcode, _⟩ => hcode

end Lowering

end Breadbin
