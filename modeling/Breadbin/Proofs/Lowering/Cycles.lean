import Mathlib
import Breadbin.Proofs.Lowering.Constants
import Breadbin.Proofs.Text.Quoted

/-!
# Functions on a cycle of calls

A function calls another if a call of it stands somewhere in its body, in whatever statement or
expression.  The search that looks for a function among those it can reach always comes to an end:
every step takes a call off the stack, and the calls of a function are put there once.  What it ends
with is whether a chain of calls comes round, and exactly the functions with such a chain are warned
about.
-/

namespace Breadbin

/-! ## Where calls stand -/

/-- A call of a function stands somewhere in an expression. -/
inductive Expr.Calls (f : FunctionId) : Expr → Prop where
  | here (h : ExprHead) (as : List Expr) (w : Bool) : Expr.Calls f (.call h f as w)
  | argument {h : ExprHead} {g : FunctionId} {x : Expr} {as : List Expr} {w : Bool} (mem : x ∈ as)
      (part : Expr.Calls f x) : Expr.Calls f (.call h g as w)
  | operand {h : ExprHead} {op : UnaryOp} {x : Expr} (part : Expr.Calls f x) :
      Expr.Calls f (.unary h op x)
  | left {h : ExprHead} {op : BinaryOp} {l r : Expr} (part : Expr.Calls f l) :
      Expr.Calls f (.binary h op l r)
  | right {h : ExprHead} {op : BinaryOp} {l r : Expr} (part : Expr.Calls f r) :
      Expr.Calls f (.binary h op l r)
  | position {h : ExprHead} {a : SymbolId} {i : Expr} (part : Expr.Calls f i) :
      Expr.Calls f (.index h a i)
  | converted {h : ExprHead} {x : Expr} (part : Expr.Calls f x) : Expr.Calls f (.cast h x)
  | builtinArgument {h : ExprHead} {b : Builtin} {x : Expr} {as : List Expr}
      {w : Bool} (mem : x ∈ as)
      (part : Expr.Calls f x) : Expr.Calls f (.builtin h b as w)

mutual

/-- A call of a function stands somewhere in a statement. -/
inductive Stmt.Calls (f : FunctionId) : Stmt → Prop where
  | defined {h : StmtHead} {s : SymbolId} {v : Expr} (part : v.Calls f) :
      Stmt.Calls f (.define h s v)
  | target {h : StmtHead} {t v : Expr} {op : BinaryOp} {c : Bool} (part : t.Calls f) :
      Stmt.Calls f (.assign h t v op c)
  | assigned {h : StmtHead} {t v : Expr} {op : BinaryOp} {c : Bool} (part : v.Calls f) :
      Stmt.Calls f (.assign h t v op c)
  | evaluated {h : StmtHead} {v : Expr} (part : v.Calls f) : Stmt.Calls f (.evaluate h v)
  | givenBack {h : StmtHead} {v : Expr} (part : v.Calls f) : Stmt.Calls f (.giveBack h v)
  | guard {h : StmtHead} {c : Expr} {b : Block} {arms : List Arm} {w : Bool} {o : Block}
      (mem : .mk c b ∈ arms) (part : c.Calls f) : Stmt.Calls f (.choose h arms w o)
  | guarded {h : StmtHead} {c : Expr} {b : Block} {arms : List Arm} {w : Bool} {o : Block}
      (mem : .mk c b ∈ arms) (part : Block.Calls f b) : Stmt.Calls f (.choose h arms w o)
  | otherwise {h : StmtHead} {arms : List Arm} {w : Bool} {o : Block} (part : Block.Calls f o) :
      Stmt.Calls f (.choose h arms w o)
  | condition {h : StmtHead} {c : Expr} {b : Block} (part : c.Calls f) : Stmt.Calls f (.loop h c b)
  | repeated {h : StmtHead} {c : Expr} {b : Block} (part : Block.Calls f b) :
      Stmt.Calls f (.loop h c b)
  | first {h : StmtHead} {s : SymbolId} {x y : Expr} {down : Bool} {b : Block} (part : x.Calls f) :
      Stmt.Calls f (.count h s x y down b)
  | last {h : StmtHead} {s : SymbolId} {x y : Expr} {down : Bool} {b : Block} (part : y.Calls f) :
      Stmt.Calls f (.count h s x y down b)
  | counted {h : StmtHead} {s : SymbolId} {x y : Expr} {down : Bool} {b : Block}
      (part : Block.Calls f b) :
      Stmt.Calls f (.count h s x y down b)

/-- A call of a function stands somewhere in a block. -/
inductive Block.Calls (f : FunctionId) : Block → Prop where
  | statement {s : Stmt} {ss : List Stmt} {w : Bool} {span : Span} (mem : s ∈ ss)
      (part : Stmt.Calls f s) :
      Block.Calls f (.of ss w span)

end

/-- The functions that some expressions call themselves. -/
def Expr.calledBy (es : List Expr) : List FunctionId := es.filterMap Program.callee?

@[simp] theorem Expr.calledBy_nil : Expr.calledBy [] = [] := rfl

@[simp] theorem Expr.calledBy_append (xs ys : List Expr) :
    Expr.calledBy (xs ++ ys) = Expr.calledBy xs ++ Expr.calledBy ys := List.filterMap_append

@[simp] theorem Expr.calledBy_cons (x : Expr) (xs : List Expr) :
    Expr.calledBy (x :: xs) = (Program.callee? x).toList ++ Expr.calledBy xs := by
  cases h : Program.callee? x <;> simp [Expr.calledBy, h]

mutual

/-- Walking over an expression meets the calls in it, and nothing else. -/
theorem Expr.mem_calledBy_visit {f : FunctionId} :
    (e : Expr) → (f ∈ Expr.calledBy (e.visit fun _ => true) ↔ e.Calls f)
  | .absent => by
    simp only [Expr.visit, Expr.calledBy_nil, List.not_mem_nil, false_iff]
    nofun
  | .blank h | .literal h v | .var h s | .dataAddress h d => by
    simp only [Expr.visit, Expr.calledBy_cons, Program.callee?, Expr.calledBy_nil,
      Option.toList_none, List.append_nil, List.not_mem_nil, false_iff]
    nofun
  | .unary h op x => by
    simp only [Expr.visit, Expr.calledBy_cons, Program.callee?, Option.toList_none,
      List.nil_append, if_true, Expr.mem_calledBy_visit x]
    exact ⟨.operand, fun | .operand part => part⟩
  | .binary h op l r => by
    simp only [Expr.visit, Expr.calledBy_cons, Program.callee?, Option.toList_none,
      List.nil_append, if_true, Expr.calledBy_append, List.mem_append, Expr.mem_calledBy_visit l,
      Expr.mem_calledBy_visit r]
    exact ⟨fun | .inl part => .left part
               | .inr part => .right part,
      fun | .left part => .inl part
          | .right part => .inr part⟩
  | .call h g as w => by
    simp only [Expr.visit, Expr.calledBy_cons, Program.callee?,
      Option.toList_some, List.cons_append, List.nil_append, if_true,
      List.mem_cons, Expr.mem_calledBy_visitAll as]
    constructor
    · rintro (rfl | ⟨x, hx, part⟩)
      · exact .here h as w
      · exact .argument hx part
    · rintro (_ | ⟨hx, part⟩)
      · exact .inl rfl
      · exact .inr ⟨_, hx, part⟩
  | .index h a i => by
    simp only [Expr.visit, Expr.calledBy_cons, Program.callee?, Option.toList_none,
      List.nil_append, if_true, Expr.mem_calledBy_visit i]
    exact ⟨.position, fun | .position part => part⟩
  | .cast h x => by
    simp only [Expr.visit, Expr.calledBy_cons, Program.callee?, Option.toList_none,
      List.nil_append, if_true, Expr.mem_calledBy_visit x]
    exact ⟨.converted, fun | .converted part => part⟩
  | .builtin h b as w => by
    simp only [Expr.visit, Expr.calledBy_cons, Program.callee?, Option.toList_none,
      List.nil_append, if_true, Expr.mem_calledBy_visitAll as]
    exact ⟨fun ⟨_, hx, part⟩ => .builtinArgument hx part,
      fun | .builtinArgument hx part => ⟨_, hx, part⟩⟩

theorem Expr.mem_calledBy_visitAll {f : FunctionId} :
    (es : List Expr) → (f ∈ Expr.calledBy (Expr.visitAll (fun _ => true) es) ↔ ∃ e ∈ es, e.Calls f)
  | [] => by simp [Expr.visitAll]
  | e :: es => by
    simp only [Expr.visitAll, Expr.calledBy_append, List.mem_append, Expr.mem_calledBy_visit e,
      Expr.mem_calledBy_visitAll es, List.exists_mem_cons_iff]

end

mutual

/-- Walking over a statement meets the calls in it, and nothing else. -/
theorem Stmt.mem_calledBy_visit {f : FunctionId} :
    (s : Stmt) → (f ∈ Expr.calledBy (s.visit fun _ => true) ↔ s.Calls f)
  | .blank h | .leave h | .next h => by
    simp only [Stmt.visit, Expr.calledBy_nil, List.not_mem_nil, false_iff]
    nofun
  | .define h s v => by
    rw [Stmt.visit, Expr.mem_calledBy_visit]
    exact ⟨.defined, fun | .defined part => part⟩
  | .assign h t v op c => by
    simp only [Stmt.visit, Expr.calledBy_append, List.mem_append, Expr.mem_calledBy_visit]
    exact ⟨fun | .inl part => .target part
               | .inr part => .assigned part,
      fun | .target part => .inl part
          | .assigned part => .inr part⟩
  | .evaluate h v => by
    rw [Stmt.visit, Expr.mem_calledBy_visit]
    exact ⟨.evaluated, fun | .evaluated part => part⟩
  | .giveBack h v => by
    rw [Stmt.visit, Expr.mem_calledBy_visit]
    exact ⟨.givenBack, fun | .givenBack part => part⟩
  | .choose h arms w o => by
    simp only [Stmt.visit, Expr.calledBy_append, List.mem_append, Arm.mem_calledBy_visitAll arms,
      Block.mem_calledBy_visit o]
    constructor
    · rintro (⟨c, b, hmem, part | part⟩ | part)
      · exact .guard hmem part
      · exact .guarded hmem part
      · exact .otherwise part
    · rintro (_ | _ | _ | _ | _ | ⟨hmem, part⟩ | ⟨hmem, part⟩ | part)
      · exact .inl ⟨_, _, hmem, .inl part⟩
      · exact .inl ⟨_, _, hmem, .inr part⟩
      · exact .inr part
  | .loop h c b => by
    simp only [Stmt.visit, Expr.calledBy_append, List.mem_append, Expr.mem_calledBy_visit,
      Block.mem_calledBy_visit b]
    exact ⟨fun | .inl part => .condition part
               | .inr part => .repeated part,
      fun | .condition part => .inl part
          | .repeated part => .inr part⟩
  | .count h s x y down b => by
    simp only [Stmt.visit, Expr.calledBy_append, List.mem_append, Expr.mem_calledBy_visit,
      Block.mem_calledBy_visit b]
    exact ⟨fun | .inl (.inl part) => .first part
               | .inl (.inr part) => .last part
               | .inr part => .counted part,
      fun | .first part => .inl (.inl part)
          | .last part => .inl (.inr part)
          | .counted part => .inr part⟩

theorem Block.mem_calledBy_visit {f : FunctionId} :
    (b : Block) → (f ∈ Expr.calledBy (b.visit fun _ => true) ↔ b.Calls f)
  | .absent => by
    simp only [Block.visit, Expr.calledBy_nil, List.not_mem_nil, false_iff]
    nofun
  | .of ss w span => by
    rw [Block.visit, Stmt.mem_calledBy_visitAll ss]
    exact ⟨fun ⟨_, hs, part⟩ => .statement hs part, fun | .statement hs part => ⟨_, hs, part⟩⟩

theorem Stmt.mem_calledBy_visitAll {f : FunctionId} :
    (ss : List Stmt) → (f ∈ Expr.calledBy (Stmt.visitAll (fun _ => true) ss) ↔ ∃ s ∈ ss, s.Calls f)
  | [] => by simp [Stmt.visitAll]
  | s :: ss => by
    simp only [Stmt.visitAll, Expr.calledBy_append, List.mem_append, Stmt.mem_calledBy_visit s,
      Stmt.mem_calledBy_visitAll ss, List.exists_mem_cons_iff]

theorem Arm.mem_calledBy_visitAll {f : FunctionId} :
    (arms : List Arm) → (f ∈ Expr.calledBy (Arm.visitAll (fun _ => true) arms) ↔
      ∃ c b, Arm.mk c b ∈ arms ∧ (c.Calls f ∨ b.Calls f))
  | [] => by simp [Arm.visitAll]
  | .mk c b :: arms => by
    simp only [Arm.visitAll, Expr.calledBy_append, List.mem_append, Expr.mem_calledBy_visit,
      Block.mem_calledBy_visit b, Arm.mem_calledBy_visitAll arms, List.mem_cons, Arm.mk.injEq]
    constructor
    · rintro (part | ⟨c', b', hmem, part⟩)
      · exact ⟨c, b, .inl ⟨rfl, rfl⟩, part⟩
      · exact ⟨c', b', .inr hmem, part⟩
    · rintro ⟨c', b', ⟨rfl, rfl⟩ | hmem, part⟩
      · exact .inl part
      · exact .inr ⟨c', b', hmem, part⟩

end

namespace Program

/-- One function of a program calls another. -/
def Calls (p : Program) (f g : Function) : Prop :=
  f ∈ p.functions.items ∧ g ∈ p.functions.items ∧ f.body.Calls g.id

/-- A chain of one or more calls leads from a function back to it. -/
def OnCycle (p : Program) (f : Function) : Prop := Relation.TransGen p.Calls f f

/-- A function with one number calls whatever has another. -/
def Leads (p : Program) (a b : FunctionId) : Prop :=
  ∃ f ∈ p.functions.items, f.id = a ∧ f.body.Calls b

variable {p : Program} {id : FunctionId}

theorem mem_callees {a b : FunctionId} : b ∈ p.callees a ↔ p.Leads a b := by
  simp only [callees, List.mem_flatMap, List.mem_filter, beq_iff_eq, Leads, and_assoc]
  exact exists_congr fun f => and_congr_right fun _ => and_congr_right fun _ =>
    Block.mem_calledBy_visit f.body

theorem eq_of_id {f g : Function} (hids : (p.functions.items.map Function.id).Nodup)
    (hf : f ∈ p.functions.items) (hg : g ∈ p.functions.items) (h : f.id = g.id) : f = g :=
  List.inj_on_of_nodup_map hids hf hg h

/-- Where numbers belong to one function each, a chain of numbers is a chain of functions: a number
that no function has leads nowhere. -/
theorem Leads.chain {f g : Function} (hids : (p.functions.items.map Function.id).Nodup)
    (hf : f ∈ p.functions.items) (hg : g ∈ p.functions.items)
    (h : Relation.TransGen p.Leads f.id g.id) :
    Relation.TransGen p.Calls f g := by
  generalize ha : f.id = a at h
  induction h using Relation.TransGen.head_induction_on generalizing f with
  | single hstep =>
    obtain ⟨f', hf', rfl, hcalls⟩ := hstep
    obtain rfl := eq_of_id hids hf hf' ha
    exact .single ⟨hf, hg, hcalls⟩
  | head hstep hrest ih =>
    obtain ⟨f', hf', rfl, hcalls⟩ := hstep
    obtain rfl := eq_of_id hids hf hf' ha
    obtain ⟨next, ⟨middle, hmiddle, hid, -⟩, -⟩ := Relation.TransGen.head'_iff.1 hrest
    subst hid
    exact .head ⟨hf, hmiddle, hcalls⟩ (ih hmiddle rfl)

theorem onCycle_iff {f : Function} (hids : (p.functions.items.map Function.id).Nodup)
    (hf : f ∈ p.functions.items) : p.OnCycle f ↔ Relation.TransGen p.Leads f.id f.id := by
  constructor
  · exact fun h => h.lift Function.id fun g g' ⟨hg, _, hcalls⟩ => ⟨g, hg, rfl, hcalls⟩
  · exact Leads.chain hids hf hf

/-! ## The search -/

/-- How the search for a function ends: it is met on the stack, or the stack runs empty.  A function
that was entered before is passed over; the calls of any other go on the stack. -/
inductive Search (p : Program) (id : FunctionId) :
    List FunctionId → List FunctionId → Bool → Prop where
  | empty (seen : List FunctionId) : Search p id seen [] false
  | found (seen stack : List FunctionId) : Search p id seen (id :: stack) true
  | again {seen stack : List FunctionId} {f : FunctionId} {result : Bool} (other : f ≠ id)
      (entered : f ∈ seen) (rest : Search p id seen stack result) :
        Search p id seen (f :: stack) result
  | enter {seen stack : List FunctionId} {f : FunctionId} {result : Bool} (other : f ≠ id)
      (new : f ∉ seen) (rest : Search p id (f :: seen) ((p.callees f).reverse ++ stack) result) :
      Search p id seen (f :: stack) result

/-- The number of calls in the functions that have not been entered. -/
def callsLeft (seen : List FunctionId) (functions : List Function) : Nat :=
  ((functions.filter fun f => !seen.contains f.id).map fun f => (callsOf f).length).sum

/-- Entering a function moves its calls onto the stack. -/
theorem callsLeft_enter {seen : List FunctionId} (new : id ∉ seen) (functions : List Function) :
    callsLeft (id :: seen) functions +
      ((functions.filter fun f => f.id == id).flatMap callsOf).length =
        callsLeft seen functions := by
  induction functions with
  | nil => rfl
  | cons f functions ih =>
    unfold callsLeft at ih ⊢
    by_cases hid : f.id = id
    · simp [hid, new] at ih ⊢
      omega
    · by_cases hseen : f.id ∈ seen
      · simp [hid, hseen] at ih ⊢
        omega
      · simp [hid, hseen] at ih ⊢
        omega

theorem callsLeft_nil (p : Program) : callsLeft [] p.functions.items = p.callCount := by
  have hfold (n : Nat) (functions : List Function) :
      functions.foldl (fun n f => n + (callsOf f).length) n = n + callsLeft [] functions := by
    induction functions generalizing n with
    | nil => rfl
    | cons f functions ih => simp [ih, callsLeft, Nat.add_assoc]
  rw [callCount, hfold, Nat.zero_add]

theorem length_callees_le (p : Program) (id : FunctionId) :
    (p.callees id).length ≤ p.callCount := by
  have henter : callsLeft [id] p.functions.items + (p.callees id).length =
      callsLeft [] p.functions.items :=
    callsLeft_enter List.not_mem_nil p.functions.items
  rw [callsLeft_nil] at henter
  omega

/-- The steps suffice while they outnumber the calls on the stack and those that can still get
there. -/
theorem reaches_search {steps : Nat} {seen stack : List FunctionId}
    (h : stack.length + callsLeft seen p.functions.items < steps) :
    p.Search id seen stack (p.reaches id steps seen stack) := by
  induction steps generalizing seen stack with
  | zero => omega
  | succ steps ih =>
    cases stack with
    | nil => exact .empty seen
    | cons f stack =>
      rw [List.length_cons] at h
      rw [reaches]
      by_cases hfound : f = id
      · subst hfound
        rw [if_pos rfl]
        exact .found seen stack
      · rw [if_neg hfound]
        by_cases hseen : f ∈ seen
        · rw [if_pos (by simpa using hseen)]
          exact .again hfound hseen (ih (by omega))
        · rw [if_neg (by simpa using hseen)]
          have henter := callsLeft_enter hseen p.functions.items
          refine .enter hfound hseen (ih ?_)
          rw [List.length_append, List.length_reverse]
          unfold callees
          omega

/-- The search for a function among those it can reach ends, with whether it is recursive. -/
theorem isRecursive_search (p : Program) (f : Function) :
    p.Search f.id [] (p.callees f.id).reverse (p.isRecursive f) := by
  have hlength := p.length_callees_le f.id
  refine reaches_search ?_
  rw [callsLeft_nil, List.length_reverse]
  omega

/-- A function that is met is reached from the stack. -/
theorem Search.sound {seen stack : List FunctionId} {result : Bool}
    (h : p.Search id seen stack result)
    (hresult : result = true) : ∃ f ∈ stack, Relation.ReflTransGen p.Leads f id := by
  induction h with
  | empty => cases hresult
  | found => exact ⟨id, List.mem_cons_self, .refl⟩
  | again _ _ _ ih =>
    obtain ⟨g, hg, hpath⟩ := ih hresult
    exact ⟨g, List.mem_cons_of_mem _ hg, hpath⟩
  | @enter seen stack f _ _ _ _ ih =>
    obtain ⟨g, hg, hpath⟩ := ih hresult
    rcases List.mem_append.1 hg with hg | hg
    · exact ⟨f, List.mem_cons_self, hpath.head (mem_callees.1 (List.mem_reverse.1 hg))⟩
    · exact ⟨g, List.mem_cons_of_mem _ hg, hpath⟩

/-- If a function is not met, a set of functions that it does not belong to has the stack and, with
every function, those that it calls. -/
theorem Search.complete {seen stack : List FunctionId} {result : Bool}
    (h : p.Search id seen stack result) (hresult : result = false) (hseen : id ∉ seen)
    (hclosed : ∀ a ∈ seen, ∀ b, p.Leads a b → b ∈ seen ∨ b ∈ stack) :
    ∃ reached : FunctionId → Prop, ¬ reached id ∧ (∀ a ∈ seen, reached a) ∧
      (∀ a ∈ stack, reached a) ∧
      ∀ a b, reached a → p.Leads a b → reached b := by
  induction h with
  | empty seen =>
    refine ⟨(· ∈ seen), hseen, fun a ha => ha, by simp, fun a b ha hleads => ?_⟩
    simpa using hclosed a ha b hleads
  | found => cases hresult
  | @again seen stack f _ _ entered _ ih =>
    obtain ⟨reached, hid, hin, hstack, hstep⟩ := ih hresult hseen fun a ha b hleads => by
      rcases hclosed a ha b hleads with hb | hb
      · exact .inl hb
      · rcases List.mem_cons.1 hb with rfl | hb
        · exact .inl entered
        · exact .inr hb
    exact ⟨reached, hid, hin, List.forall_mem_cons.2 ⟨hin f entered, hstack⟩, hstep⟩
  | @enter seen stack f _ other _ _ ih =>
    have hnew : id ∉ f :: seen := by simp [Ne.symm other, hseen]
    obtain ⟨reached, hid, hin, hstack, hstep⟩ := ih hresult hnew fun a ha b hleads => by
      rcases List.mem_cons.1 ha with rfl | ha
      · exact .inr (List.mem_append_left _ (List.mem_reverse.2 (mem_callees.2 hleads)))
      · rcases hclosed a ha b hleads with hb | hb
        · exact .inl (List.mem_cons_of_mem _ hb)
        · rcases List.mem_cons.1 hb with rfl | hb
          · exact .inl List.mem_cons_self
          · exact .inr (List.mem_append_right _ hb)
    obtain ⟨hf, hin⟩ := List.forall_mem_cons.1 hin
    exact ⟨reached, hid, hin,
      List.forall_mem_cons.2 ⟨hf, fun a ha => hstack a (List.mem_append_right _ ha)⟩, hstep⟩

/-- The search finds a function just if a chain of numbers leads back to it. -/
theorem isRecursive_iff (p : Program) (f : Function) :
    p.isRecursive f = true ↔ Relation.TransGen p.Leads f.id f.id := by
  have hsearch := p.isRecursive_search f
  constructor
  · intro hfound
    obtain ⟨g, hg, hpath⟩ := hsearch.sound hfound
    exact Relation.TransGen.head' (mem_callees.1 (List.mem_reverse.1 hg)) hpath
  · intro hchain
    by_contra hmissed
    obtain ⟨reached, hid, -, hstack, hstep⟩ :=
      hsearch.complete (Bool.eq_false_iff.2 hmissed) (by simp) (by simp)
    obtain ⟨g, hleads, hpath⟩ := Relation.TransGen.head'_iff.1 hchain
    have hfirst : reached g := hstack g (List.mem_reverse.2 (mem_callees.2 hleads))
    exact hid (hpath.rec hfirst fun _ hlast hreached => hstep _ _ hreached hlast)

end Program

/-! ## The warnings -/

/-- A channel that has not delivered any of some different reports, none of which has notes,
delivers them all; without a limit the bag keeps them. -/
theorem Reports.reportAll_fresh {r : Reports} {ds : List Diagnostic} (hlimit : r.bag.limit = none)
    (hnotes : ∀ d ∈ ds, d.notes = []) (hfresh : ∀ d ∈ ds, ∀ seen, r.seen = some seen → d ∉ seen)
    (hdistinct : ds.Nodup) :
    (r.reportAll ds).bag = { r.bag with items := r.bag.items ++ ds.toArray } := by
  induction ds generalizing r with
  | nil => simp [reportAll]
  | cons d ds ih =>
    obtain ⟨hd, hdistinct⟩ := List.nodup_cons.1 hdistinct
    obtain ⟨hnote, hnotes⟩ := List.forall_mem_cons.1 hnotes
    obtain ⟨hnew, hfresh⟩ := List.forall_mem_cons.1 hfresh
    have hkey : { d with notes := [] } = d := by rw [← hnote]
    have hadded : r.bag.add d = { r.bag with items := r.bag.items.push d } := by
      simp [Bag.add, Bag.isFull, hlimit]
    have hreport : (r.report d).bag = r.bag.add d ∧
        ∀ seen, (r.report d).seen = some seen → seen = d :: (r.seen.getD []) ∧
            r.seen.isSome = true := by
      unfold Reports.report
      cases hseen : r.seen with
      | none => simp
      | some seen =>
        have hkey' : ¬ seen.contains d = true := by simpa using hnew seen hseen
        simp only [hkey, if_neg hkey']
        simp
    rw [reportAll, List.foldl_cons, ← reportAll,
      ih (by rw [hreport.1, hadded, hlimit]) hnotes ?_ hdistinct, hreport.1, hadded]
    · simp
    · intro d' hd' seen hseen
      obtain ⟨rfl, hsome⟩ := hreport.2 seen hseen
      obtain ⟨before, hbefore⟩ := Option.isSome_iff_exists.1 hsome
      rw [hbefore, Option.getD_some, List.mem_cons, not_or]
      exact ⟨fun h => hd (h ▸ hd'), hfresh d' hd' before hbefore⟩

/-- What is reported about a function that can reach itself. -/
def Function.recursionWarning (f : Function) : Diagnostic :=
  .warning .recursiveCall f.span
    ("function " ++ Text.quoted f.name ++ " is recursive; every call shares one static frame")

theorem Function.recursionWarning_name {f g : Function}
    (h : f.recursionWarning = g.recursionWarning) :
    f.name = g.name := by
  have hmessage := congrArg Diagnostic.message h
  simp only [recursionWarning, Diagnostic.warning, String.append_left_inj,
    String.append_right_inj] at hmessage
  exact Text.quoted_injective hmessage

namespace Lowering

open Program

theorem perform_warnRecursion (p : Program) (s : Emission) :
    perform warnRecursion p s =
      (.ok (), s.reporting (p.recursiveFunctions.map Function.recursionWarning)) := by
  have hread : perform warnRecursion p s =
      perform (forM p.recursiveFunctions fun f => report f.recursionWarning) p s := rfl
  rw [hread, ← perform_forM_report, List.forM_eq_forM, List.forM_map]

/-- Exactly the functions on a cycle of calls are warned about, each once and in order: the search
for each of them ends, with whether it is on one.  A bag without a limit keeps the warnings behind
what it has, if the channel has not delivered any such warning before. -/
theorem warnRecursion_onCycle {p : Program} (hids : (p.functions.items.map Function.id).Nodup)
    (hnames : (p.functions.items.map Function.name).Nodup) (s : Emission) :
    perform warnRecursion p s =
      (.ok (), s.reporting (p.recursiveFunctions.map Function.recursionWarning)) ∧
    (∀ f ∈ p.functions.items, p.Search f.id [] (p.callees f.id).reverse (p.isRecursive f)) ∧
    (∀ f ∈ p.functions.items,
      f.recursionWarning ∈ p.recursiveFunctions.map Function.recursionWarning ↔ p.OnCycle f) ∧
    (s.reports.bag.limit = none →
      (∀ seen, s.reports.seen = some seen → ∀ d ∈ seen, d.code ≠ .recursiveCall) →
      (perform warnRecursion p s).2.reports.bag.items.toList =
        s.reports.bag.items.toList ++ p.recursiveFunctions.map Function.recursionWarning) := by
  refine ⟨perform_warnRecursion p s, fun f _ => p.isRecursive_search f, fun f hf =>
    ?_, fun hlimit hfresh => ?_⟩
  · rw [onCycle_iff hids hf, ← p.isRecursive_iff f, List.mem_map]
    constructor
    · rintro ⟨g, hg, hwarning⟩
      obtain ⟨hg, hrecursive⟩ := List.mem_filter.1 hg
      obtain rfl := List.inj_on_of_nodup_map hnames hg hf (Function.recursionWarning_name hwarning)
      exact hrecursive
    · exact fun hrecursive => ⟨f, List.mem_filter.2 ⟨hf, hrecursive⟩, rfl⟩
  · have hdistinct : (p.recursiveFunctions.map Function.recursionWarning).Nodup := by
      have hsome : (p.recursiveFunctions.map Function.name).Nodup :=
        hnames.sublist (List.filter_sublist.map _)
      exact (List.Nodup.of_map _ hsome).map_on fun f hf g hg h =>
        List.inj_on_of_nodup_map hsome hf hg (Function.recursionWarning_name h)
    rw [perform_warnRecursion]
    have hnotes : ∀ d ∈ p.recursiveFunctions.map Function.recursionWarning, d.notes = [] := by
      simp [Function.recursionWarning, Diagnostic.warning]
    have hnew : ∀ d ∈ p.recursiveFunctions.map Function.recursionWarning, ∀ seen,
        s.reports.seen = some seen → d ∉ seen := by
      intro d hd seen hseen hmem
      obtain ⟨f, -, rfl⟩ := List.mem_map.1 hd
      exact hfresh seen hseen _ hmem rfl
    show (s.reports.reportAll _).bag.items.toList = _
    rw [Reports.reportAll_fresh hlimit hnotes hnew hdistinct]
    simp

/-- One function calls itself in an argument, three are on two circles with a common call, and one
only calls; some calls are of no function. -/
def roundabout : Program :=
  let call (id : FunctionId) : Stmt := .evaluate {} (.call {} id [] true)
  let body (ss : List Stmt) : Block := .of ss true .none
  { functions := .of [
      { id := 1, name := [0x61],
        body := body [.evaluate {} (.call {} 9 [.call {} 1 [] true] true)] },
      { id := 2, name := [0x62], body := body [.loop {} .absent (body [call 3, call 1])] },
      { id := 3, name := [0x63], body := body [call 4, call 2] },
      { id := 4, name := [0x64], body := body [call 1, call 2, call 7] },
      { id := 5, name := [0x65], body := body [call 2, call 2] }] }

/-- All of them but the one that only calls are warned about. -/
theorem roundabout_warned :
    (perform warnRecursion roundabout default).2.reports.bag.items.size = 4 ∧
      ∀ f ∈ roundabout.functions.items, roundabout.OnCycle f ↔ f.name ≠ [0x65] := by
  obtain ⟨-, -, hwarned, hkept⟩ :=
    warnRecursion_onCycle (p := roundabout) (by decide) (by decide) default
  have hnames : roundabout.recursiveFunctions.map Function.name =
      [[0x61], [0x62], [0x63], [0x64]] := by
    decide +kernel
  have hothers : ∀ f ∈ roundabout.functions.items, f.name ≠ [0x65] →
      roundabout.isRecursive f = true := by
    decide +kernel
  have hitems := hkept rfl (by simp [show (default : Emission).reports.seen = none from rfl])
  refine ⟨?_, fun f hf => ?_⟩
  · rw [← Array.length_toList, hitems, List.length_append,
      List.length_map, ← List.length_map Function.name, hnames]
    rfl
  · rw [← hwarned f hf, List.mem_map]
    constructor
    · rintro ⟨g, hg, hwarning⟩
      have hmem : g.name ∈ roundabout.recursiveFunctions.map Function.name := List.mem_map_of_mem hg
      rw [hnames, Function.recursionWarning_name hwarning] at hmem
      intro hname
      simp [hname] at hmem
    · exact fun hname => ⟨f, List.mem_filter.2 ⟨hf, hothers f hf hname⟩, rfl⟩

end Lowering

end Breadbin
