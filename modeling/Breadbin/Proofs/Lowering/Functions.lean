import Breadbin.Proofs.Lowering.Values

/-!
# Statements and functions in order

Statements bind the labels that they make, those of loops among them, and a function binds its own.
What is tagged to leave a function ends with a return, so that the code of a function always does.
-/

set_option synthInstance.maxSize 100000
set_option synthInstance.maxHeartbeats 100000

namespace Breadbin.Lowering

open Assembly Emission

variable {p : Program} {c : Setting p} {α β : Type}

/-! ## Variables -/

instance (base : UInt16) (size : Nat) : Safe c (clearRegion base size) where
  fine := by
    unfold clearRegion
    refine .ite (fun _ => .bind .safe fun _ => ?_) fun _ => .pure _
    have hpage (page : Nat) : Safe c (do
        let chunk := min (size - 256 * page) 256
        imm .ldx (UInt8.ofNat chunk)
        let again ← newLabel "clear"
        place again
        op .dex
        emit .sta (.absoluteX (.fixed (base + UInt16.ofNat (256 * page))))
        branchTo .bne again) := by
      refine ⟨.bind .safe fun _ => .newLabel_bind fun again => .bind (.place .head) fun _ => ?_⟩
      exact .bind .safe fun _ => .bind .safe fun _ => .loose (.branchTo rfl (by simp))
    exact .safe

theorem value_safe {e : Expr} (he : e.OptionalWellFormed p) (t : Ty) :
    Safe c (if e.isAbsent then zero t else lowerExpr e t) :=
  ⟨.ite (fun _ => .safe) fun hpresent => (lowerExpr_safe (he.resolve_left hpresent) t).fine⟩

theorem lowerDefine_safe (id : SymbolId) [Declared p id] {e : Expr} (he : e.OptionalWellFormed p)
    (span : Span) : Safe c (lowerDefine id e span) where
  fine := by
    unfold lowerDefine
    refine .bind .safe fun s => .symbolRef_bind id fun a => .ite (fun _ => .safe) fun _ => ?_
    dsimp only
    refine .ite (fun _ => .safe) fun hpresent => ?_
    have := lowerExpr_safe (c := c) (he.resolve_left hpresent) s.type
    exact .safe

theorem assignVariable_safe (id : SymbolId) [Declared p id] {e : Expr} (he : e.WellFormed p)
    (span : Span) : Safe c (assignVariable id e span) where
  fine := by
    unfold assignVariable
    refine .bind .safe fun s => .ite (fun _ => .safe) fun _ => .ite (fun _ => .safe) fun _ => ?_
    have := lowerExpr_safe (c := c) he s.type
    exact .symbolRef_bind id fun a => .safe

theorem assignElement_safe (a : SymbolId) [Declared p a] {i e : Expr} (hi : i.WellFormed p)
    (he : e.WellFormed p) (place span : Span) : Safe c (assignElement a i place e span) where
  fine := by
    have := part_ready (c := c) hi
    unfold assignElement
    refine .element_bind (.pure _) fun e' hindex hbase => .ite (fun _ => .safe) fun _ => ?_
    have := lowerExpr_safe (c := c) he e'.type
    exact .safe

theorem lowerAssign_safe {target value : Expr} (htarget : target.WellFormed p)
    (hvalue : value.WellFormed p)
    (op : BinaryOp) (compound : Bool) (span : Span) :
    Safe c (lowerAssign target value op compound span) where
  fine := by
    unfold lowerAssign
    simp only [htarget.present, hvalue.present, Bool.or_self, Bool.false_eq_true, if_false]
    have hstored : (if compound then compoundValue target value op span else value).WellFormed
        p := by
      split
      · exact ⟨htarget, hvalue⟩
      · exact hvalue
    generalize (if compound then compoundValue target value op span else value) =
      stored at hstored ⊢
    cases target with
    | var h id =>
      have : Declared p id := ⟨htarget⟩
      exact (assignVariable_safe id hstored span).fine
    | index h a i =>
      have : Declared p a := ⟨htarget.1⟩
      exact (assignElement_safe a htarget.2 hstored h.span span).fine
    | _ => exact .safe

/-! ## Jumps -/

/-- What leaves the function ends with a return. -/
theorem lowerGiveBack_fine (hinside : c.inside = true) {e : Expr}
    (he : e.OptionalWellFormed p) (span : Span) :
    Fine c true [] [] (lowerGiveBack e span) [] where
  moves := inferInstance
  lands {s U} hs hnear := by
    obtain ⟨f, hf⟩ := Option.isSome_iff_exists.1 (hs.current hinside)
    unfold lowerGiveBack
    rw [perform_get_bind, hf]
    refine Fine.lands ?_ hs hnear
    have hreturn : Fine c true [] [] (op .rts) [] := .op rfl
    dsimp only
    refine .ite (fun hpresent => ?_) fun _ => hreturn
    have he' : e.WellFormed p := he.resolve_left (by simpa using hpresent)
    have := lowerExpr_safe (c := c) he'
    exact .ite (fun _ => .bind .safe fun _ => hreturn) fun _ => .bind .safe fun _ =>
      .bind .safe fun _ => hreturn

theorem lowerJump_safe (span : Span) (word : String) {label : LoopLabels → LabelId}
    (hlabel : ∀ l, label l ∈ [l.next, l.exit]) : Safe c (lowerJump span word label) where
  fine.moves := inferInstance
  fine.lands {s U} hs hnear := by
    unfold lowerJump
    rw [perform_get_bind]
    cases hloops : s.loops with
    | nil =>
      have hreport : Safe c (reportError .misplacedJump span (word ++ " outside of a loop")) :=
        inferInstance
      exact hreport.fine.lands hs hnear
    | cons l ls =>
      refine (Fine.loose (.jumpTo (K := [l.next, l.exit]) (hlabel l))).lands hs ?_
      exact hs.loops l (by simp [hloops])

theorem withinLoop_fine (labels : LoopLabels) (body : Lower Unit) [hbody : Safe c body] :
    Fine c false [labels.next, labels.exit] [] (withinLoop labels body) [] := by
  have henter : Fine c false [labels.next, labels.exit] []
      (modify fun s => { s with loops := labels :: s.loops } : Lower PUnit) [] :=
    ⟨.modify fun _ => .of_eq rfl rfl rfl rfl rfl rfl rfl rfl, fun hs hnear => ⟨fun _ =>
      ⟨{ hs with loops := fun l hl => (List.mem_cons.1 hl).elim (· ▸ hnear) (hs.loops l) }, nofun⟩⟩⟩
  have hleave : Safe c (modify fun s => { s with loops := s.loops.tail } : Lower PUnit) :=
    .modify (fun _ => .of_eq rfl rfl rfl rfl rfl rfl rfl rfl) fun _ _ hs =>
      { hs with loops := fun l hl => hs.loops l (List.mem_of_mem_tail hl) }
  exact .bind henter fun _ => .bind .safe fun _ => .safe

/-! ## Counting loops -/

theorem fixedLastStep_fine (counter bound : AddressRef) [Unlabelled counter]
    [Unlabelled bound] (down : Bool)
    (exit : LabelId) : Fine c false [exit] [] (fixedLastStep counter bound down exit) [] := by
  have hstep (high low : AddressRef) [Unlabelled high] [Unlabelled low] : Fine c false [exit] [] (do
      let more ← newLabel "for_more"
      op .sec
      mem .lda high
      mem .sbc low
      op .tay
      mem .lda (high.plus 1)
      mem .sbc (low.plus 1)
      branchTo .bne more
      imm .cpy 0x10
      branchTo .bcc exit
      place more) [] := by
    refine .newLabel_bind fun more => .bind .safe fun _ => .bind .safe fun _ =>
      .bind .safe fun _ => ?_
    refine .bind .safe fun _ => .bind .safe fun _ => .bind .safe fun _ => ?_
    refine .bind (.branchTo rfl (by simp)) fun _ => .bind .safe fun _ => ?_
    exact .bind (.branchTo rfl (by simp)) fun _ => .place .head
  cases down
  · exact hstep bound counter
  · exact hstep counter bound

instance (counter : AddressRef) [Unlabelled counter] (k : Kind) (down : Bool) :
    Safe c (step counter k down) where
  fine := by
    unfold step
    refine .ite (fun _ => ?_) fun _ => .ite (fun _ => ?_) fun _ => .ite (fun _ => ?_) fun _ => ?_
    · cases down <;> simp only [if_true, if_false, Bool.false_eq_true] <;> exact .safe
    · cases down <;> simp only [if_true, if_false, Bool.false_eq_true] <;> exact .safe
    · refine .newLabel_bind fun skip => .bind .safe fun _ =>
        .bind (.branchTo rfl (by simp)) fun _ => ?_
      exact .bind .safe fun _ => .bind (.place .head) fun _ => .safe
    · refine .newLabel_bind fun skip => .bind .safe fun _ =>
        .bind (.branchTo rfl (by simp)) fun _ => ?_
      exact .bind .safe fun _ => .place .head

theorem isShortage_allocation {cause : AllocationError} (h : cause.isShortage = true) :
    (LoweringError.allocation cause).isShortage = true := by
  cases cause <;> first | rfl | cases h

theorem perform_reserveBound (s : Symbol) (e : Emission) :
    perform (reserveBound s) p e =
      match e.allocator.allocateHidden (s.name ++ Text.bytesOf ".bound") s.type.size with
      | (a, .ok address) => (.ok (.fixed address), { e with allocator := a })
      | (a, .error cause) => (.error (.allocation cause), { e with allocator := a }) := by
  unfold reserveBound
  rw [perform_modifyGet_bind]
  rcases e.allocator.allocateHidden (s.name ++ Text.bytesOf ".bound") s.type.size with
    ⟨a, cause | address⟩ <;> rfl

/-- Reserving a bound fails only for want of room. -/
theorem reserveBound_safe {s : Symbol} (hs : 0 < s.type.size) : Safe c (reserveBound s) where
  fine.moves := inferInstance
  fine.lands {e U} he _ := by
    have hhouses := he.storage.allocateHidden (s.name ++ Text.bytesOf ".bound") hs
    have hperform := perform_reserveBound (p := p) s e
    rcases hresult : e.allocator.allocateHidden (s.name ++ Text.bytesOf ".bound") s.type.size with
      ⟨a, cause | address⟩
    · rw [hresult] at hhouses hperform
      rw [hperform]
      exact ⟨fun _ => isShortage_allocation hhouses⟩
    · rw [hresult] at hhouses hperform
      rw [hperform]
      exact ⟨fun _ => ⟨{ he with storage := hhouses }, nofun⟩⟩

theorem reserveBound_result (s : Symbol) :
    Yields (reserveBound s) fun r _ => ∃ a, r = .fixed a := by
  unfold reserveBound
  refine .bind fun r => ?_
  cases r with
  | ok address => exact .pure fun _ => ⟨address, rfl⟩
  | error cause => exact .throw

theorem lowerCount_safe {id : SymbolId} (hid : (p.symbol? id).isSome = true) {first last : Expr}
    (hfirst : first.WellFormed p) (hlast : last.WellFormed p) (down : Bool) {body : Lower Unit}
    [∀ K, Moves (Codes K) body] (hbody : Safe c body) :
    Safe c (lowerCount id first last down body) where
  fine.moves := inferInstance
  fine.lands {st U} hs hnear := by
    obtain ⟨s, hsymbol⟩ := Option.isSome_iff_exists.1 hid
    have : Declared p id := ⟨hid⟩
    have := lowerExpr_safe (c := c) hfirst s.type
    have := lowerExpr_safe (c := c) hlast s.type
    have := reserveBound_safe (c := c) (c.wellFormed.stored id s hsymbol)
    have hless : Opcode.takes (lessBranch s.type.kind) .relative = true := by
      unfold lessBranch
      cases s.type.kind.isSigned <;> rfl
    unfold lowerCount
    rw [perform_read_bind, hsymbol]
    refine Fine.lands ?_ hs hnear
    dsimp only
    refine .ite (fun _ => .safe) fun _ => .symbolRef_bind id fun counter => ?_
    refine .bind_result .safe (reserveBound_result s) fun bound ⟨address, hbound⟩ => ?_
    subst hbound
    refine .newLabel_bind fun next => .newLabel_bind fun exit => ?_
    refine .bind .safe fun _ => .bind .safe fun _ => .bind .safe fun _ => .bind .safe fun _ => ?_
    have hrounds : Fine c false [exit, next] [exit, next] (do
        branchTo (lessBranch s.type.kind) exit
        let top ← newLabel "for_top"
        place top
        withinLoop { next, exit } body
        place next
        if s.type.kind = .fixed then fixedLastStep (.fixed counter) (.fixed address) down exit
        else
          compareEqual (.address (.fixed counter)) (.address (.fixed address)) s.type.kind.isWide
          branchTo .beq exit
        step (.fixed counter) s.type.kind down
        jumpTo top
        place exit) [] := by
      refine .bind (.branchTo hless (by simp)) fun _ => .newLabel_bind fun top => ?_
      refine .bind (.place .head) fun _ =>
        .bind ((withinLoop_fine _ body).amid (by simp)) fun _ => ?_
      refine .bind (.place (.tail .head)) fun _ => ?_
      have hback : Fine c false [top, exit, next] [exit] (do
          step (.fixed counter) s.type.kind down
          jumpTo top
          place exit) [] :=
        .bind .safe fun _ => .bind (.jumpTo (by simp)) fun _ => .place .head
      dsimp only
      refine .ite (fun _ => ?_) fun _ => ?_
      · exact .bind ((fixedLastStep_fine _ _ down exit).amid (by simp)) fun _ => hback
      · exact .bind .safe fun _ => .bind (.branchTo rfl (by simp)) fun _ => hback
    exact .ite (fun _ => .bind .safe fun _ => hrounds) fun _ => .bind .safe fun _ => hrounds

/-! ## Statements -/

mutual

theorem lowerStmt_safe (hinside : c.inside = true) {s : Stmt} (h : s.WellFormed p) :
    Safe c (lowerStmt s) := by
  cases s with
  | blank => exact absurd h id
  | define h' s v =>
    have : Declared p s := ⟨h.1⟩
    unfold lowerStmt
    exact lowerDefine_safe s h.2 h'.span
  | assign h' t v op compound =>
    unfold lowerStmt
    exact lowerAssign_safe h.1 h.2 op compound h'.span
  | evaluate h' v =>
    unfold lowerStmt
    exact lowerExpr_safe h .invalid
  | giveBack h' v =>
    unfold lowerStmt
    exact ⟨(lowerGiveBack_fine hinside h h'.span).loose⟩
  | leave h' =>
    unfold lowerStmt
    exact lowerJump_safe h'.span "break" fun l => by simp
  | next h' =>
    unfold lowerStmt
    exact lowerJump_safe h'.span "continue" fun l => by simp
  | choose h' arms n otherwise =>
    obtain ⟨hsome, harms, hotherwise⟩ := h
    have := lowerBlock_safe hinside hotherwise
    unfold lowerStmt
    simp only [hsome, Bool.false_eq_true, if_false]
    refine ⟨.newLabel_bind fun exit => ?_⟩
    refine .bind ((lowerArms_fine hinside exit _ harms).amid (by simp)) fun _ =>
      .bind .safe fun _ => ?_
    exact .bind (.place .head) fun _ => .pure _
  | loop h' e body =>
    have := lowerBlock_safe hinside h.2
    unfold lowerStmt
    refine ⟨.newLabel_bind fun top => .newLabel_bind fun exit =>
      .bind (.place (.tail .head)) fun _ => ?_⟩
    refine .bind ((branchOn_fine h.1 false exit).amid (by simp)) fun _ => ?_
    refine .bind ((withinLoop_fine _ _).amid (by simp)) fun _ => ?_
    exact .bind (.jumpTo (by simp)) fun _ => .place .head
  | count h' s first last down body =>
    unfold lowerStmt
    have := lowerBlock_moves body
    exact lowerCount_safe h.1 h.2.1 h.2.2.1 down (lowerBlock_safe hinside h.2.2.2)

theorem lowerBlock_safe (hinside : c.inside = true) {b : Block} (h : b.WellFormed p) :
    Safe c (lowerBlock b) := by
  cases b with
  | absent => exact inferInstanceAs (Safe c (pure ()))
  | of ss n m => exact lowerStmts_safe hinside h

theorem lowerStmts_safe (hinside : c.inside = true) {ss : List Stmt} (h : Stmt.AllWellFormed p ss) :
    Safe c (lowerStmts ss) := by
  cases ss with
  | nil => exact inferInstanceAs (Safe c (pure ()))
  | cons s ss =>
    have := lowerStmt_safe hinside h.2.1
    have := lowerStmts_safe hinside h.2.2
    unfold lowerStmts
    infer_instance

theorem lowerArms_fine (hinside : c.inside = true) (exit : LabelId)
    (hasLast : Bool) {arms : List Arm}
    (h : Arm.AllWellFormed p arms) : Fine c false [exit] [] (lowerArms exit hasLast arms) [] := by
  cases arms with
  | nil => exact .pure ()
  | cons arm arms =>
    obtain ⟨e, body⟩ := arm
    have := lowerBlock_safe hinside h.2.1
    have hrest := lowerArms_fine hinside exit hasLast h.2.2
    unfold lowerArms
    dsimp only
    refine .ite (fun _ => ?_) fun _ => ?_
    · exact .bind (branchOn_fine h.1 false exit) fun _ => .bind .safe fun _ => hrest
    · refine .newLabel_bind fun next =>
        .bind ((branchOn_fine h.1 false next).amid (by simp)) fun _ => ?_
      refine .bind .safe fun _ => .bind (.jumpTo (by simp)) fun _ =>
        .bind (.place .head) fun _ => ?_
      exact hrest.amid (by simp)

end

end Breadbin.Lowering

/-!
## The code of a program in order

Each function binds its label and ends with a return, whether its last statement is tagged as one or
not.  The start of the program and the functions together bind the labels of all functions.
-/

namespace Breadbin.Lowering

open Assembly Emission

variable {p : Program} {c : Setting p} {α β : Type} {e : Bool} {K M N : List LabelId}

namespace Fine

/-! ## What writes nothing -/

/-- What follows may do anything but write. -/
theorem bind_quiet {x : Lower α} {f : α → Lower β} (hx : Fine c e K M x N)
    (hf : ∀ a, Fine c false K N (f a) N)
    (hquiet : ∀ a p s, (perform (f a) p s).2.workspace = s.workspace) :
    Fine c e K M (x >>= f) N where
  moves := (hx.bind hf).moves
  lands {s U} hs hnear := by
    have hkeeps := hx.moves.moves p s
    have hfirst : Lands (perform x p s) fun _ s' => (Orderly c s' (N ++ U) ∧
        (e = true → s'.workspace.stream.Followed)) ∧ s'.workspace.Near c.far K := by
      refine ⟨fun few => ?_⟩
      have hlands := (hx.lands hs hnear).outcome few
      rcases hperform : perform x p s with ⟨_ | a, s'⟩
      · rwa [hperform] at hlands
      · rw [hperform] at hlands hkeeps
        exact ⟨hlands, hnear.keeps hkeeps.workspace⟩
    refine hfirst.bind (fun a s' _ => ((hf a).moves.moves p s').toFollows) ?_
    intro a s' ⟨⟨hs', hfollowed⟩, hnear'⟩
    refine ((hf a).lands hs' hnear').mono fun b h => ⟨h.1, fun he => ?_⟩
    rw [hquiet a p s']
    exact hfollowed he

/-- A handler passes failures on. -/
theorem tryCatch {x : Lower α} {handle : LoweringError → Lower α} (hx : Fine c e K M x N)
    (hmoves : ∀ err, Moves Stays (handle err))
    (hhandle : ∀ err s, err.isShortage = true →
      ∃ err', (perform (handle err) p s).1 = .error err' ∧ err'.isShortage = true) :
    Fine c e K M (MonadExcept.tryCatch x handle) N where
  moves :=
    have := hx.moves
    inferInstance
  lands hs hnear := (hx.lands hs hnear).tryCatch (fun _ => inferInstance) hhandle

end Fine

instance (scope : Trace.Scope) (name : String) : Safe c (openSpan scope name) :=
  ⟨⟨inferInstance, fun hs _ => ⟨fun _ => ⟨{ hs with }, nofun⟩⟩⟩⟩

instance (span : Trace.OpenSpan) (detail : String) : Safe c (closeSpan span detail) :=
  .modify (fun _ => .of_eq rfl rfl rfl rfl rfl rfl rfl rfl) fun _ _ hs => { hs with }

/-- Recording a pass changes nothing about it. -/
theorem pass_fine (name : String) {body : Lower Unit} (h : Fine c e K M body N) :
    Fine c e K M (pass name body) N := by
  unfold pass
  refine .bind .safe fun span => .tryCatch ?_ (fun _ => inferInstance) ?_
  · exact h.bind_quiet (fun _ => .safe) fun _ _ _ => rfl
  · exact fun err _ herr => ⟨err, rfl, herr⟩

/-! ## Functions -/

/-- Statements of which the last one is tagged to leave the function end with a return. -/
theorem lowerStmts_fine (hinside : c.inside = true) {ss : List Stmt} (h : Stmt.AllWellFormed p ss)
    (hlast : (ss.getLast?.any fun s => s.tag == Stmt.giveBackTag) = true) :
    Fine c true [] [] (lowerStmts ss) [] := by
  induction ss with
  | nil => cases hlast
  | cons s ss ih =>
    obtain ⟨htag, hs, hss⟩ := h
    unfold lowerStmts
    cases ss with
    | nil =>
      have htagged : s.tag = Stmt.giveBackTag := by simpa using hlast
      cases s with
      | giveBack h' v =>
        unfold lowerStmt lowerStmts
        exact (lowerGiveBack_fine hinside hs h'.span).bind_quiet (fun _ => .pure _) fun _ _ _ => rfl
      | _ => cases htag htagged
    | cons s' ss =>
      have := lowerStmt_safe hinside hs
      exact .bind .safe fun _ => ih hss (by simpa using hlast)

/-- A function binds its label and ends with a return. -/
theorem functionBody_fine {f : Function} (hf : f ∈ p.functions.items) {l : LabelId}
    (hl : c.functions.lookup f.id = some l) : Fine c true [] [l] (functionBody f) [] where
  moves := inferInstance
  lands {s U} hs hnear := by
    have hbody := c.wellFormed.bodies f hf
    have hblock := lowerBlock_safe (c := c.inner) rfl hbody
    have hinner : Fine c.inner true [] [l] (do
        place l
        try lowerBlock f.body catch e => throw (.inFunction f.name e)
        if !endsWithReturn f.body then op .rts) [] := by
      have hcaught {solid : Bool} (h : Fine c.inner solid [] [] (lowerBlock f.body) []) :
          Fine c.inner solid [] []
              (tryCatch (lowerBlock f.body) fun e => throw (.inFunction f.name e)) [] :=
        h.tryCatch (fun _ => inferInstance) fun err _ herr => ⟨.inFunction f.name err, rfl, herr⟩
      refine .bind (.place .head) fun _ => ?_
      cases hend : endsWithReturn f.body with
      | false => exact .bind (hcaught hblock.fine) fun _ => .op rfl
      | true =>
        refine .bind_quiet (hcaught ?_) (fun _ => .pure _) fun _ _ _ => rfl
        unfold lowerBlock
        cases hb : f.body with
        | absent =>
          rw [hb] at hend
          cases hend
        | of ss n m =>
          rw [hb] at hend hbody
          exact lowerStmts_fine rfl hbody hend
    have hentered : Orderly c.inner { s with current := some f, loops := [] } ([l] ++ U) :=
      { hs with current := fun _ => rfl, loops := nofun }
    unfold functionBody
    rw [perform_get_bind, hs.functions, hl]
    refine (hinner.lands hentered hnear).mono fun _ ⟨hs', hfollowed⟩ => ⟨?_, hfollowed⟩
    exact { hs' with current := fun _ => hs'.current rfl }

theorem lowerFunction_fine (houtside : c.inside = false) {f : Function} (hf : f ∈ p.functions.items)
    {l : LabelId} (hl : c.functions.lookup f.id = some l) :
    Fine c true [] [l] (lowerFunction f) [] := by
  have hleave : Safe c (modify fun s => { s with current := none } : Lower PUnit) :=
    .modify (fun _ => .of_eq rfl rfl rfl rfl rfl rfl rfl rfl) fun _ _ hs =>
      { hs with current := fun h => absurd (houtside.symm.trans h) nofun }
  unfold lowerFunction
  refine .bind .safe fun span =>
    .bind_quiet (.tryCatch (functionBody_fine hf hl) ?_ ?_) (fun _ => .safe) ?_
  · intro err
    infer_instance
  · exact fun err _ herr => ⟨err, rfl, herr⟩
  · exact fun _ _ _ => rfl

/-- The label of a function. -/
def Setting.label (c : Setting p) (f : Function) : LabelId := (c.functions.lookup f.id).getD .none

theorem Setting.lookup_label (c : Setting p) {f : Function} (hf : f ∈ p.functions.items) :
    c.functions.lookup f.id = some (c.label f) := by
  obtain ⟨l, hl⟩ := c.labelled f hf
  simp [Setting.label, hl]

/-- Behind code that has bytes, functions bind their labels and end with bytes. -/
theorem functions_fine (houtside : c.inside = false) {fs : List Function}
    (hfs : fs ⊆ p.functions.items) {x : Lower Unit} (hx : Fine c true K M x (fs.map c.label)) :
    Fine c true K M (x >>= fun _ => fs.forM lowerFunction) [] := by
  induction fs generalizing x with
  | nil => exact hx.bind_quiet (fun _ => .pure _) fun _ _ _ => rfl
  | cons f fs ih =>
    obtain ⟨hf, hrest⟩ := List.cons_subset.1 hfs
    have hfunction := (lowerFunction_fine houtside hf (c.lookup_label hf)).frame (fs.map c.label)
    have hthen : Fine c true K M (x >>= fun _ => lowerFunction f) (fs.map c.label) :=
      hx.bind fun _ => hfunction.more (List.nil_subset K)
    have hall := ih hrest hthen
    rw [bind_assoc] at hall
    exact hall

/-! ## The start of the program -/

theorem initialise_safe {g : Declaration} (hg : g ∈ p.globals.items) : Safe c (initialise g) where
  fine := by
    have hdeclared : g.symbol ∈ p.declared := List.mem_append_left _ (List.mem_map_of_mem hg)
    have : Declared p g.symbol := ⟨(c.wellFormed.declared _).1 hdeclared⟩
    unfold initialise
    refine .ite (fun hpresent => ?_) fun _ => .pure _
    have hvalue := (c.wellFormed.values g hg).resolve_left (by simpa using hpresent)
    refine .bind .safe fun s => .ite (fun _ => .safe) fun _ => ?_
    have := lowerExpr_safe (c := c) hvalue s.type
    exact .bind .safe fun _ => .symbolRef_bind g.symbol fun a => .safe

theorem Fine.read_bind {f : Program → Lower β} (moves : Moves Stays (read >>= f))
    (hf : Fine c e K M (f p) N) : Fine c e K M (read >>= f) N where
  moves := moves
  lands hs hnear := hf.lands hs hnear

instance : Safe c initialiseGlobals where
  fine := by
    unfold initialiseGlobals
    refine .bind .safe fun s => .bind .safe fun _ => .read_bind inferInstance ?_
    exact (Safe.forM_mem fun g hg => initialise_safe hg).fine

theorem callEntry_safe {f : Function} (hf : f ∈ p.functions.items) :
    Safe c (do write (.callLabel (((← get).functions.lookup f.id).getD .none))) where
  fine := .of_state inferInstance fun s U hs => by
    have hlabel : c.label f ∈ c.functions.map Prod.snd := by
      obtain ⟨_, _, hfunctions, -⟩ := List.lookup_eq_some_iff.1 (c.lookup_label hf)
      simp [hfunctions]
    refine ⟨[c.label f], write (.callLabel (c.label f)), ?_, ?_,
      .loose (.write (.callLabel (by simp)))⟩
    · intro l hl
      obtain rfl := List.mem_singleton.1 hl
      exact hs.callable _ hlabel
    · rw [perform_get_bind, hs.functions]
      rfl

/-- The code of a whole program binds the labels of all functions. -/
theorem lowerCode_fine (houtside : c.inside = false) {entry : Option Function}
    (hentry : ∀ f ∈ entry, f ∈ p.functions.items) :
    Fine c true [] (p.functions.items.map c.label) (lowerCode entry) [] := by
  have hfunctions : Fine c true [] (p.functions.items.map c.label) (do
      op .rts
      p.functions.items.forM lowerFunction) [] :=
    functions_fine houtside (List.Subset.refl _) (.op rfl)
  unfold lowerCode
  refine .read_bind (inferInstanceAs (Moves Stays (lowerCode entry))) <| .bind .safe fun _ => ?_
  cases entry with
  | none => exact .ite (fun _ => .bind .safe fun _ => hfunctions) fun _ => hfunctions
  | some f =>
    have := callEntry_safe (c := c) (hentry f rfl)
    have hstart : Fine c true [] (p.functions.items.map c.label) (do
        write (.callLabel (((← get).functions.lookup f.id).getD .none))
        op .rts
        p.functions.items.forM lowerFunction) [] := by
      rw [← bind_assoc]
      exact .bind .safe fun _ => hfunctions
    exact .ite (fun _ => .bind .safe fun _ => hstart) fun _ => hstart

end Breadbin.Lowering
