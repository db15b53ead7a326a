import Breadbin.Proofs.Compilation.Regions
import Breadbin.Proofs.Lowering.Declarations
import Breadbin.Proofs.Lowering.Functions

/-!
# What a compilation fails for

However many errors a well-formed program has, they are reported: every label that is asked for is
bound once, every instruction has an encoding, and nothing that lowering looks for is missing.  What
is left to fail for is room, among the variables or in the image.
-/

set_option synthInstance.maxSize 100000
set_option synthInstance.maxHeartbeats 100000

namespace Breadbin

namespace Lowering

open Assembly Emission

variable {p : Program} {blocks : Nat} {s : Emission}

/-- When all data blocks are gone over, their labels are as they have to be for the blocks to be
written. -/
theorem Laid.numbered (h : Laid p p.declared p.functions.items p.data.items.length s)
    (hp : p.WellFormed) :
    (h.setting hp).Numbered where
  keys := h.keys
  numbers := h.numbers
  aligned := h.aligned

theorem perform_openSpan_bind {β : Type} (scope : Trace.Scope) (name : String)
    (f : Trace.OpenSpan → Lower β) (s : Emission) :
    perform (openSpan scope name >>= f) p s =
      perform (f (s.tracer.openSpan scope name s.span.id).2) p
        { s with tracer := (s.tracer.openSpan scope name s.span.id).1 } := rfl

-- Of the library and of the way images are linked only what is proved about them is used.
attribute [local irreducible] Routine.emitLibrary linkImage

/-- Recording a pass touches nothing but the trace. -/
theorem pass_lands {body : Lower Unit} [Moves Emission.Follows body]
    {Q : Emission → Prop} (name : String)
    (h : ∀ t, Lands (perform body p { s with tracer := t }) fun _ s' =>
      ∀ t', Q { s' with tracer := t' }) :
    Lands (perform (pass name body) p s) fun _ s' => Q s' := by
  have hclose (span : Trace.OpenSpan) (t : Trace.Tracer) :
      Lands (perform (body >>= fun _ => closeSpan span "") p { s with tracer := t }) fun _ s' =>
          Q s' :=
    (h t).andThen fun _ s' hs' => .modify (hs' _)
  unfold pass
  rw [perform_openSpan_bind]
  exact (hclose _ _).tryCatch (fun _ => inferInstance) fun err _ herr => ⟨err, rfl, herr⟩

/-- What is laid down does not depend on the trace. -/
theorem Laid.traced {ids : List SymbolId} {fs : List Function} (h : Laid p ids fs blocks s)
    (t : Trace.Tracer) : Laid p ids fs blocks { s with tracer := t } :=
  { h with }

/-- Reports leave what is laid down alone. -/
theorem Laid.reported {ids : List SymbolId} {fs : List Function} (h : Laid p ids fs blocks s)
    (ds : List Function) (d : Function → Diagnostic) :
    Lands (perform (ds.forM fun f => report (d f)) p s) fun _ s' => Laid p ids fs blocks s' :=
  .forM (P := fun _ s' => Laid p ids fs blocks s') (fun _ _ _ _ _ hs => .modify { hs with }) h

/-- The function a program starts with is one of its functions. -/
theorem mem_of_entry {f : Function} (h : p.entry? = some f) : f ∈ p.functions.items := by
  obtain ⟨i, -, hf⟩ := Option.bind_eq_some_iff.1 h
  exact List.mem_of_getElem? hf

/-- The code of the program binds the labels of all functions. -/
theorem lowerPass_lands {c : Setting p} (houtside : c.inside = false)
    (h : Orderly c s (c.functions.map Prod.snd))
    (hlabels : (p.functions.items.map c.label).Perm (c.functions.map Prod.snd)) :
    Lands (perform (pass "lower" (lowerCode p.entry?)) p s) fun _ s' =>
      Orderly c s' [] ∧ s'.workspace.stream.Followed := by
  have hcode : Fine c true [] (p.functions.items.map c.label) (lowerCode p.entry?) [] :=
    lowerCode_fine houtside fun f hf => mem_of_entry hf
  refine ((pass_fine "lower" hcode).lands (U := [])
    ?_ (fun _ hl => absurd hl List.not_mem_nil)).mono fun _ h => ⟨h.1, h.2 rfl⟩
  rw [List.append_nil]
  exact h.perm hlabels.symm

/-- Behind the code the routines, the constants and the data blocks are written. -/
theorem runtimePass_lands {c : Setting p} (hc : c.Numbered) (h : Orderly c s [])
    (hend : s.workspace.stream.Followed) :
    Lands (perform (pass "runtime" lowerTail) p s) fun _ s' => Linkable s'.workspace.stream := by
  refine pass_lands _ fun t => ?_
  have htraced : Orderly c { s with tracer := t } [] := { h with }
  exact (lowerTail_lands hc htraced hend).mono fun _ hlinks _ => hlinks

/-- The link passes a failure on. -/
theorem linkPass_lands (h : Linkable s.workspace.stream) :
    Lands (perform (do
      let span ← openSpan .pass "link"
      let image ←
        try linkImage
        catch e =>
          closeSpan span e.message
          throw e
      closeSpan span ""
      return image) p s) fun _ s' => Linkable s'.workspace.stream := by
  have hcaught (span : Trace.OpenSpan) (t : Trace.Tracer) : Lands (perform (do
      try linkImage
      catch e =>
        closeSpan span e.message
        throw e) p { s with tracer := t }) fun _ s' => Linkable s'.workspace.stream :=
    (linkImage_lands (s := { s with tracer := t }) h).tryCatch (fun _ => inferInstance)
      fun err _ herr => ⟨err, rfl, herr⟩
  rw [perform_openSpan_bind]
  exact (hcaught _ _).andThen fun _ _ hlinks => ⟨fun _ => hlinks⟩

/-- Lowering a well-formed program, starting with nothing declared, fails only for want of room. -/
theorem lowerProgram_lands (hp : p.WellFormed) (h : Laid p [] [] 0 s) :
    Lands (perform lowerProgram p s) fun _ s' => Linkable s'.workspace.stream := by
  have hrest (s : Emission) (h : Laid p p.declared p.functions.items 0 s) : Lands (perform (do
      warnRecursion
      declareData [] p.data.items.zipIdx
      let s ← get
      write (.data s.workspace.target.stub.1)
      write (.onStream fun s => (s.placeLabel startLabel).1)
      pass "lower" (lowerCode p.entry?)
      pass "runtime" lowerTail
      let span ← openSpan .pass "link"
      let image ←
        try linkImage
        catch e =>
          closeSpan span e.message
          throw e
      closeSpan span ""
      return image) p s) fun _ s' => Linkable s'.workspace.stream := by
    have hwarned : Lands (perform warnRecursion p s) fun _ s' =>
        Laid p p.declared p.functions.items 0 s' := h.reported _ _
    refine hwarned.andThen fun _ s₁ hs₁ => ?_
    refine (hs₁.declareData hp [] List.drop_zero).andThen fun _ s₂ hs₂ => ?_
    rw [Nat.zero_add] at hs₂
    have hstub : Lands (perform (write (.data s₂.workspace.target.stub.1)) p s₂) fun _ s' =>
        s' = { s₂ with workspace := { s₂.workspace with
          stream := s₂.workspace.stream.data s₂.workspace.target.stub.1 } } := .write fun _ => rfl
    rw [perform_get_bind]
    refine hstub.andThen fun _ s₃ hs₃ => ?_
    have hstart : Lands (perform (write (.onStream fun s => (s.placeLabel startLabel).1)) p s₃)
        fun _ s' =>
        Orderly (hs₂.setting hp) s' (s₂.functions.map Prod.snd) := by
      subst hs₃
      refine .write fun few => hs₂.orderly hp _ _ ?_
      have hsize : ((s₂.workspace.stream.data s₂.workspace.target.stub.1).placeLabel
          startLabel).1.labels.size =
          s₂.workspace.stream.labels.size + 1 := by
        simp [Stream.placeLabel]
      exact hsize ▸ few
    refine hstart.andThen fun _ s₄ hs₄ => ?_
    refine (lowerPass_lands rfl hs₄ (hs₂.labels_perm hp)).andThen fun _ s₅ hs₅ => ?_
    exact (runtimePass_lands (hs₂.numbered hp) hs₅.1 hs₅.2).andThen fun _ s₆ hs₆ =>
      linkPass_lands hs₆
  have hstorage : Lands (perform (pass "allocate" allocateStorage) p s) fun _ s' =>
      Laid p p.declared p.functions.items 0 s' :=
    pass_lands _ fun t => (allocateStorage_lands hp (h.traced t)).mono fun _ hs' t' => hs'.traced t'
  unfold lowerProgram
  dsimp only
  rw [perform_read_bind]
  refine hstorage.andThen fun _ s₁ hs₁ => ?_
  split
  · unfold reportError report
    rw [perform_modify_bind]
    exact hrest _ { hs₁ with }
  · exact hrest s₁ hs₁

end Lowering

/-- A program with a number that is set to a text. -/
def Program.mistyped : Program :=
  .declaring { name := Text.bytesOf "n", type := .u8 } { type := .string } { kind := .string }

namespace Compilation

variable {p : Program} {o : Options} {tracer : Trace.Tracer} {parent : Nat}

/-- However ill-typed a well-formed program is, on an accepted memory map compiling it fails for
nothing but room.  If it does not fail, no label was bound twice, no instruction lacked an encoding
and every label that is asked for is bound.  Labels are numbered in 32 bits. -/
theorem fault_isShortage (hp : p.WellFormed) (htarget : o.target.error? = none)
    (few : (lowered p o tracer parent).2.workspace.stream.labels.size < 4294967296) :
    (∀ e, (compile (some p) o tracer parent).fault = some e →
      e.code = .outOfVariableSpace ∨ e.code = .imageTooLarge) ∧
    ((compile (some p) o tracer parent).fault = none →
      (lowered p o tracer parent).2.workspace.stream.error = none ∧
        (lowered p o tracer parent).2.workspace.stream.unresolved? = none) := by
  have hroom : o.target.variableBase ≤ o.target.variableLimit := by
    have hlt := Target.base_lt_limit htarget
    rw [UInt16.lt_iff_toNat_lt] at hlt
    rw [UInt16.le_iff_toNat_le]
    exact Nat.le_of_lt hlt
  obtain ⟨-, hfault, -⟩ := compile_eq p tracer parent htarget
  obtain ⟨opened, span, hlowered⟩ := lowered_eq p o tracer parent
  have hinitial := Lowering.Laid.initial (p := p) hroom (.ofLimit o.mostDiagnostics) opened span
  have houtcome := (Lowering.lowerProgram_lands hp hinitial).outcome
  rw [← hlowered] at houtcome
  have hland := houtcome few
  rcases hpair : lowered p o tracer parent with ⟨result, s⟩
  rw [hpair] at hland hfault
  cases result with
  | error e =>
    have hcode : e.code = .outOfVariableSpace ∨ e.code = .imageTooLarge := by
      simpa [LoweringError.isShortage] using hland
    have hfailed := (hfault e).2 rfl
    refine ⟨fun e' he' => ?_, fun hnone => ?_⟩
    · rw [hfailed] at he'
      exact Option.some.inj he' ▸ hcode
    · rw [hfailed] at hnone
      cases hnone
  | ok image =>
    refine ⟨fun e he => ?_, fun _ => ⟨hland.1, hland.2.1⟩⟩
    cases (hfault e).1 he

theorem mistyped_fault : (compile (some .mistyped) {} .off 0).fault = none ∧
    (lowered .mistyped {} .off 0).2.workspace.stream.unresolved? = none := by
  have hwellFormed : Program.mistyped.WellFormed := Program.declaring_wellFormed (by decide) _ _
  have hfault : (compile (some .mistyped) {} .off 0).fault = none := by decide +kernel
  exact ⟨hfault, ((fault_isShortage hwellFormed (by decide) (by decide +kernel)).2 hfault).2⟩

end Compilation

end Breadbin
