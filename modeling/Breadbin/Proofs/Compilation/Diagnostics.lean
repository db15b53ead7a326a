import Breadbin.Proofs.Lowering.Moves

/-!
# What a compilation makes of lowering

The image, the fault and the slots of a compilation are read off the outcome of lowering and the
state that it leaves.
-/

namespace Breadbin

namespace Program

/-- The program that does nothing. -/
def idle : Program :=
  { functions := .of [{ id := 1, name := mainName, result := .void }], entry := 1 }

end Program

namespace Compilation

open Lowering

variable (p : Program) (o : Options) (tracer : Trace.Tracer) (parent : Nat)

/-- What lowering a whole program comes to, and the state that it leaves. -/
def lowered : Except LoweringError Image × Emission :=
  let (tracer, span) := tracer.openSpan .program ("mos:" ++ Text.shown p.name) parent
  lower p (initialEmission o.target (.ofLimit o.mostDiagnostics) tracer span)

theorem lowered_eq : ∃ opened span, lowered p o tracer parent =
    perform lowerProgram p (initialEmission o.target (.ofLimit o.mostDiagnostics) opened span) :=
  ⟨_, _, rfl⟩

/-- The state that lowering leaves comes from the initial one. -/
theorem lowered_follows : ∃ opened span, Emission.Follows
    (initialEmission o.target (.ofLimit o.mostDiagnostics) opened span)
    (lowered p o tracer parent).2 := by
  have hmoves : Moves Emission.Follows lowerProgram := inferInstance
  obtain ⟨opened, span, hlowered⟩ := lowered_eq p o tracer parent
  exact ⟨opened, span, hlowered ▸ hmoves.moves p _⟩

variable {o}

theorem compile_eq (htarget : o.target.error? = none) :
    (compile (some p) o tracer parent).slots =
        (lowered p o tracer parent).2.allocator.slots.toList ∧
      (∀ e, (compile (some p) o tracer parent).fault = some e ↔
        (lowered p o tracer parent).1 = .error e) ∧
      (compile (some p) o tracer parent).image =
        if (lowered p o tracer parent).2.reports.bag.hasErrors then none
        else (lowered p o tracer parent).1.toOption := by
  have hcompile : compile (some p) o tracer parent = ofProgram p o tracer parent := by
    simp [compile, htarget]
  rw [hcompile]
  rcases hopen : tracer.openSpan .program ("mos:" ++ Text.shown p.name) parent with ⟨opened, span⟩
  rcases hlower : lower p (initialEmission o.target (.ofLimit o.mostDiagnostics) opened span)
    with ⟨result, s⟩
  have hlowered : lowered p o tracer parent = (result, s) := by
    simp only [lowered, hopen, hlower]
  simp only [ofProgram, hopen, hlower, hlowered]
  cases result with
  | error fault => simp [Except.toOption]
  | ok image => cases s.reports.bag.hasErrors <;> simp [Except.toOption]

variable {p tracer parent}

/-- Only for an accepted memory map there is an image: the one that lowering comes to. -/
theorem image_eq_some {image : Image} (h : (compile (some p) o tracer parent).image = some image) :
    o.target.error? = none ∧ (lowered p o tracer parent).1 = .ok image := by
  cases htarget : o.target.error? with
  | some e => simp [compile, htarget] at h
  | none =>
    rw [(compile_eq p tracer parent htarget).2.2] at h
    split at h
    · cases h
    · cases hresult : (lowered p o tracer parent).1 with
      | error fault => rw [hresult] at h; cases h
      | ok linked =>
        rw [hresult] at h
        obtain rfl := Option.some.inj h
        exact ⟨rfl, rfl⟩

end Compilation

end Breadbin

/-!
## When there is an image

A bag with a limit keeps the first reports and refuses the rest, so whether a compilation found
errors is decided on the first reports alone.  With room for the first error there is an image
exactly if there is no fault and no error at all.
-/

namespace Breadbin

/-- Whether a diagnostic is an error. -/
def Diagnostic.isError (d : Diagnostic) : Bool := 2 ≤ d.severity.level

/-- A diagnostic without its notes, which do not count when reports are compared. -/
def Diagnostic.key (d : Diagnostic) : Diagnostic := { d with notes := [] }

/-! ## Bags -/

namespace Bag

theorem le_foldl_max (ds : List Diagnostic) (n w : UInt8) :
    n ≤ ds.foldl (fun w d => max w d.severity.level) w ↔
      n ≤ w ∨ ∃ d ∈ ds, n ≤ d.severity.level := by
  induction ds generalizing w with
  | nil => simp
  | cons d ds ih =>
    have hmax : n ≤ max w d.severity.level ↔ n ≤ w ∨ n ≤ d.severity.level := by
      show n ≤ (if w ≤ d.severity.level then d.severity.level else w) ↔ _
      simp only [UInt8.le_iff_toNat_le]
      split <;> omega
    rw [List.foldl_cons, ih, hmax]
    simp [or_assoc]

/-- A bag has errors if one of the kept diagnostics is an error. -/
theorem hasErrors_iff (b : Bag) : b.hasErrors = true ↔ ∃ d ∈ b.items.toList, d.isError = true := by
  rw [hasErrors, worst, ← Array.foldl_toList, decide_eq_true_eq, le_foldl_max]
  simp [Diagnostic.isError]

@[simp] theorem add_limit (b : Bag) (d : Diagnostic) : (b.add d).limit = b.limit := by
  rw [add]
  split <;> rfl

/-- What a bag with this limit keeps of some diagnostics. -/
def firstOf (limit : Option Nat) (ds : List Diagnostic) : List Diagnostic :=
  match limit with
  | none => ds
  | some n => ds.take n

/-- The bag has kept the first of these diagnostics, which are without their notes. -/
def Keeps (b : Bag) (ds : List Diagnostic) : Prop :=
  b.items.toList.map Diagnostic.key = firstOf b.limit ds

theorem Keeps.add {b : Bag} {ds : List Diagnostic} (h : b.Keeps ds) (d : Diagnostic) :
    (b.add d).Keeps (ds ++ [d.key]) := by
  obtain ⟨items, limit, dropped⟩ := b
  cases limit with
  | none =>
    have h : items.toList.map Diagnostic.key = ds := h
    simp [Keeps, Bag.add, isFull, firstOf, h]
  | some n =>
    have h : items.toList.map Diagnostic.key = ds.take n := h
    have hlength := congrArg List.length h
    simp only [List.length_map, Array.length_toList, List.length_take] at hlength
    by_cases hfull : n ≤ items.size
    · have htake : (ds ++ [d.key]).take n = ds.take n := List.take_append_of_le_length (by omega)
      simp [Keeps, Bag.add, isFull, firstOf, hfull, h, htake]
    · rw [List.take_of_length_le (by omega)] at h
      have htake : (ds ++ [d.key]).take n = ds ++ [d.key] :=
        List.take_of_length_le (by simp; omega)
      simp [Keeps, Bag.add, isFull, firstOf, hfull, h, htake]

/-- A bag that has kept the first of some diagnostics has errors if an error is among them. -/
theorem Keeps.hasErrors_iff {b : Bag} {ds : List Diagnostic} (h : b.Keeps ds) :
    b.hasErrors = true ↔ ∃ d ∈ firstOf b.limit ds, d.isError = true := by
  rw [Bag.hasErrors_iff, ← h]
  simp [Diagnostic.isError, Diagnostic.key]

end Bag

/-! ## Reports -/

namespace Reports

/-- Everything that was delivered, whether the bag kept it or not. -/
def delivered (r : Reports) : List Diagnostic := (r.seen.getD []).reverse

/-- The channel filters, and its bag has kept the first diagnostics that were delivered. -/
structure Filters (limit : Int) (r : Reports) : Prop where
  seen : r.seen.isSome = true
  limit : r.bag.limit = (Bag.ofLimit limit).limit
  kept : r.bag.Keeps r.delivered

variable {limit : Int} {r : Reports}

theorem filtering_filters (limit : Int) : (filtering (.ofLimit limit)).Filters limit := by
  refine ⟨rfl, rfl, ?_⟩
  simp only [Bag.Keeps, filtering, delivered, Bag.firstOf, Bag.ofLimit]
  split <;> simp

theorem Filters.report (h : r.Filters limit) (d : Diagnostic) : (r.report d).Filters limit := by
  obtain ⟨seen, hseen⟩ := Option.isSome_iff_exists.1 h.seen
  have hkept := h.kept.add d
  rw [delivered, hseen] at hkept
  simp only [Reports.report, hseen]
  split
  · exact h
  · exact ⟨rfl, by simpa using h.limit, by simpa [delivered, Diagnostic.key] using hkept⟩

/-- After a report it is among the delivered ones: what is filtered out was delivered before. -/
theorem Filters.mem_delivered_report (h : r.Filters limit) (d x : Diagnostic) :
    x ∈ (r.report d).delivered ↔ x ∈ r.delivered ∨ x = d.key := by
  obtain ⟨seen, hseen⟩ := Option.isSome_iff_exists.1 h.seen
  simp only [Reports.report, hseen]
  split
  · rename_i hmem
    have hmem : d.key ∈ seen := by simpa [Diagnostic.key] using hmem
    simp only [delivered, hseen, Option.getD_some, List.mem_reverse]
    exact ⟨Or.inl, fun hx => hx.elim id fun hx => hx ▸ hmem⟩
  · simp [delivered, hseen, Diagnostic.key, or_comm]

theorem Filters.reportAll (h : r.Filters limit) (ds : List Diagnostic) :
    (r.reportAll ds).Filters limit := by
  rw [Reports.reportAll]
  induction ds generalizing r with
  | nil => exact h
  | cons d ds ih => exact ih (h.report d)

end Reports

/-! ## Compilations -/

namespace Compilation

open Lowering

variable (p : Program) (o : Options) (tracer : Trace.Tracer) (parent : Nat)

/-- Everything that is reported while a program is lowered, also what the bag has no room for. -/
def reported : List Diagnostic := (lowered p o tracer parent).2.reports.delivered

theorem lowered_filters : (lowered p o tracer parent).2.reports.Filters o.mostDiagnostics := by
  obtain ⟨_, _, hfollows⟩ := lowered_follows p o tracer parent
  obtain ⟨ds, hds⟩ := hfollows.reports
  rw [hds]
  exact (Reports.filtering_filters _).reportAll ds

variable {p o tracer parent}

/-- There is an image if lowering succeeds and no error is among the reports that the bag keeps:
an error that it refuses is not noticed. -/
theorem image_isSome_iff_firstOf (htarget : o.target.error? = none) :
    (compile (some p) o tracer parent).image.isSome = true ↔
      (compile (some p) o tracer parent).fault = none ∧
        ∀ d ∈ Bag.firstOf (Bag.ofLimit o.mostDiagnostics).limit (reported p o tracer parent),
          d.isError = false := by
  have hfilters := lowered_filters p o tracer parent
  have herrors : (lowered p o tracer parent).2.reports.bag.hasErrors = true ↔
      ∃ d ∈ Bag.firstOf (Bag.ofLimit o.mostDiagnostics).limit (reported p o tracer parent),
        d.isError = true := by
    rw [hfilters.kept.hasErrors_iff, hfilters.limit]
    rfl
  obtain ⟨-, hfault, himage⟩ := compile_eq p tracer parent htarget
  have hnone : (compile (some p) o tracer parent).fault = none ↔
      (lowered p o tracer parent).1.toOption.isSome = true := by
    rw [Option.eq_none_iff_forall_ne_some]
    simp only [ne_eq, hfault]
    cases (lowered p o tracer parent).1 <;> simp [Except.toOption]
  rw [himage, hnone]
  cases herror : (lowered p o tracer parent).2.reports.bag.hasErrors with
  | true => simpa using fun _ => herrors.1 herror
  | false =>
    have hclean := mt herrors.2 (by simp [herror])
    simpa using fun _ => hclean

/-- Whether a bag with this limit has room for the first error among some reports. -/
def RoomForError (limit : Int) (ds : List Diagnostic) : Prop :=
  limit ≤ 0 ∨ ∀ pre d post, ds = pre ++ d :: post → d.isError = true →
    (∀ x ∈ pre, x.isError = false) → (pre.length : Int) < limit

theorem exists_error_firstOf {limit : Int} {ds : List Diagnostic} (hroom : RoomForError limit ds) :
    (∃ d ∈ Bag.firstOf (Bag.ofLimit limit).limit ds, d.isError = true) ↔
      ∃ d ∈ ds, d.isError = true := by
  by_cases hnone : limit ≤ 0
  · simp [Bag.ofLimit, Bag.firstOf, hnone]
  · simp only [Bag.ofLimit, Bag.firstOf, hnone, if_false]
    refine ⟨fun ⟨d, hd, herror⟩ => ⟨d, List.mem_of_mem_take hd, herror⟩, fun ⟨d, hd, herror⟩ => ?_⟩
    have hfind : ds.find? Diagnostic.isError ≠ none := by
      simpa using ⟨d, hd, herror⟩
    obtain ⟨first, hfirst⟩ := Option.ne_none_iff_exists'.1 hfind
    obtain ⟨herror, pre, post, rfl, hpre⟩ := List.find?_eq_some_iff_append.1 hfirst
    have hlength := hroom.resolve_left hnone pre first post rfl herror (by simpa using hpre)
    refine ⟨first, ?_, herror⟩
    have hroom : limit.toNat = pre.length + (limit.toNat - pre.length - 1 + 1) := by omega
    rw [hroom, List.take_append]
    simp

/-- With room for the first error there is an image exactly if there is no fault and no error. -/
theorem image_isSome_iff (htarget : o.target.error? = none)
    (hroom : RoomForError o.mostDiagnostics (reported p o tracer parent)) :
    (compile (some p) o tracer parent).image.isSome = true ↔
      (compile (some p) o tracer parent).fault = none ∧
        ∀ d ∈ reported p o tracer parent, d.isError = false := by
  have herrors := exists_error_firstOf hroom
  rw [image_isSome_iff_firstOf htarget]
  simpa using fun _ => not_congr herrors

theorem roomForError_of_length_le {limit : Int} {ds : List Diagnostic}
    (h : (ds.length : Int) ≤ limit) : RoomForError limit ds := by
  refine .inr fun pre d post hds _ _ => ?_
  rw [hds, List.length_append, List.length_cons] at h
  omega

/-- A program whose second function calls itself, and whose first one stores a text in a byte. -/
def clash : Program :=
  let call : Stmt := .evaluate {} (.call { type := .void } 2 [] false)
  let store : Stmt :=
    .assign {} (.var { type := .u8 } 1)
      (.literal { type := .string } { kind := .string, text := [120] }) .add false
  { symbols := .of [{ name := [97], type := .u8 }]
    globals := .of [{ symbol := 1 }]
    functions := .of [
      { id := 1, name := Program.mainName, result := .void, body := .of [call, store] false .none },
      { id := 2, name := [98], result := .void, body := .of [call] false .none }]
    entry := 1 }

/-- Behind the warning the bag has room for the error. -/
theorem clash_image_isSome :
    (reported clash { mostDiagnostics := 2 } .off 0).map Diagnostic.isError = [false, true] ∧
      ((compile (some clash) { mostDiagnostics := 2 } .off 0).image.isSome = true ↔
        (compile (some clash) { mostDiagnostics := 2 } .off 0).fault = none ∧
          ∀ d ∈ reported clash { mostDiagnostics := 2 } .off 0, d.isError = false) := by
  have hreported : (reported clash { mostDiagnostics := 2 } .off 0).map Diagnostic.isError =
      [false, true] := by
    decide +kernel
  have hlength := congrArg List.length hreported
  rw [List.length_map] at hlength
  exact ⟨hreported,
    image_isSome_iff (by decide) (roomForError_of_length_le (by rw [hlength]; decide))⟩

end Compilation

end Breadbin
