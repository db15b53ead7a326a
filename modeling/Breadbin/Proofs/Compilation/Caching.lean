import Breadbin.Build.Outcome
import Breadbin.Proofs.Compilation.Diagnostics
import Breadbin.Proofs.Lowering.Blindness
import Breadbin.Script.World

/-!
# What is found instead of compiling

An image is kept with the diagnostics that its compilation kept.  Compiling finds the same whatever
the limit is and keeps the first of it, so what is found is what compiling anew would give as long
as the earlier compilation kept all that the later one has room for.
-/

namespace Breadbin

/-! ## Diagnostics within a limit -/

namespace Bag

/-- The bag has kept the first of these diagnostics and counted the others. -/
structure Holds (b : Bag) (ds : List Diagnostic) : Prop where
  items : b.items.toList = firstOf b.limit ds
  dropped : b.dropped + b.items.size = ds.length

theorem Holds.add {b : Bag} {ds : List Diagnostic} (h : b.Holds ds) (d : Diagnostic) :
    (b.add d).Holds (ds ++ [d]) := by
  obtain ⟨items, limit, dropped⟩ := b
  obtain ⟨hitems, hdropped⟩ := h
  replace hdropped : dropped + items.size = ds.length := hdropped
  have hsize : items.size = (firstOf limit ds).length := by rw [← hitems, Array.length_toList]
  cases limit with
  | none =>
    have hitems : items.toList = ds := hitems
    simp only [Bag.add, isFull, Bool.false_eq_true, if_false]
    refine ⟨by simp [firstOf, hitems], ?_⟩
    simp only [Array.size_push, List.length_append, List.length_singleton]
    omega
  | some n =>
    have hitems : items.toList = ds.take n := hitems
    have hsize : items.size = min n ds.length := by simpa [firstOf] using hsize
    by_cases hfull : n ≤ items.size
    · have htake : (ds ++ [d]).take n = ds.take n := List.take_append_of_le_length (by omega)
      simp only [Bag.add, isFull, hfull, decide_true, if_true]
      refine ⟨by rw [firstOf, htake, hitems], ?_⟩
      simp only [List.length_append, List.length_singleton]
      omega
    · have htake : (ds ++ [d]).take n = ds ++ [d] := List.take_of_length_le (by simp; omega)
      rw [List.take_of_length_le (by omega)] at hitems
      simp only [Bag.add, isFull, hfull, decide_false, Bool.false_eq_true, if_false]
      refine ⟨by simp [firstOf, htake, hitems], ?_⟩
      simp only [Array.size_push, List.length_append, List.length_singleton]
      omega

/-- Diagnostics are kept as long as there is room for them. -/
theorem foldl_add_holds (limit : Int) (ds : List Diagnostic) :
    (ds.foldl add (.ofLimit limit)).Holds ds ∧ (ds.foldl add (.ofLimit limit)).limit =
      (ofLimit limit).limit := by
  induction ds using List.reverseRecOn with
  | nil =>
    refine ⟨⟨?_, rfl⟩, rfl⟩
    simp only [List.foldl_nil, ofLimit]
    split <;> simp [firstOf]
  | append_singleton ds d ih =>
    rw [List.foldl_append]
    exact ⟨ih.1.add d, (add_limit ..).trans ih.2⟩

end Bag

namespace Reports

/-- What is found when all that is reported is kept. -/
def found (ds : List Diagnostic) : List Diagnostic :=
  ((filtering (.ofLimit 0)).reportAll ds).bag.items.toList

/-- Reports are filtered in the same way whatever the limit of the bag is. -/
theorem filtering_reportAll (limit : Int) (ds : List Diagnostic) :
    ((filtering (.ofLimit limit)).reportAll ds).seen =
      ((filtering (.ofLimit 0)).reportAll ds).seen ∧
      ((filtering (.ofLimit 0)).reportAll ds).seen.isSome ∧
      ((filtering (.ofLimit limit)).reportAll ds).bag =
        (found ds).foldl Bag.add (.ofLimit limit) := by
  induction ds using List.reverseRecOn with
  | nil => exact ⟨rfl, rfl, rfl⟩
  | append_singleton ds d ih =>
    obtain ⟨hseen, hsome, hbag⟩ := ih
    have hunlimited : ((filtering (.ofLimit 0)).reportAll ds).bag.limit = none := by
      have hfollows : ((filtering (.ofLimit 0)).reportAll ds).Filters 0 :=
        (filtering_filters 0).reportAll ds
      exact hfollows.limit
    obtain ⟨seen, hkeys⟩ := Option.isSome_iff_exists.1 hsome
    rw [found, reportAll_concat, reportAll_concat]
    simp only [Reports.report, hseen, hkeys]
    split
    · exact ⟨hseen, hsome, hbag⟩
    · refine ⟨rfl, rfl, ?_⟩
      simp only [Bag.add, Bag.isFull, hunlimited, Bool.false_eq_true, if_false, Array.toList_push,
        List.foldl_append, List.foldl_cons, List.foldl_nil]
      rw [← found, hbag]

end Reports

/-! ## Compiling with another limit -/

namespace Compilation

open Lowering

/-- Lowering comes to the same and finds the same whatever the limit and the tracer are. -/
theorem lowered_alike (p : Program) (t : Target) (limit limit' : Int)
    (tracer tracer' : Trace.Tracer) (parent parent' : Nat) :
    (lowered p ⟨t, limit⟩ tracer parent).1 = (lowered p ⟨t, limit'⟩ tracer' parent').1 ∧
      ∃ ds, (lowered p ⟨t, limit⟩ tracer parent).2.reports =
          (Reports.filtering (.ofLimit limit)).reportAll ds ∧
        (lowered p ⟨t, limit'⟩ tracer' parent').2.reports =
          (Reports.filtering (.ofLimit limit')).reportAll ds := by
  obtain ⟨opened, span, hlowered⟩ := lowered_eq p ⟨t, limit⟩ tracer parent
  obtain ⟨opened', span', hlowered'⟩ := lowered_eq p ⟨t, limit'⟩ tracer' parent'
  have hblind : Blind lowerProgram := inferInstance
  rw [hlowered, hlowered']
  obtain ⟨hresult, hstate⟩ :=
    hblind.alike (.filtering (.ofLimit limit)) (.filtering (.ofLimit limit')) p
    (initialEmission t (.ofLimit limit) opened span)
      (initialEmission t (.ofLimit limit') opened' span')
    ⟨rfl, [], rfl, rfl⟩
  exact ⟨hresult, hstate.delivered⟩

/-- When lowering succeeds, the diagnostics are those that it reported. -/
theorem diagnostics_eq {p : Program} {o : Options} {tracer : Trace.Tracer}
    {parent : Nat} {image : Image}
    (htarget : o.target.error? = none) (h : (lowered p o tracer parent).1 = .ok image) :
    (compile (some p) o tracer parent).diagnostics = (lowered p o tracer parent).2.reports.bag := by
  have hcompile : compile (some p) o tracer parent = ofProgram p o tracer parent := by
    simp [compile, htarget]
  rw [hcompile]
  rcases hopen : tracer.openSpan .program ("mos:" ++ Text.shown p.name) parent with ⟨opened, span⟩
  rcases hlower : lower p (initialEmission o.target (.ofLimit o.mostDiagnostics) opened span)
    with ⟨result, s⟩
  have hlowered : lowered p o tracer parent = (result, s) := by
    simp only [lowered, hopen, hlower]
  obtain rfl : result = .ok image := by simpa [hlowered] using h
  simp only [ofProgram, hopen, hlower, hlowered]
  split <;> rfl

/-- What compiling comes to, and what it finds, whatever the limit is. -/
structure Finds (p : Program) (t : Target) (result : Except LoweringError Image)
    (found : List Diagnostic) :
    Prop where
  image : ∀ limit tracer parent, (compile (some p) ⟨t, limit⟩ tracer parent).image =
    if (found.foldl Bag.add (.ofLimit limit)).hasErrors then none else result.toOption
  diagnostics : ∀ limit tracer parent, result.toOption.isSome →
    (compile (some p) ⟨t, limit⟩ tracer parent).diagnostics = found.foldl Bag.add (.ofLimit limit)

theorem exists_finds (p : Program) (t : Target) (htarget : t.error? = none) :
    ∃ result found, Finds p t result found := by
  refine ⟨(lowered p ⟨t, 0⟩ .off 0).1, (lowered p ⟨t, 0⟩ .off 0).2.reports.bag.items.toList, ?_⟩
  have hall (limit : Int) (tracer : Trace.Tracer) (parent : Nat) :
      (lowered p ⟨t, limit⟩ tracer parent).1 = (lowered p ⟨t, 0⟩ .off 0).1 ∧
        (lowered p ⟨t, limit⟩ tracer parent).2.reports.bag =
          (lowered p ⟨t, 0⟩ .off 0).2.reports.bag.items.toList.foldl Bag.add (.ofLimit limit) := by
    obtain ⟨hresult, ds, hds, hunlimited⟩ := lowered_alike p t limit 0 tracer .off parent 0
    refine ⟨hresult, ?_⟩
    rw [hds, hunlimited]
    exact (Reports.filtering_reportAll limit ds).2.2
  constructor
  · intro limit tracer parent
    obtain ⟨hresult, hbag⟩ := hall limit tracer parent
    rw [(compile_eq p tracer parent (o := ⟨t, limit⟩) htarget).2.2, hresult, hbag]
  · intro limit tracer parent hsome
    obtain ⟨hresult, hbag⟩ := hall limit tracer parent
    cases himage : (lowered p ⟨t, 0⟩ .off 0).1 with
    | error e => rw [himage] at hsome; cases hsome
    | ok image => rw [diagnostics_eq htarget (hresult.trans himage), hbag]

end Compilation

/-! ## Scripts that are carried out -/

namespace Script

variable {α β σ : Type} (answer : (r : Request) → σ → r.Reply × σ)

theorem run_bind (x : Script α) (f : α → Script β) (s : σ) :
    (x >>= f).run answer s = (f (x.run answer s).1).run answer (x.run answer s).2 := by
  induction x generalizing s with
  | done a => rfl
  | ask r next ih => exact ih _ _

end Script

namespace Work

variable {α β : Type}

/-- A script within a session, carried out in memory. -/
def within (x : Work α) (s : Session) (w : World) : (α × Session) × World :=
  (x.run s).run World.answer w

theorem within_bind (x : Work α) (f : α → Work β) (s : Session) (w : World) :
    (x >>= f).within s w = (f (x.within s w).1.1).within (x.within s w).1.2 (x.within s w).2 := by
  rw [within, StateT.run_bind, Script.run_bind]
  rfl

theorem within_pure (a : α) (s : Session) (w : World) :
    (pure a : Work α).within s w = ((a, s), w) := rfl

theorem within_ask (r : Request) (s : Session) (w : World) :
    (ask r).within s w = (((w.answer r).1, s), (w.answer r).2) := rfl

/-- Showing the trace leaves the cache alone. -/
theorem within_showTrace (s : Session) (w : World) : (showTrace.within s w).2.cache = w.cache := by
  unfold showTrace
  rw [within_bind]
  have hget : (get : Work Session).within s w = ((s, s), w) := rfl
  rw [hget]
  cases s.tracer.sink with
  | none => rfl
  | some sink =>
    dsimp only
    split
    · rfl
    · rfl

/-- Recording leaves the cache alone. -/
theorem within_record (f : Trace.Tracer → α × Trace.Tracer) (s : Session) (w : World) :
    ((record f).within s w).1.1 = (f { s.tracer with now := w.time }).1 ∧
      ((record f).within s w).2.cache = w.cache := by
  have hrecord : (record f).within s w = (do
      modify fun s' => { s' with tracer := (f { s.tracer with now := w.time }).2 }
      showTrace
      return (f { s.tracer with now := w.time }).1 : Work α).within s w := rfl
  rw [hrecord, within_bind, within_bind, within_pure]
  exact ⟨rfl, within_showTrace _ _⟩

end Work

/-! ## Calls that share a cache -/

/-- Dropping all entries of one key keeps those of another. -/
theorem lookup_filter_ne {α β : Type} [BEq α] [LawfulBEq α] [DecidableEq α] {key key' : α}
    (hkey : key' ≠ key)
    (entries : List (α × β)) : (entries.filter (·.1 ≠ key)).lookup key' = entries.lookup key' := by
  induction entries with
  | nil => rfl
  | cons e entries ih =>
    rw [List.filter_cons, List.lookup_cons]
    split
    · rw [List.lookup_cons, ih]
    next he =>
      have hne : (key' == e.1) = false := by
        rw [beq_eq_false_iff_ne]
        rintro rfl
        simp [hkey] at he
      rw [hne, ih]

namespace Cache.Store

theorem fetch?_keep (s : Store) (key key' : Bytes) (p : Payload) :
    (s.keep key p).fetch? key' = if key' = key then some p else s.fetch? key' := by
  unfold fetch? keep
  rw [List.lookup_cons]
  by_cases hkey : key' = key
  · simp [hkey]
  · rw [beq_eq_false_iff_ne.2 hkey, if_neg hkey]
    exact congrArg Option.join (lookup_filter_ne hkey s.entries)

end Cache.Store

namespace Build

open Compilation

/-- A program that is compiled with a cache, within a session. -/
structure Call where
  program : Program
  target : Target := .c64
  limit : Int := 0
  session : Session := {}
  parent : Nat := 0

namespace Call

def options (c : Call) : Options :=
  { target := c.target, mostDiagnostics := c.limit, cache := true }

def key (c : Call) : Bytes := Cache.key c.program c.target

/-- What comes of a call: the compilation, and whether it was found. -/
def perform (c : Call) (w : World) : (Compilation × Bool) × World :=
  let ((result, _), w) := (imageOf c.program c.options c.parent).within c.session w
  (result, w)

/-- Compiling without asking a cache. -/
def compiled (c : Call) (tracer : Trace.Tracer) : Compilation :=
  compile (some c.program) ⟨c.target, c.limit⟩ tracer c.parent

variable {c : Call} {w : World}

theorem perform_of_fetch {kept : Cache.Payload} (h : w.cache.fetch? c.key = some kept) :
    c.perform w = (({ image := some kept.image, diagnostics := kept.diagnostics c.limit }, true),
      w) := by
  have hfetch : (lookUp c.program c.options).within c.session w = ((some kept, c.session), w) := by
    rw [show lookUp c.program c.options = Work.ask (.fetch c.key) from rfl, Work.within_ask]
    simp only [World.answer, h]
  rw [perform, imageOf, Work.within_bind, hfetch]
  rfl

/-- A program with an image has no fault. -/
theorem fault_eq_none {tracer : Trace.Tracer} {image : Image}
    (himage : (c.compiled tracer).image = some image) :
    (c.compiled tracer).fault = none := by
  obtain ⟨htarget, hlowered⟩ := image_eq_some himage
  refine Option.eq_none_iff_forall_ne_some.2 fun e he => ?_
  have hfault := ((compile_eq _ _ _ (o := ⟨c.target, c.limit⟩) htarget).2.1 e).1 he
  rw [hlowered] at hfault
  cases hfault

/-- Compiling gives what it makes, and keeps it if it is an image. -/
theorem within_compileAndKeep (s : Session) (w : World) :
    ∃ tracer, ((compileAndKeep c.program c.options c.parent).within s w).1.1 = c.compiled tracer ∧
      ((compileAndKeep c.program c.options c.parent).within s w).2.cache =
        match (c.compiled tracer).image with
        | none => w.cache
        | some image =>
          w.cache.keep c.key (.of c.program.name image (c.compiled tracer).diagnostics) := by
  obtain ⟨hmade, hcache⟩ := Work.within_record (fun t => (c.compiled t, (c.compiled t).tracer)) s w
  obtain ⟨next, hscript, hnone, hsome⟩ : ∃ next : Compilation → Work Compilation,
      compileAndKeep c.program c.options c.parent =
        Work.record (fun t => (c.compiled t, (c.compiled t).tracer)) >>= next ∧
      (∀ made, made.image = none → next made = pure made) ∧
      ∀ made image, made.fault = none → made.image = some image →
        next made = Work.ask (.keep c.key (.of c.program.name image made.diagnostics)) >>= fun _ =>
          pure made := by
    refine ⟨_, rfl, fun made himage => ?_, fun made image hfault himage => ?_⟩
    · dsimp only
      rw [himage]
      cases made.fault <;> rfl
    · dsimp only
      rw [hfault, himage]
      rfl
  refine ⟨{ s.tracer with now := w.time }, ?_⟩
  rw [hscript, Work.within_bind, hmade, ← hcache]
  generalize ((Work.record fun t => (c.compiled t, (c.compiled t).tracer)).within s w).1.2 = s'
  generalize ((Work.record fun t => (c.compiled t, (c.compiled t).tracer)).within s w).2 = w'
  cases himage : (c.compiled { s.tracer with now := w.time }).image with
  | none =>
    rw [hnone _ himage]
    exact ⟨rfl, rfl⟩
  | some image =>
    rw [hsome _ image (fault_eq_none himage) himage]
    exact ⟨rfl, rfl⟩

/-- Only a call that comes to an image changes the cache. -/
theorem perform_of_none (h : w.cache.fetch? c.key = none) :
    ∃ tracer, (c.perform w).1 = (c.compiled tracer, false) ∧
      (c.perform w).2.cache = match (c.compiled tracer).image with
        | none => w.cache
        | some image =>
          w.cache.keep c.key (.of c.program.name image (c.compiled tracer).diagnostics) := by
  have hfetch : (lookUp c.program c.options).within c.session w = ((none, c.session), w) := by
    rw [show lookUp c.program c.options = Work.ask (.fetch c.key) from rfl, Work.within_ask]
    simp only [World.answer, h]
  obtain ⟨tracer, hmade, hcache⟩ := within_compileAndKeep (c := c) c.session w
  refine ⟨tracer, ?_, ?_⟩
  · rw [← hmade, perform, imageOf, Work.within_bind, hfetch]
    dsimp only
    rw [Work.within_bind]
    rfl
  · rw [← hcache, perform, imageOf, Work.within_bind, hfetch]
    dsimp only
    rw [Work.within_bind]
    rfl

/-- The call has kept all diagnostics, or as many as the other one has room for. -/
def KeepsEnough (c later : Call) : Prop :=
  (c.compiled .off).diagnostics.dropped = 0 ∨ 0 < later.limit ∧ later.limit ≤ c.limit

end Call

/-- The world after some calls. -/
def after (w : World) (calls : List Call) : World := calls.foldl (fun w c => (c.perform w).2) w

/-- The keys of the calls differ unless program and target are the same. -/
def KeysApart (calls : List Call) : Prop :=
  ∀ a ∈ calls, ∀ b ∈ calls, a.key = b.key → a.program = b.program ∧ a.target = b.target

/-- All that is kept comes from one of the calls. -/
def KeptBy (calls : List Call) (s : Cache.Store) : Prop :=
  ∀ key kept, s.fetch? key = some kept → ∃ c ∈ calls, ∃ tracer image, c.key = key ∧
    (c.compiled tracer).image = some image ∧
    kept = .of c.program.name image (c.compiled tracer).diagnostics

theorem KeptBy.perform {calls : List Call} {w : World} (h : KeptBy calls w.cache) (c : Call) :
    KeptBy (calls ++ [c]) (c.perform w).2.cache := by
  have hmore : KeptBy (calls ++ [c]) w.cache := fun key kept hkept => by
    obtain ⟨a, ha, hrest⟩ := h key kept hkept
    exact ⟨a, List.mem_append_left _ ha, hrest⟩
  cases hfetch : w.cache.fetch? c.key with
  | some kept =>
    rw [Call.perform_of_fetch hfetch]
    exact hmore
  | none =>
    obtain ⟨tracer, -, hcache⟩ := Call.perform_of_none hfetch
    rw [hcache]
    split
    · exact hmore
    next image himage =>
      intro key kept hkept
      rw [Cache.Store.fetch?_keep] at hkept
      split at hkept
      next hkey => exact ⟨c, by
        simp, tracer, image, hkey.symm, himage, (Option.some.inj hkept).symm⟩
      next => exact hmore key kept hkept

theorem after_keptBy {w : World} (hempty : w.cache.entries = []) (calls : List Call) :
    KeptBy calls (after w calls).cache := by
  induction calls using List.reverseRecOn with
  | nil =>
    intro key kept hkept
    simp [after, Cache.Store.fetch?, hempty] at hkept
  | append_singleton calls c ih =>
    rw [after, List.foldl_append]
    exact ih.perform c

/-- With an image, what is kept of the diagnostics are all that the bag has. -/
theorem kept_of_image {c : Call} {tracer : Trace.Tracer} {image : Image}
    {result : Except LoweringError Image}
    {found : List Diagnostic} (himage : (c.compiled tracer).image = some image)
    (hfinds : Finds c.program c.target result found) :
    result.toOption = some image ∧
      (∀ d ∈ Bag.firstOf (Bag.ofLimit c.limit).limit found, d.isError = false) ∧
      (Cache.Payload.of c.program.name image (c.compiled tracer).diagnostics).warnings =
        Bag.firstOf (Bag.ofLimit c.limit).limit found := by
  obtain ⟨hholds, hlimit⟩ := Bag.foldl_add_holds c.limit found
  have hitems := hlimit ▸ hholds.items
  have hkept := (hfinds.image c.limit tracer c.parent).symm.trans himage
  split at hkept
  next => cases hkept
  next herrors =>
    rw [Bag.hasErrors_iff, hitems] at herrors
    have hclean : ∀ d ∈ Bag.firstOf (Bag.ofLimit c.limit).limit found, d.isError = false := by
      simpa using herrors
    refine ⟨hkept, hclean, ?_⟩
    rw [Call.compiled, hfinds.diagnostics c.limit tracer c.parent (by simp [hkept])]
    refine (List.filter_eq_self.2 fun d hd => ?_).trans hitems
    have hlevel : ¬2 ≤ d.severity.level := by
      simpa [Diagnostic.isError] using hclean d (hitems ▸ hd)
    exact decide_eq_true (UInt8.not_le.1 hlevel)

/-- The first of what is found, cut to what an earlier limit has left of it. -/
theorem firstOf_firstOf {a c : Call} {result : Except LoweringError Image} {found : List Diagnostic}
    (h : a.KeepsEnough c) (hfinds : Finds a.program a.target result found)
    (hresult : result.toOption.isSome) :
    Bag.firstOf (Bag.ofLimit c.limit).limit (Bag.firstOf (Bag.ofLimit a.limit).limit found) =
      Bag.firstOf (Bag.ofLimit c.limit).limit found := by
  rcases h with hall | ⟨hpos, hle⟩
  · have hdiagnostics := hfinds.diagnostics a.limit .off a.parent hresult
    obtain ⟨⟨hitems, hdropped⟩, hlimit⟩ := Bag.foldl_add_holds a.limit found
    rw [Call.compiled, hdiagnostics] at hall
    rw [hlimit] at hitems
    have hlength : (Bag.firstOf (Bag.ofLimit a.limit).limit found).length = found.length := by
      rw [← hitems, Array.length_toList]
      omega
    have hsame : Bag.firstOf (Bag.ofLimit a.limit).limit found = found := by
      cases hl : (Bag.ofLimit a.limit).limit with
      | none => rfl
      | some n =>
        rw [hl, Bag.firstOf, List.length_take] at hlength
        exact List.take_of_length_le (by omega)
    rw [hsame]
  · have ha : ¬a.limit ≤ 0 := by omega
    have hc : ¬c.limit ≤ 0 := by omega
    simp only [Bag.ofLimit, ha, hc, if_false, Bag.firstOf, List.take_take]
    congr 1
    omega

/-- A call that finds its program in the cache gives the image and the diagnostics that compiling
would give, if the keys are apart and the calls before have kept enough diagnostics. -/
theorem found_eq_compiled {w : World} {calls : List Call} {c : Call} (hempty : w.cache.entries = [])
    (hkeys : KeysApart (c :: calls))
    (henough : ∀ a ∈ calls, a.program = c.program → a.target = c.target → a.KeepsEnough c)
    (hfound : (c.perform (after w calls)).1.2 = true) (tracer : Trace.Tracer) :
    (c.compiled tracer).fault = none ∧
      (c.perform (after w calls)).1.1.image = (c.compiled tracer).image ∧
      (c.perform (after w calls)).1.1.diagnostics.items =
        (c.compiled tracer).diagnostics.items := by
  cases hfetch : (after w calls).cache.fetch? c.key with
  | none =>
    obtain ⟨tracer, hmade, -⟩ := Call.perform_of_none hfetch
    rw [hmade] at hfound
    cases hfound
  | some kept =>
    obtain ⟨a, ha, made, image, hkey, himage, rfl⟩ := after_keptBy hempty calls _ kept hfetch
    obtain ⟨hprogram, htarget⟩ := hkeys a (by simp [ha]) c (by simp) hkey
    have hvalid := (image_eq_some himage).1
    obtain ⟨result, found, hfinds⟩ := exists_finds a.program a.target hvalid
    obtain ⟨hresult, hclean, hwarnings⟩ := kept_of_image himage hfinds
    have hcut := firstOf_firstOf (henough a ha hprogram htarget) hfinds (by simp [hresult])
    obtain ⟨hholds, hlimit⟩ := Bag.foldl_add_holds c.limit found
    have hitems := hlimit ▸ hholds.items
    obtain ⟨hagain, hlimit'⟩ :=
      Bag.foldl_add_holds c.limit (Bag.firstOf (Bag.ofLimit a.limit).limit found)
    have hitems' := hlimit' ▸ hagain.items
    rw [hprogram, htarget] at hfinds
    have hcompiled : (c.compiled tracer).image = some image := by
      have hnone : (found.foldl Bag.add (.ofLimit c.limit)).hasErrors = false := by
        rw [Bool.eq_false_iff, ne_eq, Bag.hasErrors_iff, hitems, ← hcut]
        rintro ⟨d, hd, herror⟩
        have hmem : d ∈ Bag.firstOf (Bag.ofLimit a.limit).limit found := by
          cases hl : (Bag.ofLimit c.limit).limit with
          | none => rwa [hl] at hd
          | some n => rw [hl] at hd; exact List.mem_of_mem_take hd
        rw [hclean d hmem] at herror
        cases herror
      rw [Call.compiled, hfinds.image, hnone, hresult]
      rfl
    refine ⟨Call.fault_eq_none hcompiled, ?_, ?_⟩
    · rw [Call.perform_of_fetch hfetch, hcompiled]
      rfl
    · have hdiagnostics : (c.compiled tracer).diagnostics = _ :=
        hfinds.diagnostics c.limit tracer c.parent (by simp [hresult])
      rw [Call.perform_of_fetch hfetch, hdiagnostics]
      refine Array.toList_inj.1 ?_
      rw [hitems, ← hcut, ← hitems', ← hwarnings]
      rfl

/-- What has come to an image is found the next time, whatever the limits are. -/
theorem found_again {a c : Call} {w : World} (hkey : a.key = c.key)
    (himage : (a.compiled .off).image.isSome) :
    (c.perform (a.perform w).2).1.2 = true := by
  obtain ⟨image, himage⟩ := Option.isSome_iff_exists.1 himage
  obtain ⟨result, found, hfinds⟩ := exists_finds a.program a.target (image_eq_some himage).1
  have hkept : ∃ kept, (a.perform w).2.cache.fetch? c.key = some kept := by
    rw [← hkey]
    cases hfetch : w.cache.fetch? a.key with
    | some kept => exact ⟨kept, by rw [Call.perform_of_fetch hfetch]; exact hfetch⟩
    | none =>
      obtain ⟨tracer, -, hcache⟩ := Call.perform_of_none hfetch
      have hsame : (a.compiled tracer).image = some image :=
        (hfinds.image a.limit tracer a.parent).trans
          ((hfinds.image a.limit .off a.parent).symm.trans himage)
      rw [hcache, hsame]
      exact ⟨_, by rw [Cache.Store.fetch?_keep, if_pos rfl]⟩
  obtain ⟨kept, hkept⟩ := hkept
  rw [Call.perform_of_fetch hkept]

/-- A program of two functions that call themselves. -/
def circles : Program :=
  let calling (id : FunctionId) : Block :=
    .of [.evaluate {} (.call { type := .void } id [] false)] false .none
  { functions := .of [
      { id := 1, name := Program.mainName, result := .void, body := calling 1 },
      { id := 2, name := [98], result := .void, body := calling 2 }]
    entry := 1 }

/-- Both are warned about; of the two warnings that are kept a call with a lower limit takes the
first one. -/
theorem found_eq_compiled_circles :
    let earlier : Call := { program := circles, limit := 2 }
    let later : Call := { program := circles, limit := 1 }
    (earlier.compiled .off).diagnostics.items.size = 2 ∧
      (later.compiled .off).diagnostics.items.size = 1 ∧
      (later.perform (after {} [earlier])).1.2 = true ∧ (later.compiled .off).fault = none ∧
      (later.perform (after {} [earlier])).1.1.image = (later.compiled .off).image ∧
      (later.perform (after {} [earlier])).1.1.diagnostics.items =
          (later.compiled .off).diagnostics.items := by
  intro earlier later
  have himage : (earlier.compiled .off).image.isSome = true := by decide +kernel
  have hfound : (later.perform (after {} [earlier])).1.2 = true := by
    rw [after, List.foldl_cons, List.foldl_nil]
    exact found_again rfl himage
  refine ⟨by decide +kernel, by decide +kernel, hfound, found_eq_compiled rfl ?_ ?_ hfound .off⟩
  · simp [KeysApart, earlier, later]
  · intro a ha _ _
    obtain rfl := List.mem_singleton.1 ha
    exact .inr ⟨by decide, by decide⟩

end Build

end Breadbin
