import Mathlib
import Breadbin.Build.Outcome
import Breadbin.Proofs.Compilation.Caching
import Breadbin.Script.World
import Breadbin.Script.Work

/-!
# Builds in turns come to what builds alone come to

Whatever a worker reads comes from the files or from what another worker has kept.  With keys apart,
what is kept under the key of a program comes from compiling that program, so a script that keeps
the rules ends with the same verdict in any company.  Every turn brings one script nearer to its
end, so the build ends; and until it has ended there is always a turn left.
-/

/-!
## Scripts that keep rules

A script is carried out in a world that others change as well.  Rules say what a script may ask for
and which replies it has to expect; what follows from them holds however the script is carried out.
-/

namespace Breadbin

namespace Script

/-- What may be asked for, and what may be replied. -/
structure Rules where
  allowed : Request → Prop
  possible : (r : Request) → r.Reply → Prop

variable {α β : Type} {rules : Rules}

instance : LawfulMonad Script := LawfulMonad.mk' _
  (fun x => by
    induction x with
    | done a => rfl
    | ask r next ih => exact congrArg (ask r) (funext ih))
  (fun _ _ => rfl)
  (fun x f g => by
    induction x with
    | done a => rfl
    | ask r next ih => exact congrArg (ask r) (funext ih))

/-- A script that asks only for what is allowed, and whose result has a property whatever is
replied. -/
def Keeps (rules : Rules) (post : α → Prop) : Script α → Prop
  | done a => post a
  | ask r next => rules.allowed r ∧ ∀ x, rules.possible r x → (next x).Keeps rules post

theorem Keeps.mono {post post' : α → Prop} {x : Script α} (h : x.Keeps rules post)
    (hpost : ∀ a, post a → post' a) : x.Keeps rules post' := by
  induction x with
  | done a => exact hpost a h
  | ask r next ih => exact ⟨h.1, fun x hx => ih x (h.2 x hx)⟩

theorem Keeps.bind {post : α → Prop} {post' : β → Prop} {x : Script α} {f : α → Script β}
    (h : x.Keeps rules post) (hf : ∀ a, post a → (f a).Keeps rules post') :
    (x >>= f).Keeps rules post' := by
  induction x with
  | done a => exact hf a h
  | ask r next ih => exact ⟨h.1, fun x hx => ih x (h.2 x hx)⟩

/-- The rules fit a kind of world: it gives possible replies to what is allowed, and stays of its
kind. -/
def Rules.Fit (rules : Rules) (ok : World → Prop) : Prop :=
  ∀ w r, ok w → rules.allowed r → rules.possible r (World.answer r w).1 ∧ ok (World.answer r w).2

/-- A script that keeps the rules, carried out at once. -/
theorem Keeps.run {ok : World → Prop} {post : α → Prop} (hfit : rules.Fit ok) {x : Script α}
    (h : x.Keeps rules post) {w : World} (hw : ok w) :
    post (x.run World.answer w).1 ∧ ok (x.run World.answer w).2 := by
  induction x generalizing w with
  | done a => exact ⟨h, hw⟩
  | ask r next ih =>
    obtain ⟨hreply, hw'⟩ := hfit w r hw h.1
    exact ih _ (h.2 _ hreply) hw'

end Script

namespace Work

variable {α β : Type} {rules : Script.Rules} {post : α → Prop} {post' : β → Prop}

/-- The same within a session, whichever it is. -/
def Keeps (rules : Script.Rules) (post : α → Prop) (x : Work α) : Prop :=
  ∀ s, (x.run s).Keeps rules fun r => post r.1

theorem Keeps.pure {a : α} (h : post a) : (pure a : Work α).Keeps rules post := fun _ => h

theorem Keeps.bind {x : Work α} {f : α → Work β} (h : x.Keeps rules post)
    (hf : ∀ a, post a → (f a).Keeps rules post') : (x >>= f).Keeps rules post' :=
  fun s => (h s).bind fun r hr => hf r.1 hr r.2

theorem Keeps.mono {post' : α → Prop} {x : Work α} (h : x.Keeps rules post)
    (hpost : ∀ a, post a → post' a) : x.Keeps rules post' :=
  fun s => (h s).mono fun r hr => hpost r.1 hr

theorem Keeps.ask {r : Request} {post : r.Reply → Prop} (hr : rules.allowed r)
    (h : ∀ x, rules.possible r x → post x) : (ask r).Keeps rules post :=
  fun _ => ⟨hr, h⟩

theorem Keeps.get : (get : Work Session).Keeps rules fun _ => True := fun _ => trivial

theorem Keeps.modify (f : Session → Session) : (modify f : Work PUnit).Keeps rules fun _ => True :=
  fun _ => trivial

theorem Keeps.set (s : Session) : (set s : Work PUnit).Keeps rules fun _ => True := fun _ => trivial

/-- Telling, and asking for the time, are always allowed. -/
structure Open (rules : Script.Rules) : Prop where
  tell : ∀ news, rules.allowed (.tell news)
  complain : ∀ text, rules.allowed (.complain text)
  now : rules.allowed .now

namespace Open

variable (h : Open rules)
include h

theorem keeps_tell (news : Build.Progress) : (Work.tell news).Keeps rules fun _ => True := by
  unfold Work.tell
  refine .bind (.ask (h.tell news) fun _ _ => trivial) fun _ _ => .bind .get fun s _ => ?_
  split
  · exact .ask (h.complain _) fun _ _ => trivial
  · exact .pure trivial

theorem keeps_showTrace : showTrace.Keeps rules fun _ => True := by
  unfold showTrace
  refine .bind .get fun s _ => ?_
  split
  · split
    · exact .bind (.set _) fun _ _ => .ask (h.complain _) fun _ _ => trivial
    · exact .pure trivial
  · exact .pure trivial

/-- What is recorded comes from some tracer. -/
theorem keeps_record (f : Trace.Tracer → α × Trace.Tracer) :
    (record f).Keeps rules fun a => ∃ tracer, a = (f tracer).1 := by
  intro s
  refine ⟨h.now, fun now _ => ?_⟩
  exact (h.keeps_showTrace _).bind fun r _ => ⟨_, rfl⟩

theorem keeps_startStep (name : String) : (startStep name).Keeps rules fun _ => True := by
  unfold startStep
  refine .bind .get fun s _ => ?_
  split
  · exact .pure trivial
  · exact .bind (.ask h.now fun _ _ => trivial) fun _ _ =>
      .bind (.modify _) fun _ _ => .pure trivial

theorem keeps_finishStep (step : Option Nat) (note : String) :
    (finishStep step note).Keeps rules fun _ => True := by
  unfold finishStep
  refine .bind .get fun s _ => ?_
  split
  · exact .bind (.ask h.now fun _ _ => trivial) fun _ _ => .modify _
  · exact .pure trivial

end Open

end Work

end Breadbin

/-! ## What lowering leaves -/

namespace Breadbin

namespace Compilation

/-- The diagnostics are those of the bag that lowering leaves, and of the failure that it ends
with. -/
theorem compile_diagnostics (p : Program) {o : Options} (htarget : o.target.error? = none)
    (tracer : Trace.Tracer) (parent : Nat) :
    (compile (some p) o tracer parent).diagnostics =
      match (lowered p o tracer parent).1 with
      | .error e => (lowered p o tracer parent).2.reports.bag.add (.error e.code .none e.message)
      | .ok _ => (lowered p o tracer parent).2.reports.bag := by
  have hcompile : compile (some p) o tracer parent = ofProgram p o tracer parent := by
    simp [compile, htarget]
  rw [hcompile]
  rcases hopen : tracer.openSpan .program ("mos:" ++ Text.shown p.name) parent with ⟨opened, span⟩
  rcases hlower : lower p
    (initialEmission o.target (.ofLimit o.mostDiagnostics) opened span) with ⟨result, s⟩
  have hlowered : lowered p o tracer parent = (result, s) := by
    simp only [lowered, hopen, hlower]
  simp only [ofProgram, hopen, hlower, hlowered]
  cases result with
  | error e => rfl
  | ok image => dsimp only; split <;> rfl

/-- The image, the diagnostics and the fault do not depend on what is traced. -/
theorem compile_untraced (p : Program) (o : Options) (tracer tracer' : Trace.Tracer)
    (parent parent' : Nat) :
    (compile (some p) o tracer parent).image = (compile (some p) o tracer' parent').image ∧
      (compile (some p) o tracer parent).diagnostics =
        (compile (some p) o tracer' parent').diagnostics ∧
      (compile (some p) o tracer parent).fault = (compile (some p) o tracer' parent').fault := by
  cases htarget : o.target.error? with
  | some e => simp [compile, htarget]
  | none =>
    obtain ⟨hresult, ds, hds, hds'⟩ :=
      lowered_alike p o.target o.mostDiagnostics o.mostDiagnostics tracer
      tracer' parent parent'
    obtain ⟨-, hfault, himage⟩ := compile_eq p tracer parent (o := o) htarget
    obtain ⟨-, hfault', himage'⟩ := compile_eq p tracer' parent' (o := o) htarget
    have hbag : (lowered p o tracer parent).2.reports.bag =
        (lowered p o tracer' parent').2.reports.bag := by
      rw [show (lowered p o tracer parent).2.reports = _ from hds,
        show (lowered p o tracer' parent').2.reports = _ from hds']
    have hresult : (lowered p o tracer parent).1 = (lowered p o tracer' parent').1 := hresult
    have hdiagnostics := compile_diagnostics p htarget
    refine ⟨by rw [himage, himage', hbag, hresult], by rw [hdiagnostics, hdiagnostics,
      hbag, hresult], ?_⟩
    refine Option.ext fun e => ?_
    rw [hfault, hfault', hresult]

end Compilation

namespace Build

open Compilation

/-! ## Verdicts -/

/-- What is compared of two outcomes. -/
structure Verdict where
  path : Bytes
  program : Option Program
  /-- the image, the list of diagnostics and the fault, if it came to compiling -/
  result : Option (Option Image × List Diagnostic × Option LoweringError)
  error : Option BuildError

/-- The image, the list of diagnostics and the fault of a compilation. -/
def essence (c : Compilation) : Option Image × List Diagnostic × Option LoweringError :=
  (c.image, c.diagnostics.items.toList, c.fault)

/-- All of an outcome but whether it was found, how many diagnostics were dropped, and what only
compiling can tell. -/
def Outcome.verdict (o : Outcome) : Verdict := ⟨o.path, o.program, o.result.map essence, o.error⟩

/-- The program of a file. -/
def programOf (files : FileTree) (path : Bytes) : Except BuildError Program :=
  match files.read path with
  | .error e => .error (if e.operation = "read" then .notAFile path e else .unreadable e)
  | .ok contents =>
    match Program.decode contents with
    | .error e => .error (.malformed path e)
    | .ok p => .ok p

/-- Why a compilation makes a build fail. -/
def failure? (c : Compilation) : Option BuildError :=
  match c.fault, c.image with
  | some e, _ => some (.fault e)
  | none, none => some .hasErrors
  | none, some _ => none

/-- Compiling for the target and the limit of some options. -/
def Options.compiled (o : Options) (p : Program) (tracer : Trace.Tracer)
    (parent : Nat) : Compilation :=
  compile (some p) { target := o.target, mostDiagnostics := o.mostDiagnostics } tracer parent

/-- What building a file comes to. -/
def expected (o : Options) (files : FileTree) (path : Bytes) : Verdict :=
  match programOf files path with
  | .error e => ⟨path, none, none, some e⟩
  | .ok p => ⟨path, some p, some (essence (o.compiled p .off 0)), failure? (o.compiled p .off 0)⟩

theorem expected_path (o : Options) (files : FileTree) (path : Bytes) :
    (expected o files path).path = path := by
  unfold expected
  split <;> rfl

theorem essence_compiled (o : Options) (p : Program) (tracer : Trace.Tracer) (parent : Nat) :
    essence (o.compiled p tracer parent) = essence (o.compiled p .off 0) := by
  obtain ⟨himage, hdiagnostics, hfault⟩ := compile_untraced p
    { target := o.target, mostDiagnostics := o.mostDiagnostics } tracer .off parent 0
  simp only [essence, Options.compiled, himage, hdiagnostics, hfault]

theorem failure?_eq {c c' : Compilation} (h : essence c = essence c') :
    failure? c = failure? c' := by
  obtain ⟨himage, h⟩ := Prod.mk.inj h
  obtain ⟨-, hfault⟩ := Prod.mk.inj h
  simp only [failure?, himage, hfault]

/-! ## Rules for builders -/

section Rules

variable (o : Options) (files : FileTree) (paths : List Bytes)

/-- What is kept under a key comes from compiling the program of one of the files. -/
def Keepable (key : Bytes) (kept : Cache.Payload) : Prop :=
  ∃ path ∈ paths, ∃ p, programOf files path = .ok p ∧ key = Cache.key (some p) o.target ∧
    ∃ tracer parent image, (o.compiled p tracer parent).image = some image ∧
      kept = .of p.name image (o.compiled p tracer parent).diagnostics

/-- The files stay as they are, and only what comes from them is kept. -/
def rules : Script.Rules where
  allowed
    | .write _ _ | .makeDirectories _ => False
    | .keep key kept => Keepable o files paths key kept
    | _ => True
  possible
    | .read path, x => x = files.read path
    | .fetch key, x => ∀ kept, x = some kept → Keepable o files paths key kept
    | _, _ => True

/-- A world with these files, and nothing kept that does not come from them. -/
structure InOrder (w : World) : Prop where
  unchanged : w.files = files
  kept : ∀ key kept, w.cache.fetch? key = some kept → Keepable o files paths key kept

theorem rules_fit : (rules o files paths).Fit (InOrder o files paths) := by
  rintro w r ⟨hfiles, hkept⟩ hr
  cases r with
  | write | makeDirectories => exact hr.elim
  | read path => exact ⟨hfiles ▸ rfl, hfiles, hkept⟩
  | fetch key => exact ⟨fun kept h => hkept key kept h, hfiles, hkept⟩
  | keep key kept =>
    refine ⟨trivial, hfiles, fun key' kept' h => ?_⟩
    have h : (w.cache.keep key kept).fetch? key' = some kept' := h
    rw [Cache.Store.fetch?_keep] at h
    split at h
    next heq =>
      obtain rfl := Option.some.inj h
      exact heq ▸ hr
    next => exact hkept key' kept' h
  | look | list | tell | print | complain | now => exact ⟨trivial, hfiles, hkept⟩

theorem rules_open : Work.Open (rules o files paths) :=
  ⟨fun _ => trivial, fun _ => trivial, trivial⟩

variable {o files paths}

/-- Only one program of the files has a key. -/
def KeysDiffer (o : Options) (files : FileTree) (paths : List Bytes) : Prop :=
  ∀ a ∈ paths, ∀ b ∈ paths, ∀ p q, programOf files a = .ok p → programOf files b = .ok q →
    Cache.key (some p) o.target = Cache.key (some q) o.target → p = q

/-- What is found under the key of a program is what compiling it comes to. -/
theorem essence_found (hkeys : KeysDiffer o files paths) {path : Bytes}
    (hpath : path ∈ paths) {p : Program} (hp : programOf files path = .ok p) {kept : Cache.Payload}
    (hkept : Keepable o files paths (Cache.key (some p) o.target) kept) :
    essence { image := some kept.image, diagnostics := kept.diagnostics o.mostDiagnostics } =
      essence (o.compiled p .off 0) := by
  obtain ⟨path', hpath', q, hq, hkey, tracer, parent, image, himage, rfl⟩ := hkept
  obtain rfl := hkeys path hpath path' hpath' p q hp hq hkey
  rw [← essence_compiled o p tracer parent]
  -- the call whose result was kept
  let c : Call := { program := p, target := o.target, limit := o.mostDiagnostics, parent }
  obtain ⟨result, found, hfinds⟩ := exists_finds p o.target (image_eq_some himage).1
  obtain ⟨hresult, -, hwarnings⟩ := kept_of_image (c := c) himage hfinds
  have hwarnings :
      (Cache.Payload.of p.name image (o.compiled p tracer parent).diagnostics).warnings =
      Bag.firstOf (Bag.ofLimit o.mostDiagnostics).limit found := hwarnings
  have hdiagnostics : (o.compiled p tracer parent).diagnostics = _ :=
    hfinds.diagnostics o.mostDiagnostics tracer parent (by simp [hresult])
  obtain ⟨hholds, hlimit⟩ := Bag.foldl_add_holds o.mostDiagnostics found
  obtain ⟨hagain, hlimit'⟩ := Bag.foldl_add_holds o.mostDiagnostics
    (Bag.firstOf (Bag.ofLimit o.mostDiagnostics).limit found)
  have hitems := hlimit ▸ hholds.items
  have hitems' := hlimit' ▸ hagain.items
  have htwice : Bag.firstOf (Bag.ofLimit o.mostDiagnostics).limit
      (Bag.firstOf (Bag.ofLimit o.mostDiagnostics).limit found) =
        Bag.firstOf (Bag.ofLimit o.mostDiagnostics).limit found := by
    cases (Bag.ofLimit o.mostDiagnostics).limit with
    | none => rfl
    | some n => rw [Bag.firstOf, Bag.firstOf, List.take_take, Nat.min_self]
  have hfault : (o.compiled p tracer parent).fault = none := Call.fault_eq_none (c := c) himage
  refine Prod.ext himage.symm (Prod.ext ?_ hfault.symm)
  show (List.foldl Bag.add (Bag.ofLimit o.mostDiagnostics) (Cache.Payload.of p.name image
    (o.compiled p tracer parent).diagnostics).warnings).items.toList = _
  rw [hwarnings, hitems', htwice, ← hitems, essence, hdiagnostics]

end Rules

/-! ## Building one file -/

section

variable {o o' : Options} {files : FileTree} {paths : List Bytes} {path : Bytes}

theorem keeps_load :
    (load path).Keeps (rules o files paths) fun loaded => loaded = programOf files path := by
  unfold load
  refine .bind (.ask trivial fun x hx => hx) fun contents hcontents => ?_
  unfold programOf
  rw [← hcontents]
  cases contents with
  | error e => exact .pure rfl
  | ok contents =>
    dsimp only
    cases Program.decode contents with
    | error e => exact .pure rfl
    | ok p => exact .pure rfl

theorem keeps_compileAndKeep (hpath : path ∈ paths) {p : Program}
    (hp : programOf files path = .ok p)
    (htarget : o'.target = o.target) (hlimit : o'.mostDiagnostics = o.mostDiagnostics)
    (parent : Nat) :
    (compileAndKeep p o' parent).Keeps (rules o files paths) fun c =>
      essence c = essence (o.compiled p .off 0) := by
  unfold compileAndKeep
  refine .bind ((rules_open o files paths).keeps_record _) fun c hc => ?_
  obtain ⟨tracer, hc⟩ := hc
  have hcompiled : c = o.compiled p tracer parent := by
    rw [hc, Options.compiled, htarget, hlimit]
  have hessence := essence_compiled o p tracer parent
  rw [← hcompiled] at hessence
  dsimp only
  split
  next image _ himage =>
    have hkeep : Keepable o files paths (Cache.key (some p) o'.target)
        (.of p.name image c.diagnostics) :=
      ⟨path, hpath, p,
        hp, by rw [htarget], tracer, parent, image, hcompiled ▸ himage, by rw [hcompiled]⟩
    have hkept : (Work.ask
        (.keep (Cache.key (some p) o'.target) (.of p.name image c.diagnostics))).Keeps
        (rules o files paths) fun _ => True := .ask hkeep fun _ _ => trivial
    split
    · exact .bind hkept fun _ _ => .pure hessence
    · exact .pure hessence
  next => exact .pure hessence

theorem keeps_imageOf (hkeys : KeysDiffer o files paths) (hpath : path ∈ paths) {p : Program}
    (hp : programOf files path = .ok p) (htarget : o'.target = o.target)
    (hlimit : o'.mostDiagnostics = o.mostDiagnostics) (parent : Nat) :
    (imageOf p o' parent).Keeps (rules o files paths) fun r =>
      essence r.1 = essence (o.compiled p .off 0) := by
  have hlookUp : (lookUp p o').Keeps (rules o files paths) fun kept =>
      ∀ payload, kept = some payload →
      Keepable o files paths (Cache.key (some p) o.target) payload := by
    unfold lookUp
    split
    · rw [htarget]
      exact .ask (r := .fetch (Cache.key (some p) o.target)) trivial fun _ hx => hx
    · exact .pure nofun
  unfold imageOf
  refine .bind hlookUp fun kept hkept => ?_
  cases kept with
  | none => exact .bind (keeps_compileAndKeep hpath hp htarget hlimit parent) fun c hc => .pure hc
  | some payload =>
    refine .pure ?_
    dsimp only
    rw [hlimit]
    exact essence_found hkeys hpath hp (hkept payload rfl)

theorem keeps_giveUp (outcome : Outcome) (stage : Stage) (e : BuildError) :
    (giveUp outcome stage e).Keeps (rules o files paths) fun outcome' =>
      outcome'.verdict = { outcome.verdict with error := some e } := by
  unfold giveUp
  exact .bind ((rules_open o files paths).keeps_tell _) fun _ _ => .pure rfl

/-- Whatever is replied within the rules, and with or without a cache, building a file comes to what
is expected. -/
theorem keeps_buildFile (hkeys : KeysDiffer o files paths) (hpath : path ∈ paths)
    (htarget : o'.target = o.target) (hlimit : o'.mostDiagnostics = o.mostDiagnostics)
    (parent : Nat) :
    (buildFile o' parent path).Keeps (rules o files paths) fun outcome =>
      outcome.verdict = expected o files path := by
  have hopen := rules_open o files paths
  unfold buildFile
  dsimp only
  refine .bind (hopen.keeps_tell _) fun _ _ => .bind (hopen.keeps_startStep _) fun step _ =>
    .bind keeps_load fun loaded hloaded => .bind (hopen.keeps_finishStep _ _) fun _ _ => ?_
  unfold expected
  rw [← hloaded]
  cases loaded with
  | error e => exact keeps_giveUp _ _ _
  | ok p =>
    dsimp only
    refine .bind (hopen.keeps_tell _) fun _ _ => .bind (hopen.keeps_startStep _) fun step _ =>
      .bind (keeps_imageOf hkeys hpath hloaded.symm htarget hlimit parent) fun r hr =>
        .bind (hopen.keeps_finishStep _ _) fun _ _ => ?_
    obtain ⟨c, cached⟩ := r
    dsimp only at hr ⊢
    rw [← hr, ← failure?_eq hr]
    unfold failure?
    cases c.fault with
    | some e => exact keeps_giveUp _ _ _
    | none =>
      cases c.image with
      | none => exact keeps_giveUp _ _ _
      | some image => exact .bind (hopen.keeps_tell _) fun _ _ => .pure rfl

end

/-! ## Building the files one after the other -/

/-- Building the files one after the other comes to what is expected of each. -/
theorem keeps_buildPaths {o : Options} {files : FileTree} {paths : List Bytes}
    (hkeys : KeysDiffer o files paths) :
    (buildPaths o paths).Keeps (rules o files paths) fun outcomes =>
      outcomes.map Outcome.verdict = paths.map (expected o files) := by
  have hopen := rules_open o files paths
  have hqueued (paths' : List Bytes) : (paths'.forM fun path =>
      Work.tell { file := Text.shown path, stage := .load, status := .queued }).Keeps
        (rules o files paths)
        fun _ => True := by
    induction paths' with
    | nil => exact .pure trivial
    | cons path paths' ih =>
      exact Work.Keeps.bind (f := fun _ => paths'.forM _) (hopen.keeps_tell _) fun _ _ => ih
  have hbuilt (parent : Nat) (paths' : List Bytes) (hsub : paths' ⊆ paths) :
      (paths'.mapM (buildFile o parent)).Keeps (rules o files paths) fun outcomes =>
        outcomes.map Outcome.verdict = paths'.map (expected o files) := by
    induction paths' with
    | nil => exact .pure rfl
    | cons path paths' ih =>
      obtain ⟨hpath, hsub⟩ := List.cons_subset.1 hsub
      rw [List.mapM_cons]
      refine .bind (keeps_buildFile hkeys hpath rfl rfl parent) fun outcome houtcome =>
        .bind (ih hsub) fun outcomes houtcomes => .pure ?_
      rw [List.map_cons, List.map_cons, houtcome, houtcomes]
  unfold buildPaths
  exact .bind (hopen.keeps_record _) fun span _ => .bind (hqueued paths) fun _ _ =>
    .bind (hbuilt span.id paths (List.Subset.refl _)) fun outcomes houtcomes =>
      .bind (hopen.keeps_record _) fun _ _ => .pure houtcomes

/-! ## Turns -/

namespace Crew

/-- A desk after a turn of its worker, whatever was replied. -/
inductive Nears : Desk → Desk → Prop
  | turn {r : Request} {next : r.Reply → Script (Outcome × Session)} (x : r.Reply) :
      Nears (.working (next x)) (.working (.ask r next))
  | finish {outcome : Outcome} {s : Session} :
      Nears (.finished outcome) (.working (.done (outcome, s)))

theorem acc_finished (outcome : Outcome) : Acc Nears (.finished outcome) :=
  .intro _ fun _ h => by cases h

/-- Every script ends: it has as many turns left as the longest of what follows its next reply, and
one. -/
theorem acc_nears (d : Desk) : Acc Nears d := by
  cases d with
  | finished outcome => exact acc_finished outcome
  | working script =>
    induction script with
    | done r =>
      refine ⟨_, fun d h => ?_⟩
      cases h with
      | finish => exact acc_finished _
    | ask r next ih =>
      refine ⟨_, fun d h => ?_⟩
      cases h with
      | turn x => exact ih x

/-- Desks after a turn of one of the workers. -/
inductive SomeNears : List Desk → List Desk → Prop
  | here {d d' : Desk} {ds : List Desk} (h : Nears d' d) : SomeNears (d' :: ds) (d :: ds)
  | behind {d : Desk} {ds ds' : List Desk} (h : SomeNears ds' ds) : SomeNears (d :: ds') (d :: ds)

theorem SomeNears.amid {d d' : Desk} (h : Nears d' d) (before after : List Desk) :
    SomeNears (before ++ d' :: after) (before ++ d :: after) := by
  induction before with
  | nil => exact .here h
  | cons _ _ ih => exact .behind ih

theorem acc_someNears (ds : List Desk) : Acc SomeNears ds := by
  induction ds with
  | nil => exact ⟨_, nofun⟩
  | cons d ds ih =>
    have hd := acc_nears d
    induction hd generalizing ds with
    | intro d _ hd =>
      induction ih with
      | intro ds hds ih =>
        refine ⟨_, fun ds' h => ?_⟩
        cases h with
        | here h => exact hd _ h ds ⟨ds, hds⟩
        | behind h => exact ih _ h

variable {o : Options} {parent workers : Nat} {c c' : Crew}

/-- Beginning a file leaves fewer of them, a turn leaves as many and less of a script. -/
theorem wellFounded_step : WellFounded fun c' c => Step o parent workers c c' := by
  have hlex : WellFounded (Prod.Lex (· < · : Nat → Nat → Prop) SomeNears) :=
    WellFounded.prod_lex Nat.lt_wfRel.wf ⟨acc_someNears⟩
  refine Subrelation.wf (r := InvImage _ fun c : Crew => (c.waiting.length, c.desks)) ?_
    (InvImage.wf _ hlex)
  intro c' c h
  cases h with
  | begin s free => exact .left _ _ (Nat.lt_succ_self _)
  | turn time => exact .right _ (.amid (.turn _) _ _)
  | finish => exact .right _ (.amid .finish _ _)

/-- Until all files are begun and all workers are done there is something to do. -/
theorem step_or_finished (hworkers : 0 < workers) (c : Crew) :
    (∃ c', Step o parent workers c c') ∨ c.waiting = [] ∧ ∃ outcomes : List Outcome,
      c.desks = outcomes.map .finished := by
  obtain ⟨w, desks, waiting⟩ := c
  by_cases hbusy : ∃ d ∈ desks, d.isWorking = true
  · left
    obtain ⟨d, hd, hworking⟩ := hbusy
    obtain ⟨before, after, rfl⟩ := List.append_of_mem hd
    cases d with
    | finished outcome => cases hworking
    | working script =>
      cases script with
      | done r => exact ⟨_, .finish⟩
      | ask r next => exact ⟨_, .turn 0⟩
  · have hover : ∀ d ∈ desks, ∃ outcome, d = .finished outcome := by
      intro d hd
      cases d with
      | finished outcome => exact ⟨outcome, rfl⟩
      | working script => exact absurd ⟨_, hd, rfl⟩ hbusy
    cases waiting with
    | cons path waiting =>
      left
      have hnone : desks.countP Desk.isWorking = 0 :=
        List.countP_eq_zero.2 fun d hd hworking => hbusy ⟨d, hd, hworking⟩
      exact ⟨_, .begin {} (by simpa only [busy, hnone] using hworkers)⟩
    | nil =>
      right
      refine ⟨rfl, ?_⟩
      clear hbusy
      induction desks with
      | nil => exact ⟨[], rfl⟩
      | cons d desks ih =>
        obtain ⟨outcome, rfl⟩ := hover d List.mem_cons_self
        obtain ⟨outcomes, rfl⟩ := ih fun d hd => hover d (List.mem_cons_of_mem _ hd)
        exact ⟨outcome :: outcomes, rfl⟩

/-- A desk where the file comes to what is expected of it. -/
def Serves (o : Options) (files : FileTree) (paths : List Bytes) (path : Bytes) : Desk → Prop
  | .working script => script.Keeps (rules o files paths) fun r =>
      r.1.verdict = expected o files path
  | .finished outcome => outcome.verdict = expected o files path

/-- A crew whose world is in order and whose desks serve the files that were begun. -/
structure Sound (o : Options) (files : FileTree) (paths : List Bytes) (c : Crew) : Prop where
  world : InOrder o files paths c.world
  desks : ∃ begun, paths = begun ++ c.waiting ∧ List.Forall₂ (Serves o files paths) begun c.desks

variable {files : FileTree} {paths : List Bytes}

theorem Sound.start {w : World} (hempty : w.cache.entries = []) :
    Sound o w.files paths (start w paths) :=
  ⟨⟨rfl, fun key kept h => by simp [Crew.start, Cache.Store.fetch?, hempty] at h⟩, [], rfl, .nil⟩

/-- A turn of one of the workers changes the world and one desk. -/
theorem Sound.replace {w w' : World} {before after : List Desk} {d d' : Desk} {waiting : List Bytes}
    (h : Sound o files paths ⟨w, before ++ d :: after, waiting⟩)
    (hd : ∀ path, Serves o files paths path d → InOrder o files paths w' ∧
      Serves o files paths path d') :
    Sound o files paths ⟨w', before ++ d' :: after, waiting⟩ := by
  obtain ⟨-, begun, hpaths, hdesks⟩ := h
  have hreplaced : InOrder o files paths w' ∧
      List.Forall₂ (Serves o files paths) begun (before ++ d' :: after) := by
    clear hpaths
    induction before generalizing begun with
    | nil =>
      cases hdesks with
      | cons hserves hdesks => exact ⟨(hd _ hserves).1, .cons (hd _ hserves).2 hdesks⟩
    | cons _ before ih =>
      cases hdesks with
      | cons hserves hdesks => exact ⟨(ih _ hdesks).1, .cons hserves (ih _ hdesks).2⟩
  exact ⟨hreplaced.1, begun, hpaths, hreplaced.2⟩

theorem Sound.step (hkeys : KeysDiffer o files paths) (h : Sound o files paths c)
    (hstep : Step o parent workers c c') : Sound o files paths c' := by
  cases hstep with
  | @begin w desks path waiting s free =>
    obtain ⟨hw, begun, hpaths, hdesks⟩ := h
    have hpath : path ∈ paths := by
      rw [hpaths]
      exact List.mem_append_right _ List.mem_cons_self
    have hserves : Serves o files paths path (.working ((buildFile o parent path).run s)) :=
      keeps_buildFile hkeys hpath rfl rfl parent s
    exact ⟨hw, begun ++ [path], by simpa using hpaths, List.rel_append hdesks (.cons hserves .nil)⟩
  | @turn w before after waiting r next time =>
    refine h.replace fun path hserves => ?_
    have htimed : InOrder o files paths { w with time } := ⟨h.world.unchanged, h.world.kept⟩
    obtain ⟨hreply, hw⟩ := rules_fit o files paths _ r htimed hserves.1
    exact ⟨hw, hserves.2 _ hreply⟩
  | finish => exact h.replace fun path hserves => ⟨h.world, hserves⟩

theorem Sound.run (hkeys : KeysDiffer o files paths) (h : Sound o files paths c)
    (hrun : Relation.ReflTransGen (Step o parent workers) c c') : Sound o files paths c' := by
  induction hrun with
  | refl => exact h
  | tail _ hstep ih => exact ih.step hkeys hstep

/-- When all are done, there is an outcome for each file, in order, and it is the expected one. -/
theorem Sound.outcomes (h : Sound o files paths c) (hwaiting : c.waiting = [])
    {outcomes : List Outcome} (hdesks : c.desks = outcomes.map .finished) :
    List.Forall₂ (fun path outcome => outcome.verdict = expected o files path) paths outcomes := by
  obtain ⟨-, begun, hpaths, hserves⟩ := h
  rw [hwaiting, List.append_nil] at hpaths
  rw [hdesks, ← hpaths, List.forall₂_map_right_iff] at hserves
  exact hserves

end Crew

/-! ## Building a file alone -/

/-- What building a file comes to if nothing else is done, and no cache is used. -/
def alone (o : Options) (w : World) (path : Bytes) (parent : Nat) (s : Session) : Outcome :=
  (((buildFile { o with cache := false } parent path).run s).run World.answer w).1.1

theorem verdict_alone {o : Options} {w : World} {paths : List Bytes} (hempty : w.cache.entries = [])
    (hkeys : KeysDiffer o w.files paths) {path : Bytes} (hpath : path ∈ paths)
    (parent : Nat) (s : Session) :
    (alone o w path parent s).verdict = expected o w.files path := by
  have htarget : { o with cache := false }.target = o.target := rfl
  have hkeeps : (buildFile { o with cache := false } parent path).Keeps (rules o w.files paths)
      fun outcome => outcome.verdict = expected o w.files path :=
    keeps_buildFile hkeys hpath htarget rfl parent
  exact ((hkeeps s).run (rules_fit o w.files paths) (Crew.Sound.start hempty).world).1

/-- However many workers take however many turns in whatever order, a build of some files comes to
an end, and has an outcome for each file, in their order, with the verdict on the file that is built
alone. -/
theorem Crew.build_alike (o : Options) (jobs : Int) (processors parent : Nat)
    (paths : List Bytes) (w : World)
    (hempty : w.cache.entries = []) (hkeys : KeysDiffer o w.files paths) :
    (∀ crews : Nat → Crew, crews 0 = .start w paths →
      ∃ n, ¬ Crew.Step o parent (Crew.size jobs processors paths.length) (crews n)
        (crews (n + 1))) ∧
    ∀ c, Relation.ReflTransGen (Crew.Step o parent (Crew.size jobs processors paths.length))
        (.start w paths) c →
      (∃ c', Crew.Step o parent (Crew.size jobs processors paths.length) c c') ∨
      ∃ outcomes : List Outcome, c.waiting = [] ∧ c.desks = outcomes.map .finished ∧
        List.Forall₂ (fun path outcome => outcome.path = path ∧
          ∀ (parent' : Nat) (s : Session), outcome.verdict = (alone o w path parent' s).verdict)
          paths outcomes := by
  have hworkers : 0 < Crew.size jobs processors paths.length :=
    Nat.lt_of_lt_of_le Nat.one_pos (le_max_left _ _)
  refine ⟨fun crews _ => ?_, fun c hrun => ?_⟩
  · by_contra hforever
    push Not at hforever
    exact (wellFounded_iff_isEmpty_descending_chain.1 Crew.wellFounded_step).false ⟨crews, hforever⟩
  · rcases Crew.step_or_finished hworkers c with hstep | ⟨hwaiting, outcomes, hdesks⟩
    · exact .inl hstep
    · refine .inr ⟨outcomes, hwaiting, hdesks, ?_⟩
      have houtcomes := ((Crew.Sound.start hempty).run hkeys hrun).outcomes hwaiting hdesks
      refine (List.forall₂_iff_get.2 ⟨houtcomes.length_eq, fun i hi hi' => ?_⟩)
      have houtcome := houtcomes.get hi hi'
      have hplace : (outcomes.get ⟨i, hi'⟩).path = paths.get ⟨i, hi⟩ :=
        (congrArg Verdict.path houtcome).trans (expected_path ..)
      refine ⟨hplace, fun parent' s => ?_⟩
      rw [houtcome, verdict_alone hempty hkeys (List.get_mem _ _)]

/-- A file with an idle program. -/
def idleFiles : FileTree := ({} : FileTree).plant [[97]] (Program.encode (some .idle))

theorem Crew.build_alike_idle :
    ({ files := idleFiles } : World).cache.entries = [] ∧
      KeysDiffer {} idleFiles [[97], [98], [97]] ∧
      (programOf idleFiles [97]).isOk = true ∧
      ∀ c, Relation.ReflTransGen (Crew.Step {} 0 2)
        (.start { files := idleFiles } [[97], [98], [97]]) c →
        (∃ c', Crew.Step {} 0 2 c c') ∨
        ∃ outcomes : List Outcome, c.waiting = [] ∧ c.desks = outcomes.map .finished ∧
          List.Forall₂ (fun path outcome => outcome.path = path ∧ ∀ (parent' : Nat) (s : Session),
            outcome.verdict = (alone {} { files := idleFiles } path parent' s).verdict)
            [[97], [98], [97]] outcomes := by
  have hread (contents : Bytes) : (({} : FileTree).plant [[97]] contents).read [97] =
    .ok contents := by cbv
  have hmissing (contents : Bytes) : (({} : FileTree).plant [[97]] contents).read [98] =
      .error ⟨"open", [98], .missing⟩ := by cbv
  have hkeys : KeysDiffer {} idleFiles [[97], [98], [97]] := by
    intro a ha b hb p q hp hq _
    have hfile (path : Bytes) (hpath : path ∈ ([[97], [98], [97]] : List Bytes)) (p : Program)
        (hp : programOf idleFiles path = .ok p) : programOf idleFiles [97] = .ok p := by
      simp only [List.mem_cons, List.not_mem_nil, or_false] at hpath
      rcases hpath with rfl | rfl | rfl
      · exact hp
      · rw [programOf, idleFiles, hmissing] at hp
        cases hp
      · exact hp
    exact Except.ok.inj ((hfile a ha p hp).symm.trans (hfile b hb q hq))
  have hdecoded : (programOf idleFiles [97]).isOk = true := by
    rw [programOf, idleFiles, hread]
    decide +kernel
  exact ⟨rfl, hkeys, hdecoded,
    (Crew.build_alike {} 2 1 0 [[97], [98], [97]] { files := idleFiles } rfl hkeys).2⟩

end Build

end Breadbin
