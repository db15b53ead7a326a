import Breadbin.Proofs.Routine.Bodies
import Breadbin.Proofs.Assembly.Linking
import Breadbin.Proofs.Routine.Library
import Breadbin.Proofs.Routine.Room
import Breadbin.Proofs.Text.Petscii

/-!
# The labels of routines

Only routines have labels with names, each under its own, and code refers to labels without offsets.
-/

namespace Breadbin

namespace Assembly.Stream

theorem fixups_fail (s : Stream) (e : Error) : (s.fail e).fixups = s.fixups := by
  unfold fail
  split <;> rfl

@[simp] theorem fixups_bind (s : Stream) (l : LabelId) : (s.bind l).fixups = s.fixups := by
  unfold bind
  split
  · exact fixups_fail ..
  · split
    · exact fixups_fail ..
    · rfl

@[simp] theorem fixups_data (s : Stream) (bytes : List UInt8) :
    (s.data bytes).fixups = s.fixups := by
  unfold data
  split <;> rfl

/-- The fixup of an instruction takes its offset from the operand. -/
theorem mem_fixups_emit {s : Stream} {mn : Mnemonic} {op : Operand} {f : Fixup}
    (h : f ∈ (s.emit mn op).fixups.toList) :
    f ∈ s.fixups.toList ∨ op.label.isSome = true ∧ f.addend = op.value := by
  unfold emit at h
  split at h
  · exact .inl h
  · split at h
    · exact .inl (fixups_fail .. ▸ h)
    · split at h
      · exact .inl (fixups_fail .. ▸ h)
      · dsimp only at h
        split at h
        next hlabel =>
          rw [Array.toList_push, List.mem_append, List.mem_singleton] at h
          rcases h with h | rfl
          · exact .inl h
          · exact .inr ⟨(Bool.and_eq_true_iff.1 hlabel).1, rfl⟩
        next => exact .inl h

end Assembly.Stream

namespace Routine

open Assembly Writer

/-! ## Workspaces -/

namespace Workspace

/-- Labels are referred to without offsets, and only routines have labels with names. -/
structure Clear (w : Workspace) : Prop where
  addends : ∀ f ∈ w.stream.fixups.toList, f.addend = 0
  names : ∀ i name, w.stream.names[i]? = some name →
    name = [] ∨ ∃ id l, (id, l) ∈ w.labels ∧ l.number.toNat = i + 1 ∧ name = Text.bytesOf id.name
  routines : ∀ id l, (id, l) ∈ w.labels → ∃ i, l.number.toNat = i + 1 ∧
    w.stream.names[i]? = some (Text.bytesOf id.name)

variable {w : Workspace}

theorem Clear.empty (target : Target) : Clear { target } :=
  ⟨by simp, by simp [Stream.names], by simp⟩

theorem Clear.onStream {s : Stream} (h : w.Clear) (hnames : s.names = w.stream.names)
    (haddends : ∀ f ∈ s.fixups.toList, f ∈ w.stream.fixups.toList ∨ f.addend = 0) :
    Clear { w with stream := s } :=
  { addends := fun f hf => (haddends f hf).elim (h.addends f) id
    names := fun i name hi => h.names i name (hnames ▸ hi)
    routines := fun id l hl => (h.routines id l hl).imp fun _ hi => ⟨hi.1, hnames.symm ▸ hi.2⟩ }

theorem Clear.emit (h : w.Clear) (mn : Mnemonic) {op : Operand}
    (hop : op.label.isSome = true → op.value = 0) :
    Clear { w with stream := w.stream.emit mn op } :=
  h.onStream (Stream.names_emit ..) fun _ hf =>
    (Stream.mem_fixups_emit hf).imp id fun ⟨hlabel, hvalue⟩ => hvalue.trans (hop hlabel)

theorem Clear.bind (h : w.Clear) (l : LabelId) : Clear { w with stream := w.stream.bind l } :=
  h.onStream (Stream.names_bind ..) fun _ hf => .inl (Stream.fixups_bind w.stream l ▸ hf)

theorem Clear.data (h : w.Clear) (bytes : List UInt8) :
    Clear { w with stream := w.stream.data bytes } :=
  h.onStream (Stream.names_data ..) fun _ hf => .inl (Stream.fixups_data w.stream bytes ▸ hf)

theorem Clear.labelled (h : w.Clear) : (w.labelled []).Clear where
  addends := h.addends
  names i name hi := by
    rw [Workspace.labelled, Stream.names_addLabel, List.getElem?_append] at hi
    split at hi
    · exact h.names i name hi
    · refine .inl ?_
      rw [List.getElem?_singleton] at hi
      split at hi
      · exact (Option.some.inj hi).symm
      · cases hi
  routines id l hl := by
    obtain ⟨i, hi, hname⟩ := h.routines id l hl
    refine ⟨i, hi, ?_⟩
    rw [Workspace.labelled, Stream.names_addLabel]
    rwa [List.getElem?_append_left (List.getElem?_eq_some_iff.1 hname).1]

/-- Asking for a routine makes a label with its name. -/
theorem Clear.requireOne (h : w.Clear) (id : RoutineId)
    (few : (w.requireOne id).stream.labels.size < 4294967296) :
    (w.requireOne id).Clear := by
  unfold Workspace.requireOne at few ⊢
  cases hl : w.label? id with
  | some l => exact h
  | none =>
    rw [hl] at few
    have hsize : w.stream.names.length = w.stream.labels.size := by simp [Stream.names]
    have hnumber : (w.stream.addLabel (Text.bytesOf id.name)).2.number.toNat =
        w.stream.names.length + 1 := by
      simp only [Stream.addLabel, Array.size_push] at few
      simp only [Stream.addLabel, UInt32.toNat_ofNat', hsize]
      omega
    have hnames : (w.stream.addLabel (Text.bytesOf id.name)).1.names = w.stream.names ++
      [Text.bytesOf id.name] := Stream.names_addLabel ..
    refine ⟨h.addends, fun i name hi => ?_, fun r l hr => ?_⟩
    · change (w.stream.addLabel (Text.bytesOf id.name)).1.names[i]? = _ at hi
      rw [hnames, List.getElem?_append] at hi
      split at hi
      · refine (h.names i name hi).imp_right fun hnamed => ?_
        obtain ⟨r, l, hr, hrest⟩ := hnamed
        exact ⟨r, l, List.mem_cons_of_mem _ hr, hrest⟩
      · rw [List.getElem?_singleton] at hi
        split at hi
        · exact .inr ⟨id, _, List.mem_cons_self, by omega, (Option.some.inj hi).symm⟩
        · cases hi
    · show ∃ i, l.number.toNat = i + 1 ∧ (w.stream.addLabel (Text.bytesOf id.name)).1.names[i]? =
        some (Text.bytesOf r.name)
      rw [hnames]
      rcases List.mem_cons.1 hr with heq | hr
      · cases heq
        exact ⟨_, hnumber, by simp⟩
      · obtain ⟨i, hi, hname⟩ := h.routines r l hr
        exact ⟨i, hi, by rwa [List.getElem?_append_left (List.getElem?_eq_some_iff.1 hname).1]⟩

theorem Clear.require (h : w.Clear) (id : RoutineId)
    (few : (w.require id).1.stream.labels.size < 4294967296) :
    (w.require id).1.Clear := by
  have hfold (ids : List RoutineId) (w : Workspace) (h : w.Clear)
      (few : (ids.foldl Workspace.requireOne w).stream.labels.size < 4294967296) :
          (ids.foldl Workspace.requireOne w).Clear := by
    induction ids generalizing w with
    | nil => exact h
    | cons id ids ih =>
      refine ih _ (h.requireOne id (Nat.lt_of_le_of_lt ?_ few)) few
      exact (foldl_requireOne_grows (w.requireOne id) ids).stream.precedes.labels
  exact hfold _ w h few

end Workspace

namespace Writer

variable {α : Type} {R : List RoutineId} {n : Nat} {e : Bool} {K M N : List LabelId}
  {x : Writer α} {w : Workspace}

/-- Writers make no labels with names and refer to labels without offsets. -/
theorem Leaves.clear (h : Leaves R n e K M x N) (hw : w.Clear)
    (few : (x w).2.stream.labels.size < 4294967296) :
    (x w).2.Clear := by
  induction h generalizing w with
  | done => exact hw
  | thenLabel _ ih => exact ih _ hw.labelled few
  | thenHere _ ih => exact ih _ (hw.labelled.bind _) few
  | thenTarget _ ih => exact ih _ hw few
  | andThen _ hf ih ih' =>
    exact ih' _ (ih hw (Nat.lt_of_le_of_lt ((hf _).extends _).labels few)) few
  | @op _ _ _ mn =>
    rw [show Writer.op mn w = ((), { w with stream := w.stream.op mn }) from rfl, op_eq_emit]
    exact hw.emit mn (by cases mn <;> nofun)
  | emit _ hplain =>
    refine hw.emit _ fun hlabel => ?_
    rw [hplain] at hlabel
    cases hlabel
  | imm | zp | indY | abs | absY => exact hw.emit _ nofun
  | tableX | branch | jump | callLabel => exact hw.emit _ fun _ => rfl
  | @loadAddress _ _ _ l =>
    have hlow : (Operand.lowByte (.ofLabel l)).label.isSome = true →
        (Operand.lowByte (.ofLabel l)).value = 0 := by
      unfold Operand.lowByte
      split
      · exact fun _ => rfl
      · nofun
    have hhigh : (Operand.highByte (.ofLabel l)).label.isSome = true →
        (Operand.highByte (.ofLabel l)).value = 0 := by
      unfold Operand.highByte
      split
      · exact fun _ => rfl
      · nofun
    exact (hw.emit .lda hlow).emit .ldx hhigh
  | @call _ _ _ id | @tailCall _ _ _ id =>
    have hcall := Workspace.emitted_extends (w.require id).1
    have hfew := Nat.lt_of_le_of_lt (hcall _ (.absolute (.ofLabel (w.require id).2))).labels few
    exact (hw.require id hfew).emit _ fun _ => rfl
  | data => exact hw.data _
  | bind => exact hw.bind _

end Writer

end Routine

end Breadbin

/-!
## Linked routines

A routine and all it needs are written and linked at `$1000`.  When each of these routines keeps to
its conduct wherever those that it calls do, then each of them does in the linked code: calls go
down a list, so the routines can be taken one after the other.
-/

namespace Breadbin.Routine

open Assembly Machine Writer

/-- A routine needs more than one that it calls. -/
theorem length_postorder_lt {id c : RoutineId} (h : c ∈ id.calls) :
    c.postorder.length < id.postorder.length := by
  have hall : ∀ id ∈ RoutineId.all, ∀ c ∈ id.calls, c.postorder.length < id.postorder.length := by
    decide +kernel
  exact hall id (mem_all id) c h

/-! ## Libraries that are laid out -/

namespace Workspace

/-- Wherever the lines are installed a routine keeps to its conduct, if those that it calls do. -/
def Sound (K : RoutineId → Conduct) (w : Workspace) (id : RoutineId) (ls : List Line) : Prop :=
  ∀ (code : LinkedCode) a b, (K id).Fits code → code.Installed a ls b → w.Offers K code id.calls →
    (K id).Starts code a

/-- Behind `base` routines have been written that are sound and short. -/
structure Laid (K : RoutineId → Conduct) (t : Target) (base : Stream) (w : Workspace)
    (segments : List Segment) : Prop where
  target : w.target = t
  lines : base.Grows w.stream (segments.flatMap Segment.lines)
  size : rooms (segments.flatMap Segment.lines) ≤ 2048 * w.emitted.length
  /-- whoever asks for a routine asks for what it needs -/
  closed : ∀ id, (w.label? id).isSome → ∀ r, id.Needs r → (w.label? r).isSome
  texts : ∀ id ∈ w.emitted, ∃ l ls, .routine id l ls ∈ segments ∧
    w.label? id = some l ∧ w.Sound K id ls

variable {K : RoutineId → Conduct} {t : Target} {base : Stream} {w w' : Workspace} {id : RoutineId}
  {ls : List Line} {laid : List Segment}

theorem Sound.mono (h : w.Sound K id ls)
    (labels : ∀ r l, w.label? r = some l → w'.label? r = some l) : w'.Sound K id ls :=
  fun code a b hfits hin hoffers => h code a b hfits hin fun r hr l hl =>
    hoffers r hr l (labels r l hl)

namespace Laid

/-- No routine has been written yet. -/
theorem start (hemitted : w.emitted = [])
    (hclosed : ∀ id, (w.label? id).isSome → ∀ r, id.Needs r → (w.label? r).isSome) :
    w.Laid K w.target w.stream [] :=
  ⟨rfl, .refl _, Nat.zero_le _, hclosed, by simp [hemitted]⟩

theorem require (h : w.Laid K t base laid) (id : RoutineId) :
    (w.require id).1.Laid K t base laid := by
  have hgrows := w.require_grows id
  refine ⟨hgrows.target.trans h.target, ?_, ?_, fun asked hasked r hr => ?_, fun r hr => ?_⟩
  · simpa using h.lines.trans hgrows.stream
  · rw [hgrows.emitted]
    exact h.size
  · rw [isSome_require_iff] at hasked ⊢
    refine hasked.imp (fun hold => h.closed asked hold r hr) fun hnew => ?_
    exact mem_postorder_iff.2 ((mem_postorder_iff.1 hnew).trans hr)
  · rw [hgrows.emitted] at hr
    obtain ⟨l, ls, hmem, hl, hsound⟩ := h.texts r hr
    exact ⟨l, ls, hmem, hgrows.labels r l hl, hsound.mono hgrows.labels⟩

theorem emitOne (h : w.Laid K t base laid) (hobeys : ∀ r, (w.label? r).isSome → Obeys K t r)
    (id : RoutineId) :
    ∃ more, (emitOne id w).2.Laid K t base more := by
  rcases emitOne_cases id w with ⟨heq, -⟩ | ⟨l, hl, hid, heq⟩
  · rw [heq]
    exact ⟨laid, h⟩
  let v : Workspace := { w with emitted := id :: w.emitted, stream := w.stream.bind l }
  have hv : (Routine.emitOne id w).2 = (body id v).2 := congrArg Prod.snd heq
  obtain ⟨ls, hls, hrooms, hflows⟩ := hobeys id (by simp [hl]) v h.target
  have hsame : (body id v).2.labels = w.labels := labels_body h.closed (by simp [hl]) rfl
  have hlabel (r : RoutineId) : (body id v).2.label? r = w.label? r := by rw [label?, hsame, label?]
  rw [hv]
  refine ⟨laid ++ [.routine id l ls], hls.target.trans h.target, ?_, ?_, fun asked hasked r hr =>
    ?_, fun r hr => ?_⟩
  · rw [List.flatMap_append, List.flatMap_singleton]
    have hplain : [Line.bound l].any Line.isAlign = false := rfl
    have hbind : w.stream.Grows v.stream [.bound l] := .writing w.stream hplain
    exact h.lines.trans (hbind.trans hls.stream)
  · have := h.size
    have hbound : rooms (.bound l :: ls) = 0 + rooms ls := rfl
    rw [hls.emitted, List.flatMap_append, List.flatMap_singleton, rooms_append, Segment.lines,
      hbound, List.length_cons]
    omega
  · rw [hlabel] at hasked ⊢
    exact h.closed asked hasked r hr
  · rw [hls.emitted] at hr
    rcases List.mem_cons.1 hr with rfl | hr
    · refine ⟨l, ls, by simp, (hlabel r).trans hl, fun code a b hfits hin hoffers => ?_⟩
      exact (hflows code a b hfits hin hoffers 0 (.nil _ _ _)).2
    · obtain ⟨l', ls', hmem, hl', hsound⟩ := h.texts r hr
      exact ⟨l', ls', List.mem_append_left _ hmem, (hlabel r).trans hl', hsound.mono fun c lc hc =>
        (hlabel c).trans hc⟩

/-- Writing a routine makes no routine known. -/
theorem label?_emitOne (h : w.Laid K t base laid) (id r : RoutineId) :
    (Routine.emitOne id w).2.label? r = w.label? r := by
  rcases emitOne_cases id w with ⟨heq, -⟩ | ⟨l, hl, -, heq⟩
  · rw [heq]
  · let v : Workspace := { w with emitted := id :: w.emitted, stream := w.stream.bind l }
    have hsame : (body id v).2.labels = w.labels := labels_body h.closed (by simp [hl]) rfl
    rw [heq]
    exact congrArg (List.lookup r) hsame

/-- What writing one routine after the other keeps, writing the library keeps. -/
theorem emitLibrary (h : w.Laid K t base laid) (hobeys : ∀ r, (w.label? r).isSome → Obeys K t r) :
    ∃ more, (emitLibrary w).2.Laid K t base more := by
  refine (emitLibrary_induction
    (P := fun v => (∃ more, v.Laid K t base more) ∧ ∀ r, v.label? r = w.label? r)
    (fun id v hv => ?_) ⟨⟨laid, h⟩, fun _ => rfl⟩).1
  obtain ⟨⟨more, hmore⟩, hlabels⟩ := hv
  exact ⟨hmore.emitOne (fun r hr => hobeys r (hlabels r ▸ hr)) id, fun r =>
    (hmore.label?_emitOne id r).trans (hlabels r)⟩

/-- In the linked code every routine that was written keeps to its conduct. -/
theorem starts (h : w.Laid K t base laid) {code : LinkedCode} {a b : Nat}
    (hin : code.Installed a (laid.flatMap Segment.lines) b)
    (hfits : ∀ r ∈ w.emitted, (K r).Fits code)
    (hcalls : ∀ r ∈ w.emitted, ∀ c ∈ r.calls, c ∈ w.emitted) {l : LabelId} (hid : id ∈ w.emitted)
    (hl : w.label? id = some l) : ∃ a, code.At l a ∧ (K id).Starts code a := by
  induction hn : id.postorder.length using Nat.strong_induction_on generalizing id l with
  | _ n ih =>
    obtain ⟨l', ls, hmem, hl', hsound⟩ := h.texts id hid
    obtain rfl : l = l' := Option.some.inj (hl.symm.trans hl')
    obtain ⟨before, behind, rfl⟩ := List.append_of_mem hmem
    rw [List.flatMap_append, List.flatMap_cons] at hin
    obtain ⟨start, -, hrest⟩ := hin.split _
    obtain ⟨e, hsegment, -⟩ := hrest.split _
    obtain ⟨hat, hbody⟩ := hsegment.label
    refine ⟨start, hat, hsound code start e (hfits id hid) hbody fun c hc lc hlc => ?_⟩
    exact ih _ (hn ▸ length_postorder_lt hc) (hcalls id hid c hc) hlc rfl

theorem mem_labels (h : w.Laid K t base laid) {l : LabelId} (hid : id ∈ w.emitted)
    (hl : w.label? id = some l) :
    l ∈ (laid.flatMap Segment.lines).filterMap Line.label? := by
  obtain ⟨l', ls, hmem, hl', -⟩ := h.texts id hid
  obtain rfl : l = l' := Option.some.inj (hl.symm.trans hl')
  refine List.mem_filterMap.2 ⟨.bound l, List.mem_flatMap.2 ⟨_, hmem, ?_⟩, rfl⟩
  simp [Segment.lines]

end Laid

/-- A library of which some routines were requested; nothing but routines stands in the stream, and
they are sound. -/
structure Stocked (K : RoutineId → Conduct) (t : Target) (requested : List RoutineId)
    (w : Workspace) : Prop where
  clear : w.Clear
  served : ∃ segments, w.Served requested segments
  laid : ∃ segments, w.Laid K t {} segments

variable {requested : List RoutineId}

namespace Stocked

theorem empty (K : RoutineId → Conduct) (t : Target) : Stocked K t [] { target := t } :=
  ⟨.empty t, ⟨[], .empty t⟩, [], .start (w := { target := t }) rfl (by simp [label?])⟩

theorem require (h : w.Stocked K t requested) (id : RoutineId) :
    (w.require id).1.Stocked K t (requested ++ [id]) := by
  obtain ⟨hclear, ⟨segments, hserved⟩, laid, hlaid⟩ := h
  have hasked := hserved.require id
  exact ⟨hclear.require id (Nat.lt_of_le_of_lt hasked.labels_le (by decide)), ⟨_, hasked⟩,
    laid, hlaid.require id⟩

theorem emitOne (h : w.Stocked K t requested)
    (hobeys : ∀ id ∈ requested, ∀ r, id.Needs r → Obeys K t r) (id : RoutineId) :
    (Routine.emitOne id w).2.Stocked K t requested := by
  obtain ⟨hclear, ⟨segments, hserved⟩, laid, hlaid⟩ := h
  have hasked := hserved.emitOne id
  refine ⟨?_, hasked, hlaid.emitOne (fun r hr => ?_) id⟩
  · obtain ⟨more, hmore⟩ := hasked
    have few := Nat.lt_of_le_of_lt hmore.labels_le (show 33 * 42 < 4294967296 by decide)
    rcases emitOne_cases id w with ⟨heq, -⟩ | ⟨l, -, -, heq⟩
    · rwa [heq]
    · rw [heq] at few ⊢
      obtain ⟨n, -, hleaves⟩ := body_leaves id
      have hbound := hclear.bind l
      exact hleaves.clear ⟨hbound.addends, hbound.names, hbound.routines⟩ few
  · obtain ⟨asked, hmem, hneeds⟩ := (hserved.asked r).1 hr
    exact hobeys asked hmem r hneeds

theorem emitLibrary (h : w.Stocked K t requested)
    (hobeys : ∀ id ∈ requested, ∀ r, id.Needs r → Obeys K t r) :
    (Routine.emitLibrary w).2.Stocked K t requested :=
  emitLibrary_induction (P := Stocked K t requested) (fun id _ hw => hw.emitOne hobeys id) h

end Stocked

end Workspace

/-! ## Symbols -/

/-- A name that stands for one address in a listing is found in its image. -/
theorem lookup?_of_named {L : Listing} {image : Image} {env : Addresses} {ps : List Placement}
    (h : L.Linked image env ps) {name : String} {a : Nat}
    (hmem : (Text.bytesOf name, a) ∈ L.named env)
    (hunique : ∀ b, (Text.bytesOf name, b) ∈ L.named env → b = a) :
    ∃ address, image.lookup? name = some address ∧ address.toNat = a := by
  have hiff (b : Nat) :
      (Text.bytesOf name, b) ∈ image.symbols.map (fun s => (s.label, s.address.toNat)) ↔
      (Text.bytesOf name, b) ∈ L.named env := by
    have := congrArg ((Text.bytesOf name, b) ∈ ·) (h.symbols b)
    simpa using this
  obtain ⟨s, hs, hpair⟩ := List.mem_map.1 ((hiff a).2 hmem)
  have hfind : (image.symbols.find? fun s => s.label == Text.bytesOf name).isSome :=
    List.find?_isSome.2 ⟨s, hs, by simpa using congrArg Prod.fst hpair⟩
  obtain ⟨found, hfound⟩ := Option.isSome_iff_exists.1 hfind
  have hname : found.label = Text.bytesOf name := by simpa using List.find?_some hfound
  refine ⟨found.address, by
    rw [Image.lookup?, Image.addressOf?, hfound]; rfl, hunique _ ((hiff _).1 ?_)⟩
  exact List.mem_map.2 ⟨found, List.mem_of_find?_eq_some hfound, by rw [hname]⟩

theorem mem_named {L : Listing} {env : Addresses} {name : Bytes} {a : Nat} :
    (name, a) ∈ L.named env ↔ name ≠ [] ∧ ∃ i, L.names[i]? = some name ∧
      ∃ l, (L.labels.find? fun l => l.number.toNat = i + 1) = some l ∧ a = env l := by
  simp only [Listing.named, List.mem_filterMap]
  constructor
  · rintro ⟨⟨text, i⟩, hi, hfound⟩
    have hi := List.mem_zipIdx_iff_getElem?.1 hi
    split at hfound
    · cases hfound
    next hne =>
      obtain ⟨l, hl, hpair⟩ := Option.map_eq_some_iff.1 hfound
      cases hpair
      exact ⟨by simpa using hne, i, hi, l, hl, rfl⟩
  · rintro ⟨hne, i, hi, l, hl, rfl⟩
    refine ⟨(name, i), List.mem_zipIdx_iff_getElem?.2 hi, ?_⟩
    simp [hne, hl]

/-- The names of the routines are different, and none is empty. -/
theorem name_inj {id r : RoutineId} (h : Text.bytesOf id.name = Text.bytesOf r.name) : id = r := by
  have hnodup : (RoutineId.all.map RoutineId.name).Nodup := by decide +kernel
  exact List.inj_on_of_nodup_map hnodup (mem_all id) (mem_all r) (Text.bytesOf_inj h)

theorem name_ne_empty (id : RoutineId) : Text.bytesOf id.name ≠ [] := by
  exact Text.bytesOf_ne_nil (by cases id <;> nofun)

/-- The name of a routine stands for the address of its label. -/
theorem Workspace.Clear.mem_named {w : Workspace} (h : w.Clear)
    (hkeys : (w.labels.map Prod.fst).Nodup)
    {L : Listing} (hnames : w.stream.names = L.names) {env : Addresses}
    {id : RoutineId} {l : LabelId}
    (hl : (id, l) ∈ w.labels) (hbound : l ∈ L.labels) {a : Nat} :
    (Text.bytesOf id.name, a) ∈ L.named env ↔ a = env l := by
  have hsame {i : Nat} {l' : LabelId} (hi : l.number.toNat = i + 1)
      (hl' : L.labels.find? (fun l => l.number.toNat = i + 1) = some l') : l' = l := by
    have hnumber : l'.number.toNat = i + 1 := by simpa using List.find?_some hl'
    obtain ⟨number⟩ := l
    obtain ⟨number'⟩ := l'
    exact congrArg LabelId.mk (UInt32.toNat_inj.1 (hnumber.trans hi.symm))
  rw [Routine.mem_named]
  constructor
  · rintro ⟨hne, i, hi, l', hl', rfl⟩
    rw [← hnames] at hi
    rcases h.names i _ hi with hempty | ⟨r, l'', hr, hnumber, hname⟩
    · exact absurd hempty hne
    obtain rfl := name_inj hname
    obtain rfl : l = l'' := congrArg Prod.snd (List.inj_on_of_nodup_map hkeys hl hr rfl)
    rw [hsame hnumber hl']
  · rintro rfl
    obtain ⟨i, hi, hname⟩ := h.routines id l hl
    have hfind : (L.labels.find? fun l => l.number.toNat = i + 1).isSome :=
      List.find?_isSome.2 ⟨l, hbound, by simpa using hi⟩
    obtain ⟨l', hl'⟩ := Option.isSome_iff_exists.1 hfind
    exact ⟨name_ne_empty id, i, hnames ▸ hname, l', hl', by rw [hsame hi hl']⟩

/-! ## The linked library -/

/-- The library with some routines and all they need. -/
def stock (t : Target) (ids : List RoutineId) : Workspace :=
  ({ target := t } : Workspace).serve (ids.map .ask ++ [.emit])

/-- A library holds the routines and what they need, and they are sound. -/
theorem stock_stocked {K : RoutineId → Conduct} {t : Target} {ids : List RoutineId}
    (hobeys : ∀ id ∈ ids, ∀ r, id.Needs r → Obeys K t r) :
    (stock t ids).Stocked K t ids := by
  have hasks (ids asked : List RoutineId) (w : Workspace) (h : w.Stocked K t asked) :
      (w.serve (ids.map .ask)).Stocked K t (asked ++ ids) := by
    induction ids generalizing asked w with
    | nil => simpa [Workspace.serve] using h
    | cons id ids ih =>
      rw [List.append_cons]
      exact ih _ _ (h.require id)
  have hall := hasks ids [] _ (.empty K t)
  rw [List.nil_append] at hall
  rw [stock, Workspace.serve_emit]
  exact hall.emitLibrary hobeys

/-- The routines that a library holds are those that were requested and what they need. -/
theorem mem_emitted_stock {t : Target} {ids : List RoutineId} {r : RoutineId} :
    r ∈ (stock t ids).emitted ↔ ∃ id ∈ ids, id.Needs r := by
  obtain ⟨segments, hserved⟩ := (Workspace.Served.empty t).serve (ids.map .ask)
  have hrequested : (ids.map Request.ask).filterMap Request.routine? = ids := by
    rw [List.filterMap_map]
    exact List.filterMap_some
  rw [hrequested, List.nil_append] at hserved
  obtain ⟨more, hmore⟩ := hserved.emitLibrary
  rw [stock, Workspace.serve_emit, ← hmore.asked]
  exact ⟨hmore.tidy.asked r, fun hr => emitLibrary_emitted hserved.once hr⟩

/-- An image lies behind the stack page and apart from the memory that its routines change. -/
structure LiesApart (t : Target) (ids : List RoutineId) (image : Image) : Prop where
  above : mainBase ≤ image.origin.toNat
  below : image.stop ≤ 0xFFFF
  apart : ∀ id ∈ ids, ∀ area ∈ (conduct t id).areas,
    mainBase ≤ area.1 ∧ (area.1 + area.2 ≤ image.origin.toNat ∨ image.stop ≤ area.1)

/-- A routine changes at least the memory that those that it needs change. -/
theorem areas_subset {id r : RoutineId} (h : id.Needs r) (t : Target) :
    (conduct t r).areas ⊆ (conduct t id).areas := by
  have hall : ∀ id ∈ RoutineId.all, ∀ c ∈ id.calls, (bounds c).buffers ⊆ (bounds id).buffers := by
    decide +kernel
  have hbuffers : (bounds r).buffers ⊆ (bounds id).buffers := by
    induction h with
    | refl => exact List.Subset.refl _
    | tail _ hc ih => exact List.Subset.trans (hall _ (mem_all _) _ hc) ih
  intro area harea
  obtain ⟨buffer, hbuffer, hmem⟩ := List.mem_flatMap.1 harea
  exact List.mem_flatMap.2 ⟨buffer, hbuffers hbuffer, hmem⟩

/-- Where there is enough room, a library is linked. -/
theorem stock_links {K : RoutineId → Conduct} {t : Target} {ids : List RoutineId}
    (hobeys : ∀ id ∈ ids, ∀ r, id.Needs r → Obeys K t r)
    {origin : UInt16} (hroom : origin.toNat + 2048 * (stock t ids).emitted.length < 0x10000) :
    ∃ image, (stock t ids).stream.link origin = .ok image ∧ image.origin = origin ∧
      image.stop ≤ origin.toNat + 2048 * (stock t ids).emitted.length := by
  obtain ⟨hclear, ⟨segments, hserved⟩, laid, hlaid⟩ := stock_stocked hobeys
  have hcomplete := hserved.complete fun r hr => mem_emitted_stock.2 ((hserved.asked r).1 hr)
  obtain ⟨L, hshows, hlines⟩ := hlaid.lines.shows hcomplete.error
  have hplain : ∀ line ∈ L.lines, line.isAlign = false := by
    rw [hlines]
    exact hlaid.lines.not_align
  have hsize := hlaid.size
  have hfree : origin.toNat + rooms L.lines < 0x10000 := by
    rw [hlines]
    omega
  obtain ⟨image, hlink, hbytes⟩ :=
    hshows.exists_link hcomplete.error hcomplete.resolved hplain hclear.addends hfree
    (hcomplete.links origin)
  have horigin := (Stream.link_extent hlink).1
  refine ⟨image, hlink, horigin, ?_⟩
  rw [hlines] at hbytes
  rw [Image.stop, horigin]
  omega

/-- In a linked library the routines keep to what is asked of them, if that leaves the code
alone. -/
theorem stock_obeys {K : RoutineId → Conduct} {t : Target} {ids : List RoutineId}
    (hobeys : ∀ id ∈ ids, ∀ r, id.Needs r → Obeys K t r)
    {origin : UInt16} {image : Image} (hlink : (stock t ids).stream.link origin = .ok image)
    (habove : mainBase ≤ image.origin.toNat)
    (hbelow : image.stop ≤ 0xFFFF)
    (hfits : ∀ id ∈ ids, ∀ r, id.Needs r → ∀ code : LinkedCode, code.origin = image.origin.toNat →
      code.origin + Assembly.Placement.size code.placements = image.stop → (K r).Fits code) :
    ∃ code : LinkedCode, code.origin = image.origin.toNat ∧ code.bytes = image.bytes.toList ∧
      ∀ id ∈ ids, ∃ address, image.lookup? id.name = some address ∧ (K id).Fits code ∧
        (K id).Starts code address.toNat := by
  obtain ⟨hclear, ⟨segments, hserved⟩, laid, hlaid⟩ := stock_stocked hobeys
  obtain ⟨horigin, -⟩ := Stream.link_extent hlink
  rw [horigin] at habove
  obtain ⟨code, hcode, hbytes, hin, L, hshows, hlines, hlinked⟩ :=
    LinkedCode.exists_of_link hlaid.lines hlink habove
    (by rwa [Image.stop, horigin] at hbelow)
  have hstop : image.stop = code.origin + Assembly.Placement.size code.placements := by
    rw [Image.stop, hcode, horigin, ← LinkedCode.length_bytes, hbytes, Array.length_toList]
  replace hfits : ∀ id ∈ ids, ∀ r, id.Needs r → (K r).Fits code :=
    fun id hid r hr => hfits id hid r hr code (by rw [hcode, horigin]) hstop.symm
  refine ⟨code, by rw [hcode, horigin], hbytes, fun id hid => ?_⟩
  have hemitted : id ∈ (stock t ids).emitted := mem_emitted_stock.2 ⟨id, hid, .refl⟩
  obtain ⟨l, -, -, hl, -⟩ := hlaid.texts id hemitted
  have hmem : (id, l) ∈ (stock t ids).labels := by
    obtain ⟨pre, post, heq, -⟩ := List.lookup_eq_some_iff.1 hl
    simp [heq]
  have hbound : l ∈ L.labels := by
    rw [Listing.labels, hlines]
    exact hlaid.mem_labels hemitted hl
  obtain ⟨start, hat, hstarts⟩ := hlaid.starts hin
    (fun r hr => by obtain ⟨asked, hasked, hneeds⟩ :=
      mem_emitted_stock.1 hr; exact hfits asked hasked r hneeds)
    (fun r hr c hc => by
      obtain ⟨asked, hasked, hneeds⟩ := mem_emitted_stock.1 hr
      exact mem_emitted_stock.2 ⟨asked, hasked, hneeds.tail hc⟩) hemitted hl
  have hnamed {a : Nat} : (Text.bytesOf id.name, a) ∈ L.named code.env ↔ a = code.env l :=
    hclear.mem_named hserved.tidy.keys hshows.names hmem hbound
  obtain ⟨address, hlookup, haddress⟩ :=
    lookup?_of_named hlinked (hnamed.2 rfl) fun b hb => hnamed.1 hb
  refine ⟨address, hlookup, hfits id hid id .refl, ?_⟩
  rwa [haddress, hat.2]

/-- In a linked library the routines keep to what is asked of them, if they change no more memory
than they may. -/
theorem stock_starts_as {K : RoutineId → Conduct} {t : Target} {ids : List RoutineId}
    (hobeys : ∀ id ∈ ids, ∀ r, id.Needs r → Obeys K t r)
    (hareas : ∀ r, (K r).areas = (conduct t r).areas) {origin : UInt16} {image : Image}
    (hlink : (stock t ids).stream.link origin = .ok image) (hapart : LiesApart t ids image) :
    ∃ code : LinkedCode, code.origin = image.origin.toNat ∧ code.bytes = image.bytes.toList ∧
      ∀ id ∈ ids, ∃ address, image.lookup? id.name = some address ∧ (K id).Fits code ∧
        (K id).Starts code address.toNat := by
  refine stock_obeys hobeys hlink hapart.above hapart.below fun id hid r hr code hcode hstop => ?_
  rintro address ⟨area, harea, hfrom, hto⟩
  rw [hareas] at harea
  obtain ⟨hmain, haside⟩ := hapart.apart id hid area (areas_subset hr t harea)
  refine ⟨by omega, fun ⟨hfirst, hlast⟩ => ?_⟩
  omega

/-- In a linked library the routines keep to their conducts. -/
theorem stock_starts {t : Target} {ids : List RoutineId}
    (hconducted : ∀ id ∈ ids, ∀ r, id.Needs r → Conducted t r)
    {origin : UInt16} {image : Image} (hlink : (stock t ids).stream.link origin = .ok image)
    (hapart : LiesApart t ids image) :
    ∃ code : LinkedCode, code.origin = image.origin.toNat ∧ code.bytes = image.bytes.toList ∧
      ∀ id ∈ ids, ∃ address, image.lookup? id.name = some address ∧ (conduct t id).Fits code ∧
        (conduct t id).Starts code address.toNat :=
  stock_starts_as hconducted (fun _ => rfl) hlink hapart

/-! ### The library of the usual machine -/

/-- Where a library is linked. -/
def libraryOrigin : UInt16 := 0x1000

/-- The library with a routine and all it needs. -/
def library (id : RoutineId) : Workspace :=
  ({ target := .c64 } : Workspace).serve [.ask id, .emit]

/-- A library ends before the memory that its routines may change. -/
theorem library_room (id : RoutineId) : 2048 * id.closure.length ≤ 0x3000 ∧
    ∀ area ∈ (conduct .c64 id).areas, 0x4000 ≤ area.1 := by
  have hall : ∀ id ∈ RoutineId.all, 2048 * id.closure.length ≤ 0x3000 ∧
      ∀ area ∈ (bounds id).buffers.flatMap (Buffer.areas .c64), 0x4000 ≤ area.1 := by decide +kernel
  exact hall id (mem_all id)

/-- A library lies where it is linked, and below `$4000`. -/
structure LiesLow (image : Image) : Prop where
  origin : image.origin = libraryOrigin
  stop : image.stop ≤ 0x4000

theorem LiesLow.apart {image : Image} (h : LiesLow image) (ids : List RoutineId) :
    LiesApart .c64 ids image where
  above := by rw [h.origin]; decide
  below := h.stop.trans (by decide)
  apart id _ area harea := by
    have hbase : mainBase = 0x200 := rfl
    have := (library_room id).2 area harea
    have := h.stop
    omega

/-- Some routines are linked at `$1000` with all they need, on every machine. -/
theorem stock_links_low {K : RoutineId → Conduct} {t : Target} {ids : List RoutineId}
    (hobeys : ∀ id ∈ ids, ∀ r, id.Needs r → Obeys K t r)
    (hroom : 2048 * (ids.flatMap RoutineId.closure).length ≤ 0x3000) :
    ∃ image, (stock t ids).stream.link libraryOrigin = .ok image ∧ LiesLow image := by
  obtain ⟨segments, hserved⟩ := (stock_stocked hobeys).served
  have hlength : (stock t ids).emitted.length ≤ (ids.flatMap RoutineId.closure).length := by
    refine (List.subperm_of_subset hserved.once fun r hr => ?_).length_le
    obtain ⟨id, hid, hneeds⟩ := mem_emitted_stock.1 hr
    exact List.mem_flatMap.2 ⟨id, hid, mem_closure_iff.2 hneeds⟩
  have horigin : libraryOrigin.toNat = 0x1000 := rfl
  have hfree : libraryOrigin.toNat + 2048 * (stock t ids).emitted.length < 0x10000 := by omega
  obtain ⟨image, hlink, heq, hstop⟩ := stock_links hobeys hfree
  exact ⟨image, hlink, heq, by omega⟩

theorem library_links {id : RoutineId} (hconducted : ∀ r, id.Needs r → Conducted .c64 r) :
    ∃ image, (library id).stream.link libraryOrigin = .ok image ∧ LiesLow image := by
  have hroom : 2048 * ([id].flatMap RoutineId.closure).length ≤ 0x3000 := by
    rw [List.flatMap_singleton]
    exact (library_room id).1
  have hobeys : ∀ asked ∈ [id], ∀ r, asked.Needs r → Obeys (conduct .c64) .c64 r :=
    List.forall_mem_singleton.2 hconducted
  obtain ⟨image, hlink, hlies⟩ := stock_links_low hobeys hroom
  exact ⟨image, hlink, hlies⟩

end Breadbin.Routine
