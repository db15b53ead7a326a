import Mathlib.Data.List.Nodup
import Mathlib.Logic.Relation
import Breadbin.Proofs.Assembly.Progress
import Breadbin.Proofs.Routine.Bodies

/-!
# What the library writes

A library is asked for routines, calls them and writes what it was asked for, in any order and as
often as one likes.  `Written` says what has come of it: the stream is made of calls and of
routines, each routine once, and a routine has been asked for when one that needs it has.  Every
request keeps it, and writing the library leaves no routine out.
-/

namespace Breadbin

/-- A routine needs another one when calls lead to it. -/
def RoutineId.Needs : RoutineId → RoutineId → Prop := Relation.ReflTransGen fun a b => b ∈ a.calls

namespace Routine

open Assembly Writer

/-! ## What routines need -/

theorem needs_of_mem_expand {n : Nat} {id r : RoutineId} (h : r ∈ RoutineId.postorder.expand n id) :
    id.Needs r := by
  induction n generalizing id with
  | zero =>
    obtain rfl : r = id := by simpa [RoutineId.postorder.expand] using h
    exact .refl
  | succ n ih =>
    rw [RoutineId.postorder.expand, List.mem_append, List.mem_flatMap, List.mem_singleton] at h
    rcases h with ⟨c, hc, hr⟩ | rfl
    · exact .head hc (ih hr)
    · exact .refl

/-- The list of a routine is deep enough for every chain of calls. -/
theorem mem_postorder_of_calls {id r c : RoutineId} (hr : r ∈ id.postorder) (hc : c ∈ r.calls) :
    c ∈ id.postorder := by
  have hall : ∀ id ∈ RoutineId.all, ∀ r ∈ id.postorder, ∀ c ∈ r.calls, c ∈ id.postorder := by
    decide +kernel
  exact hall id (mem_all id) r hr c hc

theorem mem_postorder_iff {id r : RoutineId} : r ∈ id.postorder ↔ id.Needs r := by
  refine ⟨fun h => needs_of_mem_expand (List.mem_eraseDups.1 h), fun h => ?_⟩
  induction h with
  | refl => exact Workspace.mem_postorder id
  | tail _ hc ih => exact mem_postorder_of_calls ih hc

theorem mem_closure_iff {id r : RoutineId} : r ∈ id.closure ↔ id.Needs r := by
  simp [RoutineId.closure, mem_all, mem_postorder_iff]

/-- A routine asks for nothing outside its closure. -/
theorem body_asks (id : RoutineId) (w : Workspace) {r : RoutineId}
    (hr : ((body id w).2.label? r).isSome) : (w.label? r).isSome ∨ r ∈ id.closure := by
  obtain ⟨n, -, hleaves⟩ := body_leaves id
  refine (hleaves.asks w hr).imp_right fun ⟨c, hc, hr⟩ => ?_
  exact mem_closure_iff.2 (.head hc (mem_postorder_iff.1 hr))

/-! ## Requests -/

/-- What is asked of a library. -/
inductive Request where
  | ask (id : RoutineId)
  | call (id : RoutineId)
  | emit

namespace Request

/-- The routine that a request names. -/
def routine? : Request → Option RoutineId
  | ask id | call id => some id
  | emit => none

/-- What a request does. -/
def perform : Request → Writer Unit
  | ask id => discard (require id)
  | call id => Writer.call id
  | emit => emitLibrary

end Request

/-- Requests one after the other. -/
def Workspace.serve (w : Workspace) (requests : List Request) : Workspace :=
  requests.foldl (fun w request => (request.perform w).2) w

theorem Workspace.serve_emit (w : Workspace) (requests : List Request) :
    w.serve (requests ++ [.emit]) = (emitLibrary (w.serve requests)).2 := by
  rw [serve, List.foldl_append, ← serve]
  rfl

/-! ## What stands in the stream -/

/-- The lines of a routine, with its calls of other routines leading to their labels. -/
def Workspace.HasText (w : Workspace) (id : RoutineId) (ls : List Line) : Prop :=
  ∃ v : Workspace, v.target = w.target ∧ v.Grows (body id v).2 ls ∧
    ∀ r l, (body id v).2.label? r = some l → w.label? r = some l

/-- A part of what a library writes. -/
inductive Segment where
  | call (id : RoutineId) (l : LabelId)
  | routine (id : RoutineId) (l : LabelId) (ls : List Line)

namespace Segment

def lines : Segment → List Line
  | call _ l => [.instr .jsr (.absolute (.ofLabel l))]
  | routine _ l ls => .bound l :: ls

/-- The routine that is written here. -/
def routine? : Segment → Option RoutineId
  | call .. => none
  | routine id .. => some id

/-- A call leads to the label of its routine, and the text of a routine stands behind its label. -/
def Stands (w : Workspace) : Segment → Prop
  | call id l => w.label? id = some l
  | routine id l ls => w.label? id = some l ∧ w.HasText id ls

end Segment

namespace Workspace

theorem HasText.mono {w w' : Workspace} {id : RoutineId} {ls : List Line} (h : w.HasText id ls)
    (target : w'.target = w.target)
    (labels : ∀ r l, w.label? r = some l → w'.label? r = some l) : w'.HasText id ls := by
  obtain ⟨v, hv, hgrows, hlabels⟩ := h
  exact ⟨v, hv.trans target.symm, hgrows, fun r l hl => labels r l (hlabels r l hl)⟩

end Workspace

theorem Segment.Stands.mono {w w' : Workspace} {segment : Segment} (h : segment.Stands w)
    (target : w'.target = w.target)
    (labels : ∀ r l, w.label? r = some l → w'.label? r = some l) : segment.Stands w' := by
  cases segment with
  | call id l => exact labels id l h
  | routine id l ls => exact ⟨labels id l h.1, h.2.mono target labels⟩

namespace Workspace

variable {w : Workspace} {id : RoutineId} {requested : List RoutineId} {segments : List Segment}

/-- A library of which some routines were requested, and the segments it has written. -/
structure Served (requested : List RoutineId) (w : Workspace) (segments : List Segment) : Prop where
  tidy : w.Tidy (fun _ => False) []
  followed : w.stream.Followed
  lines : Stream.Grows {} w.stream (segments.flatMap Segment.lines)
  stands : ∀ segment ∈ segments, segment.Stands w
  emitted : segments.filterMap Segment.routine? = w.emitted.reverse
  once : w.emitted.Nodup
  asked : ∀ r, (w.label? r).isSome ↔ ∃ id ∈ requested, id.Needs r
  few : w.stream.labels.size ≤ w.labels.length + 32 * w.emitted.length

/-- The routines are few, and so are the labels. -/
theorem size_labels_le (keys : (w.labels.map Prod.fst).Nodup) (once : w.emitted.Nodup)
    (few : w.stream.labels.size ≤ w.labels.length + 32 * w.emitted.length) :
    w.stream.labels.size ≤ 33 * 42 := by
  have hkeys := (List.subperm_of_subset keys fun id _ => mem_all id).length_le
  have honce := length_emitted_le once
  have hall : RoutineId.all.length = 42 := rfl
  rw [List.length_map] at hkeys
  omega

/-- Where what is needed has been asked for, writing a routine asks for nothing new. -/
theorem labels_body (hclosed : ∀ id, (w.label? id).isSome → ∀ r, id.Needs r → (w.label? r).isSome)
    (hid : (w.label? id).isSome) {v : Workspace} (hv : v.labels = w.labels) :
    (body id v).2.labels = w.labels := by
  obtain ⟨n, -, hleaves⟩ := body_leaves id
  refine hleaves.invariant
    (P := fun v => v.labels = w.labels) (fun _ _ hv => hv) (fun v r hr hv => ?_) hv
  have hasked (needed : RoutineId) (hneeded : r.Needs needed) : (v.label? needed).isSome := by
    rw [label?, hv]
    exact hclosed id hid needed (.head hr hneeded)
  obtain ⟨l, hl⟩ := Option.isSome_iff_exists.1 (hasked r .refl)
  rw [require_of_isSome (fun needed hneeded => hasked needed (mem_postorder_iff.1 hneeded)) hl]
  exact hv

namespace Served

theorem empty (target : Target) : Served [] { target } [] where
  tidy :=
    { stream := Stream.Regular.empty (by simp)
      routines := by simp
      keys := .nil
      asked := by simp
      far := by simp }
  followed := by simp [Stream.Followed, Stream.offset?, Stream.label?]
  lines := .refl _
  stands := by simp
  emitted := rfl
  once := .nil
  asked := by simp [label?]
  few := Nat.le_refl _

theorem labels_le (h : w.Served requested segments) : w.stream.labels.size ≤ 33 * 42 :=
  size_labels_le h.tidy.keys h.once h.few

/-- What a routine needs that was asked for has been asked for. -/
theorem closed (h : w.Served requested segments) (id : RoutineId)
    (hid : (w.label? id).isSome) (r : RoutineId) (hr : id.Needs r) : (w.label? r).isSome := by
  obtain ⟨first, hfirst, hneeds⟩ := (h.asked id).1 hid
  exact (h.asked r).2 ⟨first, hfirst, hneeds.trans hr⟩

theorem emitOne (h : w.Served requested segments) (id : RoutineId) :
    ∃ more, (emitOne id w).2.Served requested more := by
  rcases emitOne_cases id w with ⟨heq, -⟩ | ⟨l, hl, hid, heq⟩
  · rw [heq]
    exact ⟨segments, h⟩
  let v : Workspace := { w with emitted := id :: w.emitted, stream := w.stream.bind l }
  have hv : (Routine.emitOne id w).2 = (body id v).2 := congrArg Prod.snd heq
  obtain ⟨n, hn, hleaves⟩ := body_leaves id
  obtain ⟨ls, hls⟩ := hleaves.grows v
  have hmakes := hleaves.makes v
  have hsame : (body id v).2.labels = w.labels := Workspace.labels_body h.closed (by simp [hl]) rfl
  have hlabel (r : RoutineId) : (body id v).2.label? r = w.label? r := by rw [label?, hsame, label?]
  have hemitted : (body id v).2.emitted = id :: w.emitted := hls.emitted
  have honce : (id :: w.emitted).Nodup := List.nodup_cons.2 ⟨hid, h.once⟩
  have hfew : (body id v).2.stream.labels.size ≤
      (body id v).2.labels.length + 32 * (body id v).2.emitted.length := by
    have hbind : v.stream.labels.size = w.stream.labels.size := Stream.size_labels_bind ..
    have hbound : v.labels.length = w.labels.length := rfl
    have := h.few
    simp only [Makes, hsame, hemitted, List.length_cons] at hmakes ⊢
    omega
  have hsize := size_labels_le (hsame ▸ h.tidy.keys) (hemitted ▸ honce) hfew
  obtain ⟨htidy, hfollowed⟩ := emitOne_tidy id h.tidy h.followed (by rw [hv]; omega)
  rw [hv] at htidy hfollowed ⊢
  refine ⟨segments ++ [.routine id l ls], htidy, hfollowed, ?_, ?_, ?_, hemitted ▸ honce,
    fun r => by rw [hlabel, h.asked], hfew⟩
  · rw [List.flatMap_append, List.flatMap_singleton]
    have hplain : [Line.bound l].any Line.isAlign = false := rfl
    have hbind : w.stream.Grows v.stream [.bound l] := .writing w.stream hplain
    exact h.lines.trans (hbind.trans hls.stream)
  · intro segment hsegment
    rcases List.mem_append.1 hsegment with hold | hnew
    · exact (h.stands segment hold).mono hls.target fun r l hr => (hlabel r).trans hr
    · obtain rfl := List.mem_singleton.1 hnew
      exact ⟨(hlabel id).trans hl, v, hls.target.symm, hls, fun _ _ hr => hr⟩
  · simp [h.emitted, hemitted, Segment.routine?, -body]

theorem emitLibrary (h : w.Served requested segments) :
    ∃ more, (emitLibrary w).2.Served requested more := by
  have heach (ids : List RoutineId) (written : Bool) (w : Workspace) (segments : List Segment)
      (h : w.Served requested segments) : ∃ more,
      (emitEach ids written w).2.Served requested more := by
    induction ids generalizing written w segments with
    | nil => exact ⟨segments, h⟩
    | cons id ids ih =>
      obtain ⟨more, hmore⟩ := h.emitOne id
      exact ih _ _ more hmore
  have hpasses (n : Nat) (w : Workspace) (segments : List Segment)
      (h : w.Served requested segments) :
      ∃ more, (emitPasses n w).2.Served requested more := by
    induction n generalizing w segments with
    | zero => exact ⟨segments, h⟩
    | succ n ih =>
      obtain ⟨more, hmore⟩ := heach RoutineId.all false w segments h
      rw [← emitPass_eq] at hmore
      rw [emitPasses_succ]
      split
      · exact ih _ more hmore
      · exact ⟨more, hmore⟩
  exact hpasses _ w segments h

theorem require (h : w.Served requested segments) (id : RoutineId) :
    (w.require id).1.Served (requested ++ [id]) segments := by
  have hgrows := w.require_grows id
  have hpostorder : id.postorder.length ≤ 42 := by
    cases id <;> decide +kernel
  have hsize := w.size_require_le id
  have hlabels := h.labels_le
  have hfew : (w.require id).1.stream.labels.size < 4294967296 := by omega
  refine ⟨(h.tidy.require id hfew).1, followed_require h.followed id hfew, ?_, ?_, ?_,
    ?_, fun r => ?_, ?_⟩
  · simpa using h.lines.trans hgrows.stream
  · exact fun segment hsegment => (h.stands segment hsegment).mono hgrows.target hgrows.labels
  · rw [h.emitted, hgrows.emitted]
  · exact hgrows.emitted ▸ h.once
  · rw [isSome_require_iff, h.asked, mem_postorder_iff]
    simp [or_and_right, exists_or]
  · have hmakes := w.require_makes id
    have := h.few
    rw [Makes] at hmakes
    rw [hgrows.emitted]
    omega

theorem call (h : w.Served requested segments) (id : RoutineId) :
    (Writer.call id w).2.Served (requested ++ [id]) (segments ++ [.call id (w.require id).2]) := by
  have hasked := h.require id
  have hsize := hasked.labels_le
  have hsame : (Writer.call id w).2.stream.labels.size = (w.require id).1.stream.labels.size :=
    congrArg Array.size (Stream.labels_emit ..)
  have hleaves : Leaves [id] 0 true [] [] (Writer.call id) [] := .call (by simp)
  obtain ⟨htidy, hfollowed⟩ := hleaves.tidy_followed (U := []) h.tidy nofun (by omega)
  refine ⟨htidy, hfollowed rfl, ?_, ?_, ?_, hasked.once, hasked.asked, hsame ▸ hasked.few⟩
  · have hplain : (Segment.call id (w.require id).2).lines.any Line.isAlign = false := rfl
    rw [List.flatMap_append, List.flatMap_singleton]
    exact hasked.lines.trans (.writing _ hplain)
  · intro segment hsegment
    rcases List.mem_append.1 hsegment with hold | hnew
    · exact (hasked.stands segment hold).mono rfl fun _ _ hr => hr
    · obtain rfl := List.mem_singleton.1 hnew
      exact w.label?_require id
  · rw [List.filterMap_append]
    exact (List.append_nil _).trans hasked.emitted

/-- One more request. -/
theorem perform (h : w.Served requested segments) (request : Request) :
    ∃ more, (request.perform w).2.Served (requested ++ request.routine?.toList) more := by
  cases request with
  | ask id => exact ⟨_, h.require id⟩
  | call id => exact ⟨_, h.call id⟩
  | emit =>
    rw [Request.routine?, Option.toList_none, List.append_nil]
    exact h.emitLibrary

/-- Requests keep the library in order. -/
theorem serve (h : w.Served requested segments) (requests : List Request) :
    ∃ more, (w.serve requests).Served (requested ++ requests.filterMap Request.routine?) more := by
  induction requests generalizing w requested segments with
  | nil => exact ⟨segments, by simpa [Workspace.serve] using h⟩
  | cons request requests ih =>
    obtain ⟨more, hmore⟩ := h.perform request
    obtain ⟨all, hall⟩ := ih hmore
    refine ⟨all, ?_⟩
    cases hrequest : request.routine? <;> simpa [hrequest, Workspace.serve] using hall

end Served

end Workspace

/-! ## A library that is written -/

/-- Once all that was asked for is written, writing the library changes nothing. -/
theorem emitLibrary_of_emitted {w : Workspace} (h : ∀ id, (w.label? id).isSome → id ∈ w.emitted) :
    emitLibrary w = ((), w) := by
  have heach (ids : List RoutineId) : emitEach ids false w = (false, w) := by
    induction ids with
    | nil => rfl
    | cons id ids ih =>
      rcases emitOne_cases id w with ⟨heq, -⟩ | ⟨l, hl, hid, -⟩
      · rw [emitEach_cons, heq]
        exact ih
      · exact absurd (h id (by simp [hl])) hid
  rw [emitLibrary, emitPasses, bind_apply, emitPass_eq, heach]
  rfl

/-- A library that was asked for some routines and has written them. -/
structure Workspace.Complete (requested : List RoutineId) (w : Workspace)
    (segments : List Segment) : Prop where
  /-- the calls and the routines are all there is in the stream -/
  lines : Stream.Grows {} w.stream (segments.flatMap Segment.lines)
  stands : ∀ segment ∈ segments, segment.Stands w
  /-- what was requested and what it needs, in the order of all routines -/
  required : w.required = RoutineId.all.filter fun r => requested.any fun id =>
    id.closure.contains r
  /-- each of these routines is written once, and no other one -/
  written : (segments.filterMap Segment.routine?).Perm w.required
  bound : ∀ id ∈ w.required, ∃ l, w.label? id = some l ∧
    ((segments.flatMap Segment.lines).filterMap Line.label?).count l = 1
  error : w.stream.error = none
  resolved : w.stream.unresolved? = none
  links : ∀ origin, Fits (w.stream.link origin) fun _ => True
  again : emitLibrary w = ((), w)

theorem Workspace.Served.complete {w : Workspace} {requested : List RoutineId}
    {segments : List Segment}
    (h : w.Served requested segments) (hall : ∀ id, (w.label? id).isSome → id ∈ w.emitted) :
    w.Complete requested segments := by
  have hpending : w.pending = [] := by
    refine List.filterMap_eq_nil_iff.2 fun e he => ?_
    simpa using hall e.1 (List.lookup_isSome_iff.2 ⟨e, he, by simp⟩)
  have hstream : w.stream.Tidy (fun _ => False) [] := by simpa [hpending] using h.tidy.stream
  have hmem (id : RoutineId) : id ∈ w.required ↔ id ∈ w.emitted := by
    simp only [required, List.mem_filter, mem_all, true_and]
    exact ⟨hall id, h.tidy.asked id⟩
  refine
    { lines := h.lines, stands := h.stands, required := ?_, written := ?_, bound := fun id hid => ?_
      error := hstream.error, resolved := hstream.unresolved?
      links := hstream.link_fits h.followed, again := emitLibrary_of_emitted hall }
  · refine List.filter_congr fun r _ => ?_
    rw [Bool.eq_iff_iff, h.asked]
    simp only [List.any_eq_true, List.contains_iff_mem, mem_closure_iff]
  · rw [h.emitted]
    have hnodup : w.required.Nodup := List.Nodup.filter _ (by decide +kernel)
    exact (List.reverse_perm _).trans
      ((List.perm_ext_iff_of_nodup h.once hnodup).2 fun id => (hmem id).symm)
  · have hwritten : id ∈ segments.filterMap Segment.routine? := by
      rw [h.emitted, List.mem_reverse]
      exact (hmem id).1 hid
    obtain ⟨segment, hsegment, hroutine⟩ := List.mem_filterMap.1 hwritten
    cases segment with
    | call => cases hroutine
    | routine r l ls =>
      obtain rfl : r = id := by simpa [Segment.routine?] using hroutine
      have hl : l ∈ (segments.flatMap Segment.lines).filterMap Line.label? :=
        List.mem_filterMap.2 ⟨.bound l,
          List.mem_flatMap.2 ⟨_, hsegment, by simp [Segment.lines]⟩, rfl⟩
      exact ⟨l, (h.stands _ hsegment).1,
        List.count_eq_one_of_mem (h.lines.nodup_labels hstream.error) hl⟩

/-- After any requests, of which the last one is to write the library, the stream holds the routines
that were requested and what they need, once each; no routine asks for anything outside its
closure. -/
theorem library_complete :
    (∀ target requests, ∃ segments, (({ target } : Workspace).serve (requests ++ [.emit])).Complete
      (requests.filterMap Request.routine?) segments) ∧
    ∀ id w r, ((body id w).2.label? r).isSome → (w.label? r).isSome ∨ r ∈ id.closure := by
  refine ⟨fun target requests => ?_, fun id w r => body_asks id w⟩
  obtain ⟨segments, hserved⟩ := (Workspace.Served.empty target).serve requests
  obtain ⟨more, hmore⟩ := hserved.emitLibrary
  rw [List.nil_append] at hmore
  refine ⟨more, ?_⟩
  rw [Workspace.serve_emit]
  exact hmore.complete fun id hid => emitLibrary_emitted hserved.once hid

end Routine

end Breadbin
