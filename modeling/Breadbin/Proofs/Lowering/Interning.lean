import Mathlib
import Breadbin.Lowering.Emission
import Breadbin.Proofs.Assembly.Tail

/-!
# Constants are written once

A pool gives equal bytes the same label, and adds what it does not have yet.  Written behind any
code and linked, each label is the address of the bytes it was given for; as no label can be bound
twice, different bytes have different labels.
-/

namespace Breadbin

open Assembly

namespace Pool

/-- The rows that the constants are written as. -/
def rows (pool : Pool) : List Row := pool.entries.toList.map fun e => ⟨0, e.1, e.2⟩

theorem emit_eq (pool : Pool) (s : Stream) :
    pool.emit s = (pool.rows.flatMap Row.actions).foldl Action.perform s := by
  rw [emit, ← Array.foldl_toList, rows]
  generalize pool.entries.toList = es
  induction es generalizing s with
  | nil => rfl
  | cons e es ih =>
    rw [List.foldl_cons, ih, List.map_cons, List.flatMap_cons, List.foldl_append]
    congr 1
    have hnone : s.align 0 = s := by
      unfold Stream.align
      split <;> simp
    show _ = ((s.align 0).bind e.1).data e.2
    rw [hnone]

/-- A constant is written as its label and its bytes. -/
theorem mem_lines {pool : Pool} {line : Line} (h : line ∈ pool.rows.flatMap Row.lines) :
    ∃ e ∈ pool.entries.toList, line = .bound e.1 ∨ line = .data e.2 := by
  obtain ⟨r, hr, hline⟩ := List.mem_flatMap.1 h
  obtain ⟨e, he, rfl⟩ := List.mem_map.1 hr
  rcases Row.mem_lines hline with ⟨-, hmore⟩ | hline
  · cases hmore
  · exact ⟨e, he, hline⟩

/-- Constants that have bytes end with bytes. -/
theorem ends_lines {pool : Pool} (h : ∀ e ∈ pool.entries.toList, e.2 ≠ [])
    (hsome : pool.entries.toList ≠ []) :
    Line.Ends (pool.rows.flatMap Row.lines) := by
  obtain ⟨init, e, hsplit⟩ := (List.eq_nil_or_concat _).resolve_left hsome
  have he : e.2 ≠ [] := h e (by simp [hsplit])
  rw [rows, hsplit, List.concat_eq_append, List.map_append, List.flatMap_append]
  refine Line.Ends.append ⟨[.bound e.1], .data e.2, rfl, ?_⟩ _
  simpa [Line.isSolid, Line.raw] using he

/-- What interning comes to: the label of an entry with the bytes, which is a new one if there was
none. -/
theorem intern_cases (pool : Pool) (s : Stream) (bytes : Bytes) :
    (∃ l, pool.intern s bytes = (pool, s, l) ∧ (l, bytes) ∈ pool.entries.toList) ∨
      (∃ name, pool.intern s bytes =
        (⟨pool.entries.push ((s.addLabel name).2, bytes)⟩, (s.addLabel name).1,
          (s.addLabel name).2)) ∧
        ∀ e ∈ pool.entries.toList, e.2 ≠ bytes := by
  unfold intern find?
  cases hfind : pool.entries.find? fun e => e.2 == bytes with
  | some e =>
    have hbytes : e.2 = bytes := by simpa using Array.find?_some hfind
    refine .inl ⟨e.1, rfl, ?_⟩
    rw [← hbytes]
    exact Array.mem_toList_iff.2 (Array.mem_of_find?_eq_some hfind)
  | none =>
    refine .inr ⟨⟨_, rfl⟩, fun e he => ?_⟩
    simpa using Array.find?_eq_none.1 hfind e (Array.mem_toList_iff.1 he)

theorem size_eq (pool : Pool) :
    pool.size = ((pool.entries.toList.map Prod.snd).map List.length).sum := by
  have hfold (n : Nat) (es : List (LabelId × Bytes)) :
      es.foldl (fun n e => n + e.2.length) n = n + ((es.map Prod.snd).map List.length).sum := by
    induction es generalizing n with
    | nil => rfl
    | cons e es ih =>
      rw [List.foldl_cons, ih, List.map_cons, List.map_cons, List.sum_cons]
      omega
  rw [size, ← Array.foldl_toList, hfold, Nat.zero_add]

/-! ## Any sequence of operations -/

/-- An operation on a pool and a stream. -/
inductive Step where
  | intern (bytes : Bytes)
  | act (a : Action)
  deriving Repr

/-- A pool and a stream, and what was interned, with the labels that were given for it. -/
structure History where
  pool : Pool := {}
  stream : Stream := {}
  interned : List (Bytes × LabelId) := []

/-- Performs an operation. -/
def Step.perform (h : History) : Step → History
  | intern bytes =>
    let (pool, stream, l) := h.pool.intern h.stream bytes
    ⟨pool, stream, h.interned ++ [(bytes, l)]⟩
  | act a => { h with stream := a.perform h.stream }

/-- What a sequence of operations comes to. -/
def History.run (steps : List Step) : History := steps.foldl Step.perform {}

/-- Everything interned is an entry, there are no others, and no two have the same bytes. -/
structure History.Exact (h : History) : Prop where
  distinct : (h.pool.entries.toList.map Prod.snd).Nodup
  entered : ∀ e ∈ h.interned, (e.2, e.1) ∈ h.pool.entries.toList
  only : ∀ e ∈ h.pool.entries.toList, e.2 ∈ h.interned.map Prod.fst
  actions : ∃ actions : List Action, (∀ a ∈ actions, a.isAlign = false) ∧
    h.stream = .ofActions actions

theorem History.Exact.perform {h : History} (hexact : h.Exact) {step : Step}
    (unaligned : ∀ a, step = .act a → a.isAlign = false) : (step.perform h).Exact := by
  obtain ⟨actions, hplain, hstream⟩ := hexact.actions
  have hmore (a : Action) (ha : a.isAlign = false) :
      ∃ actions : List Action, (∀ a ∈ actions, a.isAlign = false) ∧
          a.perform h.stream = .ofActions actions := by
    refine ⟨actions ++ [a], fun b hb => ?_, by rw [hstream]; simp [Stream.ofActions]⟩
    rcases List.mem_append.1 hb with hb | hb
    · exact hplain b hb
    · exact List.mem_singleton.1 hb ▸ ha
  cases step with
  | act a => exact { hexact with actions := hmore a (unaligned a rfl) }
  | intern bytes =>
    rcases h.pool.intern_cases h.stream bytes with ⟨l, hintern, hmem⟩ | ⟨⟨name, hintern⟩, hnew⟩
    · simp only [Step.perform, hintern]
      refine ⟨hexact.distinct, fun e he => ?_, fun e he => ?_, hexact.actions⟩
      · rcases List.mem_append.1 he with he | he
        · exact hexact.entered e he
        · rw [List.mem_singleton.1 he]
          exact hmem
      · rw [List.map_append]
        exact List.mem_append_left _ (hexact.only e he)
    · simp only [Step.perform, hintern]
      refine ⟨?_, fun e he => ?_, fun e he => ?_, hmore (.addLabel name) rfl⟩
      · rw [Array.toList_push, List.map_append, List.map_singleton]
        refine List.nodup_append.2
          ⟨hexact.distinct, List.pairwise_singleton .., fun b hb b' hb' heq => ?_⟩
        obtain ⟨e, he, rfl⟩ := List.mem_map.1 hb
        exact hnew e he (heq.trans (List.mem_singleton.1 hb'))
      · rw [Array.toList_push]
        rcases List.mem_append.1 he with he | he
        · exact List.mem_append_left _ (hexact.entered e he)
        · rw [List.mem_singleton.1 he]
          exact List.mem_append_right _ List.mem_cons_self
      · rw [List.map_append, List.map_singleton]
        rcases List.mem_append.1 (Array.toList_push ▸ he) with he | he
        · exact List.mem_append_left _ (hexact.only e he)
        · rw [List.mem_singleton.1 he]
          exact List.mem_append_right _ List.mem_cons_self

theorem History.run_exact {steps : List Step}
    (unaligned : ∀ a, .act a ∈ steps → a.isAlign = false) :
    (History.run steps).Exact := by
  have hrun (h : History) (hexact : h.Exact) : (steps.foldl Step.perform h).Exact := by
    induction steps generalizing h with
    | nil => exact hexact
    | cons step steps ih =>
      refine ih (fun a ha => unaligned a (List.mem_cons_of_mem _ ha))
        _ (hexact.perform fun a ha => ?_)
      exact unaligned a (ha ▸ List.mem_cons_self)
  exact hrun {} ⟨.nil, by simp, by simp, [], by simp, rfl⟩

/-- Everything interned lies once in an image that the pool was linked to. -/
structure History.Lies (h : History) (origin : UInt16) (image : Image) : Prop where
  /-- equal bytes have the same label, and different ones do not -/
  labels : ∀ e ∈ h.interned, ∀ e' ∈ h.interned, e.2 = e'.2 ↔ e.1 = e'.1
  /-- as many constants are counted as there are different bytes -/
  length : h.pool.length = (h.interned.map Prod.fst).dedup.length
  size : h.pool.size = ((h.interned.map Prod.fst).dedup.map List.length).sum
  /-- the bytes lie at the final address of their label -/
  bytes : ∃ L env ps, (h.pool.emit h.stream).Shows L ∧ L.Linked image env ps ∧
    image.origin = origin ∧
    ∀ e ∈ h.interned, ∃ front back, image.bytes.toList = front ++ e.1 ++ back ∧
      env e.2 = origin.toNat + front.length

/-- Whatever is written in between, apart from alignments: everything that is interned lies once in
the image, if the code with the pool behind it can be linked. -/
theorem History.run_lies {steps : List Step} (unaligned : ∀ a, .act a ∈ steps → a.isAlign = false)
    {origin : UInt16}
    {image : Image} (hlink : ((History.run steps).pool.emit (History.run steps).stream).link
      origin = .ok image) :
    (History.run steps).Lies origin image := by
  let h := History.run steps
  have hexact : h.Exact := History.run_exact unaligned
  obtain ⟨actions, hplain, hstream⟩ := hexact.actions
  have hperm : (h.pool.entries.toList.map Prod.snd).Perm (h.interned.map Prod.fst).dedup := by
    refine (List.perm_ext_iff_of_nodup hexact.distinct (List.nodup_dedup _)).2 fun bytes => ?_
    rw [List.mem_dedup]
    constructor
    · intro hmem
      obtain ⟨e, he, rfl⟩ := List.mem_map.1 hmem
      exact hexact.only e he
    · intro hmem
      obtain ⟨e, he, rfl⟩ := List.mem_map.1 hmem
      exact List.mem_map.2 ⟨_, hexact.entered e he, rfl⟩
  have hemit : h.pool.emit h.stream = .ofActions (actions ++ h.pool.rows.flatMap Row.actions) := by
    rw [emit_eq, hstream, Stream.ofActions, Stream.ofActions, List.foldl_append]
  have hnone : ∀ r ∈ h.pool.rows, r.multiple = 0 := by
    intro r hr
    obtain ⟨e, -, rfl⟩ := List.mem_map.1 hr
    rfl
  have hsmall : ∀ r ∈ h.pool.rows, r.multiple < 65536 := fun r hr => hnone r hr ▸ Nat.zero_lt_succ _
  have hvalid : ∀ r ∈ h.pool.rows, r.Valid := by
    intro r hr hmore
    rw [hnone r hr] at hmore
    cases hmore
  have ok : (h.pool.emit h.stream).error = none := (Stream.link_eq hlink).1
  rw [hemit] at ok
  have hlisting : Listing.ofActions (actions ++ h.pool.rows.flatMap Row.actions) =
      ⟨(Listing.ofActions actions).names, (Listing.ofActions actions).lines ++
          h.pool.rows.flatMap Row.lines⟩ := by
    rw [Listing.ofActions, List.foldl_append, Row.foldl_add hsmall]
    rfl
  have hlabels := Stream.ofActions_nodup_labels ok
  have hshows := Stream.ofActions_shows ok
  rw [hlisting] at hlabels hshows
  rw [Listing.labels, List.filterMap_append, Row.labels_lines, rows, List.map_map] at hlabels
  have hkeys : (h.pool.entries.toList.map Prod.fst).Nodup := (List.nodup_append.1 hlabels).2.1
  have hplain' : ∀ line ∈ (Listing.ofActions actions).lines ++ h.pool.rows.flatMap Row.lines,
      line.isAlign = false := by
    intro line hline
    rcases List.mem_append.1 hline with hline | hline
    · exact Listing.ofActions_not_align hplain line hline
    · obtain ⟨e, -, rfl | rfl⟩ := mem_lines hline <;> rfl
  rw [← hemit] at hshows
  obtain ⟨env, ps, hlinked, rfl, -, -⟩ := hshows.link_unaligned hplain' hlink
  obtain ⟨pre, post, rfl, -, hstand⟩ := hlinked.rows rfl hvalid
  refine ⟨fun e he e' he' => ⟨fun heq => ?_, fun heq => ?_⟩, ?_, ?_, _, env, _, hshows, hlinked,
    rfl, fun e he => ?_⟩
  · exact congrArg Prod.snd
      (List.inj_on_of_nodup_map hkeys (hexact.entered e he) (hexact.entered e' he') heq)
  · exact congrArg Prod.fst
      (List.inj_on_of_nodup_map hexact.distinct (hexact.entered e he) (hexact.entered e' he') heq)
  · rw [length, ← Array.length_toList, ← List.length_map Prod.snd]
    exact hperm.length_eq
  · rw [size_eq]
    exact (hperm.map _).sum_nat
  · have hrow : (⟨0, e.2, e.1⟩ : Row) ∈ h.pool.rows := List.mem_map.2 ⟨_, hexact.entered e he, rfl⟩
    obtain ⟨-, front, back, hbytes, hplace⟩ := hstand.lies _ hrow
    refine ⟨pre.flatMap Placement.bytes ++ front, back, ?_, ?_⟩
    · rw [hlinked.bytes, List.flatMap_append, hbytes]
      simp
    · rw [List.length_append, ← Nat.add_assoc]
      exact hplace

end Pool

end Breadbin
