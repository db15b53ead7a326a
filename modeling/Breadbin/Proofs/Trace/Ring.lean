import Breadbin.Trace.Tracer
import Mathlib.Algebra.Group.Nat.Defs

/-!
# What a ring keeps

The events that are pushed into a ring go round it: each stands at its number modulo the capacity,
until the one that comes a whole round later takes its place.  So the ring, read from the place for
the next event on, holds the latest events in their order.  A tracer numbers the events that it
takes in, and looking at them is of no consequence for what it shows later.
-/

namespace Breadbin.Trace

/-! ## Round and round -/

namespace Ring

/-- The events `kept` have been pushed into a ring, the oldest one first. -/
structure Holds (r : Ring) (kept : List Event) : Prop where
  room : 0 < r.capacity
  head : r.head = kept.length % r.capacity
  full : r.full = decide (r.capacity ≤ kept.length)
  stands : ∀ i (hi : i < kept.length), kept.length ≤ i + r.capacity →
    r.slots[i % r.capacity]? = some kept[i]

variable {r : Ring} {kept : List Event}

theorem capacity_ofCapacity (capacity : Int) (level : Level) :
    (ofCapacity capacity level).capacity = if 0 < capacity then capacity.toNat else 2048 := by
  unfold ofCapacity Ring.capacity
  rw [Array.size_replicate]
  by_cases hpos : 0 < capacity
  · rw [if_neg (Int.not_le.2 hpos), if_pos hpos]
  · rw [if_pos (Int.not_lt.1 hpos), if_neg hpos]
    rfl

theorem holds_ofCapacity (capacity : Int) (level : Level) :
    (ofCapacity capacity level).Holds [] := by
  have hpos : 0 < (ofCapacity capacity level).capacity := by
    rw [capacity_ofCapacity]
    split <;> omega
  refine ⟨hpos, (Nat.zero_mod _).symm, ?_, nofun⟩
  exact (decide_eq_false (Nat.not_le.2 hpos)).symm

@[simp] theorem capacity_push (r : Ring) (e : Event) : (r.push e).capacity = r.capacity := by
  unfold push
  dsimp only
  split <;> simp [Ring.capacity]

@[simp] theorem level_push (r : Ring) (e : Event) : (r.push e).level = r.level := by
  unfold push
  dsimp only
  split <;> rfl

@[simp] theorem slots_push (r : Ring) (e : Event) :
    (r.push e).slots = r.slots.setIfInBounds r.head e := by
  unfold push
  dsimp only
  split <;> rfl

/-- Within a round no two events stand at the same place. -/
theorem mod_ne {i n c : Nat} (hi : i < n) (hn : n < i + c) : i % c ≠ n % c := by
  intro heq
  have hround : (n - i) % c = 0 := Nat.sub_mod_eq_zero_of_mod_eq heq.symm
  rw [Nat.mod_eq_of_lt (by omega)] at hround
  omega

namespace Holds

/-- The next event takes the place of the one a round before. -/
theorem push (h : r.Holds kept) (e : Event) : (r.push e).Holds (kept ++ [e]) := by
  have hhead : r.head < r.capacity := h.head ▸ Nat.mod_lt _ h.room
  have hle : r.head ≤ kept.length := h.head ▸ Nat.mod_le _ _
  have hlength : (kept ++ [e]).length = kept.length + 1 := List.length_append
  have hnext : (kept.length + 1) % r.capacity = (r.head + 1) % r.capacity := by
    rw [h.head, Nat.mod_add_mod]
  refine ⟨?_, ?_, ?_, fun i hi hround => ?_⟩
  · rw [capacity_push]
    exact h.room
  · rw [capacity_push, hlength, hnext]
    unfold Ring.push
    dsimp only
    split
    next hlast => rw [hlast, Nat.mod_self]
    next hmore => exact (Nat.mod_eq_of_lt (Nat.lt_of_le_of_ne hhead hmore)).symm
  · rw [capacity_push, hlength]
    unfold Ring.push
    dsimp only
    split
    next hlast => exact (decide_eq_true (by omega)).symm
    next hmore =>
      have hround : r.capacity ≠ kept.length + 1 := fun heq => by
        rw [h.head, Nat.mod_eq_of_lt (by omega)] at hmore
        exact hmore heq.symm
      rw [h.full, decide_eq_decide]
      omega
  · rw [capacity_push, hlength] at hround
    rw [capacity_push, slots_push]
    rcases Nat.lt_or_ge i kept.length with hold | hnew
    · rw [Array.getElem?_setIfInBounds_ne (h.head ▸ (mod_ne hold (by omega)).symm),
        h.stands i hold (by omega), List.getElem_append_left hold]
    · obtain rfl : i = kept.length := by omega
      rw [← h.head, Array.getElem?_setIfInBounds_self_of_lt hhead, List.getElem_concat_length rfl]

/-- Read from the place for the next event on, a ring shows the latest events. -/
theorem snapshot (h : r.Holds kept) : r.snapshot = kept.drop (kept.length - r.capacity) := by
  have hhead : r.head < r.capacity := h.head ▸ Nat.mod_lt _ h.room
  have hsize : r.slots.toList.length = r.capacity := rfl
  have hstands (i : Nat) (hi : i < kept.length) (hround : kept.length ≤ i + r.capacity) :
      r.slots.toList[i % r.capacity]? = some kept[i] := by
    rw [Array.getElem?_toList]
    exact h.stands i hi hround
  unfold Ring.snapshot
  dsimp only
  rcases Nat.lt_or_ge kept.length r.capacity with hlt | hge
  · have hsame : r.head = kept.length := by rw [h.head, Nat.mod_eq_of_lt hlt]
    rw [h.full, decide_eq_false (Nat.not_le.2 hlt), if_neg (by decide),
      Nat.sub_eq_zero_of_le (Nat.le_of_lt hlt), List.drop_zero]
    refine List.ext_getElem? fun i => ?_
    rw [List.getElem?_take]
    split
    next hi =>
      have hstand := hstands i (by omega) (by omega)
      rwa [Nat.mod_eq_of_lt (by omega), ← List.getElem?_eq_getElem] at hstand
    next hi => exact (List.getElem?_eq_none (by omega)).symm
  · rw [h.full, decide_eq_true hge, if_pos rfl]
    refine List.ext_getElem? fun j => ?_
    rw [List.getElem?_drop]
    rcases Nat.lt_or_ge j r.capacity with hj | hj
    · have hstand := hstands (kept.length - r.capacity + j) (by omega) (by omega)
      have hplace : (kept.length - r.capacity + j) % r.capacity = (r.head + j) % r.capacity := by
        rw [h.head, Nat.mod_add_mod, ← Nat.add_mod_right (kept.length - r.capacity + j)]
        congr 1
        omega
      rw [hplace, ← List.getElem?_eq_getElem] at hstand
      rw [← hstand, List.getElem?_append, List.length_drop, hsize]
      split
      next hfirst => rw [List.getElem?_drop, Nat.mod_eq_of_lt (by omega)]
      next hwrapped =>
        rw [List.getElem?_take_of_lt (by omega), Nat.mod_eq_sub_mod (by omega),
          Nat.mod_eq_of_lt (by omega)]
        congr 1
        omega
    · rw [List.getElem?_eq_none
        (by rw [List.length_append, List.length_drop, List.length_take]; omega),
        List.getElem?_eq_none (by omega)]

end Holds

end Ring

/-! ## Tracers -/

/-- An event without the number that a tracer gives it. -/
def Event.unnumbered (e : Event) : Event := { e with sequence := 0 }

/-- What a tracer is used for. -/
inductive Use where
  /-- an event is recorded -/
  | emit (e : Event)
  /-- the events of the ring are looked at -/
  | look
  /-- another tracer takes the next number -/
  | number
  deriving DecidableEq

namespace Tracer

/-- The tracer after it has been used. -/
def use (t : Tracer) : Use → Tracer
  | .emit e => t.emit e
  | .look => t
  | .number => { t with sequence := t.sequence + 1 }

/-- The events that each look shows. -/
def looks (t : Tracer) : List Use → List (List Event)
  | [] => []
  | .look :: us => (t.ring.map Ring.snapshot).getD [] :: t.looks us
  | u :: us => (t.use u).looks us

end Tracer

/-- The events that are recorded. -/
def emitted (us : List Use) : List Event :=
  us.filterMap fun
    | .emit e => some e
    | _ => none

/-- An event counts at a level, as every heartbeat does. -/
def counts (level : Level) (e : Event) : Bool := e.kind = .heartbeat || level.admits e.scope

/-- Events stand in the order of their numbers. -/
def InOrder (es : List Event) : Prop := es.Pairwise fun e e' => e.sequence < e'.sequence

/-- Events are numbered in order by numbers up to `n`, of which they keep 64 bits. -/
def NumberedTo (n : Nat) (es : List Event) : Prop :=
  ∃ ns : List Nat, ns.Pairwise (· < ·) ∧ (∀ m ∈ ns, m ≤ n) ∧
    es.map Event.sequence = ns.map (· % 2 ^ 64)

namespace NumberedTo

variable {n : Nat} {es : List Event}

theorem nil (n : Nat) : NumberedTo n [] := ⟨[], .nil, nofun, rfl⟩

theorem mono {n' : Nat} (h : NumberedTo n es) (hle : n ≤ n') : NumberedTo n' es := by
  obtain ⟨ns, horder, hbound, hns⟩ := h
  exact ⟨ns, horder, fun m hm => Nat.le_trans (hbound m hm) hle, hns⟩

/-- An event gets the next number. -/
theorem concat {e : Event} (h : NumberedTo n es) (he : e.sequence = (n + 1) % 2 ^ 64) :
    NumberedTo (n + 1) (es ++ [e]) := by
  obtain ⟨ns, horder, hbound, hns⟩ := h
  refine ⟨ns ++ [n + 1], ?_, fun m hm => ?_, ?_⟩
  · refine List.pairwise_append.2 ⟨horder, List.pairwise_singleton _ _, fun m hm m' hm' => ?_⟩
    rw [List.mem_singleton.1 hm']
    exact Nat.lt_succ_of_le (hbound m hm)
  · rcases List.mem_append.1 hm with hm | hm
    · exact Nat.le_succ_of_le (hbound m hm)
    · exact Nat.le_of_eq (List.mem_singleton.1 hm)
  · rw [List.map_append, List.map_append, hns, List.map_singleton, List.map_singleton, he]

theorem drop (h : NumberedTo n es) (k : Nat) : NumberedTo n (es.drop k) := by
  obtain ⟨ns, horder, hbound, hns⟩ := h
  refine ⟨ns.drop k, horder.sublist (List.drop_sublist _ _), fun m hm =>
    hbound m (List.mem_of_mem_drop hm), ?_⟩
  rw [List.map_drop, List.map_drop, hns]

/-- As long as the numbers have room in 64 bits, the events stand in their order. -/
theorem inOrder (h : NumberedTo n es) (hroom : n < 2 ^ 64) : InOrder es := by
  obtain ⟨ns, horder, hbound, hns⟩ := h
  have hsame : ns.map (· % 2 ^ 64) = ns.map id :=
    List.map_congr_left fun m hm => Nat.mod_eq_of_lt (Nat.lt_of_le_of_lt (hbound m hm) hroom)
  rw [hsame, List.map_id] at hns
  rw [← hns, List.pairwise_map] at horder
  exact horder

end NumberedTo

namespace Tracer

variable {t : Tracer} {level : Level} {capacity n : Nat} {es : List Event}

/-- The ring of a tracer has taken in the events `es`, and `n` numbers have been given away. -/
def Took (t : Tracer) (level : Level) (capacity : Nat) (es : List Event) (n : Nat) : Prop :=
  t.sequence.toNat = n % 2 ^ 64 ∧ ∃ r kept, t.ring = some r ∧ r.level = level ∧
    r.capacity = capacity ∧ r.Holds kept ∧
    kept.map Event.unnumbered = es.map Event.unnumbered ∧ NumberedTo n kept

theorem toNat_next {q : UInt64} (h : q.toNat = n % 2 ^ 64) : (q + 1).toNat = (n + 1) % 2 ^ 64 := by
  rw [UInt64.toNat_add, h, UInt64.toNat_one, Nat.mod_add_mod]

namespace Took

/-- Nothing but a number is taken. -/
theorem later {t' : Tracer} (h : t.Took level capacity es n) (hring : t'.ring = t.ring)
    (hsequence : t'.sequence = t.sequence + 1) : t'.Took level capacity es (n + 1) := by
  obtain ⟨hnumber, r, kept, hr, hlevel, hcapacity, hholds, hkept, horder⟩ := h
  exact ⟨hsequence ▸ toNat_next hnumber, r, kept, hring.trans hr, hlevel, hcapacity, hholds, hkept,
    horder.mono (Nat.le_succ n)⟩

theorem pushSink (h : t.Took level capacity es n) (e : Event) :
    ∃ n' ≤ n + 1, (t.pushSink e).Took level capacity es n' := by
  unfold Tracer.pushSink
  split
  · exact ⟨n, Nat.le_succ n, h⟩
  · split
    · exact ⟨n + 1, Nat.le_refl _, h.later rfl rfl⟩
    · exact ⟨n, Nat.le_succ n, h⟩

/-- An event that counts is taken in with the next number. -/
theorem pushRing (h : t.Took level capacity es n) (e : Event) :
    ∃ n' ≤ n + 1, (t.pushRing e).Took level capacity (es ++ [e].filter (counts level)) n' := by
  obtain ⟨hnumber, r, kept, hr, rfl, hcapacity, hholds, hkept, horder⟩ := id h
  unfold Tracer.pushRing
  rw [hr]
  dsimp only
  split
  next haccepted =>
    rw [List.filter_cons_of_pos (p := counts r.level) haccepted, List.filter_nil]
    have hnext := toNat_next hnumber
    refine ⟨n + 1, Nat.le_refl _, hnext, _, kept ++ [{ e with sequence := (t.sequence + 1).toNat }],
      rfl, r.level_push _,
      (r.capacity_push _).trans hcapacity, hholds.push _, ?_, horder.concat hnext⟩
    have hlast : [{ e with sequence := (t.sequence + 1).toNat }].map Event.unnumbered =
      [e].map Event.unnumbered := rfl
    rw [List.map_append, List.map_append, hkept, hlast]
  next hrefused =>
    rw [List.filter_cons_of_neg (p := counts r.level) hrefused, List.filter_nil, List.append_nil]
    exact ⟨n, Nat.le_succ n, h⟩

/-- Every use leaves a ring that has taken in what was recorded. -/
theorem use (h : t.Took level capacity es n) (u : Use) :
    ∃ n' ≤ n + 2, (t.use u).Took level capacity (es ++ (emitted [u]).filter (counts level)) n' := by
  cases u with
  | emit e =>
    obtain ⟨n₁, hn₁, hsink⟩ := h.pushSink e
    obtain ⟨n₂, hn₂, hring⟩ := hsink.pushRing e
    exact ⟨n₂, by omega, hring⟩
  | look =>
    rw [show emitted [.look] = [] from rfl, List.filter_nil, List.append_nil]
    exact ⟨n, Nat.le_add_right n 2, h⟩
  | number =>
    rw [show emitted [.number] = [] from rfl, List.filter_nil, List.append_nil]
    exact ⟨n + 1, Nat.le_succ _, h.later rfl rfl⟩

/-- So does a run. -/
theorem run (h : t.Took level capacity es n) (us : List Use) :
    ∃ n' ≤ n + 2 * us.length,
      (us.foldl Tracer.use t).Took level capacity (es ++ (emitted us).filter (counts level))
        n' := by
  induction us generalizing t es n with
  | nil =>
    rw [show emitted [] = [] from rfl, List.filter_nil, List.append_nil]
    exact ⟨n, Nat.le_refl n, h⟩
  | cons u us ih =>
    have hsplit : emitted (u :: us) = emitted [u] ++ emitted us := List.filterMap_append (l := [u])
    obtain ⟨n₁, hn₁, hfirst⟩ := h.use u
    obtain ⟨n₂, hn₂, hrest⟩ := ih hfirst
    rw [hsplit, List.filter_append, ← List.append_assoc]
    exact ⟨n₂, by rw [List.length_cons]; omega, hrest⟩

end Took

theorem looks_append (t : Tracer) (us vs : List Use) :
    t.looks (us ++ vs) = t.looks us ++ (us.foldl use t).looks vs := by
  induction us generalizing t with
  | nil => rfl
  | cons u us ih =>
    cases u with
    | look => exact congrArg (_ :: ·) (ih t)
    | _ => exact ih _

/-- There is a list of events for every look. -/
theorem length_looks (t : Tracer) (us : List Use) : (t.looks us).length = us.count .look := by
  induction us generalizing t with
  | nil => rfl
  | cons u us ih =>
    cases u with
    | look => rw [List.count_cons_self, ← ih t]; rfl
    | _ => rw [List.count_cons_of_ne Use.noConfusion]; exact ih _

/-- However a tracer was used before, a look at its ring shows as many of the events that count as
there is room for, the latest ones, in the order in which they came and were numbered; and no look
changes what the others show.  Of a number 64 bits are kept, and so the numbers increase as long as
they fit in. -/
theorem look_recent (t : Tracer) (capacity : Int) (level : Level) (before after : List Use) :
    let t := { t with ring := some (Ring.ofCapacity capacity level) }
    let taken := (emitted before).filter (counts level)
    let room := if 0 < capacity then capacity.toNat else 2048
    let last := t.sequence.toNat + 2 * before.length
    let shown := t.looks (before ++ .look :: after)
    (∃ recent, shown[before.count .look]? = some recent ∧ recent.length = min taken.length room ∧
      recent.map Event.unnumbered <:+ taken.map Event.unnumbered ∧ NumberedTo last recent ∧
      (last < 2 ^ 64 → InOrder recent)) ∧
    shown.eraseIdx (before.count .look) = t.looks (before ++ after) := by
  intro t taken room last shown
  have hstart : t.Took level room [] t.sequence.toNat :=
    ⟨(Nat.mod_eq_of_lt t.sequence.toNat_lt).symm, _, [], rfl, rfl, Ring.capacity_ofCapacity _ _,
      Ring.holds_ofCapacity _ _, rfl, .nil _⟩
  obtain ⟨n, hn, -, r, kept, hr, -, hcapacity, hholds, hkept, horder⟩ := Took.run hstart before
  have hshown : shown = t.looks before ++ r.snapshot :: (before.foldl use t).looks after := by
    show t.looks (before ++ .look :: after) = _
    rw [looks_append, looks, hr]
    rfl
  have hlength : kept.length = taken.length := by
    rw [← List.length_map, hkept, List.length_map]
    rfl
  have hnumbered : NumberedTo last r.snapshot := by
    rw [hholds.snapshot]
    exact (horder.mono hn).drop _
  rw [← length_looks t before, hshown]
  refine ⟨⟨r.snapshot, ?_, ?_, ?_, hnumbered, hnumbered.inOrder⟩, ?_⟩
  · rw [List.getElem?_append_right (Nat.le_refl _), Nat.sub_self, List.getElem?_cons_zero]
  · rw [hholds.snapshot, List.length_drop, hcapacity, hlength]
    omega
  · rw [hholds.snapshot, List.map_drop, hkept]
    exact List.drop_suffix _ _
  · rw [List.eraseIdx_append_of_length_le (Nat.le_refl _), Nat.sub_self,
      List.eraseIdx_cons_zero, looks_append]

/-- Three heartbeats. -/
def beats : List Use :=
  [.emit { kind := .heartbeat, name := "a" }, .emit { kind := .heartbeat, name := "b" },
    .emit { kind := .heartbeat, name := "c" }]

/-- A ring that has room for two of them shows these in their order. -/
theorem beats_recent : ∃ recent,
    ({ off with ring := some (Ring.ofCapacity 2 .off) } : Tracer).looks (beats ++ [.look]) =
      [recent] ∧
      recent.map Event.name = ["b", "c"] ∧ InOrder recent := by
  obtain ⟨⟨recent, hshown, -, -, -, horder⟩, -⟩ := look_recent off 2 .off beats []
  have hlooks : ({ off with ring := some (Ring.ofCapacity 2 .off) } : Tracer).looks
      (beats ++ [.look]) = [recent] := by
    have hlength := length_looks { off with ring := some (Ring.ofCapacity 2 .off) }
      (beats ++ [.look])
    obtain ⟨only, honly⟩ := List.length_eq_one_iff.1 hlength
    rw [honly] at hshown ⊢
    exact congrArg (fun e => [e]) (Option.some.inj hshown)
  have hnames : (({ off with ring := some (Ring.ofCapacity 2 .off) } : Tracer).looks
      (beats ++ [.look])).map (List.map Event.name) =
      [["b", "c"]] := by decide +kernel
  rw [hlooks] at hnames
  exact ⟨recent, hlooks, List.head_eq_of_cons_eq hnames, horder (by decide)⟩

end Tracer

end Breadbin.Trace
