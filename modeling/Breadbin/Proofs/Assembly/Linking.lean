import Breadbin.Proofs.Assembly.Patching
import Breadbin.Proofs.Assembly.Stream

/-!
# Linked images

Linking a stream that some operations built gives the image of their listing: its lines encoded one
after the other, each label at the address of what follows it.  Without alignments this holds of
every stream; with them it holds where no alignment is followed by a larger one for the same place.
-/

/-! ## Computations that may fail

A sequence of computations succeeds when each of them does.
-/

namespace Breadbin

variable {ε α β : Type}

theorem bind_eq_ok {x : Except ε α} {f : α → Except ε β} {b : β} :
    (x >>= f) = .ok b ↔ ∃ a, x = .ok a ∧ f a = .ok b := by
  cases x with
  | error e => simp [bind, Except.bind]
  | ok a => simp [bind, Except.bind]

theorem pure_eq_ok {a b : α} : (pure a : Except ε α) = .ok b ↔ a = b := by
  simp [pure, Except.pure]

theorem throw_ne_ok {e : ε} {a : α} : (throw e : Except ε α) ≠ .ok a := nofun

theorem exists_ok_of_isSome {x : Except ε α} (h : x.toOption.isSome = true) : ∃ a, x = .ok a := by
  cases x with
  | error e => cases h
  | ok a => exact ⟨a, rfl⟩

theorem exists_ok_of_map {x : Except ε α} {f : α → β} {b : β} (h : x.toOption.map f = some b) :
    ∃ a, x = .ok a ∧ f a = b := by
  cases x with
  | error e => cases h
  | ok a => exact ⟨a, rfl, Option.some.inj h⟩

end Breadbin

namespace Breadbin.Assembly

open Spot

/-- Whether a placement is a branch around a jump. -/
def Placement.isLong (p : Placement) : Bool :=
  match p.line with
  | .instr _ (.relative _) => p.bytes.length = 5
  | _ => false

/-- Whether a placement has the bytes of its line, and three more when it is a long branch. -/
def Placement.Sized (p : Placement) : Prop :=
  p.bytes.length = p.line.raw.length + if p.isLong then 3 else 0

/-- The image is a listing with the given addresses and bytes. -/
structure Listing.Linked (L : Listing) (image : Image) (env : Addresses) (ps : List Placement) :
    Prop where
  lines : ps.map Placement.line = L.lines
  bytes : image.bytes.toList = ps.flatMap Placement.bytes
  assembled : Placement.Assembled env image.origin.toNat ps
  /-- every label that a line needs is bound -/
  bound : ∀ line ∈ L.lines, ∀ l, line.needs? = some l → l ∈ L.labels
  trampolines : image.trampolines = ps.countP Placement.isLong
  /-- a line that needs no label has the bytes it has in the stream -/
  fixed : ∀ p ∈ ps, p.line.needs? = none → p.line.isAlign = false → p.bytes = p.line.raw
  /-- a line has its own bytes, and three more when it is a long branch -/
  sizes : ∀ p ∈ ps, p.line.isAlign = false → p.Sized
  /-- the symbols are the named labels in the order of their addresses -/
  sorted : image.symbols.Pairwise fun a b => a.address ≤ b.address
  symbols : ∀ a : Nat,
    (image.symbols.map fun s => (s.label, s.address.toNat)).filter (·.2 = a) =
      (L.named env).filter (·.2 = a)

/-! ## The first layout -/

theorem lead_ofLines (ls : List Line) : lead (ofLines ls) = 0 := by
  induction ls with
  | nil => rfl
  | cons line ls ih =>
    simp only [ofLines, List.map_cons, lead] at ih ⊢
    split
    · rfl
    next h =>
      have hraw : line.raw = [] := by simpa [Spot.isSolid, Line.isSolid] using h
      simp [size, raw_ofLine, hraw, ih]

theorem snug_ofLines (ls : List Line) (g : Option Nat) : Snug g ((ofLines ls).map written) := by
  induction ls generalizing g with
  | nil => trivial
  | cons line ls ih =>
    refine ⟨fun _ _ => by simp, ih _⟩

theorem countP_isLong_ofLines (ls : List Line) : (ofLines ls).countP isLong = 0 := by
  rw [List.countP_eq_zero]
  intro s hs
  obtain ⟨line, -, rfl⟩ := List.mem_map.1 hs
  cases line with
  | instr mn arg => cases arg <;> simp [isLong]
  | _ => simp [isLong]

/-- The layout that a stream starts with is the one of its listing. -/
theorem Layout.ofStream_lays {s : Stream} {L : Listing} (h : s.Shows L) (origin : UInt16) :
    (Layout.ofStream s origin).Lays (ofLines L.lines) where
  valid := by
    intro t ht
    obtain ⟨line, hline, rfl⟩ := List.mem_map.1 ht
    exact h.valid line hline
  code := by rw [flatMap_raw_ofLines, ← h.code]; rfl
  fixups := h.fixups
  marks := h.marks
  labels := by
    intro us b vs e label hb
    obtain ⟨us', rest, hl, rfl, hrest⟩ := List.map_eq_append_iff.1 e
    obtain ⟨line, vs', rfl, rfl, rfl⟩ := List.map_eq_cons_iff.1 hrest
    obtain rfl : line = .bound label := hb
    obtain ⟨-, hoffset⟩ := h.bound us' label vs' hl
    obtain ⟨-, entry, hentry, ho⟩ := Stream.offset?_eq.1 hoffset
    have hlead := lead_ofLines vs'
    have hextent := extent_ofLines us'
    simp only [ofLines] at hlead hextent
    simp [Layout.ofStream, hentry, ho, hlead, hextent]
  trampolines := (countP_isLong_ofLines L.lines).symm

/-! ## Labels -/

theorem fixup?_of_needs? {line : Line} {l : LabelId} (h : line.needs? = some l) (offset : Nat) :
    ∃ f, fixup? offset ⟨line, 0⟩ = some f ∧ f.label = l := by
  cases line with
  | instr mn arg =>
    cases arg <;> simp only [Line.needs?, Arg.ref?, Option.bind_some, Option.bind_none] at h <;>
      first
      | cases h
      | split at h
        next hr =>
          obtain rfl := Option.some.inj h
          simp [fixup?, argFixup?, hr]
        next => cases h
  | word r =>
    simp only [Line.needs?] at h
    split at h
    next hr =>
      obtain rfl := Option.some.inj h
      simp [fixup?, hr]
    next => cases h
  | data _ | bound _ | align _ => cases h

theorem mem_gather {β : Type} {f : Nat → Spot → Option β} {ss : List Spot} {s : Spot} (offset : Nat)
    (hs : s ∈ ss) (h : ∀ offset, ∃ b, f offset s = some b) :
    ∃ b offset', f offset' s = some b ∧ b ∈ gather f offset ss := by
  induction ss generalizing offset with
  | nil => cases hs
  | cons t ss ih =>
    rcases List.mem_cons.1 hs with rfl | hs
    · obtain ⟨b, hb⟩ := h offset
      exact ⟨b, offset, hb, by simp [gather, hb]⟩
    · obtain ⟨b, offset', hb, hmem⟩ := ih (offset + t.size) hs
      exact ⟨b, offset', hb, by simp [gather, hmem]⟩

/-- A label with an offset is bound in the listing. -/
theorem Stream.Shows.mem_labels {s : Stream} {L : Listing} {l : LabelId} {offset : Nat}
    (h : s.Shows L) (ho : s.offset? l = some offset) : l ∈ L.labels := by
  obtain ⟨hsome, entry, hentry, hoffset⟩ := Stream.offset?_eq.1 ho
  obtain ⟨l', hl', hn⟩ := h.unbound _ entry hentry (by simp [hoffset])
  have hpos := LabelId.pos_of_isSome hsome
  obtain rfl : l' = l := LabelId.eq_of_toNat (by omega)
  exact hl'

/-- Linking succeeds only when every label that a line needs is bound. -/
theorem Stream.Shows.needs_bound {s : Stream} {L : Listing} (h : s.Shows L)
    (hresolved : s.unresolved? = none) {line : Line} (hline : line ∈ L.lines) {l : LabelId}
    (hneeds : line.needs? = some l) : l ∈ L.labels := by
  have hspot : (⟨line, 0⟩ : Spot) ∈ ofLines L.lines := List.mem_map_of_mem hline
  obtain ⟨f, offset, hf, hmem⟩ := mem_gather 0 hspot fun o =>
    (fixup?_of_needs? hneeds o).imp fun _ hf => hf.1
  obtain ⟨f', hf', rfl⟩ := fixup?_of_needs? hneeds offset
  obtain rfl : f' = f := Option.some.inj (hf'.symm.trans hf)
  rw [← h.fixups] at hmem
  have hbound := Array.find?_eq_none.1 hresolved f' (by simpa using hmem)
  obtain ⟨o, ho⟩ : ∃ o, s.offset? f'.label = some o := by
    simpa [Option.isNone_iff_eq_none, Option.ne_none_iff_exists'] using hbound
  exact h.mem_labels ho

/-! ## Symbols -/

/-- A name with its address as a number. -/
def NamedAddress.entry (s : NamedAddress) : Bytes × Nat := (s.label, s.address.toNat)

/-- The entry of a label at an offset. -/
def Layout.entry? (l : Layout) (label : Label) (offset : Nat) : Option (Bytes × Nat) :=
  if label.name.isEmpty || label.offset.isNone then none else some (label.name, l.origin + offset)

theorem Layout.symbol?_entry {l : Layout} {label : Label} {offset : Nat}
    {found : Option NamedAddress} (h : l.symbol? label offset = .ok found) :
    found.map NamedAddress.entry = l.entry? label offset := by
  simp only [symbol?, entry?] at h ⊢
  split at h
  next hskip =>
    obtain rfl := Except.ok.inj h
    simp [hskip]
  next hskip =>
    split at h
    · cases h
    next hlt =>
      obtain rfl := Except.ok.inj h
      have : l.origin + offset < 0x10000 := by omega
      simp [hskip, NamedAddress.entry, Nat.mod_eq_of_lt this]

theorem Layout.mapM_symbol? {l : Layout} {pairs : List (Label × Nat)}
    {found : List (Option NamedAddress)} (h : pairs.mapM (fun p => l.symbol? p.1 p.2) = .ok found) :
    (found.filterMap id).map NamedAddress.entry = pairs.filterMap fun p => l.entry? p.1 p.2 := by
  induction pairs generalizing found with
  | nil =>
    obtain rfl := Except.ok.inj h
    rfl
  | cons p pairs ih =>
    rw [List.mapM_cons] at h
    cases hp : l.symbol? p.1 p.2 with
    | error e => simp [hp, bind, Except.bind] at h
    | ok first =>
      cases hrest : pairs.mapM fun p => l.symbol? p.1 p.2 with
      | error e => simp [hp, hrest, bind, Except.bind] at h
      | ok rest =>
        simp only [hp, hrest, bind, Except.bind] at h
        obtain rfl := Except.ok.inj h
        have hentry := symbol?_entry hp
        have := ih hrest
        cases first with
        | none => simp_all [← hentry]
        | some s => simp_all [← hentry]

theorem filterMap_zip_eq {α β γ : Type} {f : α × β → Option γ}
    {g : α × Nat → Option γ} {xs : List α} {ys : List β} {k : Nat}
    (h : ∀ i x, xs[i]? = some x → ∃ y, ys[i]? = some y ∧ f (x, y) = g (x, i + k)) :
    (xs.zip ys).filterMap f = (xs.zipIdx k).filterMap g := by
  induction xs generalizing ys k with
  | nil => rfl
  | cons x xs ih =>
    obtain ⟨y, hy, hfg⟩ := h 0 x rfl
    cases ys with
    | nil => simp at hy
    | cons y' ys =>
      obtain rfl : y' = y := by simpa using hy
      have hrest : (xs.zip ys).filterMap f = (xs.zipIdx (k + 1)).filterMap g := by
        refine ih fun i x hi => ?_
        obtain ⟨y, hy, hfg⟩ := h (i + 1) x (by simpa using hi)
        refine ⟨y, by simpa using hy, ?_⟩
        rw [hfg, Nat.add_right_comm, Nat.add_assoc]
      simp only [Nat.zero_add] at hfg
      simp [List.filterMap_cons, hfg, hrest]

theorem Stream.Shows.offset?_of_mem {s : Stream} {L : Listing} {l : LabelId} (h : s.Shows L)
    (hl : l ∈ L.labels) : ∃ offset, s.offset? l = some offset := by
  obtain ⟨line, hline, hlabel⟩ := List.mem_filterMap.1 hl
  obtain rfl : line = .bound l := by cases line <;> simp_all [Line.label?]
  obtain ⟨us, vs, e⟩ := List.append_of_mem hline
  exact ⟨_, (h.bound us l vs e).2⟩

/-- The named labels of a layout are those of the listing. -/
theorem Stream.Shows.named_eq {s : Stream} {L : Listing} {l : Layout} (h : s.Shows L)
    (hsize : l.offsets.size = s.labels.size) :
    ((s.labels.toList.zip l.offsets.toList).filterMap fun p => l.entry? p.1 p.2) =
      L.named l.addresses := by
  rw [Listing.named, ← h.names, List.zipIdx_map, List.filterMap_map]
  refine filterMap_zip_eq fun i label hi => ?_
  have hi : s.labels[i]? = some label := by simpa using hi
  have hlt : i < l.offsets.size := by
    rw [hsize]
    exact (Array.getElem?_eq_some_iff.1 hi).1
  refine ⟨l.offsets[i], by simp [hlt], ?_⟩
  simp only [Layout.entry?, Function.comp, Prod.map, id, Nat.add_zero]
  by_cases hname : label.name.isEmpty = true
  · simp [hname]
  simp only [hname, Bool.false_or, Bool.false_eq_true, if_false]
  cases hfind : L.labels.find? fun l => l.number.toNat = i + 1 with
  | none =>
    have hnone : label.offset.isNone = true := by
      cases ho : label.offset with
      | none => rfl
      | some o =>
        obtain ⟨l', hl', hn⟩ := h.unbound i label hi (by simp [ho])
        exact absurd hn (by simpa using List.find?_eq_none.1 hfind l' hl')
    simp [hnone]
  | some l' =>
    have hn : l'.number.toNat = i + 1 := by simpa using List.find?_some hfind
    obtain ⟨o, ho⟩ := h.offset?_of_mem (List.mem_of_find?_eq_some hfind)
    obtain ⟨-, entry, hentry, hoffset⟩ := Stream.offset?_eq.1 ho
    rw [hn, Nat.add_sub_cancel, hi] at hentry
    obtain rfl := Option.some.inj hentry
    simp [hoffset, Layout.addresses, Layout.offset, hn, Array.getD_eq_getD_getElem?, hlt]

theorem address_le_trans (a b c : NamedAddress) :
    decide (a.address ≤ b.address) = true → decide (b.address ≤ c.address) = true →
      decide (a.address ≤ c.address) = true := by
  simp only [decide_eq_true_eq]
  exact UInt16.le_trans

theorem address_le_total (a b : NamedAddress) :
    (decide (a.address ≤ b.address) || decide (b.address ≤ a.address)) = true := by
  simp only [Bool.or_eq_true, decide_eq_true_eq]
  exact UInt16.le_total a.address b.address

theorem sorted_mergeSort (found : List NamedAddress) :
    (found.mergeSort fun a b => a.address ≤ b.address).Pairwise fun a b =>
      a.address ≤ b.address := by
  have := List.pairwise_mergeSort address_le_trans address_le_total found
  exact this.imp of_decide_eq_true

/-- Sorting by address keeps the order of what has one address. -/
theorem filter_mergeSort (found : List NamedAddress) (a : Nat) :
    ((found.mergeSort fun a b => a.address ≤ b.address).map NamedAddress.entry).filter (·.2 = a) =
      (found.map NamedAddress.entry).filter (·.2 = a) := by
  rw [List.filter_map, List.filter_map]
  congr 1
  generalize hp : ((fun e => decide (e.2 = a)) ∘ NamedAddress.entry : NamedAddress → Bool) = p
  have hequal : (found.filter p).Pairwise fun s t => decide (s.address ≤ t.address) = true := by
    rw [List.pairwise_iff_forall_sublist]
    intro s t hst
    subst hp
    have hs : s.address.toNat = a :=
      of_decide_eq_true (List.mem_filter.1 (hst.subset (by simp : s ∈ [s, t]))).2
    have ht : t.address.toNat = a :=
      of_decide_eq_true (List.mem_filter.1 (hst.subset (by simp : t ∈ [s, t]))).2
    rw [decide_eq_true_eq, UInt16.le_iff_toNat_le]
    omega
  have hsub := (List.sublist_mergeSort address_le_trans address_le_total hequal
    List.filter_sublist).filter p
  rw [List.filter_filter] at hsub
  simp only [Bool.and_self] at hsub
  refine (hsub.eq_of_length ?_).symm
  exact ((List.mergeSort_perm found _).filter p).length_eq.symm

/-! ## Images of listings -/

/-- What a successful link went through. -/
theorem Stream.link_eq {s : Stream} {origin : UInt16} {image : Image}
    (h : s.link origin = .ok image) :
    s.error = none ∧ s.unresolved? = none ∧
      ∃ l l' found, (Layout.ofStream s origin).settle Layout.maxPasses = .ok l ∧
        l.patchAll = .ok l' ∧ l'.symbols s.labels.toList = .ok found ∧
        image = ⟨origin, origin, l'.code, found, l'.trampolines⟩ := by
  unfold Stream.link at h
  cases he : s.error with
  | some e =>
    rw [he] at h
    obtain ⟨_, h, -⟩ := bind_eq_ok.1 h
    exact absurd h throw_ne_ok
  | none =>
    rw [he] at h
    cases hf : s.unresolved? with
    | some f =>
      rw [hf] at h
      obtain ⟨_, h, -⟩ := bind_eq_ok.1 h
      exact absurd h throw_ne_ok
    | none =>
      rw [hf] at h
      obtain ⟨l, hl, h⟩ := bind_eq_ok.1 h
      obtain ⟨l', hp, h⟩ := bind_eq_ok.1 h
      obtain ⟨found, hs, h⟩ := bind_eq_ok.1 h
      exact ⟨rfl, rfl, l, l', found, hl, hp, hs, (pure_eq_ok.1 h).symm⟩

/-- The bytes of a spot: those of its line, three more for a long branch, and padding. -/
theorem size_eq {s : Spot} (valid : s.line.IsValid) (halign : s.line.isAlign = false) :
    s.size = s.line.raw.length + if s.isLong then 3 else 0 := by
  obtain ⟨line, grown⟩ := s
  cases line with
  | instr mn arg =>
    obtain ⟨code, -, hraw⟩ := raw_instr valid
    cases arg with
    | relative l =>
      cases hlong : Spot.isLong ⟨.instr mn (.relative l), grown⟩ <;>
        simp [size, Spot.raw, hlong, hraw, Arg.raw]
    | _ => simp [size, Spot.raw, isLong]
  | align n => cases halign
  | _ => simp [size, Spot.raw, isLong]

/-- A placement of the size of a spot is a long branch when the spot is. -/
theorem isLong_of_size {s : Spot} {p : Placement} (valid : s.line.IsValid) (hline : p.line = s.line)
    (hsize : p.bytes.length = s.size) : p.isLong = s.isLong := by
  obtain ⟨line, grown⟩ := s
  simp only [Placement.isLong, hline]
  cases line with
  | instr mn arg =>
    cases arg with
    | relative l =>
      obtain ⟨code, -, hraw⟩ := raw_instr valid
      rw [hsize, size_eq valid rfl, hraw]
      cases Spot.isLong ⟨.instr mn (.relative l), grown⟩ <;> simp [Arg.raw]
    | _ => rfl
  | _ => rfl

/-- A line that needs no label is encoded as it stands in the stream. -/
theorem Line.Encodes.eq_raw {env : Addresses} {a : Nat} {line : Line} {bytes : List UInt8}
    (h : line.Encodes env a bytes) (hneeds : line.needs? = none) (halign : line.isAlign = false) :
    bytes = line.raw := by
  cases h with
  | @instr mn arg code known fixed fits =>
    have hfixed : ∀ r, arg.ref? = some r → r.isLabel = false := by
      intro r hr
      cases arg <;> cases hr <;> simpa [Line.needs?, Arg.ref?] using hneeds
    cases arg <;> simp_all [Line.raw, Arg.bytes, Arg.raw, Arg.ref?, Addresses.of, Arg.mode]
  | short known isSome lands => simp [Line.needs?, isSome] at hneeds
  | long inverts known isSome fits => simp [Line.needs?, isSome] at hneeds
  | data bs => rfl
  | @word r fits =>
    have hr : r.isLabel = false := by simpa [Line.needs?] using hneeds
    simp [Line.raw, Addresses.of, hr]
  | bound l => rfl
  | align multiple least => cases halign

/-- Placements for spots split where the spots do. -/
theorem split_placements {ss : List Spot} {pre post : List Placement} {p : Placement}
    (hlines : (pre ++ p :: post).map Placement.line = ss.map Spot.line)
    (hsizes : (pre ++ p :: post).map (fun p => p.bytes.length) = ss.map Spot.size) :
    ∃ us b vs, ss = us ++ b :: vs ∧ p.line = b.line ∧ p.bytes.length = b.size ∧
      post.map Placement.line = vs.map Spot.line ∧
      post.map (fun p => p.bytes.length) = vs.map Spot.size := by
  rw [List.map_append, List.map_cons] at hlines hsizes
  obtain ⟨us, rest, rfl, hus, hrest⟩ := List.map_eq_append_iff.1 hlines.symm
  obtain ⟨b, vs, rfl, hb, hvs⟩ := List.map_eq_cons_iff.1 hrest
  rw [List.map_append, List.map_cons] at hsizes
  have hlen : us.length = pre.length := by simpa using congrArg List.length hus
  obtain ⟨-, hcons⟩ := List.append_inj hsizes (by simp [hlen])
  obtain ⟨hsize, hsizes⟩ := List.cons.inj hcons
  exact ⟨us, b, vs, rfl, hb.symm, hsize, hvs.symm, hsizes⟩

theorem countP_isLong {ps : List Placement} {ss : List Spot} (valid : ∀ s ∈ ss, s.line.IsValid)
    (hlines : ps.map Placement.line = ss.map Spot.line)
    (hsizes : ps.map (fun p => p.bytes.length) = ss.map Spot.size) :
    ps.countP Placement.isLong = ss.countP Spot.isLong := by
  induction ps generalizing ss with
  | nil =>
    obtain rfl : ss = [] := by simpa using hlines.symm
    rfl
  | cons p ps ih =>
    cases ss with
    | nil => simp at hlines
    | cons s ss =>
      obtain ⟨hline, hlines⟩ := List.cons.inj hlines
      obtain ⟨hsize, hsizes⟩ := List.cons.inj hsizes
      rw [List.countP_cons, List.countP_cons, isLong_of_size (valid s (by simp)) hline hsize,
        ih (fun t ht => valid t (by simp [ht])) hlines hsizes]

/-- Behind an alignment no other one of the same place is padded. -/
theorem lead_of_snug {ss : List Spot} {m : Nat} (valid : ∀ s ∈ ss, s.line.IsValid)
    (h : Snug (some m) (ss.map written)) : lead ss = 0 := by
  induction ss with
  | nil => rfl
  | cons s ss ih =>
    obtain ⟨hpad, hrest⟩ := h
    simp only [lead]
    split
    · rfl
    next hsolid =>
      have hsolid : s.line.isSolid = false := by simpa [Spot.isSolid] using hsolid
      have hasked : s.line.asked (some m) = some m := by
        cases hline : s.line <;> simp_all [Line.asked]
      have hsize : s.size = 0 := by
        cases halign : s.line.isAlign with
        | false => exact size_eq_zero (valid s (by simp)) hsolid halign
        | true =>
          obtain ⟨line, grown⟩ := s
          obtain ⟨n, rfl⟩ := Line.isAlign_iff.1 halign
          rw [size_align]
          simpa [Line.isAlign] using hpad rfl rfl
      rw [hasked] at hrest
      rw [hsize, ih (fun t ht => valid t (by simp [ht])) hrest]

theorem snug_behind {us vs : List Spot} {b : Spot} {g : Option Nat} (hb : b.line.isAlign = true)
    (h : Snug g ((us ++ b :: vs).map written)) : ∃ m, Snug (some m) (vs.map written) := by
  induction us generalizing g with
  | nil =>
    obtain ⟨n, hn⟩ := Line.isAlign_iff.1 hb
    have := h.2
    rw [hn] at this
    exact ⟨_, this⟩
  | cons u us ih => exact ih h.2

/-- Filling in the fixups of a listing that is laid out gives the image of the listing. -/
theorem Stream.Shows.patched {s : Stream} {L : Listing} {origin : UInt16} {l l' : Layout}
    {found : List NamedAddress} {ss : List Spot} (h : s.Shows L) (hresolved : s.unresolved? = none)
    (hlays : l.Spread ss) (hkin : (Layout.ofStream s origin).Kin l)
    (hlines : ss.map Spot.line = L.lines)
    (aligned : Aligned l.origin 0 ss) (hpatch : l.patchAll = .ok l')
    (hsymbols : l'.symbols s.labels.toList = .ok found) :
    ∃ ps, L.Linked ⟨origin, origin, l'.code, found, l'.trampolines⟩ l.addresses ps ∧
      ps.map Placement.line = ss.map Spot.line ∧
      ps.map (fun p => p.bytes.length) = ss.map Spot.size := by
  obtain ⟨-, -, hpatch⟩ := bind_eq_ok.1 hpatch
  rw [← Array.foldlM_toList, hlays.fixups] at hpatch
  obtain ⟨ps, hpl, hps, hcode, hrest, hassembled⟩ :=
    Layout.foldlM_patch_assembled [] [] hlays.valid (by simpa using hlays.code) aligned
      (fun us b vs e label hb => by simp [Layout.addresses, hlays.offset e hb]) hpatch
  have haddresses : l'.addresses = l.addresses := by rw [hrest]; rfl
  have hl : l.origin = origin.toNat := hkin.origin
  obtain ⟨all, hall, hfound⟩ := bind_eq_ok.1 hsymbols
  obtain rfl := pure_eq_ok.1 hfound
  have hnamed := (Layout.mapM_symbol? hall).trans
    (h.named_eq (by rw [hrest, hkin.labels]; simp [Layout.ofStream]))
  refine ⟨ps, ⟨hpl.trans hlines, by simpa using hcode, ?_, fun line hline l hn =>
    h.needs_bound hresolved hline hn, ?_, ?_, ?_, sorted_mergeSort _, fun a => ?_⟩, hpl, hps⟩
  · simpa [hl] using hassembled
  · rw [countP_isLong hlays.valid hpl hps, ← hlays.trampolines, hrest]
  · intro p hp hneeds halign
    obtain ⟨pre, post, rfl⟩ := List.append_of_mem hp
    exact hassembled.split.1.eq_raw hneeds halign
  · intro p hp halign
    obtain ⟨pre, post, rfl⟩ := List.append_of_mem hp
    obtain ⟨us, b, vs, rfl, hline, hsize, -⟩ := split_placements hpl hps
    have hvalid := hlays.valid b (by simp)
    rw [Placement.Sized, isLong_of_size hvalid hline hsize, hsize, hline,
      size_eq hvalid (hline ▸ halign)]
  · rw [← haddresses, ← hnamed]
    exact filter_mergeSort _ a

/-- The image of a stream is its listing when the first alignment of each place is the largest. -/
theorem Stream.Shows.link {s : Stream} {L : Listing} {origin : UInt16}
    {image : Image} (h : s.Shows L)
    (largest : Line.LargestFirst none L.lines) (hlink : s.link origin = .ok image) :
    ∃ env ps, L.Linked image env ps ∧ image.origin = origin ∧
      ∀ pre p post, ps = pre ++ p :: post → p.line.isAlign = true → Placement.gap post = 0 := by
  obtain ⟨-, hresolved, l, l', found, hsettle, hpatch, hsymbols, rfl⟩ := Stream.link_eq hlink
  have hspells : (Layout.ofStream s origin).Spells (Layout.ofStream s origin)
      ((ofLines L.lines).map written) := ⟨.refl _, _, Layout.ofStream_lays h origin, rfl⟩
  have hlines₀ : ((ofLines L.lines).map written).map Prod.fst = L.lines := by
    rw [map_fst_written]
    simp [ofLines, Function.comp_def]
  obtain ⟨ss, hlays, hkin, hlines, padded, aligned⟩ :=
    Layout.settle_lays hspells ⟨by rw [hlines₀]; exact largest, snug_ofLines _ _⟩ hsettle
  rw [hlines₀] at hlines
  obtain ⟨ps, hlinked, hpl, hps⟩ :=
    h.patched hresolved hlays.spread hkin hlines aligned hpatch hsymbols
  refine ⟨l.addresses, ps, hlinked, rfl, ?_⟩
  rintro pre p post rfl halign
  obtain ⟨us, b, vs, rfl, hline, -, hlines', hsizes'⟩ := split_placements hpl hps
  obtain ⟨m, hm⟩ := snug_behind (hline ▸ halign) padded.snug
  rw [gap_eq_lead hlines' hsizes']
  exact lead_of_snug (fun t ht => hlays.valid t (by simp [ht])) hm

/-! ## Listings without alignments -/

theorem Line.largestFirst_of_not_align {ls : List Line} (h : ∀ line ∈ ls, line.isAlign = false)
    (g : Option Nat) : Line.LargestFirst g ls := by
  induction ls generalizing g with
  | nil => trivial
  | cons line ls ih =>
    refine ⟨?_, ih (fun l hl => h l (by simp [hl])) _⟩
    rintro n rfl
    exact absurd (h (.align n) (by simp)) (by simp [Line.isAlign])

/-- Whether an operation asks for alignment. -/
def Action.isAlign : Action → Bool
  | .align _ => true
  | _ => false

theorem Action.lines_not_align {a : Action} (h : a.isAlign = false) (made : Nat) :
    ∀ line ∈ a.lines made, line.isAlign = false := by
  intro line hline
  cases a with
  | align n => cases h
  | addLabel name => cases hline
  | _ =>
    obtain rfl := List.mem_singleton.1 hline
    rfl

theorem Listing.ofActions_not_align {actions : List Action} (h : ∀ a ∈ actions, a.isAlign = false) :
    ∀ line ∈ (Listing.ofActions actions).lines, line.isAlign = false := by
  suffices ∀ L : Listing, (∀ line ∈ L.lines, line.isAlign = false) →
      ∀ line ∈ (actions.foldl Listing.add L).lines, line.isAlign = false from this {} (by simp)
  intro L hL
  induction actions generalizing L with
  | nil => exact hL
  | cons a actions ih =>
    refine ih (fun b hb => h b (by simp [hb])) _ fun line hline => ?_
    rcases List.mem_append.1 hline with hline | hline
    · exact hL line hline
    · exact Action.lines_not_align (h a (by simp)) _ line hline

theorem Placement.length_of_isLong {p : Placement} (h : p.isLong = true) : p.bytes.length = 5 := by
  simp only [isLong] at h
  split at h
  · exact of_decide_eq_true h
  · cases h

theorem gap_of_sized {ps : List Placement} (h : ∀ p ∈ ps, p.Sized) : Placement.gap ps = 0 := by
  induction ps with
  | nil => rfl
  | cons p ps ih =>
    simp only [Placement.gap]
    split
    · rfl
    next hsolid =>
      have hraw : p.line.raw = [] := by simpa [Line.isSolid] using hsolid
      have hsize : p.bytes.length = 0 + if p.isLong then 3 else 0 := by
        rw [h p (by simp), hraw, List.length_nil]
      have hshort : ¬p.isLong = true := by
        intro hlong
        rw [Placement.length_of_isLong hlong] at hsize
        simp [hlong] at hsize
      rw [ih fun q hq => h q (by simp [hq]), hsize]
      simp [hshort]

theorem size_of_sized {ps : List Placement} (h : ∀ p ∈ ps, p.Sized) :
    Placement.size ps =
      ((ps.map Placement.line).flatMap Line.raw).length + 3 * ps.countP Placement.isLong := by
  induction ps with
  | nil => rfl
  | cons p ps ih =>
    rw [Placement.size_cons, h p (by simp), ih fun q hq => h q (by simp [hq]), List.countP_cons]
    simp only [List.map_cons, List.flatMap_cons, List.length_append]
    split <;> omega

/-- Without alignments nothing is padded, and a label is the address of the line behind it. -/
theorem Stream.Shows.link_unaligned {s : Stream} {L : Listing} {origin : UInt16} {image : Image}
    (h : s.Shows L) (notAlign : ∀ line ∈ L.lines, line.isAlign = false)
    (hlink : s.link origin = .ok image) :
    ∃ env ps, L.Linked image env ps ∧ image.origin = origin ∧ (∀ p ∈ ps, p.Sized) ∧
      ∀ pre p post l, ps = pre ++ p :: post → p.line = .bound l →
        env l = origin.toNat + Placement.size pre := by
  obtain ⟨env, ps, hlinked, rfl, -⟩ := h.link (Line.largestFirst_of_not_align notAlign none) hlink
  have sized : ∀ p ∈ ps, p.Sized := fun p hp =>
    hlinked.sizes p hp (notAlign p.line (hlinked.lines ▸ List.mem_map_of_mem hp))
  refine ⟨env, ps, hlinked, rfl, sized, ?_⟩
  rintro pre p post l rfl hl
  rw [hlinked.assembled.split.2 l hl, gap_of_sized fun q hq => sized q (by simp [hq]), Nat.add_zero]

/-- **Linking without alignments is assembling.**  The image of a stream that was built without an
error is its listing: each line is encoded at the origin plus the bytes before it, labels are the
addresses of what follows them, and only long branches take more bytes than in the stream. -/
theorem link_assembles {actions : List Action} {origin : UInt16} {image : Image}
    (unaligned : ∀ a ∈ actions, a.isAlign = false)
    (ok : (Stream.ofActions actions).error = none)
    (linked : (Stream.ofActions actions).link origin = .ok image) :
    (Stream.ofActions actions).code.toList = (Listing.ofActions actions).lines.flatMap Line.raw ∧
      ∃ env ps, (Listing.ofActions actions).Linked image env ps ∧ image.origin = origin ∧
        (∀ pre p post l, ps = pre ++ p :: post → p.line = .bound l →
          env l = origin.toNat + Placement.size pre) ∧
        image.bytes.size = (Stream.ofActions actions).size + 3 * image.trampolines := by
  have shows := Stream.ofActions_shows ok
  obtain ⟨env, ps, h, rfl, sized, labels⟩ :=
    shows.link_unaligned (Listing.ofActions_not_align unaligned) linked
  refine ⟨shows.code, env, ps, h, rfl, labels, ?_⟩
  rw [h.trampolines, Stream.size, length_code shows, ← h.lines, ← size_of_sized sized,
    ← Array.length_toList, h.bytes, Placement.size]

/-- A loop that reads the address of its end. -/
def loopActions : List Action :=
  [.addLabel (Text.bytesOf "end"), .placeLabel (Text.bytesOf "loop"),
    .emit .lda (.lowByte (.ofLabel ⟨1⟩ 2)), .branch .bne ⟨2⟩, .word (.ofLabel ⟨2⟩),
    .bind ⟨1⟩, .op .rts]

/-- The loop is linked, and its image is assembled. -/
theorem loopActions_assembled :
    ∃ image, (Stream.ofActions loopActions).link 0xC000 = .ok image ∧
      ∃ env ps, (Listing.ofActions loopActions).Linked image env ps := by
  have ok : (Stream.ofActions loopActions).error.isNone = true := by decide +kernel
  have linked : ((Stream.ofActions loopActions).link 0xC000).toOption.isSome = true := by
    decide +kernel
  obtain ⟨image, h⟩ := exists_ok_of_isSome linked
  obtain ⟨-, env, ps, hlinked, -⟩ :=
    link_assembles (by decide) (Option.isNone_iff_eq_none.1 ok) h
  exact ⟨image, h, env, ps, hlinked⟩

/-! ## Listings with alignments -/

/-- **Linking with alignments is assembling, where the first alignment of a place is the largest.**
Padding stands only where the listing asks for alignment and brings what follows to its multiple;
everything else is as without alignments. -/
theorem link_aligns {actions : List Action} {origin : UInt16} {image : Image}
    (largest : Line.LargestFirst none (Listing.ofActions actions).lines)
    (ok : (Stream.ofActions actions).error = none)
    (linked : (Stream.ofActions actions).link origin = .ok image) :
    (Stream.ofActions actions).code.toList = (Listing.ofActions actions).lines.flatMap Line.raw ∧
      ∃ env ps, (Listing.ofActions actions).Linked image env ps ∧ image.origin = origin ∧
        (∀ pre p post l, ps = pre ++ p :: post → p.line = .bound l →
          env l = origin.toNat + Placement.size pre + Placement.gap post) ∧
        ∀ pre p post n, ps = pre ++ p :: post → p.line = .align n →
          n ∣ origin.toNat + Placement.size pre + p.bytes.length + Placement.gap post ∧
            ∀ b ∈ p.bytes, b = 0 := by
  have shows := Stream.ofActions_shows ok
  obtain ⟨env, ps, h, rfl, hgap⟩ := shows.link largest linked
  refine ⟨shows.code, env, ps, h, rfl, ?_, ?_⟩
  · rintro pre p post l rfl hl
    exact h.assembled.split.2 l hl
  · rintro pre p post n rfl hn
    have hencodes := h.assembled.split.1
    rw [hgap pre p post rfl (by simp [hn, Line.isAlign]), Nat.add_zero]
    rw [hn] at hencodes
    generalize p.bytes = bytes at hencodes
    cases hencodes with
    | align multiple least =>
      rw [List.length_replicate]
      exact ⟨Nat.dvd_of_mod_eq_zero multiple, fun b hb => (List.mem_replicate.1 hb).2⟩

/-- Two alignments of one place, the larger one first, in front of a loop. -/
def alignedActions : List Action :=
  [.data [0xAA, 0xBB, 0xCC], .align 4, .align 2, .placeLabel (Text.bytesOf "loop"),
    .branch .bne ⟨1⟩, .op .rts]

/-- The aligned loop is linked, and its image is assembled. -/
theorem alignedActions_assembled :
    ∃ image, (Stream.ofActions alignedActions).link 0xC000 = .ok image ∧
      ∃ env ps, (Listing.ofActions alignedActions).Linked image env ps := by
  have ok : (Stream.ofActions alignedActions).error.isNone = true := by decide +kernel
  have linked : ((Stream.ofActions alignedActions).link 0xC000).toOption.isSome = true := by
    decide +kernel
  have largest : Line.LargestFirst none (Listing.ofActions alignedActions).lines := by
    simp [alignedActions, Listing.ofActions, Listing.add, Action.lines, Action.names,
      Line.LargestFirst, Line.asked]
  obtain ⟨image, h⟩ := exists_ok_of_isSome linked
  obtain ⟨-, env, ps, hlinked, -⟩ :=
    link_aligns largest (Option.isNone_iff_eq_none.1 ok) h
  exact ⟨image, h, env, ps, hlinked⟩

/-- When the padding of a mark shrinks, another mark at the same offset is moved back by as much:
out of its place, into the bytes before it.  With the largest alignment first this never happens,
since only the first mark of a place is ever padded. -/
theorem alignMark_moves_back {l : Layout} {changed : Bool}
    {i j offset n n' g g' : Nat} (hij : i ≠ j)
    (hi : l.marks[i]? = some ⟨offset, n, g⟩) (hj : l.marks[j]? = some ⟨offset, n', g'⟩)
    (shrinks : Layout.padding n (l.origin + offset) < g) :
    (Layout.alignMark (l, changed) i).1.marks[j]? =
      some ⟨offset - (g - Layout.padding n (l.origin + offset)), n', g'⟩ := by
  have hget : l.marks.getD i default = ⟨offset, n, g⟩ := by simp [Array.getD_eq_getD_getElem?, hi]
  simp only [Layout.alignMark, hget, Nat.ne_of_lt shrinks, if_false]
  have hmoved : Layout.moved offset ((Layout.padding n (l.origin + offset) : Int) - g) offset =
      offset - (g - Layout.padding n (l.origin + offset)) := by
    simp only [Layout.moved, Nat.le_refl, if_true]
    omega
  simp [Layout.shift, Array.set!_eq_setIfInBounds, hij, hj, hmoved]

end Breadbin.Assembly

/-!
## The addresses of an image

Nothing that linking does moves the origin, and the size is checked once nothing moves any more.  An
image therefore lies in one piece between its origin and the end of memory.
-/

namespace Breadbin.Assembly

/-- What every step keeps, a sequence of steps keeps. -/
theorem foldlM_keeps {ε α β : Type} {f : β → α → Except ε β} {R : β → β → Prop} (refl : ∀ b, R b b)
    (trans : ∀ {a b c}, R a b → R b c → R a c) (step : ∀ b x b', f b x = .ok b' → R b b')
    {xs : List α} {b b' : β} (h : xs.foldlM f b = .ok b') : R b b' := by
  induction xs generalizing b with
  | nil =>
    obtain rfl := pure_eq_ok.1 h
    exact refl b
  | cons x xs ih =>
    obtain ⟨c, hc, h⟩ := bind_eq_ok.1 h
    exact trans (step b x c hc) (ih h)

namespace Layout

theorem expand_kin {l l' : Layout} {i : Nat} {f : Fixup}
    (h : l.expand i f = .ok l') : l.Kin l' := by
  obtain ⟨_, _, origin, _, offsets, _⟩ := expand_eq h
  exact ⟨origin, by simp [offsets]⟩

theorem Walk.step_kin {w w' : Walk} {i : Nat} (h : w.step i = .ok w') : w.layout.Kin w'.layout := by
  unfold Walk.step at h
  simp only at h
  split at h
  · obtain rfl := pure_eq_ok.1 h
    exact .refl _
  · obtain ⟨l, hl, h⟩ := bind_eq_ok.1 h
    obtain rfl := pure_eq_ok.1 h
    exact expand_kin hl

theorem settleBranches_kin {walks : Nat} {l l' : Layout} {queue : List Nat}
    (h : settleBranches walks l queue = .ok l') : l.Kin l' := by
  fun_induction settleBranches walks l queue with
  | case1 | case2 =>
    obtain rfl := Except.ok.inj h
    exact .refl _
  | case3 n l queue hqueue ih =>
    obtain ⟨w, hw, h⟩ := bind_eq_ok.1 h
    have hwalk : l.Kin w.layout :=
      foldlM_keeps (R := fun w w' : Walk => w.layout.Kin w'.layout) (fun _ => .refl _) .trans
        (fun _ _ _ => Walk.step_kin) hw
    split at h
    · obtain ⟨_, _, h⟩ := bind_eq_ok.1 h
      exact hwalk.trans (ih w h)
    · obtain rfl := pure_eq_ok.1 h
      exact hwalk

theorem alignMark_kin (state : Layout × Bool) (i : Nat) : state.1.Kin (alignMark state i).1 := by
  unfold alignMark
  dsimp only
  split
  · exact .refl _
  · exact ⟨rfl, by simp [shift]⟩

theorem alignAll_kin (l : Layout) : l.Kin l.alignAll.1 := by
  unfold alignAll
  generalize List.range l.marks.size = marks
  suffices ∀ state : Layout × Bool, state.1.Kin (marks.foldl alignMark state).1 from this (l, false)
  induction marks with
  | nil => exact fun state => .refl _
  | cons i marks ih => exact fun state => (alignMark_kin state i).trans (ih _)

theorem settle_kin {passes : Nat} {l l' : Layout} (h : settle passes l = .ok l') : l.Kin l' := by
  induction passes generalizing l with
  | zero => cases h
  | succ n ih =>
    obtain ⟨l₁, h₁, h⟩ := bind_eq_ok.1 h
    have hboth := (settleBranches_kin h₁).trans (alignAll_kin l₁)
    simp only at h
    split at h
    · exact hboth.trans (ih h)
    · obtain rfl := pure_eq_ok.1 h
      exact hboth

theorem patch_size {l l' : Layout} {f : Fixup} (h : l.patch f = .ok l') :
    l'.code.size = l.code.size := by
  unfold patch at h
  dsimp only at h
  split at h
  · cases h
  · split at h
    · split at h
      · obtain rfl := Except.ok.inj h
        simp
      · cases h
    all_goals
      obtain rfl := Except.ok.inj h
      simp

/-- Filling in operands succeeds only if the code ends within memory. -/
theorem patchAll_size {l l' : Layout} (h : l.patchAll = .ok l') :
    l'.code.size = l.code.size ∧ l.origin + l.code.size ≤ 0x10000 := by
  obtain ⟨_, hcheck, h⟩ := bind_eq_ok.1 h
  rw [← Array.foldlM_toList] at h
  have hsize := foldlM_keeps (f := patch) (R := fun l l' : Layout => l'.code.size = l.code.size)
    (fun _ => rfl) (fun h h' => h'.trans h) (fun _ _ _ => patch_size) h
  unfold checkSize at hcheck
  split at hcheck
  · cases hcheck
  next hfits => exact ⟨hsize, by omega⟩

end Layout

/-- An image starts where it is linked, and ends within memory. -/
theorem Stream.link_extent {s : Stream} {origin : UInt16} {image : Image}
    (h : s.link origin = .ok image) : image.origin = origin ∧ image.stop ≤ 0x10000 := by
  obtain ⟨-, -, l, l', _, hsettle, hpatch, -, rfl⟩ := Stream.link_eq h
  obtain ⟨hsize, hfits⟩ := Layout.patchAll_size hpatch
  have horigin : l.origin = origin.toNat := (Layout.settle_kin hsettle).origin
  refine ⟨rfl, ?_⟩
  rw [horigin] at hfits
  show origin.toNat + l'.code.size ≤ 0x10000
  rw [hsize]
  exact hfits

end Breadbin.Assembly
