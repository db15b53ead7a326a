import Breadbin.Placement.Allocator
import Mathlib.Data.List.Nodup
import Mathlib.Data.List.Perm.Subperm
import Breadbin.Proofs.Program.WellFormed

/-!
# Addresses of all symbols

The slots of an allocator lie one behind the other between its base and its limit.  Types take so
few bytes that the 64 bits in which addresses are counted never overflow.

Every slot takes a byte of the region at least, so that there are less than 65536 slots.  The
symbols of a program that all have one are numbered from one on without a gap, and the slots without
a symbol are numbered down from the largest number: the two never meet, and reserving bytes fails
only for want of room.
-/

namespace Breadbin

/-- A scalar takes at most two bytes and an array has less than 65536 elements. -/
theorem Ty.size_lt (t : Ty) : t.size < 131072 := by
  have hkind : t.kind.size ≤ 2 := by
    cases t.kind <;> simp [Kind.size]
  have hlength := t.length.toNat_lt
  unfold Ty.size
  split
  · have := Nat.mul_le_mul (Nat.le_of_lt_succ hlength) hkind
    omega
  · omega

/-- The address behind a slot. -/
def Slot.stop (s : Slot) : Int := s.address.toNat + s.size

namespace Allocator

/-- The slots lie in order between the base and the next address. -/
structure Sound (a : Allocator) : Prop where
  low : (a.base.toNat : Int) ≤ a.next
  high : a.next ≤ a.limit.toNat
  within : ∀ s ∈ a.slots.toList, a.base ≤ s.address ∧ 0 < s.size ∧ s.stop ≤ a.next
  apart : a.slots.toList.Pairwise fun s t => s.stop ≤ t.address.toNat

/-- Later allocations leave earlier ones alone. -/
structure Grows (a a' : Allocator) : Prop where
  base : a'.base = a.base
  limit : a'.limit = a.limit
  slots : a.slots.toList <+: a'.slots.toList
  sound : a.Sound → a'.Sound

theorem Grows.refl (a : Allocator) : a.Grows a := ⟨rfl, rfl, List.prefix_refl _, id⟩

theorem Grows.trans {a b c : Allocator} (h : a.Grows b) (h' : b.Grows c) : a.Grows c :=
  ⟨h'.base.trans h.base, h'.limit.trans h.limit, h.slots.trans h'.slots, fun ha =>
    h'.sound (h.sound ha)⟩

theorem Grows.hidden (a : Allocator) (n : UInt32) : a.Grows { a with hidden := n } :=
  ⟨rfl, rfl, List.prefix_refl _, fun h => ⟨h.low, h.high, h.within, h.apart⟩⟩

theorem ofTarget_sound {t : Target} (h : t.variableBase ≤ t.variableLimit) :
    (ofTarget t).Sound where
  low := Int.le_refl _
  high := Int.ofNat_le.2 h
  within := by simp [ofTarget]
  apart := by simp [ofTarget]

/-- What fits into 64 bits with a sign is what it is. -/
theorem wrap_eq {i : Int} (low : 0 ≤ i) (high : i < 0x8000000000000000) : wrap i = i := by
  rw [wrap, Int.bmod_def, Int.emod_eq_of_lt low (by omega)]
  rw [if_pos (by omega)]

variable {a a' : Allocator} {id : UInt32} {name : Bytes} {size : Int} {address : UInt16}

/-- The slot of a successful allocation begins at the next address. -/
theorem allocate_eq (h : a.allocate id name size = .ok (a', address)) :
    0 < size ∧ a.lookup? id = none ∧ wrap (a.next + size) ≤ a.limit.toNat ∧ 0 ≤ a.next ∧
      a.next ≤ 0xFFFF ∧ address = UInt16.ofNat a.next.toNat ∧
      a' = { a with slots :=
        a.slots.push ⟨id, name, address, size⟩, next := wrap (a.next + size) } := by
  unfold allocate at h
  split at h
  · cases h
  next hnew =>
    split at h
    · cases h
    next hsize =>
      simp only at h
      split at h
      · cases h
      next hfits =>
        split at h
        · cases h
        next hrange =>
          obtain ⟨rfl, rfl⟩ := Prod.mk.inj (Except.ok.inj h)
          refine ⟨by omega, by simpa using hnew, by omega, by omega, by omega, rfl, rfl⟩

theorem allocate_grows (hsize : size < 131072) (h : a.allocate id name size = .ok (a', address)) :
    a.Grows a' := by
  obtain ⟨hpos, -, hlimit, hnext, htop, rfl, rfl⟩ := allocate_eq h
  rw [wrap_eq (by omega) (by omega)] at hlimit ⊢
  refine ⟨rfl, rfl, by simp, fun ha => ?_⟩
  have haddress : (UInt16.ofNat a.next.toNat).toNat = a.next.toNat := by
    rw [UInt16.toNat_ofNat']
    omega
  have hlow := ha.low
  refine ⟨Int.le_trans hlow (by simp only; omega), hlimit, fun s hs => ?_, ?_⟩
  · rw [Array.toList_push] at hs
    rcases List.mem_append.1 hs with hs | hs
    · obtain ⟨hbase, hpos', hle⟩ := ha.within s hs
      exact ⟨hbase, hpos', by simp only; omega⟩
    · obtain rfl := List.mem_singleton.1 hs
      refine ⟨?_, hpos, ?_⟩
      · show a.base ≤ _
        rw [UInt16.le_iff_toNat_le, haddress]
        omega
      · simp only [Slot.stop, haddress]
        omega
  · rw [Array.toList_push]
    refine List.pairwise_append.2 ⟨ha.apart, by simp, fun s hs t ht => ?_⟩
    obtain rfl := List.mem_singleton.1 ht
    obtain ⟨-, -, hle⟩ := ha.within s hs
    simp only [haddress]
    omega

theorem allocateSymbol_grows {symbol : Option (Bytes × Ty)}
    (h : a.allocateSymbol id symbol = .ok (a', address)) : a.Grows a' := by
  unfold allocateSymbol at h
  split at h
  · cases h
  next name type => exact allocate_grows (Int.ofNat_lt.2 type.size_lt) h

theorem allocateHidden_grows (a : Allocator) (name : Bytes) (t : Ty) :
    a.Grows (a.allocateHidden name t.size).1 := by
  have hcounted := Grows.hidden a (a.hidden + 1)
  unfold allocateHidden
  simp only
  split
  next a' address h => exact hcounted.trans (allocate_grows (Int.ofNat_lt.2 t.size_lt) h)
  next => exact hcounted

end Allocator

end Breadbin

/-! ## Addresses of all symbols -/

namespace Breadbin

/-- The region is exhausted. -/
def AllocationError.isShortage : AllocationError → Bool
  | outOfSpace .. | outOfRange => true
  | _ => false

namespace Allocator

variable {a a' : Allocator} {id : UInt32} {name : Bytes} {size : Int} {address : UInt16}

/-! ## How many slots there are -/

theorem length_le_of_apart {slots : List Slot} {low high : Int} (hle : low ≤ high)
    (within : ∀ s ∈ slots, low ≤ s.address.toNat ∧ 0 < s.size ∧ s.stop ≤ high)
    (apart : slots.Pairwise fun s t => s.stop ≤ t.address.toNat) : low + slots.length ≤ high := by
  induction slots generalizing low with
  | nil => simpa using hle
  | cons s slots ih =>
    obtain ⟨hlow, hpos, hstop⟩ := within s List.mem_cons_self
    obtain ⟨hbehind, hrest⟩ := List.pairwise_cons.1 apart
    have := ih hstop (fun t ht => ⟨hbehind t ht, (within t (List.mem_cons_of_mem s ht)).2⟩) hrest
    simp only [Slot.stop, List.length_cons] at this ⊢
    omega

theorem Sound.size_slots_lt (h : a.Sound) : a.slots.size < 65536 := by
  have hlength := length_le_of_apart h.low
    (fun s hs => ⟨Int.ofNat_le.2 (h.within s hs).1, (h.within s hs).2⟩) h.apart
  have hhigh := h.high
  have hlimit : a.limit.toNat < 65536 := a.limit.toNat_lt
  rw [Array.length_toList] at hlength
  omega

/-! ## What an allocation can fail for -/

theorem isShortage_of_allocate {cause : AllocationError} (hnew : a.lookup? id = none)
    (hsize : 0 < size) (h : a.allocate id name size = .error cause) : cause.isShortage = true := by
  unfold allocate at h
  simp only [hnew, Option.isSome_none, Bool.false_eq_true, if_false, Int.not_le.2 hsize] at h
  split at h
  · obtain rfl := Except.error.inj h
    rfl
  · split at h
    · obtain rfl := Except.error.inj h
      rfl
    · cases h

theorem lookup?_isSome_iff :
    (a.lookup? id).isSome = true ↔ id ∈ a.slots.toList.map Slot.symbol := by
  simp [lookup?, Array.find?_isSome]

theorem lookup?_eq_none_iff : a.lookup? id = none ↔ id ∉ a.slots.toList.map Slot.symbol := by
  rw [← lookup?_isSome_iff]
  simp

/-! ## The symbols of a program -/

/-- Every symbol of a program has an address; a slot is that of a symbol or one without. -/
structure Houses (a : Allocator) (p : Program) : Prop where
  sound : a.Sound
  declared : ∀ id, (p.symbol? id).isSome = true → (a.lookup? id).isSome = true
  hidden : a.hidden.toNat ≤ a.slots.size
  apart : ∀ id ∈ a.slots.toList.map Slot.symbol,
    id.toNat < 65536 ∨ 4294967296 ≤ id.toNat + a.hidden.toNat

variable {p : Program}

/-- There are at least as many symbols as the number of one says. -/
theorem toNat_le_of_declared (h : p.WellFormed) (hid : id ∈ p.declared) :
    id.toNat ≤ p.declared.length := by
  have hlt : id.toNat < 4294967296 := id.toNat_lt
  have hsome := (h.declared id).1 hid
  have hlength : id.toNat ≤ p.symbols.items.length := by
    unfold Program.symbol? Program.numbered? at hsome
    split at hsome
    · cases hsome
    · have := (List.getElem?_eq_some_iff.1 (Option.eq_some_of_isSome hsome)).1
      omega
  have hids : (List.range id.toNat).map (fun i => UInt32.ofNat (i + 1)) ⊆ p.declared := by
    intro id' hid'
    obtain ⟨i, hi, rfl⟩ := List.mem_map.1 hid'
    rw [List.mem_range] at hi
    have hnumber : (UInt32.ofNat (i + 1)).toNat = i + 1 := by
      rw [UInt32.toNat_ofNat']
      omega
    refine (h.declared _).2 ?_
    unfold Program.symbol? Program.numbered?
    rw [if_neg (fun hzero => by simp [hzero] at hnumber), hnumber]
    simp
    omega
  have hnodup : ((List.range id.toNat).map fun i => UInt32.ofNat (i + 1)).Nodup := by
    refine List.Nodup.map_on (fun i hi j hj hij => ?_) List.nodup_range
    rw [List.mem_range] at hi hj
    have := congrArg UInt32.toNat hij
    rw [UInt32.toNat_ofNat', UInt32.toNat_ofNat'] at this
    omega
  simpa using (List.subperm_of_subset hnodup hids).length_le

/-- Once each declared symbol has its slot, all symbols have an address. -/
theorem Houses.of_declared (h : p.WellFormed) (ha : a.Sound) (hidden : a.hidden = 0)
    (hslots : a.slots.toList.map Slot.symbol = p.declared) : a.Houses p where
  sound := ha
  declared id hid := by rwa [lookup?_isSome_iff, hslots, h.declared]
  hidden := by simp [hidden]
  apart id hid := by
    rw [hslots] at hid
    have hle := toNat_le_of_declared h hid
    have hlength := congrArg List.length hslots
    have := ha.size_slots_lt
    simp only [List.length_map, Array.length_toList] at hlength
    exact .inl (by omega)

theorem hiddenId_toNat (h : a.hidden.toNat < 65536) :
    a.hiddenId.toNat + a.hidden.toNat + 1 = 4294967296 := by
  simp only [hiddenId, UInt32.toNat_sub, UInt32.toNat_add, UInt32.toNat_ofNat]
  omega

/-- The number of the next slot without a symbol is free. -/
theorem Houses.hiddenId_free (h : a.Houses p) : a.lookup? a.hiddenId = none := by
  rw [lookup?_eq_none_iff]
  intro hmem
  have hsize := h.sound.size_slots_lt
  have hhidden := h.hidden
  have hid := hiddenId_toNat (a := a) (by omega)
  rcases h.apart _ hmem with hlow | hhigh <;> omega

/-- Reserving bytes without a symbol fails only for want of room. -/
theorem Houses.allocateHidden (h : a.Houses p) (name : Bytes) {t : Ty} (ht : 0 < t.size) :
    match a.allocateHidden name t.size with
    | (a', .ok _) => a'.Houses p
    | (_, .error cause) => cause.isShortage = true := by
  have hsound := (a.allocateHidden_grows name t).sound h.sound
  have hfree : lookup? { a with hidden := a.hidden + 1 } a.hiddenId = none := h.hiddenId_free
  have hsize := h.sound.size_slots_lt
  have hhidden := h.hidden
  have hid := hiddenId_toNat (a := a) (by omega)
  have hnext : (a.hidden + 1).toNat = a.hidden.toNat + 1 := by
    rw [UInt32.toNat_add]
    simp
    omega
  unfold Allocator.allocateHidden at hsound ⊢
  simp only at hsound ⊢
  split
  next a' address hresult =>
    rw [hresult] at hsound
    split at hresult
    next hallocate =>
      obtain ⟨rfl, -⟩ := Prod.mk.inj hresult
      obtain ⟨-, -, -, -, -, -, rfl⟩ := allocate_eq hallocate
      refine ⟨hsound, fun id hdeclared => ?_, ?_, fun id hmem => ?_⟩
      · have := lookup?_isSome_iff.1 (h.declared id hdeclared)
        rw [lookup?_isSome_iff]
        simp only [Array.toList_push, List.map_append, List.mem_append]
        exact .inl this
      · simp only [hnext, Array.size_push]
        omega
      · simp only [hnext]
        simp only [Array.toList_push, List.map_append, List.map_cons, List.map_nil, List.mem_append,
          List.mem_singleton] at hmem
        rcases hmem with hmem | rfl
        · rcases h.apart id hmem with hlow | hhigh <;> omega
        · omega
    next => cases hresult
  next a' cause hresult =>
    split at hresult
    next => cases hresult
    next hallocate =>
      obtain ⟨-, hcause⟩ := Prod.mk.inj hresult
      obtain rfl := Except.error.inj hcause
      exact isShortage_of_allocate hfree (Int.ofNat_lt.2 ht) hallocate

end Allocator

end Breadbin
