import Mathlib
import Breadbin.Proofs.Placement.Storage

/-!
# Runs of requests for storage

An allocator is asked for bytes for a symbol, for the bytes of a symbol's type or for bytes that
belong to no symbol, in any order and with any numbers and sizes.  As long as an address and a size
add up in 64 bits, the slots cover the region from its base on, one right behind the other and in
the order of the requests, and a request that fails changes nothing that can be seen.

The sum is what the check of the bound relies on: a size so large that it overflows is granted.
-/

namespace Breadbin

namespace Allocator

/-- What an allocator can be asked for. -/
inductive Request where
  /-- bytes for a symbol -/
  | storage (id : UInt32) (name : Bytes) (size : Int)
  /-- the bytes of the type of a symbol, if there is such a symbol -/
  | symbol (id : UInt32) (symbol : Option (Bytes × Ty))
  /-- bytes that belong to no symbol -/
  | hidden (name : Bytes) (size : Int)
  deriving Repr

/-- The size of a request and the addresses of a region add up in 64 bits. -/
def Request.Fits (limit : UInt16) : Request → Prop
  | storage _ _ size | hidden _ size => size + limit.toNat < 0x8000000000000000
  | symbol .. => True

/-- The number, the name and the size of the slot that is asked for. -/
def asked? (a : Allocator) : Request → Option (UInt32 × Bytes × Int)
  | .storage id name size => some (id, name, size)
  | .symbol id symbol => symbol.map fun (name, type) => (id, name, type.size)
  | .hidden name size => some (a.hiddenId, name, size)

/-- What an allocation leaves, and the address or the reason for there being none.  The allocator
stays as it was when it fails. -/
def leave (a : Allocator) :
    Except AllocationError (Allocator × UInt16) → Allocator × Except AllocationError UInt16
  | .ok (a', address) => (a', .ok address)
  | .error cause => (a, .error cause)

/-- Serves a request. -/
def serve (a : Allocator) : Request → Allocator × Except AllocationError UInt16
  | .storage id name size => a.leave (a.allocate id name size)
  | .symbol id symbol => a.leave (a.allocateSymbol id symbol)
  | .hidden name size => a.allocateHidden name size

/-- The slot that a request is granted, if it is. -/
def granted (a : Allocator) (r : Request) : List Slot :=
  match a.asked? r, (a.serve r).2 with
  | some (id, name, size), .ok address => [⟨id, name, address, size⟩]
  | _, _ => []

/-- Serves requests in order. -/
def serveAll (a : Allocator) : List Request → Allocator
  | [] => a
  | r :: rs => (a.serve r).1.serveAll rs

/-- The slots that requests are granted, in order. -/
def grantedAll (a : Allocator) : List Request → List Slot
  | [] => []
  | r :: rs => a.granted r ++ (a.serve r).1.grantedAll rs

/-! ## Slots without a gap -/

/-- Slots that take bytes, one right behind the other, from one address up to another. -/
inductive Tiles : Int → List Slot → Int → Prop where
  | nil (low : Int) : Tiles low [] low
  | cons {low high : Int} {s : Slot} {slots : List Slot} (first : (s.address.toNat : Int) = low)
    (pos : 0 < s.size) (rest : Tiles s.stop slots high) : Tiles low (s :: slots) high

namespace Tiles

variable {low high : Int} {slots : List Slot} {s : Slot}

theorem snoc (h : Tiles low slots high) (first : (s.address.toNat : Int) = high)
    (pos : 0 < s.size) :
    Tiles low (slots ++ [s]) s.stop := by
  induction h with
  | nil => exact .cons first pos (.nil _)
  | cons first' pos' _ ih => exact .cons first' pos' (ih first)

theorem low_le (h : Tiles low slots high) : low ≤ high := by
  induction h with
  | nil => exact Int.le_refl _
  | cons first pos _ ih =>
    rw [Slot.stop] at ih
    omega

/-- Every slot lies between the two addresses. -/
theorem within (h : Tiles low slots high) :
    ∀ s ∈ slots, 0 < s.size ∧ low ≤ s.address.toNat ∧ s.stop ≤ high := by
  induction h with
  | nil => simp
  | cons first pos rest ih =>
    have hrest := rest.low_le
    rintro t (_ | ⟨_, ht⟩)
    · exact ⟨pos, by omega, hrest⟩
    · obtain ⟨hpos, hlow, hhigh⟩ := ih t ht
      rw [Slot.stop] at hlow
      exact ⟨hpos, by omega, hhigh⟩

theorem apart (h : Tiles low slots high) : slots.Pairwise fun s t => s.stop ≤ t.address.toNat := by
  induction h with
  | nil => exact .nil
  | cons _ _ rest ih => exact .cons (fun t ht => (rest.within t ht).2.1) ih

theorem sum_size (h : Tiles low slots high) : low + (slots.map Slot.size).sum = high := by
  induction h with
  | nil => simp
  | cons first _ _ ih =>
    rw [Slot.stop] at ih
    rw [List.map_cons, List.sum_cons]
    omega

end Tiles

/-! ## One request -/

/-- The slots cover the region up to the next address, and each has a number of its own. -/
structure Packed (a : Allocator) : Prop where
  tiles : Tiles a.base.toNat a.slots.toList a.next
  high : a.next ≤ a.limit.toNat
  distinct : (a.slots.toList.map Slot.symbol).Nodup

variable {a : Allocator} {r : Request}

theorem ofTarget_packed {t : Target} (h : t.variableBase ≤ t.variableLimit) :
    (ofTarget t).Packed where
  tiles := .nil _
  high := Int.ofNat_le.2 h
  distinct := .nil

theorem allocate_packed {a' : Allocator} {id : UInt32} {name : Bytes} {size : Int}
    {address : UInt16} (ha : a.Packed) (hfits : size + a.limit.toNat < 0x8000000000000000)
    (h : a.allocate id name size = .ok (a', address)) : a'.Packed := by
  obtain ⟨hpos, hnew, hlimit, hnext, htop, rfl, rfl⟩ := allocate_eq h
  have hhigh := ha.high
  rw [wrap_eq (by omega) (by omega)] at hlimit ⊢
  have haddress : ((UInt16.ofNat a.next.toNat).toNat : Int) = a.next := by
    rw [UInt16.toNat_ofNat']
    omega
  refine ⟨?_, hlimit, ?_⟩
  · have htiles := ha.tiles.snoc (s := ⟨id, name, UInt16.ofNat a.next.toNat, size⟩) haddress hpos
    rw [Slot.stop, haddress] at htiles
    rwa [Array.toList_push]
  · rw [Array.toList_push, List.map_append, List.nodup_append]
    refine ⟨ha.distinct, List.nodup_singleton _, fun i hi j hj => ?_⟩
    obtain rfl := List.mem_singleton.1 hj
    rintro rfl
    exact lookup?_eq_none_iff.1 hnew hi

/-- What a request does: it is granted a slot behind the others, or it changes at most the count of
the slots without a symbol. -/
theorem serve_cases (a : Allocator) (r : Request) :
    (∃ b a' id name size address, (b = a ∨ ∃ n, b = { a with hidden := n }) ∧
      a.asked? r = some (id, name, size) ∧ b.allocate id name size = .ok (a', address) ∧
      a.serve r = (a', .ok address)) ∨
    (∃ n cause, a.serve r = ({ a with hidden := n }, .error cause)) := by
  cases r with
  | storage id name size =>
    cases h : a.allocate id name size with
    | ok result =>
      refine .inl ⟨a, result.1, id, name, size, result.2, .inl rfl, rfl, h, ?_⟩
      simp only [serve, h, leave]
    | error cause =>
      refine .inr ⟨a.hidden, cause, ?_⟩
      simp only [serve, h, leave]
  | symbol id symbol =>
    cases symbol with
    | none => exact .inr ⟨a.hidden, .unknownSymbol id, rfl⟩
    | some described =>
      obtain ⟨name, type⟩ := described
      cases h : a.allocate id name type.size with
      | ok result =>
        refine .inl ⟨a, result.1, id, name, type.size, result.2, .inl rfl, rfl, h, ?_⟩
        simp only [serve, allocateSymbol, h, leave]
      | error cause =>
        refine .inr ⟨a.hidden, cause, ?_⟩
        simp only [serve, allocateSymbol, h, leave]
  | hidden name size =>
    cases h : allocate { a with hidden := a.hidden + 1 } a.hiddenId name size with
    | ok result =>
      refine .inl ⟨_, result.1, a.hiddenId, name, size, result.2,
        .inr ⟨a.hidden + 1, rfl⟩, rfl, h, ?_⟩
      simp only [serve, allocateHidden, h]
    | error cause =>
      refine .inr ⟨a.hidden + 1, cause, ?_⟩
      simp only [serve, allocateHidden, h]

theorem serve_slots (a : Allocator) (r : Request) :
    (a.serve r).1.slots.toList = a.slots.toList ++ a.granted r := by
  rcases serve_cases a
    r with ⟨b, a', id, name, size, address, hb, hasked, hok, hserve⟩ | ⟨n, cause, hserve⟩
  · obtain ⟨-, -, -, -, -, -, rfl⟩ := allocate_eq hok
    have hslots : b.slots = a.slots := by
      rcases hb with rfl | ⟨n, rfl⟩ <;> rfl
    simp only [granted, hasked, hserve, Array.toList_push, hslots]
  · simp [granted, hserve]

theorem serve_region (a : Allocator) (r : Request) :
    (a.serve r).1.base = a.base ∧ (a.serve r).1.limit = a.limit := by
  rcases serve_cases a
    r with ⟨b, a', id, name, size, address, hb, -, hok, hserve⟩ | ⟨n, cause, hserve⟩
  · obtain ⟨-, -, -, -, -, -, rfl⟩ := allocate_eq hok
    rcases hb with rfl | ⟨n, rfl⟩ <;> rw [hserve] <;> exact ⟨rfl, rfl⟩
  · rw [hserve]
    exact ⟨rfl, rfl⟩

theorem asked?_fits {id : UInt32} {name : Bytes} {size : Int} (hfits : r.Fits a.limit)
    (h : a.asked? r = some (id, name, size)) : size + a.limit.toNat < 0x8000000000000000 := by
  cases r with
  | storage => obtain ⟨-, -, rfl⟩ := by simpa [asked?] using h
               exact hfits
  | symbol id symbol =>
    obtain ⟨⟨_, type⟩, -, hsize⟩ := Option.map_eq_some_iff.1 h
    have htype := type.size_lt
    have hlimit := a.limit.toNat_lt
    simp only [Prod.mk.injEq] at hsize
    omega
  | hidden => obtain ⟨-, -, rfl⟩ := by simpa [asked?] using h
              exact hfits

theorem serve_packed (ha : a.Packed) (hfits : r.Fits a.limit) : (a.serve r).1.Packed := by
  rcases serve_cases a
    r with ⟨b, a', id, name, size, address, hb, hasked, hok, hserve⟩ | ⟨n, cause, hserve⟩
  · have hsum := asked?_fits hfits hasked
    rw [hserve]
    rcases hb with rfl | ⟨n, rfl⟩
    · exact allocate_packed ha hsum hok
    · exact allocate_packed (a := { a with hidden := n }) ⟨ha.tiles, ha.high, ha.distinct⟩ hsum hok
  · rw [hserve]
    exact ⟨ha.tiles, ha.high, ha.distinct⟩

/-- What can be seen of an allocator is what it was. -/
structure Same (a a' : Allocator) : Prop where
  slots : a'.slots = a.slots
  used : a'.used = a.used
  lookup? : ∀ id, a'.lookup? id = a.lookup? id

theorem serve_error {cause : AllocationError} (h : (a.serve r).2 = .error cause) :
    a.Same (a.serve r).1 := by
  rcases serve_cases a r with ⟨b, a', id, name, size, address, -, -, -, hserve⟩ | ⟨n, cause, hserve⟩
  · rw [hserve] at h
    cases h
  · rw [hserve]
    exact ⟨rfl, rfl, fun _ => rfl⟩

/-! ## All requests of a run -/

theorem serveAll_slots (a : Allocator) (rs : List Request) :
    (a.serveAll rs).slots.toList = a.slots.toList ++ a.grantedAll rs := by
  induction rs generalizing a with
  | nil => simp [serveAll, grantedAll]
  | cons r rs ih => rw [serveAll, ih, serve_slots, grantedAll, List.append_assoc]

theorem serveAll_region (a : Allocator) (rs : List Request) :
    (a.serveAll rs).base = a.base ∧ (a.serveAll rs).limit = a.limit := by
  induction rs generalizing a with
  | nil => exact ⟨rfl, rfl⟩
  | cons r rs ih =>
    obtain ⟨hbase, hlimit⟩ := serve_region a r
    rw [serveAll, (ih _).1, (ih _).2]
    exact ⟨hbase, hlimit⟩

theorem serveAll_packed {rs : List Request} (ha : a.Packed) (hfits : ∀ r ∈ rs, r.Fits a.limit) :
    (a.serveAll rs).Packed := by
  induction rs generalizing a with
  | nil => exact ha
  | cons r rs ih =>
    refine ih (serve_packed ha (hfits r List.mem_cons_self)) fun r' hr' => ?_
    rw [(serve_region a r).2]
    exact hfits r' (List.mem_cons_of_mem r hr')

theorem Packed.used_eq (h : a.Packed) : a.used = a.next - a.base.toNat := by
  have hlow := h.tiles.low_le
  have hhigh := h.high
  have hlimit : a.limit.toNat < 65536 := a.limit.toNat_lt
  exact wrap_eq (by omega) (by omega)

theorem Packed.lookup?_of_mem (h : a.Packed) {s : Slot} (hs : s ∈ a.slots.toList) :
    a.lookup? s.symbol = some s.address := by
  obtain ⟨t, ht⟩ : ∃ t, a.slots.find? (fun t => t.symbol == s.symbol) = some t := by
    have hsome := lookup?_isSome_iff.2 (List.mem_map_of_mem hs)
    rw [Allocator.lookup?, Option.isSome_map] at hsome
    exact Option.isSome_iff_exists.1 hsome
  have hmem := Array.mem_toList_iff.2 (Array.mem_of_find?_eq_some ht)
  have hsymbol : t.symbol = s.symbol := by simpa using Array.find?_some ht
  have heq : t = s := List.inj_on_of_nodup_map h.distinct hmem hs hsymbol
  rw [Allocator.lookup?, ht, heq]
  rfl

/-- After every run of requests whose sizes add up with an address in 64 bits, the slots are those
granted, in order; they lie one right behind the other from the base on and within the region; the
number of bytes in use is the sum of their sizes; exactly their numbers have an address, each the
one of its slot; and a request that fails then changes nothing of that. -/
theorem serveAll_tiles {t : Target} (hregion : t.variableBase < t.variableLimit) {rs : List Request}
    (hfits : ∀ r ∈ rs, r.Fits t.variableLimit) {a : Allocator} (ha : a = (ofTarget t).serveAll rs) :
    a.slots.toList = (ofTarget t).grantedAll rs ∧
    Tiles t.variableBase.toNat a.slots.toList (t.variableBase.toNat + a.used) ∧
    (∀ s ∈ a.slots.toList, 0 < s.size ∧ t.variableBase.toNat ≤ s.address.toNat ∧
      s.stop ≤ t.variableLimit.toNat) ∧
    (a.slots.toList.Pairwise fun s s' => s.stop ≤ s'.address.toNat) ∧
    a.used = (a.slots.toList.map Slot.size).sum ∧
    (∀ id, (a.lookup? id).isSome = true ↔ ∃ s ∈ a.slots.toList, s.symbol = id) ∧
    (∀ s ∈ a.slots.toList, a.lookup? s.symbol = some s.address) ∧
    ∀ r cause, (a.serve r).2 = .error cause → a.Same (a.serve r).1 := by
  subst ha
  have hpacked := serveAll_packed (ofTarget_packed (UInt16.le_of_lt hregion)) hfits
  have hslots := serveAll_slots (ofTarget t) rs
  obtain ⟨hbase, hlimit⟩ := serveAll_region (ofTarget t) rs
  generalize hgrown : (ofTarget t).serveAll rs = a at *
  have htiles := hpacked.tiles
  have hhigh := hpacked.high
  have hused := hpacked.used_eq
  rw [hbase] at htiles hused
  rw [hlimit] at hhigh
  have hnext : a.next = t.variableBase.toNat + a.used := by
    change a.used = a.next - t.variableBase.toNat at hused
    omega
  have hsum := htiles.sum_size
  refine ⟨by simpa [ofTarget] using hslots, hnext ▸ htiles, fun s hs =>
    ?_, htiles.apart, ?_, fun id => ?_,
    fun s hs => hpacked.lookup?_of_mem hs, fun r cause h => serve_error h⟩
  · obtain ⟨hpos, hlow, hstop⟩ := htiles.within s hs
    exact ⟨hpos, Int.ofNat_le.1 hlow, Int.le_trans hstop hhigh⟩
  · change (t.variableBase.toNat : Int) + _ = _ at hsum
    omega
  · rw [lookup?_isSome_iff, List.mem_map]

/-- Two bytes for a symbol, one without a symbol, the symbol again, and a word for another. -/
def mixedRequests : List Request :=
  [.storage 1 [0x61] 2, .hidden [0x68] 1, .storage 1 [0x62] 1,
    .symbol 2 (some ([0x63], Ty.scalar .u16))]

/-- Three of them are granted, one behind the other, and the one that is refused leaves no trace. -/
theorem mixedRequests_tile :
    (∀ r ∈ mixedRequests, r.Fits Target.c64.variableLimit) ∧
      Tiles 0xC000 ((ofTarget .c64).grantedAll mixedRequests) 0xC005 ∧
      ((ofTarget .c64).serveAll mixedRequests).lookup? 1 = some 0xC000 := by
  have hfits : ∀ r ∈ mixedRequests, r.Fits Target.c64.variableLimit := by
    simp [mixedRequests, Request.Fits]
    decide
  obtain ⟨hslots, htiles, -, -, -, -, hlookup, -⟩ :=
    serveAll_tiles (t := .c64) (by decide) hfits rfl
  have hused : ((ofTarget .c64).serveAll mixedRequests).used = 5 := by decide +kernel
  rw [hused, hslots] at htiles
  refine ⟨hfits, htiles, ?_⟩
  exact hlookup ⟨1, [0x61], 0xC000, 2⟩ (by rw [hslots]; decide +kernel)

/-- A size that overflows is granted as well. -/
example : ((ofTarget .c64).serve (.storage 1 [0x61] 0x7FFFFFFFFFFFFFFF)).1.lookup? 1 =
    some 0xC000 := by decide +kernel

end Allocator

end Breadbin
