import Breadbin.Proofs.Machine.Storing

/-!
# Strings in memory

Bytes are put into memory one behind the other, from the front or from the back, and what was there
besides stays.  A string is a row of bytes with a zero behind it.  Code that goes through a string
finds the bytes that were there at its start, as long as it has not stored into them; so of a string
it is said which slots it keeps clear of, and it never lies on the stack page.
-/

namespace Breadbin.Machine

open Assembly

/-! ## Bytes in a row -/

namespace Contents

/-- Bytes are put at an address and behind it. -/
def place (m : Contents) (first : Nat) (bytes : List UInt8) : Contents := fun address =>
  if first ≤ address.toNat then bytes.getD (address.toNat - first) (m address) else m address

variable (m : Contents) {first : Nat} {bytes : List UInt8} {address : UInt16}

theorem place_nil : m.place first [] = m := by
  funext address
  simp [place]

/-- The memory around the bytes is as it was. -/
theorem place_outside (h : address.toNat < first ∨ first + bytes.length ≤ address.toNat) :
    m.place first bytes address = m address := by
  rw [place]
  split
  · rw [List.getD_eq_default _ _ (by omega)]
  · rfl

theorem place_inside {i : Nat} (haddress : address.toNat = first + i)
    (hi : i < bytes.length) (d : UInt8) :
    m.place first bytes address = bytes.getD i d := by
  rw [place, if_pos (by omega), haddress, Nat.add_sub_cancel_left, List.getD_eq_getElem _ _ hi,
    List.getD_eq_getElem _ _ hi]

/-- A byte is put in front of others. -/
theorem update_place_front (h : address.toNat = first) (n : UInt8) :
    Function.update (m.place (first + 1) bytes) address n = m.place first (n :: bytes) := by
  funext other
  rw [Function.update_apply]
  split
  next heq =>
    subst heq
    exact (m.place_inside h (show 0 < (n :: bytes).length from Nat.succ_pos _) 0).symm
  next hne =>
    have hnat : other.toNat ≠ first := fun heq => hne (UInt16.toNat_inj.1 (heq.trans h.symm))
    simp only [place]
    by_cases hlow : first ≤ other.toNat
    · rw [if_pos (show first + 1 ≤ other.toNat by omega), if_pos hlow,
        show other.toNat - first = other.toNat - (first + 1) + 1 by omega, List.getD_cons_succ]
    · rw [if_neg (by omega), if_neg hlow]

/-- A byte is put behind others. -/
theorem update_place_behind (h : address.toNat = first + bytes.length) (n : UInt8) :
    Function.update (m.place first bytes) address n = m.place first (bytes ++ [n]) := by
  funext other
  rw [Function.update_apply]
  split
  next heq =>
    subst heq
    rw [m.place_inside h (show bytes.length < (bytes ++ [n]).length by simp) 0,
      List.getD_append_right _ _ _ _ (Nat.le_refl _)]
    simp
  next hne =>
    have hnat : other.toNat ≠ first + bytes.length :=
      fun heq => hne (UInt16.toNat_inj.1 (heq.trans h.symm))
    by_cases hlow : other.toNat < first
    · rw [m.place_outside (.inl hlow), m.place_outside (.inl hlow)]
    by_cases hhigh : other.toNat < first + bytes.length
    · have hother : other.toNat = first + (other.toNat - first) := by omega
      rw [m.place_inside hother (by omega) 0, m.place_inside hother (by simp; omega) 0,
        List.getD_append _ _ _ _ (by omega)]
    · rw [m.place_outside (.inr (by omega)), m.place_outside (.inr (by simp; omega))]

/-- Bytes are put right in front of others. -/
theorem place_place (front : List UInt8) :
    (m.place (first + front.length) bytes).place first front = m.place first (front ++ bytes) := by
  funext other
  by_cases hlow : other.toNat < first
  · rw [place_outside _ (.inl hlow), place_outside _ (.inl (by omega)), place_outside _ (.inl hlow)]
  have hother : other.toNat = first + (other.toNat - first) := by omega
  by_cases hfront : other.toNat < first + front.length
  · rw [place_inside _ hother (by omega) 0, place_inside _ hother (by simp; omega) 0,
      List.getD_append _ _ _ _ (by omega)]
  rw [place_outside _ (.inr (by omega))]
  by_cases hhigh : other.toNat < first + front.length + bytes.length
  · rw [place_inside _ (i := other.toNat - first - front.length) (by omega) (by omega) 0,
      place_inside _ hother (by simp; omega) 0, List.getD_append_right _ _ _ _ (by omega)]
  · rw [place_outside _ (.inr (by omega)), place_outside _ (.inr (by simp; omega))]

/-- Bytes are put right behind others. -/
theorem place_behind (front : List UInt8) :
    (m.place first front).place (first + front.length) bytes = m.place first (front ++ bytes) := by
  funext other
  by_cases hlow : other.toNat < first
  · rw [place_outside _ (.inl (by omega)), place_outside _ (.inl hlow), place_outside _ (.inl hlow)]
  have hother : other.toNat = first + (other.toNat - first) := by omega
  by_cases hfront : other.toNat < first + front.length
  · rw [place_outside _ (.inl hfront), place_inside _ hother (by omega) 0,
      place_inside _ hother (by simp; omega) 0, List.getD_append _ _ _ _ (by omega)]
  by_cases hhigh : other.toNat < first + front.length + bytes.length
  · rw [place_inside _ (i := other.toNat - first - front.length) (by omega) (by omega) 0,
      place_inside _ hother (by simp; omega) 0, List.getD_append_right _ _ _ _ (by omega)]
  · rw [place_outside _ (.inr (by omega)), place_outside _ (.inr (by omega)),
      place_outside _ (.inr (by simp; omega))]

end Contents

/-! ## Strings -/

/-- A string ends at the first zero. -/
theorem getD_eq_zero_iff {s : List UInt8} (h : 0 ∉ s) {i : Nat} :
    s.getD i 0 = 0 ↔ s.length ≤ i := by
  constructor
  · intro hzero
    by_contra hlt
    rw [List.getD_eq_getElem _ _ (by omega)] at hzero
    exact h (hzero ▸ List.getElem_mem _)
  · exact fun hle => List.getD_eq_default _ _ hle

/-- The address in two slots. -/
def View.pointer (v : View) (z : UInt8) : UInt16 := Cpu.wordOf (v.zp z) (v.zp (z + 1))

theorem View.toNat_pointer (v : View) (z : UInt8) : (v.pointer z).toNat = v.word z :=
  LinkedCode.toNat_wordOf _ _

/-- A byte lies at an address that is none of some slots and not on the stack page. -/
def View.Holds (v : View) (zs : List UInt8) (address : UInt16) (n : UInt8) : Prop :=
  (∃ z, z ∉ zs ∧ address = z.toUInt16 ∧ v.zp z = n) ∨ mainBase ≤ address.toNat ∧ v.main address = n

/-- A string of at most 255 characters and the zero behind it, clear of some slots and of the stack
page. -/
def View.Spells (v : View) (zs : List UInt8) (p : UInt16) (s : List UInt8) : Prop :=
  s.length ≤ 255 ∧ 0 ∉ s ∧ ∀ i ≤ s.length, v.Holds zs (p + UInt16.ofNat i) (s.getD i 0)

namespace View

variable {u v : View} {zs : List UInt8} {p address : UInt16} {s : List UInt8} {n : UInt8}

/-- Such a byte is found as long as nothing has been stored over it. -/
theorem Holds.peek (h : u.Holds zs address n) (hzp : ∀ z, z ∉ zs → v.zp z = u.zp z)
    (hmain : mainBase ≤ address.toNat → v.main address = u.main address) : v.peek address = n := by
  rcases h with ⟨z, hz, rfl, hn⟩ | ⟨hbase, hn⟩
  · have hlt := z.toNat_lt
    rw [View.peek, if_pos (by simpa using hlt), ← hn, ← hzp z hz]
    simp
  · rw [View.peek_main _ hbase, hmain hbase, hn]

theorem Holds.mono {zs' : List UInt8} (h : u.Holds zs address n) (hsub : zs' ⊆ zs) :
    u.Holds zs' address n :=
  h.imp_left fun ⟨z, hz, hrest⟩ => ⟨z, fun hmem => hz (hsub hmem), hrest⟩

theorem Spells.mono {zs' : List UInt8} (h : u.Spells zs p s) (hsub : zs' ⊆ zs) : u.Spells zs' p s :=
  ⟨h.1, h.2.1, fun i hi => (h.2.2 i hi).mono hsub⟩

/-- Where nothing has been stored, the string is still there. -/
theorem Spells.congr (h : u.Spells zs p s) (hzp : ∀ z, z ∉ zs → v.zp z = u.zp z)
    (hmain : v.main = u.main) :
    v.Spells zs p s := by
  refine ⟨h.1, h.2.1, fun i hi => (h.2.2 i hi).imp ?_ ?_⟩
  · rintro ⟨z, hz, haddress, hn⟩
    exact ⟨z, hz, haddress, (hzp z hz).trans hn⟩
  · rintro ⟨hbase, hn⟩
    exact ⟨hbase, by rw [hmain, hn]⟩

/-- The characters of a string are found by an index. -/
theorem Spells.peek (h : u.Spells zs p s) {y : UInt8} (hy : y.toNat ≤ s.length)
    (hzp : ∀ z, z ∉ zs → v.zp z = u.zp z)
    (hmain : mainBase ≤ (p + y.toUInt16).toNat →
      v.main (p + y.toUInt16) = u.main (p + y.toUInt16)) :
    v.peek (p + y.toUInt16) = s.getD y.toNat 0 := by
  have hindex : UInt16.ofNat y.toNat = y.toUInt16 := by simp
  have hholds := h.2.2 y.toNat hy
  rw [hindex] at hholds
  exact hholds.peek hzp hmain

/-! ## Operands without labels -/

/-- The address that an operand lies at. -/
def address? (v : View) : Arg → Option UInt16
  | .absolute r => if r.isLabel then none else some r.address
  | .absoluteY r => if r.isLabel then none else some (r.address + v.y.toUInt16)
  | .indirectY z => some (v.pointer z + v.y.toUInt16)
  | _ => none

/-- The value of an operand that is read. -/
def value? (v : View) : Arg → Option UInt8
  | .immediate n => some n
  | arg => (v.address? arg).map v.peek

theorem code_address? (code : LinkedCode) {arg : Arg} (h : v.address? arg = some address) :
    code.address? v arg = some address := by
  cases arg <;> simp only [address?, Option.ite_none_left_eq_some, reduceCtorEq,
    Option.some.injEq] at h
  case absolute r | absoluteY r =>
    obtain ⟨hlabel, rfl⟩ := h
    simp [LinkedCode.address?, Addresses.of, hlabel]
  case indirectY z =>
    subst h
    rfl

theorem code_value? (code : LinkedCode) {arg : Arg} (h : v.value? arg = some n) :
    code.value? v arg = some n := by
  have hmemory (hmem : (v.address? arg).map v.peek = some n) :
      (code.address? v arg).map v.peek = some n := by
    obtain ⟨address, haddress, rfl⟩ := Option.map_eq_some_iff.1 hmem
    rw [code_address? code haddress]
    rfl
  cases arg <;> first | exact h | exact hmemory h | cases h

end View

/-- The bytes of the code are read where they lie. -/
theorem LinkedCode.Intact.peek {code : LinkedCode} {v : View} (h : code.Intact v) {a i : Nat}
    {bytes : List UInt8} {n : UInt8}
    (hbytes : code.Contains a bytes) (hn : bytes[i]? = some n) :
    v.peek (UInt16.ofNat (a + i)) = n := by
  have hlt : i < bytes.length := (List.getElem?_eq_some_iff.1 hn).1
  have habove := code.above
  obtain ⟨hfrom, hbelow, -⟩ := hbytes.bounds
  have haddress : (UInt16.ofNat (a + i)).toNat = a + i := by
    rw [UInt16.toNat_ofNat']
    omega
  rw [View.peek_main _ (by omega)]
  obtain ⟨pre, post, hcode, rfl⟩ := hbytes
  rw [Nat.add_assoc]
  refine h.bytes _ n ?_
  rw [hcode, List.append_assoc, List.getElem?_append_right (by omega), Nat.add_sub_cancel_left,
    List.getElem?_append_left hlt, hn]

end Breadbin.Machine
