import Breadbin.Text.Petscii
import Breadbin.Proofs.Machine.Byte
import Mathlib.Data.List.Basic

/-!
# Codes that are read back

A text of ASCII characters is stored one byte for each, and folding leaves it as it is.  So the text
of a string of codes, which is ASCII, is encoded as these codes again.
-/

namespace Breadbin.Text

/-! ## ASCII text -/

theorem toList_eq_data (b : ByteArray) : b.toList = b.data.toList := by
  have hloop : ∀ n i r, b.size - i = n →
      ByteArray.toList.loop b i r = r.reverse ++ b.data.toList.drop i := by
    intro n
    induction n with
    | zero =>
      intro i r hn
      have hle : b.data.toList.length ≤ i := by
        rw [Array.length_toList]
        exact Nat.le_of_sub_eq_zero hn
      rw [ByteArray.toList.loop, if_neg (by omega), List.drop_eq_nil_of_le hle, List.append_nil]
    | succ n ih =>
      intro i r hn
      have hlt : i < b.size := by omega
      have hlt' : i < b.data.toList.length := by simpa using hlt
      rw [ByteArray.toList.loop, if_pos hlt, ih _ _ (by omega), List.reverse_cons,
        List.append_assoc, List.singleton_append, List.drop_eq_getElem_cons hlt']
      congr 2
      simp [ByteArray.get!, hlt]
  exact hloop _ 0 [] rfl

theorem bytesOf_ofList (cs : List Char) :
    bytesOf (String.ofList cs) = cs.flatMap String.utf8EncodeChar := by
  rw [bytesOf, String.toUTF8_eq_toByteArray, String.toByteArray_ofList,
    toList_eq_data, List.utf8Encode, List.toList_data_toByteArray]

theorem length_bytesOf (s : String) : (bytesOf s).length = s.utf8ByteSize := by
  rw [bytesOf, String.toUTF8_eq_toByteArray, toList_eq_data, Array.length_toList]
  rfl

theorem bytesOf_inj {s t : String} (h : bytesOf s = bytesOf t) : s = t := by
  rw [bytesOf, bytesOf, String.toUTF8_eq_toByteArray, String.toUTF8_eq_toByteArray, toList_eq_data,
    toList_eq_data] at h
  exact String.toByteArray_inj.1 (ByteArray.ext (Array.toList_inj.1 h))

theorem bytesOf_ne_nil {s : String} (h : s ≠ "") : bytesOf s ≠ [] :=
  fun hs => h (bytesOf_inj (hs.trans (bytesOf_ofList []).symm))

theorem utf8EncodeChar_ascii {c : Char} (h : IsAscii c) :
    String.utf8EncodeChar c = [.ofNat c.toNat] := by
  have hle : c.val.toNat ≤ 127 := Nat.le_of_lt_succ h
  unfold String.utf8EncodeChar
  simp only
  rw [if_pos hle]
  rfl

/-- ASCII bytes stand for one character each. -/
theorem scalars_ascii {cs : List Char} (h : ∀ c ∈ cs, IsAscii c) :
    scalars (cs.map fun c => .ofNat c.toNat) = cs := by
  induction cs with
  | nil => simp [scalars, pieces]
  | cons c cs ih =>
    have hc : c.toNat < 128 := h c List.mem_cons_self
    have hbyte : (UInt8.ofNat c.toNat).toNat = c.toNat := by
      rw [UInt8.toNat_ofNat', Nat.mod_eq_of_lt (by omega)]
    have hlow : UInt8.ofNat c.toNat < 0x80 := by
      rw [UInt8.lt_iff_toNat_lt, hbyte]
      exact hc
    have hscalar : ∀ rest, scalarAt (UInt8.ofNat c.toNat) rest = some (c, 0) := by
      intro rest
      unfold scalarAt
      rw [if_pos hlow, hbyte, Char.ofNat_toNat]
    unfold scalars
    rw [List.map_cons, pieces, hscalar]
    simp only [List.drop_zero, List.map_cons, Piece.shown]
    congr 1
    exact ih fun c' hc' => h c' (List.mem_cons_of_mem _ hc')

namespace Petscii

/-! ## Codes -/

/-- A code that a character has. -/
def IsCode (b : UInt8) : Prop :=
  b = carriageReturn ∨ (0x20 ≤ b.toNat ∧ b.toNat < 0x7F ∧ (b.toNat < 97 ∨ 122 < b.toNat))

theorem isCode_code (c : Char) : IsCode (code c) := by
  unfold code
  split
  next => exact .inl rfl
  next =>
    split
    next h =>
      have hlow : 97 ≤ c.toNat := h.1
      have hhigh : c.toNat ≤ 122 := h.2
      right
      rw [UInt8.toNat_ofNat', Nat.mod_eq_of_lt (by omega)]
      omega
    next hlower =>
      split
      next h =>
        have hlow : 32 ≤ c.toNat := h.1
        have hhigh : c.toNat ≤ 126 := h.2
        have hlower : ¬ (97 ≤ c.toNat ∧ c.toNat ≤ 122) := hlower
        right
        rw [UInt8.toNat_ofNat', Nat.mod_eq_of_lt (by omega)]
        omega
      next => exact .inr (by decide)

/-- The character of a code is ASCII and has this code. -/
theorem code_character {b : UInt8} (h : IsCode b) :
    IsAscii (character b) ∧ code (character b) = b := by
  refine Machine.forall_byte
    (P := fun b => IsCode b → IsAscii (character b) ∧ code (character b) = b)
    ?_ b h
  unfold IsCode IsAscii
  decide +kernel

theorem isCode_encode [Folds] (s : Bytes) : ∀ b ∈ encode s, IsCode b := by
  intro b hb
  obtain ⟨c, -, rfl⟩ := List.mem_map.1 hb
  exact isCode_code c

/-- The filler of names is no code. -/
theorem IsCode.ne_filler {b : UInt8} (h : IsCode b) : b ≠ 0xA0 := by
  rintro rfl
  revert h
  unfold IsCode
  decide

/-- The text of a string of codes is encoded as these codes. -/
theorem encode_decode [Folds] {codes : Bytes} (h : ∀ b ∈ codes, IsCode b) :
    encode (bytesOf (decode codes)) = codes := by
  have hascii : ∀ c ∈ codes.map character, IsAscii c := by
    intro c hc
    obtain ⟨b, hb, rfl⟩ := List.mem_map.1 hc
    exact (code_character (h b hb)).1
  have hbytes : bytesOf (decode codes) = (codes.map character).map fun c => .ofNat c.toNat := by
    rw [decode, bytesOf_ofList, List.flatMap_congr fun c hc => utf8EncodeChar_ascii (hascii c hc)]
    exact List.flatMap_pure_eq_map _ _
  rw [encode, hbytes, scalars_ascii hascii, Folds.fold_ascii hascii, List.map_map]
  calc codes.map (code ∘ character) = codes.map id :=
        List.map_congr_left fun b hb => (code_character (h b hb)).2
    _ = codes := List.map_id _

end Petscii

end Breadbin.Text
