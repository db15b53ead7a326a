import Mathlib
import Breadbin.Text.Digits
import Breadbin.Text.Quoted

/-!
# Reading quoted text back

Quoted texts are equal only if the byte strings are.  The pieces of a byte string spell it out
again, and the first two characters of an escape say how long it is and what it stands for.
-/

/-!
## Hexadecimal digits are read back

A number is the value of the digits that are written for it, if they are enough, in either case.
-/

namespace Breadbin.Text

variable {upper : Bool} {w n : Nat}

/-- Two digits are enough for a byte. -/
theorem byte_lt (b : UInt8) : b.toNat < 16 ^ 2 := by
  have := b.toNat_lt
  omega

/-- Four digits are enough for a word. -/
theorem word_lt (a : UInt16) : a.toNat < 16 ^ 4 := by
  have := a.toNat_lt
  omega

/-- The value of hexadecimal digits. -/
def hexValue (cs : List Char) : Nat := cs.foldl (fun n c => 16 * n + (digitValue? c).getD 0) 0

theorem digitValue?_hexDigit {d : Nat} (hd : d < 16) : digitValue? (hexDigit upper d) = some d := by
  have hall : ∀ upper, ∀ d < 16, digitValue? (hexDigit upper d) = some d := by decide
  exact hall upper d hd

@[simp] theorem length_hexFixed (upper : Bool) (w n : Nat) : (hexFixed upper w n).length = w := by
  induction w generalizing n with
  | zero => rfl
  | succ w ih => simp [hexFixed, ih]

theorem isSome_digitValue?_of_mem {c : Char} (h : c ∈ hexFixed upper w n) :
    (digitValue? c).isSome = true := by
  induction w generalizing n with
  | zero => cases h
  | succ w ih =>
    rcases List.mem_append.1 h with h | h
    · exact ih h
    · rw [List.mem_singleton.1 h, digitValue?_hexDigit (Nat.mod_lt _ (by decide))]
      rfl

/-- A number is the value of its digits, if there are enough of them. -/
theorem hexValue_hexFixed (hn : n < 16 ^ w) : hexValue (hexFixed upper w n) = n := by
  induction w generalizing n with
  | zero =>
    simp at hn
    simp [hexFixed, hexValue, hn]
  | succ w ih =>
    have hhigh := ih (n := n / 16) (by rw [Nat.pow_succ] at hn; omega)
    unfold hexValue at hhigh ⊢
    rw [hexFixed, List.foldl_append, hhigh, List.foldl_cons, List.foldl_nil,
      digitValue?_hexDigit (by omega), Option.getD_some]
    omega

/-- Numbers with the same digits are the same, if the digits are enough for both. -/
theorem hexFixed_inj {m : Nat} (hm : m < 16 ^ w) (hn : n < 16 ^ w)
    (h : hexFixed upper w m = hexFixed upper w n) : m = n := by
  rw [← @hexValue_hexFixed upper w m hm, h, hexValue_hexFixed hn]

/-- No more digits than asked for are written if they are enough. -/
theorem toList_hexNat (hn : n < 16 ^ w) (hw : 0 < w) :
    (hexNat upper w n).toList = hexFixed upper w n := by
  have hwidth : hexWidth n ≤ w := by
    unfold hexWidth
    rcases Nat.eq_zero_or_pos n with rfl | hpos
    · exact hw
    · have hlog : n.log2 < 4 * w := by
        rw [Nat.log2_lt (by omega), Nat.pow_mul]
        exact hn
      omega
  rw [hexNat, String.toList_ofList, Nat.max_eq_left hwidth]

end Breadbin.Text

namespace Breadbin.Text

/-! ## The bytes of pieces -/

/-- The bytes that a piece is read from. -/
def Piece.bytes : Piece → Bytes
  | .scalar c => String.utf8EncodeChar c
  | .stray b => [b]

/-- A byte that starts no scalar is none of the first 128. -/
def Piece.Proper : Piece → Prop
  | .scalar _ => True
  | .stray b => 0x80 ≤ b.toNat

theorem toNat_ofNat_char {n : Nat} (h : n < 0xD800 ∨ 0xDFFF < n ∧ n < 0x110000) :
    (Char.ofNat n).val.toNat = n := by
  have hvalid : n.isValidChar := h
  rw [Char.ofNat, dif_pos hvalid]
  rfl

theorem byte_eq {b : UInt8} {n : Nat} (h : b.toNat = n) : UInt8.ofNat n = b := by
  rw [← h, UInt8.ofNat_toNat]

theorem continuation_eq {lo hi b : UInt8} {n : Nat} (h : continuation lo hi b = some n) :
    lo.toNat ≤ b.toNat ∧ b.toNat ≤ hi.toNat ∧ n = b.toNat % 64 := by
  unfold continuation at h
  split at h
  next hb => exact ⟨hb.1, hb.2, (Option.some.inj h).symm⟩
  next => cases h

/-- The limits of a second byte leave out what is too long, the surrogates and what is too large. -/
theorem second_limits (lead : UInt8) :
    0x80 ≤ (secondLow lead).toNat ∧ (secondHigh lead).toNat ≤ 0xBF ∧
      (lead.toNat = 0xE0 → (secondLow lead).toNat = 0xA0) ∧
      (lead.toNat = 0xF0 → (secondLow lead).toNat = 0x90) ∧
      (lead.toNat = 0xED → (secondHigh lead).toNat = 0x9F) ∧
      (lead.toNat = 0xF4 → (secondHigh lead).toNat = 0x8F) := by
  have hlead : ∀ n : UInt8, lead = n ↔ lead.toNat = n.toNat := fun n => UInt8.toNat_inj.symm
  unfold secondLow secondHigh
  simp only [hlead]
  split_ifs <;> simp_all

theorem utf8EncodeChar_one {x : Nat} (hx : x < 128) :
    String.utf8EncodeChar (Char.ofNat x) = [UInt8.ofNat x] := by
  have hval := toNat_ofNat_char (n := x) (by omega)
  simp only [String.utf8EncodeChar, hval]
  rw [if_pos (by omega)]

theorem utf8EncodeChar_two {x y : Nat} (hx : 2 ≤ x) (hx' : x < 32) (hy : y < 64) :
    String.utf8EncodeChar (Char.ofNat (x * 64 + y)) =
      [UInt8.ofNat (x + 192), UInt8.ofNat (y + 128)] := by
  have hval := toNat_ofNat_char (n := x * 64 + y) (by omega)
  simp only [String.utf8EncodeChar, hval]
  rw [if_neg (by omega), if_pos (by omega), show (x * 64 + y) / 64 % 32 = x by omega,
    show (x * 64 + y) % 64 = y by omega]

theorem utf8EncodeChar_three {x y z : Nat} (hx : x < 16) (hy : y < 64) (hz : z < 64)
    (hlow : x = 0 → 32 ≤ y) (hhigh : x = 13 → y < 32) :
    String.utf8EncodeChar (Char.ofNat ((x * 64 + y) * 64 + z)) =
      [UInt8.ofNat (x + 224), UInt8.ofNat (y + 128), UInt8.ofNat (z + 128)] := by
  have hval := toNat_ofNat_char (n := (x * 64 + y) * 64 + z) (by omega)
  simp only [String.utf8EncodeChar, hval]
  rw [if_neg (by omega), if_neg (by omega), if_pos (by omega),
    show ((x * 64 + y) * 64 + z) / 4096 % 16 = x by
      omega, show ((x * 64 + y) * 64 + z) / 64 % 64 = y by omega,
    show ((x * 64 + y) * 64 + z) % 64 = z by omega]

theorem utf8EncodeChar_four {x y z w : Nat} (hx : x < 5) (hy : y < 64) (hz : z < 64) (hw : w < 64)
    (hlow : x = 0 → 16 ≤ y) (hhigh : x = 4 → y < 16) :
    String.utf8EncodeChar (Char.ofNat (((x * 64 + y) * 64 + z) * 64 + w)) =
      [UInt8.ofNat (x + 240), UInt8.ofNat (y + 128), UInt8.ofNat (z + 128),
        UInt8.ofNat (w + 128)] := by
  have hval := toNat_ofNat_char (n := ((x * 64 + y) * 64 + z) * 64 + w) (by omega)
  simp only [String.utf8EncodeChar, hval]
  rw [if_neg (by omega), if_neg (by omega), if_neg (by omega),
    show (((x * 64 + y) * 64 + z) * 64 + w) / 262144 % 8 = x by omega,
    show (((x * 64 + y) * 64 + z) * 64 + w) / 4096 % 64 = y by omega,
    show (((x * 64 + y) * 64 + z) * 64 + w) / 64 % 64 = z by omega,
    show (((x * 64 + y) * 64 + z) * 64 + w) % 64 = w by omega]

/-- A scalar is spelled by the bytes that it is read from. -/
theorem scalarAt_bytes {b : UInt8} {rest : Bytes} {c : Char} {n : Nat}
    (h : scalarAt b rest = some (c, n)) :
    String.utf8EncodeChar c ++ rest.drop n = b :: rest := by
  obtain ⟨hsecond, hsecond', hE0, hF0, hED, hF4⟩ := second_limits b
  unfold scalarAt at h
  simp only [UInt8.lt_iff_toNat_lt] at h
  split at h
  next hone =>
    cases h
    rw [utf8EncodeChar_one hone, UInt8.ofNat_toNat]
    rfl
  next hone =>
  split at h
  next => cases h
  next hlow =>
  have hlow : ¬ b.toNat < 0xC2 := hlow
  rcases rest with _ | ⟨b₁, rest⟩
  · cases h
  cases hc₁ : continuation (secondLow b) (secondHigh b) b₁ with
  | none => simp [hc₁] at h
  | some c₁ =>
  obtain ⟨h₁, h₁', rfl⟩ := continuation_eq hc₁
  simp only [hc₁, Option.bind_eq_bind, Option.bind_some, Option.pure_def] at h
  split at h
  next htwo =>
    have htwo : b.toNat < 0xE0 := htwo
    cases h
    rw [utf8EncodeChar_two (by omega) (by omega) (by omega), byte_eq (b := b) (by omega),
      byte_eq (b := b₁) (by omega)]
    rfl
  next htwo =>
  have htwo : ¬ b.toNat < 0xE0 := htwo
  rcases rest with _ | ⟨b₂, rest⟩
  · cases h
  cases hc₂ : continuation 0x80 0xBF b₂ with
  | none => simp [hc₂] at h
  | some c₂ =>
  obtain ⟨h₂, h₂', rfl⟩ := continuation_eq hc₂
  have h₂ : 0x80 ≤ b₂.toNat := h₂
  have h₂' : b₂.toNat ≤ 0xBF := h₂'
  simp only [hc₂, Option.bind_some] at h
  split at h
  next hthree =>
    have hthree : b.toNat < 0xF0 := hthree
    cases h
    rw [utf8EncodeChar_three (by omega) (by omega) (by omega) (by omega) (by omega),
      byte_eq (b := b) (by omega), byte_eq (b := b₁) (by omega), byte_eq (b := b₂) (by omega)]
    rfl
  next hthree =>
  have hthree : ¬ b.toNat < 0xF0 := hthree
  rcases rest with _ | ⟨b₃, rest⟩
  · cases h
  cases hc₃ : continuation 0x80 0xBF b₃ with
  | none => simp [hc₃] at h
  | some c₃ =>
  obtain ⟨h₃, h₃', rfl⟩ := continuation_eq hc₃
  have h₃ : 0x80 ≤ b₃.toNat := h₃
  have h₃' : b₃.toNat ≤ 0xBF := h₃'
  simp only [hc₃, Option.bind_some] at h
  split at h
  next hfour =>
    have hfour : b.toNat < 0xF5 := hfour
    cases h
    rw [utf8EncodeChar_four (by omega) (by omega) (by omega) (by omega) (by omega) (by omega),
      byte_eq (b := b) (by omega), byte_eq (b := b₁) (by omega), byte_eq (b := b₂) (by omega),
      byte_eq (b := b₃) (by omega)]
    rfl
  next => cases h

/-- The pieces of a byte string spell it, and only bytes that start no scalar stand for
themselves. -/
theorem pieces_bytes (s : Bytes) :
    (pieces s).flatMap Piece.bytes = s ∧ ∀ p ∈ pieces s, p.Proper := by
  induction s using pieces.induct with
  | case1 => simp [pieces]
  | case2 b rest c n hscalar ih =>
    rw [pieces, hscalar]
    refine ⟨?_, List.forall_mem_cons.2 ⟨trivial, ih.2⟩⟩
    rw [List.flatMap_cons, ih.1, Piece.bytes, scalarAt_bytes hscalar]
  | case3 b rest hscalar ih =>
    have hhigh : 0x80 ≤ b.toNat := by
      rcases Nat.lt_or_ge b.toNat 0x80 with hlow | hhigh
      · rw [scalarAt.eq_def, if_pos (UInt8.lt_iff_toNat_lt.2 hlow)] at hscalar
        cases hscalar
      · exact hhigh
    rw [pieces, hscalar]
    refine ⟨?_, List.forall_mem_cons.2 ⟨hhigh, ih.2⟩⟩
    rw [List.flatMap_cons, ih.1]
    rfl

/-! ## Escapes -/

/-- The letters that stand for control characters. -/
def controls : List (Char × Char) :=
  [('a', Char.ofNat 7), ('b', Char.ofNat 8), ('f', Char.ofNat 12), ('n', '\n'),
    ('r', '\r'), ('t', '\t'), ('v', Char.ofNat 11)]

/-- The piece that the first characters stand for, and what is left of them. -/
def Piece.read? : List Char → Option (Piece × List Char)
  | [] => none
  | [c] => some (.scalar c, [])
  | c :: kind :: cs =>
    if c ≠ '\\' then some (.scalar c, kind :: cs)
    else if kind = 'x' then
      let n := hexValue (cs.take 2)
      some (if n < 0x80 then .scalar (Char.ofNat n) else .stray (UInt8.ofNat n), cs.drop 2)
    else if kind = 'u' then some (.scalar (Char.ofNat (hexValue (cs.take 4))), cs.drop 4)
    else if kind = 'U' then some (.scalar (Char.ofNat (hexValue (cs.take 8))), cs.drop 8)
    else some (.scalar ((controls.lookup kind).getD kind), cs)

theorem Piece.read?_plain {c : Char} (hc : c ≠ '\\') (cs : List Char) :
    Piece.read? (c :: cs) = some (.scalar c, cs) := by
  cases cs <;> simp [read?, hc]

/-- The digits of an escape are all read, and nothing behind them. -/
theorem read_digits {w n : Nat} (hn : n < 16 ^ w) (hw : 0 < w) (cs : List Char) :
    hexValue (((hexLower w n).toList ++ cs).take w) = n ∧
      ((hexLower w n).toList ++ cs).drop w = cs := by
  have hlength : (hexFixed false w n).length = w := length_hexFixed false w n
  rw [hexLower, toList_hexNat hn hw, List.take_left' hlength, List.drop_left' hlength]
  exact ⟨hexValue_hexFixed hn, rfl⟩

theorem Char.eq_of_toNat {c : Char} {n : Nat} (h : c.toNat = n) : Char.ofNat n = c := by
  rw [← h, Char.ofNat_toNat]

/-- An escape with digits is read as the scalar that they number. -/
theorem Piece.read?_digits {kind : Char} {w : Nat} {c : Char} {cs : List Char}
    (hkind : kind = 'u' ∧ w = 4 ∨ kind = 'U' ∧ w = 8) (hc : c.toNat < 16 ^ w) :
    Piece.read? ('\\' :: kind :: ((hexLower w c.toNat).toList ++ cs)) = some (.scalar c, cs) := by
  obtain ⟨hvalue, hrest⟩ := read_digits hc (by omega) cs
  rcases hkind with ⟨rfl, rfl⟩ | ⟨rfl, rfl⟩ <;> simp [read?, hvalue, hrest, Char.ofNat_toNat]

theorem Piece.read?_escapedChar (c : Char) (cs : List Char) :
    Piece.read? ((escapedChar c).toList ++ cs) = some (.scalar c, cs) := by
  by_cases hquote : c = '"'
  · rw [hquote]
    rfl
  by_cases hslash : c = '\\'
  · rw [hslash]
    rfl
  rw [escapedChar, if_neg hquote, if_neg hslash]
  by_cases hprint : isPrintable c = true
  · rw [if_pos hprint, String.toList_singleton]
    exact read?_plain hslash cs
  rw [if_neg hprint]
  by_cases hbell : c.toNat = 7
  · rw [if_pos hbell, ← Char.eq_of_toNat hbell]
    rfl
  rw [if_neg hbell]
  by_cases hback : c.toNat = 8
  · rw [if_pos hback, ← Char.eq_of_toNat hback]
    rfl
  rw [if_neg hback]
  by_cases hfeed : c.toNat = 12
  · rw [if_pos hfeed, ← Char.eq_of_toNat hfeed]
    rfl
  rw [if_neg hfeed]
  by_cases hline : c = '\n'
  · rw [if_pos hline, hline]
    rfl
  rw [if_neg hline]
  by_cases hreturn : c = '\r'
  · rw [if_pos hreturn, hreturn]
    rfl
  rw [if_neg hreturn]
  by_cases htab : c = '\t'
  · rw [if_pos htab, htab]
    rfl
  rw [if_neg htab]
  by_cases hvertical : c.toNat = 11
  · rw [if_pos hvertical, ← Char.eq_of_toNat hvertical]
    rfl
  rw [if_neg hvertical]
  by_cases hlow : c.toNat < 0x20 ∨ c.toNat = 0x7F
  · have hsmall : c.toNat < 128 := by omega
    obtain ⟨hvalue, hrest⟩ := read_digits (w := 2) (n := c.toNat) (by omega) (by omega) cs
    rw [if_pos hlow, String.toList_append]
    simp [read?, hvalue, hrest, hsmall, Char.ofNat_toNat]
  rw [if_neg hlow]
  by_cases hshort : c.toNat < 0x10000
  · rw [if_pos hshort, String.toList_append]
    exact read?_digits (.inl ⟨rfl, rfl⟩) hshort
  have hvalid : c.toNat < 0x110000 := by
    have := c.valid
    change c.toNat < 0xD800 ∨ 0xDFFF < c.toNat ∧ c.toNat < 0x110000 at this
    omega
  rw [if_neg hshort, String.toList_append]
  exact read?_digits (.inr ⟨rfl, rfl⟩) (by omega)

/-- A piece is read back from its escape, whatever follows. -/
theorem Piece.read?_escaped {p : Piece} (hp : p.Proper) (cs : List Char) :
    Piece.read? (p.escaped.toList ++ cs) = some (p, cs) := by
  cases p with
  | scalar c => exact read?_escapedChar c cs
  | stray b =>
    have hlow : 0x80 ≤ b.toNat := hp
    obtain ⟨hvalue, hrest⟩ := read_digits (w := 2) (n := b.toNat) b.toNat_lt (by omega) cs
    rw [Piece.escaped, String.toList_append]
    simp [read?, hvalue, hrest, Nat.not_lt.2 hlow]

/-- Pieces with the same escapes are the same. -/
theorem Piece.escaped_inj {ps qs : List Piece} (hps : ∀ p ∈ ps, p.Proper) (hqs : ∀ q ∈ qs, q.Proper)
    (h : ps.flatMap (fun p => p.escaped.toList) = qs.flatMap fun q => q.escaped.toList) :
    ps = qs := by
  have hread : ∀ {p : Piece} {ps : List Piece}, (∀ q ∈ p :: ps, q.Proper) →
      Piece.read? ((p :: ps).flatMap fun p => p.escaped.toList) =
        some (p, ps.flatMap fun p => p.escaped.toList) := by
    intro p ps hps
    rw [List.flatMap_cons]
    exact read?_escaped (hps p List.mem_cons_self) _
  induction ps generalizing qs with
  | nil =>
    cases qs with
    | nil => rfl
    | cons q qs => simpa [read?] using (congrArg Piece.read? h).trans (hread hqs)
  | cons p ps ih =>
    cases qs with
    | nil => simpa [read?] using (hread hps).symm.trans (congrArg Piece.read? h)
    | cons q qs =>
      have heq := (hread hps).symm.trans ((congrArg Piece.read? h).trans (hread hqs))
      obtain ⟨rfl, hrest⟩ := Prod.mk.inj (Option.some.inj heq)
      rw [ih (fun p hp => hps p (List.mem_cons_of_mem _ hp)) (fun q hq =>
        hqs q (List.mem_cons_of_mem _ hq)) hrest]

/-- Different byte strings are quoted differently. -/
theorem quoted_injective : Function.Injective quoted := by
  intro s t h
  obtain ⟨hs, hsproper⟩ := pieces_bytes s
  obtain ⟨ht, htproper⟩ := pieces_bytes t
  have hescaped : (pieces s).flatMap (fun p => p.escaped.toList) = (pieces t).flatMap fun p =>
      p.escaped.toList := by
    have := congrArg String.toList h
    simpa [quoted, String.toList_join, List.flatMap_map] using this
  rw [← hs, Piece.escaped_inj hsproper htproper hescaped, ht]

end Breadbin.Text
