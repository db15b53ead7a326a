import Breadbin.Proofs.Lowering.Variables

/-!
# Values behind a pointer

A value waits on the stack while the code of an index runs.  The number that the index leaves is
turned into the address of an element, and the value is stored, or another one loaded, where that
address points.
-/

namespace Breadbin

namespace Machine

/-! ## Places of elements -/

/-- The address of an element. -/
def elementAt (base : UInt16) (wide : Bool) (i : Int) : UInt16 :=
  base + UInt16.ofInt (width wide * i)

section

variable {base : UInt16} {wide : Bool} {length : Nat} {i j : Int}

/-- The addresses of the elements go up from the base. -/
theorem toNat_elementAt (hfits : base.toNat + length * width wide ≤ 0x10000) (hi : 0 ≤ i)
    (hlt : i < length) :
    ((elementAt base wide i).toNat : Int) = base.toNat + width wide * i := by
  have hbound : (width wide : Int) * i + width wide ≤ length * width wide := by
    have := Int.mul_le_mul_of_nonneg_left (show i + 1 ≤ (length : Int) by omega)
      (Int.natCast_nonneg (width wide))
    rw [Int.mul_add, Int.mul_one, Int.mul_comm _ (length : Int)] at this
    exact this
  have hnonneg : 0 ≤ (width wide : Int) * i := Int.mul_nonneg (Int.natCast_nonneg _) hi
  have hpos : 1 ≤ width wide := by cases wide <;> decide
  have hnat := toNat_uint16_ofInt (width wide * i)
  have hlen : ((length * width wide : Nat) : Int) = length * width wide := by push_cast; rfl
  rw [elementAt, UInt16.toNat_add]
  omega

/-- The address of an element, from what a word holds of the index. -/
theorem toNat_elementAt_of_mod {n : Nat} (hn : (n : Int) = i % 65536) :
    (elementAt base wide i).toNat = (width wide * n + base.toNat) % 65536 := by
  have hoffset := toNat_uint16_ofInt (width wide * i)
  rw [elementAt, UInt16.toNat_add]
  cases wide with
  | true =>
    simp only [width, if_true] at hoffset ⊢
    omega
  | false =>
    simp only [width, Bool.false_eq_true, if_false] at hoffset ⊢
    omega

/-- Two elements have no byte in common. -/
theorem elements_apart (hfits : base.toNat + length * width wide ≤ 0x10000) (hi : 0 ≤ i)
    (hilt : i < length)
    (hj : 0 ≤ j) (hjlt : j < length) (hne : i ≠ j) (byte : UInt16)
    (hbyte : Within (elementAt base wide j) wide byte) :
    ¬Within (elementAt base wide i) wide byte := by
  have haddress := toNat_elementAt hfits hi hilt
  have haddress' := toNat_elementAt hfits hj hjlt
  have hlt := (elementAt base wide i).toNat_lt
  have hlt' := (elementAt base wide j).toNat_lt
  intro hbyte'
  unfold Within at hbyte hbyte'
  simp only [← UInt16.toNat_inj, UInt16.toNat_add, UInt16.toNat_one] at hbyte hbyte'
  cases wide with
  | true =>
    simp only [width, if_true] at haddress haddress'
    omega
  | false =>
    simp only [Bool.false_eq_true, false_and, or_false] at hbyte hbyte'
    simp only [width, Bool.false_eq_true, if_false] at haddress haddress'
    omega

end

end Machine

namespace Machine.View

variable (v : View) (address : UInt16) (wide : Bool)

theorem toUInt8_value : (v.value wide).toUInt8 = v.a := by
  apply UInt8.toNat_inj.1
  have := v.a.toNat_lt
  rw [UInt16.toNat_toUInt8, toNat_value]
  split <;> omega

theorem toUInt8_value_shiftRight : (v.value true >>> 8).toUInt8 = v.x := by
  apply UInt8.toNat_inj.1
  have := v.a.toNat_lt
  have := v.x.toNat_lt
  rw [UInt16.toNat_toUInt8, UInt16.toNat_shiftRight, toNat_value, Nat.shiftRight_eq_div_pow]
  show (v.a.toNat + 256 * v.x.toNat) / 256 % 256 = _
  omega

theorem value_narrow_lt : (v.value false).toNat < 256 := by
  rw [toNat_value]
  exact v.a.toNat_lt

/-- A byte behind the stack page is replaced. -/
theorem main_write {address : UInt16} (h : mainBase ≤ address.toNat) (n : UInt8) :
    (v.write address n).main = Function.update v.main address n := by
  rw [v.write_main n h]
  rfl

theorem toNat_next {address : UInt16} (h : address.toNat + 1 < 0x10000) :
    (address + 1).toNat = address.toNat + 1 := by
  rw [UInt16.toNat_add, UInt16.toNat_one]
  omega

/-- A value behind the stack page is replaced. -/
theorem storeAt_main {address : UInt16} (h : mainBase ≤ address.toNat)
    (hfits : address.toNat + width wide ≤ 0x10000) :
    (v.storeAt address wide).main = Contents.set v.main address wide (v.value wide) := by
  cases wide with
  | true =>
    have hnext : (address + 1).toNat = address.toNat + 1 := toNat_next (Nat.lt_of_succ_le hfits)
    simp only [storeAt, Contents.set, if_true, toUInt8_value, toUInt8_value_shiftRight]
    rw [main_write _ (by omega), main_write _ h]
  | false =>
    simp only [storeAt, Contents.set, Bool.false_eq_true, if_false, toUInt8_value]
    rw [main_write _ h]

/-- What lies on the stack is not touched by stores behind it. -/
theorem storeAt_keeps {address : UInt16} (h : mainBase ≤ address.toNat)
    (hfits : address.toNat + width wide ≤ 0x10000) :
    v.Keeps 0 (v.storeAt address wide) := by
  cases wide with
  | true =>
    have hnext : (address + 1).toNat = address.toNat + 1 := toNat_next (Nat.lt_of_succ_le hfits)
    simp only [storeAt, if_true]
    rw [write_main _ _ (by omega), write_main _ _ h]
    exact ⟨rfl, fun _ _ => rfl⟩
  | false =>
    simp only [storeAt, Bool.false_eq_true, if_false]
    rw [write_main _ _ h]
    exact ⟨rfl, fun _ _ => rfl⟩

/-- A value behind the stack page is read. -/
theorem stored_main {address : UInt16} (h : mainBase ≤ address.toNat)
    (hfits : address.toNat + width wide ≤ 0x10000) :
    v.stored address wide = Contents.get v.main address wide := by
  cases wide with
  | true =>
    have hnext : (address + 1).toNat = address.toNat + 1 := toNat_next (Nat.lt_of_succ_le hfits)
    simp only [stored, Contents.get, if_true]
    rw [peek_main _ h, peek_main _ (by omega)]
  | false =>
    simp only [stored, Contents.get, Bool.false_eq_true, if_false]
    rw [peek_main _ h]

end Machine.View

namespace Lowering

open Assembly Machine ZeroPage

variable {p : Program} {s : Emission} {d : Nat}

/-! ## Values that wait -/

theorem push_does (wide : Bool) :
    Does (push wide) p s fun code a b => ∀ v, code.Reaches 0 a v b (v.pushed wide) := by
  refine (Does.straight (push wide)).mono fun code a b h v => ?_
  cases wide <;> exact LinkedCode.Installed.run h rfl

/-- The value is pulled again after code that keeps it. -/
theorem pop_does (wide : Bool) : Does (pop wide) p s fun code a b =>
    ∀ (v u : View) (d : Nat), d ≤ 254 → (v.pushed wide).Keeps d u →
    ∃ w, code.Reaches 0 a u b w ∧ v.Keeps (d + 2) w ∧ w.value wide = v.value wide ∧
      w.main = u.main ∧ w.zp = u.zp := by
  refine (Does.straight (pop wide)).mono fun code a b h v u d hd hkeeps => ?_
  cases wide with
  | false =>
    obtain ⟨htop, hdrop⟩ := View.Keeps.push hkeeps (by omega)
    refine ⟨u.drop.setA u.top, LinkedCode.Installed.run h rfl,
      ⟨hdrop.sp, fun i hi => hdrop.stack i (by omega)⟩, ?_, rfl, rfl⟩
    show u.top.toUInt16 = v.a.toUInt16
    rw [htop]
  | true =>
    obtain ⟨hhigh, hkeeps'⟩ := View.Keeps.push (v := (v.push v.a).setA v.x) hkeeps (by omega)
    have hrest : (v.push v.a).Keeps (d + 1) u.drop := ⟨hkeeps'.sp, hkeeps'.stack⟩
    obtain ⟨hlow, hdrop⟩ := View.Keeps.push hrest (by omega)
    refine ⟨_, LinkedCode.Installed.run h rfl, ⟨hdrop.sp, hdrop.stack⟩, ?_, rfl, rfl⟩
    show Cpu.wordOf u.drop.top u.top = Cpu.wordOf v.a v.x
    rw [hlow, hhigh]

/-! ## Indices -/

/-- What evaluating an index may do: the memory before, the number, and the memory after. -/
abbrev Evaluation := Contents → Int → Contents → Prop

/-- The code leaves a number of a kind, and keeps what waits on the stack. -/
def Numbers (d : Nat) (k : Kind) (R : Evaluation) : Deed := fun code a b =>
  ∀ v, ∃ u, code.Reaches 0 a v b u ∧ v.Keeps d u ∧
    R v.main (Conversion.valueOfBits (u.value k.isWide) k) u.main

/-! ## Pointers -/

instance (mn : Mnemonic) (address : UInt16) : Straight (emit mn (.absoluteY (.fixed address))) where
  lines := [.instr mn (.absoluteY (.fixed address))]
  performs _ _ := rfl
  plain := rfl

instance (mn : Mnemonic) (z : UInt8) : Straight (emit mn (.indirectY z)) where
  lines := [.instr mn (.indirectY z)]
  performs _ _ := rfl
  plain := rfl

instance (mn : Mnemonic) (address : UInt16) : Straight (emit mn (.lowByte (.fixed address))) :=
  inferInstanceAs (Straight (imm mn address.toUInt8))

instance (mn : Mnemonic) (address : UInt16) : Straight (emit mn (.highByte (.fixed address))) :=
  inferInstanceAs (Straight (imm mn (address >>> 8).toUInt8))

/-- Adds an address to a word. -/
def addAddress (z : UInt8) (base : UInt16) : Lower Unit := do
  op .clc
  zp .lda z
  emit .adc (.lowByte (.fixed base))
  zp .sta z
  zp .lda (z + 1)
  emit .adc (.highByte (.fixed base))
  zp .sta (z + 1)

instance (z : UInt8) (base : UInt16) : Straight (addAddress z base) :=
  inferInstanceAs (Straight (do
    op .clc
    zp .lda z
    emit .adc (.lowByte (.fixed base))
    zp .sta z
    zp .lda (z + 1)
    emit .adc (.highByte (.fixed base))
    zp .sta (z + 1)))

theorem addAddress_does (z : UInt8) (base : UInt16) :
    Does (addAddress z base) p s (Computes 0 [z, z + 1] fun v w =>
    w.word z = (v.word z + base.toNat) % 65536) := by
  have hlow : base.toUInt8.toNat = base.toNat % 256 := UInt16.toNat_toUInt8 base
  have hhigh : (base >>> 8).toUInt8.toNat = base.toNat / 256 % 256 := by
    rw [UInt16.toNat_toUInt8, UInt16.toNat_shiftRight, Nat.shiftRight_eq_div_pow]
    rfl
  have := base.toNat_lt
  refine Does.computes _ (fun v => ⟨_, rfl, ?_⟩) rfl (by intro; simp [Straight.lines, slots])
  have := (v.zp z).toNat_lt
  have := (v.zp (z + 1)).toNat_lt
  by_cases hcarry : 256 ≤ (v.zp z).toNat + base.toNat % 256 <;>
    simp [View.word, hlow, hhigh, hcarry, Machine.bit] <;>
    omega

/-- Turns the number in the pointer into the address of an element. -/
def scale (wide : Bool) (base : UInt16) : Lower Unit :=
  if wide then (do
    zp .asl pointer
    zp .rol (pointer + 1)
    addAddress pointer base)
  else addAddress pointer base

theorem scale_does (wide : Bool) (base : UInt16) :
    Does (scale wide base) p s (Computes 0 [pointer, pointer + 1]
    fun v w => w.word pointer = (width wide * v.word pointer + base.toNat) % 65536) := by
  cases wide with
  | true =>
    have hdouble (s : Emission) : Does (zp .asl pointer >>= fun _ => zp .rol (pointer + 1)) p s
        (Computes 0 [pointer, pointer + 1] fun v w =>
            w.word pointer = 2 * v.word pointer % 65536) := by
      refine Does.computes (zp .asl pointer >>= fun _ => zp .rol (pointer + 1)) (fun v => ?_) rfl
        (by decide)
      obtain ⟨w, hw, hword, -⟩ := shiftLeft_word v pointer
      exact ⟨w, hw, hword⟩
    have hact : scale true base = (zp .asl pointer >>= fun _ => zp .rol (pointer + 1)) >>= fun _ =>
        addAddress pointer base := by
      rw [bind_assoc]
      rfl
    rw [hact]
    refine ((hdouble s).bind fun s₁ _ => addAddress_does pointer base).mono ?_
    rintro code a b ⟨m, hdouble, hadd⟩
    refine (hdouble.andThen hadd).imp ?_
    rintro v w - ⟨u, hu, hw⟩
    show w.word pointer = (2 * v.word pointer + base.toNat) % 65536
    omega
  | false =>
    refine (addAddress_does pointer base).mono fun code a b h => h.imp fun v w _ hw => ?_
    show w.word pointer = (1 * v.word pointer + base.toNat) % 65536
    omega

/-- The code of an index leaves the address of the element in the pointer. -/
theorem pointTo_does {e : Element} {k : Kind} {length base : UInt16} {R : Evaluation}
    (htype : e.array.type = .array k length) (hbase : e.base = .fixed base)
    (hk : e.index.type.kind.isInteger = true)
    (hindex : ∀ s', s.Stays s' → Does e.index.value p s' (Numbers d e.index.type.kind R)) :
    Does (pointTo e) p s fun code a b => ∀ v, ∃ i u w, code.Reaches 0 a v b w ∧
      v.Keeps d w ∧ R v.main i u ∧
      w.main = u ∧ w.word pointer = (elementAt base k.isWide i).toNat := by
  have hwide : e.type.isWide = k.isWide := by
    rw [Element.type, htype]
    rfl
  have hact : pointTo e = e.index.value >>= fun _ => extend e.index.type.kind >>= fun _ =>
      storeSlot pointer true >>= fun _ => scale k.isWide base := by
    unfold pointTo scale addAddress
    rw [hwide, hbase]
  have hintegral : e.index.type.kind.isIntegral = true := by
    rw [Kind.isIntegral, hk]
    rfl
  rw [hact]
  refine ((hindex s (Path.refl s)).bind fun s₁ _ => (extend_does hintegral).bind fun s₂ _ =>
    (storeSlot_computes pointer).bind fun s₃ _ => scale_does k.isWide base).mono ?_
  rintro code a b ⟨m₁, hvalue, m₂, hextend, m₃, hstore, hscale⟩ v
  obtain ⟨u, hreaches, hkeeps, hR⟩ := hvalue v
  obtain ⟨u₁, hpath₁, hu₁⟩ := hextend u
  obtain ⟨u₂, hpath₂, hu₂⟩ := hstore u₁
  obtain ⟨w, hpath₃, hw⟩ := hscale u₂
  have hpath := (hpath₁.mono (Nat.le_refl 0) (List.nil_subset _)).trans (hpath₂.trans hpath₃)
  have hkeeps' := hpath.frame.keeps.mono (Nat.zero_le d)
  refine ⟨_, u.main, w, hreaches.andThen hpath.reaches, hkeeps.trans hkeeps', hR,
    hpath.frame.main, ?_⟩
  have hvalue' := congrArg (fun n : UInt16 => (n.toNat : Int)) hu₁
  simp only [toNat_uint16_ofInt] at hvalue'
  rw [hw, hu₂]
  exact (toNat_elementAt_of_mod hvalue').symm

/-! ## Through the pointer -/

/-- The pointer points at an address. -/
theorem address?_pointer {code : LinkedCode} {v : View} {address : UInt16}
    (h : v.word pointer = address.toNat) :
    code.address? v (.indirectY pointer) = some (address + v.y.toUInt16) := by
  have hword : Cpu.wordOf (v.zp pointer) (v.zp (pointer + 1)) = address :=
    UInt16.toNat_inj.1 ((LinkedCode.toNat_wordOf _ _).trans h)
  show some (Cpu.wordOf _ _ + _) = _
  rw [hword]

/-- A byte behind the stack page is loaded through the pointer. -/
theorem loadThrough_reaches {code : LinkedCode} {a b : Nat} {v : View} (address : UInt16)
    (h : Lines [.instr .lda (.indirectY pointer)] code a b)
    (hpointer : v.word pointer = address.toNat)
    (habove : mainBase ≤ (address + v.y.toUInt16).toNat) :
    code.Reaches 1 a v b (v.setA (v.main (address + v.y.toUInt16))) := by
  have hread : code.value? v (.indirectY pointer) = some (v.main (address + v.y.toUInt16)) := by
    show (code.address? v (.indirectY pointer)).map _ = _
    rw [address?_pointer hpointer, Option.map_some, View.peek_main _ habove]
  exact LinkedCode.Installed.takeIn h hread rfl

/-- A byte behind the stack page is stored through the pointer. -/
theorem storeThrough_reaches {code : LinkedCode} {a b : Nat} {v : View} (address : UInt16)
    (h : Lines [.instr .sta (.indirectY pointer)] code a b)
    (hpointer : v.word pointer = address.toNat)
    (habove : mainBase ≤ (address + v.y.toUInt16).toNat)
    (hfree : ¬code.Covers (address + v.y.toUInt16).toNat) :
    code.Reaches 1 a v b (v.poke (address + v.y.toUInt16) v.a) := by
  have hwrite := LinkedCode.Installed.write h (v := v) rfl (address?_pointer hpointer) hfree
  rwa [View.write_main v _ habove] at hwrite

/-- Loads the value that the pointer points at. -/
def loadThrough (wide : Bool) : Lower Unit := do
  if wide then
    imm .ldy 1
    emit .lda (.indirectY pointer)
    op .tax
    op .dey
  else imm .ldy 0
  emit .lda (.indirectY pointer)

theorem loadThrough_does (wide : Bool) : Does (loadThrough wide) p s fun code a b =>
    ∀ (v : View) (address : UInt16), v.word pointer = address.toNat → mainBase ≤ address.toNat →
      address.toNat + width wide ≤ 0x10000 → ∃ w, code.Reaches 0 a v b w ∧
        v.Keeps 0 w ∧ w.main = v.main ∧
        w.value wide = Contents.get v.main address wide := by
  have hsame (address : UInt16) : address + (0 : UInt8).toUInt16 = address :=
    UInt16.add_zero address
  cases wide with
  | false =>
    have hact : loadThrough false = imm .ldy 0 >>= fun _ => emit .lda (.indirectY pointer) := rfl
    rw [hact]
    refine ((Does.straight (imm .ldy 0)).bind fun s₁ _ =>
      Does.straight (emit .lda (.indirectY pointer))).mono ?_
    rintro code a b ⟨m, hldy, hlda⟩ v address hpointer habove hfits
    have hfirst : code.Reaches 0 a v m (v.setY 0) := LinkedCode.Installed.run hldy rfl
    have hsecond := loadThrough_reaches address hlda (v := v.setY 0) hpointer
      (by rwa [View.setY, View.flags, hsame])
    refine ⟨_, hfirst.andThen hsecond, ⟨rfl, fun _ _ => rfl⟩, rfl, ?_⟩
    simp [View.value, Contents.get]
  | true =>
    have hact : loadThrough true = imm .ldy 1 >>= fun _ =>
        emit .lda (.indirectY pointer) >>= fun _ =>
        (op .tax >>= fun _ => op .dey) >>= fun _ => emit .lda (.indirectY pointer) := by
      rw [bind_assoc]
      rfl
    rw [hact]
    refine ((Does.straight (imm .ldy 1)).bind fun s₁ _ =>
      (Does.straight (emit .lda (.indirectY pointer))).bind
      fun s₂ _ => (Does.straight (op .tax >>= fun _ => op .dey)).bind fun s₃ _ =>
      Does.straight (emit .lda (.indirectY pointer))).mono ?_
    rintro code a b ⟨m₁, hldy, m₂, hhigh, m₃, htax, hlow⟩ v address hpointer habove hfits
    have hnext : (address + 1).toNat = address.toNat + 1 :=
      View.toNat_next (Nat.lt_of_succ_le hfits)
    have hfirst : code.Reaches 0 a v m₁ (v.setY 1) := LinkedCode.Installed.run hldy rfl
    have hsecond := loadThrough_reaches address hhigh (v := v.setY 1) hpointer
      (show mainBase ≤ (address + 1).toNat by omega)
    obtain ⟨u, hthird, hx, hy, hmain, hzp, hsp, hstack⟩ : ∃ u, code.Reaches 0 m₂
        ((v.setY 1).setA (v.main (address + 1))) m₃ u ∧ u.x = v.main (address + 1) ∧
          u.y = 0 ∧ u.main = v.main ∧
        u.zp = v.zp ∧ u.sp = v.sp ∧ u.stack = v.stack := by
      refine ⟨_, LinkedCode.Installed.run htax rfl, ?_⟩
      exact ⟨rfl, show (1 - 1 : UInt8) = 0 by decide, rfl, rfl, rfl, rfl⟩
    have hfourth := loadThrough_reaches address hlow (v := u)
      (by rw [View.word, hzp]; exact hpointer)
      (by rwa [hy, hsame])
    rw [hy, hsame, hmain] at hfourth
    refine ⟨_, ((hfirst.andThen hsecond).andThen hthird).andThen hfourth,
      ⟨hsp, fun i _ => congrFun hstack i⟩, hmain, ?_⟩
    simp [View.value, Contents.get, hx]

/-- Stores the value where the pointer points. -/
def storeThrough (wide : Bool) : Lower Unit := do
  imm .ldy 0
  emit .sta (.indirectY pointer)
  if wide then
    op .iny
    op .txa
    emit .sta (.indirectY pointer)

theorem storeThrough_does (wide : Bool) : Does (storeThrough wide) p s fun code a b =>
    ∀ (v : View) (address : UInt16), v.word pointer = address.toNat → mainBase ≤ address.toNat →
      address.toNat + width wide ≤ 0x10000 → code.Spares address wide →
        ∃ w, code.Reaches 0 a v b w ∧ v.Keeps 0 w ∧
        w.main = Contents.set v.main address wide (v.value wide) := by
  have hsame (address : UInt16) : address + (0 : UInt8).toUInt16 = address :=
    UInt16.add_zero address
  cases wide with
  | false =>
    have hact : storeThrough false = imm .ldy 0 >>= fun _ => emit .sta (.indirectY pointer) := by
      unfold storeThrough
      simp
    rw [hact]
    refine ((Does.straight (imm .ldy 0)).bind fun s₁ _ =>
      Does.straight (emit .sta (.indirectY pointer))).mono ?_
    rintro code a b ⟨m, hldy, hsta⟩ v address hpointer habove hfits hspares
    have hfirst : code.Reaches 0 a v m (v.setY 0) := LinkedCode.Installed.run hldy rfl
    have hsecond := storeThrough_reaches address hsta (v := v.setY 0) hpointer
      (by rwa [View.setY, View.flags, hsame])
        (by rw [View.setY, View.flags, hsame]; exact hspares address (.inl rfl))
    refine ⟨_, hfirst.andThen hsecond, ⟨rfl, fun _ _ => rfl⟩, ?_⟩
    simp [View.poke, Contents.set, View.toUInt8_value]
  | true =>
    have hact : storeThrough true = imm .ldy 0 >>= fun _ =>
        emit .sta (.indirectY pointer) >>= fun _ =>
        (op .iny >>= fun _ => op .txa) >>= fun _ => emit .sta (.indirectY pointer) := by
      rw [bind_assoc]
      rfl
    rw [hact]
    refine ((Does.straight (imm .ldy 0)).bind fun s₁ _ =>
      (Does.straight (emit .sta (.indirectY pointer))).bind
      fun s₂ _ => (Does.straight (op .iny >>= fun _ => op .txa)).bind fun s₃ _ =>
      Does.straight (emit .sta (.indirectY pointer))).mono ?_
    rintro code a b ⟨m₁, hldy, m₂, hlow, m₃, hiny, hhigh⟩ v address hpointer habove hfits hspares
    have hnext : (address + 1).toNat = address.toNat + 1 :=
      View.toNat_next (Nat.lt_of_succ_le hfits)
    have hfirst : code.Reaches 0 a v m₁ (v.setY 0) := LinkedCode.Installed.run hldy rfl
    have hsecond := storeThrough_reaches address hlow (v := v.setY 0) hpointer
      (by rwa [View.setY, View.flags, hsame])
        (by rw [View.setY, View.flags, hsame]; exact hspares address (.inl rfl))
    obtain ⟨u, hthird, ha, hy, hmain, hzp, hsp, hstack⟩ : ∃ u, code.Reaches 0 m₂
        ((v.setY 0).poke (address + (0 : UInt8).toUInt16) v.a) m₃ u ∧ u.a = v.x ∧ u.y = 1 ∧
        u.main = Function.update v.main address v.a ∧ u.zp = v.zp ∧ u.sp = v.sp ∧
            u.stack = v.stack := by
      refine ⟨_, LinkedCode.Installed.run hiny rfl, ?_⟩
      exact ⟨rfl, show (0 + 1 : UInt8) = 1 by decide, by rw [hsame]; rfl, rfl, rfl, rfl⟩
    have hfourth := storeThrough_reaches address hhigh (v := u)
      (by rw [View.word, hzp]; exact hpointer)
      (by rw [hy]; exact show mainBase ≤ (address + 1).toNat by omega)
      (by rw [hy]; exact hspares (address + 1) (.inr ⟨rfl, rfl⟩))
    rw [hy, ha] at hfourth
    refine ⟨_, ((hfirst.andThen hsecond).andThen hthird).andThen hfourth,
      ⟨hsp, fun i _ => congrFun hstack i⟩, ?_⟩
    simp only [View.poke, Contents.set, if_true, View.toUInt8_value,
      View.toUInt8_value_shiftRight, hmain]
    rfl

end Lowering

end Breadbin
