import Breadbin.Proofs.Lowering.Pointers

/-!
# Array elements

An element is reached at a known offset, by an index of one byte or through a pointer.  On each of
the ways a store replaces the same bytes of the memory, and a load reads the same ones, so that what
was stored on one of them is loaded on another.
-/

namespace Breadbin.Lowering

open Assembly Machine ZeroPage

variable {p : Program} {s s' : Emission} {d : Nat}

/-! ## Indices -/

/-- An index for an array of some length: an integer literal, or a constant that stands for one,
whose value is the number that is written; or any other expression, whose code does what `R`
says. -/
def Indexes (p : Program) (s : Emission) (x : Part) (length : UInt16) (d : Nat)
    (R : Evaluation) : Prop :=
  x.expr.isAbsent = false ∧ x.type.kind.isInteger = true ∧ x.type.isArray = false ∧
    match constantOf? s.constants x.expr with
    | some c => ∃ v : Literal, c.literal? = some v ∧
        Conversion.valueOfBits (v.bits x.type.kind).1 x.type.kind = v.int.toInt ∧
        0 ≤ v.int.toInt ∧ v.int.toInt < length.toNat ∧ ∀ m, R m v.int.toInt m
    | none => ∀ s', s.Stays s' → Does x.value p s' (Numbers d x.type.kind R)

theorem Indexes.stays {x : Part} {length : UInt16} {R : Evaluation} (h : Indexes p s x length d R)
    (hs : s.Stays s') :
    Indexes p s' x length d R := by
  obtain ⟨hpresent, hinteger, hscalar, hindex⟩ := h
  refine ⟨hpresent, hinteger, hscalar, ?_⟩
  rw [hs.constants]
  cases hknown : constantOf? s.constants x.expr with
  | some c =>
    rw [hknown] at hindex
    exact hindex
  | none =>
    rw [hknown] at hindex
    exact fun s'' hs' => hindex s'' (Path.trans hs hs')

/-! ## Arrays -/

/-- The kinds that elements may have. -/
def elementKinds : List Kind := [.u8, .i8, .bool, .u16, .i16, .fixed, .float]

/-- An array lies behind the stack page. -/
structure ArrayAt (p : Program) (s : Emission) (array : SymbolId) (k : Kind)
    (length base : UInt16) : Prop where
  symbol : ∃ sym, p.symbol? array = some sym ∧ sym.type = .array k length
  kind : k ∈ elementKinds
  address : s.allocator.lookup? array = some base
  above : mainBase ≤ base.toNat
  fits : base.toNat + length.toNat * width k.isWide ≤ 0x10000

theorem ArrayAt.stays {array : SymbolId} {k : Kind} {length base : UInt16}
    (h : ArrayAt p s array k length base) (hs : s.Stays s') : ArrayAt p s' array k length base :=
  { h with address := hs.allocator.lookup? h.address }

theorem size_eq_width {k : Kind} (hk : k ∈ elementKinds) : k.size = width k.isWide := by
  revert k
  decide

/-- The code covers no byte of the array. -/
def Apart (code : LinkedCode) (base : UInt16) (size : Nat) : Prop :=
  ∀ i < size, ¬code.Covers (base.toNat + i)

/-- How an element is reached. -/
def reachOf (s : Emission) (k : Kind) (length : UInt16) (x : Part) : Reach :=
  match constantOf? s.constants x.expr with
  | some c => .known (UInt16.ofInt (c.literal?.getD {}).int.toInt * UInt16.ofNat k.size)
  | none => if k.size = 1 && !x.type.isWide && length.toNat * k.size ≤ 0x100 then .short
      else .pointer

theorem perform_resolveElement_array {array : SymbolId} {k : Kind} {length base : UInt16}
    {x : Part} {R : Evaluation}
    (h : ArrayAt p s array k length base) (hx : Indexes p s x length d R)
    (span : Span) : ∃ sym : Symbol,
      sym.type = .array k length ∧ perform (resolveElement array x span) p s =
        (.ok (some ⟨sym, .fixed base, x, reachOf s k length x⟩), s) := by
  obtain ⟨sym, hsymbol, htype⟩ := h.symbol
  obtain ⟨hpresent, hinteger, hscalar, hindex⟩ := hx
  have hsym : perform (symbol array) p s = (.ok sym, s) := by
    unfold symbol
    rw [perform_read_bind, hsymbol]
    rfl
  have href : perform (symbolRef array) p s = (.ok (.fixed base), s) := by
    unfold symbolRef
    rw [perform_get_bind, h.address]
    rfl
  have hconstant : perform (constantOf x.expr) p s = (.ok (constantOf? s.constants x.expr), s) :=
    rfl
  refine ⟨sym, htype, ?_⟩
  unfold resolveElement
  rw [perform_bind_ok hsym]
  have harray : sym.type.isArray = true := by rw [htype]; rfl
  have hguard : (x.expr.isAbsent || !x.type.kind.isInteger || x.type.isArray) = false := by
    rw [hpresent, hinteger, hscalar]
    rfl
  simp only [harray, hguard, Bool.not_true, Bool.false_eq_true, if_false]
  rw [perform_bind_ok href, perform_bind_ok hconstant]
  unfold reachOf
  cases hknown : constantOf? s.constants x.expr with
  | none =>
    rw [htype]
    rfl
  | some c =>
    rw [hknown] at hindex
    obtain ⟨v, hliteral, -, hlow, hhigh, -⟩ := hindex
    have hlength : sym.type.length = length := by rw [htype]; rfl
    have hinside : (v.int.toInt < 0 || (sym.type.length.toNat : Int) ≤ v.int.toInt) = false := by
      rw [hlength]
      simp only [Bool.or_eq_false_iff, decide_eq_false_iff_not]
      omega
    simp only [hliteral, Option.getD_some, hinside]
    rw [htype]
    rfl

/-! ## The three ways -/

section

variable {array : SymbolId} {k : Kind} {length base : UInt16} {x : Part}
  {R : Evaluation} {e : Element}

/-- The code stores the value into the element that an index leads to. -/
def StoresAt (k : Kind) (length base : UInt16) (d : Nat) (R : Evaluation) : Deed := fun code a b =>
  Apart code base (length.toNat * width k.isWide) → ∀ v, ∃ i m, R v.main i m ∧
    (0 ≤ i → i < length.toNat → ∃ w, code.Reaches 0 a v b w ∧ v.Keeps (d + 2) w ∧
      w.main = Contents.set m (elementAt base k.isWide i) k.isWide (v.value k.isWide))

/-- The code loads the element that an index leads to. -/
def LoadsFrom (k : Kind) (length base : UInt16) (d : Nat) (R : Evaluation) : Deed := fun code a b =>
  ∀ v, ∃ i m, R v.main i m ∧
    (0 ≤ i → i < length.toNat → ∃ w, code.Reaches 0 a v b w ∧ v.Keeps d w ∧ w.main = m ∧
    w.value k.isWide = Contents.get m (elementAt base k.isWide i) k.isWide)

/-- Where an element lies. -/
theorem ArrayAt.element (h : ArrayAt p s array k length base) {i : Int} (hi : 0 ≤ i)
    (hlt : i < length.toNat) :
    mainBase ≤ (elementAt base k.isWide i).toNat ∧
      (elementAt base k.isWide i).toNat + width k.isWide ≤
        base.toNat + length.toNat * width k.isWide ∧
      ∀ code : LinkedCode, Apart code base (length.toNat * width k.isWide) →
        code.Spares (elementAt base k.isWide i) k.isWide := by
  have hlimit := h.fits
  have haddress := toNat_elementAt h.fits hi hlt
  have habove := h.above
  have hnonneg : 0 ≤ (width k.isWide : Int) * i := Int.mul_nonneg (Int.natCast_nonneg _) hi
  have hstop : (width k.isWide : Int) * i + width k.isWide ≤ length.toNat * width k.isWide := by
    have := Int.mul_le_mul_of_nonneg_right (show i + 1 ≤ (length.toNat : Int) by omega)
      (Int.natCast_nonneg (width k.isWide))
    rwa [Int.add_mul, Int.one_mul, Int.mul_comm i] at this
  have hlen : ((length.toNat * width k.isWide : Nat) : Int) = length.toNat * width k.isWide := by
    push_cast; rfl
  refine ⟨by omega, by omega, fun code hapart other hother => ?_⟩
  have hinside : base.toNat ≤ other.toNat ∧
      other.toNat < base.toNat + length.toNat * width k.isWide := by
    rcases hother with rfl | ⟨hwide, rfl⟩
    · have hpos : 1 ≤ width k.isWide := by cases k.isWide <;> decide
      omega
    · have htwo : width k.isWide = 2 := by rw [hwide]; rfl
      have hnext : (elementAt base k.isWide i + 1).toNat = (elementAt base k.isWide i).toNat + 1 :=
        View.toNat_next (by omega)
      omega
  have hfree := hapart (other.toNat - base.toNat) (by omega)
  rwa [Nat.add_sub_cancel' hinside.1] at hfree

/-- A known offset is that of the element. -/
theorem plus_offset (hk : k ∈ elementKinds) (i : Int) :
    (AddressRef.fixed base).plus (UInt16.ofInt i * UInt16.ofNat k.size) =
      .fixed (elementAt base k.isWide i) := by
  have hnumber := toNat_uint16_ofInt i
  have hoffset : UInt16.ofInt i * UInt16.ofNat k.size = UInt16.ofInt (width k.isWide * i) := by
    refine eq_ofInt ?_
    rw [size_eq_width hk, UInt16.toNat_mul, UInt16.toNat_ofNat']
    cases k.isWide with
    | true =>
      show (((UInt16.ofInt i).toNat * 2 % 65536 : Nat) : Int) = 2 * i % 65536
      omega
    | false =>
      show (((UInt16.ofInt i).toNat * 1 % 65536 : Nat) : Int) = 1 * i % 65536
      omega
  show AddressRef.fixed (base + _) = _
  rw [hoffset, elementAt]

/-- A byte that is not negative is the same number in Y. -/
theorem elementAt_byte (base : UInt16) {k : Kind} (hk : k.isInteger = true)
    (hnarrow : k.isWide = false) (n : UInt8) (h : 0 ≤ Conversion.valueOfBits n.toUInt16 k) :
    elementAt base false (Conversion.valueOfBits n.toUInt16 k) = base + n.toUInt16 := by
  have hlt := n.toNat_lt
  have hvalue : Conversion.valueOfBits n.toUInt16 k = n.toNat := by
    cases k with
    | u8 =>
      show ((n.toUInt16.toNat : Int)) % 256 = _
      rw [UInt8.toNat_toUInt16]
      omega
    | i8 =>
      change 0 ≤ (n.toUInt16.toNat : Int).bmod 256 at h
      show (n.toUInt16.toNat : Int).bmod 256 = _
      rw [UInt8.toNat_toUInt16, Int.bmod_def] at h ⊢
      by_cases hlow : n.toNat % 256 < (256 + 1) / 2
      · rw [if_pos (by omega)]
        omega
      · rw [if_neg (by omega)] at h
        omega
    | u16 | i16 => cases hnarrow
    | invalid | void | bool | fixed | float | string | unknown => cases hk
  have hnat : UInt16.ofInt (width false * (n.toNat : Int)) = n.toUInt16 := by
    refine (eq_ofInt ?_).symm
    show (n.toUInt16.toNat : Int) = 1 * n.toNat % 65536
    rw [UInt8.toNat_toUInt16]
    omega
  rw [hvalue, elementAt, hnat]

theorem address?_absoluteY (code : LinkedCode) (v : View) (base : UInt16) :
    code.address? v (.absoluteY (.fixed base)) = some (base + v.y.toUInt16) := by
  show some (UInt16.ofNat base.toNat + _) = _
  rw [UInt16.ofNat_toNat]

theorem storeElement_known (h : ArrayAt p s array k length base)
    (htype : e.array.type = .array k length)
    (hbase : e.base = .fixed base) {i : Int}
    (hreach : e.reach = .known (UInt16.ofInt i * UInt16.ofNat k.size))
    (hi : 0 ≤ i) (hlt : i < length.toNat) (hR : ∀ m, R m i m) :
    Does (storeElement e) p s (StoresAt k length base d R) := by
  have hwide : e.type.isWide = k.isWide := by
    rw [Element.type, htype]
    rfl
  have hact : storeElement e = store (.fixed (elementAt base k.isWide i)) k.isWide := by
    unfold storeElement
    rw [hreach, hwide, hbase]
    dsimp only
    rw [plus_offset h.kind]
  rw [hact]
  refine (store_does _ _).mono fun code a b hstore hapart v => ⟨i, v.main, hR v.main, fun _ _ => ?_⟩
  obtain ⟨habove, hfits, hspares⟩ := h.element hi hlt
  have hlimit := h.fits
  exact ⟨_, hstore (hspares code hapart) v,
    (View.storeAt_keeps v _ habove (by omega)).mono (Nat.zero_le _),
    View.storeAt_main v _ habove (by omega)⟩

theorem storeElement_short (h : ArrayAt p s array k length base) (hbase : e.base = .fixed base)
    (hreach : e.reach = .short) (hk : k.isWide = false)
    (hinteger : e.index.type.kind.isInteger = true) (hnarrow : e.index.type.kind.isWide = false)
    (hd : d ≤ 254)
    (hindex : ∀ s', s.Stays s' → Does e.index.value p s' (Numbers d e.index.type.kind R)) :
    Does (storeElement e) p s (StoresAt k length base d R) := by
  have hact : storeElement e = push false >>= fun _ => e.index.value >>= fun _ =>
      (op .tay >>= fun _ => op .pla) >>= fun _ => emit .sta (.absoluteY (.fixed base)) := by
    rw [bind_assoc]
    unfold storeElement push
    rw [hreach, hbase]
    simp
  rw [hact]
  refine ((push_does false).bind fun s₁ hs₁ => (hindex s₁ hs₁).bind fun s₂ _ =>
    (Does.straight (op .tay >>= fun _ => op .pla)).bind fun s₃ _ =>
    Does.straight (emit .sta (.absoluteY (.fixed base)))).mono ?_
  rintro code a b ⟨m₁, hpush, m₂, hvalue, m₃, htay, hsta⟩ hapart v
  obtain ⟨u, hreaches, hkeeps, hR⟩ := hvalue (v.pushed false)
  rw [View.pushed_main, hnarrow] at hR
  refine ⟨_, u.main, hR, fun hi hlt => ?_⟩
  obtain ⟨habove, hfits, hspares⟩ := h.element hi hlt
  have hfree := hspares code hapart
  rw [hk] at habove hfree ⊢
  have haddress := elementAt_byte base hinteger hnarrow u.a hi
  rw [show u.value false = u.a.toUInt16 from rfl] at habove hfree ⊢
  rw [haddress] at habove hfree ⊢
  obtain ⟨htop, hdrop⟩ := View.Keeps.push (v := v) (n := v.a) hkeeps (by omega)
  have hback : code.Reaches 0 m₂ u m₃ ((u.setY u.a).drop.setA u.top) :=
    LinkedCode.Installed.run htay rfl
  have hwrite : code.Reaches 1 m₃ ((u.setY u.a).drop.setA u.top) b
      (((u.setY u.a).drop.setA u.top).write (base + u.a.toUInt16) u.top) :=
    LinkedCode.Installed.write hsta rfl (address?_absoluteY code _ base) (hfree _ (.inl rfl))
  rw [View.write_main _ _ habove] at hwrite
  refine ⟨_, ((hpush v).andThen hreaches).andThen (hback.andThen hwrite),
    ⟨hdrop.sp, fun i hi => hdrop.stack i (by omega)⟩, ?_⟩
  show Function.update u.main (base + u.a.toUInt16) u.top = _
  rw [htop]
  simp [Contents.set, View.toUInt8_value]

theorem storeElement_pointer (h : ArrayAt p s array k length base)
    (htype : e.array.type = .array k length)
    (hbase : e.base = .fixed base) (hreach : e.reach = .pointer)
    (hinteger : e.index.type.kind.isInteger = true) (hd : d ≤ 254)
    (hindex : ∀ s', s.Stays s' → Does e.index.value p s' (Numbers d e.index.type.kind R)) :
    Does (storeElement e) p s (StoresAt k length base d R) := by
  have hwide : e.type.isWide = k.isWide := by
    rw [Element.type, htype]
    rfl
  have hact : storeElement e = push k.isWide >>= fun _ => pointTo e >>= fun _ =>
      pop k.isWide >>= fun _ =>
      storeThrough k.isWide := by
    unfold storeElement storeThrough
    rw [hreach, hwide]
  rw [hact]
  refine ((push_does k.isWide).bind fun s₁ hs₁ => (pointTo_does htype hbase hinteger
    fun s' hs' => hindex s' (Path.trans hs₁ hs')).bind fun s₂ _ =>
        (pop_does k.isWide).bind fun s₃ _ =>
    storeThrough_does k.isWide).mono ?_
  rintro code a b ⟨m₁, hpush, m₂, hpoint, m₃, hpop, hstore⟩ hapart v
  obtain ⟨i, m, u, hreaches, hkeeps, hR, hmain, hpointer⟩ := hpoint (v.pushed k.isWide)
  rw [View.pushed_main] at hR
  refine ⟨i, m, hR, fun hi hlt => ?_⟩
  obtain ⟨habove, hfits, hspares⟩ := h.element hi hlt
  have hlimit := h.fits
  obtain ⟨w, hback, hkeeps', hvalue, hmain', hzp⟩ := hpop v u d hd hkeeps
  obtain ⟨z, hlast, hkeeps'', hset⟩ :=
    hstore w (elementAt base k.isWide i) (by rw [View.word, hzp]; exact hpointer)
    habove (by omega) (hspares code hapart)
  refine ⟨z, ((hpush v).andThen hreaches).andThen (hback.andThen hlast),
    hkeeps'.trans (hkeeps''.mono (Nat.zero_le _)), ?_⟩
  rw [hset, hvalue, hmain', hmain]

theorem loadElement_known (h : ArrayAt p s array k length base)
    (htype : e.array.type = .array k length)
    (hbase : e.base = .fixed base) {i : Int}
    (hreach : e.reach = .known (UInt16.ofInt i * UInt16.ofNat k.size))
    (hi : 0 ≤ i) (hlt : i < length.toNat) (hR : ∀ m, R m i m) :
    Does (loadElement e) p s (LoadsFrom k length base d R) := by
  have hwide : e.type.isWide = k.isWide := by
    rw [Element.type, htype]
    rfl
  have hact : loadElement e = load (.fixed (elementAt base k.isWide i)) k.isWide := by
    unfold loadElement
    rw [hreach, hwide, hbase]
    dsimp only
    rw [plus_offset h.kind]
  rw [hact]
  refine (load_does _ _).mono fun code a b hload v => ⟨i, v.main, hR v.main, fun _ _ => ?_⟩
  obtain ⟨habove, hfits, -⟩ := h.element hi hlt
  have hlimit := h.fits
  obtain ⟨w, hpath, hw⟩ := hload v
  refine ⟨w, hpath.reaches, hpath.frame.keeps.mono (Nat.zero_le d), hpath.frame.main, ?_⟩
  rw [hw, View.stored_main v _ habove (by omega)]

theorem loadElement_short (h : ArrayAt p s array k length base) (hbase : e.base = .fixed base)
    (hreach : e.reach = .short) (hk : k.isWide = false)
    (hinteger : e.index.type.kind.isInteger = true) (hnarrow : e.index.type.kind.isWide = false)
    (hindex : ∀ s', s.Stays s' → Does e.index.value p s' (Numbers d e.index.type.kind R)) :
    Does (loadElement e) p s (LoadsFrom k length base d R) := by
  have hact : loadElement e = e.index.value >>= fun _ => op .tay >>= fun _ =>
      emit .lda (.absoluteY (.fixed base)) := by
    unfold loadElement
    rw [hreach, hbase]
  rw [hact]
  refine ((hindex s (Path.refl s)).bind fun s₁ _ => (Does.straight (op .tay)).bind fun s₂ _ =>
    Does.straight (emit .lda (.absoluteY (.fixed base)))).mono ?_
  rintro code a b ⟨m₁, hvalue, m₂, htay, hlda⟩ v
  obtain ⟨u, hreaches, hkeeps, hR⟩ := hvalue v
  rw [hnarrow] at hR
  refine ⟨_, u.main, hR, fun hi hlt => ?_⟩
  obtain ⟨habove, -, -⟩ := h.element hi hlt
  have haddress := elementAt_byte base hinteger hnarrow u.a hi
  rw [hk, show u.value false = u.a.toUInt16 from rfl] at habove ⊢
  rw [haddress] at habove ⊢
  have hsecond : code.Reaches 0 m₁ u m₂ (u.setY u.a) := LinkedCode.Installed.run htay rfl
  have hread : code.value? (u.setY u.a) (.absoluteY (.fixed base)) =
      some (u.main (base + u.a.toUInt16)) := by
    show (code.address? (u.setY u.a) (.absoluteY (.fixed base))).map _ = _
    rw [address?_absoluteY, Option.map_some]
    exact congrArg some (View.peek_main (u.setY u.a) habove)
  have hlast : code.Reaches 1 m₂ (u.setY u.a) b
      ((u.setY u.a).setA (u.main (base + u.a.toUInt16))) :=
    LinkedCode.Installed.takeIn hlda hread rfl
  refine ⟨_, (hreaches.andThen hsecond).andThen hlast, ⟨hkeeps.sp, hkeeps.stack⟩, rfl, ?_⟩
  simp [View.value, Contents.get]

theorem loadElement_pointer (h : ArrayAt p s array k length base)
    (htype : e.array.type = .array k length)
    (hbase : e.base = .fixed base) (hreach : e.reach = .pointer)
    (hinteger : e.index.type.kind.isInteger = true)
    (hindex : ∀ s', s.Stays s' → Does e.index.value p s' (Numbers d e.index.type.kind R)) :
    Does (loadElement e) p s (LoadsFrom k length base d R) := by
  have hwide : e.type.isWide = k.isWide := by
    rw [Element.type, htype]
    rfl
  have hact : loadElement e = pointTo e >>= fun _ => loadThrough k.isWide := by
    unfold loadElement loadThrough
    rw [hreach, hwide]
  rw [hact]
  refine ((pointTo_does htype hbase hinteger hindex).bind fun s₁ _ =>
    loadThrough_does k.isWide).mono ?_
  rintro code a b ⟨m₁, hpoint, hload⟩ v
  obtain ⟨i, m, u, hreaches, hkeeps, hR, hmain, hpointer⟩ := hpoint v
  refine ⟨i, m, hR, fun hi hlt => ?_⟩
  obtain ⟨habove, hfits, -⟩ := h.element hi hlt
  have hlimit := h.fits
  obtain ⟨w, hlast, hkeeps', hmain', hvalue⟩ :=
    hload u (elementAt base k.isWide i) hpointer habove (by omega)
  refine ⟨w, hreaches.andThen hlast, hkeeps.trans (hkeeps'.mono (Nat.zero_le d)),
    hmain'.trans hmain, ?_⟩
  rw [hvalue, hmain]

/-! ## Any way -/

/-- Stores the value into the element that an index leads to. -/
def storeIndexed (array : SymbolId) (x : Part) (span : Span) : Lower Unit := do
  match ← resolveElement array x span with
  | some e => storeElement e
  | none => return ()

/-- An element is reached in a way that fits its index. -/
theorem reachOf_cases (hx : Indexes p s x length d R) :
    (∃ i : Int, reachOf s k length x = .known (UInt16.ofInt i * UInt16.ofNat k.size) ∧ 0 ≤ i ∧
      i < length.toNat ∧ ∀ m, R m i m) ∨
      (∀ s', s.Stays s' → Does x.value p s' (Numbers d x.type.kind R)) ∧
        (reachOf s k length x = .pointer ∨
          reachOf s k length x = .short ∧ k.isWide = false ∧ x.type.kind.isWide = false) := by
  obtain ⟨-, -, hscalar, hindex⟩ := hx
  unfold reachOf
  cases hknown : constantOf? s.constants x.expr with
  | some c =>
    rw [hknown] at hindex
    obtain ⟨v, hliteral, -, hlow, hhigh, hR⟩ := hindex
    dsimp only
    rw [hliteral]
    exact .inl ⟨v.int.toInt, rfl, hlow, hhigh, hR⟩
  | none =>
    rw [hknown] at hindex
    refine .inr ⟨hindex, ?_⟩
    dsimp only
    split
    next hshort =>
      simp only [Bool.and_eq_true, decide_eq_true_eq, Bool.not_eq_true', Ty.isWide,
        hscalar, Bool.not_false, Bool.true_and] at hshort
      exact .inr ⟨rfl, by rw [Kind.isWide, hshort.1.1]; rfl, hshort.1.2⟩
    next => exact .inl rfl

theorem storeIndexed_does (h : ArrayAt p s array k length base)
    (hx : Indexes p s x length d R) (hd : d ≤ 254)
    (span : Span) : Does (storeIndexed array x span) p s (StoresAt k length base d R) := by
  obtain ⟨sym, htype, hperform⟩ := perform_resolveElement_array h hx span
  refine Does.bind_unwritten hperform (.refl s) ?_
  rcases reachOf_cases (k := k)
    hx with ⟨i, hreach, hlow, hhigh, hR⟩ | ⟨hindex, hreach | ⟨hreach, hk, hnarrow⟩⟩
  · exact storeElement_known h htype rfl hreach hlow hhigh hR
  · exact storeElement_pointer h htype rfl hreach hx.2.1 hd hindex
  · exact storeElement_short h rfl hreach hk hx.2.1 hnarrow hd hindex

theorem lowerIndex_does (h : ArrayAt p s array k length base) (hx : Indexes p s x length d R)
    (head : ExprHead) :
    Does (lowerIndex head array x) p s (LoadsFrom k length base d R) := by
  obtain ⟨sym, htype, hperform⟩ := perform_resolveElement_array h hx head.span
  refine Does.bind_unwritten hperform (.refl s) ?_
  rcases reachOf_cases (k := k)
    hx with ⟨i, hreach, hlow, hhigh, hR⟩ | ⟨hindex, hreach | ⟨hreach, hk, hnarrow⟩⟩
  · exact loadElement_known h htype rfl hreach hlow hhigh hR
  · exact loadElement_pointer h htype rfl hreach hx.2.1 hindex
  · exact loadElement_short h rfl hreach hk hx.2.1 hnarrow hindex

/-- A value is stored into an element, and then an element is loaded. -/
def storeThenLoad (array : SymbolId) (x y : Part) (span : Span) (head : ExprHead) : Lower Unit := do
  storeIndexed array x span
  lowerIndex head array y

/-- **What is stored into an element is loaded from it**, and all other elements are loaded as they
were, on whichever of the three ways each of the two is reached.  The store changes the bytes of its
element and nothing else.

`R` and `R'` say what evaluating the two indices does.  The second one is evaluated behind the
store; where that leaves the element alone, what is loaded is the value that was stored if the
indices are equal, and the old element otherwise. -/
theorem stored_element_loaded {y : Part} {e : Nat} {R' : Evaluation}
    (h : ArrayAt p s array k length base)
    (hx : Indexes p s x length d R) (hy : Indexes p s y length e R') (hd : d ≤ 254) (span : Span)
    (head : ExprHead) :
    Does (storeThenLoad array x y span head) p s fun code a b =>
      Apart code base (length.toNat * width k.isWide) → ∀ v, ∃ i m, R v.main i m ∧
        (0 ≤ i → i < length.toNat → ∃ c u, code.Reaches 0 a v c u ∧ v.Keeps (d + 2) u ∧
          (∀ other, ¬Within (elementAt base k.isWide i) k.isWide other → u.main other = m other) ∧
          ∃ j m', R' u.main j m' ∧ (0 ≤ j → j < length.toNat →
            ∃ w, code.Reaches 0 c u b w ∧ u.Keeps e w ∧ w.main = m' ∧
              ((∀ byte, Within (elementAt base k.isWide j) k.isWide byte → m' byte = u.main byte) →
                w.value k.isWide =
                  if i = j then v.value k.isWide
                      else Contents.get m (elementAt base k.isWide j) k.isWide))) := by
  refine ((storeIndexed_does h hx hd span).bind fun s₁ hs =>
    lowerIndex_does (h.stays hs) (hy.stays hs) head).mono ?_
  rintro code a b ⟨c, hstore, hload⟩ hapart v
  obtain ⟨i, m, hR, hstore⟩ := hstore hapart v
  refine ⟨i, m, hR, fun hi hilt => ?_⟩
  obtain ⟨u, hreaches, hkeeps, hset⟩ := hstore hi hilt
  refine ⟨c, u, hreaches, hkeeps, fun other hother => ?_, ?_⟩
  · rw [hset, Contents.set_of_not_within m _ _ _ hother]
  obtain ⟨j, m', hR', hload⟩ := hload u
  refine ⟨j, m', hR', fun hj hjlt => ?_⟩
  obtain ⟨w, hreaches', hkeeps', hmain, hvalue⟩ := hload hj hjlt
  refine ⟨w, hreaches', hkeeps', hmain, fun hkept => ?_⟩
  rw [hvalue, Contents.get_congr hkept, hset]
  by_cases heq : i = j
  · subst heq
    rw [if_pos rfl, Contents.get_set]
    intro hnarrow
    rw [hnarrow]
    exact View.value_narrow_lt v
  · rw [if_neg heq]
    exact Contents.get_set_of_apart m _ _ _ (elements_apart h.fits hi hilt hj hjlt heq)

end

/-! ## Literals and variables as indices -/

/-- An integer literal of its type is the index that is written. -/
theorem literal_indexes {h : ExprHead} {v : Literal} {length : UInt16} (htag : h.tag = 0)
    (hinteger : h.type.kind.isInteger = true) (hscalar : h.type.isArray = false)
    (hvalue : Conversion.valueOfBits (v.bits h.type.kind).1 h.type.kind = v.int.toInt)
    (hlow : 0 ≤ v.int.toInt) (hhigh : v.int.toInt < length.toNat) :
    Indexes p s (part (.literal h v)) length 0 fun m i m' => m' = m ∧ i = v.int.toInt := by
  have hliteral : (Expr.literal h v).literal? = some v := by simp [Expr.literal?, htag]
  exact ⟨rfl, hinteger, hscalar, v, hliteral, hvalue, hlow, hhigh, fun _ => ⟨rfl, rfl⟩⟩

/-- A variable behind the stack page is an index. -/
theorem variable_indexes {h : ExprHead} {id : SymbolId} {sym : Symbol} {k : Kind}
    {address length : UInt16}
    (hinteger : k.isInteger = true) (htype : h.type = .scalar k) (hsymbol : p.symbol? id = some sym)
    (hsym : sym.type = .scalar k) (hlookup : s.constants.lookup id = none)
    (haddress : s.allocator.lookup? id = some address) (habove : mainBase ≤ address.toNat)
    (hfits : address.toNat + width k.isWide ≤ 0x10000) :
    Indexes p s (part (.var h id)) length 0 fun m i m' =>
      m' = m ∧ i = Conversion.valueOfBits (Contents.get m address k.isWide) k := by
  have hpart : (part (.var h id)).type = .scalar k := htype
  have hunknown : constantOf? s.constants (part (.var h id)).expr = none := hlookup
  have hscalar : sym.type.isArray = false := by rw [hsym]; rfl
  have hwide : sym.type.isWide = k.isWide := by rw [hsym]; rfl
  refine ⟨rfl, by rw [hpart]; exact hinteger, by rw [hpart]; rfl, ?_⟩
  rw [hunknown]
  intro s' hs
  have hperform :=
    perform_lowerValue_variable (s := s') (h := h) (by rw [hs.constants, hlookup]) hsymbol hscalar
    (hs.allocator.lookup? haddress)
  rw [hwide] at hperform
  refine Does.after hperform (.refl s')
    ((load_does address k.isWide).mono fun code a b hload v => ?_)
  obtain ⟨w, hpath, hw⟩ := hload v
  refine ⟨w, hpath.reaches, hpath.frame.keeps, hpath.frame.main, ?_⟩
  rw [hpart, ← View.stored_main v _ habove hfits, ← hw]
  rfl

/-- A program with a byte and an array of three bytes. -/
def threeBytes : Program :=
  { symbols := .of [{ name := Text.bytesOf "i", type := .u8 },
    { name := Text.bytesOf "b", type := .array .u8 3 }] }

/-- The state in which the byte and the array behind it have their addresses. -/
def threeBytesPlaced : Emission :=
  { workspace := { target := .c64 }
    allocator := { Allocator.ofTarget .c64 with slots := #[⟨1, [], 0xC000, 1⟩, ⟨2, [], 0xC001, 3⟩] }
    reports := .filtering (.ofLimit 0) }

theorem threeBytes_stored_loaded : Does
    (storeThenLoad 2 (part (.literal { type := .u8 } { int := 1 }))
      (part (.var { type := .u8 } 1)) .none {})
    threeBytes threeBytesPlaced fun code a b => Apart code 0xC001 3 → ∀ v : View,
      v.main 0xC000 = 1 →
      ∃ w, code.Reaches 0 a v b w ∧ w.a = v.a := by
  have harray : ArrayAt threeBytes threeBytesPlaced 2 .u8 3 0xC001 :=
    ⟨⟨_, rfl, rfl⟩, by decide, rfl, by decide, by decide⟩
  have haddress : threeBytesPlaced.allocator.lookup? 1 = some 0xC000 := rfl
  have hvariable :
      Indexes threeBytes threeBytesPlaced (part (.var { type := .u8 } 1)) 3 0 fun m j m' =>
      m' = m ∧ j = Conversion.valueOfBits (Contents.get m 0xC000 false) .u8 :=
    variable_indexes (k := .u8) rfl rfl rfl rfl rfl haddress (by decide) (by decide)
  refine (stored_element_loaded harray
    (literal_indexes rfl rfl rfl (by decide) (by decide) (by decide)) hvariable
    (by decide) .none {}).mono ?_
  intro code a b hdeed hapart v hindex
  obtain ⟨i, m, ⟨rfl, rfl⟩, hstored⟩ := hdeed hapart v
  obtain ⟨c, u, hreaches, -, hkept, j, m', ⟨rfl, rfl⟩, hloaded⟩ := hstored (by decide) (by decide)
  have hone : Conversion.valueOfBits (Contents.get u.main 0xC000 false) .u8 = 1 := by
    rw [Contents.get, hkept 0xC000 (by simp [Within, elementAt, width]; decide), hindex]
    rfl
  rw [hone] at hloaded
  obtain ⟨w, hlast, -, -, hvalue⟩ := hloaded (by decide) (by decide)
  have hsame := hvalue fun _ _ => rfl
  rw [if_pos (by decide)] at hsame
  have hbyte := congrArg UInt16.toUInt8 hsame
  rw [View.toUInt8_value, View.toUInt8_value] at hbyte
  exact ⟨w, hreaches.andThen hlast, hbyte⟩

end Breadbin.Lowering
