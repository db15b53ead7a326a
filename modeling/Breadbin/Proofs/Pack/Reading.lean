import Breadbin.Pack.Reader
import Breadbin.Pack.Writer
import Breadbin.Proofs.Text.Petscii
import Mathlib.Tactic.Ring
import Mathlib.Tactic.SplitIfs

/-!
# Packed values are read back

A reader reads a value from some bytes if it takes exactly these bytes, whatever follows them, and
fails on every part of them that breaks off early.  Both pass from the parts of a value to the
whole, so a record is read back when its fields are.
-/

namespace Breadbin.Unpack

variable {α β : Type} {r : Reader α} {a : α} {bs cs : Bytes}

/-- The reader takes these bytes, and no fewer, for the value. -/
structure Reads (r : Reader α) (bs : Bytes) (a : α) : Prop where
  whole : ∀ rest, r.run (bs ++ rest) = .ok (a, rest)
  short : ∀ front back, front ++ back = bs → back ≠ [] → ∃ e, r.run front = .error e

namespace Reads

theorem pure (a : α) : Reads (Pure.pure a) [] a where
  whole _ := rfl
  short _ _ happend hback := absurd (List.append_eq_nil_iff.1 happend).2 hback

theorem bind {f : α → Reader β} {b : β} (h : Reads r bs a) (hf : Reads (f a) cs b) :
    Reads (r >>= f) (bs ++ cs) b where
  whole rest := by
    rw [StateT.run_bind, List.append_assoc, h.whole]
    exact hf.whole rest
  short front back happend hback := by
    rw [StateT.run_bind]
    rcases List.append_eq_append_iff.1 happend with ⟨m, hbs, hrest⟩ | ⟨m, hfront, hcs⟩
    · cases m with
      | nil =>
        -- the first value is whole and the second has not begun
        rw [List.append_nil] at hbs
        obtain ⟨e, he⟩ := hf.short [] cs rfl (by simpa [hrest] using hback)
        have hwhole := h.whole []
        rw [List.append_nil, hbs] at hwhole
        rw [hwhole]
        exact ⟨e, he⟩
      | cons b m =>
        obtain ⟨e, he⟩ := h.short front (b :: m) hbs.symm (List.cons_ne_nil _ _)
        rw [he]
        exact ⟨e, rfl⟩
    · obtain ⟨e, he⟩ := hf.short m back hcs.symm hback
      rw [hfront, h.whole]
      exact ⟨e, he⟩

/-- A value that is changed after it was read. -/
theorem map {g : α → β} (h : Reads r bs a) : Reads (r >>= fun x => Pure.pure (g x)) bs (g a) := by
  have hpure := h.bind (f := fun x => Pure.pure (g x)) (Reads.pure (g a))
  rwa [List.append_nil] at hpure

/-- A reader that begins with one that takes nothing. -/
theorem bind_left {f : α → Reader β} {b : β} (h : Reads r [] a) (hf : Reads (f a) cs b) :
    Reads (r >>= f) cs b := h.bind hf

/-- A front part of bytes that are not begun is empty. -/
theorem front_eq_nil {front back : Bytes} {c : UInt8} (happend : front ++ back = [c])
    (hback : back ≠ []) :
    front = [] := by
  cases front with
  | nil => rfl
  | cons b front =>
    rw [List.cons_append, List.cons.injEq, List.append_eq_nil_iff] at happend
    exact absurd happend.2.2 hback

theorem code (c : UInt8) : Reads code [c] c where
  whole _ := rfl
  short front back happend hback := by
    rw [front_eq_nil happend hback]
    exact ⟨.ended, rfl⟩

theorem run_take (n : Nat) (input : Bytes) : (Unpack.take n).run input =
    if n = 0 then .ok ([], input)
    else if input.isEmpty = true then .error .ended
    else if (input.take n).length < n then .error .cut
    else .ok (input.take n, input.drop n) := by
  show (if n = 0 then Pure.pure [] else if input.isEmpty = true then throw .ended
    else if (input.take n).length < n then throw .cut
    else do
      set (input.drop n)
      Pure.pure (input.take n) : Reader Bytes).run input = _
  split_ifs <;> rfl

theorem take (bs : Bytes) : Reads (take bs.length) bs bs where
  whole rest := by
    rw [run_take]
    by_cases hn : bs.length = 0
    · rw [if_pos hn, List.length_eq_zero_iff.1 hn]
      rfl
    · have hne : ¬ (bs ++ rest).isEmpty = true := by
        rw [List.isEmpty_iff, List.append_eq_nil_iff, ← List.length_eq_zero_iff]
        exact fun h => hn h.1
      rw [if_neg hn, if_neg hne, List.take_left, if_neg (Nat.lt_irrefl _), List.drop_left]
  short front back happend hback := by
    have hlength := congrArg List.length happend
    have hpos := List.length_pos_iff.2 hback
    rw [List.length_append] at hlength
    rw [run_take, if_neg (by omega)]
    by_cases hempty : front.isEmpty = true
    · exact ⟨.ended, if_pos hempty⟩
    · have hcut : (front.take bs.length).length < bs.length := by
        rw [List.length_take]
        omega
      rw [if_neg hempty, if_pos hcut]
      exact ⟨.cut, rfl⟩

/-! ## Numbers -/

theorem length_bigEndian (width n : Nat) : (Pack.bigEndian width n).length = width := by
  induction width with
  | zero => rfl
  | succ w ih => rw [Pack.bigEndian, List.length_cons, ih]

theorem ofBigEndian_bigEndian {width n : Nat} (h : n < 256 ^ width) :
    ofBigEndian (Pack.bigEndian width n) = n := by
  have hfold : ∀ (w n start : Nat),
      (Pack.bigEndian w n).foldl (fun k b => 256 * k + b.toNat) start =
      start * 256 ^ w + n % 256 ^ w := by
    intro w
    induction w with
    | zero => simp [Pack.bigEndian, Nat.mod_one]
    | succ w ih =>
      intro n start
      have hdigit : (UInt8.ofNat (n / Nat.pow 256 w)).toNat = n / 256 ^ w % 256 :=
        UInt8.toNat_ofNat'
      have hmod : n % 256 ^ (w + 1) = n / 256 ^ w % 256 * 256 ^ w + n % 256 ^ w := by
        rw [Nat.pow_succ, Nat.mod_mul, Nat.mul_comm, Nat.add_comm]
      rw [Pack.bigEndian, List.foldl_cons, ih, hdigit, hmod]
      ring
  unfold ofBigEndian
  rw [hfold, Nat.zero_mul, Nat.zero_add, Nat.mod_eq_of_lt h]

theorem natural {width n : Nat} (h : n < 256 ^ width) :
    Reads (natural width) (Pack.bigEndian width n) n := by
  have htake := take (Pack.bigEndian width n)
  rw [length_bigEndian] at htake
  have hnumber := htake.map (g := ofBigEndian)
  rwa [ofBigEndian_bigEndian h] at hnumber

theorem byte (x : UInt8) : Reads byte (Pack.byte x) x := by
  have hnumber : Reads (integerAfter .unsigned 0xCC) (Pack.bigEndian 1 x.toNat) (x.toNat : Int) :=
    (natural x.toNat_lt).map
  have hread := ((code 0xCC).bind (f := integerAfter .unsigned) hnumber).map (g := UInt8.ofInt)
  have hvalue : UInt8.ofInt (x.toNat : Int) = x := by
    have hlt := x.toNat_lt
    apply UInt8.toNat_inj.1
    rw [UInt8.ofInt, UInt8.toNat_ofNat']
    omega
  have hbytes : Pack.byte x = [0xCC] ++ Pack.bigEndian 1 x.toNat := by
    simp [Pack.byte, Pack.bigEndian]
  rw [hvalue] at hread
  exact hbytes ▸ hread

theorem word (x : UInt16) : Reads word (Pack.word x) x := by
  have hnumber : Reads (integerAfter .unsigned 0xCD) (Pack.bigEndian 2 x.toNat) (x.toNat : Int) :=
    (natural x.toNat_lt).map
  have hread := ((code 0xCD).bind (f := integerAfter .unsigned) hnumber).map (g := UInt16.ofInt)
  have hvalue : UInt16.ofInt (x.toNat : Int) = x := by
    have hlt := x.toNat_lt
    apply UInt16.toNat_inj.1
    rw [UInt16.ofInt, UInt16.toNat_ofNat']
    omega
  rw [hvalue] at hread
  exact hread

theorem long (x : UInt32) : Reads long (Pack.long x) x := by
  have hnumber : Reads (integerAfter .unsigned 0xCE) (Pack.bigEndian 4 x.toNat) (x.toNat : Int) :=
    (natural x.toNat_lt).map
  have hread := ((code 0xCE).bind (f := integerAfter .unsigned) hnumber).map (g := UInt32.ofInt)
  have hvalue : UInt32.ofInt (x.toNat : Int) = x := by
    have hlt := x.toNat_lt
    apply UInt32.toNat_inj.1
    rw [UInt32.ofInt, UInt32.toNat_ofNat']
    omega
  rw [hvalue] at hread
  exact hread

theorem signed (x : Int64) : Reads signed (Pack.signed x) x := by
  have hnumber : Reads (integerAfter .signed 0xD3) (Pack.bigEndian 8 x.toUInt64.toNat)
      (signExtended 8 x.toUInt64.toNat) := (natural x.toUInt64.toNat_lt).map
  have hread := (code 0xD3).bind (f := fun c => do return Int64.ofInt (← integerAfter .signed c))
    hnumber.map
  have hvalue : Int64.ofInt (signExtended 8 x.toUInt64.toNat) = x := by
    have hint : signExtended 8 x.toUInt64.toNat = x.toInt :=
      (BitVec.toInt_eq_toNat_bmod x.toBitVec).symm
    rw [hint, Int64.ofInt_toInt]
  rw [hvalue] at hread
  exact hread

theorem double (x : Numeric.Double) : Reads double (Pack.double x) x := by
  have hbits : Reads (Unpack.natural 8) (Pack.bigEndian 8 x.bits.toNat) x.bits.toNat :=
    natural x.bits.toNat_lt
  have hnumber := hbits.map (g := fun n => (⟨UInt64.ofNat n⟩ : Numeric.Double))
  rw [UInt64.ofNat_toNat] at hnumber
  exact (code 0xCB).bind hnumber

theorem bool (b : Bool) : Reads bool (Pack.bool b) b := by
  cases b with
  | false => exact (code 0xC2).bind (pure false)
  | true => exact (code 0xC3).bind (pure true)

/-! ## Texts and lists -/

/-- A code that counts from the least one of its range on. -/
theorem toNat_code (least : Nat) {n bound : Nat} (hn : n < bound) (hbound : least + bound ≤ 256) :
    (UInt8.ofNat (least + n)).toNat = least + n := by
  rw [UInt8.toNat_ofNat', Nat.mod_eq_of_lt (by omega)]

theorem textLength {n : Nat} (h : n < 256 ^ 4) :
    ∃ c digits, Pack.textHead n = c :: digits ∧ Reads (Unpack.textLength c) digits (some n) := by
  unfold Pack.textHead
  split_ifs with h32 h256 h65536
  · refine ⟨_, _, rfl, ?_⟩
    have hcode := toNat_code 0xA0 h32 (by decide)
    generalize UInt8.ofNat (0xA0 + n) = c at hcode
    have hlow : 0xA0 ≤ c := UInt8.le_iff_toNat_le.2 (by rw [hcode]; exact Nat.le_add_right _ _)
    have hhigh : c < 0xC0 :=
      UInt8.lt_iff_toNat_lt.2 (by rw [hcode]; exact Nat.add_lt_add_left h32 _)
    have hnil : c ≠ 0xC0 := UInt8.ne_of_lt hhigh
    have hread : Unpack.textLength c = Pure.pure (some n) := by
      unfold Unpack.textLength
      rw [if_neg hnil, if_pos ⟨hlow, hhigh⟩, hcode, Nat.add_sub_cancel_left]
    rw [hread]
    exact pure _
  · exact ⟨_, _, rfl, (natural h256).map⟩
  · exact ⟨_, _, rfl, (natural h65536).map⟩
  · exact ⟨_, _, rfl, (natural h).map⟩

theorem bytes? {s : Bytes} (h : s.length < 256 ^ 4) : Reads bytes? (Pack.text s) (some s) := by
  obtain ⟨c, digits, hhead, hlength⟩ := textLength h
  rw [Pack.text, hhead]
  unfold Unpack.bytes?
  exact (code c).bind (hlength.bind (take s).map)

theorem text {s : Bytes} (h : s.length < 256 ^ 4) : Reads text (Pack.text s) s := (bytes? h).map

theorem bytesLength {n : Nat} (h : n < 256 ^ 4) :
    ∃ c digits, Pack.bytesHead n = c :: digits ∧ Reads (Unpack.textLength c) digits (some n) := by
  unfold Pack.bytesHead
  split_ifs with h256 h65536
  · exact ⟨_, _, rfl, (natural h256).map⟩
  · exact ⟨_, _, rfl, (natural h65536).map⟩
  · exact ⟨_, _, rfl, (natural h).map⟩

/-- A run of bytes is read like a text. -/
theorem run {s : Bytes} (h : s.length < 256 ^ 4) : Reads Unpack.bytes? (Pack.bytes s) (some s) := by
  obtain ⟨c, digits, hhead, hlength⟩ := bytesLength h
  rw [Pack.bytes, hhead]
  unfold Unpack.bytes?
  exact (code c).bind (hlength.bind (take s).map)

theorem noBytes : Reads Unpack.bytes? Pack.nil none := (code 0xC0).bind (pure none)

theorem listLength {n : Nat} (h : n < 256 ^ 4) :
    ∃ c digits, Pack.listHead n = c :: digits ∧ Reads (Unpack.listLength c) digits (some n) := by
  unfold Pack.listHead
  split_ifs with h16 h65536
  · refine ⟨_, _, rfl, ?_⟩
    have hcode := toNat_code 0x90 h16 (by decide)
    generalize UInt8.ofNat (0x90 + n) = c at hcode
    have hlow : 0x90 ≤ c := UInt8.le_iff_toNat_le.2 (by rw [hcode]; exact Nat.le_add_right _ _)
    have hhigh : c < 0xA0 :=
      UInt8.lt_iff_toNat_lt.2 (by rw [hcode]; exact Nat.add_lt_add_left h16 _)
    have hnil : c ≠ 0xC0 := UInt8.ne_of_lt (UInt8.lt_trans hhigh (by decide))
    have hread : Unpack.listLength c = Pure.pure (some n) := by
      unfold Unpack.listLength
      rw [if_neg hnil, if_pos ⟨hlow, hhigh⟩, hcode, Nat.add_sub_cancel_left]
    rw [hread]
    exact pure _
  · exact ⟨_, _, rfl, (natural h65536).map⟩
  · exact ⟨_, _, rfl, (natural h).map⟩

theorem repeated {item : Reader α} {xs : List α} {packed : List Bytes}
    (h : List.Forall₂ (Reads item) packed xs) :
    Reads (repeated item xs.length) packed.flatten xs := by
  induction h with
  | nil => exact pure []
  | cons hitem _ ih => exact hitem.bind ih.map

/-- A list is read back when its items are. -/
theorem list? {item : Reader α} {xs : List α} {packed : List Bytes}
    (h : List.Forall₂ (Reads item) packed xs) (hlength : xs.length < 256 ^ 4) :
    Reads (list? item) (Pack.listHead xs.length ++ packed.flatten) (some xs) := by
  obtain ⟨c, digits, hhead, hcount⟩ := listLength hlength
  rw [hhead]
  unfold Unpack.list?
  exact (code c).bind (hcount.bind (repeated h).map)

theorem noList (item : Reader α) : Reads (Unpack.list? item) Pack.nil none :=
  (code 0xC0).bind (pure none)

/-! ## What may be absent -/

theorem run_orAbsent_of_ne {value : Reader α} (absent : α) {c : UInt8}
    (hc : c ≠ 0xC0) (input : Bytes) :
    (Unpack.orAbsent absent value).run (c :: input) = value.run (c :: input) := by
  unfold Unpack.orAbsent
  rw [StateT.run_bind, StateT.run_get]
  simp only [pure_bind]
  split
  next heq =>
    rw [List.cons.injEq] at heq
    exact absurd heq.1 hc
  next => rfl

theorem orAbsent_nil (absent : α) {value : Reader α} (hempty : ∃ e, value.run [] = .error e) :
    Reads (Unpack.orAbsent absent value) Pack.nil absent where
  whole _ := rfl
  short front back happend hback := by
    rw [front_eq_nil happend hback]
    exact hempty

theorem orAbsent {value : Reader α} (absent : α) {c : UInt8} (hc : c ≠ 0xC0)
    (h : Reads value (c :: bs) a) : Reads (Unpack.orAbsent absent value) (c :: bs) a where
  whole rest := by
    rw [List.cons_append, run_orAbsent_of_ne absent hc]
    exact h.whole rest
  short front back happend hback := by
    cases front with
    | nil => exact h.short [] (c :: bs) rfl (List.cons_ne_nil _ _)
    | cons b front =>
      obtain ⟨rfl, -⟩ := List.cons.inj happend
      rw [run_orAbsent_of_ne absent hc]
      exact h.short _ back happend hback

/-! ## Records -/

/-- The fields of a record, of these names, are read one after the other. -/
inductive Steps : List String → Fields α → List (String × Bytes) → α → α → Prop where
  | nil {a : α} : Steps [] [] [] a a
  | cons {name : String} {update : α → Reader α} {bs : Bytes} {names : List String}
      {fields : Fields α}
      {packed : List (String × Bytes)} {a b c : α} (first : Reads (update a) bs b)
      (rest : Steps names fields packed b c) :
      Steps (name :: names) ((name, update) :: fields) ((name, bs) :: packed) a c

/-- The names of the fields of a record differ, and they and their number are small. -/
structure Distinct (names : List String) : Prop where
  nodup : names.Nodup
  short : ∀ name ∈ names, name.utf8ByteSize < 32
  few : names.length < 16

instance (names : List String) : Decidable (Distinct names) :=
  decidable_of_iff (names.Nodup ∧ (∀ name ∈ names, name.utf8ByteSize < 32) ∧ names.length < 16)
    ⟨fun h => ⟨h.1, h.2.1, h.2.2⟩, fun h => ⟨h.nodup, h.short, h.few⟩⟩

theorem Steps.length {names : List String} {fields : Fields α}
    {packed : List (String × Bytes)} {a b : α}
    (h : Steps names fields packed a b) : packed.length = names.length := by
  induction h with
  | nil => rfl
  | cons _ _ ih => rw [List.length_cons, List.length_cons, ih]

theorem namedFields {names : List String} {fields : Fields α} (before : Fields α)
    {packed : List (String × Bytes)}
    {a b : α} (h : Steps names fields packed a b) (hnodup : (before.map (·.1) ++ names).Nodup)
    (hshort : ∀ name ∈ names, name.utf8ByteSize < 32) :
    Reads (Unpack.namedFields (before ++ fields) packed.length a)
      (packed.flatMap fun (name, value) => Pack.text (Text.bytesOf name) ++ value) b := by
  induction h generalizing before with
  | nil => exact pure _
  | @cons name update bs names fields packed a b c first rest ih =>
    have hname : (Text.bytesOf name).length < 256 ^ 4 := by
      rw [Text.length_bytesOf]
      exact Nat.lt_trans (hshort name List.mem_cons_self) (by decide)
    have hfind : (before ++ (name, update) :: fields).find? (fun f =>
        Text.bytesOf f.1 == Text.bytesOf name) =
        some (name, update) := by
      rw [List.find?_append, List.find?_eq_none.2, Option.none_or, List.find?_cons_of_pos]
      · exact beq_self_eq_true _
      intro f hf hmatch
      refine (List.nodup_append.1 hnodup).2.2 f.1 (List.mem_map_of_mem hf) name
        List.mem_cons_self ?_
      exact Text.bytesOf_inj (beq_iff_eq.1 hmatch)
    have hmore : before ++ (name, update) :: fields = (before ++ [(name, update)]) ++ fields := by
      simp
    have hrest := ih (before ++ [(name, update)]) (by simpa using hnodup)
      fun other hother => hshort other (List.mem_cons_of_mem _ hother)
    rw [← hmore] at hrest
    rw [List.flatMap_cons, List.append_assoc]
    refine (text hname).bind ?_
    rw [hfind]
    exact first.bind hrest

/-- A record is read back when its fields are. -/
theorem record {zero : α} {names : List String} {fields : Fields α} {packed : List (String × Bytes)}
    (h : Steps names fields packed zero a) (hnames : Distinct names) :
    Reads (Unpack.record zero fields) (Pack.record packed) a := by
  have hfields := namedFields [] h hnames.nodup hnames.short
  have hfew : packed.length < 16 := h.length.symm ▸ hnames.few
  rw [List.nil_append] at hfields
  unfold Pack.record Pack.recordHead
  rw [if_pos hfew]
  have hcode := toNat_code 0x80 hfew (by decide)
  generalize UInt8.ofNat (0x80 + packed.length) = c at hcode
  have hlow : 0x80 ≤ c := UInt8.le_iff_toNat_le.2 (by rw [hcode]; exact Nat.le_add_right _ _)
  have hhigh : c < 0x90 := UInt8.lt_iff_toNat_lt.2 (by rw [hcode]; exact Nat.add_lt_add_left hfew _)
  have hnil : c ≠ 0xC0 := UInt8.ne_of_lt (UInt8.lt_trans hhigh (by decide))
  unfold Unpack.record
  refine (code c).bind ?_
  rw [if_neg hnil, if_pos ⟨hlow, hhigh⟩, hcode, Nat.add_sub_cancel_left]
  exact hfields

/-- What is made of a record that is read back. -/
theorem recordMap {zero : α} {names : List String} {fields : Fields α}
    {packed : List (String × Bytes)}
    {g : α → β} {b : β} (h : Steps names fields packed zero a)
    (hnames : Distinct names) (hb : g a = b) :
    Reads (Unpack.record zero fields >>= fun x => Pure.pure (g x)) (Pack.record packed) b :=
  hb ▸ (record h hnames).map

end Reads

end Breadbin.Unpack
