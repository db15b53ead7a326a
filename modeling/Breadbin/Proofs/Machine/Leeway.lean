import Breadbin.Proofs.Machine.Conduct

/-!
# What a routine may do without further thought

Most lines of a routine read something, change registers and store where the routine may store.
`Conduct.permits` is a test for such lines.  A condition that rests on index registers and on slots
survives them if they leave these alone; the test asks for that too.
-/

namespace Breadbin.Machine

open Assembly

/-- The index registers and the slots that a condition rests on. -/
structure Footing where
  x : Bool := false
  y : Bool := false
  slots : List UInt8 := []

/-- Two views are the same in what a condition rests on. -/
structure View.Agrees (r : Footing) (v w : View) : Prop where
  x : r.x = true → w.x = v.x
  y : r.y = true → w.y = v.y
  zp : ∀ z ∈ r.slots, w.zp z = v.zp z

theorem View.Agrees.refl (r : Footing) (v : View) : v.Agrees r v :=
  ⟨fun _ => rfl, fun _ => rfl, fun _ _ => rfl⟩

theorem View.Agrees.trans {r : Footing} {u v w : View} (h : u.Agrees r v)
    (h' : v.Agrees r w) : u.Agrees r w :=
  ⟨fun hx => (h'.x hx).trans (h.x hx), fun hy => (h'.y hy).trans (h.y hy),
    fun z hz => (h'.zp z hz).trans (h.zp z hz)⟩

/-- Whether an operand can be read. -/
def readable : Arg → Bool
  | .immediate _ | .lowByte _ | .highByte _ | .zeroPage _ | .absolute
      _ | .absoluteX _ | .absoluteY _
  | .indirectY _ => true
  | _ => false

namespace Conduct

/-- Whether X may be set. -/
def setsX (M : Conduct) (r : Footing) : Bool := !M.keepsX && !r.x

/-- Whether Y may be set. -/
def setsY (M : Conduct) (r : Footing) : Bool := !M.keepsY && !r.y

/-- Whether a slot may be stored into. -/
def opens (M : Conduct) (r : Footing) (z : UInt8) : Bool :=
  M.slots.contains z && !r.slots.contains z

/-- Whether all of some addresses may be stored into. -/
def ownsRange (M : Conduct) (first size : Nat) : Bool :=
  M.areas.any fun area => area.1 ≤ first && first + size ≤ area.1 + area.2

def permitsStore (M : Conduct) (r : Footing) : Arg → Bool
  | .zeroPage z => M.opens r z
  | .absolute ref => !ref.isLabel && M.ownsRange ref.address.toNat 1
  | .absoluteY ref =>
    !ref.isLabel && ref.address.toNat ≤ 0xFF00 && M.ownsRange ref.address.toNat 256
  | _ => false

def permitsChange (M : Conduct) (r : Footing) : Arg → Bool
  | .accumulator => true
  | .zeroPage z => M.opens r z
  | _ => false

/-- Whether a line does no more than the routine may do, and leaves a footing alone. -/
def permits (M : Conduct) (r : Footing) : Line → Bool
  | .instr mn arg =>
    match mn with
    | .lda | .adc | .sbc | .and | .ora | .eor | .cmp | .cpx | .cpy => readable arg
    | .ldx => readable arg && M.setsX r
    | .ldy => readable arg && M.setsY r
    | .tax | .inx | .dex => M.setsX r
    | .tay | .iny | .dey => M.setsY r
    | .sta | .stx | .sty => M.permitsStore r arg
    | .inc | .dec | .asl | .lsr | .rol | .ror => M.permitsChange r arg
    | .txa | .tya | .clc | .sec => true
    | _ => false
  | _ => false

variable {M : Conduct} {code : LinkedCode} {r : Footing} {a b k : Nat} {u v v' : View}
  {mn : Mnemonic} {arg : Arg}

theorem opens_iff {z : UInt8} : M.opens r z = true ↔ z ∈ M.slots ∧ z ∉ r.slots := by
  simp [opens]

theorem owns_of_ownsRange {first size i : Nat} (h : M.ownsRange first size = true) (hi : i < size)
    {address : UInt16} (ha : address.toNat = first + i) : M.Owns address := by
  obtain ⟨area, harea, hin⟩ := List.any_eq_true.1 h
  simp only [Bool.and_eq_true, decide_eq_true_eq] at hin
  exact ⟨area, harea, by omega, by omega⟩

/-- A view that differs in a slot, the accumulator and the flags. -/
theorem Keeps.store {w : View} {z n : UInt8} (h : M.Keeps k u v) (hz : M.opens r z = true)
    (hzp : w.zp = Function.update v.zp z n) (hsp : w.sp = v.sp) (hstack : w.stack = v.stack)
    (hmain : w.main = v.main)
    (hchrout : w.chrout = v.chrout) (hplot : w.plot = v.plot) (hx : w.x = v.x) (hy : w.y = v.y) :
    M.Keeps k u w ∧ v.Agrees r w := by
  obtain ⟨hslot, hrest⟩ := opens_iff.1 hz
  have hother {i : UInt8} (hi : i ≠ z) : w.zp i = v.zp i := by
    rw [hzp]
    exact Function.update_of_ne hi _ _
  refine ⟨h.change hsp hstack hmain hchrout hplot (fun i hi => hother ?_) (fun _ => hx) fun _ => hy,
    fun _ => hx, fun _ => hy, fun i hi => hother ?_⟩
  · rintro rfl
    exact hi hslot
  · rintro rfl
    exact hrest hi

/-- A view that differs in the accumulator and the flags. -/
theorem Keeps.calm {w : View} (h : M.Keeps k u v) (hsp : w.sp = v.sp) (hstack : w.stack = v.stack)
    (hmain : w.main = v.main)
    (hchrout : w.chrout = v.chrout) (hplot : w.plot = v.plot) (hzp : w.zp = v.zp)
    (hx : w.x = v.x ∨ M.setsX r = true) (hy : w.y = v.y ∨ M.setsY r = true) :
    M.Keeps k u w ∧ v.Agrees r w := by
  refine ⟨h.change hsp hstack hmain hchrout
    hplot (fun i _ => by rw [hzp]) (fun hk => ?_) (fun hk => ?_),
    fun hk => ?_, fun hk => ?_, fun i _ => by rw [hzp]⟩
  · exact hx.resolve_right (by simp [setsX, hk])
  · exact hy.resolve_right (by simp [setsY, hk])
  · exact hx.resolve_right (by simp [setsX, hk])
  · exact hy.resolve_right (by simp [setsY, hk])

/-- A line that reads keeps what has to be kept. -/
theorem Keeps.takeIn {n : UInt8} (h : M.Keeps k u v) (hok : M.permits r (.instr mn arg) = true)
    (hexec : v.takeIn? n mn = some v') : M.Keeps k u v' ∧ v.Agrees r v' := by
  cases mn <;> simp only [View.takeIn?, Option.some.injEq, reduceCtorEq] at hexec <;> subst hexec
  case ldx =>
    simp only [permits, Bool.and_eq_true] at hok
    exact h.calm rfl rfl rfl rfl rfl rfl (.inr hok.2) (.inl rfl)
  case ldy =>
    simp only [permits, Bool.and_eq_true] at hok
    exact h.calm rfl rfl rfl rfl rfl rfl (.inl rfl) (.inr hok.2)
  all_goals exact h.calm rfl rfl rfl rfl rfl rfl (.inl rfl) (.inl rfl)

/-- A line that is executed keeps what has to be kept. -/
theorem Keeps.exec (h : M.Keeps k u v) (hok : M.permits r (.instr mn arg) = true)
    (hexec : v.exec mn arg = some v') : M.Keeps k u v' ∧ v.Agrees r v' := by
  cases mn <;> simp only [View.exec, Option.map_eq_some_iff, reduceCtorEq] at hexec
  case pha | pla => cases hok
  case sta | stx | sty =>
    cases arg <;> cases hexec
    exact h.store hok rfl rfl rfl rfl rfl rfl rfl rfl
  case inc | dec | asl | lsr | rol | ror =>
    cases arg <;> cases hexec
    · exact h.calm rfl rfl rfl rfl rfl rfl (.inl rfl) (.inl rfl)
    · exact h.store hok rfl rfl rfl rfl rfl rfl rfl rfl
  case tax | inx | dex =>
    cases hexec
    exact h.calm rfl rfl rfl rfl rfl rfl (.inr hok) (.inl rfl)
  case tay | iny | dey =>
    cases hexec
    exact h.calm rfl rfl rfl rfl rfl rfl (.inl rfl) (.inr hok)
  case txa | tya | clc | sec =>
    cases hexec
    exact h.calm rfl rfl rfl rfl rfl rfl (.inl rfl) (.inl rfl)
  case ldx =>
    obtain ⟨n, -, rfl⟩ := hexec
    simp only [permits, Bool.and_eq_true] at hok
    exact h.calm rfl rfl rfl rfl rfl rfl (.inr hok.2) (.inl rfl)
  case ldy =>
    obtain ⟨n, -, rfl⟩ := hexec
    simp only [permits, Bool.and_eq_true] at hok
    exact h.calm rfl rfl rfl rfl rfl rfl (.inl rfl) (.inr hok.2)
  all_goals
    obtain ⟨n, -, rfl⟩ := hexec
    exact h.calm rfl rfl rfl rfl rfl rfl (.inl rfl) (.inl rfl)

/-- A store that is permitted. -/
theorem Keeps.giveOut {n : UInt8} (h : M.Keeps k u v) (hok : M.permitsStore r arg = true)
    (hn : v.giveOut? mn = some n) (hfits : M.Fits code)
    (hline : code.Installed a [.instr mn arg] b) :
    ∃ v', code.Reaches 1 a v b v' ∧ M.Keeps k u v' ∧ v.Agrees r v' := by
  have hpoke {address : UInt16} (haddress : code.address? v arg = some address)
      (hown : M.Owns address) :
      ∃ v', code.Reaches 1 a v b v' ∧ M.Keeps k u v' ∧ v.Agrees r v' := by
    obtain ⟨hmain, hfree⟩ := hfits address hown
    exact ⟨_, hline.giveOut hn haddress hmain hfree, h.poke hown n,
      ⟨fun _ => rfl, fun _ => rfl, fun _ _ => rfl⟩⟩
  cases arg with
  | zeroPage z =>
    have hexec : v.exec mn (.zeroPage z) = some (v.store z n) := by
      cases mn <;> cases hn <;> rfl
    exact ⟨_, hline.exec hexec, h.store hok rfl rfl rfl rfl rfl rfl rfl rfl⟩
  | absolute ref =>
    simp only [permitsStore, Bool.and_eq_true, Bool.not_eq_true'] at hok
    refine hpoke rfl (owns_of_ownsRange hok.2 Nat.zero_lt_one ?_)
    simp [Addresses.of, hok.1]
  | absoluteY ref =>
    simp only [permitsStore, Bool.and_eq_true, Bool.not_eq_true', decide_eq_true_eq] at hok
    obtain ⟨⟨hlabel, hhigh⟩, hrange⟩ := hok
    refine hpoke rfl (owns_of_ownsRange hrange v.y.toNat_lt ?_)
    have := v.y.toNat_lt
    simp [Addresses.of, hlabel]
    omega
  | _ => cases hok

theorem value?_of_readable (h : readable arg = true) (code : LinkedCode) (v : View) :
    ∃ n, code.value? v arg = some n := by
  cases arg <;> first | cases h; done | exact ⟨_, rfl⟩

/-- **A permitted line goes on with the next one** and keeps what has to be kept. -/
theorem Keeps.permitted {line : Line} (h : M.Keeps k u v) (hok : M.permits r line = true)
    (hfits : M.Fits code) (hline : code.Installed a [line] b) :
    ∃ v', code.Reaches 1 a v b v' ∧ M.Keeps k u v' ∧ v.Agrees r v' := by
  cases line with
  | instr mn arg =>
    have hread (hreads : readable arg = true) (htake : ∀ n, ∃ v', v.takeIn? n mn = some v') :
        ∃ v', code.Reaches 1 a v b v' ∧ M.Keeps k u v' ∧ v.Agrees r v' := by
      obtain ⟨n, hn⟩ := value?_of_readable hreads code v
      obtain ⟨v', hv'⟩ := htake n
      exact ⟨v', hline.takeIn hn hv', h.takeIn hok hv'⟩
    have hexec {v' : View} (hv' : v.exec mn arg = some v') :
        ∃ v', code.Reaches 1 a v b v' ∧ M.Keeps k u v' ∧ v.Agrees r v' :=
      ⟨v', hline.exec hv', h.exec hok hv'⟩
    cases mn <;> try cases hok; done
    case lda | adc | sbc | and | ora | eor | cmp | cpx | cpy => exact hread hok fun n => ⟨_, rfl⟩
    case ldx | ldy =>
      have hreads : readable arg = true := by
        simp only [permits, Bool.and_eq_true] at hok
        exact hok.1
      exact hread hreads fun n => ⟨_, rfl⟩
    case tax | tay | txa | tya | inx | iny | dex | dey | clc | sec => exact hexec rfl
    case sta | stx | sty => exact h.giveOut hok rfl hfits hline
    case inc | dec | asl | lsr | rol | ror =>
      cases arg <;> first | cases hok; done | exact hexec rfl
  | _ => cases hok

/-- Permitted lines in a row. -/
theorem Keeps.permittedAll {ls : List Line} (h : M.Keeps k u v) (hok : ls.all (M.permits r) = true)
    (hfits : M.Fits code) (hls : code.Installed a ls b) :
    ∃ v', code.Reaches 0 a v b v' ∧ M.Keeps k u v' ∧ v.Agrees r v' := by
  induction ls generalizing a v with
  | nil =>
    obtain rfl := hls.nil
    exact ⟨v, .refl _ _ _, h, .refl r v⟩
  | cons line ls ih =>
    obtain ⟨m, hline, hrest⟩ := hls.cons
    simp only [List.all_cons, Bool.and_eq_true] at hok
    obtain ⟨v₁, h₁, hv₁, hagrees₁⟩ := h.permitted hok.1 hfits hline
    obtain ⟨v₂, h₂, hv₂, hagrees₂⟩ := ih hv₁ hok.2 hrest
    exact ⟨v₂, h₁.andThen h₂, hv₂, hagrees₁.trans hagrees₂⟩

/-- Permitted lines in a row, executed. -/
theorem Keeps.execAll {ls : List Line} (h : M.Keeps k u v) (hok : ls.all (M.permits r) = true)
    (hexec : LinkedCode.execAll v ls = some v') : M.Keeps k u v' ∧ v.Agrees r v' := by
  induction ls generalizing v with
  | nil =>
    obtain rfl := Option.some.inj hexec
    exact ⟨h, .refl r v⟩
  | cons line ls ih =>
    simp only [List.all_cons, Bool.and_eq_true] at hok
    cases line with
    | instr mn arg =>
      obtain ⟨w, hw, hrest⟩ := Option.bind_eq_some_iff.1 hexec
      obtain ⟨hkeeps, hagrees⟩ := h.exec hok.1 hw
      obtain ⟨hkeeps', hagrees'⟩ := ih hkeeps hok.2 hrest
      exact ⟨hkeeps', hagrees.trans hagrees'⟩
    | _ => cases hexec

end Conduct

end Breadbin.Machine
