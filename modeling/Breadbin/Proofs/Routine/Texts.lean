import Mathlib.Data.List.TakeWhile
import Mathlib.Data.Nat.Digits.Defs
import Breadbin.Proofs.Compilation.Regions
import Breadbin.Proofs.Routine.Calculations
import Breadbin.Proofs.Routine.Digits
import Breadbin.Proofs.Routine.Parsing

/-!
# Texts on the processor

What a processor gets when it calls the routines that join strings, turn numbers into text and read
numbers from text.  A memory map is accepted with buffers on the stack page, and nobody looks where
a string lies that is read; where a routine stores over its return address or over the string,
something else comes of it.
-/

namespace Breadbin.Routine

open Assembly Machine Numeric ZeroPage Writer LinkedCode

/-! ## What is called -/

/-- The buffers of an accepted memory map are large enough. -/
theorem roomy_of_error? {t : Target} (h : t.error? = none) : Roomy t := by
  unfold Target.error? at h
  split at h
  · cases h
  split at h
  next hsome => exact absurd h (Option.some_ne_none _)
  next hnone =>
    have hbounds := (Target.regionError?_eq_none hnone).2
    split at h
    · cases h
    next htexts =>
      refine ⟨(hbounds _ (.tail _ (.tail _ (.head _)))).2, (hbounds _ (.tail _ (.head _))).2,
        Nat.not_lt.1 fun hless => htexts ?_⟩
      exact UInt16.lt_iff_toNat_lt.2 hless

/-- The routines that deal with texts, besides those that calculate. -/
def textual : List RoutineId :=
  [.stringConcat, .formatU16, .textOfU16, .textOfI16, .textOfFixed, .textOfFloat, .parseU16,
    .u16OfText, .i16OfText]

/-- On a machine with room such a routine and all it needs keep to their conducts. -/
theorem textual_conducted {t : Target} (ht : Roomy t) (ids : List RoutineId)
    (hids : ids ⊆ textual) :
    ∀ id ∈ ids, ∀ r, id.Needs r → Conducted t r := by
  have hclosed : ∀ id ∈ textual, ∀ r ∈ id.closure, r ∈ arithmetic ∨ r ∈ textual := by decide +kernel
  intro id hid r hr
  rcases hclosed id (hids hid) r (mem_closure_iff.2 hr) with hr | hr
  · exact arithmetic_conducted hr
  simp only [textual, List.mem_cons, List.not_mem_nil, or_false] at hr
  rcases hr with rfl | rfl | rfl | rfl | rfl | rfl | rfl | rfl | rfl
  exacts [stringConcat_conducted ht, formatU16_conducted ht, textOfU16_conducted ht,
    textOfI16_conducted ht, textOfFixed_conducted ht, textOfFloat_conducted, parseU16_conducted,
    u16OfText_conducted, i16OfText_conducted]

/-- A routine is linked at `$1000`, and wherever it is linked it relates the views before and after
a call. -/
def Provides (t : Target) (id : RoutineId) (p : Since) : Prop :=
  (∃ image, (stock t [id]).stream.link libraryOrigin = .ok image ∧ LiesLow image) ∧
    Serves t [id] id p

theorem provides {t : Target} (ht : t.error? = none) {id : RoutineId} {p : Since}
    (hid : id ∈ textual) (hstarts : ∀ v, starts t id v)
    (hends : ∀ u w, (conduct t id).called.Keeps 0 u w → ends t id u w → p u w) :
    Provides t id p := by
  have hconducted :=
    textual_conducted (roomy_of_error? ht) [id] (List.cons_subset.2 ⟨hid, List.nil_subset _⟩)
  have hroom : 2048 * ([id].flatMap RoutineId.closure).length ≤ 0x3000 := by
    rw [List.flatMap_singleton]
    exact (library_room id).1
  exact ⟨stock_links_low hconducted hroom,
    serves hconducted (List.mem_singleton_self id) hstarts hends⟩

/-- A processor that starts with a view but for the routine that it loads below `$4000`, and calls,
relates the views before and after the call. -/
def Runs (id : RoutineId) (v : View) (p : Since) : Prop :=
  ∃ image address, ∃ c c' : Cpu, ∃ w, (stock .c64 [id]).stream.link libraryOrigin = .ok image ∧
    image.lookup? id.name = some address ∧
    c.Carries image ∧ c.view.zp = v.zp ∧ c.call address 0 = (c', none) ∧ c'.Shows w ∧ p c.view w

theorem Provides.runs {id : RoutineId} {v : View} {p q : Since} (h : Provides .c64 id p)
    (hchrout : v.chrout = 0xFFD2) (hplot : v.plot = 0xFFF0)
    (hq : ∀ u w : View, u.zp = v.zp →
      (∀ address, 0x4000 ≤ address.toNat → u.main address = v.main address) → p u w → q u w) :
    Runs id v q := by
  obtain ⟨⟨image, hlink, hlies⟩, hserves⟩ := h
  obtain ⟨address, hlookup, hcalls⟩ := hserves libraryOrigin image hlink (hlies.apart _)
  have hcarries := loading_carries hlies hchrout hplot
  obtain ⟨n, c', w, hcall, hshows, hp⟩ := hcalls _ hcarries
  have hzp := zp_loading (v := v) hlies
  exact ⟨image, address, _, c', w, hlink, hlookup, hcarries, hzp, hcall 0 (.inl rfl), hshows,
    hq _ _ hzp (fun _ => main_loading hlies) hp⟩

/-- A text that lies behind the stack page. -/
theorem spells_main {v : View} {zs : List UInt8} {first : UInt16} {s : List UInt8}
    (hlow : mainBase ≤ first.toNat)
    (hhigh : first.toNat + s.length < 0x10000) (hlength : s.length ≤ 255) (hzero : 0 ∉ s)
    (hbytes : ∀ i ≤ s.length, v.main (first + UInt16.ofNat i) = s.getD i 0) :
    v.Spells zs first s := by
  refine ⟨hlength, hzero, fun i hi => .inr ⟨?_, hbytes i hi⟩⟩
  rw [UInt16.toNat_add, UInt16.toNat_ofNat']
  omega

/-- A text that has been put behind the stack page, with a zero behind it. -/
theorem spells_place {v : View} {zs : List UInt8} {m : Contents} {first : UInt16} {s : List UInt8}
    (hlow : mainBase ≤ first.toNat)
    (hhigh : first.toNat + s.length < 0x10000) (hlength : s.length ≤ 255) (hzero : 0 ∉ s)
    (hmain : ∀ address : UInt16, mainBase ≤ address.toNat →
      v.main address = m.place first.toNat (s ++ [0]) address) :
    v.Spells zs first s := by
  refine spells_main hlow hhigh hlength hzero fun i hi => ?_
  have haddress : (first + UInt16.ofNat i).toNat = first.toNat + i := by
    rw [UInt16.toNat_add, UInt16.toNat_ofNat']
    omega
  rw [hmain _ (by omega), Contents.place_inside _ haddress (by simp; omega) 0]
  rcases Nat.lt_or_ge i s.length with hlt | hge
  · exact List.getD_append _ _ _ _ hlt
  · rw [List.getD_append_right _ _ _ _ hge, List.getD_eq_default _ _ hge,
      show i - s.length = 0 by omega]
    rfl

/-- A routine that may store into the stack page down to some depth, and of which an outcome is
asked. -/
def asked (depth : ℕ) (id : RoutineId) (starts : View → Prop) (ends : Since) : Conduct where
  depth := depth
  slots := (bounds id).slots
  starts := starts
  ends := ends

section Asked

variable {depth : ℕ} {id : RoutineId} {starts : View → Prop} {ends : Since}

theorem asked_fits (code : LinkedCode) : (asked depth id starts ends).Fits code :=
  fun _ ⟨_, harea, _⟩ => absurd harea List.not_mem_nil

theorem asked_main {k : ℕ} {u v : View} (h : (asked depth id starts ends).Keeps k u v) :
    v.main = u.main :=
  funext fun address => h.main address fun ⟨_, harea, _⟩ => absurd harea List.not_mem_nil

end Asked

/-! ## Joining -/

/-- Strings are joined in the buffer, and nothing but the buffer and four work bytes changes. -/
def joinsAside (t : Target) (u w : View) : Prop := joins t u w ∧ ∀ z ∉ workBytes 4, w.zp z = u.zp z

/-- On every accepted memory map two strings are joined: up to 255 characters of them come to lie in
the buffer, with a zero behind, though either of them may have been the buffer. -/
theorem strings_joined {t : Target} (ht : t.error? = none) :
    Provides t .stringConcat (joinsAside t) :=
  provides ht (by decide) (fun _ => trivial) fun _ _ hkeeps hends => ⟨hends, hkeeps.zp⟩

/-- The usual machine with a text at `$8000` and one in the concatenation buffer. -/
def greeting : View :=
  let v := loaded string1 0x8000 string2 0xCF00
  { v with main := Contents.place (Contents.place v.main 0x8000 [0x48, 0x49, 0]) 0xCF00 [0x21, 0] }

/-- A mark in the buffer is joined to a word. -/
theorem greeting_joined : Target.c64.error? = none ∧ Runs .stringConcat greeting fun u w =>
    u.Spells [] 0x8000 [0x48, 0x49] ∧ u.Spells [] 0xCF00 [0x21] ∧ w.a = 0 ∧ w.x = 0xCF ∧
      w.Spells [] 0xCF00 [0x48, 0x49, 0x21] := by
  have ht : Target.c64.error? = none := by decide
  refine ⟨ht, (strings_joined ht).runs rfl rfl fun u w hzp hmain hjoined => ?_⟩
  obtain ⟨⟨⟨ha, hx⟩, hjoins⟩, -⟩ := hjoined
  have hfirst : u.pointer string1 = 0x8000 := by
    rw [View.pointer, hzp]
    rfl
  have hsecond : u.pointer string2 = 0xCF00 := by
    rw [View.pointer, hzp]
    rfl
  have hword (zs : List UInt8) : u.Spells zs 0x8000 [0x48, 0x49] := by
    refine spells_main (by decide) (by decide) (by decide) (by decide) fun i hi => ?_
    change i ≤ 2 at hi
    rw [hmain]
    all_goals interval_cases i <;> decide +kernel
  have hmark (zs : List UInt8) : u.Spells zs 0xCF00 [0x21] := by
    refine spells_main (by decide) (by decide) (by decide) (by decide) fun i hi => ?_
    change i ≤ 1 at hi
    rw [hmain]
    all_goals interval_cases i <;> decide +kernel
  have haside : ∀ i ≤ 2, ((0x8000 : UInt16) + UInt16.ofNat i).toNat < 0xCF00 := by decide
  have hbuffer := hjoins [0x48, 0x49] [0x21]
    ⟨hfirst ▸ hword _, .inr fun i hi => .inl (hfirst ▸ haside i hi)⟩
    ⟨hsecond ▸ hmark _, .inl hsecond⟩
  exact ⟨hword _, hmark _, ha, hx,
    spells_place (by decide) (by decide) (by decide) (by decide) fun address _ =>
      congrFun hbuffer address⟩

/-! ### A concatenation buffer on the stack page -/

/-- The length of an empty string. -/
theorem Flows.measureEmpty {t : Target} {α : Type} {size : ℕ} {back : Back} {ahead : Ahead}
    {starts : View → Prop} {ends p : Since}
    {rest : Writer α} {z : UInt8}
    (hp : ∀ u v w, p u v → w.zp = v.zp → w.main = v.main → w.stack = v.stack → p u w)
    (hempty : ∀ u v, starts u → v.main = u.main → p u v → v.peek (v.pointer z) = 0)
    (h : Flows (fun _ => asked 256 .stringConcat starts ends) t .stringConcat (size - 40) [] ahead
      0 (fun _ u v => p u v ∧ v.y = 0) rest) :
    Flows (fun _ => asked 256 .stringConcat starts ends) t .stringConcat size back ahead
      0 (fun _ u v => p u v)
      (Routine.measure z >>= fun _ => rest) := by
  simp only [Routine.measure, bind_assoc]
  refine .label (fun _ u v => p u v ∧ v.y = 0) fun done => ?_
  refine .run (Q := fun _ u v => p u v ∧ v.y = 0)
    rfl (fun _ u v hv => ⟨_, rfl, hp u v _ hv rfl rfl rfl, rfl⟩) ?_
  refine .renew (Q := fun _ u v => p u v ∧ v.y = 0) (.here fun loop => ?_) fun _ _ _ hv => ⟨0, hv⟩
  refine .knowing (.read (Q := fun _ u v => (p u v ∧ v.y = 0) ∧ v.zero = true) rfl
    rfl (fun n u v hv => ?_) ?_)
  · obtain ⟨⟨hpv, hy⟩, hstarts, hkeeps⟩ := hv
    refine ⟨_, _, rfl, rfl, ⟨hp u v _ hpv rfl rfl rfl, hy⟩, ?_⟩
    show (v.peek (v.pointer z + v.y.toUInt16) == 0) = true
    rw [hy, beq_iff_eq, UInt8.toUInt16_ofNat (by decide), UInt16.add_zero]
    exact hempty u v hstarts (asked_main hkeeps) hpv
  refine .branch (Q := .never) (fun _ _ _ hv _ => hv.1) (fun _ u v hv hskipped => ?_) ?_
  · simp [View.takes?, hv.2] at hskipped
  refine .run (Q := .never) rfl (fun _ _ _ hv => hv.elim)
    (.run (Q := .never) rfl (fun _ _ _ hv => hv.elim) ?_)
  refine .branchBack (Q := .never) (fun _ _ _ hv _ => hv.elim) (fun _ _ _ hv _ => hv)
    (.bind (.forget (.fit h ?_) (List.nil_subset _)))
  omega

/-- The usual machine, but for a concatenation buffer that begins in the stack page. -/
def stackedConcatenation : Target := { Target.c64 with concatenationBase := 0x1FE }

/-- Two empty strings lie behind the stack page, and the call has pushed its return address. -/
structure Empty (u : View) : Prop where
  string1 : mainBase ≤ (u.pointer string1).toNat ∧ u.main (u.pointer string1) = 0
  string2 : mainBase ≤ (u.pointer string2).toNat ∧ u.main (u.pointer string2) = 0
  sp : u.sp = 0xFD
  stack : u.stack 0xFF = 0xFF

/-- The conduct of joining two empty strings into a buffer in the stack page: the terminator becomes
a part of the return address. -/
def emptyStray : RoutineId → Conduct := fun _ => asked 256 .stringConcat Empty fun _ w =>
    w.returnAddress = 0xFF01

theorem stringConcat_stray : Obeys emptyStray stackedConcatenation .stringConcat := by
  let same : Since := fun u v => v.stack = u.stack ∧ v.pointer string1 = u.pointer string1 ∧
    v.pointer string2 = u.pointer string2
  have hsame (u v w : View) (h : same u v) (hzp : w.zp = v.zp) (_ : w.main = v.main)
      (hstack : w.stack = v.stack) : same u w := by
    refine ⟨hstack.trans h.1, ?_, ?_⟩
    · rw [View.pointer, hzp]
      exact h.2.1
    · rw [View.pointer, hzp]
      exact h.2.2
  refine .last ?_
  simp only [body, stringConcat, bind_assoc]
  refine .target (.weaken (.measureEmpty (p := same) hsame (fun u v hu hmain hv => ?_) ?_)
    fun _ u v huv => huv ▸ ⟨rfl, rfl, rfl⟩)
  · rw [hv.2.1, View.peek_main _ hu.string1.1, hmain, hu.string1.2]
  refine .run (Q := fun _ u v => same u v ∧ v.zp work = 0) rfl (fun _ u v hv => ⟨_, rfl, hv⟩) ?_
  refine .weaken (.measureEmpty
      (p := fun u v => same u v ∧ v.zp work = 0) (fun u v w h hzp hmain hstack =>
    ⟨hsame u v w h.1 hzp hmain hstack, (congrFun hzp work).trans h.2⟩) (fun u v hu hmain hv =>
      ?_) ?_) fun _ _ _ hv => hv
  · rw [hv.1.2.2, View.peek_main _ hu.string2.1, hmain, hu.string2.2]
  let measured : Assertion := fun _ u v => same u v ∧ v.zp work = 0 ∧ v.zp (work + 1) = 0
  refine .run (Q := measured) rfl (fun _ u v hv => ⟨_, rfl, hv.1.1, hv.1.2, hv.2⟩) ?_
  refine .label measured fun fits => ?_
  refine .exec (Q := fun n u v => measured n u v ∧ v.carry = true)
    rfl (fun _ u v hv => ⟨_, rfl, hv, ?_⟩) ?_
  · simp [hv.2.1, hv.2.2]
  refine .branch (Q := .never) (fun _ _ _ hv _ => hv.1) (fun _ u v hv hskipped => ?_) ?_
  · simp [View.takes?, hv.2] at hskipped
  refine .run (Q := .never) rfl (fun _ _ _ hv => hv.elim) (.bind ?_)
  refine .exec (Q := fun _ u v => same u v ∧ v.zp work = 0 ∧ v.word (work + 2) = 0x1FE ∧ v.y = 0 ∧
    v.a = 0) rfl (fun _ u v hv => ?_) ?_
  · obtain ⟨hsame, hfirst, hsecond⟩ := hv
    refine ⟨_, rfl, hsame, hfirst, ?_, hsecond, rfl⟩
    show (UInt8.ofNat (0xFE + (v.zp work).toNat + 0)).toNat +
      256 * (UInt8.ofNat (1 + 0 + bit (decide (256 ≤ 0xFE + (v.zp work).toNat + 0)))).toNat = 0x1FE
    rw [hfirst]
    rfl
  refine .overwrite
    (Q := fun _ u v => v.stack 0xFE = 0 ∧ v.stack 0xFF = u.stack 0xFF ∧ v.zp work = 0 ∧ v.y = 0) rfl
    (fun _ u v hv _ => ?_) ?_
  · obtain ⟨hsame, hfirst, hpointer, hy, ha⟩ := hv
    have haddress : v.pointer (work + 2) + v.y.toUInt16 = 0x1FE := by
      rw [← UInt16.toNat_inj, UInt16.toNat_add, View.toNat_pointer, hpointer, hy]
      rfl
    exact ⟨_, _, rfl,
      congrArg some haddress, by
        decide, by decide, UInt8.toNat_lt _, ha, congrFun hsame.1 0xFF, hfirst, hy⟩
  let cleared : Assertion := fun _ u v => v.stack 0xFE = 0 ∧
    v.stack 0xFF = u.stack 0xFF ∧ v.zp work = 0
  refine .label cleared fun left => .label cleared fun done => ?_
  refine .run (Q := fun n u v => cleared n u v ∧ v.zero = true)
    rfl (fun _ u v hv => ⟨_, rfl, ⟨hv.1, hv.2.1, hv.2.2.1⟩, ?_⟩) ?_
  · simp [hv.2.2.2]
  refine .branch (Q := .never) (fun _ _ _ hv _ => hv.1) (fun _ u v hv hskipped => ?_) ?_
  · simp [View.takes?, hv.2] at hskipped
  refine .here fun right => .run (Q := .never) rfl (fun _ _ _ hv => hv.elim) ?_
  refine .read (Q := .never) rfl rfl (fun _ _ _ hv => hv.elim)
    (.store (Q := .never) rfl (fun _ _ _ hv => hv.elim) ?_)
  refine .run (Q := .never) rfl (fun _ _ _ hv => hv.elim) ?_
  refine .branchBack (Q := .never) (fun _ _ _ hv _ => hv.elim) (fun _ _ _ hv _ => hv) (.bind ?_)
  refine .run (Q := fun n u v => cleared n u v ∧ v.y = 0) rfl (fun _ u v hv => ⟨_, rfl, hv, rfl⟩)
    (.here fun loop => ?_)
  refine .run (Q := fun n u v => cleared n u v ∧ v.zero = true)
    rfl (fun _ u v hv => ⟨_, rfl, hv.1, ?_⟩) ?_
  · simp [hv.1.2.2, hv.2]
  refine .branch (Q := .never) (fun _ _ _ hv _ => hv.1) (fun _ u v hv hskipped => ?_) ?_
  · simp [View.takes?, hv.2] at hskipped
  refine .read (Q := .never) rfl rfl (fun _ _ _ hv => hv.elim)
    (.store (Q := .never) rfl (fun _ _ _ hv => hv.elim) ?_)
  refine .run (Q := .never) rfl (fun _ _ _ hv => hv.elim) ?_
  refine .branchBack (Q := .never) (fun _ _ _ hv _ => hv.elim) (fun _ _ _ hv _ => hv) (.bind ?_)
  simp only [returnAddress, bind_assoc]
  refine .exec (Q := cleared) rfl (fun _ u v hv => ⟨_, rfl, hv⟩)
    (.knowing (.rts (fun _ u v hv => ?_) (.done (by decide) _)))
  obtain ⟨⟨hlow, hhigh, -⟩, hu, hkeeps⟩ := hv
  have hsp : v.sp = 0xFD := by
    rw [hkeeps.sp, hu.sp]
    rfl
  show (v.stack (v.sp + 1)).toNat + 256 * (v.stack (v.sp + 1 + 1)).toNat + 1 = 0xFF01
  rw [hsp]
  show (v.stack 0xFE).toNat + 256 * (v.stack 0xFF).toNat + 1 = 0xFF01
  rw [hlow, hhigh, hu.stack]
  rfl

theorem loaded_main (a b : UInt8) (m n : ℕ) (address : UInt16) :
    (loaded a m b n).main address = 0 := by
  show Memory.zero.read address = 0
  simp [Memory.zero, Memory.read]

/-- Two empty strings, a buffer in the stack page and an accepted memory map: the routine returns
into nowhere. -/
theorem empty_strings_stray : stackedConcatenation.error? = none ∧ ∃ image,
    (stock stackedConcatenation [.stringConcat]).stream.link libraryOrigin = .ok image ∧
      LiesLow image ∧
      let c := loading (loaded string1 0x8000 string2 0x8000) image
      c.Carries image ∧ Joinable stackedConcatenation c.view string1 [] ∧
        Joinable stackedConcatenation c.view string2 [] ∧
        ∃ address, image.lookup? RoutineId.stringConcat.name = some address ∧ ∃ c',
            c.call address 0 = (c', some (.breakpoint 0xFF01)) := by
  have hobeys : ∀ r, RoutineId.stringConcat.Needs r → Obeys emptyStray stackedConcatenation r := by
    intro r hr
    have hclosure : ∀ r ∈ RoutineId.stringConcat.closure, r = .stringConcat := by decide +kernel
    rw [hclosure r (mem_closure_iff.2 hr)]
    exact stringConcat_stray
  obtain ⟨image, hlink, hlies⟩ :=
    stock_links_low (List.forall_mem_singleton.2 hobeys) (by decide +kernel)
  generalize hv : loaded string1 0x8000 string2 0x8000 = v
  have hzp := zp_loading (v := v) hlies
  have hfirst : (loading v image).view.pointer string1 = 0x8000 := by
    rw [View.pointer, hzp, ← hv]
    rfl
  have hsecond : (loading v image).view.pointer string2 = 0x8000 := by
    rw [View.pointer, hzp, ← hv]
    rfl
  have hempty : (loading v image).view.main 0x8000 = 0 := by
    rw [main_loading hlies (by decide), ← hv, loaded_main]
  have hspells (z : UInt8) (hz : (loading v image).view.pointer z = 0x8000) :
      Joinable stackedConcatenation (loading v image).view z [] := by
    rw [Joinable, hz]
    refine ⟨spells_main (by decide) (by decide) (by decide) (by decide) fun i hi =>
      ?_, .inr fun i hi => .inr ?_⟩
    · obtain rfl : i = 0 := Nat.le_zero.1 hi
      simpa using hempty
    · obtain rfl : i = 0 := Nat.le_zero.1 hi
      decide
  refine ⟨by decide, image, hlink, hlies,
    loading_carries hlies (by rw [← hv]; rfl) (by rw [← hv]; rfl), hspells _ hfirst,
    hspells _ hsecond, ?_⟩
  refine call_strays hobeys (fun _ _ => asked_fits _) hlink hlies (by rw [← hv]; rfl)
    (by rw [← hv]; rfl) ?_ (fun w hkeeps hends => ⟨hends, ?_⟩)
    (by decide) (by decide) (by decide)
  · have hspells (z : UInt8) (hz : (loading v image).view.pointer z = 0x8000) :
        mainBase ≤ ((loading v image).view.pointer z).toNat ∧
            (loading v image).view.main ((loading v image).view.pointer z) = 0 := by
      rw [hz]
      exact ⟨by decide, hempty⟩
    refine ⟨hspells _ hfirst, hspells _ hsecond, ?_, ?_⟩
    · show (loading v image).view.sp - 1 - 1 = 0xFD
      rw [sp_loading hlies, ← hv]
      rfl
    · have hsp : (loading v image).view.sp = 0xFF := by
        rw [sp_loading hlies, ← hv]
        rfl
      simp [View.call, View.push, hsp]
      decide
  · have hmain : w.main 0xFF01 = (loading v image).view.main 0xFF01 :=
      congrFun (asked_main hkeeps) 0xFF01
    rw [View.peek_main _ (by decide), hmain, main_loading hlies (by decide), ← hv, loaded_main]

/-! ## Texts of numbers -/

/-! ### Fractions -/

/-- The digits behind the point of so many sixteenths. -/
def fraction (r : ℕ) : List ℕ := (Fixed.fractionDigits 4 r).map fun c => c.toNat - 48

theorem fraction_exact : ∀ r < 16, Fixed.fractionDigits 4 r = (fraction r).map Nat.digitChar ∧
    (∀ d ∈ fraction r, d < 10) ∧
    fraction r ≠ [] ∧ ((fraction r).getLast? = some 0 → fraction r = [0]) ∧
    10 ^ (fraction r).length * r = 16 * Nat.ofDigits 10 (fraction r).reverse := by decide +kernel

/-- The text of a fixed-point number is its exact decimal, with a whole number and some digits
behind the point. -/
structure IsExact (f : Fixed) (whole : ℕ) (ds : List ℕ) : Prop where
  text : f.text = (if f.units < 0 then "-" else "") ++ toString whole ++ "." ++
    String.ofList (ds.map Nat.digitChar)
  digits : ∀ d ∈ ds, d < 10
  nonempty : ds ≠ []
  /-- the last digit is needed, or it is the only one -/
  short : ds.getLast? = some 0 → ds = [0]
  exact : 10 ^ ds.length * f.units.natAbs =
    16 * (10 ^ ds.length * whole + Nat.ofDigits 10 ds.reverse)

theorem text_exact (f : Fixed) :
    IsExact f (f.units.natAbs / 16) (fraction (f.units.natAbs % 16)) := by
  generalize hm : f.units.natAbs = m
  obtain ⟨htext, hdigits, hnonempty, hshort, hexact⟩ :=
    fraction_exact (m % 16) (Nat.mod_lt m (by decide))
  refine ⟨?_, hdigits, hnonempty, hshort, ?_⟩
  · rw [Fixed.text, hm, htext]
  · generalize fraction (m % 16) = ds at *
    calc 10 ^ ds.length * f.units.natAbs
        = 10 ^ ds.length * (16 * (m / 16) + m % 16) := by rw [hm, Nat.div_add_mod]
      _ = 16 * (10 ^ ds.length * (m / 16)) + 10 ^ ds.length * (m % 16) := by
        rw [Nat.mul_add, Nat.mul_left_comm]
      _ = 16 * (10 ^ ds.length * (m / 16) + Nat.ofDigits 10 ds.reverse) := by
        rw [hexact, Nat.mul_add]

/-! ### Conversions -/

/-- A text is left in the conversion buffer, in a dozen bytes at most. -/
def leaves (t : Target) (text : View → String) (u w : View) : Prop :=
  converts t text u w ∧ (spelled (text u)).length + 1 ≤ 12

theorem length_fractionDigits (n f : ℕ) : (Fixed.fractionDigits n f).length ≤ n := by
  induction n generalizing f with
  | zero => exact Nat.le_refl 0
  | succ n ih =>
    rw [Fixed.fractionDigits, List.length_cons]
    have := ih (f * 10 % 16)
    split
    · exact Nat.le_add_left 1 n
    · omega

theorem length_spelled_signed {n : ℕ} (hn : n < 65536) :
    (spelled (toString ((n : ℤ).bmod 65536))).length ≤ 6 := by
  have hsign := length_minus_le n
  have hdigits := length_spelled_word (bmod_eq_magnitude (m := 65536) (by decide) hn).1
  rw [spelled_signed hn, List.length_append]
  omega

theorem length_spelled_text {n : ℕ} (hn : n < 65536) : (spelled (fixedOf n).text).length ≤ 11 := by
  have hsign := length_minus_le n
  have hmagnitude := (bmod_eq_magnitude (m := 65536) (by decide) hn).1
  have hwhole : (spelled (toString (magnitude 65536 n / 16))).length ≤ 5 :=
    length_spelled_word (by omega)
  have hfraction : (behindPoint 4 (magnitude 65536 n % 16)).length ≤ 4 := by
    rw [behindPoint, List.length_map]
    exact length_fractionDigits 4 _
  rw [spelled_text hn]
  simp only [List.length_append, List.length_singleton]
  omega

/-- On every accepted memory map the text of a number is left in the conversion buffer, and that of
a fixed-point number is its exact decimal. -/
theorem numbers_texted {t : Target} (ht : t.error? = none) :
    Provides t .textOfU16 (leaves t fun u => toString (u.word intA)) ∧
      Provides t .textOfI16 (leaves t fun u => toString ((u.word intA : ℤ).bmod 65536)) ∧
      Provides t .textOfFixed (leaves t fun u => (fixedOf (u.word fixA)).text) ∧
      Provides t .textOfFloat
        (leaves t fun u =>
          (fixedOf ((datumOf (u.word floatA)).truncate (-32768) 32767 16 % 65536).toNat).text) ∧
      ∀ f : Fixed, IsExact f (f.units.natAbs / 16) (fraction (f.units.natAbs % 16)) := by
  refine ⟨provides ht (by decide) (fun _ => trivial) fun u _ _ h => ⟨h, Nat.succ_le_succ ?_⟩,
    provides ht (by decide) (fun _ => trivial) fun u _ _ h => ⟨h, Nat.succ_le_succ ?_⟩,
    provides ht (by decide) (fun _ => trivial) fun u _ _ h => ⟨h, Nat.succ_le_succ ?_⟩,
    provides ht (by decide) (fun _ => trivial) fun u _ _ h => ⟨h, Nat.succ_le_succ ?_⟩, text_exact⟩
  · exact (length_spelled_word (u.word_lt intA)).trans (by decide)
  · exact (length_spelled_signed (u.word_lt intA)).trans (by decide)
  · exact length_spelled_text (u.word_lt fixA)
  · exact length_spelled_text (by omega)

/-- The least number below zero is minus a sixteenth. -/
theorem minus_sixteenth_texted :
    Target.c64.error? = none ∧ Runs .textOfFixed (loaded fixA 0xFFFF intA 0) fun u w =>
    u.word fixA = 0xFFFF ∧ w.a = 0 ∧ w.x = 0xCE ∧ w.Spells [] 0xCE00 (spelled "-0.0625") := by
  have ht : Target.c64.error? = none := by decide
  refine ⟨ht, (numbers_texted ht).2.2.1.runs rfl rfl fun u w hzp _ hleaves => ?_⟩
  obtain ⟨⟨⟨ha, hx⟩, hmain⟩, -⟩ := hleaves
  have hword : u.word fixA = 0xFFFF := by
    rw [View.word, hzp]
    rfl
  have htext : (fixedOf (u.word fixA)).text = "-0.0625" := by
    rw [hword]
    decide +kernel
  change w.main = Contents.place u.main 0xCE00
    (spelled (fixedOf (u.word fixA)).text ++ [0]) at hmain
  rw [htext] at hmain
  exact ⟨hword, ha, hx, spells_place (by decide) (by decide) (by decide +kernel) (by decide +kernel)
    fun address _ => congrFun hmain address⟩

/-! ### A conversion buffer on the stack page -/

/-- The usual machine, but for a conversion buffer that begins in the stack page. -/
def stackedConversion : Target := { Target.c64 with conversionBase := 0x1FE }

/-- Two bytes in front of the end of the stack page have become the text of zero. -/
def zeroStacked (_ w : View) : Prop := w.stack 0xFE = 0x30 ∧ w.stack 0xFF = 0

/-- The conduct of the conversion of zero into a buffer in the stack page: the text becomes the
return address. -/
def zeroStray : RoutineId → Conduct
  | .formatU16 => asked 254 .formatU16 (fun u => u.word intA = 0 ∧ u.y = 0 ∧ u.sp = 0xFB)
      zeroStacked
  | id => asked 256 id (fun u => u.word intA = 0 ∧ u.sp = 0xFD) fun _ w => w.returnAddress = 0x31

theorem powersLow_ne_zero {i : ℕ} {lo : UInt8}
    (h : ([0x10, 0xE8, 100, 10] : List UInt8)[i]? = some lo) : 0 < lo.toNat := by
  have hall : ∀ lo ∈ ([0x10, 0xE8, 100, 10] : List UInt8), 0 < lo.toNat := by simp
  exact hall lo (List.mem_of_getElem? h)

theorem formatU16_stray : Obeys zeroStray stackedConversion .formatU16 := by
  refine .last ?_
  simp only [body, formatU16, bind_assoc]
  refine .target (.promise (.table [0x10, 0xE8, 100, 10]) fun powersLow =>
    .promise (.table [0x27, 0x03, 0, 0]) fun powersHigh => ?_)
  let fresh : Since := fun u v => v.zp intA = 0 ∧ v.zp (intA + 1) = 0 ∧ v.zp work = 0 ∧ v.y = 0
  refine .knowing (.exec (Q := fun _ u v => fresh u v ∧ v.x.toNat = 0) rfl (fun _ u v hv => ?_) ?_)
  · obtain ⟨rfl, ⟨hword, hy, -⟩, -⟩ := hv
    rw [View.word] at hword
    refine ⟨_, rfl, ⟨?_, ?_, rfl, hy⟩, rfl⟩
    · show u.zp intA = 0
      rw [eq_zero_iff]
      omega
    · show u.zp (intA + 1) = 0
      rw [eq_zero_iff]
      omega
  let starting : Assertion := fun n u v => fresh u v ∧ v.x.toNat ≤ 3 ∧ 4 - v.x.toNat ≤ n
  refine .renew (Q := starting) (.here fun power => ?_) fun _ u v hv =>
    ⟨4, hv.1, by omega, by omega⟩
  let counting : Assertion := fun n u v => starting n u v ∧ v.zp (work + 1) = 0
  refine .exec (Q := counting) rfl (fun n u v hv => ⟨_, rfl, hv, rfl⟩) (.here fun subtract => ?_)
  refine .label counting fun digit => .label starting fun next => ?_
  refine .exec (Q := fun n u v => counting n u v ∧ v.a = 0 ∧ v.carry = true)
    rfl (fun n u v hv => ⟨_, rfl, hv, hv.1.1.1, rfl⟩) ?_
  refine .lookup (Q := fun n u v => counting n u v ∧ v.carry = false) rfl (fun n u v hv => ?_) ?_
  · obtain ⟨hcount, ha, hcarry⟩ := hv
    obtain ⟨lo, -, hlo, -, -⟩ := powers hcount.1.2.1
    have hpositive := powersLow_ne_zero hlo
    refine ⟨lo, _, hlo, rfl, hcount, ?_⟩
    have := lo.toNat_lt
    simp [ha, hcarry]
    omega
  refine .exec (Q := fun n u v => counting n u v ∧ v.a = 0 ∧ v.carry = false)
    rfl (fun n u v hv => ⟨_, rfl, hv.1, hv.1.1.1.2.1, hv.2⟩) ?_
  refine .lookup (Q := fun n u v => counting n u v ∧ v.carry = false) rfl (fun n u v hv => ?_) ?_
  · obtain ⟨hcount, ha, hcarry⟩ := hv
    obtain ⟨-, hi, -, hhi, -⟩ := powers hcount.1.2.1
    refine ⟨hi, _, hhi, rfl, hcount, ?_⟩
    have := hi.toNat_lt
    simp [ha, hcarry]
    omega
  refine .branch (Q := .never) (fun _ _ _ hv _ => hv.1) (fun _ u v hv hskipped => ?_) ?_
  · simp [View.takes?, hv.2] at hskipped
  refine .exec (Q := .never) rfl (fun _ _ _ hv => hv.elim) ?_
  refine .jumpBack (fun _ _ _ hv => hv.elim)
    (.bind (.forget ?_ (List.subset_cons_of_subset _ (List.Subset.refl _))))
  refine .exec (Q := fun n u v => starting n u v ∧ v.zero = true)
    rfl (fun n u v hv => ⟨_, rfl, hv.1, ?_⟩) ?_
  · simp [hv.2, hv.1.1.2.2.1]
  refine .branch (Q := .never) (fun _ _ _ hv _ => hv.1) (fun _ u v hv hskipped => ?_) ?_
  · simp [View.takes?, hv.2] at hskipped
  refine .exec (Q := .never) rfl (fun _ _ _ hv => hv.elim)
    (.store (Q := .never) rfl (fun _ _ _ hv => hv.elim) ?_)
  refine .exec (Q := .never) rfl (fun _ _ _ hv => hv.elim) (.bind ?_)
  refine .run (Q := fun n u v => fresh u v ∧ 1 ≤ v.x.toNat ∧ v.x.toNat ≤ 4 ∧ 4 - v.x.toNat < n)
    rfl (fun n u v hv => ?_) ?_
  · obtain ⟨hfresh, hx, hn⟩ := hv
    have hnext : (v.x + 1).toNat = v.x.toNat + 1 := by
      rw [UInt8.toNat_add, UInt8.toNat_one]
      omega
    refine ⟨_, rfl, hfresh, ?_⟩
    show 1 ≤ (v.x + 1).toNat ∧ (v.x + 1).toNat ≤ 4 ∧ 4 - (v.x + 1).toNat < n
    omega
  refine .read (Q := fun n u v => (fresh u v ∧ v.x.toNat ≤ 4 ∧ 4 - v.x.toNat < n) ∧
    v.zero = decide (v.x.toNat = 4)) rfl rfl
    (fun n u v hv => ⟨_, _, rfl, rfl, ⟨hv.1, hv.2.2⟩, sub_beq_zero_toNat v.x 4⟩) ?_
  refine .branchBack (Q := fun _ u v => fresh u v) (fun n u v hv htaken => ?_) (fun n u v hv _ =>
    hv.1.1) (.forget ?_ (List.nil_subset _))
  · obtain ⟨⟨hfresh, hindex, hn⟩, hzero⟩ := hv
    have hmore : v.x.toNat ≠ 4 := by simpa [View.takes?, hzero] using htaken
    exact ⟨_, hn, hfresh, by omega, Nat.le_refl _⟩
  refine .exec (Q := fun _ u v => v.a = 0x30 ∧ v.y = 0)
    rfl (fun _ u v hv => ⟨_, rfl, ?_, hv.2.2.2⟩) ?_
  · show v.zp intA ||| 0x30 = 0x30
    rw [hv.1]
    rfl
  refine .knowing (.overwrite (Q := fun _ u v => v.stack 0xFE = 0x30 ∧ v.y = 0)
    rfl (fun _ u v hv _ => ?_) ?_)
  · obtain ⟨⟨ha, hy⟩, ⟨-, -, hsp⟩, -⟩ := hv
    refine ⟨_, 0x1FE, rfl, ?_, by decide, by decide, ?_, ?_, hy⟩
    · show some (stackedConversion.conversionBase + v.y.toUInt16) = some 0x1FE
      rw [hy]
      rfl
    · rw [hsp]
      decide
    · exact ha
  refine .exec (Q := fun _ u v => v.stack 0xFE = 0x30 ∧ v.y = 1 ∧ v.a = 0)
    rfl (fun _ u v hv => ⟨_, rfl, hv.1, ?_, rfl⟩) ?_
  · show v.y + 1 = 1
    rw [hv.2]
    rfl
  refine .knowing (.overwrite (Q := fun _ => zeroStacked) rfl (fun _ u v hv _ => ?_) ?_)
  · obtain ⟨⟨hlow, hy, ha⟩, ⟨-, -, hsp⟩, -⟩ := hv
    refine ⟨_, 0x1FF, rfl, ?_, by decide, by decide, ?_, hlow, ha⟩
    · show some (stackedConversion.conversionBase + v.y.toUInt16) = some 0x1FF
      rw [hy]
      rfl
    · rw [hsp]
      decide
  exact .rts (fun _ _ _ hv => hv) (.table (.table (.done (by decide) _)))

theorem textOfU16_stray : Obeys zeroStray stackedConversion .textOfU16 := by
  refine .last ?_
  simp only [body, textOfU16, bind_assoc]
  refine .exec (Q := fun _ u v => v.y = 0 ∧ v.word intA = u.word intA)
    rfl (fun _ u v huv => huv ▸ ⟨_, rfl, rfl, rfl⟩) ?_
  refine .knowing (.callOf (Q := fun _ _ v => zeroStacked v v) (by decide) ?_
    (by decide) (fun _ u v b hv => ?_) (fun _ u v b w _ _ hw => hw) ?_)
  · exact ⟨by decide, by decide, id, id, by decide⟩
  · obtain ⟨⟨hy, hword⟩, ⟨hzero, hsp⟩, hkeeps⟩ := hv
    refine ⟨hword.trans hzero, hy, ?_⟩
    show v.sp - 1 - 1 = 0xFB
    rw [hkeeps.sp, hsp]
    rfl
  refine .target ?_
  simp only [returnAddress, bind_assoc]
  refine .exec (Q := fun _ _ v => zeroStacked v v) rfl (fun _ u v hv => ⟨_, rfl, hv⟩)
    (.knowing (.rts (fun _ u v hv => ?_) (.done (by decide) _)))
  obtain ⟨⟨hlow, hhigh⟩, ⟨-, hsp⟩, hkeeps⟩ := hv
  have hsp' : v.sp = 0xFD := by
    rw [hkeeps.sp, hsp]
    rfl
  show (v.stack (v.sp + 1)).toNat + 256 * (v.stack (v.sp + 1 + 1)).toNat + 1 = 0x31
  rw [hsp']
  show (v.stack 0xFE).toNat + 256 * (v.stack 0xFF).toNat + 1 = 0x31
  rw [hlow, hhigh]
  rfl


/-- A zero, a buffer in the stack page and an accepted memory map: the routine returns into the zero
page. -/
theorem zero_strays : stackedConversion.error? = none ∧ ∃ image,
    (stock stackedConversion [.textOfU16]).stream.link libraryOrigin = .ok image ∧ LiesLow image ∧
      let c := loading blank image
      c.Carries image ∧ c.view.word intA = 0 ∧
        ∃ address, image.lookup? RoutineId.textOfU16.name = some address ∧ ∃ c',
            c.call address 0 = (c', some (.breakpoint 0x31)) := by
  have hobeys : ∀ r, RoutineId.textOfU16.Needs r → Obeys zeroStray stackedConversion r := by
    intro r hr
    have hclosure : ∀ r ∈ RoutineId.textOfU16.closure, r = .textOfU16 ∨
      r = .formatU16 := by decide +kernel
    rcases hclosure r (mem_closure_iff.2 hr) with rfl | rfl
    · exact textOfU16_stray
    · exact formatU16_stray
  have hfits (r : RoutineId) (code : LinkedCode) : (zeroStray r).Fits code := by
    cases r <;> exact asked_fits code
  obtain ⟨image, hlink, hlies⟩ :=
    stock_links_low (List.forall_mem_singleton.2 hobeys) (by decide +kernel)
  have hzp := zp_loading (v := blank) hlies
  have hword : (loading blank image).view.word intA = 0 := by
    rw [View.word, hzp]
    rfl
  refine ⟨by decide, image, hlink, hlies, loading_carries hlies rfl rfl, hword, ?_⟩
  refine call_strays hobeys hfits hlink hlies rfl rfl
    ⟨hword, ?_⟩ (fun w hkeeps hends => ⟨hends, ?_⟩) (by decide) (by decide) (by decide)
  · show (loading blank image).view.sp - 1 - 1 = 0xFD
    rw [sp_loading hlies]
    rfl
  · show w.zp 0x31 = 0
    rw [hkeeps.zp 0x31 (by decide)]
    exact congrFun hzp 0x31

/-! ## Reading numbers -/

/-- Whether a byte is a digit. -/
def IsDigit (c : UInt8) : Prop := 0x30 ≤ c ∧ c ≤ 0x39

/-- A number is spelled with digits, and they are read as the number. -/
theorem spelled_decimal (n : ℕ) :
    (∀ c ∈ spelled (toString n), IsDigit c) ∧ decimalOf (spelled (toString n)) = n := by
  induction n using Nat.strong_induction_on with
  | _ n ih =>
    have hfront : (∀ c ∈ leading (n / 10), IsDigit c) ∧ decimalOf (leading (n / 10)) = n / 10 := by
      rw [leading]
      split
      next hzero => exact ⟨fun c hc => absurd hc List.not_mem_nil, hzero.symm⟩
      next hmore => exact ih _ (by omega)
    have hlast : n % 10 < 10 := Nat.mod_lt n (by decide)
    have hbyte : (UInt8.ofNat (48 + n % 10)).toNat = 48 + n % 10 := by
      rw [UInt8.toNat_ofNat']
      omega
    rw [spelled_eq_leading]
    refine ⟨fun c hc => ?_, ?_⟩
    · rcases List.mem_append.1 hc with hc | hc
      · exact hfront.1 c hc
      · rw [List.mem_singleton.1 hc, IsDigit, UInt8.le_iff_toNat_le, UInt8.le_iff_toNat_le, hbyte]
        show 48 ≤ _ ∧ _ ≤ 57
        omega
    · rw [decimalOf, List.foldl_append]
      show 10 * decimalOf (leading (n / 10)) + ((UInt8.ofNat (48 + n % 10)).toNat - 48) = n
      rw [hfront.2, hbyte]
      omega

theorem not_mem_spelled (n : ℕ) : 0 ∉ spelled (toString n) := fun hmem =>
  absurd ((spelled_decimal n).1 0 hmem).1 (by decide)

/-- What is read of a number that has been spelled. -/
theorem decimalOf_spelled (n : ℕ) : decimalOf (digits (spelled (toString n))) = n := by
  have hdigits : digits (spelled (toString n)) = spelled (toString n) :=
    List.takeWhile_eq_self_iff.2 fun c hc => decide_eq_true ((spelled_decimal n).1 c hc)
  rw [hdigits, (spelled_decimal n).2]

theorem unindented_spelled (n : ℕ) : unindented (spelled (toString n)) = spelled (toString n) := by
  refine List.dropWhile_eq_self_iff.2 fun hlt hblank => ?_
  have hdigit := (spelled_decimal n).1 _ (List.getElem_mem hlt)
  rw [of_decide_eq_true hblank] at hdigit
  exact absurd hdigit.1 (by decide)

/-- What is read of a number with a sign that has been spelled. -/
theorem signedDecimal_spelled {n : ℕ} (hn : n < 65536) :
    signedDecimal (unindented (spelled (toString ((n : ℤ).bmod 65536)))) = (n : ℤ).bmod 65536 := by
  obtain ⟨-, hsigned⟩ := bmod_eq_magnitude (m := 65536) (by decide) hn
  rw [spelled_signed hn, hsigned, minus]
  split
  · show -((decimalOf (digits (spelled (toString (magnitude 65536 n)))) : ℕ) : ℤ) = _
    rw [decimalOf_spelled]
  · rw [List.nil_append, unindented_spelled, signedDecimal, decimalOf_spelled]
    intro rest hrest
    have hminus : (0x2D : UInt8) ∈ spelled (toString (magnitude 65536 n)) :=
      hrest ▸ List.mem_cons_self
    exact absurd ((spelled_decimal _).1 _ hminus).1 (by decide)

theorem not_mem_spelled_signed {n : ℕ} (hn : n < 65536) :
    0 ∉ spelled (toString ((n : ℤ).bmod 65536)) := by
  rw [spelled_signed hn, List.mem_append, not_or, minus]
  refine ⟨?_, not_mem_spelled _⟩
  split <;> decide

/-! ### Back and forth -/

/-- Two routines are linked together, at `$1000` or elsewhere.  The first one leaves a text in the
conversion buffer, and when nothing but registers and the zero page has changed since and a slot
points to the buffer, the second one returns the word that the text was made of. -/
def RoundTrips (t : Target) (there back : RoutineId) : Prop :=
  (∃ image, (stock t [there, back]).stream.link libraryOrigin = .ok image ∧ LiesLow image) ∧
    ∀ origin image, (stock t [there, back]).stream.link origin = .ok image →
      LiesApart t [there, back] image →
      ∃ a b, image.lookup? there.name = some a ∧ image.lookup? back.name = some b ∧
        ∀ c : Cpu, c.Carries image →
        ∃ n c', (∀ limit, limit = 0 ∨ n < limit → c.call a limit = (c', none)) ∧
          ∀ d : Cpu, d.chrout = c'.chrout → d.plot = c'.plot →
            (∀ address, mainBase ≤ address.toNat → d.read address = c'.read address) →
            d.view.pointer string1 = t.conversionBase →
            ∃ n d' w, (∀ limit, limit = 0 ∨ n < limit → d.call b limit = (d', none)) ∧ d'.Shows w ∧
              returnsWord intR w ∧
              w.word intR = c.view.word intA

/-- An image stays in memory when what a routine may change has changed. -/
theorem carries_kept {t : Target} {ids : List RoutineId} {image : Image}
    (hapart : LiesApart t ids image) {id : RoutineId} (hid : id ∈ ids)
    {c d : Cpu} (hc : c.Carries image) {w : View} (hkeeps : (conduct t id).called.Keeps 0 c.view w)
    (hchrout : d.chrout = w.chrout)
    (hplot : d.plot = w.plot)
    (hmain : ∀ address, mainBase ≤ address.toNat → d.read address = w.main address) :
    d.Carries image := by
  have htraps : d.chrout = c.chrout ∧ d.plot = c.plot :=
    ⟨hchrout.trans hkeeps.chrout, hplot.trans hkeeps.plot⟩
  refine ⟨fun i b hb => ?_, by rw [htraps.1]; exact hc.chrout, by rw [htraps.2]; exact hc.plot⟩
  have hlt : i < image.bytes.size := by simpa using (List.getElem?_eq_some_iff.1 hb).1
  have habove := hapart.above
  have hbelow := hapart.below
  have hbase : mainBase = 0x200 := rfl
  rw [Image.stop] at hbelow
  have haddress : (image.origin + UInt16.ofNat i).toNat = image.origin.toNat + i := by
    rw [UInt16.toNat_add, UInt16.toNat_ofNat']
    omega
  rw [← hc.bytes i b hb, hmain _ (by omega)]
  refine hkeeps.main _ fun hopen => ?_
  obtain ⟨area, harea, hfrom, hto⟩ := hopen
  obtain ⟨-, haside⟩ := hapart.apart id hid area harea
  rw [Image.stop] at haside
  omega

theorem round_trips {t : Target} (ht : Roomy t) {there back : RoutineId} {text : View → String}
    (hids : [there, back] ⊆ textual)
    (hroom : 2048 * ([there, back].flatMap RoutineId.closure).length ≤ 0x3000)
    (hbuffers : (bounds there).buffers = [.conversion])
    (hstarts : ∀ v, starts t there v ∧ starts t back v) (hthere : ends t there = converts t text)
    (hlength : ∀ u, (spelled (text u)).length ≤ 11) (hzero : ∀ u, 0 ∉ spelled (text u))
    (hback : ∀ u v w, v.Spells (bounds back).slots (v.pointer string1) (spelled (text u)) →
      ends t back v w →
      returnsWord intR w ∧ w.word intR = u.word intA) : RoundTrips t there back := by
  have hconducted := textual_conducted ht [there, back] hids
  refine ⟨stock_links_low hconducted hroom, fun origin image hlink hapart => ?_⟩
  obtain ⟨a, ha, hgoes⟩ := stock_call hconducted hlink hapart List.mem_cons_self
  obtain ⟨b, hb, hcomes⟩ :=
    stock_call hconducted hlink hapart (List.mem_cons_of_mem _ (List.mem_singleton_self back))
  refine ⟨a, b, ha, hb, fun c hc => ?_⟩
  obtain ⟨n, c', w, hcall, hshows, hkeeps, hends⟩ := hgoes c hc (hstarts c.view).1
  refine ⟨n, c', hcall, fun d hchrout hplot hmain hpointer => ?_⟩
  have hsame (address : UInt16) (hlow : mainBase ≤ address.toNat) :
      d.read address = w.main address :=
    (hmain address hlow).trans (hshows.main address hlow)
  have hd := carries_kept hapart List.mem_cons_self hc hkeeps (hchrout.trans hshows.chrout)
    (hplot.trans hshows.plot) hsame
  obtain ⟨m, d', w', hcall', hshows', -, hends'⟩ := hcomes d hd (hstarts d.view).2
  have harea : (t.conversionBase.toNat, t.conversionSize.toNat) ∈ (conduct t there).areas := by
    rw [conduct, hbuffers]
    exact List.mem_singleton_self _
  obtain ⟨hlow, -⟩ := hapart.apart there List.mem_cons_self _ harea
  have htexts := ht.texts
  have hwithin := ht.conversion
  have hshort := hlength c.view
  change ends t there c.view w at hends
  rw [hthere] at hends
  have hspells : d.view.Spells (bounds back).slots (d.view.pointer string1)
      (spelled (text c.view)) := by
    rw [hpointer]
    refine spells_place (m := c.view.main) hlow (by omega) (by omega) (hzero c.view)
      fun address haddress => ?_
    exact (hsame address haddress).trans (congrFun hends.2 address)
  obtain ⟨hreturns, hword⟩ := hback c.view d.view w' hspells hends'
  exact ⟨m, d', w', hcall', hshows', hreturns, hword⟩

/-- Numbers are read from texts as long as the digits go, behind blanks and, if they are to have a
sign, behind a minus sign, and a number that has been turned into text is read again. -/
theorem numbers_read {t : Target} (ht : t.error? = none) :
    Provides t .u16OfText readsWord ∧ Provides t .i16OfText readsSignedWord ∧
      RoundTrips t .textOfU16 .u16OfText ∧ RoundTrips t .textOfI16 .i16OfText := by
  refine ⟨provides ht (by decide) (fun _ => trivial) fun _ _ _ h =>
    h, provides ht (by decide) (fun _ => trivial) fun _ _ _ h => h, ?_, ?_⟩
  · refine round_trips (roomy_of_error? ht) (by decide) (by decide +kernel)
      rfl (fun _ => ⟨trivial, trivial⟩) rfl
      (fun u => (length_spelled_word (u.word_lt intA)).trans (by decide)) (fun u =>
        not_mem_spelled _)
      fun u v w hspells hends => ⟨hends.1, ?_⟩
    rw [hends.2 _ hspells, unindented_spelled, decimalOf_spelled, Nat.mod_eq_of_lt (u.word_lt intA)]
  · refine round_trips (roomy_of_error? ht) (by decide) (by decide +kernel)
      rfl (fun _ => ⟨trivial, trivial⟩) rfl
      (fun u => (length_spelled_signed (u.word_lt intA)).trans (by decide)) (fun u =>
        not_mem_spelled_signed (u.word_lt intA))
      fun u v w hspells hends => ⟨hends.1, ?_⟩
    have hlt := u.word_lt intA
    have hread := hends.2 _ hspells
    have hmod : ((u.word intA : ℤ).bmod 65536) % 65536 = (u.word intA : ℤ) % 65536 := Int.bmod_emod
    rw [signedDecimal_spelled hlt, hmod] at hread
    omega

/-- The usual machine with a text at `$8000`. -/
def indented : View :=
  let v := loaded string1 0x8000 string2 0
  { v with main := Contents.place v.main 0x8000 [0x20, 0x2D, 0x37, 0x78, 0] }

/-- A number is read from behind a blank and from in front of a letter. -/
theorem minus_seven_read : Target.c64.error? = none ∧ Runs .i16OfText indented fun u w =>
    u.Spells [] 0x8000 (spelled " -7x") ∧ (w.word intR : ℤ).bmod 65536 = -7 := by
  have ht : Target.c64.error? = none := by decide
  refine ⟨ht, (numbers_read ht).2.1.runs rfl rfl fun u w hzp hmain hreads => ?_⟩
  have hpointer : u.pointer string1 = 0x8000 := by
    rw [View.pointer, hzp]
    rfl
  have htext (zs : List UInt8) : u.Spells zs 0x8000 (spelled " -7x") := by
    refine spells_main (by decide) (by decide +kernel) (by decide +kernel)
      (by decide +kernel) fun i hi => ?_
    change i ≤ 4 at hi
    rw [hmain]
    all_goals interval_cases i <;> decide +kernel
  rw [hreads.2 _ (hpointer ▸ htext _)]
  exact ⟨htext _, by decide +kernel⟩

/-! ### A string in the slots of the number -/

/-- A digit lies where the number that is read will lie. -/
structure OwnDigit (u : View) : Prop where
  pointer : u.pointer string1 = intR.toUInt16
  digit : u.zp intR = 0x35

/-- The conduct of reading a number from where it will lie: the digit is lost before it is read. -/
def ownDigit : RoutineId → Conduct
  | .parseU16 => asked 0 .parseU16 (fun u => u.pointer string1 = intR.toUInt16 ∧ u.y = 0) fun _ w =>
      w.word intR = 0
  | id => asked 2 id OwnDigit fun _ w => returnsWord intR w ∧ w.word intR = 0

theorem peek_own {v : View} (hpointer : v.pointer string1 = intR.toUInt16) (hy : v.y = 0) :
    v.peek (v.pointer string1 + v.y.toUInt16) = v.zp intR := by
  rw [hpointer, hy]
  rfl

theorem parseU16_own : Obeys ownDigit .c64 .parseU16 := by
  refine .last ?_
  simp only [body, parseU16, bind_assoc]
  refine .label (fun _ u v => v.word intR = 0) fun done => ?_
  let cleared : Assertion := fun _ u v => v.word intR = 0
  refine .knowing (.exec (Q := fun n u v => cleared n u v ∧ v.pointer string1 = intR.toUInt16 ∧
    v.y = 0) rfl (fun _ u v hv => ?_) (.here fun loop => ?_))
  · obtain ⟨rfl, ⟨hpointer, hy⟩, -⟩ := hv
    exact ⟨_, rfl, rfl, hpointer, hy⟩
  refine .read (Q := fun n u v => cleared n u v ∧ v.a = 0) rfl rfl (fun n u v hv => ?_) ?_
  · obtain ⟨hcleared, hpointer, hy⟩ := hv
    refine ⟨_, _, rfl, rfl, hcleared, ?_⟩
    show v.peek (v.pointer string1 + v.y.toUInt16) = 0
    rw [peek_own hpointer hy, eq_zero_iff]
    have : v.word intR = 0 := hcleared
    rw [View.word] at this
    omega
  refine .exec (Q := fun n u v => cleared n u v ∧ v.carry = true)
    rfl (fun n u v hv => ⟨_, rfl, hv.1, ?_⟩) ?_
  · simp [hv.2]
  refine .branch (Q := .never) (fun _ _ _ hv _ => hv.1) (fun _ u v hv hskipped => ?_) ?_
  · simp [View.takes?, hv.2] at hskipped
  refine .exec (Q := .never) rfl (fun _ _ _ hv => hv.elim) (.label .never fun noCarry => ?_)
  refine .exec (Q := .never) rfl (fun _ _ _ hv => hv.elim) ?_
  refine .branch (Q := .never) (fun _ _ _ hv _ => hv) (fun _ _ _ hv _ => hv) ?_
  refine .run (Q := .never) rfl (fun _ _ _ hv => hv.elim) (.bind ?_)
  refine .run (Q := .never) rfl (fun _ _ _ hv => hv.elim) ?_
  refine .branchBack (Q := .never) (fun _ _ _ hv _ => hv.elim) (fun _ _ _ hv _ => hv) (.bind ?_)
  exact .rts (fun _ _ _ hv => hv) (.done (by decide) _)

theorem u16OfText_own : Obeys ownDigit .c64 .u16OfText := by
  refine .last ?_
  simp only [body, u16OfText, Routine.skipSpaces, bind_assoc]
  let skipped : Assertion := fun _ u v => v.pointer string1 = intR.toUInt16 ∧ v.y = 0
  refine .label skipped fun done => ?_
  refine .knowing (.run (Q := fun n u v => skipped n u v ∧ v.zp intR = 0x35)
    rfl (fun _ u v hv => ?_) (.here fun loop => ?_))
  · obtain ⟨rfl, hu, -⟩ := hv
    exact ⟨_, rfl, ⟨hu.pointer, rfl⟩, hu.digit⟩
  refine .read (Q := fun n u v => skipped n u v ∧ v.a = 0x35) rfl rfl (fun n u v hv => ?_) ?_
  · obtain ⟨⟨hpointer, hy⟩, hdigit⟩ := hv
    exact ⟨_, _, rfl, rfl, ⟨hpointer, hy⟩, (peek_own hpointer hy).trans hdigit⟩
  refine .run (Q := fun n u v => skipped n u v ∧ v.zero = false)
    rfl (fun n u v hv => ⟨_, rfl, hv.1, ?_⟩) ?_
  · simp [hv.2]
  refine .branch (Q := .never) (fun _ _ _ hv _ => hv.1) (fun _ u v hv hskipped => ?_) ?_
  · simp [View.takes?, hv.2] at hskipped
  refine .run (Q := .never) rfl (fun _ _ _ hv => hv.elim) ?_
  refine .branchBack (Q := .never) (fun _ _ _ hv _ => hv.elim) (fun _ _ _ hv _ => hv) (.bind ?_)
  refine .callOf (Q := fun _ _ v => v.word intR = 0) (by decide) ?_
    (by decide) (fun _ u v b hv => hv) (fun _ u v b w _ _ hw => hw) ?_
  · exact ⟨by decide, by decide, id, id, by decide⟩
  refine .exec (Q := fun _ _ v => returnsWord intR v ∧ v.word intR = 0)
    rfl (fun _ u v hv => ⟨_, rfl, ⟨rfl, rfl⟩, hv⟩) ?_
  exact .rts (fun _ _ _ hv => hv) (.done (by decide) _)

/-- A string of one digit that lies where the number will lie: instead of five zero is read. -/
theorem own_digit_lost :
    ∃ image, (library .u16OfText).stream.link libraryOrigin = .ok image ∧ LiesLow image ∧
    let c := loading (loaded intR 0x35 string1 intR.toNat) image
    c.Carries image ∧ c.view.Spells [] (c.view.pointer string1) (spelled "5") ∧
      decimalOf (digits (unindented (spelled "5"))) = 5 ∧
      ∃ address, image.lookup? RoutineId.u16OfText.name = some address ∧
        ∃ c' w, c.call address 0 = (c', none) ∧ c'.Shows w ∧ returnsWord intR w ∧
            w.word intR = 0 := by
  have hobeys : ∀ r, RoutineId.u16OfText.Needs r → Obeys ownDigit .c64 r := by
    intro r hr
    have hclosure : ∀ r ∈ RoutineId.u16OfText.closure, r = .u16OfText ∨
      r = .parseU16 := by decide +kernel
    rcases hclosure r (mem_closure_iff.2 hr) with rfl | rfl
    · exact u16OfText_own
    · exact parseU16_own
  have hfits (r : RoutineId) (code : LinkedCode) : (ownDigit r).Fits code := by
    cases r <;> exact asked_fits code
  obtain ⟨image, hlink, hlies⟩ :=
    stock_links_low (List.forall_mem_singleton.2 hobeys) (by decide +kernel)
  have hapart := hlies.apart []
  obtain ⟨code, hcode, hbytes, hroutines⟩ :=
    stock_obeys (List.forall_mem_singleton.2 hobeys) hlink hapart.above hapart.below
    fun _ _ r _ code _ _ => hfits r code
  obtain ⟨address, hlookup, hfit, hrun⟩ := hroutines .u16OfText (List.mem_singleton_self _)
  generalize hv : loaded intR 0x35 string1 intR.toNat = v
  have hzp := zp_loading (v := v) hlies
  have hcarries := loading_carries (v := v) hlies (by rw [← hv]; rfl) (by rw [← hv]; rfl)
  have hpointer : (loading v image).view.pointer string1 = intR.toUInt16 := by
    rw [View.pointer, hzp, ← hv]
    rfl
  have hdigit : (loading v image).view.zp intR = 0x35 := by
    rw [hzp, ← hv]
    rfl
  have hend : (loading v image).view.zp (intR + 1) = 0 := by
    rw [hzp, ← hv]
    rfl
  obtain ⟨n, c', w, hcall, hshows, -, hreturns, hword⟩ :=
    hrun.call_eq hfit (by decide) (hcarries.intact hcode hbytes) ⟨hpointer, hdigit⟩
  refine ⟨image, hlink, hlies, hcarries,
    ⟨by decide +kernel, by decide +kernel, fun i hi => .inl ?_⟩, by
      decide +kernel, address, hlookup,
    c', w.drop.drop, hcall 0 (.inl rfl), hshows, hreturns, hword⟩
  change i ≤ 1 at hi
  rw [hpointer]
  interval_cases i
  · exact ⟨intR, List.not_mem_nil, rfl, hdigit⟩
  · exact ⟨intR + 1, List.not_mem_nil, rfl, hend⟩

end Breadbin.Routine
