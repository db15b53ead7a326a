import Breadbin.Proofs.Routine.Chance
import Breadbin.Proofs.Routine.Texts

/-!
# The frames of routines

The remaining routines compare and measure strings, print them and seed the generator; each of their
loops counts Y up, so they come back whatever the memory holds.  With them every routine keeps to
its conduct, and the conducts are those that the contracts of the routines tell of: what a contract
lists as outputs or as clobbered are the only slots that change.
-/

namespace Breadbin.Routine

open Assembly Machine ZeroPage Writer

variable {t : Target}

namespace Flows

variable {K : RoutineId → Conduct} {id : RoutineId} {α : Type} {size k : ℕ} {back : Back}
  {ahead : Ahead} {P : Assertion} {r : Footing}
  {f : Unit → Writer α}

/-- A is pushed. -/
theorem push [P.RestsOn r] (hk : k < (K id).depth)
    (h : Flows K t id (size - 5) back ahead (k + 1) P (f ())) :
    Flows K t id size back ahead k P (op .pha >>= f) := by
  refine .line (.instr .pha .implied) h (fun w => by rw [bind_apply, op_apply]; rfl) rfl
    fun code a b hfits hin n hback hahead hends => ?_
  refine hends.after fun u v _ _ hv hp => ?_
  refine ⟨v.push v.a, 0, hin.run rfl, hv.push hk v.a, ?_⟩
  exact Assertion.RestsOn.kept n u v _ ⟨fun _ => rfl, fun _ => rfl, fun _ _ => rfl⟩ hp

/-- A byte is pulled into A. -/
theorem pull [P.RestsOn r] (h : Flows K t id (size - 5) back ahead k P (f ())) :
    Flows K t id size back ahead (k + 1) P (op .pla >>= f) := by
  refine .line (.instr .pla .implied) h (fun w => by rw [bind_apply, op_apply]; rfl) rfl
    fun code a b hfits hin n hback hahead hends => ?_
  refine hends.after fun u v _ _ hv hp => ?_
  refine ⟨v.drop.setA v.top, 0, hin.run rfl, ?_, ?_⟩
  · exact hv.drop.change rfl rfl rfl rfl rfl (fun _ _ => rfl) (fun _ => rfl) fun _ => rfl
  · exact Assertion.RestsOn.kept n u v _ ⟨fun _ => rfl, fun _ => rfl, fun _ _ => rfl⟩ hp

/-- A byte of a string is read into A. -/
theorem fetch [P.RestsOn r] {z : UInt8} (h : Flows K t id (size - 5) back ahead k P (f ())) :
    Flows K t id size back ahead k P (indY .lda z >>= f) :=
  .read rfl rfl (fun n u v hp => ⟨_, _, rfl, rfl,
    Assertion.RestsOn.kept n u v _ ⟨fun _ => rfl, fun _ => rfl, fun _ _ => rfl⟩ hp⟩) h

end Flows

/-! ## Strings -/

theorem stringLength_conducted : Conducted t .stringLength := by
  refine .last ?_
  simp only [body, stringLength, bind_assoc]
  refine .weaken (.measure (p := fun u v => v.main = u.main) [] (by decide) (by decide) (by decide)
    rfl (fun _ _ h => h) (fun _ _ _ h _ hw => hw.trans h) ?_) fun _ u v huv => huv ▸ rfl
  exact .exec (Q := .free) rfl (fun _ _ _ _ => ⟨_, rfl, trivial⟩)
    (.rts trivially (.done (by decide) _))

theorem stringEqual_conducted : Conducted t .stringEqual := by
  refine .of_free ?_
  simp only [body, stringEqual, bind_assoc]
  refine .label .free fun equal => .label .free fun different => .straight rfl ?_
  refine .loop (fun _ y => upTo 0 y) fun loop =>
    .fetch (.read (Q := .counted fun _ y => upTo 0 y) rfl
      rfl (fun _ _ _ hv => ⟨_, _, rfl, rfl, hv⟩) ?_)
  refine .branchOn (.straight rfl (.branchOn (.countupY rfl (.bind ?_))))
  refine .straight rfl
    (.rts trivially (.bind (.straight rfl (.rts trivially (.done (by decide) _)))))

theorem stringAt_conducted : Conducted t .stringAt := by
  refine .of_free ?_
  simp only [body, stringAt, bind_assoc]
  refine .label .free fun done => .straight rfl ?_
  refine .loop (fun _ y => upTo 0 y) fun loop =>
    .fetch (.branchOn (.straight rfl (.branchOn (.countupY rfl ?_))))
  exact .straight rfl (.bind (.rts trivially (.done (by decide) _)))

theorem textOfBool_conducted : Conducted t .textOfBool := by
  refine .of_free ?_
  simp only [body, textOfBool, bind_assoc]
  refine .promise (.table [0x54, 0x52, 0x55, 0x45, 0]) fun trueText =>
    .promise (.table [0x46, 0x41, 0x4C, 0x53, 0x45, 0]) fun falseText => ?_
  refine .label .free fun isFalse =>
    .straight rfl (.branchOn (.straight rfl (.rts trivially (.bind ?_))))
  exact .straight rfl (.rts trivially (.table (.table (.done (by decide) _))))

/-! ## Output -/

theorem printString_conducted : Conducted t .printString := by
  refine .of_free ?_
  simp only [body, printString, bind_assoc]
  refine .label .free fun done => .straight rfl ?_
  refine .loop (fun _ y => upTo 0 y) fun loop => .fetch (.branchOn (.target ?_))
  exact .print (fun _ h => h) (Nat.le_refl 2)
    (.countupY rfl (.bind (.rts trivially (.done (by decide) _))))

theorem printLineEnd_conducted : Conducted t .printLineEnd := by
  refine .of_free ?_
  simp only [body, printLineEnd, bind_assoc]
  exact .straight rfl
    (.target (.printTail (fun _ h => h) (fun _ _ _ _ => trivial) (.done (by decide) _)))

/-! ## Random numbers -/

theorem randomSeed_conducted : Conducted t .randomSeed := by
  refine .of_free ?_
  simp only [body, randomSeed, bind_assoc]
  exact .label .free fun proceed =>
    .straight rfl (.branchOn (.straight rfl (.bind (.rts trivially (.done (by decide) _)))))

theorem randomInit_conducted : Conducted t .randomInit := by
  refine .of_free ?_
  simp only [body, randomInit, bind_assoc]
  refine .straight rfl (.push Nat.one_pos (.straight rfl (.pull ?_)))
  exact .tailCall (by decide) (fun _ _ _ _ => trivial) (fun _ _ _ _ _ _ => trivial)
    (.done (by decide) _)

/-- Where the buffers are large enough, every routine keeps to its conduct. -/
theorem conducted (ht : Roomy t) (id : RoutineId) : Conducted t id := by
  cases id
  exacts [mul8_conducted, mul16_conducted, divU8_conducted, divS8_conducted,
    divU16_conducted, divS16_conducted, fixedMul_conducted, fixedDiv_conducted, floatPack_conducted,
    floatAdd_conducted, floatSub_conducted, floatMul_conducted,
    floatDiv_conducted, floatCompare_conducted, floatOfMagnitude_conducted, floatOfU16_conducted,
    floatOfI16_conducted,
    floatTruncate_conducted, floatSaturate_conducted, floatToU16_conducted, floatToI16_conducted,
    floatOfFixed_conducted,
    floatToFixed_conducted, stringConcat_conducted ht, stringEqual_conducted,
    stringLength_conducted, formatU16_conducted ht,
    textOfU16_conducted ht, textOfI16_conducted ht, textOfFixed_conducted ht, textOfFloat_conducted,
    textOfBool_conducted,
    parseU16_conducted, u16OfText_conducted, i16OfText_conducted, printString_conducted,
    printLineEnd_conducted,
    randomSeed_conducted, randomNext_conducted, randomInit_conducted, stringAt_conducted,
    randomRange_conducted]

/-! ## What contracts list -/

/-- The slots that contracts name, with their sizes. -/
def namedSlots : List (String × UInt8 × ℕ) :=
  [("IntA", intA, 2), ("IntB", intB, 2), ("IntR", intR, 2), ("IntRem", intRemainder, 2),
    ("FixA", fixA, 2), ("FixB", fixB, 2), ("FixR", fixR, 2), ("FltA", floatA, 2),
    ("FltB", floatB, 2), ("FltR", floatR, 2), ("Work", work, 1), ("StrP1", string1, 2),
    ("StrP2", string2, 2), ("Seed", seed, 2)]

/-- The first byte and the size of what a word of a contract names: a slot, or a byte behind its
first one. -/
def slotNamed? (word : Bytes) : Option (UInt8 × ℕ) :=
  match word.splitOn '+'.toUInt8 with
  | [name] => (namedSlots.find? fun slot => Text.bytesOf slot.1 = name).map Prod.snd
  | [name, [digit]] =>
    (namedSlots.find? fun slot => Text.bytesOf slot.1 = name).map fun slot =>
      (slot.2.1 + (digit - '0'.toUInt8), 1)
  | _ => none

/-- The bytes that a word of a contract names: those of a slot, or all from one byte to another
one. -/
def bytesNamed (word : Bytes) : List UInt8 :=
  match word.splitOn '.'.toUInt8 with
  | [first, [], last] =>
    match slotNamed? first, slotNamed? last with
    | some (low, _), some (high, _) => (List.range (high.toNat - low.toNat + 1)).map fun i =>
        low + UInt8.ofNat i
    | _, _ => []
  | _ => ((slotNamed? word).map fun slot => (List.range slot.2).map fun i =>
      slot.1 + UInt8.ofNat i).getD []

/-- The words of a text, with the signs of sums and ranges in them. -/
def wordsOf (text : String) : List Bytes :=
  (Text.bytesOf text).splitOnP fun c => c < '0'.toUInt8 && c != '+'.toUInt8 && c != '.'.toUInt8

/-- The bytes of the zero page that a contract lists as outputs or as clobbered. -/
def listed (c : Contract) : List UInt8 :=
  (wordsOf c.outputs ++ wordsOf c.clobbers).flatMap bytesNamed

example : listed (RoutineId.contract .divS8) = word intR ++ word intRemainder ++ word intA ++
    word intB ++ workBytes 4 := by
  decide +kernel

/-- Whether a contract lists a register as preserved. -/
def preserves (c : Contract) (register : String) : Bool :=
  (wordsOf c.preserves).contains (Text.bytesOf register)

/-! ## Frames -/

/-- A byte of memory that a routine may change on the usual machine: the stack page, the slots that
its contract lists, and the buffer or the registers that it works on. -/
inductive MayChange (id : RoutineId) (address : UInt16) : Prop where
  | stack (hlow : 0x100 ≤ address.toNat) (hhigh : address.toNat < mainBase)
  | slot (z : UInt8) (hz : z ∈ listed id.contract) (heq : address = z.toUInt16)
  | generator (hid : id = .randomRange) (z : UInt8) (hz : z ∈ word seed)
      (heq : address = z.toUInt16)
  | buffer (hid : id ∈ [.formatU16, .textOfU16, .textOfI16, .textOfFixed, .textOfFloat])
      (hlow : Target.c64.conversionBase ≤ address)
        (hhigh : address < Target.c64.conversionBase + Target.c64.conversionSize)
  | joined (hid : id = .stringConcat) (hlow : Target.c64.concatenationBase.toNat ≤ address.toNat)
      (hhigh : address.toNat < Target.c64.concatenationBase.toNat + Target.concatenationSize)
  | voice (hid : id = .randomInit)
      (hvoice : address ∈ [voiceFrequency, voiceFrequency + 1, voiceControl])

/-- A processor that has come back from a routine as its contract says: the stack is where it was,
the registers are kept that the contract lists, and so is all memory but what the routine may
change. -/
structure Framed (id : RoutineId) (c c' : Cpu) : Prop where
  sp : c'.sp = c.sp
  x : preserves id.contract "X" = true → c'.x = c.x
  y : preserves id.contract "Y" = true → c'.y = c.y
  memory : ∀ address, ¬MayChange id address → c'.read address = c.read address

/-- The conducts allow no more than the contracts tell of. -/
theorem bounds_listed (id : RoutineId) :
    (∀ z ∈ (bounds id).slots, z ∈ listed id.contract ∨ id = .randomRange ∧ z ∈ word seed) ∧
      (preserves id.contract "X" = true → (bounds id).keepsX = true) ∧
      (preserves id.contract "Y" = true → (bounds id).keepsY = true) := by
  -- the slots are gone through one by one: there are far more bytes than slots
  have hslots : ((bounds id).slots.all fun z =>
      decide (z ∈ listed id.contract ∨ id = .randomRange ∧ z ∈ word seed)) = true := by
    cases id <;> decide +kernel
  refine ⟨fun z hz => of_decide_eq_true (List.all_eq_true.1 hslots z hz), ?_⟩
  cases id <;> decide +kernel

/-- Memory behind the stack page that a routine owns is memory that it may change. -/
theorem MayChange.of_owns {id : RoutineId} {address : UInt16} (h : (conduct .c64 id).Owns address) :
    MayChange id address := by
  obtain ⟨area, harea, hlow, hhigh⟩ := h
  obtain ⟨buffer, hbuffer, hmem⟩ := List.mem_flatMap.1 harea
  have hwho : ∀ id ∈ RoutineId.all, ∀ buffer ∈ (bounds id).buffers,
      buffer = .conversion ∧ id ∈ [.formatU16, .textOfU16, .textOfI16, .textOfFixed, .textOfFloat] ∨
        buffer = .concatenation ∧ id = .stringConcat ∨ buffer = .voices ∧
        id = .randomInit := by decide +kernel
  rcases hwho id (mem_all id) buffer hbuffer with ⟨rfl, hid⟩ | ⟨rfl, hid⟩ | ⟨rfl, hid⟩
  · obtain rfl := List.mem_singleton.1 hmem
    exact .buffer hid (UInt16.le_iff_toNat_le.2 hlow) (UInt16.lt_iff_toNat_lt.2 hhigh)
  · obtain rfl := List.mem_singleton.1 hmem
    exact .joined hid hlow hhigh
  · refine .voice hid ?_
    have hareas : area = (0xD40E, 2) ∨ area = (0xD412, 1) :=
      (List.mem_cons.1 hmem).imp_right List.mem_singleton.1
    have haddress : address.toNat = 0xD40E ∨ address.toNat = 0xD40F ∨ address.toNat = 0xD412 := by
      rcases hareas with rfl | rfl <;> omega
    simp only [List.mem_cons, List.not_mem_nil, or_false, ← UInt16.toNat_inj]
    exact haddress

theorem roomy_c64 : Roomy .c64 := ⟨by decide, by decide, by decide⟩

/-- What the views before and after a call tell of the processors. -/
theorem Framed.of_keeps {id : RoutineId} {c c' : Cpu} {w : View}
    (hkeeps : (conduct .c64 id).called.Keeps 0 c.view w) (hw : c'.Shows w) :
    Framed id c c' := by
  obtain ⟨hslots, hx, hy⟩ := bounds_listed id
  refine ⟨?_, fun h => hw.x.trans (hkeeps.x (hx h)), fun h => hw.y.trans (hkeeps.y (hy h)),
    fun address hstays => ?_⟩
  · rw [hw.sp, hkeeps.sp]
    exact UInt8.sub_zero _
  have hbase : mainBase = 0x200 := rfl
  by_cases hpage : address.toNat < 0x100
  · obtain ⟨z, rfl⟩ : ∃ z : UInt8, address = z.toUInt16 :=
      ⟨UInt8.ofNat address.toNat, UInt16.toNat_inj.1 (by simp; omega)⟩
    rw [hw.zp]
    refine hkeeps.zp z fun hz => hstays ?_
    rcases hslots z hz with hlisted | ⟨hid, hseed⟩
    · exact .slot z hlisted rfl
    · exact .generator hid z hseed rfl
  · have hmain : mainBase ≤ address.toNat := Nat.le_of_not_lt fun hless =>
      hstays (.stack (by omega) hless)
    rw [hw.main address hmain]
    exact hkeeps.main address fun howns => hstays (.of_owns howns)

/-- Linked with all it needs at `$1000` and loaded into a processor with the usual traps, with any
registers, flags and other memory, every routine comes back from a call and has changed nothing but
what its contract tells of.  The routine that writes digits behind an offset asks for them to fit
into the buffer. -/
theorem routine_framed (id : RoutineId) :
    ∃ image address, (library id).stream.link libraryOrigin = .ok image ∧
      image.lookup? id.name = some address ∧
      ∀ c : Cpu, c.chrout = Target.c64.chrout → c.plot = Target.c64.plot →
        (id = .formatU16 → hasRoom .c64 c.view) →
        ∃ loaded c', c.load libraryOrigin image.bytes.toList = (loaded, none) ∧
          loaded.call address 0 = (c', none) ∧
          Framed id loaded c' := by
  have hconducted : ∀ asked ∈ [id], ∀ r, asked.Needs r → Conducted .c64 r := fun _ _ r _ =>
    conducted roomy_c64 r
  obtain ⟨image, hlink, hlies⟩ := library_links fun r _ => conducted roomy_c64 r
  obtain ⟨address, hlookup, hcalls⟩ :=
    stock_call hconducted hlink (hlies.apart [id]) (List.mem_singleton_self id)
  refine ⟨image, address, hlink, hlookup, fun c hchrout hplot hroom => ?_⟩
  have horigin := hlies.origin
  have hcarries := load_low_carries hlies hchrout hplot
  have hload := load_low c hlies
  have hread (z : UInt8) : (c.load image.origin image.bytes.toList).1.read z.toUInt16 =
      c.read z.toUInt16 := by
    have := z.toNat_lt
    exact read_load_low c hlies (.inl (by rw [UInt8.toNat_toUInt16]; omega))
  rw [hload] at hcarries hread
  have hready : (conduct .c64 id).starts
      { c with memory := c.memory.writeBytes image.origin image.bytes.toList : Cpu }.view := by
    cases id
    case formatU16 =>
      have hword : View.word
          (Cpu.view { c with memory := c.memory.writeBytes image.origin image.bytes.toList }) intA =
              c.view.word intA :=
        View.word_congr (hread intA) (hread (intA + 1))
      exact ⟨hword ▸ (hroom rfl).1, hword ▸ (hroom rfl).2⟩
    case printString | printLineEnd => exact ⟨hchrout, by decide, by decide⟩
    all_goals exact trivial
  obtain ⟨n, c', w, hcall, hshows, hkeeps, -⟩ := hcalls _ hcarries hready
  exact ⟨_, c', horigin ▸ hload, hcall 0 (.inl rfl), .of_keeps hkeeps hshows⟩

/-- A processor that is to write the digits of 12345 behind two characters. -/
def prepared : Cpu := { y := 2, memory := Memory.zero.writeWord intA.toUInt16 12345 }

/-- They fit into the buffer. -/
theorem prepared_framed : prepared.view.word intA = 12345 ∧ ∃ image address, ∃ loaded c' : Cpu,
    (library .formatU16).stream.link libraryOrigin = .ok image ∧
      image.lookup? "fmt_u16" = some address ∧
      prepared.load libraryOrigin image.bytes.toList = (loaded, none) ∧
        loaded.call address 0 = (c', none) ∧
      Framed .formatU16 loaded c' := by
  have hword : prepared.view.word intA = 12345 := by decide +kernel
  have hroom : hasRoom .c64 prepared.view := ⟨by decide +kernel, by decide +kernel⟩
  obtain ⟨image, address, hlink, hlookup, hcalls⟩ := routine_framed .formatU16
  obtain ⟨loaded, c', hload, hcall, hframed⟩ := hcalls prepared rfl rfl fun _ => hroom
  exact ⟨hword, image, address, loaded, c', hlink, hlookup, hload, hcall, hframed⟩

end Breadbin.Routine
