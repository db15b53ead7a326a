import Breadbin.Proofs.Machine.Branching
import Breadbin.Proofs.Machine.Conduct
import Breadbin.Proofs.Routine.Linked

/-!
# Calling linked routines

A processor that carries the library of a routine calls it, from any registers and memory, and the
call comes back.  What the routine does is said of the views before and after the call.
-/

namespace Breadbin.Machine

open Assembly

/-- The conduct of a call from outside, which pushes a return address. -/
def Conduct.called (M : Conduct) : Conduct := { M with depth := M.depth + 2 }

theorem Conduct.allows_called (M : Conduct) : M.called.Allows 2 M :=
  ⟨List.Subset.refl _, List.Subset.refl _, id, id, Nat.le_of_eq (Nat.add_comm 2 M.depth)⟩

/-- An image in memory is code in memory. -/
theorem Cpu.Carries.intact {c : Cpu} {image : Image} (h : c.Carries image) {code : LinkedCode}
    (horigin : code.origin = image.origin.toNat) (hbytes : code.bytes = image.bytes.toList) :
    code.Intact c.view := by
  have habove := code.above
  have hbelow := code.below
  have hstop : image.stop = code.origin + Placement.size code.placements := by
    rw [Image.stop, ← horigin, ← LinkedCode.length_bytes, hbytes, Array.length_toList]
  have hbase : mainBase = 0x200 := rfl
  refine ⟨fun i n hi => ?_, fun hcovers => ?_, fun hcovers => ?_⟩
  · rw [← h.bytes i n (hbytes ▸ hi)]
    change c.read _ = c.read _
    rw [UInt16.ofNat_add, horigin, UInt16.ofNat_toNat]
  · by_cases hzero : c.chrout = 0
    · have := hcovers.1
      rw [show c.view.chrout = 0 from hzero] at this
      change code.origin ≤ 0 at this
      omega
    · have := h.chrout hzero
      obtain ⟨hfrom, hto⟩ := hcovers
      change code.origin ≤ c.chrout.toNat at hfrom
      change c.chrout.toNat < _ at hto
      omega
  · by_cases hzero : c.plot = 0
    · have := hcovers.1
      rw [show c.view.plot = 0 from hzero] at this
      change code.origin ≤ 0 at this
      omega
    · have := h.plot hzero
      obtain ⟨hfrom, hto⟩ := hcovers
      change code.origin ≤ c.plot.toNat at hfrom
      change c.plot.toNat < _ at hto
      omega

/-- A routine that keeps to its conduct comes back from a call. -/
theorem Conduct.Starts.call_eq {M : Conduct} {code : LinkedCode} {address : UInt16}
    (h : M.Starts code address.toNat)
    (hfits : M.Fits code) (hdepth : M.depth ≤ 253) {c : Cpu} (hintact : code.Intact c.view)
    (hstarts : M.starts (c.view.call callEnd)) :
    ∃ n c' w, (∀ limit, limit = 0 ∨ n < limit → c.call address limit = (c', none)) ∧
      c'.Shows w.drop.drop ∧
      M.called.Keeps 0 c.view w.drop.drop ∧ M.ends (c.view.call callEnd) w := by
  have hfits' : M.called.Fits code := hfits
  have hcalled : M.called.Keeps 2 c.view (c.view.call callEnd) :=
    (Keeps.refl M.called c.view).call (Nat.le_add_left 2 M.depth) callEnd
  obtain ⟨w, hback, hw, hends⟩ := h _ _ (hcalled.intact hfits' hintact) hstarts (.refl M _) rfl
  have hret : w.returnAddress = callEnd := returnAddress_call hw (by omega) (by decide) (by decide)
  have hreaches := hback (by rw [hret]; decide)
  rw [hret] at hreaches
  obtain ⟨n, c', hshows, hcall⟩ := hreaches.call_eq c.shows_view hintact
  exact ⟨n, c', w, hcall, hshows, ((hcalled.trans hw M.allows_called).drop).drop, hends⟩

/-- Code calls a routine that keeps to its conduct. -/
theorem Conduct.Starts.call {M : Conduct} {code : LinkedCode} {a b t : Nat} {l : LabelId}
    (h : M.Starts code t) (hfits : M.Fits code)
    (hdepth : M.depth ≤ 253) (hl : code.At l t)
    (hcall : code.Installed a [.instr .jsr (.absolute (.ofLabel l))] b) {v : View}
    (hintact : code.Intact v) (hstarts : M.starts (v.call b)) :
    ∃ w, code.Reaches 0 a v b w.drop.drop ∧ M.called.Keeps 0 v w.drop.drop ∧
      M.ends (v.call b) w := by
  have hfits' : M.called.Fits code := hfits
  have hcalled : M.called.Keeps 2 v (v.call b) :=
    (Keeps.refl M.called v).call (Nat.le_add_left 2 M.depth) b
  obtain ⟨w, hback, hw, hends⟩ := h _ _ (hcalled.intact hfits' hintact) hstarts (.refl M _) rfl
  obtain ⟨op, -, hcontains, hsize, -⟩ := hcall.instr rfl
  have hbelow := hcontains.bounds.2.1
  simp only [List.length_cons] at hsize hbelow
  have hret : w.returnAddress = b := returnAddress_call hw (by omega) (by omega) (by omega)
  exact ⟨w, hcall.callBack hl.of_label hback hret,
    ((hcalled.trans hw M.allows_called).drop).drop, hends⟩

end Breadbin.Machine

namespace Breadbin.Routine

open Assembly Machine

/-- What starts and ends a routine says nothing about the stack. -/
theorem conduct_level (t : Target) (id : RoutineId) (v w : View) (b : ℕ) :
    ((conduct t id).starts v → (conduct t id).starts (v.call b)) ∧
      ((conduct t id).ends (v.call b) w → (conduct t id).ends v w.drop.drop) := by
  cases id
  case printString | printLineEnd => exact ⟨fun h => ⟨h.trapped, h.nonzero, h.inside⟩, fun h => h⟩
  all_goals exact ⟨fun h => h, fun h => h⟩

theorem conduct_depth (t : Target) (id : RoutineId) : (conduct t id).depth ≤ 253 := by
  have hall : ∀ id ∈ RoutineId.all, (bounds id).depth ≤ 253 := by decide +kernel
  exact hall id (mem_all id)

/-- A processor that carries a library can call its routines: the call comes back unless the limit
of steps is too low, the routine has changed only what it may, and it has done what it should. -/
theorem stock_call {t : Target} {ids : List RoutineId}
    (hconducted : ∀ id ∈ ids, ∀ r, id.Needs r → Conducted t r)
    {origin : UInt16} {image : Image} (hlink : (stock t ids).stream.link origin = .ok image)
    (hapart : LiesApart t ids image) {id : RoutineId} (hid : id ∈ ids) :
    ∃ address, image.lookup? id.name = some address ∧ ∀ c : Cpu, c.Carries image →
      (conduct t id).starts c.view →
      ∃ n c' w, (∀ limit, limit = 0 ∨ n < limit → c.call address limit = (c', none)) ∧ c'.Shows w ∧
        (conduct t id).called.Keeps 0 c.view w ∧ (conduct t id).ends c.view w := by
  obtain ⟨code, hcode, hbytes, hroutines⟩ := stock_starts hconducted hlink hapart
  obtain ⟨address, hlookup, hfits, hstarts⟩ := hroutines id hid
  refine ⟨address, hlookup, fun c hc hready => ?_⟩
  obtain ⟨n, c', w, hcall, hshows, hkeeps, hends⟩ :=
    hstarts.call_eq hfits (conduct_depth t id) (hc.intact hcode hbytes)
    ((conduct_level t id c.view c.view callEnd).1 hready)
  exact ⟨n, c', w.drop.drop, hcall, hshows, hkeeps, (conduct_level t id c.view w callEnd).2 hends⟩

/-- Routines are linked together with all they need, behind the stack page and apart from the memory
that they change.  Called by a processor with any registers and any other memory, one of them comes
back, and the views before and after the call are related. -/
def Serves (t : Target) (ids : List RoutineId) (id : RoutineId) (p : Since) : Prop :=
  ∀ origin image, (stock t ids).stream.link origin = .ok image → LiesApart t ids image →
    ∃ address, image.lookup? id.name = some address ∧ ∀ c : Cpu, c.Carries image →
      ∃ n c' w, (∀ limit, limit = 0 ∨ n < limit → c.call address limit = (c', none)) ∧
        c'.Shows w ∧ p c.view w

theorem serves {t : Target} {ids : List RoutineId} {id : RoutineId} {p : Since}
    (hconducted : ∀ id ∈ ids, ∀ r, id.Needs r → Conducted t r) (hid : id ∈ ids)
    (hstarts : ∀ v, (conduct t id).starts v)
    (hends : ∀ v w, (conduct t id).called.Keeps 0 v w → (conduct t id).ends v w → p v w) :
    Serves t ids id p := by
  intro origin image hlink hapart
  obtain ⟨address, hlookup, hcalls⟩ := stock_call hconducted hlink hapart hid
  refine ⟨address, hlookup, fun c hc => ?_⟩
  obtain ⟨n, c', w, hcall, hshows, hkeeps, h⟩ := hcalls c hc (hstarts c.view)
  exact ⟨n, c', w, hcall, hshows, hends _ _ hkeeps h⟩

/-- Linked with all it needs at `$1000` and called by a processor with any registers and any other
memory, a routine comes back, and the views before and after the call are related. -/
def Answers (id : RoutineId) (p : Since) : Prop :=
  ∃ image address, (library id).stream.link libraryOrigin = .ok image ∧
    image.lookup? id.name = some address ∧ LiesLow image ∧
    ∀ c : Cpu, c.Carries image →
      ∃ n c' w, (∀ limit, limit = 0 ∨ n < limit → c.call address limit = (c', none)) ∧
        c'.Shows w ∧ p c.view w

theorem answers {id : RoutineId} {p : Since} (hconducted : ∀ r, id.Needs r → Conducted .c64 r)
    (hstarts : ∀ v, (conduct .c64 id).starts v)
    (hends : ∀ v w, (conduct .c64 id).ends v w → p v w) : Answers id p := by
  obtain ⟨image, hlink, hlies⟩ := library_links hconducted
  have hserves : Serves .c64 [id] id p :=
    serves (by simpa using hconducted) (List.mem_singleton_self id) hstarts fun v w _ h =>
      hends v w h
  obtain ⟨address, hlookup, hcalls⟩ := hserves libraryOrigin image hlink (hlies.apart [id])
  exact ⟨image, address, hlink, hlookup, hlies, hcalls⟩

/-! ## Loading -/

/-- The view of a processor that has been switched on. -/
def blank : View := Cpu.view {}

/-- The processor with a view, after it has loaded an image. -/
def loading (v : View) (image : Image) : Cpu :=
  ((v.processor 0).load image.origin image.bytes.toList).1

section

variable {v : View} {image : Image}

/-- Loading an image that lies low changes the memory alone. -/
theorem load_low (c : Cpu) (hlies : LiesLow image) : c.load image.origin image.bytes.toList =
    ({ c with memory := c.memory.writeBytes image.origin image.bytes.toList }, none) := by
  have hstop := hlies.stop
  unfold Cpu.load
  rw [if_neg (by rw [Array.length_toList]; unfold Image.stop at hstop; omega)]

/-- The memory around it stays as it is. -/
theorem read_load_low (c : Cpu) (hlies : LiesLow image) {address : UInt16}
    (haway : address.toNat < 0x1000 ∨ 0x4000 ≤ address.toNat) :
    (c.load image.origin image.bytes.toList).1.read address = c.read address := by
  rw [load_low c hlies]
  obtain ⟨horigin, hstop⟩ := hlies
  have hbase : libraryOrigin.toNat = 0x1000 := rfl
  refine read_writeBytes_of_outside fun j hj heq => ?_
  rw [Image.stop, ← Array.length_toList, horigin] at hstop
  have haddress := congrArg UInt16.toNat heq
  rw [horigin, UInt16.toNat_add, UInt16.toNat_ofNat'] at haddress
  omega

/-- A processor with the usual traps carries an image that it has loaded low. -/
theorem load_low_carries {c : Cpu} (hlies : LiesLow image) (hchrout : c.chrout = 0xFFD2)
    (hplot : c.plot = 0xFFF0) :
    (c.load image.origin image.bytes.toList).1.Carries image := by
  have hstop := hlies.stop
  refine Cpu.load_carries (by omega) (fun _ => .inr ?_) fun _ => .inr ?_
  · rw [hchrout]
    exact hstop.trans (by decide)
  · rw [hplot]
    exact hstop.trans (by decide)

theorem loading_eq (v : View) (hlies : LiesLow image) :
    loading v image =
      { v.processor 0 with memory :=
        (v.processor 0).memory.writeBytes image.origin image.bytes.toList } :=
  congrArg Prod.fst (load_low (v.processor 0) hlies)

/-- Loading an image leaves the memory around it alone. -/
theorem read_loading (hlies : LiesLow image) {address : UInt16}
    (haway : address.toNat < 0x1000 ∨ 0x4000 ≤ address.toNat) :
    (loading v image).read address = (v.processor 0).read address :=
  read_load_low (v.processor 0) hlies haway

theorem zp_loading (hlies : LiesLow image) : (loading v image).view.zp = v.zp := by
  funext i
  have := i.toNat_lt
  refine (read_loading hlies (.inl ?_)).trans ((v.processor_shows 0).zp i)
  rw [UInt8.toNat_toUInt16]
  omega

theorem sp_loading (hlies : LiesLow image) : (loading v image).view.sp = v.sp := by
  rw [loading_eq v hlies]
  rfl

theorem loading_chrout (v : View) (hlies : LiesLow image) :
    (loading v image).view.chrout = v.chrout := by
  rw [loading_eq v hlies]
  rfl

theorem loading_plot (v : View) (hlies : LiesLow image) : (loading v image).view.plot = v.plot := by
  rw [loading_eq v hlies]
  rfl

theorem main_loading (hlies : LiesLow image) {address : UInt16} (haway : 0x4000 ≤ address.toNat) :
    (loading v image).view.main address = v.main address := by
  have hbase : mainBase = 0x200 := rfl
  exact (read_loading hlies (.inr haway)).trans ((v.processor_shows 0).main address (by omega))

/-- A processor with the usual traps carries what it has loaded. -/
theorem loading_carries (hlies : LiesLow image) (hchrout : v.chrout = 0xFFD2)
    (hplot : v.plot = 0xFFF0) :
    (loading v image).Carries image :=
  load_low_carries hlies hchrout hplot

end

/-- A processor with the usual traps loads the library of a routine and calls it; the zero page is
what it was before. -/
theorem Answers.run {id : RoutineId} {p : Since} (h : Answers id p) (v : View)
    (hchrout : v.chrout = 0xFFD2) (hplot : v.plot = 0xFFF0) :
    ∃ image address, ∃ c c' : Cpu, ∃ w, (library id).stream.link libraryOrigin = .ok image ∧
      image.lookup? id.name = some address ∧
      c.Carries image ∧ c.view.zp = v.zp ∧ c.call address 0 = (c', none) ∧
        c'.Shows w ∧ p c.view w := by
  obtain ⟨image, address, hlink, hlookup, hlies, hcalls⟩ := h
  have hcarries := loading_carries (v := v) hlies hchrout hplot
  obtain ⟨n, c', w, hcall, hshows, hp⟩ := hcalls _ hcarries
  exact ⟨image, address, _, c', w, hlink, hlookup, hcarries, zp_loading hlies,
    hcall 0 (.inl rfl), hshows, hp⟩

/-! ## Returns that lead astray -/

/-- A step onto a break is a fault. -/
theorem step_breaks {d : Cpu} (hchrout : ¬(d.chrout ≠ 0 ∧ d.pc = d.chrout))
    (hplot : ¬(d.plot ≠ 0 ∧ d.pc = d.plot))
    (hread : d.read d.pc = 0) : ∃ d', d.step = (d', some (.breakpoint d.pc)) := by
  obtain ⟨op, hop, hbreak⟩ :=
    Option.map_eq_some_iff.1
      (show (Opcode.decode? 0).map (·.mnemonic) = some .brk by decide +kernel)
  simp only [Cpu.step, if_neg hchrout, if_neg hplot, hread, hop, Cpu.execute, hbreak]
  exact ⟨_, rfl⟩

/-- A call whose return leads to a break instead of the end of the call is aborted. -/
theorem call_breaks {code : LinkedCode} {address stop : UInt16} {c : Cpu} {k : ℕ} {w : View}
    (hintact : code.Intact c.view)
    (h : code.Reaches k address.toNat (c.view.call callEnd) stop.toNat w)
    (hstop : stop ≠ Cpu.returnTrap) (hchrout : stop ≠ w.chrout)
    (hplot : stop ≠ w.plot) (hzero : w.peek stop = 0) :
    ∃ c', c.call address 0 = (c', some (.breakpoint stop)) := by
  obtain ⟨n, -, d, hgoes, hd⟩ := h _ (LinkedCode.entered_holds c.shows_view hintact)
  have hpc : d.pc = stop := UInt16.toNat_inj.1 hd.pc
  obtain ⟨d', hstep⟩ : ∃ d', d.step = (d', some (.breakpoint d.pc)) :=
    step_breaks (fun htrap => hchrout (by rw [← hpc, htrap.2, hd.shows.chrout]))
      (fun htrap => hplot (by rw [← hpc, htrap.2, hd.shows.plot]))
        (by rw [hd.shows.peek, hpc, hzero])
  refine ⟨d', ?_⟩
  rw [Cpu.call_eq, if_pos rfl, hgoes.runFreely, Cpu.runFreely_eq, Cpu.advance,
    if_neg (by rwa [hpc]), hstep, hpc]

/-- A routine that has been loaded is called, and when it returns to a break the call is aborted. -/
theorem call_strays {K : RoutineId → Conduct} {t : Target} {id : RoutineId}
    (hobeys : ∀ r, id.Needs r → Obeys K t r)
    (hfits : ∀ r code, (K r).Fits code) {image : Image}
    (hlink : (stock t [id]).stream.link libraryOrigin = .ok image)
    (hlies : LiesLow image) {v : View} (hchrout : v.chrout = 0xFFD2) (hplot : v.plot = 0xFFF0)
    (hstarts : (K id).starts ((loading v image).view.call callEnd)) {stop : UInt16}
    (hends : ∀ w, (K id).Keeps 0 ((loading v image).view.call callEnd) w →
      (K id).ends ((loading v image).view.call callEnd) w →
      w.returnAddress = stop.toNat ∧ w.peek stop = 0)
    (hstop : stop ≠ Cpu.returnTrap) (hnotChrout : stop ≠ 0xFFD2) (hnotPlot : stop ≠ 0xFFF0) :
    ∃ address, image.lookup? id.name = some address ∧
      ∃ c', (loading v image).call address 0 = (c', some (.breakpoint stop)) := by
  have hapart := hlies.apart []
  obtain ⟨code, hcode, hbytes, hroutines⟩ :=
    stock_obeys (List.forall_mem_singleton.2 hobeys) hlink hapart.above hapart.below
    fun _ _ r _ code _ _ => hfits r code
  obtain ⟨address, hlookup, -, hrun⟩ := hroutines id (List.mem_singleton_self id)
  have hcarries := loading_carries hlies hchrout hplot
  have hintact : code.Intact (loading v image).view := hcarries.intact hcode hbytes
  have hcalled : code.Intact ((loading v image).view.call callEnd) := hintact.of_main rfl rfl rfl
  obtain ⟨w, hback, hkeeps, hend⟩ := hrun _ _ hcalled hstarts (.refl _ _) rfl
  obtain ⟨hreturns, hzero⟩ := hends w hkeeps hend
  rw [LinkedCode.GivesBack, hreturns] at hback
  have hwchrout : w.chrout = 0xFFD2 := hkeeps.chrout.trans ((loading_chrout v hlies).trans hchrout)
  have hwplot : w.plot = 0xFFF0 := hkeeps.plot.trans ((loading_plot v hlies).trans hplot)
  exact ⟨address, hlookup,
    call_breaks hintact (hback stop.toNat_lt) hstop
      (by rwa [show w.drop.drop.chrout = 0xFFD2 from hwchrout])
    (by rwa [show w.drop.drop.plot = 0xFFF0 from hwplot]) hzero⟩

end Breadbin.Routine
