import Breadbin.Proofs.Assembly.Linking
import Breadbin.Proofs.Compilation.Diagnostics

/-!
# Where a compiled program lies

A memory map is accepted if its variables and its buffers lie apart and above the zero page.  The
slots that are handed out lie one behind the other among the variables.  Where the image ends is
known only when it is linked, and nobody looks whether it is apart from the rest, or whether
anything but the image reaches into the page of the hardware stack.
-/

namespace Breadbin

namespace Target

/-- The addresses of a range. -/
def Region.Has (r : Region) (address : Nat) : Prop := r.base ≤ address ∧ address < r.base + r.size

instance (r : Region) (address : Nat) : Decidable (r.Has address) :=
  inferInstanceAs (Decidable (_ ∧ _))

/-- Two ranges share no address. -/
def Region.Apart (a b : Region) : Prop := ∀ address, a.Has address → ¬ b.Has address

theorem Region.Apart.symm {a b : Region} (h : a.Apart b) : b.Apart a :=
  fun address hb ha => h address ha hb

theorem Region.Apart.of_le {a b : Region} (h : a.base + a.size ≤ b.base) : a.Apart b := by
  intro address ha hb
  have := ha.2
  have := hb.1
  omega

theorem Region.Apart.of_not_overlaps {a b : Region} (h : a.overlaps b = false) : a.Apart b := by
  rintro address ⟨ha, ha'⟩ ⟨hb, hb'⟩
  simp only [Region.overlaps, Bool.and_eq_false_iff, decide_eq_false_iff_not] at h
  omega

/-- What lies in a range is apart from what is apart from the range. -/
theorem Region.Apart.mono {a b c : Region} (h : b.Apart c)
    (hab : ∀ address, a.Has address → b.Has address) :
    a.Apart c :=
  fun address ha => h address (hab address ha)

/-- The bytes that are addressed by one byte. -/
def zeroPage : Region := ⟨"zero page", 0, 0x100⟩

/-- The bytes that the stack pointer addresses. -/
def stackPage : Region := ⟨"stack page", 0x100, 0x100⟩

/-- The bytes variables are put into. -/
def variableRegion (t : Target) : Region :=
  ⟨"variables", t.variableBase.toNat, t.variableLimit.toNat - t.variableBase.toNat⟩

/-- The bytes texts are put together in. -/
def buffers (t : Target) : List Region := t.regions.tail

theorem regions_eq (t : Target) : t.regions = t.variableRegion :: t.buffers := rfl

/-- Ranges with nothing wrong lie apart, above the zero page and within memory. -/
theorem regionError?_eq_none {rs : List Region} (h : regionError? rs = none) :
    rs.Pairwise Region.Apart ∧ ∀ r ∈ rs, 0x100 ≤ r.base ∧ r.base + r.size ≤ 0x10000 := by
  induction rs with
  | nil => simp
  | cons a rest ih =>
    unfold regionError? at h
    split at h
    · cases h
    next hend =>
      split at h
      · cases h
      next hlow =>
        split at h
        · cases h
        next hfind =>
          obtain ⟨hpairwise, hbounds⟩ := ih h
          have hapart : ∀ b ∈ rest, a.Apart b := fun b hb =>
            .of_not_overlaps (by simpa using List.find?_eq_none.1 hfind b hb)
          refine ⟨List.pairwise_cons.2 ⟨hapart, hpairwise⟩, ?_⟩
          simp only [List.mem_cons, forall_eq_or_imp]
          exact ⟨⟨by omega, by omega⟩, hbounds⟩

variable {t : Target}

theorem has_variableRegion {address : Nat} :
    t.variableRegion.Has address ↔
      t.variableBase.toNat ≤ address ∧ address < t.variableLimit.toNat := by
  simp only [Region.Has, variableRegion]
  omega

/-- In an accepted memory map there is room for variables. -/
theorem base_lt_limit (h : t.error? = none) : t.variableBase < t.variableLimit := by
  unfold error? at h
  split at h
  · cases h
  next hempty =>
    rw [UInt16.lt_iff_toNat_lt]
    rw [UInt16.le_iff_toNat_le] at hempty
    omega

/-- In an accepted memory map the variables and the buffers lie apart and above the zero page. -/
theorem regions_apart (h : t.error? = none) :
    t.regions.Pairwise Region.Apart ∧ ∀ r ∈ t.regions, zeroPage.Apart r := by
  unfold error? at h
  split at h
  · cases h
  · split at h
    · cases h
    next hregions =>
      obtain ⟨hpairwise, hbounds⟩ := regionError?_eq_none hregions
      exact ⟨hpairwise, fun r hr => .of_le (hbounds r hr).1⟩

end Target

open Target

/-- The bytes of a slot. -/
def Slot.region (s : Slot) : Region := ⟨Text.shown s.name, s.address.toNat, s.size.toNat⟩

/-- The bytes of an image. -/
def Image.region (i : Image) : Region := ⟨"image", i.origin.toNat, i.bytes.size⟩

namespace Allocator

variable {a : Allocator}

theorem Sound.slots_apart (h : a.Sound) :
    (a.slots.toList.map Slot.region).Pairwise Region.Apart := by
  refine List.pairwise_map.2 (h.apart.imp_of_mem fun {s t} hs _ hle => .of_le ?_)
  obtain ⟨-, hsize, -⟩ := h.within s hs
  simp only [Slot.stop] at hle
  simp only [Slot.region]
  omega

/-- The slots of an allocator lie between its base and its limit. -/
theorem Sound.slots_within (h : a.Sound) {s : Slot} (hs : s ∈ a.slots.toList) {address : Nat}
    (haddress : s.region.Has address) :
    a.base.toNat ≤ address ∧ address < a.limit.toNat := by
  obtain ⟨hbase, hsize, hstop⟩ := h.within s hs
  obtain ⟨hlow, hhigh⟩ := haddress
  rw [UInt16.le_iff_toNat_le] at hbase
  have := h.high
  simp only [Slot.region, Slot.stop] at hlow hhigh hstop
  omega

end Allocator

namespace Lowering

/-- What linking comes to. -/
theorem perform_linkImage (p : Program) (s : Emission) :
    perform linkImage p s =
      match s.workspace.stream.link s.workspace.target.loadAddress with
      | .error cause => (.error (.assembly cause), s)
      | .ok image => (.ok { image with entry := (image.addressOf? startLabel).getD image.entry },
          s) := by
  show perform (match s.workspace.stream.link _ with | .error _ => _ | .ok _ => _) p s = _
  split <;> rfl

/-- The image is where the target of this state loads it, and within memory. -/
def Loaded (image : Image) (s : Emission) : Prop :=
  image.origin = s.workspace.target.loadAddress ∧ image.stop ≤ 0x10000

theorem linkImage_loaded (span : Trace.OpenSpan) :
    Yields (do
      let image ←
        try linkImage
        catch e =>
          closeSpan span e.message
          throw e
      closeSpan span ""
      return image) Loaded := by
  intro p s image s' h
  rw [perform_bind, perform_tryCatch, perform_linkImage] at h
  cases hlink : s.workspace.stream.link s.workspace.target.loadAddress with
  | error cause =>
    rw [hlink] at h
    cases h
  | ok linked =>
    rw [hlink] at h
    cases h
    obtain ⟨origin, stop⟩ := Assembly.Stream.link_extent hlink
    exact ⟨origin, stop⟩

theorem lowerProgram_loaded : Yields lowerProgram Loaded := by
  unfold lowerProgram
  dsimp only
  have hrest (p : Program) : Yields (do
      warnRecursion
      declareData [] p.data.items.zipIdx
      let s ← get
      write (.data s.workspace.target.stub.1)
      write (.onStream fun s => (s.placeLabel startLabel).1)
      pass "lower" (lowerCode p.entry?)
      pass "runtime" lowerTail
      let span ← openSpan .pass "link"
      let image ←
        try linkImage
        catch e =>
          closeSpan span e.message
          throw e
      closeSpan span ""
      return image) Loaded :=
    .bind fun _ => .bind fun _ => .bind fun _ => .bind fun _ => .bind fun _ => .bind fun _ =>
      .bind fun _ => .bind linkImage_loaded
  refine .bind fun p => .bind fun _ => ?_
  split
  · exact .bind fun _ => hrest p
  · exact hrest p

end Lowering

namespace Compilation

open Lowering

/-- The ranges of a compilation that are accounted for before the image is linked. -/
def regions (t : Target) (c : Compilation) : List Region :=
  zeroPage :: t.buffers ++ c.slots.map Slot.region

variable {p : Program} {o : Options} {tracer : Trace.Tracer} {parent : Nat} {image : Image}

/-- The variables of a compiled program and its buffers lie apart, the variables where the target
has room for them, and its image starts where the target loads it and ends within memory.  If the
image and the stack page are also apart from each other and from what the target reserves, nothing
of the program overlaps. -/
theorem regions_pairwise_apart (h : (compile (some p) o tracer parent).image = some image) :
    ((compile (some p) o tracer parent).regions o.target).Pairwise Region.Apart ∧
      (∀ s ∈ (compile (some p) o tracer parent).slots, ∀ address, s.region.Has address →
        o.target.variableRegion.Has address) ∧
      image.origin = o.target.loadAddress ∧ image.stop ≤ 0x10000 ∧
      ((∀ r ∈ o.target.regions, stackPage.Apart r) →
        (∀ r ∈ zeroPage :: stackPage :: o.target.regions, image.region.Apart r) →
        (image.region :: stackPage ::
          (compile (some p) o tracer parent).regions o.target).Pairwise Region.Apart) := by
  obtain ⟨htarget, himage⟩ := image_eq_some h
  obtain ⟨hslots, -, -⟩ := compile_eq p tracer parent htarget
  obtain ⟨_, _, hlowered⟩ := lowered_eq p o tracer parent
  obtain ⟨_, _, hfollows⟩ := lowered_follows p o tracer parent
  obtain ⟨hapart, hzero⟩ := regions_apart htarget
  obtain ⟨hvariables, hbuffers⟩ := List.pairwise_cons.1 (regions_eq o.target ▸ hapart)
  have hsound := hfollows.allocator.sound
    (Allocator.ofTarget_sound (UInt16.le_of_lt (base_lt_limit htarget)))
  have hwithin : ∀ s ∈ (compile (some p) o tracer parent).slots, ∀ address,
      s.region.Has address → o.target.variableRegion.Has address := by
    intro s hs address haddress
    rw [hslots] at hs
    obtain ⟨hlow, hhigh⟩ := hsound.slots_within hs haddress
    rw [hfollows.allocator.base] at hlow
    rw [hfollows.allocator.limit] at hhigh
    exact has_variableRegion.2 ⟨hlow, hhigh⟩
  -- what is apart from everything that the target reserves is apart from the slots as well
  have hslot : ∀ r : Region, (∀ q ∈ o.target.regions, r.Apart q) →
      ∀ q ∈ (compile (some p) o tracer parent).slots.map Slot.region, r.Apart q := by
    intro r hr q hq
    obtain ⟨s, hs, rfl⟩ := List.mem_map.1 hq
    exact ((hr _ List.mem_cons_self).symm.mono (hwithin s hs)).symm
  have hall : ∀ r : Region, r.Apart zeroPage → (∀ q ∈ o.target.regions, r.Apart q) →
      ∀ q ∈ (compile (some p) o tracer parent).regions o.target, r.Apart q := by
    intro r hr hreserved q hq
    rcases List.mem_append.1 hq with hq | hq
    · rcases List.mem_cons.1 hq with rfl | hq
      · exact hr
      · exact hreserved q (List.mem_cons_of_mem _ hq)
    · exact hslot r hreserved q hq
  have hregions :
      ((compile (some p) o tracer parent).regions o.target).Pairwise Region.Apart := by
    refine List.pairwise_cons.2 ⟨fun q hq => ?_, List.pairwise_append.2 ⟨hbuffers, ?_, ?_⟩⟩
    · rcases List.mem_append.1 hq with hq | hq
      · exact hzero q (List.mem_cons_of_mem _ hq)
      · exact hslot zeroPage hzero q hq
    · rw [hslots]
      exact hsound.slots_apart
    · intro buffer hbuffer q hq
      obtain ⟨s, hs, rfl⟩ := List.mem_map.1 hq
      exact ((hvariables buffer hbuffer).mono (hwithin s hs)).symm
  have hloaded := lowerProgram_loaded p _ image (lowered p o tracer parent).2
    (by rw [← hlowered, ← himage])
  rw [Loaded, hfollows.workspace.target] at hloaded
  refine ⟨hregions, hwithin, hloaded.1, hloaded.2, fun hstack hcode => ?_⟩
  refine List.pairwise_cons.2 ⟨fun q hq => ?_, List.pairwise_cons.2 ⟨?_, hregions⟩⟩
  · rcases List.mem_cons.1 hq with rfl | hq
    · exact hcode _ (by simp)
    · exact hall _ (hcode _ (by simp)) (fun r hr => hcode r (by simp [hr])) q hq
  · exact hall _ (Region.Apart.of_le (Nat.le_refl _)).symm hstack

/-- A program that counts to a number that is only known while it runs, which is kept apart from its
variables. -/
def counting : Program :=
  { symbols := .of [{ name := [110], type := .u8 }, { name := [97], type := .array .u16 3 },
      { name := [105], type := .u8, symbolClass := .localVariable, owner := 1 }]
    globals := .of [{ symbol := 1 }, { symbol := 2 }]
    functions := .of [{
      id := 1, name := Program.mainName, locals := .of [3], result := .void
      body := .of [.count { tag := 8 } 3 (.literal { type := .u8 } {}) (.var { type := .u8 } 1)
        false (.of [] false .none)]
        false .none }]
    entry := 1 }

/-- On the usual target the image only has to end below the variables. -/
theorem counting_regions_pairwise_apart :
    (compile (some counting) {} .off 0).slots.map (fun s => (s.symbol, s.size)) =
      [(1, 1), (2, 6), (3, 1), (4294967295, 1)] ∧
    ∃ image, (compile (some counting) {} .off 0).image = some image ∧
      ((compile (some counting) {} .off 0).regions .c64).Pairwise Region.Apart ∧
      image.origin = 0x0801 ∧ image.stop ≤ 0x10000 ∧
      (image.region :: stackPage ::
        (compile (some counting) {} .off 0).regions .c64).Pairwise Region.Apart := by
  refine ⟨by decide +kernel, ?_⟩
  obtain ⟨image, himage⟩ := Option.isSome_iff_exists.1
    (show (compile (some counting) {} .off 0).image.isSome = true by decide +kernel)
  have hregion : (compile (some counting) {} .off 0).image.map (·.region) =
      some ⟨"image", 0x0801, 61⟩ := by
    decide +kernel
  rw [himage] at hregion
  obtain ⟨hregions, -, horigin, hstop, hrest⟩ := regions_pairwise_apart himage
  refine ⟨image, himage, hregions, horigin, hstop, hrest ?_ ?_⟩
  · exact fun r hr => .of_not_overlaps (by revert r hr; decide)
  · rw [show image.region = _ from Option.some.inj hregion]
    exact fun r hr => .of_not_overlaps (by revert r hr; decide)

/-- The usual target, but with the conversion buffer where the image is loaded. -/
def overlaid : Target := { Target.c64 with conversionBase := 0x0801 }

/-- A target may put a buffer over the code. -/
theorem not_regions_pairwise_apart :
    ¬ ∀ (p : Program) (o : Options) (tracer : Trace.Tracer) (parent : Nat) (image : Image),
      (compile (some p) o tracer parent).image = some image →
        (image.region :: stackPage ::
          (compile (some p) o tracer parent).regions o.target).Pairwise Region.Apart := by
  intro h
  obtain ⟨image, himage⟩ := Option.isSome_iff_exists.1
    (show (compile (some .idle) { target := overlaid } .off 0).image.isSome =
      true by decide +kernel)
  have hsize : ((compile (some .idle) { target := overlaid } .off 0).image.map (·.region)) =
      some ⟨"image", 0x0801, 18⟩ := by
    decide +kernel
  rw [himage] at hsize
  have hbuffer : (⟨"conversion buffer", 0x0801, 0x20⟩ : Region) ∈ stackPage ::
      (compile (some .idle) { target := overlaid } .off 0).regions overlaid :=
    List.mem_cons_of_mem _ (List.mem_append_left _ (by decide))
  have hapart := List.rel_of_pairwise_cons (h .idle _ .off 0 image himage) hbuffer
  rw [show image.region = _ from Option.some.inj hsize] at hapart
  exact hapart 0x0801 (by decide) (by decide)

end Compilation

end Breadbin
