import Breadbin.Proofs.Build.Parallel
import Breadbin.Proofs.Program.RoundTrip
import Breadbin.Proofs.Text.Quoted

/-!
# What the key of an image covers

The bytes behind a key are the number of the layout, the parts of the memory map and the stored form
of the program.  Every part of the memory map is closed by a bar that it does not hold itself, so
the parts and the program can be told from the bytes: no two programs or memory maps share them.
-/

namespace Breadbin

/-! ## Parts that are closed by a bar -/

namespace Text

/-- Of the bytes of a character only its own code is below 128. -/
theorem eq_of_mem_utf8EncodeChar {c : Char} {b : UInt8} (h : b ∈ String.utf8EncodeChar c)
    (hb : b.toNat < 128) :
    b.toNat = c.val.toNat := by
  have hbyte {n : Nat} (h : b = .ofNat n) : b.toNat = n % 256 := by rw [h, UInt8.toNat_ofNat']
  simp only [String.utf8EncodeChar] at h
  split_ifs at h <;> simp only [List.mem_cons, List.not_mem_nil, or_false] at h
  · have hone := hbyte h
    omega
  · have htwo := h.imp hbyte hbyte
    omega
  · have hthree := h.imp hbyte fun h => h.imp hbyte hbyte
    omega
  · have hfour := h.imp hbyte fun h => h.imp hbyte fun h => h.imp hbyte hbyte
    omega

/-- A bar in the bytes of a text is one of its characters. -/
theorem mem_of_bar {s : String} (h : 0x7C ∈ bytesOf s) : '|' ∈ s.toList := by
  rw [← String.ofList_toList (s := s), bytesOf_ofList] at h
  obtain ⟨c, hc, hbar⟩ := List.mem_flatMap.1 h
  have hcode := eq_of_mem_utf8EncodeChar hbar (by decide)
  rwa [← show c = '|' from Char.ext (UInt32.toNat_inj.1 hcode.symm)]

theorem bytesOf_append (s t : String) : bytesOf (s ++ t) = bytesOf s ++ bytesOf t := by
  rw [← String.ofList_toList (s := s), ← String.ofList_toList (s := t), ← String.ofList_append,
    bytesOf_ofList, bytesOf_ofList, bytesOf_ofList, List.flatMap_append]

/-- Bytes up to the first of a kind are told apart from what follows. -/
theorem until_inj {x y rest rest' : Bytes} {b : UInt8} (hx : b ∉ x) (hy : b ∉ y)
    (h : x ++ b :: rest = y ++ b :: rest') : x = y ∧ rest = rest' := by
  have hnil {x m tail tail' : Bytes} (hx : b ∉ x ++ m) (h : b :: tail = m ++ b :: tail') :
      m = [] := by
    cases m with
    | nil => rfl
    | cons c m =>
      obtain ⟨rfl, -⟩ := List.cons.inj h
      exact absurd (List.mem_append_right _ List.mem_cons_self) hx
  rcases List.append_eq_append_iff.1 h with ⟨m, rfl, hm⟩ | ⟨m, rfl, hm⟩
  · obtain rfl := hnil hy hm
    exact ⟨(List.append_nil _).symm, (List.cons.inj hm).2⟩
  · obtain rfl := hnil hx hm
    exact ⟨List.append_nil _, (List.cons.inj hm).2.symm⟩

/-- Texts that are closed by bars and hold none are told apart, whatever follows them. -/
theorem closed_inj {fs gs : List String} (hlength : fs.length = gs.length)
    (hf : ∀ f ∈ fs, '|' ∉ f.toList) (hg : ∀ g ∈ gs, '|' ∉ g.toList) {rest rest' : Bytes}
    (h : bytesOf (String.join (fs.map (· ++ "|"))) ++
      rest = bytesOf (String.join (gs.map (· ++ "|"))) ++ rest') :
    fs = gs ∧ rest = rest' := by
  induction fs generalizing gs with
  | nil =>
    obtain rfl := List.length_eq_zero_iff.1 hlength.symm
    exact ⟨rfl, List.append_cancel_left h⟩
  | cons f fs ih =>
    cases gs with
    | nil => cases hlength
    | cons g gs =>
      have hbar : bytesOf "|" = [0x7C] := bytesOf_ofList ['|']
      have hcons (f : String) (fs : List String) (rest : Bytes) :
          bytesOf (String.join ((f :: fs).map (· ++ "|"))) ++ rest =
            bytesOf f ++ 0x7C :: (bytesOf (String.join (fs.map (· ++ "|"))) ++ rest) := by
        rw [List.map_cons, String.join_cons, bytesOf_append, bytesOf_append, List.append_assoc,
          List.append_assoc, hbar, List.singleton_append]
      rw [hcons, hcons] at h
      obtain ⟨hfg, hrest⟩ := until_inj (fun hmem => hf f List.mem_cons_self (mem_of_bar hmem))
        (fun hmem => hg g List.mem_cons_self (mem_of_bar hmem)) h
      obtain ⟨rfl, heq⟩ :=
        ih (Nat.succ.inj hlength) (fun f hf' => hf f (List.mem_cons_of_mem _ hf'))
        (fun g hg' => hg g (List.mem_cons_of_mem _ hg')) hrest
      exact ⟨by rw [bytesOf_inj hfg], heq⟩

end Text

/-! ## The parts of a memory map -/

namespace Cache

/-- The parts of a memory map, as they are written. -/
def parts (t : Target) : List String :=
  [t.name, addressText t.loadAddress, toString t.startLine, addressText t.variableBase,
    addressText t.variableLimit, addressText t.conversionBase, addressText t.conversionSize,
    addressText t.concatenationBase, addressText t.chrout, addressText t.plot]

theorem toList_addressText (a : UInt16) : (addressText a).toList = Text.hexFixed false 4 a.toNat :=
  Text.toList_hexNat (Text.word_lt a) (Nat.succ_pos 3)

theorem addressText_inj {a b : UInt16} (h : addressText a = addressText b) : a = b := by
  have hdigits := congrArg String.toList h
  rw [toList_addressText, toList_addressText] at hdigits
  exact UInt16.toNat_inj.1 (Text.hexFixed_inj (Text.word_lt a) (Text.word_lt b) hdigits)

theorem bar_not_mem_addressText (a : UInt16) : '|' ∉ (addressText a).toList := by
  rw [toList_addressText]
  intro h
  exact absurd (Text.isSome_digitValue?_of_mem h) (by decide)

theorem bar_not_mem_parts {t : Target} (h : '|' ∉ t.name.toList) :
    ∀ f ∈ parts t, '|' ∉ f.toList := by
  have hflag : '|' ∉ (toString t.startLine).toList := by
    cases t.startLine <;> decide
  simp [parts, h, hflag, bar_not_mem_addressText]

theorem parts_inj {t t' : Target} (h : parts t = parts t') : t = t' := by
  have hflag (b b' : Bool) (h : toString b = toString b') : b = b' := by
    cases b <;> cases b' <;> first | rfl | exact absurd h (by decide)
  obtain ⟨name, load, line, base, limit, conversion, size, concatenation, chrout, plot⟩ := t
  obtain ⟨name', load', line', base', limit', conversion', size', concatenation', chrout', plot'⟩ :=
    t'
  simp only [parts, List.cons.injEq, and_true] at h
  obtain ⟨rfl, h₁, h₂, h₃, h₄, h₅, h₆, h₇, h₈, h₉⟩ := h
  rw [addressText_inj h₁, hflag _ _ h₂, addressText_inj h₃, addressText_inj h₄, addressText_inj h₅,
    addressText_inj h₆, addressText_inj h₇, addressText_inj h₈, addressText_inj h₉]

/-- The bytes behind a key tell the memory map and the program. -/
theorem material_inj {p p' : Program} {t t' : Target} (hp : p.Storable) (hp' : p'.Storable)
    (ht : '|' ∉ t.name.toList) (ht' : '|' ∉ t'.name.toList)
    (h : material (some p) t = material (some p') t') :
    t = t' ∧ p = p' := by
  unfold material at h
  rw [List.append_assoc, List.append_assoc] at h
  obtain ⟨hparts, hprogram⟩ :=
    Text.closed_inj (show (parts t).length = (parts t').length from rfl) (bar_not_mem_parts ht)
    (bar_not_mem_parts ht') (List.append_cancel_left h)
  have hdecode := congrArg Program.decode hprogram
  rw [Program.decode_encode hp.tagged hp.canonical hp.sized,
    Program.decode_encode hp'.tagged hp'.canonical hp'.sized] at hdecode
  exact ⟨parts_inj hparts, Except.ok.inj hdecode⟩

/-- **The key covers all that decides an image.**  Programs and memory maps with the same bytes
behind their keys are the same; so as long as no two of these bytes share a digest, programs with
the same key have the same image, whatever else is asked of the compiler. -/
theorem key_covers {p p' : Program} {t t' : Target} (hp : p.Storable) (hp' : p'.Storable)
    (ht : '|' ∉ t.name.toList) (ht' : '|' ∉ t'.name.toList) :
    (material (some p) t = material (some p') t' → t = t' ∧ p = p') ∧
      ((Sha256.digest (material (some p) t) = Sha256.digest (material (some p') t') →
          material (some p) t = material (some p') t') →
        key (some p) t = key (some p') t' →
          ∀ (most : Int) (tracer tracer' : Trace.Tracer) (parent parent' : Nat),
          (compile (some p) ⟨t, most⟩ tracer parent).image =
            (compile (some p') ⟨t', most⟩ tracer' parent').image) := by
  refine ⟨material_inj hp hp' ht ht', fun hfree hkey most tracer tracer' parent parent' => ?_⟩
  obtain ⟨rfl, rfl⟩ := material_inj hp hp' ht ht' (hfree hkey)
  exact (Compilation.compile_untraced p _ tracer tracer' parent parent').1

open Program (negation negation_storable) in
/-- An address of the memory map is covered, and one key has one image. -/
theorem negation_covered :
    material (some negation) .c64 ≠ material (some negation) { Target.c64 with plot := 0xFFF1 } ∧
      ∀ (most : Int) (tracer : Trace.Tracer) (parent : Nat),
        (compile (some negation) ⟨.c64, most⟩ .off 0).image =
          (compile (some negation) ⟨.c64, most⟩ tracer parent).image :=
  ⟨fun h => absurd ((key_covers negation_storable negation_storable (by decide) (by decide)).1 h).1
    (by decide),
    fun most tracer parent =>
      (key_covers negation_storable negation_storable (by decide) (by decide)).2 (fun _ => rfl) rfl
      most .off tracer 0 parent⟩

end Cache

end Breadbin
