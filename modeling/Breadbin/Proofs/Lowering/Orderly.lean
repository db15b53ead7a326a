import Breadbin.Proofs.Lowering.Moves
import Breadbin.Proofs.Placement.Storage

/-!
# Lowering in order

While code is lowered its state is in order: the open labels are those still to be bound, labels
that may be branched to are near, every symbol has an address and every function a label.  `Fine`
says of a part of lowering that it binds labels and keeps the state in order, and that it fails only
for want of room; there is one rule for each way to put parts together.  `Safe` parts leave the open
labels alone, so that an instance follows the text of a definition.
-/

namespace Breadbin

/-- The failure is a want of room, for variables or for the image. -/
def LoweringError.isShortage (e : LoweringError) : Bool :=
  e.code == .outOfVariableSpace || e.code == .imageTooLarge

/-- The labels of the constants. -/
def Pool.labels (pool : Pool) : List Assembly.LabelId := pool.entries.toList.map Prod.fst

namespace Lowering

open Assembly Emission

variable {p : Program} {α β : Type}

/-! ## States in order -/

/-- What is laid down before code is lowered: labels of functions and of data blocks, and the
constants with their literals.  Functions may be left where the code is `inside` one. -/
structure Setting (p : Program) where
  functions : List (FunctionId × LabelId)
  data : List (DataId × LabelId)
  constants : List (SymbolId × Expr)
  inside : Bool := false
  wellFormed : p.WellFormed
  labelled : ∀ f ∈ p.functions.items, ∃ l, functions.lookup f.id = some l
  literals : ∀ id e, constants.lookup id = some e → ∃ h v, e = .literal h v

/-- The labels of data blocks are far. -/
def Setting.far (c : Setting p) (l : LabelId) : Prop := l ∈ c.data.map Prod.snd

/-- The same, inside a function. -/
def Setting.inner (c : Setting p) : Setting p := { c with inside := true }

/-- A state whose open labels are the given ones, those of constants and those of data blocks. -/
structure Orderly (c : Setting p) (s : Emission) (unbound : List LabelId) : Prop where
  workspace : s.workspace.Tidy c.far (unbound ++ (s.pool.labels ++ c.data.map Prod.snd))
  unwritten : s.workspace.emitted = []
  filled : ∀ e ∈ s.pool.entries.toList, e.2 ≠ []
  storage : s.allocator.Houses p
  functions : s.functions = c.functions
  callable : s.workspace.Near c.far (c.functions.map Prod.snd)
  data : s.data = c.data
  constants : s.constants = c.constants
  current : c.inside = true → s.current.isSome = true
  loops : ∀ l ∈ s.loops, s.workspace.Near c.far [l.next, l.exit]

namespace Orderly

variable {c : Setting p} {s : Emission} {U U' : List LabelId}

/-- Code that is written keeps the order as far as it keeps the labels. -/
theorem written (h : Orderly c s U) {w : Routine.Workspace} {V : List LabelId}
    (hw : s.workspace.Extends w)
    (htidy : w.Tidy c.far (V ++ (s.pool.labels ++ c.data.map Prod.snd))) :
    Orderly c { s with workspace := w } V :=
  { h with
    workspace := htidy
    unwritten := hw.emitted.trans h.unwritten
    callable := h.callable.keeps hw.toKeeps
    loops := fun l hl => (h.loops l hl).keeps hw.toKeeps }

theorem perm (h : Orderly c s U) (hperm : U.Perm U') : Orderly c s U' :=
  { h with workspace := h.workspace.perm (hperm.append_right _) }

/-- Open labels may be branched to, and so may those of constants. -/
theorem near (h : Orderly c s U) : s.workspace.Near c.far (U ++ s.pool.labels) := by
  intro l hl
  have hstream := h.workspace.stream
  have hnodup := (List.nodup_append.1 hstream.nodup).1
  rw [← List.append_assoc] at hnodup
  refine ⟨((hstream.opened l).2 ?_).knows, fun hfar => ?_⟩
  · rw [← List.append_assoc]
    exact List.mem_append_left _ (List.mem_append_left _ hl)
  · exact (List.nodup_append.1 hnodup).2.2 l hl l hfar rfl

/-- An instruction may refer to any label, near or far. -/
theorem emitted (h : Orderly c s U) {mn : Mnemonic} {arg : Arg}
    (encodable : Opcode.takes mn arg.mode = true) (hadmits : s.workspace.stream.Admits c.far arg) :
    Orderly c { s with workspace :=
      { s.workspace with stream := s.workspace.stream.emit mn arg.operand } } U :=
  h.written (s.workspace.emitted_extends mn _)
    (h.workspace.emit (Opcode.encode?_isSome encodable) hadmits)

/-- Looking a constant up, or adding it, gives a label that may be branched to. -/
theorem intern (h : Orderly c s U) {bytes : Bytes} (nonempty : bytes ≠ [])
    (few : (s.pool.intern s.workspace.stream bytes).2.1.labels.size < 4294967296) :
    let r := s.pool.intern s.workspace.stream bytes
    Orderly c { s with pool := r.1, workspace := { s.workspace with stream := r.2.1 } } U ∧
      Routine.Workspace.Near c.far { s.workspace with stream := r.2.1 } [r.2.2] := by
  unfold Pool.intern at few ⊢
  cases hfind : s.pool.find? bytes with
  | some l =>
    have hmem : l ∈ s.pool.labels := by
      obtain ⟨e, he, rfl⟩ := Option.map_eq_some_iff.1 hfind
      exact List.mem_map_of_mem (Array.mem_toList_iff.2 (Array.mem_of_find?_eq_some he))
    refine ⟨h, fun l' hl' => ?_⟩
    obtain rfl := List.mem_singleton.1 hl'
    exact h.near l' (List.mem_append_right _ hmem)
  | none =>
    simp only [hfind] at few
    have hext := s.workspace.labelled_extends (Text.bytesOf s!"const_{s.pool.entries.size}")
    obtain ⟨htidy, hlabel⟩ := h.workspace.labelled _ few
    have hlabels : Pool.labels ⟨s.pool.entries.push (s.workspace.nextLabel, bytes)⟩ =
        s.pool.labels ++ [s.workspace.nextLabel] := by
      simp [Pool.labels]
    have horderly := h.written (V := U ++ [s.workspace.nextLabel]) hext
      (htidy.perm (by simpa using List.perm_middle.symm))
    refine ⟨{ horderly with workspace := ?_, filled := fun e he => ?_ }, fun l' hl' => ?_⟩
    · show Routine.Workspace.Tidy _ (s.workspace.labelled _)
        (U ++ (Pool.labels ⟨s.pool.entries.push (s.workspace.nextLabel, bytes)⟩ ++ _))
      rw [hlabels]
      refine htidy.perm ?_
      rw [List.append_assoc, List.singleton_append, ← List.append_assoc, ← List.append_assoc]
      exact List.perm_middle.symm
    · rw [Array.toList_push] at he
      rcases List.mem_append.1 he with he | he
      · exact h.filled e he
      · obtain rfl := List.mem_singleton.1 he
        exact nonempty
    · obtain rfl := List.mem_singleton.1 hl'
      exact hlabel

end Orderly

/-- The outcome has a property unless lowering ran out of room; labels are numbered in 32 bits. -/
structure Lands (r : Except LoweringError α × Emission) (Q : α → Emission → Prop) : Prop where
  outcome : r.2.workspace.stream.labels.size < 4294967296 →
    match r with
    | (.ok a, s) => Q a s
    | (.error e, _) => e.isShortage = true

namespace Lands

variable {x : Lower α} {f : α → Lower β} {s : Emission} {P : α → Emission → Prop}
  {Q : β → Emission → Prop}

theorem mono {P' : α → Emission → Prop} {r : Except LoweringError α × Emission} (h : Lands r P)
    (hP : ∀ a, P a r.2 → P' a r.2) : Lands r P' := by
  refine ⟨fun few => ?_⟩
  have := h.outcome few
  rcases r with ⟨result, s⟩
  cases result with
  | error e => exact this
  | ok a => exact hP a this

/-- What follows is reached with fewer labels than in the end. -/
theorem bind (hx : Lands (perform x p s) P)
    (hf : ∀ a s', perform x p s = (.ok a, s') → Emission.Follows s' (perform (f a) p s').2)
    (h : ∀ a s', P a s' → Lands (perform (f a) p s') Q) : Lands (perform (x >>= f) p s) Q := by
  rw [perform_bind]
  split
  next a s' hperform =>
    rw [hperform] at hx
    refine ⟨fun few => ?_⟩
    exact (h a s' (hx.outcome (Nat.lt_of_le_of_lt (hf a s' hperform).workspace.labels few))).outcome
      few
  next e s' hperform =>
    rw [hperform] at hx
    exact ⟨hx.outcome⟩

/-- A failure is passed on by a handler that fails for the same kind of reason. -/
theorem tryCatch {handle : LoweringError → Lower α} (hx : Lands (perform x p s) P)
    (hmoves : ∀ e, Moves Emission.Follows (handle e))
    (hhandle : ∀ e s', e.isShortage = true →
      ∃ e', (perform (handle e) p s').1 = .error e' ∧ e'.isShortage = true) :
    Lands (perform (tryCatch x handle) p s) P := by
  rw [perform_tryCatch]
  split
  next a s' hperform => rwa [hperform] at hx
  next e s' hperform =>
    rw [hperform] at hx
    refine ⟨fun few => ?_⟩
    have hshort := hx.outcome (Nat.lt_of_le_of_lt ((hmoves e).moves p s').workspace.labels few)
    obtain ⟨e', hresult, hshort'⟩ := hhandle e s' hshort
    rcases hhandled : perform (handle e) p s' with ⟨result, s''⟩
    rw [hhandled] at hresult
    obtain rfl : result = _ := hresult
    exact hshort'

end Lands

/-- With the labels `known` at hand, of which `unbound` are open, a part of lowering leaves `left`
open, if it does not run out of room; if `solid`, its last line has bytes. -/
structure Fine (c : Setting p) (solid : Bool) (known unbound : List LabelId) (act : Lower α)
    (left : List LabelId) : Prop where
  moves : Moves Stays act
  lands : ∀ {s : Emission} {U : List LabelId}, Orderly c s (unbound ++ U) →
    s.workspace.Near c.far known → Lands (perform act p s) fun _ s' =>
      Orderly c s' (left ++ U) ∧ (solid = true → s'.workspace.stream.Followed)

namespace Fine

variable {c : Setting p} {d e : Bool} {K K' M N O : List LabelId} {x : Lower α} {f : α → Lower β}

/-! ## Sequences and choices -/

/-- What follows is needed for possible results only. -/
theorem bind_result {P : α → Prop} (hx : Fine c d K M x N) (hP : Yields x fun a _ => P a)
    (hf : ∀ a, P a → Fine c e K N (f a) O) : Fine c e K M (x >>= f) O where
  moves := hx.moves.bind_result fun a p s s' h => (hf a (hP p s a s' h)).moves
  lands {s U} hs hnear := by
    have hfirst : Lands (perform x p s) fun a s' =>
        P a ∧ Orderly c s' (N ++ U) ∧ s'.workspace.Near c.far K := by
      have hstays := hx.moves.moves p s
      refine ⟨fun few => ?_⟩
      have hlands := (hx.lands hs hnear).outcome few
      rcases hperform : perform x p s with ⟨_ | a, s'⟩
      · rw [hperform] at hlands
        exact hlands
      · rw [hperform] at hlands hstays
        exact ⟨hP p s a s' hperform, hlands.1, hnear.keeps hstays.workspace⟩
    exact hfirst.bind (fun a s' h => ((hf a (hP p s a s' h)).moves.moves p s').toFollows)
      fun a s' ⟨ha, hs', hnear'⟩ => (hf a ha).lands hs' hnear'

theorem bind (hx : Fine c d K M x N) (hf : ∀ a, Fine c e K N (f a) O) : Fine c e K M (x >>= f) O :=
  hx.bind_result (fun _ _ _ _ _ => trivial) fun a _ => hf a

theorem pure (a : α) : Fine c false K M (Pure.pure a) M where
  moves := inferInstance
  lands hs _ := ⟨fun _ => ⟨hs, nofun⟩⟩

theorem ite {q : Prop} [Decidable q] {y : Lower α} (hx : q → Fine c e K M x N)
    (hy : ¬q → Fine c e K M y N) : Fine c e K M (if q then x else y) N := by
  split
  next h => exact hx h
  next h => exact hy h

/-- With more labels at hand. -/
theorem more (h : Fine c e K M x N) (hsub : K ⊆ K') : Fine c e K' M x N where
  moves := h.moves
  lands hs hnear := h.lands hs fun l hl => hnear l (hsub hl)

/-- With more open labels, which are left alone. -/
theorem frame (h : Fine c e K M x N) (V : List LabelId) : Fine c e K (M ++ V) x (N ++ V) where
  moves := h.moves
  lands {s U} hs hnear := by
    rw [List.append_assoc] at hs ⊢
    exact h.lands hs hnear

/-- Where more labels are at hand and open. -/
theorem amid (h : Fine c e K [] x []) (hsub : K ⊆ K') : Fine c e K' M x M := by
  simpa using (h.more hsub).frame M

theorem perm {M' N' : List LabelId} (h : Fine c e K M x N) (hM : M'.Perm M) (hN : N.Perm N') :
    Fine c e K M' x N' where
  moves := h.moves
  lands hs hnear := (h.lands (hs.perm (hM.append_right _)) hnear).mono fun _ h =>
    ⟨h.1.perm (hN.append_right _), h.2⟩

/-- Whatever is written last. -/
theorem loose (h : Fine c e K M x N) : Fine c false K M x N where
  moves := h.moves
  lands hs hnear := (h.lands hs hnear).mono fun _ h => ⟨h.1, nofun⟩

/-- The code depends on the state that it is lowered in. -/
theorem of_state {act : Lower α} (moves : Moves Stays act)
    (h : ∀ s U, Orderly c s U → ∃ L x, s.workspace.Near c.far L ∧ perform act p s = perform x p s ∧
      Fine c e (L ++ K) M x N) : Fine c e K M act N where
  moves := moves
  lands {s U} hs hnear := by
    obtain ⟨L, x, hL, hact, hx⟩ := h s _ hs
    rw [hact]
    refine hx.lands hs fun l hl => ?_
    rcases List.mem_append.1 hl with hl | hl
    · exact hL l hl
    · exact hnear l hl

/-! ## Writing -/

theorem write {w : Routine.Writer α} {n : Nat} (h : w.Leaves RoutineId.all n e K M N) :
    Fine c e K M (write w) N where
  moves :=
    have : Keeping w := ⟨fun ws => (h.extends ws).toKeeps⟩
    inferInstance
  lands {s U} hs hnear := by
    refine ⟨fun few => ?_⟩
    have htidy := hs.workspace
    rw [List.append_assoc] at htidy
    obtain ⟨htidy', hfollowed⟩ := h.tidy_followed htidy hnear few
    rw [← List.append_assoc] at htidy'
    exact ⟨hs.written (h.extends _) htidy', hfollowed⟩

theorem newLabel_bind {name : String} {f : LabelId → Lower β}
    (hf : ∀ l, Fine c e (l :: K) (l :: M) (f l) N) : Fine c e K M (newLabel name >>= f) N where
  moves := .bind (.modifyGet fun s => (newLabel_codes [] _ s).toStays) fun l => (hf l).moves
  lands {s U} hs hnear := by
    refine ⟨fun few => ?_⟩
    let name' := Text.bytesOf s!"{name}_{s.labels + 1}"
    let s' : Emission :=
      { s with labels := s.labels + 1, workspace := s.workspace.labelled name' }
    have hext := s.workspace.labelled_extends name'
    have hrest : Emission.Follows s' (perform (f s.workspace.nextLabel) p s').2 :=
      ((hf _).moves.moves p s').toFollows
    obtain ⟨htidy, hlabel⟩ :=
      hs.workspace.labelled name' (Nat.lt_of_le_of_lt hrest.workspace.labels few)
    have hs' : Orderly c s' ((s.workspace.nextLabel :: M) ++ U) :=
      { hs.written (V := s.workspace.nextLabel :: (M ++ U)) hext htidy with }
    exact ((hf _).lands hs' ((hnear.keeps hext.toKeeps).cons hlabel)).outcome few

theorem place {l : LabelId} (h : Routine.Removes l M N) :
    Fine c false K M (place l) N := .write (.bind h)

theorem branchTo {mn : Mnemonic} {l : LabelId} (encodable : Opcode.takes mn .relative = true)
    (known : l ∈ K) : Fine c true K M (branchTo mn l) M :=
  .write (.branch encodable known)

theorem jumpTo {l : LabelId} (known : l ∈ K) : Fine c true K M (jumpTo l) M := .write (.jump known)

theorem emit {mn : Mnemonic} {arg : Arg} (encodable : Opcode.takes mn arg.mode = true)
    (unlabelled : arg.operand.label.isSome = false) : Fine c true K M (emit mn arg.operand) M :=
  .write (.emit encodable unlabelled)

/-- The label of a constant that is looked up or added. -/
theorem intern_bind {bytes : Bytes} {f : LabelId → Lower β} (nonempty : bytes ≠ [])
    (hf : ∀ l, Fine c e (l :: K) M (f l) N) :
    Fine c e K M ((modifyGet fun s =>
      let (pool, stream, l) := s.pool.intern s.workspace.stream bytes
      (l, { s with pool, workspace := { s.workspace with stream } })) >>= f) N where
  moves :=
    have := intern_moves (K := []) nonempty
    .bind inferInstance fun l => (hf l).moves
  lands {s U} hs hnear := by
    refine ⟨fun few => ?_⟩
    have hext := (intern_moves (K := []) nonempty).moves p s
    let r := s.pool.intern s.workspace.stream bytes
    let s' : Emission := { s with pool := r.1, workspace := { s.workspace with stream := r.2.1 } }
    have hrest : Emission.Follows s' (perform (f r.2.2) p s').2 :=
      ((hf _).moves.moves p s').toFollows
    obtain ⟨hs', hlabel⟩ := hs.intern nonempty (Nat.lt_of_le_of_lt hrest.workspace.labels few)
    have hknown := hlabel _ (List.mem_singleton.2 rfl)
    exact ((hf _).lands hs'
      (Routine.Workspace.Near.cons (hnear.keeps hext.workspace) hknown)).outcome few

theorem loadAddress {l : LabelId} (known : l ∈ K) :
    Fine c true K M (loadAddress (.ofLabel l)) M := by
  have heq : Lowering.loadAddress (.ofLabel l) = Lowering.write (.loadAddress l) := rfl
  rw [heq]
  exact .write (.loadAddress known)

end Fine

/-! ## Parts that leave the open labels alone -/

/-- The part binds each label that it makes. -/
class Safe (c : Setting p) (act : Lower α) : Prop where
  fine : Fine c false [] [] act []

section

variable {c : Setting p} {x y : Lower α} {f : α → Lower β}

theorem Fine.safe [h : Safe c x] {K M : List LabelId} : Fine c false K M x M :=
  h.fine.amid (List.nil_subset K)

instance [hx : Safe c x] [hf : ∀ a, Safe c (f a)] : Safe c (x >>= f) := ⟨.bind .safe fun _ => .safe⟩

instance (a : α) : Safe c (pure a : Lower α) := ⟨.pure a⟩

instance {q : Prop} [Decidable q] [hx : Safe c x] [hy : Safe c y] : Safe c (if q then x else y) :=
  ⟨.ite (fun _ => .safe) fun _ => .safe⟩

instance : Safe c get := ⟨⟨inferInstance, fun hs _ => ⟨fun _ => ⟨hs, nofun⟩⟩⟩⟩

instance : Safe c read := ⟨⟨inferInstance, fun hs _ => ⟨fun _ => ⟨hs, nofun⟩⟩⟩⟩

theorem Safe.forM_mem {xs : List β} {g : β → Lower PUnit} (hg : ∀ b ∈ xs, Safe c (g b)) :
    Safe c (xs.forM g) := by
  induction xs with
  | nil => exact inferInstanceAs (Safe c (pure _))
  | cons b xs ih =>
    have := hg b List.mem_cons_self
    have := ih fun b' hb => hg b' (List.mem_cons_of_mem b hb)
    exact inferInstanceAs (Safe c (g b >>= fun _ => xs.forM g))

instance {xs : List β} {g : β → Lower PUnit} [hg : ∀ b, Safe c (g b)] : Safe c (xs.forM g) :=
  .forM_mem fun b _ => hg b

theorem Safe.mapM_mem {xs : List β} {g : β → Lower α} (hg : ∀ b ∈ xs, Safe c (g b)) :
    Safe c (xs.mapM g) := by
  induction xs with
  | nil => exact inferInstanceAs (Safe c (pure _))
  | cons b xs ih =>
    have := hg b List.mem_cons_self
    have := ih fun b' hb => hg b' (List.mem_cons_of_mem b hb)
    rw [List.mapM_cons]
    infer_instance

theorem Safe.modify {g : Emission → Emission} (moves : ∀ s, Stays s (g s))
    (h : ∀ s U, Orderly c s U → Orderly c (g s) U) : Safe c (modify g : Lower PUnit) where
  fine := ⟨.modify moves, fun hs _ => ⟨fun _ => ⟨h _ _ hs, nofun⟩⟩⟩

instance (d : Diagnostic) : Safe c (report d) :=
  .modify (fun _ => ⟨⟨.refl _, .refl _, [d], rfl⟩, rfl, rfl, rfl, rfl⟩) fun _ _ h => { h with }

instance (code : Code) (span : Span) (m : String) : Safe c (reportError code span m) := by
  unfold reportError
  infer_instance

instance (ch : Checked α) : Safe c (checked ch) := by
  unfold checked
  infer_instance

/-- Only what the check comes to counts. -/
theorem checked_result (ch : Checked α) :
    Yields (checked ch) fun r _ => r = (ch.value, ch.accepted) :=
  .bind fun _ => .pure fun _ => rfl

theorem Fine.checked_bind {ch : Checked α} {f : α × Bool → Lower β} {e : Bool}
    {K M N : List LabelId}
    (hf : Fine c e K M (f (ch.value, ch.accepted)) N) : Fine c e K M (checked ch >>= f) N :=
  .bind_result .safe (checked_result ch) fun _ h => h ▸ hf

/-! ## Instructions -/

/-- A reference to a fixed address. -/
class Unlabelled (r : AddressRef) : Prop where
  unlabelled : r.label.isSome = false

instance (a : UInt16) : Unlabelled (.fixed a) := ⟨rfl⟩

instance (r : AddressRef) (n : UInt16) [h : Unlabelled r] : Unlabelled (r.plus n) := ⟨h.unlabelled⟩

/-- An operand without a label that an instruction takes. -/
class Plain (mn : Mnemonic) (o : Operand) : Prop where
  plain : ∃ arg : Arg, arg.operand = o ∧ Opcode.takes mn arg.mode = true ∧
    arg.operand.label.isSome = false

namespace Plain

variable {mn : Mnemonic} {r : AddressRef}

instance [h : Holds (Opcode.takes mn .immediate)] (v : UInt8) : Plain mn (.immediate v) :=
  ⟨.immediate v, rfl, h.holds, rfl⟩

instance [h : Holds (Opcode.takes mn .zeroPage)] (z : UInt8) : Plain mn (.zeroPage z) :=
  ⟨.zeroPage z, rfl, h.holds, rfl⟩

instance [h : Holds (Opcode.takes mn .indirectY)] (z : UInt8) : Plain mn (.indirectY z) :=
  ⟨.indirectY z, rfl, h.holds, rfl⟩

instance [h : Holds (Opcode.takes mn .absolute)] [hr : Unlabelled r] : Plain mn (.absolute r) :=
  ⟨.absolute r, rfl, h.holds, hr.unlabelled⟩

instance [h : Holds (Opcode.takes mn .absoluteX)] [hr : Unlabelled r] : Plain mn (.absoluteX r) :=
  ⟨.absoluteX r, rfl, h.holds, hr.unlabelled⟩

instance [h : Holds (Opcode.takes mn .absoluteY)] [hr : Unlabelled r] : Plain mn (.absoluteY r) :=
  ⟨.absoluteY r, rfl, h.holds, hr.unlabelled⟩

instance [h : Holds (Opcode.takes mn .immediate)] [hr : Unlabelled r] : Plain mn (.lowByte r) :=
  ⟨.lowByte r, rfl,
    h.holds, by simp [Arg.operand, Operand.lowByte, AddressRef.isLabel, hr.unlabelled]; rfl⟩

instance [h : Holds (Opcode.takes mn .immediate)] [hr : Unlabelled r] : Plain mn (.highByte r) :=
  ⟨.highByte r, rfl,
    h.holds, by simp [Arg.operand, Operand.highByte, AddressRef.isLabel, hr.unlabelled]; rfl⟩

end Plain

instance (mn : Mnemonic) (o : Operand) [h : Plain mn o] : Safe c (emit mn o) := by
  obtain ⟨arg, rfl, hencodable, hplain⟩ := h.plain
  exact ⟨(Fine.emit hencodable hplain).loose⟩

theorem Fine.op {mn : Mnemonic} {K M : List LabelId}
    (encodable : Opcode.takes mn (Action.ownArg mn).mode = true) : Fine c true K M (op mn) M :=
  .write (.op encodable)

theorem takes_ownArg {mn : Mnemonic} (h : Opcode.takes mn .implied = true) :
    Opcode.takes mn (Action.ownArg mn).mode = true := by
  cases mn <;> first | exact h | cases h

instance (mn : Mnemonic) [h : Holds (Opcode.takes mn .implied)] : Safe c (op mn) :=
  ⟨(Fine.op (takes_ownArg h.holds)).loose⟩

theorem takes_ownArg_of_accumulator {mn : Mnemonic} (h : Opcode.takes mn .accumulator = true) :
    Opcode.takes mn (Action.ownArg mn).mode = true := by
  cases mn <;> first | exact h | cases h

instance (mn : Mnemonic) [h : Holds (Opcode.takes mn .accumulator)] : Safe c (op mn) :=
  ⟨(Fine.op (takes_ownArg_of_accumulator h.holds)).loose⟩

instance (mn : Mnemonic) (n : UInt8) [h : Holds (Opcode.takes mn .immediate)] : Safe c (imm mn n) :=
  ⟨(Fine.write (.imm h.holds)).loose⟩

instance (mn : Mnemonic) (z : UInt8) [h : Holds (Opcode.takes mn .zeroPage)] : Safe c (zp mn z) :=
  ⟨(Fine.write (.zp h.holds)).loose⟩

instance (mn : Mnemonic) (r : AddressRef) [Plain mn (.absolute r)] : Safe c (mem mn r) := by
  unfold mem
  infer_instance

instance (id : RoutineId) : Safe c (callRoutine id) :=
  ⟨(Fine.write (.call (Routine.mem_all id))).loose⟩

instance (r : AddressRef) [Unlabelled r] (wide : Bool) : Safe c (load r wide) := by
  unfold load
  infer_instance

instance (r : AddressRef) [Unlabelled r] (wide : Bool) : Safe c (store r wide) := by
  unfold store
  infer_instance

instance (z : UInt8) (wide : Bool) : Safe c (loadSlot z wide) := by
  unfold loadSlot
  infer_instance

instance (z : UInt8) (wide : Bool) : Safe c (storeSlot z wide) := by
  unfold storeSlot
  infer_instance

instance (v : UInt16) (wide : Bool) : Safe c (loadConstant v wide) := by
  unfold loadConstant
  infer_instance

instance (r : AddressRef) [Unlabelled r] : Safe c (loadAddress r) := by
  unfold loadAddress
  infer_instance

instance (wide : Bool) : Safe c (push wide) := by
  unfold push
  infer_instance

instance (wide : Bool) : Safe c (pop wide) := by
  unfold pop
  infer_instance

instance : Safe c testA := by
  unfold testA
  infer_instance

instance (t : Ty) : Safe c (zero t) := by
  unfold zero
  infer_instance

instance (mn : Mnemonic) [h : Holds (Opcode.takes mn .relative)] : Safe c (materialize mn) where
  fine := by
    unfold materialize
    refine .newLabel_bind fun yes => .newLabel_bind fun done => ?_
    refine .bind (.branchTo h.holds (by simp)) fun _ => ?_
    refine .bind .safe fun _ => .bind (.branchTo rfl (by simp)) fun _ => ?_
    refine .bind (.place (.tail .head)) fun _ => .bind .safe fun _ => ?_
    exact .place .head

instance (k : Kind) : Safe c (extend k) where
  fine := by
    unfold extend
    refine .ite (fun _ => .bind .safe fun _ => .ite (fun _ => ?_) fun _ => .pure _) fun _ => .pure _
    refine .newLabel_bind fun positive => .bind .safe fun _ => ?_
    refine .bind (.branchTo rfl (by simp)) fun _ => .bind .safe fun _ => ?_
    exact .place .head

end

end Lowering

end Breadbin
