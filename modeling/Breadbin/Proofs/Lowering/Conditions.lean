import Breadbin.Proofs.Lowering.Variables

/-!
# Conditions

A condition is lowered as a value, as a branch when it is false and as a branch when it is true.
The three agree whatever its leaves do: they run through the code of the same leaves in the same
order, and between two leaves only A and the flags change.  `Meaning` says what leaves do;
`Meaning.truth` says what comes of a condition, and which leaves are visited on the way.
-/

namespace Breadbin

/-! ## The shape of conditions -/

namespace Expr

/-- Whether branches follow the expression down to its operands, if those are truth values. -/
def isConnective : Expr → Bool
  | .unary _ .not _ | .binary _ .and _ _ | .binary _ .or _ _ => true
  | _ => false

/-- The operands at which the connectives end, from left to right. -/
def leaves : Expr → List Expr
  | .unary _ .not x => leaves x
  | .binary _ .and l r => leaves l ++ leaves r
  | .binary _ .or l r => leaves l ++ leaves r
  | e => [e]

/-- A tree of connectives over anything that is a truth value. -/
inductive IsCondition : Expr → Prop
  | leaf {e : Expr} (hleaf : e.isConnective = false) (htype : e.type = .bool) : IsCondition e
  | not {h : ExprHead} {x : Expr} (htype : h.type = .bool) (hx : IsCondition x) :
      IsCondition (.unary h .not x)
  | and {h : ExprHead} {l r : Expr} (htype : h.type = .bool) (hl : IsCondition l)
      (hr : IsCondition r) :
    IsCondition (.binary h .and l r)
  | or {h : ExprHead} {l r : Expr} (htype : h.type = .bool) (hl : IsCondition l)
      (hr : IsCondition r) :
    IsCondition (.binary h .or l r)

theorem IsCondition.type_eq {e : Expr} (h : IsCondition e) : e.type = .bool := by
  cases h with
  | leaf _ htype => exact htype
  | not htype _ => exact htype
  | and htype _ _ => exact htype
  | or htype _ _ => exact htype

theorem IsCondition.isAbsent_eq {e : Expr} (h : IsCondition e) : e.isAbsent = false := by
  have htype := h.type_eq
  cases e with
  | absent => cases htype
  | _ => rfl

theorem leaves_of_leaf {e : Expr} (h : e.isConnective = false) : e.leaves = [e] := by
  unfold leaves
  split
  · cases h
  · cases h
  · cases h
  · rfl

end Expr

namespace Lowering

open Assembly Machine

/-! ## What comes of a condition -/

/-- The leaves that are visited, and the value with the state behind it unless the last leaf runs
for ever. -/
structure Course (σ : Type) where
  visited : List Expr
  outcome : Option (Bool × σ)

namespace Course

variable {σ : Type}

/-- Nothing more is visited. -/
def done (bit : Bool) (st : σ) : Course σ := ⟨[], some (bit, st)⟩

/-- One course after the other. -/
def bind (c : Course σ) (f : Bool → σ → Course σ) : Course σ :=
  match c.outcome with
  | none => c
  | some (bit, st) => ⟨c.visited ++ (f bit st).visited, (f bit st).outcome⟩

theorem bind_done (c : Course σ) : c.bind done = c := by
  rcases c with ⟨es, _ | ⟨bit, st⟩⟩
  · rfl
  · show (⟨es ++ [], some (bit, st)⟩ : Course σ) = _
    rw [List.append_nil]

/-- Goes on where the value does not decide. -/
def orElse (c : Course σ) (deciding : Bool) (next : σ → Course σ) : Course σ :=
  c.bind fun bit st => if bit = deciding then done deciding st else next st

end Course

/-- What leaves do to a state: their value and the state behind them, or nothing if they run for
ever.  `shows` says of which views a state is seen in; it is about anything but A and the flags. -/
structure Meaning (σ : Type) where
  eval : Expr → σ → Option (Bool × σ)
  shows : LinkedCode → View → σ → Prop
  shows_flags : ∀ code v st a carry zero negative overflow, shows code v st →
    shows code { v with a, carry, zero, negative, overflow } st

/-- The value of a condition, the right operand of `and` and `or` being left out when the left one
decides. -/
def Meaning.truth {σ : Type} (M : Meaning σ) : Expr → σ → Course σ
  | .unary _ .not x, st => (M.truth x st).bind fun bit st' => .done (!bit) st'
  | .binary _ .and l r, st => (M.truth l st).orElse false (M.truth r)
  | .binary _ .or l r, st => (M.truth l st).orElse true (M.truth r)
  | e, st => ⟨[e], M.eval e st⟩

/-! ## Runs through leaves -/

/-- A truth value as a byte. -/
def truthByte (bit : Bool) : UInt8 := if bit then 1 else 0

/-- The processor comes from one place to another, and only A and the flags change. -/
def Slides (code : LinkedCode) (a : Nat) (v : View) (b : Nat) (w : View) : Prop :=
  code.Reaches 0 a v b w ∧ ∃ n carry zero negative overflow,
  w = { v with a := n, carry, zero, negative, overflow }

/-- The code that lowering an expression gives in some state. -/
def CodeOf (p : Program) (e : Expr) : Deed := fun code a b =>
  ∃ s s' ls, perform (lowerValue e) p s = (.ok (), s') ∧ s.Writes s' ls ∧ code.Installed a ls b

/-- The processor runs through the code of the leaves, one after the other, and through no code in
between that does more than `Slides` allows. -/
def Visits (p : Program) (code : LinkedCode) : List Expr → Nat → View → Nat → View → Prop
  | [], a, v, b, w => Slides code a v b w
  | e :: es, a, v, b, w => ∃ m n u u', Slides code a v m u ∧ CodeOf p e code m n ∧
      code.Reaches 0 m u n u' ∧
      Visits p code es n u' b w

/-- The processor follows a course: it visits its leaves and leaves by the exit for the value, or it
comes to the last leaf and stays there. -/
def Follows {σ : Type} (M : Meaning σ) (p : Program) (code : LinkedCode) (c : Course σ)
    (exit : Bool → Nat → View → Prop) (a : Nat) (v : View) : Prop :=
  match c.outcome with
  | some (bit, st) => ∃ b w, Visits p code c.visited a v b w ∧ M.shows code w st ∧ exit bit b w
  | none => ∃ es e m n w, c.visited = es ++ [e] ∧ Visits p code es a v m w ∧ CodeOf p e code m n ∧
      ∀ k, code.Persists k m w

/-- Lowering a leaf gives code that does what the meaning says. -/
def Meaning.Describes {σ : Type} (M : Meaning σ) (p : Program) (s : Emission) (e : Expr) : Prop :=
  ∀ s', s.Stays s' → Does (lowerValue e) p s' fun code a b => ∀ v st, M.shows code v st →
    match M.eval e st with
    | some (bit, st') => ∃ w, code.Reaches 0 a v b w ∧ M.shows code w st' ∧ w.a = truthByte bit
    | none => ∀ k, code.Persists k a v

theorem Meaning.truth_leaf {σ : Type} (M : Meaning σ) {e : Expr}
    (h : e.isConnective = false) (st : σ) :
    M.truth e st = ⟨[e], M.eval e st⟩ := by
  unfold truth
  split
  · cases h
  · cases h
  · cases h
  · rfl

theorem Meaning.Describes.stays {σ : Type} {M : Meaning σ} {p : Program}
    {s s' : Emission} {e : Expr} (h : M.Describes p s e) (hs : s.Stays s') : M.Describes p s' e :=
  fun _ hs' => h _ (Path.trans hs hs')

section

variable {p : Program} {code : LinkedCode} {a b m : Nat} {u v w : View}

theorem Slides.refl (code : LinkedCode) (a : Nat) (v : View) : Slides code a v a v :=
  ⟨.refl code a v, v.a, v.carry, v.zero, v.negative, v.overflow, rfl⟩

theorem Slides.trans (h : Slides code a v m u) (h' : Slides code m u b w) :
    Slides code a v b w := by
  obtain ⟨hreaches, _, _, _, _, _, rfl⟩ := h
  obtain ⟨hreaches', n, carry, zero, negative, overflow, rfl⟩ := h'
  exact ⟨hreaches.andThen hreaches', n, carry, zero, negative, overflow, rfl⟩

theorem Slides.shows {σ : Type} {M : Meaning σ} {st : σ} (h : Slides code a v b w)
    (hv : M.shows code v st) :
    M.shows code w st := by
  obtain ⟨-, n, carry, zero, negative, overflow, rfl⟩ := h
  exact M.shows_flags code v st n carry zero negative overflow hv

theorem Slides.visits {es : List Expr} (h : Slides code a v m u) (h' : Visits p code es m u b w) :
    Visits p code es a v b w := by
  cases es with
  | nil => exact h.trans h'
  | cons e es =>
    obtain ⟨m', n, x, x', hslides, hrest⟩ := h'
    exact ⟨m', n, x, x', h.trans hslides, hrest⟩

theorem Visits.append {es fs : List Expr} (h : Visits p code es a v m u)
    (h' : Visits p code fs m u b w) :
    Visits p code (es ++ fs) a v b w := by
  induction es generalizing a v with
  | nil => exact Slides.visits h h'
  | cons e es ih =>
    obtain ⟨m', n, x, x', hslides, hcode, hreaches, hrest⟩ := h
    exact ⟨m', n, x, x', hslides, hcode, hreaches, ih hrest⟩

variable {σ : Type} {M : Meaning σ} {c : Course σ} {exit exit' : Bool → Nat → View → Prop}
  {st : σ} {bit : Bool}

theorem Follows.done (h : Slides code a v b w) (hv : M.shows code v st) (hexit : exit bit b w) :
    Follows M p code (.done bit st) exit a v :=
  ⟨b, w, h, h.shows hv, hexit⟩

theorem Slides.follows (h : Slides code a v m u) (h' : Follows M p code c exit m u) :
    Follows M p code c exit a v := by
  rcases c with ⟨es, _ | ⟨bit, st⟩⟩
  · obtain ⟨fs, e, n, n', w, hes, hvisits, hrest⟩ := h'
    exact ⟨fs, e, n, n', w, hes, h.visits hvisits, hrest⟩
  · obtain ⟨b, w, hvisits, hrest⟩ := h'
    exact ⟨b, w, h.visits hvisits, hrest⟩

/-- A course is followed by what is done at its exits. -/
theorem Follows.bind {f : Bool → σ → Course σ} (h : Follows M p code c exit a v)
    (hnext : ∀ bit st m u, M.shows code u st → exit bit m u →
      Follows M p code (f bit st) exit' m u) :
    Follows M p code (c.bind f) exit' a v := by
  rcases c with ⟨es, _ | ⟨bit, st⟩⟩
  · exact h
  · obtain ⟨m, u, hvisits, hshows, hexit⟩ := h
    have hrest := hnext bit st m u hshows hexit
    change Follows M p code ⟨es ++ (f bit st).visited, (f bit st).outcome⟩ exit' a v
    rcases hc : f bit st with ⟨fs, _ | ⟨bit', st'⟩⟩ <;> rw [hc] at hrest
    · obtain ⟨gs, e, n, n', w, rfl, hvisits', hlast⟩ := hrest
      exact ⟨es ++ gs, e, n, n', w, (List.append_assoc es gs [e]).symm,
        hvisits.append hvisits', hlast⟩
    · obtain ⟨b, w, hvisits', hlast⟩ := hrest
      exact ⟨b, w, hvisits.append hvisits', hlast⟩

end

variable {p : Program} {s s' : Emission} {σ : Type} {M : Meaning σ}

/-! ## Values -/

/-- The code of a leaf is the code of that leaf. -/
theorem Does.codeOf {e : Expr} {P : Deed} (h : Does (lowerValue e) p s P) :
    Does (lowerValue e) p s fun code a b => P code a b ∧ CodeOf p e code a b := by
  obtain ⟨s', ls, hperform, hwrites, hdeed⟩ := h
  exact ⟨s', ls, hperform, hwrites, fun code a b hcode hsupplies =>
    ⟨hdeed code a b hcode hsupplies, s, s', ls, hperform, hwrites, hcode⟩⟩

/-- The value of a condition is left in A at the end of the code. -/
def Valued (M : Meaning σ) (p : Program) (e : Expr) : Deed := fun code a b =>
  ∀ v st, M.shows code v st →
    Follows M p code (M.truth e st) (fun bit m w => m = b ∧ w.a = truthByte bit) a v

/-- A condition as a truth value is lowered as it is. -/
theorem Part.inType_bool {x : Part} (h : x.expr.IsCondition) : x.inType .bool = x.value := by
  have habsent := h.isAbsent_eq
  have htype : Ty.bool = x.type := h.type_eq.symm
  unfold Part.inType
  rw [habsent, ← htype]
  rfl

/-- How constants are lowered in a program. -/
def constantIn (p : Program) : Expr → Ty → Lower Unit := constantWithin (p.globals.items.length + 1)

theorem perform_lowerValue (e : Expr) (p : Program) (s : Emission) :
    perform (lowerValue e) p s = perform (valueWith (constantIn p) e) p s := by
  unfold lowerValue constantIn
  exact perform_read_bind _ p s

theorem perform_valueWith_not {constant : Expr → Ty → Lower Unit} {h : ExprHead} {x : Expr}
    (hx : x.IsCondition) :
    perform (valueWith constant (.unary h .not x)) p s =
      perform (valueWith constant x >>= fun _ => imm .eor 1) p s := by
  have hchecked : Checked.unary .not x.type h.span = ⟨.bool, true, []⟩ := by rw [hx.type_eq]; rfl
  rw [valueWith]
  unfold lowerUnary
  rw [Part.type, hchecked, perform_bind_ok (perform_checked _ p s)]
  rfl

/-- Truth values may be joined. -/
theorem checked_logical {op : BinaryOp} (hop : op = .and ∨ op = .or) (span : Span) :
    ∃ res, Checked.binary op .bool .bool span = ⟨res, true, []⟩ := by
  rcases hop with rfl | rfl <;> exact ⟨_, rfl⟩

theorem perform_valueWith_logical {constant : Expr → Ty → Lower Unit} {h : ExprHead} {op : BinaryOp}
    (hop : op = .and ∨ op = .or) {l r : Expr} (hl : l.IsCondition) (hr : r.IsCondition) :
    perform (valueWith constant (.binary h op l r)) p s =
      perform (newLabel op.text >>= fun done => valueWith constant l >>= fun _ => testA >>= fun _ =>
        branchTo (if op = .and then .beq else .bne) done >>= fun _ =>
          valueWith constant r >>= fun _ =>
        place done) p s := by
  obtain ⟨res, hchecked⟩ := checked_logical hop h.span
  have hlogical : op.isLogical = true := by rcases hop with rfl | rfl <;> rfl
  rw [valueWith]
  unfold lowerBinary
  rw [hl.isAbsent_eq, hr.isAbsent_eq]
  have hsame : s.reporting [] = s := rfl
  simp only [Bool.or_self, Bool.false_eq_true, if_false, Part.type, hl.type_eq, hr.type_eq]
  rw [hchecked, perform_bind_ok (perform_checked _ p s), hsame]
  dsimp only
  rw [hlogical]
  simp only [Bool.not_true, Bool.false_eq_true, if_false, if_true]
  unfold lowerLogical
  rw [Part.inType_bool hl, Part.inType_bool hr]

/-- `not` as a value. -/
theorem perform_lowerValue_not {h : ExprHead} {x : Expr} (hx : x.IsCondition) :
    perform (lowerValue (.unary h .not x)) p s =
      perform (lowerValue x >>= fun _ => imm .eor 1) p s := by
  simp only [perform_bind, perform_lowerValue, perform_valueWith_not hx]

/-- `and` and `or` as values: the test of the left operand skips the right one when it decides. -/
theorem perform_lowerValue_logical {h : ExprHead} {op : BinaryOp}
    (hop : op = .and ∨ op = .or) {l r : Expr}
    (hl : l.IsCondition) (hr : r.IsCondition) : perform (lowerValue (.binary h op l r)) p s =
      perform (newLabel op.text >>= fun done => lowerValue l >>= fun _ => testA >>= fun _ =>
        branchTo (if op = .and then .beq else .bne) done >>= fun _ => lowerValue r >>= fun _ =>
          place done) p s := by
  simp only [perform_bind, perform_lowerValue, perform_valueWith_logical hop hl hr]

/-- The test of a truth value and the branch that is taken for `d`. -/
theorem Slides.test {code : LinkedCode} {a m b t : Nat} {d bit : Bool} {target : LabelId} {v : View}
    (hcompare : Lines [.instr .cmp (.immediate 0)] code a m)
    (hbranch : Lines [.instr (if d then .bne else .beq) (.relative target)] code m b)
    (ha : v.a = truthByte bit) (ht : code.At target t) :
    ∃ w, Slides code a v (if bit = d then t else b) w ∧ w.a = v.a := by
  have hfirst : code.Path 0 [] a v m (v.compare v.a 0) := hcompare.path rfl rfl (by decide)
  have htaken : (v.compare v.a 0).takes? (if d then .bne else .beq) = some (decide (bit = d)) := by
    simp only [View.takes?, View.compare, View.flags, View.setCarry, ha]
    cases d <;> cases bit <;> rfl
  have hsecond := hbranch.branch ht htaken
  simp only [decide_eq_true_eq] at hsecond
  exact ⟨v.compare v.a 0, ⟨hfirst.reaches.andThen hsecond, v.a, _, _, _, _, rfl⟩, rfl⟩

theorem negate_slides {code : LinkedCode} {a b : Nat} {bit : Bool} {v : View}
    (h : Lines [.instr .eor (.immediate 1)] code a b) (ha : v.a = truthByte bit) :
    ∃ w, Slides code a v b w ∧ w.a = truthByte (!bit) := by
  have hpath : code.Path 0 [] a v b (v.setA (v.a ^^^ 1)) := h.path rfl rfl (by decide)
  refine ⟨_, ⟨hpath.reaches, v.a ^^^ 1, _, _, _, _, rfl⟩, ?_⟩
  show v.a ^^^ 1 = _
  rw [ha]
  cases bit <;> rfl

/-- `and` and `or` as values; `d` is the value of the left operand that decides. -/
theorem logical_does {h : ExprHead} {op : BinaryOp} {d : Bool}
    (hop : op = .and ∧ d = false ∨ op = .or ∧ d = true)
    {l r : Expr} (hl : l.IsCondition) (hr : r.IsCondition)
    (hleft : ∀ s', s.Stays s' → Does (lowerValue l) p s' (Valued M p l))
    (hright : ∀ s', s.Stays s' → Does (lowerValue r) p s' (Valued M p r)) :
    Does (lowerValue (.binary h op l r)) p s fun code a b => ∀ v st, M.shows code v st →
      Follows M p code
        ((M.truth l st).orElse d (M.truth r)) (fun bit m w => m = b ∧ w.a = truthByte bit) a v := by
  have hbranch : (if op = .and then Mnemonic.beq else .bne) = if d then .bne else .beq := by
    rcases hop with ⟨rfl, rfl⟩ | ⟨rfl, rfl⟩ <;> rfl
  have hperform :=
    perform_lowerValue_logical (p := p) (s := s) (h := h) (hop.imp And.left And.left) hl hr
  rw [hbranch] at hperform
  refine Does.after hperform (.refl s)
      ((Does.label fun done s₁ hs₁ => (hleft s₁ hs₁).bind fun s₂ hs₂ =>
    (Does.straight testA).bind fun s₃ hs₃ => (Does.straight (branchTo _ done)).bind fun s₄ hs₄ =>
    (hright s₄ (Path.trans (Path.trans (Path.trans hs₁ hs₂) hs₃) hs₄)).bind fun s₅ _ =>
      Does.straight (place done)).mono ?_)
  rintro code a b ⟨done, m₁, hl, m₂, hcompare, m₃, hbranch, m₄, hr, hdone⟩ v st hv
  obtain ⟨hdone, rfl⟩ := LinkedCode.Installed.bound hdone
  refine (hl v st hv).bind fun bit st' m u hu hexit => ?_
  obtain ⟨rfl, ha⟩ := hexit
  obtain ⟨w, hslides, hw⟩ := Slides.test hcompare hbranch ha hdone
  by_cases hdecides : bit = d
  · rw [if_pos hdecides] at hslides ⊢
    exact .done hslides hu ⟨rfl, by rw [hw, ha, hdecides]⟩
  · rw [if_neg hdecides] at hslides ⊢
    exact hslides.follows (hr w st' (hslides.shows hu))

/-- **The value of a condition** is what comes of it. -/
theorem value_does {e : Expr} (he : e.IsCondition) (hleaves : ∀ x ∈ e.leaves, M.Describes p s x) :
    Does (lowerValue e) p s (Valued M p e) := by
  induction he generalizing s with
  | @leaf e hleaf _ =>
    have hdescribes :=
      hleaves e (by rw [Expr.leaves_of_leaf hleaf]; exact List.mem_singleton_self e)
    refine (hdescribes s (Path.refl s)).codeOf.mono ?_
    rintro code a b ⟨hdeed, hcode⟩ v st hv
    have hleft := hdeed v st hv
    rw [M.truth_leaf hleaf]
    unfold Follows
    cases heval : M.eval e st with
    | none =>
      rw [heval] at hleft
      exact ⟨[], e, a, b, v, rfl, .refl code a v, hcode, hleft⟩
    | some result =>
      rw [heval] at hleft
      obtain ⟨w, hreaches, hshows, ha⟩ := hleft
      exact ⟨b, w, ⟨a, b, v, w, .refl code a v, hcode, hreaches, .refl code b w⟩, hshows, rfl, ha⟩
  | not htype hx ih =>
    refine Does.after (perform_lowerValue_not hx) (.refl s)
      (((ih hleaves).bind fun s' _ => Does.straight (imm .eor 1)).mono ?_)
    rintro code a b ⟨m, hx, hnot⟩ v st hv
    refine (hx v st hv).bind fun bit st' m u hu hexit => ?_
    obtain ⟨rfl, ha⟩ := hexit
    obtain ⟨w, hslides, hw⟩ := negate_slides hnot ha
    exact .done hslides hu ⟨rfl, hw⟩
  | and htype hl hr ihl ihr =>
    exact logical_does (.inl ⟨rfl, rfl⟩) hl hr
      (fun s' hs => ihl fun x hx => (hleaves x (List.mem_append_left _ hx)).stays hs)
      (fun s' hs => ihr fun x hx => (hleaves x (List.mem_append_right _ hx)).stays hs)
  | or htype hl hr ihl ihr =>
    exact logical_does (.inr ⟨rfl, rfl⟩) hl hr
      (fun s' hs => ihl fun x hx => (hleaves x (List.mem_append_left _ hx)).stays hs)
      (fun s' hs => ihr fun x hx => (hleaves x (List.mem_append_right _ hx)).stays hs)

/-! ## Branches -/

/-- The code jumps when the condition has the value, and goes through to its end otherwise. -/
def Branched (M : Meaning σ) (p : Program) (value : Bool) (target : LabelId) (e : Expr) :
    Deed := fun code a b =>
  ∀ v st t, M.shows code v st → code.At target t →
    Follows M p code (M.truth e st) (fun bit m _ => m = if bit = value then t else b) a v

theorem plain_does {e : Expr} (he : e.IsCondition) (hvalue : Does (lowerValue e) p s (Valued M p e))
    (value : Bool)
    (target : LabelId) :
    Does (branchOn.plain value target e) p s (Branched M p value target e) := by
  have hact : lowerExpr e .bool = lowerValue e := Part.inType_bool he
  unfold branchOn.plain
  rw [hact]
  refine (hvalue.bind fun s₁ _ => (Does.straight testA).bind fun s₂ _ =>
    Does.straight (branchTo _ target)).mono ?_
  rintro code a b ⟨m₁, hvalue, m₂, hcompare, hbranch⟩ v st t hv ht
  have hfollows : Follows M p code ((M.truth e st).bind fun bit st' => .done bit st')
      (fun bit m _ => m = if bit = value then t else b) a v := by
    refine (hvalue v st hv).bind fun bit st' m u hu hexit => ?_
    obtain ⟨rfl, ha⟩ := hexit
    obtain ⟨w, hslides, -⟩ := Slides.test hcompare hbranch ha ht
    exact .done hslides hu rfl
  rwa [Course.bind_done] at hfollows

/-- Two operands, of which the left one decides with the value `d`.  It jumps where both jump for
that value; else it skips the right one. -/
theorem joined_does {d value : Bool} {name : String} {target : LabelId} {l r : Expr}
    {act : Lower Unit}
    (hact : act = if value = d then (branchOn d target l >>= fun _ => branchOn d target r)
      else newLabel name >>= fun skip => branchOn d skip l >>= fun _ => branchOn value target r >>=
        fun _ => place skip)
    (hleft : ∀ s' target, s.Stays s' → Does (branchOn d target l) p s' (Branched M p d target l))
    (hright : ∀ s', s.Stays s' →
      Does (branchOn value target r) p s' (Branched M p value target r)) :
    Does act p s fun code a b => ∀ v st t, M.shows code v st → code.At target t →
      Follows M p code ((M.truth l st).orElse d (M.truth r)) (fun bit m _ =>
        m = if bit = value then t else b) a v := by
  subst hact
  by_cases hvalue : value = d
  · subst hvalue
    rw [if_pos rfl]
    refine ((hleft s target (Path.refl s)).bind hright).mono ?_
    rintro code a b ⟨m, hl, hr⟩ v st t hv ht
    refine (hl v st t hv ht).bind fun bit st' m' u hu hexit => ?_
    subst hexit
    by_cases hdecides : bit = value
    · rw [if_pos hdecides, if_pos hdecides]
      exact .done (.refl code t u) hu (if_pos rfl).symm
    · rw [if_neg hdecides, if_neg hdecides]
      exact hr u st' t hu ht
  · rw [if_neg hvalue]
    refine (Does.label fun skip s₁ hs₁ => (hleft s₁ skip hs₁).bind fun s₂ hs₂ =>
      (hright s₂ (Path.trans hs₁ hs₂)).bind fun s₃ _ => Does.straight (place skip)).mono ?_
    rintro code a b ⟨skip, m₁, hl, m₂, hr, hskip⟩ v st t hv ht
    obtain ⟨hskip, rfl⟩ := LinkedCode.Installed.bound hskip
    refine (hl v st b hv hskip).bind fun bit st' m' u hu hexit => ?_
    subst hexit
    by_cases hdecides : bit = d
    · rw [if_pos hdecides, if_pos hdecides]
      exact .done (.refl code b u) hu (if_neg (Ne.symm hvalue)).symm
    · rw [if_neg hdecides, if_neg hdecides]
      exact hr u st' t hu ht

theorem branchOn_leaf {e : Expr} (h : e.isConnective = false) (value : Bool) (target : LabelId) :
    branchOn value target e = branchOn.plain value target e := by
  unfold branchOn
  split
  · cases h
  · cases h
  · cases h
  · rfl

/-- **The branch on a condition** jumps or not as what comes of the condition says. -/
theorem branch_does {e : Expr} (he : e.IsCondition) (hleaves : ∀ x ∈ e.leaves, M.Describes p s x)
    (value : Bool)
    (target : LabelId) : Does (branchOn value target e) p s (Branched M p value target e) := by
  induction he generalizing s value target with
  | leaf hleaf htype =>
    rw [branchOn_leaf hleaf]
    exact plain_does (.leaf hleaf htype) (value_does (.leaf hleaf htype) hleaves) value target
  | @not h x htype hx ih =>
    have hbool : x.type.kind = .bool := by rw [hx.type_eq]; rfl
    rw [branchOn, if_pos hbool]
    refine (ih hleaves (!value) target).mono ?_
    intro code a b hbranched v st t hv ht
    refine (hbranched v st t hv ht).bind fun bit st' m u hu hexit => .done (.refl code m u) hu ?_
    rw [hexit]
    cases bit <;> cases value <;> rfl
  | @and h l r htype hl hr ihl ihr =>
    have hpair : isTruthPair l r = true := by rw [isTruthPair, hl.type_eq, hr.type_eq]; rfl
    have hact : branchOn value target (.binary h .and l r) = if value = false then
        (branchOn false target l >>= fun _ => branchOn false target r)
            else newLabel "and" >>= fun skip =>
          branchOn false skip l >>= fun _ => branchOn value target r >>= fun _ => place skip := by
      rw [branchOn, if_pos hpair]
      cases value <;> rfl
    exact joined_does hact
      (fun s' target hs =>
        ihl (fun x hx => (hleaves x (List.mem_append_left _ hx)).stays hs) false target)
      (fun s' hs => ihr (fun x hx => (hleaves x (List.mem_append_right _ hx)).stays hs)
        value target)
  | @or h l r htype hl hr ihl ihr =>
    have hpair : isTruthPair l r = true := by rw [isTruthPair, hl.type_eq, hr.type_eq]; rfl
    have hact : branchOn value target (.binary h .or l r) = if value = true then
        (branchOn true target l >>= fun _ => branchOn true target r)
            else newLabel "or" >>= fun skip =>
          branchOn true skip l >>= fun _ => branchOn value target r >>= fun _ => place skip := by
      rw [branchOn, if_pos hpair]
      cases value <;> rfl
    exact joined_does hact
      (fun s' target hs =>
        ihl (fun x hx => (hleaves x (List.mem_append_left _ hx)).stays hs) true target)
      (fun s' hs => ihr (fun x hx => (hleaves x (List.mem_append_right _ hx)).stays hs)
        value target)

/-- **The three lowerings of a condition agree.**  Where the code of the value leaves 0 or 1 in A,
the branch when false jumps exactly for 0 and the branch when true exactly for 1; all of them visit
the code of the same leaves in the same order, `M.truth` saying which, and come to the same state,
or stay in the same leaf for ever. -/
theorem condition_lowerings_agree {e : Expr} (he : e.IsCondition)
    (hleaves : ∀ x ∈ e.leaves, M.Describes p s x) :
    Does (lowerExpr e .bool) p s (Valued M p e) ∧
      ∀ value target, Does (branchOn value target e) p s (Branched M p value target e) := by
  have hact : lowerExpr e .bool = lowerValue e := Part.inType_bool he
  rw [hact]
  exact ⟨value_does he hleaves, branch_does he hleaves⟩

/-! ## Variables as leaves -/

/-- What variables with truth values do: nothing but give their values. -/
def Meaning.ofVariables (allocator : Allocator) : Meaning (SymbolId → Bool) where
  eval e st :=
    match e with
    | .var _ id => some (st id, st)
    | _ => none
  shows _ v st := ∀ id address, allocator.lookup? id = some address →
    v.peek address = truthByte (st id)
  shows_flags _ _ _ _ _ _ _ _ h := h

/-- The code of a variable with a truth value loads it. -/
theorem ofVariables_describes {allocator : Allocator} {h : ExprHead} {id : SymbolId} {sym : Symbol}
    {address : UInt16}
    (hlookup : s.constants.lookup id = none) (hsymbol : p.symbol? id = some sym)
    (htype : sym.type = .bool)
    (haddress : allocator.lookup? id = some address) (hstate : s.allocator = allocator) :
    (Meaning.ofVariables allocator).Describes p s (.var h id) := by
  intro s' hs
  have hscalar : sym.type.isArray = false := by rw [htype]; rfl
  have hperform :=
    perform_lowerValue_variable (s := s') (h := h) (by rw [hs.constants, hlookup]) hsymbol hscalar
    (hs.allocator.lookup? (hstate ▸ haddress))
  rw [htype] at hperform
  refine Does.after hperform (.refl s') ((load_does address false).mono ?_)
  intro code a b hload v st hv
  obtain ⟨w, hpath, hw⟩ := hload v
  have ha : w.a = v.peek address :=
    UInt8.toNat_inj.1 (by simpa [View.value, View.stored] using congrArg UInt16.toNat hw)
  refine ⟨w, hpath.reaches, fun id' address' hfound => ?_, ha.trans (hv id address haddress)⟩
  rw [hpath.frame.peek, hv id' address' hfound]

/-- A program with two truth values. -/
def twoTruths : Program :=
  { symbols := .of [{ name := Text.bytesOf "b", type := .bool },
    { name := Text.bytesOf "c", type := .bool }] }

/-- The state in which both have an address. -/
def bothPlaced : Emission :=
  { workspace := { target := .c64 }
    allocator := { Allocator.ofTarget .c64 with slots := #[⟨1, [], 0xC000, 1⟩, ⟨2, [], 0xC001, 1⟩] }
    reports := .filtering (.ofLimit 0) }

/-- The condition `not (b and not c)`. -/
def implication : Expr :=
  .unary { type := .bool } .not (.binary { type := .bool } .and (.var { type := .bool } 1)
    (.unary { type := .bool } .not (.var { type := .bool } 2)))

theorem implication_lowerings_agree :
    Does (lowerExpr implication .bool) twoTruths bothPlaced
      (Valued (.ofVariables bothPlaced.allocator) twoTruths implication) ∧
    ∀ value target, Does (branchOn value target implication) twoTruths bothPlaced
      (Branched (.ofVariables bothPlaced.allocator) twoTruths value target implication) := by
  refine condition_lowerings_agree
    (.not rfl (.and rfl (.leaf rfl rfl) (.not rfl (.leaf rfl rfl)))) ?_
  intro e he
  have hleaves : e = .var { type := .bool } 1 ∨ e = .var { type := .bool } 2 := by
    simpa [implication, Expr.leaves] using he
  rcases hleaves with rfl | rfl
  · exact ofVariables_describes rfl rfl
      rfl (show bothPlaced.allocator.lookup? 1 = some 0xC000 from rfl) rfl
  · exact ofVariables_describes rfl rfl
      rfl (show bothPlaced.allocator.lookup? 2 = some 0xC001 from rfl) rfl

end Lowering

end Breadbin
