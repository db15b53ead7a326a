import Breadbin.Proofs.Program.RoundTrip

/-!
# Truncated programs are rejected

What is read within some depth of nesting is read the same within a greater one, so a depth that is
too small can only make a reader fail.  A stored program that breaks off early fails at the depth
that the whole of it asks for, hence at the smaller one that its own length allows.
-/

namespace Breadbin

namespace Unpack

variable {α β : Type} {r r' : Reader α}

/-- Whatever the first reader reads, the second one reads the same. -/
def Below (r r' : Reader α) : Prop :=
  ∀ input found, r.run input = .ok found → r'.run input = .ok found

namespace Below

theorem refl (r : Reader α) : Below r r := fun _ _ h => h

theorem throw (e : ReadError) (r : Reader α) : Below (throw e) r := fun _ _ h => nomatch h

theorem bind {f g : α → Reader β} (h : Below r r') (hf : ∀ a, Below (f a) (g a)) :
    Below (r >>= f) (r' >>= g) := by
  intro input found hrun
  rw [StateT.run_bind] at hrun ⊢
  cases hr : r.run input with
  | error e =>
    rw [hr] at hrun
    cases hrun
  | ok first =>
    rw [hr] at hrun
    rw [h _ _ hr]
    exact hf first.1 _ _ hrun

/-- A change of what is read. -/
theorem map {f : α → β} (h : Below r r') : Below (do return f (← r)) (do return f (← r')) :=
  h.bind fun _ => refl _

theorem ite {c : Prop} {hc : Decidable c} {s s' : Reader α} (h : Below r r') (h' : Below s s') :
    Below (if c then r else s) (if c then r' else s') := by
  by_cases hif : c
  · rw [if_pos hif, if_pos hif]
    exact h
  · rw [if_neg hif, if_neg hif]
    exact h'

theorem orAbsent (absent : α) (h : Below r r') :
    Below (orAbsent absent r) (orAbsent absent r') := by
  intro input found hrun
  rcases input with _ | ⟨c, rest⟩
  · exact h _ _ hrun
  · by_cases hc : c = 0xC0
    · subst hc
      exact hrun
    · rw [Reads.run_orAbsent_of_ne absent hc] at hrun ⊢
      exact h _ _ hrun

theorem repeated (h : Below r r') (n : Nat) : Below (repeated r n) (repeated r' n) := by
  induction n with
  | zero => exact refl _
  | succ n ih => exact h.bind fun _ => ih.map

theorem list? (h : Below r r') : Below (list? r) (list? r') := by
  refine (refl _).bind fun c => (refl _).bind fun count => ?_
  cases count with
  | none => exact refl _
  | some n => exact (h.repeated n).map

/-- Fields of the same names; the second ones read whatever the first ones read. -/
def Alike (fields fields' : Fields α) : Prop :=
  List.Forall₂ (fun f f' => f.1 = f'.1 ∧ ∀ a, Below (f.2 a) (f'.2 a)) fields fields'

theorem Alike.nil : Alike ([] : Fields α) [] := List.Forall₂.nil

theorem Alike.cons {name : String} {update update' : α → Reader α} {fields fields' : Fields α}
    (first : ∀ a, Below (update a) (update' a)) (rest : Alike fields fields') :
    Alike ((name, update) :: fields) ((name, update') :: fields') :=
  List.Forall₂.cons ⟨rfl, first⟩ rest

/-- A field that is read in one way. -/
theorem Alike.same {f : String × (α → Reader α)} {fields fields' : Fields α}
    (rest : Alike fields fields') :
    Alike (f :: fields) (f :: fields') := List.Forall₂.cons ⟨rfl, fun _ => refl _⟩ rest

theorem Alike.find? {fields fields' : Fields α} (h : Alike fields fields') (name : Bytes) :
    fields.find? (fun f => Text.bytesOf f.1 == name) = none ∧
        fields'.find? (fun f => Text.bytesOf f.1 == name) = none ∨
      ∃ f f', fields.find? (fun f => Text.bytesOf f.1 == name) = some f ∧
        fields'.find? (fun f => Text.bytesOf f.1 == name) = some f' ∧ ∀ a,
          Below (f.2 a) (f'.2 a) := by
  induction h with
  | nil => exact .inl ⟨rfl, rfl⟩
  | @cons f f' _ _ hfirst _ ih =>
    rw [List.find?_cons, List.find?_cons, ← hfirst.1]
    cases Text.bytesOf f.1 == name with
    | true => exact .inr ⟨f, f', rfl, rfl, hfirst.2⟩
    | false => exact ih

theorem namedFields {fields fields' : Fields α} (h : Alike fields fields') (n : Nat) (a : α) :
    Below (namedFields fields n a) (namedFields fields' n a) := by
  induction n generalizing a with
  | zero => exact refl _
  | succ n ih =>
    refine (refl _).bind fun name => ?_
    rcases h.find? name with ⟨hnone, hnone'⟩ | ⟨f, f', hsome, hsome', hvalue⟩
    · rw [hnone, hnone']
      exact (refl _).bind fun _ => ih a
    · rw [hsome, hsome']
      exact (hvalue a).bind ih

theorem orderedFields {fields fields' : Fields α} (h : Alike fields fields') (a : α) :
    Below (orderedFields fields a) (orderedFields fields' a) := by
  induction h generalizing a with
  | nil => exact refl _
  | cons hfirst _ ih => exact (hfirst.2 a).bind ih

/-- A record is read whenever its fields are. -/
theorem record {fields fields' : Fields α} (h : Alike fields fields') (zero : α) :
    Below (record zero fields) (record zero fields') := by
  refine (refl _).bind fun c => ite (refl _) (ite (namedFields h _ _) (ite ?_ (ite ?_ ?_)))
  · exact (refl _).bind fun n => namedFields h n zero
  · exact (refl _).bind fun n => namedFields h n zero
  · -- a list of the fields in order
    have hlist (n : Nat) : Below
        (if n = 0 then pure zero
          else if n ≠ fields.length then MonadExcept.throw .fieldCount >>= fun (_ : PUnit) =>
            Unpack.orderedFields fields zero
          else Unpack.orderedFields fields zero)
        (if n = 0 then pure zero
          else if n ≠ fields'.length then MonadExcept.throw .fieldCount >>= fun (_ : PUnit) =>
            Unpack.orderedFields fields' zero
          else Unpack.orderedFields fields' zero) := by
      rw [h.length_eq]
      exact ite (refl _) (ite (throw _ _) (orderedFields h zero))
    exact ite ((refl _).bind hlist)
      (ite ((refl _).bind hlist) (ite ((refl _).bind hlist) ((refl _).bind hlist)))

/-- What is made of a record. -/
theorem ofRecord {fields fields' : Fields α} (h : Alike fields fields') {zero : α}
    {f : α → Reader β} :
    Below (Unpack.record zero fields >>= f) (Unpack.record zero fields' >>= f) :=
  (record h zero).bind fun _ => refl _

end Below

end Unpack

open Unpack (Below)
open Unpack.Below (refl throw ite orAbsent list? record ofRecord)
open Unpack.Below.Alike

/-- A list is read whenever its items are. -/
theorem Listed.read_below {α : Type} {r r' : Unpack.Reader α} (h : Below r r') :
    Below (Listed.read r) (Listed.read r') :=
  (list? h).map

theorem Expr.readForm_below {r r' : Unpack.Reader Expr} (h : Below r r') :
    Below (Expr.readForm r) (Expr.readForm r') := by
  have hlist := Listed.read_below h
  refine (refl _).bind fun head =>
    ite (refl _) (ite (refl _) (ite ?_ (ite ?_ (ite ?_ (ite ?_ (ite ?_ (ite ?_ (refl _))))))))
  · exact ofRecord (same (cons (fun _ => h.map) nil))
  · exact ofRecord (same (cons (fun _ => h.map) (cons (fun _ => h.map) nil)))
  · exact ofRecord (same (cons (fun _ => hlist.map) nil))
  · exact ofRecord (same (cons (fun _ => h.map) nil))
  · exact ofRecord (cons (fun _ => h.map) nil)
  · exact ofRecord (same (cons (fun _ => hlist.map) nil))

/-- An expression that is read within some depth is read within a greater one. -/
theorem Expr.read_below {n m : Nat} (h : n ≤ m) : Below (Expr.read n) (Expr.read m) := by
  induction n generalizing m with
  | zero => exact throw _ _
  | succ n ih =>
    obtain ⟨m, rfl⟩ := Nat.exists_eq_succ_of_ne_zero (Nat.ne_zero_of_lt h)
    exact orAbsent _ (Expr.readForm_below (ih (Nat.le_of_succ_le_succ h)))

theorem Arm.read_below {n m : Nat} (h : n ≤ m) {r r' : Unpack.Reader Block} (hblock : Below r r') :
    Below (Arm.read n r) (Arm.read m r') := by
  have hexpr := Expr.read_below h
  exact ofRecord (cons (fun _ => hexpr.map) (cons (fun _ => hblock.map) nil))

theorem Stmt.readForm_below {n m : Nat} (h : n ≤ m) {r r' : Unpack.Reader Block}
    (hblock : Below r r') :
    Below (Stmt.readForm n r) (Stmt.readForm m r') := by
  have hexpr := Expr.read_below h
  have harms := Listed.read_below (Arm.read_below h hblock)
  refine (refl _).bind fun head =>
    ite ?_ (ite ?_ (ite ?_ (ite ?_ (ite (refl _) (ite (refl _) (ite ?_ (ite ?_ (ite ?_
    (refl _)))))))))
  · exact ofRecord (same (cons (fun _ => hexpr.map) nil))
  · exact ofRecord (cons (fun _ => hexpr.map) (cons (fun _ => hexpr.map) (same (same nil))))
  · exact ofRecord (cons (fun _ => hexpr.map) nil)
  · exact ofRecord (cons (fun _ => hexpr.map) nil)
  · exact ofRecord (cons (fun _ => harms.map) (cons (fun _ => hblock.map) nil))
  · exact ofRecord (cons (fun _ => hexpr.map) (cons (fun _ => hblock.map) nil))
  · exact ofRecord (same
      (cons (fun _ => hexpr.map)
        (cons (fun _ => hexpr.map) (same (cons (fun _ => hblock.map) nil)))))

/-- A block that is read within some depth is read within a greater one. -/
theorem Block.read_below {n m : Nat} (h : n ≤ m) : Below (Block.read n) (Block.read m) := by
  induction n generalizing m with
  | zero => exact throw _ _
  | succ n ih =>
    obtain ⟨m, rfl⟩ := Nat.exists_eq_succ_of_ne_zero (Nat.ne_zero_of_lt h)
    have hle := Nat.le_of_succ_le_succ h
    have hlist := Listed.read_below (orAbsent (Stmt.blank {}) (Stmt.readForm_below hle (ih hle)))
    exact orAbsent _ (ofRecord (cons (fun _ => hlist.map) (same nil)))

namespace Program

theorem read_below {n m : Nat} (h : n ≤ m) : Below (Program.read n) (Program.read m) := by
  have hexpr := Expr.read_below h
  have hblock := Block.read_below h
  have hdeclaration : Below (Declaration.read n) (Declaration.read m) :=
    record (same (cons (fun _ => hexpr.map) (same nil))) _
  have hfunction : Below (Function.read n) (Function.read m) :=
    record (same (same (same (same (same (cons (fun _ => hblock.map) (same nil))))))) _
  have hglobals := Listed.read_below hdeclaration
  have hfunctions := Listed.read_below hfunction
  exact record (same
    (same (same (cons (fun _ => hglobals.map) (cons (fun _ => hfunctions.map) (same (same nil)))))))
      _

/-- A wrapped program that is read within some depth is read within a greater one. -/
theorem Envelope.read_below {n m : Nat} (h : n ≤ m) :
    Below (Envelope.read n) (Envelope.read m) := by
  have hprogram := (Program.read_below h).map (f := some)
  rw [bind_pure_comp, bind_pure_comp] at hprogram
  have hpresent := orAbsent none hprogram
  exact record (same (same (cons (fun _ => hpresent.map) nil))) _

/-- **Truncated programs are rejected.**  No part of a stored program that breaks off early is read:
it is no stored program, because a value in it cannot be read, and the failure says so. -/
theorem decode_truncated {p : Program} (h : p.Storable) {front back : Bytes}
    (happend : front ++ back = encode (some p)) (hback : back ≠ []) :
    ∃ cause, decode front = .error (.unreadable cause) ∧
      (DecodeError.unreadable cause).message = badFile ++ ": " ++ readErrorText cause := by
  have hlength := congrArg List.length happend
  rw [List.length_append] at hlength
  obtain ⟨e, he⟩ :=
    (reads_encode h.tagged h.canonical h.sized (Nat.le_refl _)).short front back happend hback
  unfold decode
  cases hread : (Envelope.read (front.length + 1)).run front with
  | error cause => exact ⟨cause, rfl, rfl⟩
  | ok found =>
    -- what is read within the length of the part is read within that of the whole
    have hpos := List.length_pos_iff.2 hback
    have hwhole := Envelope.read_below (by omega : front.length + 1 ≤ (encode (some p)).length)
      _ _ hread
    rw [he] at hwhole
    cases hwhole

theorem negation_truncated :
    ∃ cause, decode ((encode (some negation)).take 200) = .error (.unreadable cause) ∧
    (DecodeError.unreadable cause).message = badFile ++ ": " ++ readErrorText cause :=
  decode_truncated negation_storable (List.take_append_drop 200 _) (by decide +kernel)

end Program

end Breadbin
