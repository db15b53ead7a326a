import Breadbin.Program.Basic
import Breadbin.Program.Decoding
import Breadbin.Proofs.Pack.Reading
import Mathlib.Data.List.Forall2

/-!
# Stored programs are read back

A property holds everywhere in a program if it holds of each of its expressions, statements and
blocks, however deeply they nest.  A program whose nodes are tagged with the forms they have is read
back from its stored form as it was, whatever its names, texts, numbers and places are.
-/

namespace Breadbin

/-- A property of expressions, statements and blocks. -/
structure NodeProperty where
  expr : Expr → Prop := fun _ => True
  stmt : Stmt → Prop := fun _ => True
  block : Block → Prop := fun _ => True

/-- Both properties. -/
def NodeProperty.and (P Q : NodeProperty) : NodeProperty where
  expr e := P.expr e ∧ Q.expr e
  stmt s := P.stmt s ∧ Q.stmt s
  block b := P.block b ∧ Q.block b

section

variable (P : NodeProperty)

mutual

/-- The property holds of an expression and of all its parts. -/
def Expr.Everywhere : Expr → Prop
  | .absent => P.expr .absent
  | .blank h => P.expr (.blank h)
  | .literal h v => P.expr (.literal h v)
  | .var h s => P.expr (.var h s)
  | .unary h op x => P.expr (.unary h op x) ∧ x.Everywhere
  | .binary h op l r => P.expr (.binary h op l r) ∧ l.Everywhere ∧ r.Everywhere
  | .call h f as w => P.expr (.call h f as w) ∧ Expr.AllEverywhere as
  | .index h a i => P.expr (.index h a i) ∧ i.Everywhere
  | .cast h x => P.expr (.cast h x) ∧ x.Everywhere
  | .builtin h b as w => P.expr (.builtin h b as w) ∧ Expr.AllEverywhere as
  | .dataAddress h d => P.expr (.dataAddress h d)

/-- The property holds of all of some expressions and their parts. -/
def Expr.AllEverywhere : List Expr → Prop
  | [] => True
  | e :: es => e.Everywhere ∧ Expr.AllEverywhere es

end

mutual

/-- The property holds of a statement and of all that is within it. -/
def Stmt.Everywhere : Stmt → Prop
  | .blank h => P.stmt (.blank h)
  | .define h s v => P.stmt (.define h s v) ∧ v.Everywhere P
  | .assign h t v op c => P.stmt (.assign h t v op c) ∧ t.Everywhere P ∧ v.Everywhere P
  | .evaluate h v => P.stmt (.evaluate h v) ∧ v.Everywhere P
  | .giveBack h v => P.stmt (.giveBack h v) ∧ v.Everywhere P
  | .leave h => P.stmt (.leave h)
  | .next h => P.stmt (.next h)
  | .choose h arms w otherwise =>
    P.stmt (.choose h arms w otherwise) ∧ Arm.AllEverywhere arms ∧ otherwise.Everywhere
  | .loop h c body => P.stmt (.loop h c body) ∧ c.Everywhere P ∧ body.Everywhere
  | .count h s first last down body =>
    P.stmt (.count h s first last down body) ∧ first.Everywhere P ∧
      last.Everywhere P ∧ body.Everywhere

/-- The property holds of a block and of all that is within it. -/
def Block.Everywhere : Block → Prop
  | .absent => P.block .absent
  | .of ss w span => P.block (.of ss w span) ∧ Stmt.AllEverywhere ss

/-- The property holds of all of some statements and what is within them. -/
def Stmt.AllEverywhere : List Stmt → Prop
  | [] => True
  | s :: ss => s.Everywhere ∧ Stmt.AllEverywhere ss

/-- The property holds of all that is within some arms. -/
def Arm.AllEverywhere : List Arm → Prop
  | [] => True
  | .mk c body :: arms => c.Everywhere P ∧ body.Everywhere ∧ Arm.AllEverywhere arms

end

/-- The property holds of all nodes of a program. -/
structure Program.Everywhere (p : Program) : Prop where
  values : ∀ g ∈ p.globals.items, g.value.Everywhere P
  bodies : ∀ f ∈ p.functions.items, f.body.Everywhere P

end

variable {P Q : NodeProperty}

mutual

theorem Expr.Everywhere.and : ∀ {e : Expr}, e.Everywhere P → e.Everywhere Q → e.Everywhere (P.and Q)
  | .absent, h, h' => ⟨h, h'⟩
  | .blank _, h, h' => ⟨h, h'⟩
  | .literal _ _, h, h' => ⟨h, h'⟩
  | .var _ _, h, h' => ⟨h, h'⟩
  | .unary _ _ _, h, h' => ⟨⟨h.1, h'.1⟩, h.2.and h'.2⟩
  | .binary _ _ _ _, h, h' => ⟨⟨h.1, h'.1⟩, h.2.1.and h'.2.1, h.2.2.and h'.2.2⟩
  | .call _ _ _ _, h, h' => ⟨⟨h.1, h'.1⟩, Expr.AllEverywhere.and h.2 h'.2⟩
  | .index _ _ _, h, h' => ⟨⟨h.1, h'.1⟩, h.2.and h'.2⟩
  | .cast _ _, h, h' => ⟨⟨h.1, h'.1⟩, h.2.and h'.2⟩
  | .builtin _ _ _ _, h, h' => ⟨⟨h.1, h'.1⟩, Expr.AllEverywhere.and h.2 h'.2⟩
  | .dataAddress _ _, h, h' => ⟨h, h'⟩

theorem Expr.AllEverywhere.and :
    ∀ {es : List Expr}, Expr.AllEverywhere P es → Expr.AllEverywhere Q es →
    Expr.AllEverywhere (P.and Q) es
  | [], _, _ => trivial
  | _ :: _, h, h' => ⟨h.1.and h'.1, Expr.AllEverywhere.and h.2 h'.2⟩

end

mutual

theorem Stmt.Everywhere.and : ∀ {s : Stmt}, s.Everywhere P → s.Everywhere Q → s.Everywhere (P.and Q)
  | .blank _, h, h' => ⟨h, h'⟩
  | .define _ _ _, h, h' => ⟨⟨h.1, h'.1⟩, h.2.and h'.2⟩
  | .assign _ _ _ _ _, h, h' => ⟨⟨h.1, h'.1⟩, h.2.1.and h'.2.1, h.2.2.and h'.2.2⟩
  | .evaluate _ _, h, h' => ⟨⟨h.1, h'.1⟩, h.2.and h'.2⟩
  | .giveBack _ _, h, h' => ⟨⟨h.1, h'.1⟩, h.2.and h'.2⟩
  | .leave _, h, h' => ⟨h, h'⟩
  | .next _, h, h' => ⟨h, h'⟩
  | .choose _ _ _ _, h, h' =>
    ⟨⟨h.1, h'.1⟩, Arm.AllEverywhere.and h.2.1 h'.2.1, h.2.2.and h'.2.2⟩
  | .loop _ _ _, h, h' => ⟨⟨h.1, h'.1⟩, h.2.1.and h'.2.1, h.2.2.and h'.2.2⟩
  | .count _ _ _ _ _ _, h, h' =>
    ⟨⟨h.1, h'.1⟩, h.2.1.and h'.2.1, h.2.2.1.and h'.2.2.1, h.2.2.2.and h'.2.2.2⟩

theorem Block.Everywhere.and :
    ∀ {b : Block}, b.Everywhere P → b.Everywhere Q → b.Everywhere (P.and Q)
  | .absent, h, h' => ⟨h, h'⟩
  | .of _ _ _, h, h' => ⟨⟨h.1, h'.1⟩, Stmt.AllEverywhere.and h.2 h'.2⟩

theorem Stmt.AllEverywhere.and :
    ∀ {ss : List Stmt}, Stmt.AllEverywhere P ss → Stmt.AllEverywhere Q ss →
    Stmt.AllEverywhere (P.and Q) ss
  | [], _, _ => trivial
  | _ :: _, h, h' => ⟨h.1.and h'.1, Stmt.AllEverywhere.and h.2 h'.2⟩

theorem Arm.AllEverywhere.and :
    ∀ {arms : List Arm}, Arm.AllEverywhere P arms → Arm.AllEverywhere Q arms →
    Arm.AllEverywhere (P.and Q) arms
  | [], _, _ => trivial
  | .mk _ _ :: _, h, h' => ⟨h.1.and h'.1, h.2.1.and h'.2.1, Arm.AllEverywhere.and h.2.2 h'.2.2⟩

end

theorem Program.Everywhere.and {p : Program} (h : p.Everywhere P) (h' : p.Everywhere Q) :
    p.Everywhere (P.and Q) :=
  ⟨fun g hg => (h.values g hg).and (h'.values g hg), fun f hf =>
    (h.bodies f hf).and (h'.bodies f hf)⟩

end Breadbin

/-! ## Stored programs are read back -/

namespace Breadbin

open Unpack (Reads)

/-! ## What can be stored -/

/-- The code of the kind names no other kind. -/
def Ty.Canonical (t : Ty) : Prop := Kind.ofCode t.kind.code = t.kind

instance (t : Ty) : Decidable t.Canonical := inferInstanceAs (Decidable (_ = _))

/-- A list with items is written out. -/
def Listed.Canonical {α : Type} (l : Listed α) : Prop := l.written = false → l.items = []

/-- A count that the head of a packed text or list can tell. -/
def Countable (n : Nat) : Prop := n < 256 ^ 4

/-- The tag names the form. -/
def Expr.Tagged : Expr → Prop
  | .absent => True
  | .blank _ => False
  | .literal h _ => h.tag = 0
  | .var h _ => h.tag = 1
  | .unary h _ _ => h.tag = 2
  | .binary h _ _ _ => h.tag = 3
  | .call h _ _ _ => h.tag = 4
  | .index h _ _ => h.tag = 5
  | .cast h _ => h.tag = 6
  | .builtin h _ _ _ => h.tag = 7
  | .dataAddress h _ => h.tag = 8

/-- The tag names the form. -/
def Stmt.Tagged : Stmt → Prop
  | .blank _ => False
  | .define h _ _ => h.tag = 0
  | .assign h _ _ _ _ => h.tag = 1
  | .evaluate h _ => h.tag = 2
  | .giveBack h _ => h.tag = 3
  | .leave h => h.tag = 4
  | .next h => h.tag = 5
  | .choose h _ _ _ => h.tag = 6
  | .loop h _ _ => h.tag = 7
  | .count h _ _ _ _ _ => h.tag = 8

/-- The codes of an expression name what it has, and its list of arguments is written out unless it
is empty. -/
def Expr.Canonical (e : Expr) : Prop :=
  e.type.Canonical ∧ match e with
    | .literal _ v => LiteralKind.ofCode v.kind.code = v.kind
    | .unary _ op _ => UnaryOp.ofCode op.code = op
    | .binary _ op _ _ => BinaryOp.ofCode op.code = op
    | .call _ _ as w => (⟨as, w⟩ : Listed Expr).Canonical
    | .builtin _ b as w => Builtin.ofCode b.code = b ∧ (⟨as, w⟩ : Listed Expr).Canonical
    | _ => True

/-- The code of an operator names it, and a list of arms is written out unless it is empty. -/
def Stmt.Canonical : Stmt → Prop
  | .assign _ _ _ op _ => BinaryOp.ofCode op.code = op
  | .choose _ arms w _ => (⟨arms, w⟩ : Listed Arm).Canonical
  | _ => True

/-- The list of statements is written out unless it is empty. -/
def Block.Canonical : Block → Prop
  | .absent => True
  | .of ss w _ => (⟨ss, w⟩ : Listed Stmt).Canonical

/-- The text and the arguments can be counted. -/
def Expr.Sized : Expr → Prop
  | .literal _ v => Countable v.text.length
  | .call _ _ as _ | .builtin _ _ as _ => Countable as.length
  | _ => True

/-- The arms can be counted. -/
def Stmt.Sized : Stmt → Prop
  | .choose _ arms _ _ => Countable arms.length
  | _ => True

/-- The statements can be counted. -/
def Block.Sized (b : Block) : Prop := Countable b.statements.length

namespace NodeProperty

/-- Every tag names the form of its node. -/
def tagged : NodeProperty where
  expr := Expr.Tagged
  stmt := Stmt.Tagged

/-- Every code names what its node has, and every list with items is written out. -/
def canonical : NodeProperty where
  expr := Expr.Canonical
  stmt := Stmt.Canonical
  block := Block.Canonical

/-- Every text and list of a node can be counted. -/
def sized : NodeProperty where
  expr := Expr.Sized
  stmt := Stmt.Sized
  block := Block.Sized

/-- What reading a node back relies on. -/
abbrev storable : NodeProperty := tagged.and (canonical.and sized)

end NodeProperty

namespace Program

/-- Every expression and statement carries the form that its tag names. -/
def Tagged (p : Program) : Prop := p.Everywhere .tagged

/-- A program that says everything in one way: an unknown code is one that has no name, and a list
with items is written out. -/
structure Canonical (p : Program) : Prop where
  nodes : p.Everywhere .canonical
  files : p.files.Canonical ∧ ∀ f ∈ p.files.items, f.content.Canonical
  symbols : p.symbols.Canonical ∧ ∀ s ∈ p.symbols.items,
    s.type.Canonical ∧ SymbolClass.ofCode s.symbolClass.code = s.symbolClass
  globals : p.globals.Canonical
  functions : p.functions.Canonical ∧ ∀ f ∈ p.functions.items,
    f.parameters.Canonical ∧ f.locals.Canonical ∧ f.result.Canonical
  data : p.data.Canonical ∧ ∀ d ∈ p.data.items, d.bytes.Canonical

/-- Every text and list can be counted in the four bytes that a packed value has for it. -/
structure Sized (p : Program) : Prop where
  nodes : p.Everywhere .sized
  name : Countable p.name.length
  files : Countable p.files.items.length ∧ ∀ f ∈ p.files.items,
    Countable f.path.length ∧ Countable f.content.items.length
  symbols : Countable p.symbols.items.length ∧ ∀ s ∈ p.symbols.items, Countable s.name.length
  globals : Countable p.globals.items.length
  functions : Countable p.functions.items.length ∧ ∀ f ∈ p.functions.items,
    Countable f.name.length ∧ Countable f.parameters.items.length ∧ Countable f.locals.items.length
  data : Countable p.data.items.length ∧ ∀ d ∈ p.data.items,
    Countable d.name.length ∧ Countable d.bytes.items.length

/-- All that reading a program back relies on. -/
structure Storable (p : Program) : Prop where
  tagged : p.Tagged
  canonical : p.Canonical
  sized : p.Sized

end Program

/-! ## Types, places, lists and literals -/

open Unpack.Reads (Steps Distinct)

theorem Ty.reads {t : Ty} (ht : t.Canonical) : Reads Ty.read t.packed t := by
  have hread : Reads Ty.read t.packed { t with kind := .ofCode t.kind.code } :=
    Reads.record
      (.cons (Reads.byte _).map (.cons (Reads.bool _).map (.cons (Reads.word _).map .nil)))
        (by decide)
  rwa [ht] at hread

theorem Span.reads (s : Span) : Reads Span.read s.packed s :=
  Reads.record
    (.cons (Reads.long _).map (.cons (Reads.long _).map (.cons (Reads.long _).map .nil)))
      (by decide)

namespace Listed

variable {α : Type} {l : Listed α}

/-- A list is read back when its items are. -/
theorem reads {item : Unpack.Reader α} {packed : List Bytes}
    (h : List.Forall₂ (Reads item) packed l.items) (hcanonical : l.Canonical)
    (hlength : Countable l.items.length) :
    Reads (Listed.read item) (packedList packed l.written) l := by
  obtain ⟨items, written⟩ := l
  unfold packedList
  by_cases hwritten : packed.isEmpty = true ∧ written = false
  · obtain ⟨hempty, rfl⟩ := hwritten
    obtain rfl : items = [] := hcanonical rfl
    rw [hempty]
    exact (Reads.noList item).map (g := Listed.ofRead)
  · have hpacked : (packed.isEmpty && !written) = false := by
      cases written <;> simp_all
    have htrue : written = true := by
      cases written with
      | true => rfl
      | false =>
        obtain rfl : items = [] := hcanonical rfl
        cases h
        exact absurd ⟨rfl, rfl⟩ hwritten
    rw [hpacked, if_neg (by decide), h.length_eq, htrue]
    exact (Reads.list? h hlength).map (g := Listed.ofRead)

theorem readsItems {item : Unpack.Reader α} {f : α → Bytes} (h : ∀ x ∈ l.items, Reads item (f x) x)
    (hcanonical : l.Canonical) (hlength : Countable l.items.length) :
    Reads (Listed.read item) (l.packed f) l := by
  refine reads ?_ hcanonical hlength
  exact List.forall₂_map_left_iff.2 (List.forall₂_same.2 h)

theorem readsBytes {l : Listed UInt8} (hcanonical : l.Canonical)
    (hlength : Countable l.items.length) :
    Reads Listed.readBytes l.packedBytes l := by
  obtain ⟨items, written⟩ := l
  unfold packedBytes
  cases written with
  | false =>
    obtain rfl : items = [] := hcanonical rfl
    exact Reads.noBytes.map (g := Listed.ofRead)
  | true =>
    rw [Bool.not_true, Bool.and_false, if_neg (by decide)]
    exact (Reads.run hlength).map (g := Listed.ofRead)

end Listed

theorem Literal.reads {v : Literal} (hkind : LiteralKind.ofCode v.kind.code = v.kind)
    (htext : Countable v.text.length) : Reads Literal.read v.packed v := by
  have hread : Reads Literal.read v.packed { v with kind := .ofCode v.kind.code } :=
    Reads.record
      (.cons (Reads.byte _).map (.cons (Reads.signed _).map (.cons (Reads.double _).map
        (.cons (Reads.bool _).map (.cons (Reads.text htext).map .nil))))) (by decide)
  rwa [hkind] at hread

theorem ExprHead.reads {h : ExprHead} (htype : h.type.Canonical) :
    Reads ExprHead.read h.packed h := by
  unfold ExprHead.packed
  rw [List.append_assoc]
  exact (Reads.byte _).bind ((Ty.reads htype).bind (Span.reads _).map)

theorem StmtHead.reads (h : StmtHead) : Reads StmtHead.read h.packed h := by
  unfold StmtHead.packed
  rw [List.append_assoc]
  exact (Reads.byte _).bind ((Ty.reads (t := Ty.invalid) rfl).bind (Span.reads _).map)

/-! ## Sizes -/

/-- A field is shorter than its record. -/
theorem Pack.length_field_lt {fields : List (String × Bytes)} {value : Bytes}
    (h : value ∈ fields.map (·.2)) : value.length < (Pack.record fields).length := by
  obtain ⟨field, hfield, rfl⟩ := List.mem_map.1 h
  have hpart : field.2.length ≤
      (fields.flatMap fun f => Pack.text (Text.bytesOf f.1) ++ f.2).length := by
    have hin := (List.sublist_flatten_of_mem (List.mem_map_of_mem (f := fun f : String × Bytes =>
      Pack.text (Text.bytesOf f.1) ++ f.2) hfield)).length_le
    rw [List.length_append] at hin
    exact Nat.le_trans (Nat.le_add_left _ _) hin
  have hhead : 0 < (Pack.recordHead fields.length).length := by
    unfold Pack.recordHead
    split_ifs <;> exact Nat.succ_pos _
  rw [Pack.record, List.length_append]
  exact Nat.lt_of_le_of_lt hpart (Nat.lt_add_of_pos_left hhead)

/-- Where the size of a node bounds the depth, a field of its record leaves one step of it. -/
theorem Pack.length_field_le {head : Bytes} {fields : List (String × Bytes)}
    {value : Bytes} {depth : Nat}
    (h : value ∈ fields.map (·.2)) (hdepth : (head ++ Pack.record fields).length ≤ depth + 1) :
    value.length ≤ depth := by
  have hlt := Pack.length_field_lt h
  rw [List.length_append] at hdepth
  omega

theorem length_le_packedList {packed : List Bytes} {bs : Bytes} {written : Bool} (h : bs ∈ packed) :
    bs.length ≤ (packedList packed written).length := by
  unfold packedList
  have hne : packed.isEmpty = false := by
    cases packed with
    | nil => exact absurd h List.not_mem_nil
    | cons => rfl
  rw [hne, Bool.false_and, if_neg (by decide), List.length_append]
  exact Nat.le_trans (List.sublist_flatten_of_mem h).length_le (Nat.le_add_left _ _)

/-! ## Expressions -/

/-- The first byte of an expression or a statement is no `nil`. -/
theorem ExprHead.packed_eq (h : ExprHead) : ∃ rest, h.packed = 0xCC :: rest := ⟨_, rfl⟩

section

variable {expr : Unpack.Reader Expr} {h : ExprHead} {form : Bytes} {e : Expr}

/-- An expression is read back when its form is read behind its head. -/
theorem Expr.reads_behind {behind : ExprHead → Unpack.Reader Expr}
    (hbehind : Expr.readForm expr = ExprHead.read >>= behind) (htype : h.type.Canonical)
    (hform : Reads (behind h) form e) :
    Reads (Unpack.orAbsent .absent (Expr.readForm expr)) (h.packed ++ form) e := by
  have hread := (ExprHead.reads htype).bind hform
  rw [← hbehind] at hread
  obtain ⟨rest, hrest⟩ := h.packed_eq
  rw [hrest] at hread ⊢
  exact Reads.orAbsent .absent (by decide) hread

end

theorem Expr.packed_length_pos : ∀ e : Expr, 0 < e.packed.length := by
  intro e
  cases e <;> simp [Expr.packed, ExprHead.packed, Pack.byte, Pack.nil]

mutual

/-- An expression is read back at any depth that its size bounds. -/
theorem Expr.reads :
    ∀ {e : Expr}, e.Everywhere .storable → ∀ {depth : Nat}, e.packed.length ≤ depth →
    Reads (Expr.read depth) e.packed e
  | e, _, 0, hdepth => absurd e.packed_length_pos (Nat.not_lt.2 hdepth)
  | .absent, _, depth + 1, _ => Reads.orAbsent_nil _ ⟨_, rfl⟩
  | .blank _, hstorable, _, _ => hstorable.1.elim
  | .literal h v, hstorable, depth + 1, hdepth => by
    obtain ⟨htag, ⟨htype, hkind⟩, hsized⟩ := hstorable
    have htag : h.tag = 0 := htag
    refine Expr.reads_behind rfl htype ?_
    rw [htag]
    exact (Literal.reads hkind hsized).map
  | .var h s, hstorable, depth + 1, hdepth => by
    obtain ⟨htag, ⟨htype, -⟩, -⟩ := hstorable
    have htag : h.tag = 1 := htag
    refine Expr.reads_behind rfl htype ?_
    rw [htag]
    exact Reads.recordMap (.cons (Reads.long _).map .nil) (by decide) rfl
  | .unary h op x, hstorable, depth + 1, hdepth => by
    obtain ⟨⟨htag, ⟨htype, hop⟩, -⟩, hx⟩ := hstorable
    have htag : h.tag = 2 := htag
    have hoperand := Expr.reads hx (Pack.length_field_le (by simp) hdepth)
    refine Expr.reads_behind rfl htype ?_
    rw [htag]
    exact Reads.recordMap (.cons (Reads.byte _).map (.cons hoperand.map .nil)) (by decide)
      (congrArg (Expr.unary h · x) hop)
  | .binary h op l r, hstorable, depth + 1, hdepth => by
    obtain ⟨⟨htag, ⟨htype, hop⟩, -⟩, hl, hr⟩ := hstorable
    have htag : h.tag = 3 := htag
    have hleft := Expr.reads hl (Pack.length_field_le (by simp) hdepth)
    have hright := Expr.reads hr (Pack.length_field_le (by simp) hdepth)
    refine Expr.reads_behind rfl htype ?_
    rw [htag]
    exact Reads.recordMap (.cons (Reads.byte _).map (.cons hleft.map (.cons hright.map .nil)))
      (by decide)
      (congrArg (Expr.binary h · l r) hop)
  | .call h f as w, hstorable, depth + 1, hdepth => by
    obtain ⟨⟨htag, ⟨htype, hlist⟩, hsized⟩, has⟩ := hstorable
    have htag : h.tag = 4 := htag
    have hlength : (packedList (Expr.packedAll as) w).length ≤ depth :=
      Pack.length_field_le (by simp) hdepth
    have hitems := Expr.readsAll has fun bs hbs => Nat.le_trans (length_le_packedList hbs) hlength
    have harguments := Listed.reads (l := ⟨as, w⟩) hitems hlist hsized
    refine Expr.reads_behind rfl htype ?_
    rw [htag]
    exact Reads.recordMap (.cons (Reads.long _).map (.cons harguments.map .nil)) (by decide) rfl
  | .index h a i, hstorable, depth + 1, hdepth => by
    obtain ⟨⟨htag, ⟨htype, -⟩, -⟩, hi⟩ := hstorable
    have htag : h.tag = 5 := htag
    have hposition := Expr.reads hi (Pack.length_field_le (by simp) hdepth)
    refine Expr.reads_behind rfl htype ?_
    rw [htag]
    exact Reads.recordMap (.cons (Reads.long _).map (.cons hposition.map .nil)) (by decide) rfl
  | .cast h x, hstorable, depth + 1, hdepth => by
    obtain ⟨⟨htag, ⟨htype, -⟩, -⟩, hx⟩ := hstorable
    have htag : h.tag = 6 := htag
    have hoperand := Expr.reads hx (Pack.length_field_le (by simp) hdepth)
    refine Expr.reads_behind rfl htype ?_
    rw [htag]
    exact Reads.recordMap (.cons hoperand.map .nil) (by decide) rfl
  | .builtin h b as w, hstorable, depth + 1, hdepth => by
    obtain ⟨⟨htag, ⟨htype, hb, hlist⟩, hsized⟩, has⟩ := hstorable
    have htag : h.tag = 7 := htag
    have hlength : (packedList (Expr.packedAll as) w).length ≤ depth :=
      Pack.length_field_le (by simp) hdepth
    have hitems := Expr.readsAll has fun bs hbs => Nat.le_trans (length_le_packedList hbs) hlength
    have harguments := Listed.reads (l := ⟨as, w⟩) hitems hlist hsized
    refine Expr.reads_behind rfl htype ?_
    rw [htag]
    exact Reads.recordMap (.cons (Reads.byte _).map (.cons harguments.map .nil)) (by decide)
      (congrArg (Expr.builtin h · as w) hb)
  | .dataAddress h d, hstorable, depth + 1, hdepth => by
    obtain ⟨htag, ⟨htype, -⟩, -⟩ := hstorable
    have htag : h.tag = 8 := htag
    refine Expr.reads_behind rfl htype ?_
    rw [htag]
    exact Reads.recordMap (.cons (Reads.long _).map .nil) (by decide) rfl

theorem Expr.readsAll : ∀ {es : List Expr}, Expr.AllEverywhere .storable es → ∀ {depth : Nat},
    (∀ bs ∈ Expr.packedAll es, bs.length ≤ depth) →
    List.Forall₂ (Reads (Expr.read depth)) (Expr.packedAll es) es
  | [], _, _, _ => .nil
  | _ :: _, hstorable, _, hdepth =>
    .cons (Expr.reads hstorable.1 (hdepth _ List.mem_cons_self))
      (Expr.readsAll hstorable.2 fun bs hbs => hdepth bs (List.mem_cons_of_mem _ hbs))

end

/-! ## Statements -/

theorem Block.packed_length_pos (b : Block) : 0 < b.packed.length := by
  cases b <;> simp [Block.packed, Pack.record, Pack.recordHead, Pack.nil]

theorem StmtHead.packed_eq (h : StmtHead) : ∃ rest, h.packed = 0xCC :: rest := ⟨_, rfl⟩

/-- A statement is read back when its form is read behind its head. -/
theorem Stmt.reads_behind {depth : Nat} {block : Unpack.Reader Block} {h : StmtHead} {form : Bytes}
    {s : Stmt} {behind : StmtHead → Unpack.Reader Stmt}
    (hbehind : Stmt.readForm depth block = StmtHead.read >>= behind)
    (hform : Reads (behind h) form s) :
    Reads (Unpack.orAbsent (.blank {}) (Stmt.readForm depth block)) (h.packed ++ form) s := by
  have hread := (StmtHead.reads h).bind hform
  rw [← hbehind] at hread
  obtain ⟨rest, hrest⟩ := h.packed_eq
  rw [hrest] at hread ⊢
  exact Reads.orAbsent _ (by decide) hread

mutual

/-- A statement is read back at any depth that its size bounds. -/
theorem Stmt.reads :
    ∀ {s : Stmt}, s.Everywhere .storable → ∀ {depth : Nat}, s.packed.length ≤ depth →
    Reads (Unpack.orAbsent (.blank {}) (Stmt.readForm depth (Block.read depth))) s.packed s
  | .blank _, hstorable, _, _ => hstorable.1.elim
  | .define h s v, hstorable, depth, hdepth => by
    obtain ⟨⟨htag, -⟩, hv⟩ := hstorable
    have htag : h.tag = 0 := htag
    have hvalue := Expr.reads hv (Pack.length_field_le (by simp) (Nat.le_succ_of_le hdepth))
    refine Stmt.reads_behind rfl ?_
    rw [htag]
    exact Reads.recordMap (.cons (Reads.long _).map (.cons hvalue.map .nil)) (by decide) rfl
  | .assign h t v op compound, hstorable, depth, hdepth => by
    obtain ⟨⟨htag, hop, -⟩, ht, hv⟩ := hstorable
    have htag : h.tag = 1 := htag
    have htarget := Expr.reads ht (Pack.length_field_le (by simp) (Nat.le_succ_of_le hdepth))
    have hvalue := Expr.reads hv (Pack.length_field_le (by simp) (Nat.le_succ_of_le hdepth))
    refine Stmt.reads_behind rfl ?_
    rw [htag]
    exact Reads.recordMap (.cons htarget.map (.cons hvalue.map (.cons (Reads.byte _).map
      (.cons (Reads.bool _).map .nil)))) (by decide) (congrArg (Stmt.assign h t v · compound) hop)
  | .evaluate h v, hstorable, depth, hdepth => by
    obtain ⟨⟨htag, -⟩, hv⟩ := hstorable
    have htag : h.tag = 2 := htag
    have hvalue := Expr.reads hv (Pack.length_field_le (by simp) (Nat.le_succ_of_le hdepth))
    refine Stmt.reads_behind rfl ?_
    rw [htag]
    exact Reads.recordMap (.cons hvalue.map .nil) (by decide) rfl
  | .giveBack h v, hstorable, depth, hdepth => by
    obtain ⟨⟨htag, -⟩, hv⟩ := hstorable
    have htag : h.tag = 3 := htag
    have hvalue := Expr.reads hv (Pack.length_field_le (by simp) (Nat.le_succ_of_le hdepth))
    refine Stmt.reads_behind rfl ?_
    rw [htag]
    exact Reads.recordMap (.cons hvalue.map .nil) (by decide) rfl
  | .leave h, hstorable, _, _ => by
    have htag : h.tag = 4 := hstorable.1
    refine Stmt.reads_behind rfl ?_
    rw [htag]
    exact Reads.recordMap .nil (by decide) rfl
  | .next h, hstorable, _, _ => by
    have htag : h.tag = 5 := hstorable.1
    refine Stmt.reads_behind rfl ?_
    rw [htag]
    exact Reads.recordMap .nil (by decide) rfl
  | .choose h arms w otherwise, hstorable, depth, hdepth => by
    obtain ⟨⟨htag, hlist, hsized⟩, harms, hotherwise⟩ := hstorable
    have htag : h.tag = 6 := htag
    have hlength : (packedList (Arm.packedAll arms) w).length ≤ depth :=
      Pack.length_field_le (by simp) (Nat.le_succ_of_le hdepth)
    have hitems := Arm.readsAll harms fun bs hbs => Nat.le_trans (length_le_packedList hbs) hlength
    have hbranches := Listed.reads (l := ⟨arms, w⟩) hitems hlist hsized
    have helse := Block.reads hotherwise (Pack.length_field_le (by simp) (Nat.le_succ_of_le hdepth))
    refine Stmt.reads_behind rfl ?_
    rw [htag]
    exact Reads.recordMap (.cons hbranches.map (.cons helse.map .nil)) (by decide) rfl
  | .loop h c b, hstorable, depth, hdepth => by
    obtain ⟨⟨htag, -⟩, hc, hb⟩ := hstorable
    have htag : h.tag = 7 := htag
    have hcond := Expr.reads hc (Pack.length_field_le (by simp) (Nat.le_succ_of_le hdepth))
    have hbody := Block.reads hb (Pack.length_field_le (by simp) (Nat.le_succ_of_le hdepth))
    refine Stmt.reads_behind rfl ?_
    rw [htag]
    exact Reads.recordMap (.cons hcond.map (.cons hbody.map .nil)) (by decide) rfl
  | .count h s first last down b, hstorable, depth, hdepth => by
    obtain ⟨⟨htag, -⟩, hfirst, hlast, hb⟩ := hstorable
    have htag : h.tag = 8 := htag
    have hfrom := Expr.reads hfirst (Pack.length_field_le (by simp) (Nat.le_succ_of_le hdepth))
    have hto := Expr.reads hlast (Pack.length_field_le (by simp) (Nat.le_succ_of_le hdepth))
    have hbody := Block.reads hb (Pack.length_field_le (by simp) (Nat.le_succ_of_le hdepth))
    refine Stmt.reads_behind rfl ?_
    rw [htag]
    exact Reads.recordMap (.cons (Reads.long _).map (.cons hfrom.map (.cons hto.map
      (.cons (Reads.bool _).map (.cons hbody.map .nil))))) (by decide) rfl

/-- A block is read back at any depth that its size bounds. -/
theorem Block.reads :
    ∀ {b : Block}, b.Everywhere .storable → ∀ {depth : Nat}, b.packed.length ≤ depth →
    Reads (Block.read depth) b.packed b
  | b, _, 0, hdepth => absurd b.packed_length_pos (Nat.not_lt.2 hdepth)
  | .absent, _, depth + 1, _ => Reads.orAbsent_nil _ ⟨_, rfl⟩
  | .of ss w span, hstorable, depth + 1, hdepth => by
    obtain ⟨⟨-, hlist, hsized⟩, hss⟩ := hstorable
    have hlength : (packedList (Stmt.packedAll ss) w).length ≤ depth :=
      Nat.le_of_lt_succ (Nat.lt_of_lt_of_le (Pack.length_field_lt (by simp)) hdepth)
    have hitems := Stmt.readsAll hss fun bs hbs => Nat.le_trans (length_le_packedList hbs) hlength
    have hstatements := Listed.reads (l := ⟨ss, w⟩) hitems hlist hsized
    exact Reads.orAbsent (c := 0x82) _ (by decide)
      (Reads.recordMap (.cons hstatements.map (.cons (Span.reads span).map .nil)) (by decide) rfl)

theorem Stmt.readsAll : ∀ {ss : List Stmt}, Stmt.AllEverywhere .storable ss → ∀ {depth : Nat},
    (∀ bs ∈ Stmt.packedAll ss, bs.length ≤ depth) →
    List.Forall₂ (Reads (Unpack.orAbsent (.blank {}) (Stmt.readForm depth (Block.read depth))))
      (Stmt.packedAll ss) ss
  | [], _, _, _ => .nil
  | _ :: _, hstorable, _, hdepth =>
    .cons (Stmt.reads hstorable.1 (hdepth _ List.mem_cons_self))
      (Stmt.readsAll hstorable.2 fun bs hbs => hdepth bs (List.mem_cons_of_mem _ hbs))

theorem Arm.readsAll : ∀ {arms : List Arm}, Arm.AllEverywhere .storable arms → ∀ {depth : Nat},
    (∀ bs ∈ Arm.packedAll arms, bs.length ≤ depth) →
    List.Forall₂ (Reads (Arm.read depth (Block.read depth))) (Arm.packedAll arms) arms
  | [], _, _, _ => .nil
  | .mk c b :: arms, hstorable, depth, hdepth => by
    obtain ⟨hc, hb, hrest⟩ := hstorable
    have hlength := hdepth _ List.mem_cons_self
    have hcond := Expr.reads hc (Nat.le_trans (Pack.length_field_lt (by simp)).le hlength)
    have hbody := Block.reads hb (Nat.le_trans (Pack.length_field_lt (by simp)).le hlength)
    exact .cons (Reads.recordMap (.cons hcond.map (.cons hbody.map .nil)) (by decide) rfl)
      (Arm.readsAll hrest fun bs hbs => hdepth bs (List.mem_cons_of_mem _ hbs))

end

/-! ## Programs -/

theorem CarriedFile.reads {f : CarriedFile} (hcontent : f.content.Canonical)
    (hpath : Countable f.path.length) (hlength : Countable f.content.items.length) :
    Reads CarriedFile.read f.packed f :=
  Reads.record
    (.cons (Reads.text hpath).map (.cons (Listed.readsBytes hcontent hlength).map .nil)) (by decide)

theorem Symbol.reads {s : Symbol} (htype : s.type.Canonical)
    (hclass : SymbolClass.ofCode s.symbolClass.code = s.symbolClass)
    (hname : Countable s.name.length) :
    Reads Symbol.read s.packed s := by
  have hread : Reads Symbol.read s.packed { s with symbolClass := .ofCode s.symbolClass.code } :=
    Reads.record
      (.cons (Reads.text hname).map (.cons (Ty.reads htype).map (.cons (Reads.byte _).map
        (.cons (Reads.long _).map (.cons (Span.reads _).map .nil))))) (by decide)
  rwa [hclass] at hread

theorem Declaration.reads {d : Declaration} {depth : Nat} (hvalue : d.value.Everywhere .storable)
    (hdepth : d.packed.length ≤ depth) : Reads (Declaration.read depth) d.packed d := by
  have hexpr := Expr.reads hvalue (Nat.le_trans (Pack.length_field_lt (by simp)).le hdepth)
  exact Reads.record
    (.cons (Reads.long _).map (.cons hexpr.map (.cons (Span.reads _).map .nil))) (by decide)

theorem Function.reads {f : Function} {depth : Nat} (hbody : f.body.Everywhere .storable)
    (hcanonical : f.parameters.Canonical ∧ f.locals.Canonical ∧ f.result.Canonical)
    (hsized : Countable f.name.length ∧ Countable f.parameters.items.length ∧
      Countable f.locals.items.length)
    (hdepth : f.packed.length ≤ depth) : Reads (Function.read depth) f.packed f := by
  obtain ⟨hparameters, hlocals, hresult⟩ := hcanonical
  obtain ⟨hname, hmany, hmore⟩ := hsized
  have hblock := Block.reads hbody (Nat.le_trans (Pack.length_field_lt (by simp)).le hdepth)
  have hfirst := Listed.readsItems (fun id _ => Reads.long id) hparameters hmany
  have hsecond := Listed.readsItems (fun id _ => Reads.long id) hlocals hmore
  exact Reads.record
    (.cons (Reads.long _).map (.cons (Reads.text hname).map (.cons hfirst.map (.cons hsecond.map
      (.cons (Ty.reads hresult).map (.cons hblock.map (.cons (Span.reads _).map .nil)))))))
        (by decide)

theorem DataBlock.reads {d : DataBlock} (hbytes : d.bytes.Canonical)
    (hname : Countable d.name.length)
    (hlength : Countable d.bytes.items.length) : Reads DataBlock.read d.packed d :=
  Reads.record
    (.cons (Reads.text hname).map (.cons (Listed.readsBytes hbytes hlength).map
      (.cons (Reads.word _).map (.cons (Span.reads _).map .nil)))) (by decide)

/-- An item is no longer than the list of all of them. -/
theorem Listed.length_item_le {α : Type} {f : α → Bytes} {l : Listed α} {x : α} (hx : x ∈ l.items) :
    (f x).length ≤ (l.packed f).length :=
  length_le_packedList (List.mem_map_of_mem hx)

namespace Program

variable {p : Program} {depth : Nat}

/-- A program is read back at any depth that its size bounds. -/
theorem reads (htagged : p.Tagged) (hcanonical : p.Canonical) (hsized : p.Sized)
    (hdepth : p.packed.length ≤ depth) : Reads (Program.read depth) p.packed p := by
  have hnodes : p.Everywhere .storable := htagged.and (hcanonical.nodes.and hsized.nodes)
  have hfiles := Listed.readsItems (f := CarriedFile.packed)
    (fun f hf => CarriedFile.reads (hcanonical.files.2 f hf) (hsized.files.2 f hf).1
      (hsized.files.2 f hf).2) hcanonical.files.1 hsized.files.1
  have hsymbols := Listed.readsItems (f := Symbol.packed)
    (fun s hs => Symbol.reads (hcanonical.symbols.2 s hs).1 (hcanonical.symbols.2 s hs).2
      (hsized.symbols.2 s hs)) hcanonical.symbols.1 hsized.symbols.1
  have hglobals := Listed.readsItems (f := Declaration.packed)
    (fun g hg => Declaration.reads (hnodes.values g hg) (Nat.le_trans (Listed.length_item_le hg)
      (Nat.le_trans (Pack.length_field_lt (by simp)).le hdepth))) hcanonical.globals hsized.globals
  have hfunctions := Listed.readsItems (f := Function.packed)
    (fun f hf => Function.reads (hnodes.bodies f hf) (hcanonical.functions.2 f hf)
      (hsized.functions.2 f hf) (Nat.le_trans (Listed.length_item_le hf)
        (Nat.le_trans (Pack.length_field_lt (by simp)).le hdepth)))
    hcanonical.functions.1 hsized.functions.1
  have hdata := Listed.readsItems (f := DataBlock.packed)
    (fun d hd => DataBlock.reads (hcanonical.data.2 d hd) (hsized.data.2 d hd).1
      (hsized.data.2 d hd).2)
    hcanonical.data.1 hsized.data.1
  exact Reads.record
    (.cons (Reads.text hsized.name).map (.cons hfiles.map (.cons hsymbols.map (.cons hglobals.map
      (.cons hfunctions.map (.cons hdata.map (.cons (Reads.long _).map .nil))))))) (by decide)

/-- A program with its wrapping is read back. -/
theorem reads_encode (htagged : p.Tagged) (hcanonical : p.Canonical) (hsized : p.Sized)
    (hdepth : (encode (some p)).length ≤ depth) :
    Reads (Envelope.read depth) (encode (some p)) ⟨magic, schema, some p⟩ := by
  have hprogram : Reads (some <$> Program.read depth) p.packed (some p) :=
    (reads htagged hcanonical hsized (Nat.le_trans (Pack.length_field_lt (by simp)).le hdepth)).map
  have hpresent : Reads (Unpack.orAbsent none (some <$> Program.read depth)) p.packed (some p) :=
    Reads.orAbsent (c := 0x87) _ (by decide) hprogram
  have hmagic : Countable magic.length := by
    rw [magic, Text.length_bytesOf]
    exact Nat.lt_of_lt_of_le (by decide : _ < 5) (by decide)
  exact Reads.record
    (.cons (Reads.text hmagic).map (.cons (Reads.word _).map (.cons hpresent.map .nil))) (by decide)

/-- **Stored programs are read back.**  A program whose nodes carry the forms that their tags name
is decoded from its stored form as it was. -/
theorem decode_encode (htagged : p.Tagged) (hcanonical : p.Canonical) (hsized : p.Sized) :
    decode (encode (some p)) = .ok p := by
  have hread := (reads_encode htagged hcanonical hsized (Nat.le_succ _)).whole []
  rw [List.append_nil] at hread
  unfold decode
  rw [hread]
  dsimp only
  rw [if_neg (not_not.2 rfl), if_neg (not_not.2 rfl)]

/-- A program with a function that gives back the negative of its parameter. -/
def negation : Program where
  name := [0x6E, 0xFF]
  symbols := .of [{ name := [0x78], type := .scalar .i8, symbolClass := .parameter, owner := 1 }]
  functions := .of
    [{ id := 1, parameters := .of [1], result := .scalar .i8,
       body := .of [.giveBack { tag := 3 } (.unary { tag := 2, type := .scalar .i8 } .neg
         (.var { tag := 1, type := .scalar .i8 } 1))] true .none }]

theorem negation_storable : negation.Storable := by
  refine ⟨⟨nofun, ?_⟩, ⟨⟨nofun, ?_⟩, ?_, ?_, ?_, ?_, ?_⟩, ⟨⟨nofun, ?_⟩, ?_, ?_, ?_, ?_, ?_, ?_⟩⟩
  all_goals simp [negation, Listed.of, Listed.Canonical, Countable, Block.Everywhere,
    Stmt.AllEverywhere, Stmt.Everywhere, Expr.Everywhere, NodeProperty.tagged,
    NodeProperty.canonical, NodeProperty.sized,
    Stmt.Tagged, Expr.Tagged, Block.Canonical, Stmt.Canonical, Expr.Canonical,
    Block.Sized, Stmt.Sized,
    Expr.Sized, Block.statements]
  all_goals decide

theorem decode_encode_negation : decode (encode (some negation)) = .ok negation :=
  decode_encode negation_storable.tagged negation_storable.canonical negation_storable.sized

end Program

end Breadbin
