import Breadbin.Program.Basic

/-!
# Well-formed programs

A program is well formed if its numbers refer to declarations, every symbol is declared once and has
a size, and no part that is needed is missing.  Whether the types fit is another matter: a
well-formed program may be full of errors.
-/

namespace Breadbin

mutual

/-- An expression whose parts are there and whose numbers refer to declarations. -/
def Expr.WellFormed (p : Program) : Expr → Prop
  | .absent | .blank _ => False
  | .literal _ _ => True
  | .var _ s => (p.symbol? s).isSome = true
  | .unary _ _ x | .cast _ x => x.WellFormed p
  | .binary _ _ l r => l.WellFormed p ∧ r.WellFormed p
  | .call _ f as _ => (p.function? f).isSome = true ∧ Expr.AllWellFormed p as
  | .index _ a i => (p.symbol? a).isSome = true ∧ i.WellFormed p
  | .builtin _ b as _ => (∀ code, b ≠ .unknown code) ∧ Expr.AllWellFormed p as
  | .dataAddress _ d => (p.dataBlock? d).isSome = true

/-- Well-formed expressions. -/
def Expr.AllWellFormed (p : Program) : List Expr → Prop
  | [] => True
  | e :: es => e.WellFormed p ∧ Expr.AllWellFormed p es

end

/-- A value that may be left out. -/
def Expr.OptionalWellFormed (p : Program) (e : Expr) : Prop := e.isAbsent = true ∨ e.WellFormed p

theorem Expr.WellFormed.present {p : Program} {e : Expr} (h : e.WellFormed p) :
    e.isAbsent = false := by
  cases e with
  | absent => exact absurd h id
  | _ => rfl

/-- Whether a statement leaves the function. -/
def Stmt.isGiveBack : Stmt → Bool
  | .giveBack _ _ => true
  | _ => false

mutual

/-- A statement whose parts are there and whose numbers refer to declarations. -/
def Stmt.WellFormed (p : Program) : Stmt → Prop
  | .blank _ => False
  | .define _ s v => (p.symbol? s).isSome = true ∧ v.OptionalWellFormed p
  | .assign _ t v _ _ => t.WellFormed p ∧ v.WellFormed p
  | .evaluate _ v => v.WellFormed p
  | .giveBack _ v => v.OptionalWellFormed p
  | .leave _ | .next _ => True
  | .choose _ arms _ otherwise =>
    arms.isEmpty = false ∧ Arm.AllWellFormed p arms ∧ otherwise.WellFormed p
  | .loop _ c body => c.WellFormed p ∧ body.WellFormed p
  | .count _ s first last _ body =>
    (p.symbol? s).isSome = true ∧ first.WellFormed p ∧ last.WellFormed p ∧ body.WellFormed p

/-- A block of well-formed statements, or none. -/
def Block.WellFormed (p : Program) : Block → Prop
  | .absent => True
  | .of ss _ _ => Stmt.AllWellFormed p ss

/-- Well-formed statements; those tagged to leave the function do. -/
def Stmt.AllWellFormed (p : Program) : List Stmt → Prop
  | [] => True
  | s :: ss => (s.tag = Stmt.giveBackTag → s.isGiveBack = true) ∧ s.WellFormed p ∧
      Stmt.AllWellFormed p ss

/-- Arms of well-formed conditions and blocks. -/
def Arm.AllWellFormed (p : Program) : List Arm → Prop
  | [] => True
  | .mk c body :: arms => c.WellFormed p ∧ body.WellFormed p ∧ Arm.AllWellFormed p arms

end

namespace Program

/-- The symbols of the declarations and of the frames. -/
def declared (p : Program) : List SymbolId :=
  p.globals.items.map (·.symbol) ++
    p.functions.items.flatMap fun f => f.parameters.items ++ f.locals.items

/-- What a program has to be for lowering to find all that it looks for. -/
structure WellFormed (p : Program) : Prop where
  /-- the declarations and frames are those of the symbols, each once -/
  declared : ∀ id, id ∈ p.declared ↔ (p.symbol? id).isSome = true
  once : p.declared.Nodup
  /-- a scalar with values, or an array of at least one -/
  stored : ∀ id s, p.symbol? id = some s → 0 < s.type.size
  /-- functions differ in their numbers -/
  functions : (p.functions.items.map (·.id)).Nodup
  /-- data blocks are numbered in 32 bits -/
  data : p.data.items.length < 4294967296
  values : ∀ g ∈ p.globals.items, g.value.OptionalWellFormed p
  /-- what is tagged as a literal is one -/
  literals : ∀ g ∈ p.globals.items, g.value.isLiteral = true → ∃ h v, g.value = .literal h v
  bodies : ∀ f ∈ p.functions.items, f.body.WellFormed p

theorem mem_of_numbered? {α : Type} {xs : List α} {id : UInt32} {a : α}
    (h : numbered? xs id = some a) :
    a ∈ xs := by
  unfold numbered? at h
  split at h
  · cases h
  · exact List.mem_of_getElem? h

/-- The program that declares one variable or constant with a literal and does nothing. -/
def declaring (s : Symbol) (h : ExprHead) (v : Literal) : Program :=
  { symbols := .of [s]
    globals := .of [{ symbol := 1, value := .literal h v }]
    functions := .of [{ id := 1, name := mainName, result := .void }]
    entry := 1 }

theorem declaring_wellFormed {s : Symbol} (hsize : 0 < s.type.size) (h : ExprHead) (v : Literal) :
    (declaring s h v).WellFormed where
  declared id := by
    have hdeclared : (declaring s h v).declared = [1] := rfl
    rw [hdeclared, List.mem_singleton]
    constructor
    · rintro rfl
      rfl
    · intro hid
      obtain ⟨s', hs'⟩ := Option.isSome_iff_exists.1 hid
      unfold symbol? numbered? at hs'
      split at hs'
      next => cases hs'
      next hne =>
        have hlt : id.toNat - 1 < 1 := (List.getElem?_eq_some_iff.1 hs').1
        have hpos : id.toNat ≠ 0 := fun hzero => hne (UInt32.toNat_inj.1 hzero)
        exact UInt32.toNat_inj.1 (show id.toNat = 1 by omega)
  once := List.nodup_cons.2 ⟨List.not_mem_nil, .nil⟩
  stored id s' hs' := by
    have hmem : s' ∈ (declaring s h v).symbols.items := mem_of_numbered? hs'
    obtain rfl := List.mem_singleton.1 hmem
    exact hsize
  functions := List.nodup_cons.2 ⟨List.not_mem_nil, .nil⟩
  data := Nat.zero_lt_succ _
  values g hg := by
    obtain rfl := List.mem_singleton.1 hg
    exact .inr trivial
  literals g hg _ := by
    obtain rfl := List.mem_singleton.1 hg
    exact ⟨h, v, rfl⟩
  bodies f hf := by
    obtain rfl := List.mem_singleton.1 hf
    trivial

end Program

end Breadbin
