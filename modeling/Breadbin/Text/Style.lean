/-!
# Terminal styles

A styled text stands between a sequence that turns attributes on and one that turns them off.
-/

namespace Breadbin.Text

/-- Foreground colours of a terminal. -/
inductive Colour where
  | red | green | yellow | blue | cyan
  deriving DecidableEq, Repr

/-- The number of the attribute that sets a colour. -/
def Colour.attribute : Colour → Nat
  | red => 31
  | green => 32
  | yellow => 33
  | blue => 34
  | cyan => 36

/-- A colour, perhaps in bold; nothing at all when styling is off. -/
structure Style where
  enabled : Bool
  colour : Option Colour := none
  bold : Bool := false

/-- The attributes of a style that turn it on, and those that turn it off. -/
def Style.attributes (s : Style) : List Nat × List Nat :=
  let colour := (s.colour.map fun c => [c.attribute]).getD []
  (colour ++ (if s.bold then [1] else []), colour.map (fun _ => 0) ++ (if s.bold then [22] else []))

/-- The sequence for some attributes. -/
def escape (attributes : List Nat) : String :=
  "\x1b[" ++ ";".intercalate (attributes.map toString) ++ "m"

/-- A text in a style. -/
def Style.apply (s : Style) (text : String) : String :=
  if s.enabled then escape s.attributes.1 ++ text ++ escape s.attributes.2 else text

end Breadbin.Text
