import Breadbin.Placement.Target
import Breadbin.Text.Quoted
import Breadbin.Ty.Basic

/-!
# Allocation of variables

Every variable has a fixed address.  Addresses are handed out in order and never given back: each
function owns its variables for the whole run.
-/

namespace Breadbin

/-- Why a variable gets no address. -/
inductive AllocationError where
  /-- the symbol has one already -/
  | collision (name : Bytes)
  /-- nothing can be stored in so many bytes -/
  | invalidSize (name : Bytes) (size : Int)
  /-- there is no such symbol -/
  | unknownSymbol (id : UInt32)
  /-- the region is exhausted -/
  | outOfSpace (name : Bytes) (size left : Int)
  /-- the next address is no address -/
  | outOfRange
  deriving DecidableEq, Repr

/-- The text of a failure. -/
def AllocationError.message : AllocationError → String
  | collision name => "layout: symbol allocated twice: " ++ Text.quoted name
  | invalidSize name size =>
    "layout: invalid storage size: " ++ Text.quoted name ++ s!" has {size} bytes"
  | unknownSymbol id => s!"layout: invalid storage size: unknown symbol {id.toNat}"
  | outOfSpace name size left =>
    "layout: out of variable space: " ++ Text.quoted name ++ s!" needs {size} bytes, {left} left"
  | outOfRange => "layout: out of variable space: out of range"

/-- An allocated symbol. -/
structure Slot where
  symbol : UInt32
  name : Bytes
  address : UInt16
  size : Int
  deriving DecidableEq, Repr, Inhabited

/-- The addresses handed out so far. -/
structure Allocator where
  base : UInt16
  limit : UInt16
  /-- the next address, counted in 64 bits -/
  next : Int
  /-- how many slots without a symbol were asked for -/
  hidden : UInt32 := 0
  slots : Array Slot := #[]
  deriving Repr, Inhabited

namespace Allocator

/-- Starts with the first variable address. -/
def ofTarget (t : Target) : Allocator :=
  { base := t.variableBase, limit := t.variableLimit, next := t.variableBase.toNat }

/-- An integer in 64 bits of two's complement. -/
def wrap (i : Int) : Int := i.bmod 0x10000000000000000

/-- The address of an allocated symbol. -/
def lookup? (a : Allocator) (id : UInt32) : Option UInt16 :=
  (a.slots.find? fun s => s.symbol == id).map (·.address)

/-- Reserves bytes for a symbol. -/
def allocate (a : Allocator) (id : UInt32) (name : Bytes) (size : Int) :
    Except AllocationError (Allocator × UInt16) :=
  if (a.lookup? id).isSome then .error (.collision name)
  else if size ≤ 0 then .error (.invalidSize name size)
  else
    let stop := wrap (a.next + size)
    if (a.limit.toNat : Int) < stop then
      .error (.outOfSpace name size (wrap (a.limit.toNat - a.next)))
    else if a.next < 0 ∨ 0xFFFF < a.next then .error .outOfRange
    else
      let address := UInt16.ofNat a.next.toNat
      .ok ({ a with slots := a.slots.push ⟨id, name, address, size⟩, next := stop }, address)

/-- Reserves the bytes of a symbol's type. -/
def allocateSymbol (a : Allocator) (id : UInt32) (symbol : Option (Bytes × Ty)) :
    Except AllocationError (Allocator × UInt16) :=
  match symbol with
  | none => .error (.unknownSymbol id)
  | some (name, type) => a.allocate id name type.size

/-- The number of the next slot without a symbol: they count down from the largest number. -/
def hiddenId (a : Allocator) : UInt32 := 0 - (a.hidden + 1)

/-- Reserves bytes that belong to no symbol.  The number is used up even if this fails. -/
def allocateHidden (a : Allocator) (name : Bytes) (size : Int) :
    Allocator × Except AllocationError UInt16 :=
  let id := a.hiddenId
  let counted := { a with hidden := a.hidden + 1 }
  match counted.allocate id name size with
  | .ok (a, address) => (a, .ok address)
  | .error e => (counted, .error e)

/-- The number of bytes handed out. -/
def used (a : Allocator) : Int := wrap (a.next - a.base.toNat)

end Allocator

end Breadbin
