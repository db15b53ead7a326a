import Breadbin.Routine.Chance
import Breadbin.Routine.FloatingPoint
import Breadbin.Routine.Integer
import Breadbin.Routine.Strings

/-!
# The routine library

Only the routines that a program asks for, and those they need, are written behind its code, once
each.
-/

namespace Breadbin.Routine

/-- The code of a routine. -/
@[simp] def body : RoutineId → Writer Unit
  | .mul8 => mul8
  | .mul16 => mul16
  | .divU8 => divU8
  | .divS8 => divS8
  | .divU16 => divU16
  | .divS16 => divS16
  | .fixedMul => fixedMul
  | .fixedDiv => fixedDiv
  | .floatPack => floatPack
  | .floatAdd => floatAdd
  | .floatSub => floatSub
  | .floatMul => floatMul
  | .floatDiv => floatDiv
  | .floatCompare => floatCompare
  | .floatOfMagnitude => floatOfMagnitude
  | .floatOfU16 => floatOfU16
  | .floatOfI16 => floatOfI16
  | .floatTruncate => floatTruncate
  | .floatSaturate => floatSaturate
  | .floatToU16 => floatToU16
  | .floatToI16 => floatToI16
  | .floatOfFixed => floatOfFixed
  | .floatToFixed => floatToFixed
  | .stringConcat => stringConcat
  | .stringEqual => stringEqual
  | .stringLength => stringLength
  | .formatU16 => formatU16
  | .textOfU16 => textOfU16
  | .textOfI16 => textOfI16
  | .textOfFixed => textOfFixed
  | .textOfFloat => textOfFloat
  | .textOfBool => textOfBool
  | .parseU16 => parseU16
  | .u16OfText => u16OfText
  | .i16OfText => i16OfText
  | .printString => printString
  | .printLineEnd => printLineEnd
  | .randomSeed => randomSeed
  | .randomNext => randomNext
  | .randomInit => randomInit
  | .stringAt => stringAt
  | .randomRange => randomRange

/-- Writes one routine if it was asked for and is not written yet; says whether it was written. -/
def emitOne (id : RoutineId) : Writer Bool := do
  let w ← get
  match w.label? id with
  | none => return false
  | some l =>
    if w.emitted.contains id then return false
    set { w with emitted := id :: w.emitted }
    Writer.bind l
    body id
    return true

/-- Goes once over all routines in order; says whether one was written. -/
def emitPass : Writer Bool :=
  RoutineId.all.foldlM (fun written id => return (← emitOne id) || written) false

/-- Goes over all routines until nothing is written.  Every pass but the last writes a routine. -/
def emitPasses : Nat → Writer Unit
  | 0 => return
  | n + 1 => do
    if ← emitPass then emitPasses n

/-- Writes every routine asked for that is not written yet. -/
def emitLibrary : Writer Unit :=
  emitPasses (RoutineId.all.length + 1)

end Breadbin.Routine
