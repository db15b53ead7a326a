import Breadbin.Diagnostic.Basic

/-!
# Collected diagnostics

A bag keeps diagnostics up to a limit and counts the rest.  A report channel delivers into a bag,
and may leave out what it has delivered before.
-/

namespace Breadbin

/-- Diagnostics in the order they were kept; without a limit all are. -/
structure Bag where
  items : Array Diagnostic := #[]
  limit : Option Nat := none
  dropped : Nat := 0
  deriving Repr, Inhabited

namespace Bag

/-- An empty bag; a limit that is not positive means none. -/
def ofLimit (limit : Int) : Bag :=
  { limit := if limit ≤ 0 then none else some limit.toNat }

/-- Whether the next diagnostic is refused. -/
def isFull (b : Bag) : Bool :=
  match b.limit with
  | none => false
  | some n => n ≤ b.items.size

/-- Keeps a diagnostic, or counts it when the bag is full. -/
def add (b : Bag) (d : Diagnostic) : Bag :=
  if b.isFull then { b with dropped := b.dropped + 1 } else { b with items := b.items.push d }

def size (b : Bag) : Nat := b.items.size

/-- The highest level among the kept diagnostics. -/
def worst (b : Bag) : UInt8 :=
  b.items.foldl (fun w d => max w d.severity.level) 0

def hasErrors (b : Bag) : Bool := 2 ≤ b.worst

def hasWarnings (b : Bag) : Bool := 1 ≤ b.worst

/-- How many kept diagnostics carry a code. -/
def count (b : Bag) (code : Code) : Nat :=
  (b.items.filter fun d => d.code == code).size

/-- Whether one diagnostic stands before another: by file and place, then the worse one, then the
smaller code. -/
def before (x y : Diagnostic) : Bool :=
  if x.span.file ≠ y.span.file then x.span.file < y.span.file
  else if x.span.start ≠ y.span.start then x.span.start < y.span.start
  else if x.span.stop ≠ y.span.stop then x.span.stop < y.span.stop
  else if x.severity.level ≠ y.severity.level then y.severity.level < x.severity.level
  else x.code.number < y.code.number

/-- Sorts the kept diagnostics; what ties keeps its order. -/
def sort (b : Bag) : Bag :=
  { b with items := (b.items.toList.mergeSort fun x y => !before y x).toArray }

end Bag

/-- A channel that delivers reports into a bag.  A filtering one remembers what it has seen and
delivers equal reports once; the notes do not count. -/
structure Reports where
  bag : Bag := {}
  seen : Option (List Diagnostic) := none
  deriving Repr, Inhabited

namespace Reports

/-- A channel that delivers everything. -/
def plain (bag : Bag) : Reports := { bag }

/-- A channel that delivers equal reports once. -/
def filtering (bag : Bag) : Reports := { bag, seen := some [] }

/-- Delivers one report. -/
def report (r : Reports) (d : Diagnostic) : Reports :=
  match r.seen with
  | none => { r with bag := r.bag.add d }
  | some seen =>
    let key := { d with notes := [] }
    if seen.contains key then r
    else { bag := r.bag.add d, seen := some (key :: seen) }

/-- Delivers reports in order. -/
def reportAll (r : Reports) (ds : List Diagnostic) : Reports :=
  ds.foldl report r

end Reports

end Breadbin
