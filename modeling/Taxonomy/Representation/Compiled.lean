import Taxonomy.Hierarchy.Bounds
import Taxonomy.Report.Journal
import Taxonomy.Representation.Rows

/-!
# Compiled hierarchies

A compiled hierarchy answers look-ups from rows. The rows are made when they are first needed and
made again when the hierarchy's generation has moved since; with compilation switched off, and for
types outside the scope, look-ups walk the graph.

With a scope all greatest lower bounds are found by walking, because the types above leave the
scope.
-/

namespace Taxonomy

/-- A hierarchy together with its rows. -/
structure Compiled where
  hierarchy : Hierarchy
  /-- The type to which compilation is confined. -/
  scope : Option Ty := none
  /-- Whether look-ups may use rows. -/
  enabled : Bool := true
  /-- The rows made last. -/
  rows : Option Rows := none
deriving DecidableEq

namespace Compiled

/-- Whether the rows are those of the present generation. -/
def isCurrent (c : Compiled) : Bool :=
  c.rows.any fun rows ↦ rows.generation = c.hierarchy.generation

/-- Brings the rows up to date. -/
def refresh (c : Compiled) : Journaled Compiled :=
  if !c.enabled || c.isCurrent then return c
  else do
    let rows := Rows.compile c.hierarchy c.scope
    .report (.compiled c.hierarchy.generation c.hierarchy.root rows.width)
    return { c with rows := some rows }

/-- The rows that look-ups may use. -/
def rows? (c : Compiled) : Option Rows := if c.enabled then c.rows else none

/-- The rows that cover two types, and their numbers. -/
def indexed? (c : Compiled) (left right : Ty) : Option (Rows × Nat × Nat) := do
  let rows ← c.rows?
  let numbers ← rows.indices? left right
  return (rows, numbers)

/-- Whether `general` subsumes `specific`. -/
def lookUpSubsumes (c : Compiled) (general specific : Ty) : Journaled (Bool × Compiled) := do
  let c ← c.refresh
  match c.indexed? general specific with
  | some (rows, i, j) => return (rows.subsumes i j, c)
  | none => return (c.hierarchy.subsumes general specific, c)

/-- The bounds of two types. -/
def lookUpBounds (c : Compiled) (b : Bound) (left right : Ty) :
    Journaled (List Ty × Compiled) := do
  if b = .greatestLower ∧ c.scope.isSome then
    return ((c.hierarchy.bounds b left right).toList, c)
  let c ← c.refresh
  match c.indexed? left right with
  | some (rows, i, j) => return (rows.bounds b i j, c)
  | none => return ((c.hierarchy.bounds b left right).toList, c)

/-- The width of the rows, made up to date first; zero without rows. -/
def width (c : Compiled) : Journaled (Nat × Compiled) := do
  let c ← c.refresh
  return ((c.rows?.map Rows.width).getD 0, c)

/-- Switches compilation on or off; switching it off drops the rows. -/
def setEnabled (c : Compiled) (on : Bool) : Compiled :=
  { c with enabled := on, rows := if on then c.rows else none }

end Compiled

end Taxonomy
