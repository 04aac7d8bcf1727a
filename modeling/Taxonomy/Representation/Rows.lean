import Taxonomy.Finite.BitSet
import Taxonomy.Hierarchy.Closure
import Taxonomy.Operand

/-!
# Compiled rows

Compiling one generation of a hierarchy numbers its types in presentation order and writes down, for
each number, the numbers of the types below and above it as bits. Subsumption is then one bit test,
and the candidates for a bound are one intersection.

Compilation may be confined to a *scope*, a type and all its descendants. The rows below are then
still complete, because a scope is closed downward; the rows above end at its border.
-/

namespace Taxonomy

/-- The bit rows of one generation. -/
structure Rows where
  /-- The generation that was compiled. -/
  generation : Nat
  /-- The compiled types; a type's number is its place. -/
  types : Array Ty
  /-- The number of each compiled type. -/
  numbers : FinMap Ty Nat
  /-- For each number, the numbers of the proper ancestors. -/
  above : Array BitSet
  /-- For each number, the numbers of the proper descendants. -/
  below : Array BitSet
deriving DecidableEq

namespace Rows

/-- Rows are a multiple of this many bits wide. -/
def granularity : Nat := 32

/-- The width of a row: the number of types, rounded up. -/
def width (rows : Rows) : Nat :=
  (rows.types.size + granularity - 1) / granularity * granularity

/-- The types that compilation covers. -/
def coverage (h : Hierarchy) : Option Ty → FinSet Ty
  | none => h.types
  | some scope => h.reflexiveClosure .down scope

/-- The number of each of some types: its place, counted from `first`. -/
def numbering (first : Nat) : List Ty → FinMap Ty Nat
  | [] => ∅
  | t :: rest => (numbering (first + 1) rest).insert t first

/-- Compiles a hierarchy within a scope. -/
def compile (h : Hierarchy) (scope : Option Ty) : Rows :=
  let types := (coverage h scope).toList
  let numbers := numbering 0 types
  let below := types.map fun t ↦
    BitSet.ofList ((h.descendants t).toList.filterMap numbers.get?)
  let above := (List.range types.length).map fun j ↦
    BitSet.ofList ((below.zipIdx.filter fun row ↦ row.1.contains j).map Prod.snd)
  ⟨h.generation, types.toArray, numbers, above.toArray, below.toArray⟩

/-- The number of a type is the place of its first occurrence. -/
theorem get?_numbering (first : Nat) (types : List Ty) (t : Ty) :
    (numbering first types).get? t = (types.idxOf? t).map (first + ·) := by
  induction types generalizing first with
  | nil => simp [numbering]
  | cons u rest ih =>
    rw [numbering, FinMap.get?_insert, List.idxOf?_cons, ih]
    by_cases h : t = u
    · simp [h]
    · rw [if_neg h, if_neg (by simpa using Ne.symm h), Option.map_map]
      exact congrArg (Option.map · _) (funext fun n ↦ Nat.add_right_comm first 1 n ▸ rfl)

/-- The number of a type, if it is covered. -/
def index? (rows : Rows) (t : Ty) : Option Nat := rows.numbers.get? t

/-- In compiled rows a type's number is its place. -/
theorem index?_compile (h : Hierarchy) (scope : Option Ty) (t : Ty) :
    (compile h scope).index? t = (coverage h scope).toList.idxOf? t := by
  show (numbering 0 _).get? t = _
  rw [get?_numbering]
  simp

/-- The numbers of two types, if both are covered. -/
def indices? (rows : Rows) (left right : Ty) : Option (Nat × Nat) := do
  let i ← rows.index? left
  let j ← rows.index? right
  return (i, j)

/-- Whether a number is that of a type or of one above it. -/
def subsumes (rows : Rows) (general specific : Nat) : Bool :=
  general = specific || (rows.below.getD general ∅).contains specific

/-- The shared members of two reflexive `toward` rows whose `away` row meets no other of them. -/
def hull (rows : Rows) (toward away : Array BitSet) (left right : Nat) : List Ty :=
  let candidates :=
    ((toward.getD left ∅).insert left).inter ((toward.getD right ∅).insert right)
  let extremal := candidates.toList.filter fun x ↦
    (((away.getD x ∅).inter candidates).erase x).isEmpty
  extremal.filterMap fun x ↦ rows.types[x]?

/-- The bounds of two numbered types; greatest lower bounds only make sense without a scope. -/
def bounds (rows : Rows) : Bound → Nat → Nat → List Ty
  | .leastUpper, left, right => rows.hull rows.below rows.above left right
  | .greatestLower, left, right => rows.hull rows.above rows.below left right

end Rows

end Taxonomy
