import Taxonomy.Resolution.Member

/-!
# Sorting by generality

General types come first: comparing `a` with `b` gives "less" if `a` properly subsumes `b`. The
types given may be any types; those that are no members are incomparable to all but the reserved
values.
-/

namespace Taxonomy.Hierarchy

/-- How `left` stands to `right`, if they are comparable. -/
def compareTypes (h : Hierarchy) (left right : Ty) : Inquiry (Option Ordering) := do
  if left = right then return some .eq
  else if ← h.inquireProperlySubsumes left right then return some .lt
  else if ← h.inquireProperlySubsumes right left then return some .gt
  else return none

/-- The types that no other of them properly subsumes. -/
def minimal (h : Hierarchy) (types : List Ty) : Inquiry (List Ty) :=
  let all := (FinSet.ofList types).toList
  Inquiry.filter
    (fun t ↦ (!·) <$> Inquiry.any (h.inquireProperlySubsumes · t) (all.filter (· ≠ t))) all

/-- The types that properly subsume no other of them. -/
def maximal (h : Hierarchy) (types : List Ty) : Inquiry (List Ty) :=
  let all := (FinSet.ofList types).toList
  Inquiry.filter
    (fun t ↦ (!·) <$> Inquiry.any (h.inquireProperlySubsumes t ·) (all.filter (· ≠ t))) all

/-! ## Topological order -/

/-- The first of `remaining` that no other of them properly subsumes. -/
def firstMinimal? (h : Hierarchy) (remaining : List Ty) : Inquiry (Option Ty) :=
  Inquiry.find?
    (fun t ↦ (!·) <$> Inquiry.any (h.inquireProperlySubsumes · t) (remaining.filter (· ≠ t)))
    remaining

/-- Takes the first minimal type away, again and again, at most `fuel` times, after the types taken
already, which are given latest first. When the types left all have another one above them, the
first of them is taken. -/
def takeMinimal (h : Hierarchy) (taken : List Ty) : Nat → List Ty → Inquiry (List Ty)
  | _, [] => return taken.reverse
  | 0, _ :: _ => return taken.reverse
  | fuel + 1, first :: rest => do
    let next := (← h.firstMinimal? (first :: rest)).getD first
    h.takeMinimal (next :: taken) fuel ((first :: rest).erase next)

/-- The distinct types in an order in which no type comes after one that it properly subsumes, as
far as there are no cycles. -/
def subsort (h : Hierarchy) (types : List Ty) : Inquiry (List Ty) :=
  let distinct := FinSet.firsts types
  h.takeMinimal [] distinct.length distinct

/-! ## Strata -/

/-- The strata of the whole hierarchy. -/
def strata (h : Hierarchy) : List (List Ty) :=
  (h.walk { direction := .down, stratify := true } Visitor.never).strata

/-- The distinct types by their strata in the hierarchy; those that are no members come last, in the
order given. -/
def stratasort (h : Hierarchy) (types : List Ty) : List (List Ty) :=
  let wanted := FinSet.ofList types
  let members := h.strata.map fun stratum ↦ stratum.filter (· ∈ wanted)
  let others := (FinSet.firsts types).filter fun t ↦ !h.hasType t
  (members ++ [others]).filter fun stratum ↦ !stratum.isEmpty

end Taxonomy.Hierarchy
