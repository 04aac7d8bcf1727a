import Taxonomy.Operand

/-!
# What needs no hierarchy

Some questions are settled by the operands alone: the two are identical, or one is a reserved value.
`undefined` is the most general value and `top` the most specific. Hence, for any `t`,

* `undefined` subsumes `t`, and only `undefined` subsumes `undefined`;
* `t` subsumes `top`, and `top` subsumes only `top`;
* the bounds with an identity are `[t]` and the bounds with an absorbing value are that value.

Everything else is left open, which is `none`.
-/

namespace Taxonomy.Reserved

/-- Whether `general` subsumes `specific`, as far as that is settled. -/
def subsumes (general specific : Ty) : Option Bool :=
  if general = specific then some true
  else match general, specific with
    | .undefined, _ => some true
    | _, .undefined => some false
    | _, .top => some true
    | .top, _ => some false
    | _, _ => none

/-- Whether `general` subsumes `specific` and differs from it, as far as that is settled. -/
def properlySubsumes (general specific : Ty) : Option Bool :=
  if general = specific then some false else subsumes general specific

/-- The value that leaves a bound of another value as it is. -/
def identity : Bound → Ty
  | .leastUpper => .undefined
  | .greatestLower => .top

/-- The value that every bound with it comes to. -/
def absorbing : Bound → Ty
  | .leastUpper => .top
  | .greatestLower => .undefined

/-- The bounds of two types, as far as they are settled. -/
def bounds (b : Bound) (left right : Ty) : Option (List Ty) :=
  if left = right then some [left]
  else if left = absorbing b || right = absorbing b then some [absorbing b]
  else if left = identity b then some [right]
  else if right = identity b then some [left]
  else none

@[simp] theorem bounds_self (b : Bound) (t : Ty) : bounds b t t = some [t] := if_pos rfl

@[simp] theorem bounds_identity_left (b : Bound) (t : Ty) : bounds b (identity b) t = some [t] := by
  cases b <;> cases t <;> rfl

@[simp] theorem bounds_identity_right (b : Bound) (t : Ty) :
    bounds b t (identity b) = some [t] := by
  cases b <;> cases t <;> rfl

@[simp] theorem bounds_absorbing_left (b : Bound) (t : Ty) :
    bounds b (absorbing b) t = some [absorbing b] := by
  cases b <;> cases t <;> rfl

@[simp] theorem bounds_absorbing_right (b : Bound) (t : Ty) :
    bounds b t (absorbing b) = some [absorbing b] := by
  cases b <;> cases t <;> rfl

/-! ## Operands -/

/-- A relation of two operands, as far as it is settled. A hook is identical only to itself, and the
reserved values stand to hooks as they stand to types. -/
def relation (r : Relation) (left right : Operand) : Option Bool :=
  let (general, specific) := r.orient left right
  match general, specific with
  | .type general, .type specific =>
    if r.isProper then properlySubsumes general specific else subsumes general specific
  | general, specific =>
    if general = specific then some !r.isProper
    else if general = .type .undefined then some true
    else if specific = .type .undefined then some false
    else if specific = .type .top then some true
    else if general = .type .top then some false
    else none

/-- The bounds of two operands, as far as they are settled. With a hook only the absorbing value
settles them. -/
def operandBounds (b : Bound) (left right : Operand) : Option (List Ty) :=
  match left, right with
  | .type left, .type right => bounds b left right
  | left, right =>
    if left = .type (absorbing b) || right = .type (absorbing b) then some [absorbing b]
    else none

end Taxonomy.Reserved
