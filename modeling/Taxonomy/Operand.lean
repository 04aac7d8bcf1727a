import Taxonomy.Config

/-!
# Operations and operands

The algebra has four relations and two bounds. An operand is a type or a *hook*, something with an
opinion of its own about where it stands. Hooks are named: an operand refers to a hook by its
identity, and what the hook says is looked up in an environment `Hooks`. Two hook operands are the
same operand exactly if they name the same hook.
-/

namespace Taxonomy

/-- The relations between two types. -/
inductive Relation where
  | subsumes
  | properlySubsumes
  /-- The converse of `subsumes`. -/
  | extending
  /-- The converse of `properlySubsumes`. -/
  | properlyExtending
deriving DecidableEq

namespace Relation

/-- The same question asked from the other operand's point of view. -/
def converse : Relation → Relation
  | subsumes => extending
  | properlySubsumes => properlyExtending
  | extending => subsumes
  | properlyExtending => properlySubsumes

/-- Whether a type stands in no such relation to itself. -/
def isProper : Relation → Bool
  | subsumes | extending => false
  | properlySubsumes | properlyExtending => true

/-- Whether the left operand is the one that would be more general. -/
def generalFirst : Relation → Bool
  | subsumes | properlySubsumes => true
  | extending | properlyExtending => false

/-- The operands in the order general, specific. -/
def orient {α : Type} (r : Relation) (left right : α) : α × α :=
  if r.generalFirst then (left, right) else (right, left)

/-- The written name of a relation. -/
def name : Relation → String
  | subsumes => "subsumes"
  | properlySubsumes => "properly_subsumes"
  | extending => "extends"
  | properlyExtending => "properly_extends"

@[simp] theorem converse_converse (r : Relation) : r.converse.converse = r := by
  cases r <;> rfl

@[simp] theorem isProper_converse (r : Relation) : r.converse.isProper = r.isProper := by
  cases r <;> rfl

theorem orient_converse {α : Type} (r : Relation) (left right : α) :
    r.converse.orient right left = r.orient left right := by
  cases r <;> rfl

end Relation

/-- The two kinds of bounds: the most general types below both operands, and the most specific types
above both. -/
inductive Bound where
  | leastUpper
  | greatestLower
deriving DecidableEq

/-- The place of a bound in an order of the two. -/
def Bound.rank : Bound → Nat
  | leastUpper => 0
  | greatestLower => 1

theorem Bound.rank_injective : ∀ {a b : Bound}, a.rank = b.rank → a = b
  | leastUpper, leastUpper, _ | greatestLower, greatestLower, _ => rfl

/-- The written name of a bound. -/
def Bound.name : Bound → String
  | leastUpper => "least_upper_bounds"
  | greatestLower => "greatest_lower_bounds"

/-- What can be asked about two operands. -/
inductive Operation where
  | relation (r : Relation)
  | bounds (b : Bound)
deriving DecidableEq

namespace Operation

/-- The same question asked from the other operand's point of view; bounds are symmetric. -/
def converse : Operation → Operation
  | relation r => relation r.converse
  | bounds b => bounds b

/-- The written name of an operation. -/
def name : Operation → String
  | relation r => r.name
  | bounds b => b.name

@[simp] theorem converse_converse (o : Operation) : o.converse.converse = o := by
  cases o <;> simp [converse]

end Operation

/-- The identity of a hook. -/
abbrev HookId := String

/-- An operand of the algebra. -/
inductive Operand where
  | type (t : Ty)
  | hook (id : HookId)
deriving DecidableEq

namespace Operand

/-- The type an operand is, if it is no hook. -/
def type? : Operand → Option Ty
  | type t => some t
  | hook _ => none

/-- Whether an operand has an opinion of its own. -/
def isHook : Operand → Bool
  | type _ => false
  | hook _ => true

/-- The text of an operand. -/
def render (spelling : Spelling) (describe : HookId → String) : Operand → String
  | type t => spelling.render t
  | hook id => describe id

end Operand

end Taxonomy
