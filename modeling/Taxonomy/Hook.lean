import Taxonomy.Operand

/-!
# Hooks

A hook answers, or declines to answer, an operation put to it with the other operand as argument.
Relations call for a truth value and bounds for a list of types; an answer of the other shape does
not fit and counts as declining.

Three kinds of hooks are built here: a predicate is one function for all operations, an object
answers each operation by a method of its own and so never gives an answer of the wrong shape, and
a bare object has no methods at all.

`Rule` describes the function of a hook by cases, of which the first that applies decides.
-/

namespace Taxonomy

/-- What a hook says. -/
inductive Answer where
  | relation (holds : Bool)
  | bounds (types : List Ty)
deriving DecidableEq

namespace Answer

/-- The truth value in an answer to a relation. -/
def holds? : Answer → Option Bool
  | relation holds => some holds
  | bounds _ => none

/-- The types in an answer to a bound. -/
def types? : Answer → Option (List Ty)
  | relation _ => none
  | bounds types => some types

/-- Whether an answer has the shape an operation calls for. -/
def fits (answer : Answer) : Operation → Bool
  | .relation _ => answer.holds?.isSome
  | .bounds _ => answer.types?.isSome

end Answer

/-- Something that may have an opinion about an operation and the other operand. -/
structure Hook where
  /-- How the hook is shown. -/
  description : String
  /-- Whether there is anything to ask. -/
  listens : Bool
  /-- The answer to an operation, given the other operand. -/
  consult : Operation → Operand → Option Answer

/-- The hooks that operands may name. -/
abbrev Hooks := HookId → Hook

namespace Hook

/-- One function for all operations. -/
def predicate (consult : Operation → Operand → Option Answer) : Hook :=
  ⟨"<predicate>", true, consult⟩

/-- A method for each operation, each with answers of its own shape. -/
def object (description : String) (methods : Operation → Operand → Option Answer) : Hook :=
  ⟨description, true, fun operation other ↦
    (methods operation other).filter fun answer ↦ answer.fits operation⟩

/-- No method: every operation is declined. -/
def bare : Hook := ⟨"<hook>", false, fun _ _ ↦ none⟩

instance : Inhabited Hook := ⟨bare⟩

/-- Which operands a rule is about. -/
inductive Pattern where
  | any
  | exactly (t : Ty)
  | nameStarts (start : String)
  | hooks
  | types
deriving DecidableEq

/-- Whether an operand is one the pattern is about. -/
def Pattern.covers : Pattern → Operand → Bool
  | any, _ => true
  | exactly t, other => other = .type t
  | nameStarts start, .type (.named name) => start.isPrefixOf name
  | nameStarts _, _ => false
  | hooks, other => other.isHook
  | types, other => !other.isHook

/-- One case of a hook's function. -/
structure Rule where
  /-- The operations the rule is about, or all. -/
  operations : Option (List Operation)
  other : Pattern
  /-- What the hook says, or that it declines. -/
  answer : Option Answer

/-- Whether a rule is about an operation and an operand. -/
def Rule.applies (rule : Rule) (operation : Operation) (other : Operand) : Bool :=
  rule.operations.all (·.contains operation) && rule.other.covers other

/-- The answer of the first rule that applies; without one the hook declines. -/
def byRules (rules : List Rule) (operation : Operation) (other : Operand) : Option Answer :=
  (rules.find? (·.applies operation other)).bind Rule.answer

end Hook

end Taxonomy
