import Taxonomy.Hook
import Taxonomy.Report.Journal
import Taxonomy.Resolution.Reserved

/-!
# Consulting hooks

What the operands alone leave open is put to the hooks among them, if the configuration allows it:
first to the left operand, then, unless its answer fits, to the right one as the converse question.
Every question asked is noted in the journal.

The operations of this module need no hierarchy. What stays open is `none`.
-/

namespace Taxonomy

/-- What resolution depends on beside the operands and the hierarchy. -/
structure Setting where
  config : Config
  hooks : Hooks

namespace Setting

variable {α : Type}

/-- Puts an operation to an operand. A type has no opinion. -/
def ask (setting : Setting) (operation : Operation) (other : Operand) :
    Operand → Journaled (Option Answer)
  | .type _ => return none
  | .hook id => ⟨(setting.hooks id).consult operation other, [.asked id operation other]⟩

/-- The first answer that `accept` takes, left operand first. -/
def consult (setting : Setting) (operation : Operation) (left right : Operand)
    (accept : Answer → Option α) : Journaled (Option α) := do
  if !setting.config.consultHooks || !(left.isHook || right.isHook) then return none
  match (← setting.ask operation right left).bind accept with
  | some a => return some a
  | none => return (← setting.ask operation.converse left right).bind accept

/-- Decides a relation from the operands alone. -/
def decideRelation (setting : Setting) (r : Relation) (left right : Operand) :
    Journaled (Option Bool) := do
  match Reserved.relation r left right with
  | some holds => return some holds
  | none =>
    match ← setting.consult (.relation r) left right Answer.holds? with
    | some holds => do
      .report (.hookAnswered r left right holds)
      return some holds
    | none => return none

/-- Decides bounds from the operands alone. -/
def decideBounds (setting : Setting) (b : Bound) (left right : Operand) :
    Journaled (Option (List Ty)) := do
  match Reserved.operandBounds b left right with
  | some types => return some types
  | none =>
    setting.consult (.bounds b) left right fun answer ↦
      answer.types?.map fun types ↦ (FinSet.ofList types).toList

/-- Whether a relation is known to hold without a hierarchy. -/
def relates (setting : Setting) (r : Relation) (left right : Operand) : Journaled Bool :=
  (·.getD false) <$> setting.decideRelation r left right

/-- The bounds that are known without a hierarchy. -/
def bounds (setting : Setting) (b : Bound) (left right : Operand) : Journaled (List Ty) :=
  (·.getD []) <$> setting.decideBounds b left right

end Setting

end Taxonomy
