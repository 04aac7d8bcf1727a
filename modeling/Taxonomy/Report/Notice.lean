import Taxonomy.Attribute
import Taxonomy.Operand
import Taxonomy.Text.Separated

/-!
# Notices

A notice is something an operation reports beside its result: a refusal, an ambiguity, an event in
the life of derived state. It is data; its level, its threshold and its wording are functions of it,
so what is reported can be reasoned about apart from how it reads.

The *level* tells what kind of report it is. The *threshold* tells how chatty it is: a notice is
written only where the limit is at least its threshold.
-/

namespace Taxonomy

/-- The kinds of reports, gravest first. -/
inductive Level where
  | error
  | warn
  | info
  | debug
  | trace
deriving DecidableEq

/-- Two hierarchies disagree about an annotation. -/
inductive Conflict where
  /-- They give the type of this name different values. -/
  | ofType (name : String) (clash : Attributes.Clash)
  /-- They have different values as a whole. -/
  | ofHierarchy (clash : Attributes.Clash)
deriving DecidableEq

/-- The wording of a conflict. -/
def Conflict.message : Conflict → String
  | ofType name ⟨key, left, right⟩ =>
    "conflicting values for attribute '" ++ key ++ "' of type " ++ name ++ ": " ++ left.display
      ++ " vs " ++ right.display
  | ofHierarchy ⟨key, left, right⟩ =>
    "conflicting values for hierarchy attribute '" ++ key ++ "': " ++ left.display ++ " vs "
      ++ right.display

/-- What a fold was doing when a step had several bounds. -/
structure FoldContext where
  /-- The bounds of the step. -/
  candidates : List Ty
  /-- Everything that was being folded. -/
  operands : List Operand
deriving DecidableEq

/-- Something an operation reports beside its result. -/
inductive Notice where
  | reservedName (name : String)
  | rootParents (root : Ty)
  | rootRemoval (root : Ty)
  | rootKept (moved : Ty) (parents : List Ty) (root : Ty)
  | unknownType (type : Ty)
  | assigned (root : Ty) (size : Nat)
  | droppedEdge (parent child : Ty)
  | mergeRefused (conflict : Conflict)
  | merged (size : Nat)
  | compiled (generation : Nat) (root : Ty) (width : Nat)
  | memoDropped (old new count : Nat)
  | hookAnswered (relation : Relation) (left right : Operand) (holds : Bool)
  | ambiguous (bound : Bound) (left : Ty) (right : Operand) (context : Option FoldContext)
deriving DecidableEq

namespace Notice

/-- What kind of report a notice is. -/
def level : Notice → Level
  | reservedName _ | rootParents _ | rootRemoval _ | rootKept .. | ambiguous .. => .warn
  | mergeRefused _ => .info
  | unknownType _ | assigned .. | droppedEdge .. | merged _ | compiled .. => .debug
  | memoDropped .. | hookAnswered .. => .trace

/-- The least limit under which a notice is written. -/
def threshold : Notice → Nat
  | reservedName _ | rootParents _ | rootRemoval _ | rootKept .. | ambiguous .. => 1
  | mergeRefused _ | unknownType _ => 2
  | droppedEdge .. => 3
  | assigned .. | merged _ | compiled .. => 4
  | memoDropped .. | hookAnswered .. => 5

/-- The wording of a notice. -/
def message (spelling : Spelling) (describe : HookId → String) : Notice → String
  | reservedName name => "refusing a structural request naming the reserved type " ++ name
  | rootParents root => "refusing to give the root " ++ spelling.render root ++ " parents"
  | rootRemoval root => "refusing to remove the root " ++ spelling.render root
  | rootKept moved parents root =>
    "moving " ++ spelling.render moved ++ " below ["
      ++ Text.separated ", " (parents.map spelling.render) ++ "] would detach it from the root "
      ++ spelling.render root ++ "; keeping the root as an extra parent"
  | unknownType type => "ignoring attribute for unknown type " ++ spelling.render type
  | assigned root size =>
    "assigned hierarchy rooted at " ++ spelling.render root ++ " with " ++ size.repr ++ " types"
  | droppedEdge parent child =>
    "dropping edge " ++ spelling.render parent ++ " -> " ++ spelling.render child ++ ": "
      ++ spelling.render child ++ " is the root"
  | mergeRefused conflict => "merge refused: " ++ conflict.message
  | merged size => "merged hierarchy now has " ++ size.repr ++ " types"
  | compiled generation root width =>
    "compiled generation " ++ generation.repr ++ " of " ++ spelling.render root ++ ": "
      ++ width.repr ++ " bits per vector"
  | memoDropped old new count =>
    "generation " ++ old.repr ++ " -> " ++ new.repr ++ ": dropping " ++ count.repr
      ++ " memoized bounds"
  | hookAnswered relation left right holds =>
    relation.name ++ " of " ++ left.render spelling describe ++ " and "
      ++ right.render spelling describe ++ " answered by a hook: " ++ toString holds
  | ambiguous bound left right context =>
    let plain := bound.name ++ " of " ++ spelling.render left ++ " and "
      ++ right.render spelling describe ++ " is not unique"
    match context with
    | none => plain
    | some ⟨candidates, operands⟩ =>
      plain ++ ": candidates [" ++ Text.separated ", " (candidates.map spelling.render)
        ++ "] while folding ["
        ++ Text.separated ", " (operands.map (·.render spelling describe)) ++ "]"

end Notice

end Taxonomy
