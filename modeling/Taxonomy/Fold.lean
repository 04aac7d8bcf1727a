import Taxonomy.Resolution.Member

/-!
# Folding bounds

The join of several operands folds least upper bounds from the left, starting from `undefined`, the
identity of joins. The meet folds greatest lower bounds starting from `top`.

Each step must come to exactly one bound. Without a bound the operands have nothing in common; with
several the result would hang on an arbitrary choice. Either way the fold stops with the absorbing
value. A step with several bounds is reported, in as much detail as the verbosity says.
-/

namespace Taxonomy

/-- What the report of an ambiguous step says, if there is a report. -/
def Verbosity.ambiguity (verbosity : Verbosity) (b : Bound) (left : Ty) (right : Operand)
    (context : FoldContext) : List Notice :=
  match verbosity with
  | .silent => []
  | .warn => [.ambiguous b left right none]
  | .context => [.ambiguous b left right (some context)]

namespace Hierarchy

/-- Folds the bounds that `step` finds of the value so far and each operand. The report of an
ambiguous step shows `all` operands. -/
def foldBounds (verbosity : Verbosity) (b : Bound) (step : Ty → Operand → Inquiry (List Ty))
    (all : List Operand) : Ty → List Operand → Inquiry Ty
  | value, [] => return value
  | value, operand :: rest => do
    match ← step value operand with
    | [] => return Reserved.absorbing b
    | [bound] => foldBounds verbosity b step all bound rest
    | bounds => do
      (Journaled.reportAll (verbosity.ambiguity b value operand ⟨bounds, all⟩) : Journaled Unit)
      return Reserved.absorbing b

/-- The join or the meet of operands. -/
def fold (h : Hierarchy) (setting : Setting) (b : Bound) (operands : List Operand) : Inquiry Ty :=
  foldBounds setting.config.verbosity b
    (fun value operand ↦ h.resolveBounds setting b (.type value) operand)
    operands (Reserved.identity b) operands

/-- A step of a fold over types that are taken to be members. -/
def memberStep (b : Bound) (value : Ty) (operand : Operand) : Inquiry (List Ty) :=
  match operand with
  | .hook _ => return []
  | .type t =>
    if value = Reserved.identity b || value = t then return [t] else .bounds b value t .done

/-- The join or the meet of types that are taken to be members. -/
def foldTypes (setting : Setting) (b : Bound) (types : List Ty) : Inquiry Ty :=
  foldBounds setting.config.verbosity b (memberStep b) (types.map .type) (Reserved.identity b)
    (types.map .type)

/-! ## Determinism -/

/-- Whether no type has several parents. -/
def isTree (h : Hierarchy) : Bool := h.types.toList.all fun t ↦ (h.parentsOf t).size ≤ 1

/-- All pairs of a list with the element that comes first on the left. -/
def pairs {α : Type} : List α → List (α × α)
  | [] => []
  | a :: rest => rest.map (a, ·) ++ pairs rest

/-- The first pair of types with several least upper bounds. A tree has none. -/
def ambiguousPair (h : Hierarchy) : Inquiry (Option (Ty × Ty)) :=
  if h.isTree then return none
  else Inquiry.find?
    (fun (left, right) ↦ .bounds .leastUpper left right fun types ↦ .done (1 < types.length))
    (pairs h.types.toList)

/-- Whether no pair of types has several least upper bounds. -/
def isDeterministic (h : Hierarchy) : Inquiry Bool := Option.isNone <$> h.ambiguousPair

end Hierarchy

end Taxonomy
