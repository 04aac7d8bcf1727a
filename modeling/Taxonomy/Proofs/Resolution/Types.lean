import Taxonomy.Proofs.Resolution.Stages

/-!
# Types as operands

A question about two types can be asked in two ways: of the types, or of the operands that they are.
The first way goes through the reserved values, the guard that both are members, and the look-up.
The second goes through the same stages for operands, with hooks in between, and swaps the types for
a converse relation only when it looks up. Both ways come to one inquiry (`resolveRelation_type`,
`resolveBounds_type`): no hook takes part where there is none, the guard does not mind the order of
the types, and that equal types do not properly subsume each other is settled before anything is
looked up. So the two ways do not only agree in what they answer, but look up the same in every
representation.
-/

namespace Taxonomy

variable {α : Type} {h : Hierarchy} {setting : Setting} {rel : Relation} {b : Bound} {s t : Ty}

/-! ## What operands decide that are types -/

namespace Setting

/-- Between types there is nobody to ask. -/
theorem consult_type {o : Operation} {accept : Answer → Option α} :
    setting.consult o (.type s) (.type t) accept = pure none := by
  rw [consult, if_pos]
  simp [Operand.isHook]

theorem decideRelation_type : setting.decideRelation rel (.type s) (.type t) =
    pure (Reserved.relation rel (.type s) (.type t)) := by
  rw [decideRelation]
  cases Reserved.relation rel (.type s) (.type t) with
  | some holds => rfl
  | none =>
    dsimp only
    rw [consult_type]
    rfl

theorem decideBounds_type :
    setting.decideBounds b (.type s) (.type t) = pure (Reserved.bounds b s t) := by
  rw [decideBounds, Reserved.operandBounds]
  cases Reserved.bounds b s t with
  | some types => rfl
  | none => exact consult_type

end Setting

/-- How equal types stand to each other is settled. -/
theorem Reserved.ne_of_relation_eq_none
    (hnone : relation rel (.type s) (.type t) = none) : s ≠ t := by
  rintro rfl
  cases rel <;> simp [relation, Relation.orient, Relation.isProper, properlySubsumes,
    subsumes] at hnone

namespace Hierarchy

/-! ## The two ways -/

/-- Asked of types, a relation that is not settled is looked up between members, the general one
first. -/
theorem inquireRelation_eq : h.inquireRelation rel s t =
    match Reserved.relation rel (.type s) (.type t) with
    | some holds => .done holds
    | none =>
      if h.hasType s && h.hasType t then
        .subsumes (rel.orient s t).1 (rel.orient s t).2 .done
      else .done false := by
  cases rel
  case subsumes | properlySubsumes => rfl
  case extending | properlyExtending =>
    rw [Bool.and_comm]
    rfl

/-- A relation of types is the relation of them as operands. -/
theorem resolveRelation_type :
    h.resolveRelation setting rel (.type s) (.type t) = h.inquireRelation rel s t := by
  rw [resolveRelation, Setting.decideRelation_type, inquireRelation_eq]
  cases hsettled : Reserved.relation rel (.type s) (.type t) with
  | some holds => rfl
  | none =>
    have hproper : (rel.isProper && decide (s = t)) = false := by
      rw [decide_eq_false (Reserved.ne_of_relation_eq_none hsettled), Bool.and_false]
    change (if h.hasType s && h.hasType t then
      if rel.isProper && decide (s = t) then Inquiry.done false else _ else _) = _
    rw [hproper]
    rfl

/-- Types are not asked what they think of the bounds. -/
theorem resolveBounds_type :
    h.resolveBounds setting b (.type s) (.type t) = h.inquireBounds b s t := by
  rw [resolveBounds, Setting.decideBounds_type, inquireBounds]
  cases Reserved.bounds b s t <;> rfl

end Hierarchy

/-- **Types are resolved as operands as they are asked about.** In every representation, with any
configuration and any hooks, the relations and the bounds of two types have the same answers either
way, members or not. The same is looked up for them and reported, and what a memo holds afterwards
is the same. -/
theorem Representation.resolves_types_as_asked (r : Representation) (setting : Setting)
    (s t : Ty) :
    (∀ rel, (r.hierarchy.resolveRelation setting rel (.type s) (.type t)).run r =
      (r.hierarchy.inquireRelation rel s t).run r) ∧
    ∀ b, (r.hierarchy.resolveBounds setting b (.type s) (.type t)).run r =
      (r.hierarchy.inquireBounds b s t).run r := by
  refine ⟨fun rel ↦ ?_, fun b ↦ ?_⟩
  · rw [Hierarchy.resolveRelation_type]
  · rw [Hierarchy.resolveBounds_type]

end Taxonomy
