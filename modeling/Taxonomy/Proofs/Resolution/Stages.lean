import Mathlib.Tactic.SplitIfs
import Taxonomy.Resolution.Member

/-!
# The stages of resolution

The four relations and the two bounds are resolved in the same stages, so they are taken together
here as operations with answers. The operands alone are *decided* first: the reserved values settle
an operation, or else it is put to the hooks (`Setting.decide_eq`). What stays open is *looked up*
(`Hierarchy.resolve_eq`), and only between two types, of which no hook is asked anything.
-/

namespace Taxonomy

variable {α β : Type} {h : Hierarchy} {setting : Setting} {o : Operation} {left right : Operand}
  {a : Answer}

/-! ## Operations as one -/

/-- The answer to an operation of which nothing is known. -/
def Operation.denial : Operation → Answer
  | relation _ => .relation false
  | bounds _ => .bounds []

/-- An answer as it is taken for an operation: types are listed in order and once each. An answer of
the other shape is not taken. -/
def Answer.taken? (answer : Answer) : Operation → Option Answer
  | .relation _ => answer.holds?.map .relation
  | .bounds _ => answer.types?.map fun types ↦ .bounds (FinSet.ofList types).toList

/-- What the reserved values settle. -/
def Reserved.settled? : Operation → Operand → Operand → Option Answer
  | .relation r, left, right => (relation r left right).map .relation
  | .bounds b, left, right => (operandBounds b left right).map .bounds

/-- What is reported of an answer that a hook has given. -/
def Operation.report : Operation → Operand → Operand → Answer → List Event
  | relation r, left, right, .relation holds => [.noticed (.hookAnswered r left right holds)]
  | _, _, _, _ => []

namespace Setting

/-- Decides an operation from the operands alone. -/
def decide (setting : Setting) : Operation → Operand → Operand → Journaled (Option Answer)
  | .relation r, left, right => Option.map .relation <$> setting.decideRelation r left right
  | .bounds b, left, right => Option.map .bounds <$> setting.decideBounds b left right

/-- The answer to an operation without a hierarchy. -/
def resolve (setting : Setting) : Operation → Operand → Operand → Journaled Answer
  | .relation r, left, right => .relation <$> setting.relates r left right
  | .bounds b, left, right => .bounds <$> setting.bounds b left right

theorem map_consult (f : α → β) (accept : Answer → Option α) :
    Option.map f <$> setting.consult o left right accept =
      setting.consult o left right fun answer ↦ (accept answer).map f := by
  have hbind : ∀ answer : Option Answer,
      answer.bind (fun answer ↦ (accept answer).map f) = (answer.bind accept).map f :=
    fun _ ↦ Option.map_bind.symm
  simp only [consult, hbind]
  split
  · rfl
  · rw [map_bind]
    refine congrArg _ (funext fun answer ↦ ?_)
    cases answer.bind accept with
    | some _ => rfl
    | none => exact map_bind ..

/-- An operation that the reserved values leave open is put to the hooks. -/
theorem decide_eq : setting.decide o left right =
    match Reserved.settled? o left right with
    | some a => return some a
    | none => do
      let heard ← setting.consult o left right (·.taken? o)
      ⟨(), heard.elim [] (o.report left right)⟩
      return heard := by
  cases o with
  | relation r =>
    rw [decide, decideRelation, Reserved.settled?]
    cases Reserved.relation r left right with
    | some holds => rfl
    | none =>
      simp only [Option.map_none, Answer.taken?, ← map_consult, map_bind, bind_map_left]
      refine congrArg _ (funext fun holds ↦ ?_)
      cases holds <;> rfl
  | bounds b =>
    rw [decide, decideBounds, Reserved.settled?]
    cases Reserved.operandBounds b left right with
    | some types => rfl
    | none =>
      -- no report is made of bounds
      simp only [Option.map_none, Answer.taken?, map_consult, Option.map_map]
      refine (bind_pure _).symm.trans (congrArg _ (funext fun heard ↦ ?_))
      cases heard <;> rfl

theorem resolve_eq : setting.resolve o left right =
    (·.getD o.denial) <$> setting.decide o left right := by
  cases o with
  | relation r =>
    simp only [resolve, relates, decide, Functor.map_map]
    congr 1
    funext holds
    cases holds <;> rfl
  | bounds b =>
    simp only [resolve, bounds, decide, Functor.map_map]
    congr 1
    funext holds
    cases holds <;> rfl

end Setting

namespace Inquiry

/-- What was journaled is noted, and then the inquiry goes on. -/
theorem andThen_ofJournaled (x : Journaled α) (f : α → Inquiry β) :
    (ofJournaled x).andThen f = noteAll x.events (f x.value) := by
  obtain ⟨a, events⟩ := x
  induction events with
  | nil => rfl
  | cons event rest ih => exact congrArg (note event) ih

/-- Notes on the way to an inquiry are made before it is put. -/
theorem run_noteAll (events : List Event) (x : Inquiry α) (r : Representation) :
    (noteAll events x).run r = (⟨(), events⟩ : Journaled Unit) >>= fun _ ↦ x.run r := by
  induction events with
  | nil => rfl
  | cons event rest ih =>
    change (⟨(), [event]⟩ : Journaled Unit) >>= (fun _ ↦ (noteAll rest x).run r) = _
    rw [ih]
    rfl

theorem value_run_noteAll (events : List Event) (r : Representation) :
    ((noteAll events (.done a)).run r).value = (a, r) := by
  rw [run_noteAll]
  rfl

end Inquiry

namespace Hierarchy

/-- The answer to an operation. -/
def resolve (h : Hierarchy) (setting : Setting) : Operation → Operand → Operand → Inquiry Answer
  | .relation r, left, right => .relation <$> h.resolveRelation setting r left right
  | .bounds b, left, right => .bounds <$> h.resolveBounds setting b left right

/-- What is done about an operation that the operands do not settle: members are looked up. -/
def lookUp (h : Hierarchy) : Operation → Operand → Operand → Inquiry Answer
  | .relation r, .type left, .type right =>
    if h.hasType left && h.hasType right then
      if r.isProper && left = right then .done (.relation false)
      else
        let (general, specific) := r.orient left right
        .subsumes general specific fun holds ↦ .done (.relation holds)
    else .done (.relation false)
  | .bounds b, .type left, .type right =>
    if h.hasType left && h.hasType right then
      .bounds b left right fun types ↦ .done (.bounds types)
    else .done (.bounds [])
  | o, _, _ => .done o.denial

/-- **The stages of resolution.** -/
theorem resolve_eq : h.resolve setting o left right =
    (Inquiry.ofJournaled (setting.decide o left right)).andThen fun
      | some a => .done a
      | none => h.lookUp o left right := by
  cases o with
  | relation r =>
    simp only [resolve, resolveRelation, Setting.decide, Inquiry.andThen_ofJournaled,
      Journaled.events_map, Journaled.value_map, map_bind]
    refine (Inquiry.andThen_ofJournaled ..).trans (congrArg _ ?_)
    cases (setting.decideRelation r left right).value with
    | some holds => rfl
    | none =>
      cases left <;> cases right
      case type.type s t =>
        simp only [Option.map_none, lookUp]
        split_ifs <;> rfl
      all_goals rfl
  | bounds b =>
    simp only [resolve, resolveBounds, Setting.decide, Inquiry.andThen_ofJournaled,
      Journaled.events_map, Journaled.value_map, map_bind]
    refine (Inquiry.andThen_ofJournaled ..).trans (congrArg _ ?_)
    cases (setting.decideBounds b left right).value with
    | some types => rfl
    | none =>
      cases left <;> cases right
      case type.type s t =>
        simp only [Option.map_none, lookUp]
        split_ifs <;> rfl
      all_goals rfl

/-- Nothing is looked up for a hook. -/
theorem lookUp_of_isHook (hhook : (left.isHook || right.isHook) = true) :
    h.lookUp o left right = .done o.denial := by
  cases left <;> cases right
  case type.type => cases hhook
  all_goals cases o <;> rfl

end Hierarchy

/-! ## What happens while looking up -/

/-- Whether an event is that rows are made or that a memo is dropped. -/
def Event.isUpkeep : Event → Bool
  | .noticed (.compiled ..) | .noticed (.memoDropped ..) => true
  | _ => false

/-- Nothing happens but that rows are made and memos are dropped. -/
def Journaled.Upkeep (x : Journaled α) : Prop := ∀ event ∈ x.events, event.isUpkeep

namespace Journaled.Upkeep

variable {x : Journaled α} {f : α → Journaled β}

theorem pure (a : α) : Upkeep (Pure.pure a) := nofun

theorem bind (hx : x.Upkeep) (hf : (f x.value).Upkeep) : (x >>= f).Upkeep :=
  fun event hevent ↦ (List.mem_append.1 hevent).elim (hx event) (hf event)

/-- No hook is asked anything. -/
theorem questions_eq_nil (hx : x.Upkeep) : x.questions = [] := by
  refine List.filter_eq_nil_iff.2 fun event hevent hquestion ↦ ?_
  cases event with
  | noticed notice => cases hquestion
  | asked id operation other => cases hx _ hevent

end Journaled.Upkeep

theorem Compiled.upkeep_refresh (c : Compiled) : c.refresh.Upkeep := by
  rw [refresh]
  split
  · exact .pure c
  · simp [Journaled.Upkeep, Event.isUpkeep]

theorem Memo.upkeep_refresh (memo : Memo) (generation : Nat) :
    (memo.refresh generation).Upkeep := by
  rw [refresh]
  split
  · exact .pure memo
  · cases memo.entries.isEmpty <;> simp [Journaled.Upkeep, Event.isUpkeep]

namespace Representation

theorem upkeep_lookUpSubsumes (r : Representation) (s t : Ty) :
    (r.lookUpSubsumes s t).Upkeep := by
  induction r with
  | plain h => exact .pure _
  | compiled c =>
    rw [lookUpSubsumes, Compiled.lookUpSubsumes]
    refine .bind (.bind c.upkeep_refresh ?_) (.pure _)
    split
    · exact .pure _
    · exact .pure _
  | memoized memo inner ih => exact ih.bind (.pure _)

theorem upkeep_lookUpBounds (r : Representation) (b : Bound) (s t : Ty) :
    (r.lookUpBounds b s t).Upkeep := by
  induction r with
  | plain h => exact .pure _
  | compiled c =>
    rw [lookUpBounds, Compiled.lookUpBounds]
    refine .bind ?_ (.pure _)
    split
    · exact .pure _
    · refine .bind c.upkeep_refresh ?_
      split
      · exact .pure _
      · exact .pure _
  | memoized memo inner ih =>
    refine .bind (memo.upkeep_refresh _) ?_
    dsimp only
    split
    · exact .pure _
    · exact ih.bind (.pure _)

end Representation

/-- Looking up asks no hook anything. -/
theorem Hierarchy.questions_run_lookUp (r : Representation) :
    ((h.lookUp o left right).run r).questions = [] := by
  cases left <;> cases right
  case type.type s t =>
    cases o with
    | relation rel =>
      rw [lookUp]
      split_ifs
      · rfl
      · exact ((r.upkeep_lookUpSubsumes _ _).bind (.pure _)).questions_eq_nil
      · rfl
    | bounds b =>
      rw [lookUp]
      split_ifs
      · exact ((r.upkeep_lookUpBounds b s t).bind (.pure _)).questions_eq_nil
      · rfl
  all_goals cases o <;> rfl

end Taxonomy
