import Taxonomy.Proofs.Resolution.Stages

/-!
# What hooks are asked

Hooks are *barred* from an operation if they may not be consulted, if there is none, or if the
operands are identical or reserved (`Barred`). Then nothing that resolution does depends on them.
Otherwise they are asked in turn until one says something that fits (`Hooks.Heard`), and nothing is
looked up whatever they say (`Hierarchy.resolve_hears_or_bars`).
-/

namespace Taxonomy

variable {h : Hierarchy} {hooks : Hooks} {config : Config} {o : Operation} {x y : Operand}
  {a : Answer}

/-! ## What hooks say -/

/-- `x` answers `o` with `y` as the other operand, and the answer is taken as `a`: types are listed
in order and once each. An answer of the other shape is not taken. -/
inductive Hooks.Says (hooks : Hooks) : Operand → Operation → Operand → Answer → Prop
  | relation {id : HookId} {r : Relation} {y : Operand} {holds : Bool}
      (hanswer : (hooks id).consult (.relation r) y = some (.relation holds)) :
      hooks.Says (.hook id) (.relation r) y (.relation holds)
  | bounds {id : HookId} {b : Bound} {y : Operand} {types listed : List Ty}
      (hanswer : (hooks id).consult (.bounds b) y = some (.bounds types))
      (hascending : listed.Pairwise fun s t ↦ compare s t = .lt)
      (hmem : ∀ t, t ∈ listed ↔ t ∈ types) :
      hooks.Says (.hook id) (.bounds b) y (.bounds listed)

/-- What an operand says, if it says anything that is taken. -/
def Hooks.said? (hooks : Hooks) (o : Operation) (other : Operand) : Operand → Option Answer
  | .type _ => none
  | .hook id => ((hooks id).consult o other).bind (·.taken? o)

theorem Answer.taken?_converse (answer : Answer) : answer.taken? o.converse = answer.taken? o := by
  cases o <;> rfl

theorem Hooks.said?_eq_some_iff : hooks.said? o y x = some a ↔ hooks.Says x o y a := by
  constructor
  · intro hsaid
    cases x with
    | type => cases hsaid
    | hook id =>
      obtain ⟨answer, hanswer, htaken⟩ := Option.bind_eq_some_iff.1 hsaid
      cases o with
      | relation r =>
        cases answer with
        | relation holds =>
          cases htaken
          exact .relation hanswer
        | bounds => cases htaken
      | bounds b =>
        cases answer with
        | relation => cases htaken
        | bounds types =>
          cases htaken
          exact .bounds hanswer (FinSet.ascending _) fun t ↦
            FinSet.mem_toList.trans FinSet.mem_ofList
  · intro hanswer
    cases hanswer with
    | relation hanswer => exact Option.bind_eq_some_iff.2 ⟨_, hanswer, rfl⟩
    | @bounds id b y types listed hanswer hascending hmem =>
      have hlisted : (FinSet.ofList types).toList = listed :=
        FinSet.toList_eq hascending fun t ↦ (hmem t).trans FinSet.mem_ofList.symm
      exact Option.bind_eq_some_iff.2 ⟨_, hanswer, congrArg (some ∘ Answer.bounds) hlisted⟩

theorem Hooks.said?_eq_none_iff : hooks.said? o y x = none ↔ ∀ a, ¬ hooks.Says x o y a := by
  simp only [← said?_eq_some_iff, Option.eq_none_iff_forall_ne_some, ne_eq]

/-- The question that an operand is asked. -/
def Operand.question (x : Operand) (o : Operation) (other : Operand) : List Event :=
  match x with
  | .type _ => []
  | .hook id => [.asked id o other]

/-- The operands are asked in turn until one says something. -/
inductive Hooks.Heard (hooks : Hooks) (o : Operation) (left right : Operand) :
    List Event → Answer → Prop
  /-- The left operand decides. -/
  | left {a : Answer} (hleft : hooks.Says left o right a) :
      Heard hooks o left right (left.question o right ++ o.report left right a) a
  /-- The right operand decides. -/
  | right {a : Answer} (hleft : ∀ a, ¬ hooks.Says left o right a)
      (hright : hooks.Says right o.converse left a) :
      Heard hooks o left right
        (left.question o right ++ right.question o.converse left ++ o.report left right a) a
  /-- Neither decides. -/
  | neither (hleft : ∀ a, ¬ hooks.Says left o right a)
      (hright : ∀ a, ¬ hooks.Says right o.converse left a) :
      Heard hooks o left right (left.question o right ++ right.question o.converse left) o.denial

/-! ## Hooks barred -/

/-- Hooks have no say in an operation on two operands. -/
inductive Barred (config : Config) : Operation → Operand → Operand → Prop
  /-- They are not to be consulted. -/
  | off {o : Operation} {x y : Operand} (hoff : config.consultHooks = false) : Barred config o x y
  /-- There is none. -/
  | types {o : Operation} {x y : Operand} (hhook : (x.isHook || y.isHook) = false) :
      Barred config o x y
  /-- An operand is related to itself, or not, whatever it says. -/
  | identical (r : Relation) (x : Operand) : Barred config (.relation r) x x
  /-- A reserved value is related to every operand in the same way. -/
  | reserved {r : Relation} {x y : Operand} {t : Ty} (ht : t.isReserved)
      (hmem : x = .type t ∨ y = .type t) : Barred config (.relation r) x y
  /-- The absorbing value has the same bounds with every operand. -/
  | absorbing {b : Bound} {x y : Operand}
      (hmem : x = .type (Reserved.absorbing b) ∨ y = .type (Reserved.absorbing b)) :
      Barred config (.bounds b) x y

/-- With a hook among the operands, a relation is settled if they are identical or one of them is
reserved. -/
theorem Reserved.isSome_relation_iff {r : Relation} (hhook : (x.isHook || y.isHook) = true) :
    (relation r x y).isSome ↔
      x = y ∨ ∃ t : Ty, t.isReserved ∧ (x = .type t ∨ y = .type t) := by
  cases x with
  | type s =>
    cases y with
    | type t => cases hhook
    | hook id =>
      cases r <;> cases s <;>
        simp [relation, Relation.orient, Relation.generalFirst, Ty.isReserved]
  | hook id =>
    cases y with
    | type t =>
      cases r <;> cases t <;>
        simp [relation, Relation.orient, Relation.generalFirst, Ty.isReserved]
    | hook id' =>
      cases r <;> simp [relation, Relation.orient, Relation.generalFirst, @eq_comm _ id']

/-- With a hook among the operands, bounds are settled if one of them is the absorbing value. -/
theorem Reserved.isSome_operandBounds_iff {b : Bound} (hhook : (x.isHook || y.isHook) = true) :
    (operandBounds b x y).isSome ↔ x = .type (absorbing b) ∨ y = .type (absorbing b) := by
  cases x with
  | type s =>
    cases y with
    | type t => cases hhook
    | hook id => simp [operandBounds, apply_ite Option.isSome]
  | hook id => simp [operandBounds, apply_ite Option.isSome]

/-- Unless hooks are off or there is none, they are barred where the reserved values settle. -/
theorem barred_iff (hon : config.consultHooks = true) (hhook : (x.isHook || y.isHook) = true) :
    Barred config o x y ↔ (Reserved.settled? o x y).isSome := by
  constructor
  · intro hbarred
    cases hbarred with
    | off hoff => simp [hoff] at hon
    | types hnone => simp [hnone] at hhook
    | identical r =>
      exact Option.isSome_map.trans ((Reserved.isSome_relation_iff hhook).2 (.inl rfl))
    | reserved ht hmem =>
      exact Option.isSome_map.trans ((Reserved.isSome_relation_iff hhook).2 (.inr ⟨_, ht, hmem⟩))
    | absorbing hmem =>
      exact Option.isSome_map.trans ((Reserved.isSome_operandBounds_iff hhook).2 hmem)
  · intro hsettled
    cases o with
    | relation r =>
      rw [Reserved.settled?, Option.isSome_map, Reserved.isSome_relation_iff hhook] at hsettled
      rcases hsettled with rfl | ⟨t, ht, hmem⟩
      · exact .identical r x
      · exact .reserved ht hmem
    | bounds b =>
      rw [Reserved.settled?, Option.isSome_map, Reserved.isSome_operandBounds_iff hhook]
        at hsettled
      exact .absorbing hsettled

/-- Where hooks are not barred they may be consulted, there is one, and nothing is settled. -/
theorem open_of_not_barred (hopen : ¬ Barred config o x y) :
    config.consultHooks = true ∧ (x.isHook || y.isHook) = true ∧
      Reserved.settled? o x y = none := by
  have hon : config.consultHooks = true := Bool.not_eq_false _ ▸ fun hoff ↦ hopen (.off hoff)
  have hhook : (x.isHook || y.isHook) = true :=
    Bool.not_eq_false _ ▸ fun hnone ↦ hopen (.types hnone)
  rw [barred_iff hon hhook, Option.not_isSome_iff_eq_none] at hopen
  exact ⟨hon, hhook, hopen⟩

/-! ## Hearing hooks -/

/-- Asking an operand comes to what it says. -/
theorem Setting.taken_ask : (Setting.ask ⟨config, hooks⟩ o y x).value.bind (·.taken? o) =
    hooks.said? o y x := by
  cases x <;> rfl

theorem Setting.taken_ask_converse :
    (Setting.ask ⟨config, hooks⟩ o.converse y x).value.bind (·.taken? o) =
      hooks.said? o.converse y x := by
  simp only [← Answer.taken?_converse (o := o)]
  exact taken_ask

theorem Setting.events_ask : (Setting.ask ⟨config, hooks⟩ o y x).events = x.question o y := by
  cases x <;> rfl

/-- The right operand is asked if the left one has said nothing. -/
theorem Setting.consult_eq (hon : config.consultHooks = true)
    (hhook : (x.isHook || y.isHook) = true) :
    Setting.consult ⟨config, hooks⟩ o x y (·.taken? o) =
      match hooks.said? o y x with
      | some a => ⟨some a, x.question o y⟩
      | none => ⟨hooks.said? o.converse x y, x.question o y ++ y.question o.converse x⟩ := by
  have hbind : ∀ {α β : Type} (x : Journaled α) (f : α → Journaled β),
      x >>= f = ⟨(f x.value).value, x.events ++ (f x.value).events⟩ := fun _ _ ↦ rfl
  rw [consult, if_neg (by simp [hon, hhook])]
  simp only [hbind, taken_ask, taken_ask_converse, events_ask]
  cases hooks.said? o y x <;> simp

/-- Without hooks the reserved values decide, or nothing does. -/
theorem Setting.decide_of_barred (hbarred : Barred config o x y) :
    Setting.decide ⟨config, hooks⟩ o x y = pure (Reserved.settled? o x y) := by
  rw [decide_eq]
  cases hsettled : Reserved.settled? o x y with
  | some a => rfl
  | none =>
    have hoff : (!config.consultHooks || !(x.isHook || y.isHook)) = true := by
      refine Bool.not_eq_false _ ▸ fun hon ↦ ?_
      rw [Bool.or_eq_false_iff, Bool.not_eq_false', Bool.not_eq_false'] at hon
      rw [barred_iff hon.1 hon.2, hsettled] at hbarred
      cases hbarred
    rw [consult, if_pos hoff]
    rfl

/-- **Where hooks are not barred, they are heard.** -/
theorem Setting.heard_decide (hopen : ¬ Barred config o x y) :
    hooks.Heard o x y (Setting.decide ⟨config, hooks⟩ o x y).events
      ((Setting.decide ⟨config, hooks⟩ o x y).value.getD o.denial) := by
  obtain ⟨hon, hhook, hsettled⟩ := open_of_not_barred hopen
  rw [decide_eq, hsettled]
  dsimp only
  rw [consult_eq hon hhook]
  cases hleft : hooks.said? o y x with
  | some a => simpa using Hooks.Heard.left (Hooks.said?_eq_some_iff.1 hleft)
  | none =>
    have hleft := Hooks.said?_eq_none_iff.1 hleft
    cases hright : hooks.said? o.converse x y with
    | some a => simpa using Hooks.Heard.right hleft (Hooks.said?_eq_some_iff.1 hright)
    | none => simpa using Hooks.Heard.neither hleft (Hooks.said?_eq_none_iff.1 hright)

/-- Where hooks are not barred, nothing is looked up whatever they say. -/
theorem Hierarchy.resolve_of_not_barred (hopen : ¬ Barred config o x y) :
    h.resolve ⟨config, hooks⟩ o x y =
      Inquiry.noteAll (Setting.decide ⟨config, hooks⟩ o x y).events
        (.done ((Setting.decide ⟨config, hooks⟩ o x y).value.getD o.denial)) := by
  obtain ⟨-, hhook, -⟩ := open_of_not_barred hopen
  rw [resolve_eq, Inquiry.andThen_ofJournaled, lookUp_of_isHook hhook]
  cases (Setting.decide ⟨config, hooks⟩ o x y).value <;> rfl

/-- Where hooks are barred, what the reserved values leave open is looked up. -/
theorem Hierarchy.resolve_of_barred (hbarred : Barred config o x y) :
    h.resolve ⟨config, hooks⟩ o x y =
      match Reserved.settled? o x y with
      | some a => .done a
      | none => h.lookUp o x y := by
  rw [resolve_eq, Setting.decide_of_barred hbarred]
  rfl

/-- **Hooks are heard in turn, or barred.** Where they are barred they are asked nothing, and
resolution does the same in front of every representation whatever they would have said. Elsewhere
the left operand is asked first, and the right one the converse question unless the left one has
said something that fits. The first answer that fits decides, and without one the answer is no or
that there are no bounds; in no case is anything looked up. -/
theorem Hierarchy.resolve_hears_or_bars :
    (Barred config o x y → ∀ hooks hooks' (r : Representation),
      (h.resolve ⟨config, hooks⟩ o x y).run r = (h.resolve ⟨config, hooks'⟩ o x y).run r ∧
      ((h.resolve ⟨config, hooks⟩ o x y).run r).questions = []) ∧
    (¬ Barred config o x y → ∀ hooks : Hooks, ∃ events a, hooks.Heard o x y events a ∧
      h.resolve ⟨config, hooks⟩ o x y = Inquiry.noteAll events (.done a)) := by
  constructor
  · intro hbarred hooks hooks' r
    rw [resolve_of_barred hbarred, resolve_of_barred hbarred]
    refine ⟨rfl, ?_⟩
    cases Reserved.settled? o x y with
    | some a => rfl
    | none => exact questions_run_lookUp r
  · intro hopen hooks
    exact ⟨_, _, Setting.heard_decide hopen, resolve_of_not_barred hopen⟩

/-- Hooks of which `left` always gives one answer and every other one another. -/
def voices (ofLeft ofOthers : Answer) : Hooks := fun id ↦
  .predicate fun _ _ ↦ some (if id = "left" then ofLeft else ofOthers)

/-- The left hook has no fitting answer to a relation, so the right one is asked as well and
decides; with `top` on the right neither is asked. -/
theorem resolve_hears_or_bars_voices :
    let h := Hierarchy.new "r"
    let hooks := voices (.bounds [.named "b"]) (.relation true)
    ¬ Barred {} (.relation .subsumes) (.hook "left") (.hook "right") ∧
    (∃ events a, hooks.Heard (.relation .subsumes) (.hook "left") (.hook "right") events a ∧
      Inquiry.noteAll events (.done a) =
        .note (.asked "left" (.relation .subsumes) (.hook "right"))
          (.note (.asked "right" (.relation .extending) (.hook "left"))
            (.note (.noticed (.hookAnswered .subsumes (.hook "left") (.hook "right") true))
              (.done (.relation true))))) ∧
    Barred {} (.relation .subsumes) (.hook "left") (.type .top) ∧
    ((h.resolve ⟨{}, hooks⟩ (.relation .subsumes) (.hook "left") (.type .top)).run
      (.plain h)).questions = [] := by
  intro h hooks
  have hopen : ¬ Barred {} (.relation .subsumes) (.hook "left") (.hook "right") := by
    rw [barred_iff rfl rfl]
    decide
  have hbarred : Barred {} (.relation .subsumes) (.hook "left") (.type .top) :=
    .reserved (t := .top) rfl (.inr rfl)
  obtain ⟨events, a, hheard, heq⟩ := (Hierarchy.resolve_hears_or_bars (h := h)).2 hopen hooks
  refine ⟨hopen, ⟨events, a, hheard, heq.symm⟩, hbarred, ?_⟩
  exact (Hierarchy.resolve_hears_or_bars.1 hbarred hooks hooks (.plain h)).2

end Taxonomy
