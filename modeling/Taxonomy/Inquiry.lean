import Taxonomy.Representation.Basic

/-!
# Inquiries

An inquiry is a question about a hierarchy whose answer may depend on look-ups. It is a tree: an
inner node is a look-up with a branch for each answer, or an event that is noted on the way, and a
leaf is the final answer. The whole algebra is written as inquiries, so that it is written once and
can be put to every representation.

`Inquiry.run` puts an inquiry to a representation. `Inquiry.answer` puts it to a hierarchy that
looks up by walking; that is the meaning every representation has to agree with.
-/

namespace Taxonomy

/-- A question about a hierarchy, as a tree of look-ups. -/
inductive Inquiry (α : Type) where
  | done (answer : α)
  | subsumes (general specific : Ty) (next : Bool → Inquiry α)
  | bounds (b : Bound) (left right : Ty) (next : List Ty → Inquiry α)
  | note (event : Event) (next : Inquiry α)

namespace Inquiry

variable {α β : Type}

/-- Goes on with `f` at every leaf. -/
def andThen (f : α → Inquiry β) : Inquiry α → Inquiry β
  | done a => f a
  | subsumes general specific next => subsumes general specific fun holds ↦ (next holds).andThen f
  | bounds b left right next => bounds b left right fun types ↦ (next types).andThen f
  | note event next => note event (next.andThen f)

instance : Monad Inquiry where
  pure := done
  bind x f := x.andThen f

@[simp] theorem pure_eq (a : α) : (pure a : Inquiry α) = done a := rfl

@[simp] theorem bind_eq (x : Inquiry α) (f : α → Inquiry β) : x >>= f = x.andThen f := rfl

instance : LawfulMonad Inquiry := LawfulMonad.mk' Inquiry
  (fun x ↦ by
    show x.andThen done = x
    induction x with
    | done _ => rfl
    | subsumes _ _ _ ih => exact congrArg _ (funext ih)
    | bounds _ _ _ _ ih => exact congrArg _ (funext ih)
    | note _ _ ih => exact congrArg _ ih)
  (fun _ _ ↦ rfl)
  (fun x f g ↦ by
    show (x.andThen f).andThen g = x.andThen fun a ↦ (f a).andThen g
    induction x with
    | done _ => rfl
    | subsumes _ _ _ ih => exact congrArg _ (funext ih)
    | bounds _ _ _ _ ih => exact congrArg _ (funext ih)
    | note _ _ ih => exact congrArg _ ih)

/-- Notes events in order, then goes on. -/
def noteAll (events : List Event) (next : Inquiry α) : Inquiry α := events.foldr note next

/-- An inquiry that looks nothing up. -/
def ofJournaled (x : Journaled α) : Inquiry α := noteAll x.events (done x.value)

instance : MonadLift Journaled Inquiry := ⟨ofJournaled⟩

/-! ## Putting an inquiry -/

/-- Puts an inquiry to a representation. -/
def run : Inquiry α → Representation → Journaled (α × Representation)
  | done a, r => return (a, r)
  | subsumes general specific next, r => do
    let (holds, r) ← r.lookUpSubsumes general specific
    (next holds).run r
  | bounds b left right next, r => do
    let (types, r) ← r.lookUpBounds b left right
    (next types).run r
  | note event next, r => do
    ⟨(), [event]⟩
    next.run r

/-- Puts an inquiry to a hierarchy that looks up by walking. -/
def answer (h : Hierarchy) : Inquiry α → α
  | done a => a
  | subsumes general specific next => (next (h.subsumes general specific)).answer h
  | bounds b left right next => (next (h.bounds b left right).toList).answer h
  | note _ next => next.answer h

@[simp] theorem answer_done (h : Hierarchy) (a : α) : (done a).answer h = a := rfl

@[simp] theorem answer_andThen (h : Hierarchy) (x : Inquiry α) (f : α → Inquiry β) :
    (x.andThen f).answer h = (f (x.answer h)).answer h := by
  induction x with
  | done _ => rfl
  | subsumes _ _ _ ih => exact ih _
  | bounds _ _ _ _ ih => exact ih _
  | note _ _ ih => exact ih

/-- What is only reported does not change an answer. -/
@[simp] theorem answer_liftM (h : Hierarchy) (x : Journaled α) :
    (liftM x : Inquiry α).answer h = x.value := by
  suffices ∀ events, (noteAll events (done x.value)).answer h = x.value from this x.events
  intro events
  induction events with
  | nil => rfl
  | cons _ _ ih => exact ih

/-- A plain hierarchy answers by walking and does not change. -/
theorem value_run_plain (h : Hierarchy) (x : Inquiry α) :
    (x.run (.plain h)).value = (x.answer h, .plain h) := by
  induction x with
  | done _ => rfl
  | subsumes _ _ _ ih => exact ih _
  | bounds _ _ _ _ ih => exact ih _
  | note _ _ ih => exact ih

/-! ## Searching by inquiry

These run through a list only as far as the answer calls for. -/

/-- Whether some element passes. -/
def any (p : α → Inquiry Bool) : List α → Inquiry Bool
  | [] => return false
  | a :: rest => do if ← p a then return true else any p rest

/-- The first element that passes. -/
def find? (p : α → Inquiry Bool) : List α → Inquiry (Option α)
  | [] => return none
  | a :: rest => do if ← p a then return some a else find? p rest

/-- The elements that pass, after those kept already, which are given latest first. -/
def filterOnto (p : α → Inquiry Bool) (kept : List α) : List α → Inquiry (List α)
  | [] => return kept.reverse
  | a :: rest => do if ← p a then filterOnto p (a :: kept) rest else filterOnto p kept rest

/-- The elements that pass. -/
def filter (p : α → Inquiry Bool) (l : List α) : Inquiry (List α) := filterOnto p [] l

theorem answer_any (h : Hierarchy) (p : α → Inquiry Bool) (l : List α) :
    (any p l).answer h = l.any fun a ↦ (p a).answer h := by
  induction l with
  | nil => rfl
  | cons a rest ih =>
    rw [any, bind_eq, answer_andThen, List.any_cons, ← ih]
    cases (p a).answer h <;> rfl

theorem answer_find? (h : Hierarchy) (p : α → Inquiry Bool) (l : List α) :
    (find? p l).answer h = l.find? fun a ↦ (p a).answer h := by
  induction l with
  | nil => rfl
  | cons a rest ih =>
    rw [find?, bind_eq, answer_andThen, List.find?_cons, ← ih]
    cases (p a).answer h <;> rfl

theorem answer_filterOnto (h : Hierarchy) (p : α → Inquiry Bool) (kept l : List α) :
    (filterOnto p kept l).answer h = kept.reverse ++ l.filter fun a ↦ (p a).answer h := by
  induction l generalizing kept with
  | nil => simp [filterOnto]
  | cons a rest ih =>
    rw [filterOnto, bind_eq, answer_andThen]
    cases hp : (p a).answer h <;> simp [ih, hp]

theorem answer_filter (h : Hierarchy) (p : α → Inquiry Bool) (l : List α) :
    (filter p l).answer h = l.filter fun a ↦ (p a).answer h := answer_filterOnto ..

end Inquiry

end Taxonomy
