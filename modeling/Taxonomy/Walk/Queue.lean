/-!
# Queues

A `Queue` keeps the elements that wait in two lists, one to take from and one to add to, latest
first. The second is turned over when the first runs out, so each element is moved once however
long the queue is.

The view is `toList`, the elements in the order in which they come out. `toList_pushAll`,
`pop?_eq_none_iff` and `toList_of_pop?` say what the operations do to it.
-/

namespace Taxonomy

/-- Elements that wait, first in, first out. -/
structure Queue (α : Type) where
  /-- The elements to take from. -/
  front : List α
  /-- The elements added since, latest first. -/
  back : List α

namespace Queue

variable {α : Type}

/-- The elements in the order in which they come out. -/
def toList (queue : Queue α) : List α := queue.front ++ queue.back.reverse

/-- A queue of the elements of a list. -/
def ofList (l : List α) : Queue α := ⟨l, []⟩

/-- Adds elements, one after another. -/
def pushAll (queue : Queue α) (l : List α) : Queue α := ⟨queue.front, l.reverseAux queue.back⟩

/-- The first element and the queue without it. -/
def pop? (queue : Queue α) : Option (α × Queue α) :=
  match queue.front with
  | a :: front => some (a, ⟨front, queue.back⟩)
  | [] =>
    match queue.back.reverse with
    | a :: front => some (a, ofList front)
    | [] => none

@[simp] theorem toList_ofList (l : List α) : (ofList l).toList = l := List.append_nil l

@[simp] theorem toList_pushAll (queue : Queue α) (l : List α) :
    (queue.pushAll l).toList = queue.toList ++ l := by
  simp [toList, pushAll, List.reverseAux_eq]

theorem pop?_eq_none_iff {queue : Queue α} : queue.pop? = none ↔ queue.toList = [] := by
  obtain ⟨front, back⟩ := queue
  cases front with
  | cons a front => simp [pop?, toList]
  | nil =>
    cases h : back.reverse with
    | nil => simp [pop?, toList, h]
    | cons a front => simp [pop?, toList, h]

theorem toList_of_pop? {queue rest : Queue α} {a : α} (h : queue.pop? = some (a, rest)) :
    queue.toList = a :: rest.toList := by
  obtain ⟨front, back⟩ := queue
  cases front with
  | cons b front =>
    simp only [pop?, Option.some.injEq, Prod.mk.injEq] at h
    obtain ⟨rfl, rfl⟩ := h
    rfl
  | nil =>
    cases hback : back.reverse with
    | nil => simp [pop?, hback] at h
    | cons b front =>
      simp only [pop?, hback, Option.some.injEq, Prod.mk.injEq] at h
      obtain ⟨rfl, rfl⟩ := h
      simp [toList, ofList, hback]

end Queue

end Taxonomy
