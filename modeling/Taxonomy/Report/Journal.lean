import Taxonomy.Report.Notice

/-!
# Journals

An operation that reports or asks something returns its value together with its *journal*: the
notices it gave and the questions it put to hooks, in order. Nothing an operation computes depends
on a journal, so the value of a composed operation is the composition of the values
(`Journaled.value_bind`).
-/

namespace Taxonomy

/-- Something that happened during an operation. -/
inductive Event where
  | noticed (notice : Notice)
  /-- A hook was asked an operation with the other operand. -/
  | asked (hook : HookId) (operation : Operation) (other : Operand)
deriving DecidableEq

/-- Whether an event is a question to a hook. -/
def Event.isQuestion : Event → Bool
  | .noticed _ => false
  | .asked .. => true

/-- A value and what happened while it was computed. -/
structure Journaled (α : Type) where
  value : α
  events : List Event

namespace Journaled

variable {α β : Type}

instance : Monad Journaled where
  pure value := ⟨value, []⟩
  bind x f := ⟨(f x.value).value, x.events ++ (f x.value).events⟩

/-- Reports a notice. -/
def report (notice : Notice) : Journaled Unit := ⟨(), [.noticed notice]⟩

/-- Reports several notices. -/
def reportAll (notices : List Notice) : Journaled Unit := ⟨(), notices.map .noticed⟩

@[simp] theorem value_pure (a : α) : (pure a : Journaled α).value = a := rfl

@[simp] theorem events_pure (a : α) : (pure a : Journaled α).events = [] := rfl

@[simp] theorem value_bind (x : Journaled α) (f : α → Journaled β) :
    (x >>= f).value = (f x.value).value := rfl

@[simp] theorem events_bind (x : Journaled α) (f : α → Journaled β) :
    (x >>= f).events = x.events ++ (f x.value).events := rfl

@[simp] theorem value_map (f : α → β) (x : Journaled α) : (f <$> x).value = f x.value := rfl

@[simp] theorem events_map (f : α → β) (x : Journaled α) : (f <$> x).events = x.events :=
  List.append_nil _

@[simp] theorem events_report (notice : Notice) :
    (report notice).events = [.noticed notice] := rfl

instance : LawfulMonad Journaled := LawfulMonad.mk' Journaled
  (fun x ↦ congrArg (Journaled.mk x.value) (List.append_nil _))
  (fun _ _ ↦ rfl)
  (fun _ _ _ ↦ congrArg (Journaled.mk _) (List.append_assoc ..))

/-- The value of a fold is the fold of the values. -/
theorem value_foldlM (f : α → β → Journaled α) (a : α) (l : List β) :
    (l.foldlM f a).value = l.foldl (fun a b ↦ (f a b).value) a := by
  induction l generalizing a with
  | nil => rfl
  | cons b rest ih => rw [List.foldlM_cons, value_bind, ih, List.foldl_cons]

/-- The notices given, in order. -/
def notices (x : Journaled α) : List Notice :=
  x.events.filterMap fun
    | .noticed notice => some notice
    | .asked .. => none

@[simp] theorem notices_pure (a : α) : (pure a : Journaled α).notices = [] := rfl

@[simp] theorem notices_bind (x : Journaled α) (f : α → Journaled β) :
    (x >>= f).notices = x.notices ++ (f x.value).notices := List.filterMap_append

@[simp] theorem notices_map (f : α → β) (x : Journaled α) : (f <$> x).notices = x.notices := by
  rw [notices, events_map]
  rfl

@[simp] theorem notices_report (notice : Notice) : (report notice).notices = [notice] := rfl

/-- The questions put to hooks, in order. -/
def questions (x : Journaled α) : List Event := x.events.filter Event.isQuestion

@[simp] theorem questions_pure (a : α) : (pure a : Journaled α).questions = [] := rfl

@[simp] theorem questions_bind (x : Journaled α) (f : α → Journaled β) :
    (x >>= f).questions = x.questions ++ (f x.value).questions := List.filter_append ..

@[simp] theorem questions_map (f : α → β) (x : Journaled α) : (f <$> x).questions = x.questions := by
  rw [questions, events_map]
  rfl

@[simp] theorem questions_report (notice : Notice) : (report notice).questions = [] := rfl

end Journaled

end Taxonomy
