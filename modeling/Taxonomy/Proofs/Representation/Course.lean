import Taxonomy.Proofs.Representation.Agreement

/-!
# Courses of inquiries

An inquiry is a tree, and its *course* is the one path through it that the answers lead along. What
is looked up on this path (`Inquiry.lookUps`) decides what becomes of the representation, down to
the counts of a memo.

So inquiries can do the same without being the same tree. They may differ in branches that no answer
leads into (`Inquiry.SameCourse.run_eq`), or in notices alone (`Inquiry.run_eq_of_hushed_eq`,
`Inquiry.lookUps_eq_of_hushed_eq`).
-/

namespace Taxonomy

variable {α β : Type}

/-- How a journaled operation goes on matters for its value alone. -/
theorem Journaled.bind_congr_value {x : Journaled α} {f g : α → Journaled β}
    (hfg : f x.value = g x.value) : x >>= f = x >>= g :=
  congrArg (fun y : Journaled β ↦ Journaled.mk y.value (x.events ++ y.events)) hfg

/-- Something that is looked up in a representation. -/
inductive LookUp where
  | subsumes (general specific : Ty)
  | bounds (b : Bound) (left right : Ty)
deriving DecidableEq

namespace Inquiry

variable {h : Hierarchy} {r : Representation} {x y : Inquiry α}

/-- What is looked up when an inquiry is put to a representation, in order. -/
def lookUps : Inquiry α → Representation → List LookUp
  | done _, _ => []
  | subsumes general specific next, r =>
    let (holds, r) := (r.lookUpSubsumes general specific).value
    .subsumes general specific :: (next holds).lookUps r
  | bounds b left right next, r =>
    let (types, r) := (r.lookUpBounds b left right).value
    .bounds b left right :: (next types).lookUps r
  | note _ next, r => next.lookUps r

/-- What an inquiry goes on with is put to the representation it leaves. -/
theorem run_andThen (x : Inquiry α) (f : α → Inquiry β) (r : Representation) :
    (x.andThen f).run r = x.run r >>= fun (a, r') ↦ (f a).run r' := by
  induction x generalizing r with
  | done a => exact (pure_bind (m := Journaled) ..).symm
  | subsumes general specific next ih =>
    simp only [andThen, run, bind_assoc, ih]
  | bounds b left right next ih =>
    simp only [andThen, run, bind_assoc, ih]
  | note event next ih =>
    simp only [andThen, run, bind_assoc, ih]

/-! ## The same course -/

/-- Two inquiries are the same on the path that the answers of a hierarchy lead along. -/
inductive SameCourse (h : Hierarchy) : Inquiry α → Inquiry α → Prop
  | done (a : α) : SameCourse h (.done a) (.done a)
  | subsumes {general specific : Ty} {next next' : Bool → Inquiry α}
      (hnext : SameCourse h (next (h.subsumes general specific))
        (next' (h.subsumes general specific))) :
      SameCourse h (.subsumes general specific next) (.subsumes general specific next')
  | bounds {b : Bound} {left right : Ty} {next next' : List Ty → Inquiry α}
      (hnext : SameCourse h (next (h.bounds b left right).toList)
        (next' (h.bounds b left right).toList)) :
      SameCourse h (.bounds b left right next) (.bounds b left right next')
  | note {event : Event} {next next' : Inquiry α} (hnext : SameCourse h next next') :
      SameCourse h (.note event next) (.note event next')

namespace SameCourse

theorem refl (x : Inquiry α) : x.SameCourse h x := by
  induction x with
  | done a => exact .done a
  | subsumes general specific next ih => exact .subsumes (ih _)
  | bounds b left right next ih => exact .bounds (ih _)
  | note event next ih => exact .note ih

/-- After the same inquiry it matters only how the two go on from its answer. -/
theorem andThen (x : Inquiry α) {f f' : α → Inquiry β}
    (hf : (f (x.answer h)).SameCourse h (f' (x.answer h))) :
    (x.andThen f).SameCourse h (x.andThen f') := by
  induction x with
  | done a => exact hf
  | subsumes general specific next ih => exact .subsumes (ih _ hf)
  | bounds b left right next ih => exact .bounds (ih _ hf)
  | note event next ih => exact .note (ih hf)

theorem answer_eq (hxy : x.SameCourse h y) : x.answer h = y.answer h := by
  induction hxy with
  | done a => rfl
  | subsumes _ ih => exact ih
  | bounds _ ih => exact ih
  | note _ ih => exact ih

/-- **Inquiries that take the same course are run alike** by every sound representation: they come
to the same, look up, report and ask the same and leave the same representation. -/
theorem run_eq (hxy : x.SameCourse h y) (hs : r.Sound) (hm : r.hierarchy.Mirrored)
    (hr : r.hierarchy = h) : x.run r = y.run r ∧ x.lookUps r = y.lookUps r := by
  induction hxy generalizing r with
  | done a => exact ⟨rfl, rfl⟩
  -- a look-up gives the answer that walking gives, so it leads into the branches that agree
  | @subsumes general specific next next' _ ih =>
    subst hr
    have hfound := hs.lookUpSubsumes hm general specific
    have hlater := ih hfound.sound (hfound.hierarchy_eq.symm ▸ hm) hfound.hierarchy_eq
    rw [← hfound.eq_answer] at hlater
    exact ⟨Journaled.bind_congr_value hlater.1, congrArg (List.cons _) hlater.2⟩
  | @bounds b left right next next' _ ih =>
    subst hr
    have hfound := hs.lookUpBounds hm b left right
    have hlater := ih hfound.sound (hfound.hierarchy_eq.symm ▸ hm) hfound.hierarchy_eq
    rw [← hfound.eq_answer] at hlater
    exact ⟨Journaled.bind_congr_value hlater.1, congrArg (List.cons _) hlater.2⟩
  | note _ ih =>
    have hlater := ih hs hm hr
    exact ⟨Journaled.bind_congr_value hlater.1, hlater.2⟩

end SameCourse

/-! ## Inquiries without their notices -/

/-- An inquiry without the notices on the way. -/
def hushed : Inquiry α → Inquiry α
  | done a => done a
  | subsumes general specific next => subsumes general specific fun holds ↦ (next holds).hushed
  | bounds b left right next => bounds b left right fun types ↦ (next types).hushed
  | note event next => if event.isQuestion then note event next.hushed else next.hushed

@[simp] theorem hushed_andThen (x : Inquiry α) (f : α → Inquiry β) :
    (x.andThen f).hushed = x.hushed.andThen fun a ↦ (f a).hushed := by
  induction x with
  | done a => rfl
  | subsumes general specific next ih => exact congrArg _ (funext ih)
  | bounds b left right next ih => exact congrArg _ (funext ih)
  | note event next ih =>
    rw [andThen, hushed, hushed, ih]
    split <;> rfl

theorem hushed_map (f : α → β) (x : Inquiry α) : (f <$> x).hushed = f <$> x.hushed :=
  hushed_andThen x _

/-- Notices do not matter to what an inquiry comes to, nor to the questions on the way. -/
theorem run_hushed (x : Inquiry α) (r : Representation) :
    (x.hushed.run r).value = (x.run r).value ∧
      (x.hushed.run r).questions = (x.run r).questions := by
  induction x generalizing r with
  | done a => exact ⟨rfl, rfl⟩
  | subsumes general specific next ih =>
    simp only [hushed, run, Journaled.value_bind, Journaled.questions_bind, ih, and_self]
  | bounds b left right next ih =>
    simp only [hushed, run, Journaled.value_bind, Journaled.questions_bind, ih, and_self]
  | note event next ih =>
    rw [hushed]
    split
    · rename_i hquestion
      simp only [run, Journaled.value_bind, Journaled.questions_bind, ih, and_self]
    · rename_i hnotice
      simp only [run, Journaled.value_bind, Journaled.questions_bind, ih]
      simp [Journaled.questions, hnotice]

/-- Inquiries that are the same but for their notices come to the same. -/
theorem run_eq_of_hushed_eq (h : x.hushed = y.hushed) (r : Representation) :
    (x.run r).value = (y.run r).value ∧ (x.run r).questions = (y.run r).questions := by
  rw [← (x.run_hushed r).1, ← (x.run_hushed r).2, h, (y.run_hushed r).1, (y.run_hushed r).2]
  exact ⟨rfl, rfl⟩

/-- Notices do not matter to what is looked up. -/
theorem lookUps_hushed (x : Inquiry α) (r : Representation) :
    x.hushed.lookUps r = x.lookUps r := by
  induction x generalizing r with
  | done a => rfl
  | subsumes general specific next ih => exact congrArg _ (ih _ _)
  | bounds b left right next ih => exact congrArg _ (ih _ _)
  | note event next ih =>
    rw [hushed]
    split
    · exact ih r
    · exact ih r

/-- Inquiries that are the same but for their notices look up the same. -/
theorem lookUps_eq_of_hushed_eq (h : x.hushed = y.hushed) (r : Representation) :
    x.lookUps r = y.lookUps r := by
  rw [← x.lookUps_hushed, h, y.lookUps_hushed]

end Inquiry

/-- A fold is the same but for its notices, whatever these show. -/
theorem Hierarchy.hushed_foldBounds (verbosity verbosity' : Verbosity) (b : Bound)
    (step : Ty → Operand → Inquiry (List Ty)) (all all' : List Operand) (value : Ty)
    (operands : List Operand) :
    (foldBounds verbosity b step all value operands).hushed =
      (foldBounds verbosity' b step all' value operands).hushed := by
  induction operands generalizing value with
  | nil => rfl
  | cons operand rest ih =>
    rw [foldBounds, foldBounds, Inquiry.bind_eq, Inquiry.bind_eq, Inquiry.hushed_andThen,
      Inquiry.hushed_andThen]
    refine congrArg (Inquiry.andThen · _) (funext fun bounds ↦ ?_)
    match bounds with
    | [] => rfl
    | [bound] => exact ih bound
    | _ :: _ :: _ => cases verbosity <;> cases verbosity' <;> rfl

end Taxonomy
