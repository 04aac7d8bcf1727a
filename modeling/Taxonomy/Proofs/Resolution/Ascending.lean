import Taxonomy.Proofs.Resolution.Stages
import Taxonomy.Session.Query
import Taxonomy.Session.Reading

/-!
# Sets are replied in ascending order

A list stands for a set of types if each type comes before all later ones in presentation order
(`Ty.Ascending`). So lists that stand for the same set are equal (`FinSet.toList_eq`).

Queries come by such lists in four ways. The reserved values settle bounds by a single type; what a
hook says is made into a set first; what is looked up is passed on as it is; and the extremes are
some of the types of a set, in the order in which it is listed. So it is up to the look-ups alone
whether what is replied is in order. `Inquiry.Ensures` says what holds of the outcome of an inquiry,
provided that bounds are looked up in order, and `Query.ensures_inquire` that sets are then replied
in order.
-/

namespace Taxonomy

/-- Each type is presented before all later ones. -/
def Ty.Ascending (types : List Ty) : Prop := types.Pairwise fun s t ↦ compare s t = .lt

open Ty (Ascending)

namespace Inquiry

variable {α β : Type} {p : α → Prop} {q : β → Prop} {x : Inquiry α} {f : α → Inquiry β}

/-! ## What inquiries ensure -/

/-- Whatever else is looked up, if all bounds are looked up in ascending order then `p` holds of
what the inquiry comes to. -/
def Ensures (p : α → Prop) : Inquiry α → Prop
  | done a => p a
  | subsumes _ _ next => ∀ holds, (next holds).Ensures p
  | bounds _ _ _ next => ∀ types, Ascending types → (next types).Ensures p
  | note _ next => next.Ensures p

namespace Ensures

theorem trivial (x : Inquiry α) : x.Ensures fun _ ↦ True := by
  induction x with
  | done a => exact True.intro
  | subsumes general specific next ih => exact ih
  | bounds b left right next ih => exact fun types _ ↦ ih types
  | note event next ih => exact ih

theorem andThen (hx : x.Ensures p) (hf : ∀ a, p a → (f a).Ensures q) :
    (x.andThen f).Ensures q := by
  induction x with
  | done a => exact hf a hx
  | subsumes general specific next ih => exact fun holds ↦ ih holds (hx holds)
  | bounds b left right next ih => exact fun types htypes ↦ ih types (hx types htypes)
  | note event next ih => exact ih hx

theorem map {g : α → β} (hx : x.Ensures p) (hg : ∀ a, p a → q (g a)) : (g <$> x).Ensures q :=
  hx.andThen hg

theorem mono {p' : α → Prop} (hx : x.Ensures p) (hp : ∀ a, p a → p' a) : x.Ensures p' := by
  have hid : (id <$> x).Ensures p' := hx.map hp
  rwa [id_map] at hid

/-- What happens on the way does not matter. -/
theorem of_journaled {y : Journaled α} (hf : (f y.value).Ensures q) :
    ((ofJournaled y).andThen f).Ensures q := by
  rw [andThen_ofJournaled]
  induction y.events with
  | nil => exact hf
  | cons event rest ih => exact ih

/-- If each element makes for something that `q` holds of, it holds of all that is made. -/
theorem mapM {γ : Type} {g : γ → Inquiry β} (hg : ∀ c, (g c).Ensures q) (l : List γ) :
    (l.mapM g).Ensures fun made ↦ ∀ b ∈ made, q b := by
  induction l with
  | nil => exact List.forall_mem_nil q
  | cons c rest ih =>
    rw [List.mapM_cons]
    exact (hg c).andThen fun b hb ↦ ih.andThen fun made hmade ↦ List.forall_mem_cons.2 ⟨hb, hmade⟩

/-- What is kept of a list is a part of it, in the same order. -/
theorem filterOnto (test : α → Inquiry Bool) (kept l : List α) :
    (Inquiry.filterOnto test kept l).Ensures fun found ↦
      ∃ passing, passing.Sublist l ∧ found = kept.reverse ++ passing := by
  induction l generalizing kept with
  | nil => exact ⟨[], .slnil, (List.append_nil _).symm⟩
  | cons a rest ih =>
    refine (trivial (test a)).andThen fun passes _ ↦ ?_
    cases passes with
    | false =>
      refine (ih kept).mono ?_
      rintro found ⟨passing, hsub, rfl⟩
      exact ⟨passing, hsub.cons a, rfl⟩
    | true =>
      refine (ih (a :: kept)).mono ?_
      rintro found ⟨passing, hsub, rfl⟩
      exact ⟨a :: passing, hsub.cons_cons a, by simp⟩

theorem filter {l : List Ty} (test : Ty → Inquiry Bool) (hl : Ascending l) :
    (Inquiry.filter test l).Ensures Ascending := by
  refine (filterOnto test [] l).mono ?_
  rintro found ⟨passing, hsub, rfl⟩
  exact hl.sublist hsub

end Ensures

end Inquiry

open Inquiry (Ensures)

variable {h : Hierarchy} {setting : Setting} {b : Bound} {types : List Ty}

/-! ## Bounds and extremes -/

/-- What the reserved values settle is a single type. -/
theorem Reserved.ascending_of_bounds {s t : Ty} (hsettled : bounds b s t = some types) :
    Ascending types := by
  rw [bounds] at hsettled
  split_ifs at hsettled
  all_goals
    obtain rfl := Option.some.inj hsettled
    exact List.pairwise_singleton ..

theorem Reserved.ascending_of_operandBounds {x y : Operand}
    (hsettled : operandBounds b x y = some types) : Ascending types := by
  cases x <;> cases y
  case type.type => exact ascending_of_bounds hsettled
  all_goals
    simp only [operandBounds, Option.ite_none_right_eq_some, Option.some.injEq] at hsettled
    obtain ⟨-, rfl⟩ := hsettled
    exact List.pairwise_singleton ..

/-- What is heard of hooks is something that has been accepted. -/
theorem Setting.exists_accept_of_consult {α : Type} {o : Operation} {x y : Operand}
    {accept : Answer → Option α} {a : α} (hheard : (setting.consult o x y accept).value = some a) :
    ∃ answer, accept answer = some a := by
  rw [consult] at hheard
  split at hheard
  · cases hheard
  · rw [Journaled.value_bind] at hheard
    split at hheard
    · rename_i a' hleft
      obtain rfl := Option.some.inj hheard
      obtain ⟨answer, -, haccept⟩ := Option.bind_eq_some_iff.1 hleft
      exact ⟨answer, haccept⟩
    · obtain ⟨answer, -, haccept⟩ := Option.bind_eq_some_iff.1 hheard
      exact ⟨answer, haccept⟩

/-- The operands decide on sets, reserved or not. -/
theorem Setting.ascending_of_decideBounds {x y : Operand}
    (hdecided : (setting.decideBounds b x y).value = some types) : Ascending types := by
  rw [decideBounds] at hdecided
  split at hdecided
  · rename_i types' hsettled
    obtain rfl := Option.some.inj hdecided
    exact Reserved.ascending_of_operandBounds hsettled
  · obtain ⟨answer, haccept⟩ := exists_accept_of_consult hdecided
    obtain ⟨said, -, rfl⟩ := Option.map_eq_some_iff.1 haccept
    exact FinSet.ascending _

theorem Setting.ascending_bounds (setting : Setting) (b : Bound) (x y : Operand) :
    Ascending (setting.bounds b x y).value := by
  rw [bounds, Journaled.value_map]
  cases hdecided : (setting.decideBounds b x y).value with
  | none => exact .nil
  | some types => exact ascending_of_decideBounds hdecided

namespace Hierarchy

theorem ensures_inquireBounds (s t : Ty) : (h.inquireBounds b s t).Ensures Ascending := by
  rw [inquireBounds]
  split
  · rename_i types hsettled
    exact Reserved.ascending_of_bounds hsettled
  · split
    · exact fun types htypes ↦ htypes
    · exact List.Pairwise.nil

theorem ensures_resolveBounds (x y : Operand) :
    (h.resolveBounds setting b x y).Ensures Ascending := by
  refine Ensures.of_journaled ?_
  split
  · rename_i types hdecided
    exact Setting.ascending_of_decideBounds hdecided
  · split
    · split
      · exact fun types htypes ↦ htypes
      · exact List.Pairwise.nil
    · exact List.Pairwise.nil

theorem ensures_minimal (l : List Ty) : (h.minimal l).Ensures Ascending :=
  .filter _ (FinSet.ascending _)

theorem ensures_maximal (l : List Ty) : (h.maximal l).Ensures Ascending :=
  .filter _ (FinSet.ascending _)

end Hierarchy

/-! ## Replies -/

/-- The lists in a reply that stand for sets, unless a sorting was asked for. -/
def Reply.sets : Reply → List (List Ty)
  | .types types => [types]
  | .boundsTable rows => rows.flatten
  | _ => []

/-- All sets are in order. -/
def Reply.Presented (reply : Reply) : Prop := ∀ types ∈ reply.sets, Ascending types

theorem Reply.presented_types (htypes : Ascending types) : (Reply.types types).Presented :=
  List.forall_mem_singleton.2 htypes

/-- **Whatever is read is in order.** -/
theorem Hierarchy.presented_read (h : Hierarchy) (reading : Reading) :
    (h.read reading).Presented := by
  cases reading
  case types | leaves | neighbours | closure | commonNeighbours | commonClosure | circularTypes =>
    exact Reply.presented_types (FinSet.ascending _)
  all_goals exact List.forall_mem_nil _

/-- **A query is replied in order** if bounds are looked up in order, unless it is for a sorting. -/
theorem Query.ensures_inquire (query : Query) (hsort : ∀ l, query ≠ .subsort l) :
    (query.inquire setting h).Ensures Reply.Presented := by
  cases query with
  | subsort l => exact absurd rfl (hsort l)
  | bounds b s t =>
    exact (Hierarchy.ensures_inquireBounds s t).map fun _ ↦ Reply.presented_types
  | resolveBounds b x y =>
    exact (Hierarchy.ensures_resolveBounds x y).map fun _ ↦ Reply.presented_types
  | minimal l => exact (Hierarchy.ensures_minimal l).map fun _ ↦ Reply.presented_types
  | maximal l => exact (Hierarchy.ensures_maximal l).map fun _ ↦ Reply.presented_types
  | table cell l =>
    cases cell with
    | bounds b =>
      have hrow : ∀ s, ((l.getD h.types.toList).mapM fun t ↦ h.inquireBounds b s t).Ensures
          fun row ↦ ∀ types ∈ row, Ascending types := fun s ↦
        Ensures.mapM (fun t ↦ Hierarchy.ensures_inquireBounds s t) _
      refine (Ensures.mapM hrow _).map fun rows hrows types htypes ↦ ?_
      obtain ⟨row, hrow, htypes⟩ := List.mem_flatten.1 htypes
      exact hrows row hrow types htypes
    | relation | comparison => exact (Ensures.trivial _).map fun _ _ ↦ List.forall_mem_nil _
  | isTree | stratasort => exact List.forall_mem_nil _
  | _ => exact (Ensures.trivial _).map fun _ _ ↦ List.forall_mem_nil _

end Taxonomy
