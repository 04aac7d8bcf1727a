import Taxonomy.Proofs.Representation.Ambiguity
import Taxonomy.Proofs.Representation.Course
import Taxonomy.Proofs.Resolution.Fold

/-!
# Folds over members

A fold over types that are taken to be members leaves out most of what a fold over operands checks:
it knows the identity and equal types, but not the absorbing value, nor does it ask who is a member.

That makes no difference if the types are members indeed. A fold over them has got to the identity
or to a member whenever it goes on, and between these and a member both folds take the same step
(`Hierarchy.memberStep_type`). So they take the same course
(`Hierarchy.WellFormed.sameCourse_foldTypes`), and whatever hangs on it is the same
(`Representation.Tracks.foldTypes_eq_fold`), whether or not there are cycles.
-/

namespace Taxonomy

variable {h : Hierarchy} {setting : Setting} {b : Bound} {l : List Ty} {t v w : Ty}

namespace Hierarchy

/-- Between a member and what a fold over members may have come to, the shortcuts of a fold over
members are all that the reserved values settle. -/
theorem memberStep_type (hw : h.WellFormed) (hv : v = Reserved.identity b ∨ h.hasType v)
    (ht : h.hasType t) : memberStep b v (.type t) = h.inquireBounds b v t := by
  have hti : t ≠ Reserved.identity b := fun heq ↦ hw.not_hasType_identity b (heq ▸ ht)
  have hta : t ≠ Reserved.absorbing b := fun heq ↦ hw.not_hasType_absorbing b (heq ▸ ht)
  rw [memberStep, inquireBounds]
  by_cases hvt : v = t
  · simp [hvt]
  · rcases hv with rfl | hv
    · simp
    · have hvi : v ≠ Reserved.identity b := fun heq ↦ hw.not_hasType_identity b (heq ▸ hv)
      have hva : v ≠ Reserved.absorbing b := fun heq ↦ hw.not_hasType_absorbing b (heq ▸ hv)
      simp [Reserved.bounds, hvt, hva, hta, hvi, hti, hv, ht]

/-- A bound that a fold over members comes to is a member. -/
theorem hasType_of_only_bound (hw : h.WellFormed) (hv : v = Reserved.identity b ∨ h.hasType v)
    (ht : h.hasType t) (honly : (h.inquireBounds b v t).answer h = [w]) : h.hasType w := by
  rw [← memberStep_type hw hv ht, memberStep] at honly
  split at honly
  · exact List.singleton_inj.1 honly ▸ ht
  · rename_i hne
    rw [Bool.or_eq_true, decide_eq_true_eq, decide_eq_true_eq, not_or] at hne
    have hbound : w ∈ h.bounds b v t := (FinSet.toList_eq_singleton_iff.1 honly w).2 rfl
    exact hasType_of_mem_bounds hw.mirrored (hv.resolve_left hne.1) ht hbound

/-- From the identity or a member on, folds over members take the same course whether or not it is
asked if they are. -/
theorem sameCourse_foldBounds {verbosity : Verbosity} {all : List Operand} (hw : h.WellFormed)
    (hv : v = Reserved.identity b ∨ h.hasType v) (hmem : ∀ t ∈ l, h.hasType t) :
    (foldBounds verbosity b (memberStep b) all v (l.map .type)).SameCourse h
      (foldBounds verbosity b (fun value operand ↦ h.resolveBounds setting b (.type value) operand)
        all v (l.map .type)) := by
  induction l generalizing v with
  | nil => exact .refl _
  | cons t rest ih =>
    obtain ⟨ht, hrest⟩ := List.forall_mem_cons.1 hmem
    rw [List.map_cons, foldBounds, foldBounds, memberStep_type hw hv ht, resolveBounds_type]
    refine Inquiry.SameCourse.andThen _ ?_
    rcases honly : (h.inquireBounds b v t).answer h with _ | ⟨bound, _ | ⟨other, others⟩⟩
    · exact .refl _
    · exact ih (.inr (hasType_of_only_bound hw hv ht honly)) hrest
    · exact .refl _

/-- **Folds over members take the same course** as folds over operands. -/
theorem WellFormed.sameCourse_foldTypes (hw : h.WellFormed) (hmem : ∀ t ∈ l, h.hasType t) :
    (foldTypes setting b l).SameCourse h (h.fold setting b (l.map .type)) :=
  sameCourse_foldBounds hw (.inl rfl) hmem

/-- The join or the meet of members, without asking whether they are. -/
theorem answer_foldTypes (hw : h.WellFormed) (hmem : ∀ t ∈ l, h.hasType t) :
    (foldTypes setting b l).answer h = h.foldFrom b (Reserved.identity b) l :=
  (hw.sameCourse_foldTypes hmem).answer_eq.trans answer_fold

end Hierarchy

/-- **The fold over members is the fold over operands.** In front of every representation of a
hierarchy, cyclic or not, and under every configuration, the join and the meet of members come to
the same whether these are given as types or as operands. Both look up the same in the same order,
leave the same representation, with the same counts of its memos, and report the same ambiguity. -/
theorem Representation.Tracks.foldTypes_eq_fold {r : Representation} (ht : Tracks r h)
    (setting : Setting) (b : Bound) (types : List Ty) (hmem : ∀ t ∈ types, h.hasType t) :
    (Hierarchy.foldTypes setting b types).run r =
      (r.hierarchy.fold setting b (types.map .type)).run r ∧
    (Hierarchy.foldTypes setting b types).lookUps r =
      (r.hierarchy.fold setting b (types.map .type)).lookUps r := by
  obtain ⟨hg, rfl, hsound⟩ := ht.faithful
  have hw := hg.wellFormed
  exact (hw.sameCourse_foldTypes hmem).run_eq hsound hw.mirrored rfl

/-- In the tangle the join stops at the ambiguous pair of `a` and `b`. Nothing is looked up for equal
types, nor for `e`. -/
theorem Representation.foldTypes_eq_fold_tangle :
    let r := (compiled { hierarchy := tangle, scope := some (.named "b") }).memoize 1
    let setting : Setting := ⟨{ verbosity := .context }, fun _ ↦ .bare⟩
    let types : List Ty := [.named "a", .named "a", .named "b", .named "e"]
    Tracks r tangle ∧ (∀ t ∈ types, tangle.hasType t) ∧
    (Hierarchy.foldTypes setting .leastUpper types).run r =
      (r.hierarchy.fold setting .leastUpper (types.map .type)).run r ∧
    (r.hierarchy.fold setting .leastUpper (types.map .type)).lookUps r =
      [.bounds .leastUpper (.named "a") (.named "b")] ∧
    .ambiguous .leastUpper (.named "a") (.type (.named "b"))
        (some ⟨[.named "c", .named "d"], types.map .type⟩) ∈
      ((r.hierarchy.fold setting .leastUpper (types.map .type)).run r).notices := by
  intro r setting types
  have htracks : Tracks r tangle := .memoize (.compiled grown_tangle _) 1
  have hmem : ∀ t ∈ types, tangle.hasType t := by decide
  obtain ⟨hrun, hlookUps⟩ := htracks.foldTypes_eq_fold setting .leastUpper types hmem
  refine ⟨htracks, hmem, hrun, hlookUps.symm.trans ?_, ?_⟩
  · decide +kernel
  · rw [← hrun]
    decide +kernel

end Taxonomy
