import Taxonomy.Proofs.Hierarchy.Determinism
import Taxonomy.Proofs.Hierarchy.EditedOrder

/-!
# The order on all types

Subsumption is answered for all types, not only for members. The reserved values come before and
after everything else, and a type that is neither reserved nor a member is related to no type but
these and itself (`WellFormed.answer_inquireSubsumes_iff_or`).

Both kinds of bounds look at this order, from opposite ends. `Hierarchy.Beyond b` is the order as a
bound of kind `b` looks at it, so that what is said of joins is said of meets as well. A type that
is the only bound of two types stands for what is beyond both (`Acyclic.beyond_iff_of_only_bound`);
if bounds are unambiguous and there is none, only the absorbing value is beyond both
(`Unambiguous.eq_absorbing`).
-/

open Relation

namespace Taxonomy.Hierarchy

variable {h : Hierarchy} {b : Bound} {s t u v w z : Ty}

/-! ## Subsumption -/

theorem WellFormed.not_hasType_of_isReserved (hw : h.WellFormed) (ht : t.isReserved) :
    ¬ h.hasType t := by
  intro hmem
  obtain ⟨name, rfl⟩ := hw.named t hmem
  cases ht

/-- If one of two types is no member, the reserved values settle whether it is subsumed. -/
private theorem answer_inquireSubsumes_of_not (hmem : ¬ (h.hasType u ∧ h.hasType v)) :
    (h.inquireSubsumes u v).answer h ↔ u = v ∨ u = .undefined ∨ v = .top := by
  have hanswer : (h.inquireSubsumes u v).answer h = (Reserved.subsumes u v).getD false := by
    rw [inquireSubsumes]
    split
    · rename_i holds heq
      rw [heq]
      rfl
    · rename_i heq
      rw [if_neg (by rwa [Bool.and_eq_true]), heq]
      rfl
  rw [hanswer]
  cases u <;> cases v <;> simp [Reserved.subsumes, apply_ite (Option.getD · false)]

/-- **Subsumption of types** is a path between members, except that reserved values come before and
after everything and every type subsumes itself. -/
theorem WellFormed.answer_inquireSubsumes_iff_or (hw : h.WellFormed) :
    (h.inquireSubsumes u v).answer h ↔ u = v ∨ u = .undefined ∨ v = .top ∨
      h.hasType u ∧ h.hasType v ∧ ReflTransGen h.Edge u v := by
  by_cases hmem : h.hasType u ∧ h.hasType v
  · obtain ⟨hu, hv⟩ := hmem
    rw [hw.answer_inquireSubsumes_iff hu hv]
    constructor
    · exact fun hpath ↦ .inr (.inr (.inr ⟨hu, hv, hpath⟩))
    · rintro (rfl | rfl | rfl | ⟨-, -, hpath⟩)
      · exact .refl
      · exact absurd hu (hw.not_hasType_of_isReserved rfl)
      · exact absurd hv (hw.not_hasType_of_isReserved rfl)
      · exact hpath
  · rw [answer_inquireSubsumes_of_not hmem, ← and_assoc]
    simp only [hmem, false_and, or_false]

/-! ## The order as bounds look at it -/

/-- `t` lies beyond `s` where bounds of a kind are looked for: least upper bounds of `s` are
subsumed by it, greatest lower bounds subsume it. -/
def Beyond (h : Hierarchy) : Bound → Ty → Ty → Prop
  | .leastUpper, s, t => (h.inquireSubsumes s t).answer h
  | .greatestLower, s, t => (h.inquireSubsumes t s).answer h

theorem WellFormed.beyond_iff (hw : h.WellFormed) :
    h.Beyond b s t ↔ s = t ∨ s = Reserved.identity b ∨ t = Reserved.absorbing b ∨
      h.hasType s ∧ h.hasType t ∧ ReflTransGen (h.Step b.direction) s t := by
  cases b with
  | leastUpper => exact hw.answer_inquireSubsumes_iff_or
  | greatestLower =>
    have hpath : ReflTransGen (h.Step .up) s t ↔ ReflTransGen h.Edge t s :=
      hw.mirrored.reflTransGen_opposite_iff (d := .down)
    change (h.inquireSubsumes t s).answer h ↔ _ ∨ s = .top ∨ t = .undefined ∨
      _ ∧ _ ∧ ReflTransGen (h.Step .up) s t
    rw [hw.answer_inquireSubsumes_iff_or, hpath, eq_comm]
    tauto

theorem WellFormed.not_hasType_identity (hw : h.WellFormed) (b : Bound) :
    ¬ h.hasType (Reserved.identity b) := by
  cases b <;> exact hw.not_hasType_of_isReserved rfl

theorem WellFormed.not_hasType_absorbing (hw : h.WellFormed) (b : Bound) :
    ¬ h.hasType (Reserved.absorbing b) := by
  cases b <;> exact hw.not_hasType_of_isReserved rfl

theorem absorbing_ne_identity (b : Bound) : Reserved.absorbing b ≠ Reserved.identity b := by
  cases b <;> exact nofun

namespace WellFormed

theorem beyond_refl (hw : h.WellFormed) (b : Bound) (t : Ty) : h.Beyond b t t :=
  hw.beyond_iff.2 (.inl rfl)

/-- Everything is beyond the identity. -/
theorem beyond_identity (hw : h.WellFormed) (b : Bound) (t : Ty) :
    h.Beyond b (Reserved.identity b) t := hw.beyond_iff.2 (.inr (.inl rfl))

/-- The absorbing value is beyond everything. -/
theorem beyond_absorbing (hw : h.WellFormed) (b : Bound) (t : Ty) :
    h.Beyond b t (Reserved.absorbing b) := hw.beyond_iff.2 (.inr (.inr (.inl rfl)))

/-- Beyond a member are the members that a path leads to. -/
theorem beyond_iff_of_hasType (hw : h.WellFormed) (hs : h.hasType s) :
    h.Beyond b s z ↔ z = Reserved.absorbing b ∨ ReflTransGen (h.Step b.direction) s z := by
  have hne : s ≠ Reserved.identity b := fun heq ↦ hw.not_hasType_identity b (heq ▸ hs)
  rw [hw.beyond_iff, or_iff_right_of_imp, or_iff_right hne]
  · refine or_congr_right ⟨fun hz ↦ hz.2.2, fun hpath ↦ ⟨hs, ?_, hpath⟩⟩
    exact hw.mirrored.hasType_of_reflTransGen hs hpath
  · rintro rfl
    exact .inr (.inr ⟨hs, hs, .refl⟩)

/-- Nothing else is beyond a type that is no member. -/
theorem beyond_iff_of_not_hasType (hw : h.WellFormed) (hs : ¬ h.hasType s)
    (hne : s ≠ Reserved.identity b) : h.Beyond b s z ↔ s = z ∨ z = Reserved.absorbing b := by
  rw [hw.beyond_iff, or_iff_right hne, or_iff_left (a := z = _) fun hmem ↦ hs hmem.1]

theorem beyond_absorbing_iff (hw : h.WellFormed) :
    h.Beyond b (Reserved.absorbing b) z ↔ z = Reserved.absorbing b := by
  rw [hw.beyond_iff_of_not_hasType (hw.not_hasType_absorbing b) (absorbing_ne_identity b), eq_comm,
    or_self]

end WellFormed

/-- Without cycles, types that are beyond each other are one type. -/
theorem Acyclic.beyond_antisymm (hc : h.Acyclic) (hw : h.WellFormed) (hst : h.Beyond b s t)
    (hts : h.Beyond b t s) : s = t := by
  have hne := absorbing_ne_identity b
  rw [hw.beyond_iff] at hst hts
  rcases hst with rfl | rfl | rfl | ⟨hs, ht, hpath⟩
  · rfl
  · rcases hts with heq | rfl | heq | ⟨-, hmem, -⟩
    · exact heq.symm
    · rfl
    · exact absurd heq.symm hne
    · exact absurd hmem (hw.not_hasType_identity b)
  · rcases hts with heq | heq | rfl | ⟨hmem, -, -⟩
    · exact heq.symm
    · exact absurd heq hne
    · rfl
    · exact absurd hmem (hw.not_hasType_absorbing b)
  · rcases hts with heq | rfl | rfl | ⟨-, -, hback⟩
    · exact heq.symm
    · exact absurd ht (hw.not_hasType_identity b)
    · exact absurd hs (hw.not_hasType_absorbing b)
    · exact hc.antisymm hw.mirrored hpath hback

/-! ## Bounds of types -/

theorem answer_inquireBounds : (h.inquireBounds b s t).answer h =
    (Reserved.bounds b s t).getD
      (if h.hasType s && h.hasType t then (h.bounds b s t).toList else []) := by
  rw [inquireBounds]
  split
  · rename_i types heq
    rw [heq]
    rfl
  · rename_i heq
    rw [heq]
    split <;> rfl

/-- Bounds of two members are looked up. -/
theorem WellFormed.answer_inquireBounds_of_ne (hw : h.WellFormed) (hs : h.hasType s)
    (ht : h.hasType t) (hne : s ≠ t) :
    (h.inquireBounds b s t).answer h = (h.bounds b s t).toList := by
  obtain ⟨m, rfl⟩ := hw.named s hs
  obtain ⟨n, rfl⟩ := hw.named t ht
  have hopen : Reserved.bounds b (.named m) (.named n) = none := by
    cases b <;> simp [Reserved.bounds, Reserved.absorbing, Reserved.identity, hne]
  rw [answer_inquireBounds, hopen, hs, ht]
  rfl

/-- What the reserved values settle is settled by a type that stands for what is beyond both. -/
theorem WellFormed.exists_of_reservedBounds (hw : h.WellFormed) {types : List Ty}
    (heq : Reserved.bounds b s t = some types) :
    ∃ w, types = [w] ∧ ∀ z, h.Beyond b w z ↔ h.Beyond b s z ∧ h.Beyond b t z := by
  rw [Reserved.bounds] at heq
  split_ifs at heq with hst habsorbing hs ht
  all_goals refine ⟨_, (Option.some_inj.1 heq).symm, fun z ↦ ?_⟩
  · rw [hst, and_self]
  · rw [hw.beyond_absorbing_iff]
    rw [Bool.or_eq_true, decide_eq_true_eq, decide_eq_true_eq] at habsorbing
    constructor
    · rintro rfl
      exact ⟨hw.beyond_absorbing b s, hw.beyond_absorbing b t⟩
    · rcases habsorbing with rfl | rfl
      · exact fun hz ↦ hw.beyond_absorbing_iff.1 hz.1
      · exact fun hz ↦ hw.beyond_absorbing_iff.1 hz.2
  · rw [hs, and_iff_right (hw.beyond_identity b z)]
  · rw [ht, and_iff_left (hw.beyond_identity b z)]

/-- Bounds that the reserved values leave open are of two types, neither of them the identity. -/
theorem ne_of_reservedBounds_eq_none (heq : Reserved.bounds b s t = none) :
    s ≠ t ∧ s ≠ Reserved.identity b ∧ t ≠ Reserved.identity b := by
  rw [Reserved.bounds] at heq
  split_ifs at heq with hst habsorbing hs ht
  exact ⟨hst, hs, ht⟩

/-- **The only bound of two types stands for what is beyond both.** -/
theorem Acyclic.beyond_iff_of_only_bound (hc : h.Acyclic) (hw : h.WellFormed)
    (honly : (h.inquireBounds b s t).answer h = [w]) :
    h.Beyond b w z ↔ h.Beyond b s z ∧ h.Beyond b t z := by
  rw [answer_inquireBounds] at honly
  cases hreserved : Reserved.bounds b s t with
  | some types =>
    obtain ⟨u, rfl, hu⟩ := hw.exists_of_reservedBounds hreserved
    rw [hreserved] at honly
    obtain rfl : u = w := List.singleton_inj.1 honly
    exact hu z
  | none =>
    rw [hreserved, Option.getD_none] at honly
    split at honly
    · rename_i hmem
      obtain ⟨hs, ht⟩ := Bool.and_eq_true_iff.1 hmem
      rw [FinSet.toList_eq_singleton_iff] at honly
      have hmemw : h.hasType w := hasType_of_mem_bounds hw.mirrored hs ht ((honly w).2 rfl)
      rw [hw.beyond_iff_of_hasType hs, hw.beyond_iff_of_hasType ht, hw.beyond_iff_of_hasType hmemw,
        ← or_and_left, hc.reflTransGen_iff_of_only_bound hw.mirrored hs ht honly]
    · cases honly

/-- A type that is no member has nothing in common with other types. -/
private theorem eq_absorbing_of_not_hasType (hw : h.WellFormed) (hs : ¬ h.hasType s) (hne : s ≠ t)
    (hsi : s ≠ Reserved.identity b) (hti : t ≠ Reserved.identity b) (hsz : h.Beyond b s z)
    (htz : h.Beyond b t z) : z = Reserved.absorbing b := by
  rcases (hw.beyond_iff_of_not_hasType hs hsi).1 hsz with rfl | hz
  · rcases hw.beyond_iff.1 htz with heq | heq | hz | ⟨-, hmem, -⟩
    · exact absurd heq.symm hne
    · exact absurd heq hti
    · exact hz
    · exact absurd hmem hs
  · exact hz

/-- **Two types without an only bound have nothing in common** but the absorbing value, unless
bounds are ambiguous. -/
theorem Unambiguous.eq_absorbing (hu : h.Unambiguous b) (hc : h.Acyclic) (hw : h.WellFormed)
    (hnone : ∀ w, (h.inquireBounds b s t).answer h ≠ [w]) (hsz : h.Beyond b s z)
    (htz : h.Beyond b t z) : z = Reserved.absorbing b := by
  rw [answer_inquireBounds] at hnone
  cases hreserved : Reserved.bounds b s t with
  | some types =>
    obtain ⟨w, rfl, -⟩ := hw.exists_of_reservedBounds hreserved
    rw [hreserved] at hnone
    exact absurd rfl (hnone w)
  | none =>
    obtain ⟨hst, hsi, hti⟩ := ne_of_reservedBounds_eq_none hreserved
    rw [hreserved, Option.getD_none] at hnone
    by_cases hs : h.hasType s
    · by_cases ht : h.hasType t
      · rw [hs, ht, Bool.and_true, if_pos rfl] at hnone
        rcases (hw.beyond_iff_of_hasType hs).1 hsz with hz | hsz
        · exact hz
        rcases (hw.beyond_iff_of_hasType ht).1 htz with hz | htz
        · exact hz
        -- members with something in common have a bound, and no two
        obtain ⟨w, hbound, -⟩ :=
          hc.exists_mem_bounds hw.mirrored hs ht ((shared_iff hs ht).2 ⟨hsz, htz⟩)
        have honly : ∀ u, u ∈ h.bounds b s t ↔ u = w := fun u ↦
          ⟨fun hmem ↦ hu s t hs ht u hmem w hbound, fun heq ↦ heq ▸ hbound⟩
        exact absurd (FinSet.toList_eq_singleton_iff.2 honly) (hnone w)
      · exact eq_absorbing_of_not_hasType hw ht hst.symm hti hsi htz hsz
    · exact eq_absorbing_of_not_hasType hw hs hst hsi hti hsz htz

end Taxonomy.Hierarchy
