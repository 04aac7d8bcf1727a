import Taxonomy.Proofs.Resolution.PartialOrder
import Taxonomy.Proofs.Walk.Layers

/-!
# Sorting by generality

Types are sorted by taking one after another: each time the first one that no other type left
properly subsumes or, if there is none, the first of all. `Takes` is this procedure as a relation.

A type is taken before those that it properly subsumes, except when the sort *stalls* because all
types left are blocked by others (`Takes.sublist_or_stalled`). Then there is a cycle among them, but
not all of them need to be on it. The first may be one that is merely below the cycle, and is taken
before the types above it (`Grown.subsort_orders_or_stalls`).
-/

open Relation

namespace Taxonomy.Hierarchy

variable {h : Hierarchy} {a b s t : Ty} {l remaining sorted : List Ty}

/-! ## The procedure -/

/-- Another type of the list properly subsumes `t`. -/
def Blocked (h : Hierarchy) (l : List Ty) (t : Ty) : Prop :=
  ∃ s ∈ l, (h.inquireProperlySubsumes s t).answer h = true

/-- How types are taken from a list, one after another. -/
inductive Takes (h : Hierarchy) : List Ty → List Ty → Prop
  | nil : Takes h [] []
  /-- The first type that is not blocked is taken. -/
  | minimal {before after sorted : List Ty} {t : Ty}
      (hbefore : ∀ s ∈ before, h.Blocked (before ++ t :: after) s)
      (ht : ¬ h.Blocked (before ++ t :: after) t) (hrest : Takes h (before ++ after) sorted) :
      Takes h (before ++ t :: after) (t :: sorted)
  /-- All types are blocked, and the first is taken. -/
  | stalled {t : Ty} {rest sorted : List Ty} (hall : ∀ s ∈ t :: rest, h.Blocked (t :: rest) s)
      (hrest : Takes h rest sorted) : Takes h (t :: rest) (t :: sorted)

theorem answer_any_filter_ne : (Inquiry.any (h.inquireProperlySubsumes · t)
    (l.filter (· ≠ t))).answer h = true ↔ h.Blocked l t := by
  rw [Inquiry.answer_any, List.any_eq_true]
  refine exists_congr fun s ↦ ?_
  rw [List.mem_filter, decide_eq_true_eq, and_assoc]
  refine and_congr_right fun _ ↦ and_iff_right_of_imp fun hst ↦ ?_
  exact (answer_inquireProperlySubsumes_iff.1 hst).2

theorem answer_firstMinimal? : (h.firstMinimal? l).answer h =
    l.find? fun t ↦ !(Inquiry.any (h.inquireProperlySubsumes · t) (l.filter (· ≠ t))).answer h := by
  rw [firstMinimal?, Inquiry.answer_find?]
  refine congrArg (l.find? ·) (funext fun t ↦ ?_)
  exact Inquiry.answer_andThen h _ _

/-- If there is no first minimal type, all types are blocked. -/
theorem blocked_of_firstMinimal? (hnone : (h.firstMinimal? l).answer h = none) :
    ∀ s ∈ l, h.Blocked l s := by
  rw [answer_firstMinimal?, List.find?_eq_none] at hnone
  intro s hs
  rw [← answer_any_filter_ne]
  simpa using hnone s hs

/-- The first minimal type is not blocked, and all types before it are. -/
theorem exists_split_of_firstMinimal? (hsome : (h.firstMinimal? l).answer h = some t) :
    ∃ before after, l = before ++ t :: after ∧ (∀ s ∈ before, h.Blocked l s) ∧
      ¬ h.Blocked l t := by
  rw [answer_firstMinimal?, List.find?_eq_some_iff_append] at hsome
  obtain ⟨ht, before, after, hsplit, hbefore⟩ := hsome
  refine ⟨before, after, hsplit, fun s hs ↦ ?_, ?_⟩
  · rw [← answer_any_filter_ne]
    simpa using hbefore s hs
  · rw [← answer_any_filter_ne]
    simpa using ht

/-- The type that is taken when these are left. -/
def pick (h : Hierarchy) (first : Ty) (rest : List Ty) : Ty :=
  ((h.firstMinimal? (first :: rest)).answer h).getD first

/-- What is taken is one of the types left, and the others are taken after it. -/
theorem pick_spec (first : Ty) (rest : List Ty) : h.pick first rest ∈ first :: rest ∧
    ∀ sorted, h.Takes ((first :: rest).erase (h.pick first rest)) sorted →
      h.Takes (first :: rest) (h.pick first rest :: sorted) := by
  rw [pick]
  -- when the sort stalls the head of the list is taken, otherwise a type from the midst of it
  cases hanswer : (h.firstMinimal? (first :: rest)).answer h with
  | none =>
    refine ⟨List.mem_cons_self, fun sorted hsorted ↦ ?_⟩
    rw [Option.getD_none, List.erase_cons_head] at hsorted
    exact .stalled (blocked_of_firstMinimal? hanswer) hsorted
  | some t =>
    obtain ⟨before, after, hsplit, hbefore, ht⟩ := exists_split_of_firstMinimal? hanswer
    rw [hsplit] at hbefore ht ⊢
    refine ⟨List.mem_append_right before List.mem_cons_self, fun sorted hsorted ↦ ?_⟩
    rw [Option.getD_some, List.erase_append_right _ fun hmem ↦ ht (hbefore t hmem),
      List.erase_cons_head] at hsorted
    exact .minimal hbefore ht hsorted

/-- Types are taken as `Takes` says, if there is fuel for all of them. -/
theorem exists_takes_takeMinimal (taken : List Ty) {fuel : Nat} (hfuel : remaining.length ≤ fuel) :
    ∃ sorted, (h.takeMinimal taken fuel remaining).answer h = taken.reverse ++ sorted ∧
      h.Takes remaining sorted := by
  induction fuel generalizing taken remaining with
  | zero =>
    obtain rfl := List.eq_nil_of_length_eq_zero (Nat.le_zero.1 hfuel)
    exact ⟨[], (List.append_nil _).symm, .nil⟩
  | succ fuel ih =>
    cases remaining with
    | nil => exact ⟨[], (List.append_nil _).symm, .nil⟩
    | cons first rest =>
      obtain ⟨hmem, htakes⟩ := h.pick_spec first rest
      have hlength : ((first :: rest).erase (h.pick first rest)).length ≤ fuel := by
        rw [List.length_erase_of_mem hmem]
        omega
      obtain ⟨sorted, heq, hrest⟩ := ih (h.pick first rest :: taken) hlength
      refine ⟨h.pick first rest :: sorted, ?_, htakes sorted hrest⟩
      rw [takeMinimal, Inquiry.bind_eq, Inquiry.answer_andThen]
      change (h.takeMinimal (h.pick first rest :: taken) fuel
        ((first :: rest).erase (h.pick first rest))).answer h = _
      rw [heq, List.reverse_cons, List.append_assoc, List.singleton_append]

/-- Sorting takes the types of a list, each once. -/
theorem takes_subsort (h : Hierarchy) (types : List Ty) :
    h.Takes (FinSet.firsts types) ((h.subsort types).answer h) := by
  obtain ⟨sorted, heq, htakes⟩ := exists_takes_takeMinimal (h := h) [] (Nat.le_refl _)
  rw [subsort, heq]
  exact htakes

/-! ## What comes before what -/

theorem pair_sublist (hb : b ∈ l) : [a, b].Sublist (a :: l) :=
  (List.singleton_sublist.2 hb).cons_cons a

namespace Takes

/-- All types are taken. -/
theorem perm (ht : h.Takes remaining sorted) : sorted.Perm remaining := by
  induction ht with
  | nil => exact .refl []
  | minimal _ _ _ ih => exact (ih.cons _).trans List.perm_middle.symm
  | stalled _ _ ih => exact ih.cons _

/-- A type is taken before one that it properly subsumes, unless the latter is the first of those
left when the sort stalls. -/
theorem sublist_or_stalled (ht : h.Takes remaining sorted) (ha : a ∈ remaining)
    (hb : b ∈ remaining) (hab : (h.inquireProperlySubsumes a b).answer h = true) :
    [a, b].Sublist sorted ∨ ∃ left later, a ∈ left ∧ (∀ s ∈ b :: left, h.Blocked (b :: left) s) ∧
      (b :: left).Sublist remaining ∧ (b :: later).Sublist sorted ∧ later.Perm left := by
  have hne : a ≠ b := (answer_inquireProperlySubsumes_iff.1 hab).2
  induction ht with
  | nil => exact absurd ha List.not_mem_nil
  | @minimal before after sorted t _ hfree hrest ih =>
    have hmem : ∀ s, s ≠ t → s ∈ before ++ t :: after → s ∈ before ++ after := by
      intro s hs
      simp only [List.mem_append, List.mem_cons, or_iff_right hs]
      exact id
    by_cases hbt : b = t
    · -- a type that is taken for being minimal is not properly subsumed by one that is left
      subst hbt
      exact absurd ⟨a, ha, hab⟩ hfree
    · have hb' := hmem b hbt hb
      by_cases hat : a = t
      · subst hat
        exact .inl (pair_sublist (hrest.perm.mem_iff.2 hb'))
      · refine (ih (hmem a hat ha) hb').imp (·.cons t) ?_
        rintro ⟨left, later, hleft, hall, hsub, hlater, hperm⟩
        refine ⟨left, later, hleft, hall, hsub.trans ?_, hlater.cons t, hperm⟩
        exact (List.sublist_cons_self t after).append_left before
  | @stalled t rest sorted hall hrest ih =>
    by_cases hbt : b = t
    · subst hbt
      exact .inr ⟨rest, sorted, (List.mem_cons.1 ha).resolve_left hne, hall, .refl _, .refl _,
        hrest.perm⟩
    · have hb' := (List.mem_cons.1 hb).resolve_left hbt
      by_cases hat : a = t
      · subst hat
        exact .inl (pair_sublist (hrest.perm.mem_iff.2 hb'))
      · refine (ih ((List.mem_cons.1 ha).resolve_left hat) hb').imp (·.cons t) ?_
        rintro ⟨left, later, hleft, hall, hsub, hlater, hperm⟩
        exact ⟨left, later, hleft, hall, hsub.cons t, hlater.cons t, hperm⟩

end Takes

/-! ## Cycles -/

/-- The types of a list that `s` properly subsumes. -/
def belowIn (h : Hierarchy) (l : List Ty) (s : Ty) : FinSet Ty :=
  (FinSet.ofList l).filter fun t ↦ (h.inquireProperlySubsumes s t).answer h

theorem mem_belowIn :
    t ∈ h.belowIn l s ↔ t ∈ l ∧ (h.inquireProperlySubsumes s t).answer h = true := by
  rw [belowIn, FinSet.mem_filter, FinSet.mem_ofList]

theorem sustained_belowIn (hall : ∀ s ∈ l, h.Blocked l s) :
    Sustained (h.belowIn l) {s | s ∈ l} := by
  intro t ht
  obtain ⟨s, hs, hst⟩ := hall t ht
  exact ⟨s, hs, mem_belowIn.2 ⟨ht, hst⟩⟩

/-- A type subsumes what paths of proper subsumption lead to. -/
theorem WellFormed.answer_inquireSubsumes_of_path (hw : h.WellFormed)
    (hpath : ReflTransGen (Among (h.belowIn l) {s | s ∈ l}) s t) :
    (h.inquireSubsumes s t).answer h = true := by
  induction hpath with
  | refl => exact hw.beyond_refl .leastUpper s
  | tail _ hedge ih =>
    have hstep := (answer_inquireProperlySubsumes_iff.1 (mem_belowIn.1 hedge.2.2).2).1
    exact hw.beyond_trans (b := .leastUpper) ih hstep

/-- If all types of a list are blocked, each of them is subsumed by a type on a cycle, that is, by
one of two types that subsume each other. -/
theorem WellFormed.exists_cycle_of_blocked (hw : h.WellFormed) (hall : ∀ s ∈ l, h.Blocked l s)
    (ht : t ∈ l) : ∃ c ∈ l, ∃ d ∈ l, c ≠ d ∧ (h.inquireSubsumes c d).answer h = true ∧
      (h.inquireSubsumes d c).answer h = true ∧ (h.inquireSubsumes c t).answer h = true := by
  obtain ⟨c, hcycle, hct⟩ := (sustained_belowIn hall).belowCycle (List.finite_toSet l) ht
  -- the second type is the one after `c` on the cycle, which differs from `c`
  obtain ⟨d, ⟨hc, hd, hedge⟩, hdc⟩ := TransGen.head'_iff.1 hcycle
  obtain ⟨hcd, hne⟩ := answer_inquireProperlySubsumes_iff.1 (mem_belowIn.1 hedge).2
  exact ⟨c, hc, d, hd, hne, hcd, hw.answer_inquireSubsumes_of_path hdc,
    hw.answer_inquireSubsumes_of_path hct⟩

/-- **Sorting puts general types first, unless it stalls at a cycle.** The distinct types are
rearranged so that a type comes before another one that it subsumes and that does not subsume it.
The only exception is a type `b` below a cycle that is given before the types on the cycle: it may
come before them, and before a type `a` that the cycle leads to or that is on it. -/
theorem Grown.subsort_orders_or_stalls (hg : h.Grown) (types : List Ty) :
    let given := FinSet.firsts types
    let sorted := (h.subsort types).answer h
    sorted.Perm given ∧
    ∀ a ∈ types, ∀ b ∈ types, (h.inquireProperlySubsumes a b).answer h = true →
      (h.inquireSubsumes b a).answer h = false →
      [a, b].Sublist sorted ∨
        [b, a].Sublist given ∧ [b, a].Sublist sorted ∧
        ∃ c d, c ≠ d ∧ (h.inquireSubsumes c d).answer h = true ∧
          (h.inquireSubsumes d c).answer h = true ∧ (h.inquireSubsumes c a).answer h = true ∧
          ∀ s, s = c ∨ s = d → [b, s].Sublist given ∧ [b, s].Sublist sorted := by
  have hw : h.WellFormed := hg.wellFormed
  intro given sorted
  have htakes : h.Takes given sorted := takes_subsort h types
  refine ⟨htakes.perm, fun a ha b hb hab hba ↦ ?_⟩
  refine (htakes.sublist_or_stalled (FinSet.mem_firsts.2 ha) (FinSet.mem_firsts.2 hb) hab).imp_right
    ?_
  rintro ⟨left, later, hleft, hall, hgiven, hsorted, hperm⟩
  -- whatever is left with `b` was given after it and is taken after it
  have hafter : ∀ s ∈ left, [b, s].Sublist given ∧ [b, s].Sublist sorted := fun s hs ↦
    ⟨(pair_sublist hs).trans hgiven, (pair_sublist (hperm.mem_iff.2 hs)).trans hsorted⟩
  obtain ⟨c, hc, d, hd, hne, hcd, hdc, hca⟩ :=
    hw.exists_cycle_of_blocked hall (List.mem_cons_of_mem b hleft)
  -- `b` is not on the cycle, because it does not subsume `a`
  have hnot : ∀ s, (h.inquireSubsumes s a).answer h = true → s ∈ b :: left → s ∈ left := by
    rintro s hsa hs
    refine (List.mem_cons.1 hs).resolve_left ?_
    rintro rfl
    rw [hba] at hsa
    cases hsa
  have hda : (h.inquireSubsumes d a).answer h = true :=
    hw.beyond_trans (b := .leastUpper) hdc hca
  refine ⟨(hafter a hleft).1, (hafter a hleft).2, c, d, hne, hcd, hdc, hca, ?_⟩
  rintro s (rfl | rfl)
  · exact hafter s (hnot s hca hc)
  · exact hafter s (hnot s hda hd)

/-- `c` is below the cycle of `a` and `b`. It comes after `a` if it is not given first. -/
theorem subsort_orders_or_stalls_knot :
    knot.Grown ∧ (knot.inquireProperlySubsumes (.named "a") (.named "c")).answer knot = true ∧
    (knot.inquireSubsumes (.named "c") (.named "a")).answer knot = false ∧
    ([.named "a", .named "c"] : List Ty).Sublist
      ((knot.subsort [.named "b", .named "c", .named "a"]).answer knot) := by
  have hac : (knot.inquireProperlySubsumes (.named "a") (.named "c")).answer knot = true := by
    decide +kernel
  have hca : (knot.inquireSubsumes (.named "c") (.named "a")).answer knot = false := by
    decide +kernel
  refine ⟨grown_knot, hac, hca, ?_⟩
  obtain ⟨-, horder⟩ :=
    grown_knot.subsort_orders_or_stalls [.named "b", .named "c", .named "a"]
  rcases horder (.named "a") (by decide) (.named "c") (by decide) hac hca with
    hbefore | ⟨-, hafter, -⟩
  · exact hbefore
  · exact absurd hafter (by decide +kernel)

/-- **A type that is merely below a cycle may be put ahead of it.** All three types are blocked, so
`c` is taken because it is given first. -/
theorem below_cycle_first_knot :
    knot.Grown ∧ (knot.inquireSubsumes (.named "a") (.named "b")).answer knot = true ∧
    (knot.inquireSubsumes (.named "b") (.named "a")).answer knot = true ∧
    (knot.inquireProperlySubsumes (.named "a") (.named "c")).answer knot = true ∧
    (knot.inquireSubsumes (.named "c") (.named "a")).answer knot = false ∧
    (knot.subsort [.named "c", .named "a", .named "b"]).answer knot =
      [.named "c", .named "a", .named "b"] ∧
    ¬ ([.named "a", .named "c"] : List Ty).Sublist
      ((knot.subsort [.named "c", .named "a", .named "b"]).answer knot) :=
  ⟨grown_knot, by decide +kernel, by decide +kernel, by decide +kernel, by decide +kernel,
    by decide +kernel, by decide +kernel⟩

end Taxonomy.Hierarchy
