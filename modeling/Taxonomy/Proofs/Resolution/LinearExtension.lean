import Taxonomy.Proofs.Resolution.Sorting

/-!
# The sort of an acyclic hierarchy

Without cycles a sort never stalls: it takes the first type that is not blocked, again and again
(`Acyclic.exists_not_blocked`). So no type is put after one that it properly subsumes, and among all
orders of this kind it is the first, if orders are compared place by place by where types have been
given (`Grown.subsort_first_ordered`). For whatever another such order begins with is not blocked
either, and if it is not what the sort takes, it was given later (`Takes.eq_or_lt`).

A list that is in such an order already begins with a type that is not blocked, and so on, which is
why it is left as it is, cycles or not (`Takes.eq_self`).
-/

namespace Taxonomy.Hierarchy

variable {h : Hierarchy} {t : Ty} {l rest remaining sorted : List Ty}

/-- No type comes after one that it properly subsumes. -/
def Ordered (h : Hierarchy) (l : List Ty) : Prop :=
  l.Pairwise fun a b ↦ (h.inquireProperlySubsumes b a).answer h = false

/-- What an ordered list begins with is not blocked. -/
theorem Ordered.not_blocked (ho : h.Ordered (t :: rest)) : ¬ h.Blocked (t :: rest) t := by
  rintro ⟨s, hs, hst⟩
  rcases List.mem_cons.1 hs with rfl | hs
  · exact (answer_inquireProperlySubsumes_iff.1 hst).2 rfl
  · rw [(List.pairwise_cons.1 ho).1 s hs] at hst
    cases hst

/-- Without cycles some type of a list is not blocked. -/
theorem Acyclic.exists_not_blocked (hc : h.Acyclic) (hw : h.WellFormed) (ht : t ∈ l) :
    ¬ ∀ s ∈ l, h.Blocked l s := by
  intro hall
  obtain ⟨c, -, d, -, hne, hcd, hdc, -⟩ := hw.exists_cycle_of_blocked hall ht
  exact hne (hc.beyond_antisymm (b := .leastUpper) hw hcd hdc)

namespace Takes

/-- **An ordered list is left as it is.** -/
theorem eq_self (ht : h.Takes remaining sorted) (ho : h.Ordered remaining) :
    sorted = remaining := by
  induction ht with
  | nil => rfl
  | @minimal before after sorted t hbefore _ _ ih =>
    -- the type taken is the first, since the first is not blocked
    cases before with
    | nil => exact congrArg (t :: ·) (ih (List.pairwise_cons.1 ho).2)
    | cons first before => exact absurd (hbefore first List.mem_cons_self) ho.not_blocked
  | @stalled t rest sorted hall _ _ => exact absurd (hall t List.mem_cons_self) ho.not_blocked

/-- Types are taken in order. -/
theorem ordered (ht : h.Takes remaining sorted) (hc : h.Acyclic) (hw : h.WellFormed) :
    h.Ordered sorted := by
  induction ht with
  | nil => exact .nil
  | @minimal before after sorted t _ hfree hrest ih =>
    refine List.pairwise_cons.2 ⟨fun s hs ↦ Bool.eq_false_iff.2 fun hst ↦ hfree ⟨s, ?_, hst⟩, ih⟩
    have hmem : s ∈ before ++ after := hrest.perm.mem_iff.1 hs
    exact ((List.sublist_cons_self t after).append_left before).subset hmem
  | stalled hall _ _ => exact absurd hall (hc.exists_not_blocked hw List.mem_cons_self)

/-- **No ordered rearrangement comes before the one taken**, if types that stand further on have
higher positions. -/
theorem eq_or_lt {position : Ty → Nat} (ht : h.Takes remaining sorted) (hc : h.Acyclic)
    (hw : h.WellFormed) (hposition : remaining.Pairwise (position · < position ·))
    (hl : l.Perm remaining) (ho : h.Ordered l) :
    l = sorted ∨ sorted.map position < l.map position := by
  induction ht generalizing l with
  | nil => exact .inl hl.eq_nil
  | @minimal before after sorted t hbefore _ _ ih =>
    cases l with
    | nil =>
      exact absurd (hl.mem_iff.2 (List.mem_append_right _ List.mem_cons_self)) List.not_mem_nil
    | cons first later =>
      have hfirst : ¬ h.Blocked (before ++ t :: after) first := fun ⟨s, hs, hst⟩ ↦
        ho.not_blocked ⟨s, hl.mem_iff.2 hs, hst⟩
      rw [List.map_cons, List.map_cons, List.cons_lt_cons_iff]
      rcases List.mem_append.1 (hl.mem_iff.1 List.mem_cons_self) with hmem | hmem
      · -- all types before `t` are blocked
        exact absurd (hbefore first hmem) hfirst
      rcases List.mem_cons.1 hmem with rfl | hmem
      · have hlater : later.Perm (before ++ after) := (hl.trans List.perm_middle).cons_inv
        have hsub := (List.sublist_cons_self first after).append_left before
        exact (ih (hposition.sublist hsub) hlater (List.pairwise_cons.1 ho).2).imp
          (congrArg (first :: ·)) fun hlt ↦ .inr ⟨rfl, hlt⟩
      · have hgiven := (List.pairwise_append.1 hposition).2.1
        exact .inr (.inl ((List.pairwise_cons.1 hgiven).1 first hmem))
  | stalled hall _ _ => exact absurd hall (hc.exists_not_blocked hw List.mem_cons_self)

end Takes

/-- **Sorting gives the first ordered arrangement.** In a hierarchy without cycles the distinct
types are rearranged so that no type comes after one that it properly subsumes. Among all such
orders of them it is lexicographically the first by where in the list each type first occurs. Types
that are in such an order, and distinct, are left as they are, so sorting a second time changes
nothing. -/
theorem Grown.subsort_first_ordered (hg : h.Grown) (hc : h.Acyclic) (types : List Ty) :
    let given := FinSet.firsts types
    let sorted := (h.subsort types).answer h
    sorted.Perm given ∧ h.Ordered sorted ∧
    (∀ l, l.Perm given → h.Ordered l →
      l = sorted ∨ sorted.map (types.idxOf ·) < l.map (types.idxOf ·)) ∧
    (types.Nodup → h.Ordered types → sorted = types) ∧
    (h.subsort sorted).answer h = sorted := by
  have hw : h.WellFormed := hg.wellFormed
  intro given sorted
  have htakes : h.Takes given sorted := takes_subsort h types
  have hunchanged : ∀ l : List Ty, l.Nodup → h.Ordered l → (h.subsort l).answer h = l := by
    intro l hnodup ho
    have hagain : h.Takes (FinSet.firsts l) ((h.subsort l).answer h) := takes_subsort h l
    rw [FinSet.firsts_eq_self hnodup] at hagain
    exact hagain.eq_self ho
  have hordered : h.Ordered sorted := htakes.ordered hc hw
  have hnodup : sorted.Nodup := htakes.perm.nodup_iff.2 (FinSet.nodup_firsts types)
  exact ⟨htakes.perm, hordered, fun l ↦ htakes.eq_or_lt hc hw (FinSet.pairwise_firsts types),
    hunchanged types, hunchanged sorted hnodup hordered⟩

/-- Reserved values, a stranger and a repeated type. The sort takes `a` before `z`, as it was given
first, and once sorted the types stay where they are. -/
theorem subsort_first_ordered_crown :
    let types : List Ty :=
      [.named "d", .named "a", .top, .undefined, .named "z", .named "c", .named "a", .named "b"]
    let sorted : List Ty :=
      [.undefined, .named "a", .named "z", .named "b", .named "d", .named "c", .top]
    let other : List Ty :=
      [.undefined, .named "z", .named "a", .named "b", .named "d", .named "c", .top]
    crown.Grown ∧ crown.Acyclic ∧ (crown.subsort types).answer crown = sorted ∧
    sorted.Perm (FinSet.firsts types) ∧ crown.Ordered sorted ∧ crown.Ordered other ∧
    sorted.map (types.idxOf ·) < other.map (types.idxOf ·) ∧
    (crown.subsort sorted).answer crown = sorted ∧ (crown.subsort other).answer crown = other := by
  intro types sorted other
  have hsorted : (crown.subsort types).answer crown = sorted := by decide +kernel
  have hother : crown.Ordered other := by
    rw [Ordered]
    decide +kernel
  obtain ⟨hperm, hordered, hfirst, -, hagain⟩ :=
    grown_crown.subsort_first_ordered acyclic_crown types
  obtain ⟨-, -, -, hunchanged, -⟩ := grown_crown.subsort_first_ordered acyclic_crown other
  rw [hsorted] at hperm hordered hfirst hagain
  refine ⟨grown_crown, acyclic_crown, hsorted, hperm, hordered, hother, ?_, hagain,
    hunchanged (by decide) hother⟩
  exact (hfirst other (by decide +kernel) hother).resolve_left (by decide)

end Taxonomy.Hierarchy
