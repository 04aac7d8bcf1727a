import Taxonomy.Proofs.Resolution.MemberFold

/-!
# Deterministic hierarchies

The test for determinism looks at least upper bounds alone. Without cycles that settles greatest
lower bounds as well, and as the root is above all members, two members of a deterministic hierarchy
have exactly one (`Grown.isDeterministic_iff_meets_unique`). So meets of members never fail.

Joins may fail, for want of a common descendant. Still a deterministic hierarchy, with the reserved
values before and after it, has all joins and all meets of finitely many types, and a fold finds
them whatever order its operands come in (`Grown.fold_eq_of_deterministic`).
-/

open Relation

namespace Taxonomy.Hierarchy

variable {h : Hierarchy} {b : Bound} {l m : List Ty} {s t v w z : Ty} {setting : Setting}

/-! ## Meets -/

/-- The root is beyond all members where greatest lower bounds are looked for. -/
theorem WellFormed.beyond_root (hw : h.WellFormed) (ht : h.hasType t) :
    h.Beyond .greatestLower t h.root := by
  rw [hw.beyond_iff_of_hasType ht]
  exact .inr ((hw.mirrored.reflTransGen_opposite_iff (d := .down)).2 (hw.reached t ht))

/-- Two members have a greatest lower bound, and only one if none has several. -/
theorem Unambiguous.exists_only_meet (hu : h.Unambiguous .greatestLower) (hc : h.Acyclic)
    (hw : h.WellFormed) (hs : h.hasType s) (ht : h.hasType t) :
    ∃ w, (h.inquireBounds .greatestLower s t).answer h = [w] := by
  by_contra hnone
  have hroot : h.root = Reserved.absorbing .greatestLower :=
    hu.eq_absorbing hc hw (not_exists.1 hnone) (hw.beyond_root hs) (hw.beyond_root ht)
  exact hw.not_hasType_absorbing .greatestLower (hroot ▸ hw.hasType_root)

/-- Greatest lower bounds are unambiguous if any two members have exactly one. -/
theorem unambiguous_of_length_eq_one (hw : h.WellFormed)
    (hone : ∀ s t, h.hasType s → h.hasType t →
      ((h.inquireBounds .greatestLower s t).answer h).length = 1) :
    h.Unambiguous .greatestLower := by
  refine .of_ne hw.mirrored fun s t hs ht hst ↦ ?_
  have hlength := hone s t hs ht
  rw [hw.answer_inquireBounds_of_ne hs ht hst, FinSet.length_toList] at hlength
  exact FinSet.size_le_one_iff.1 (Nat.le_of_eq hlength)

/-- **Deterministic hierarchies are those with unique meets.** No two members have several least
upper bounds exactly if any two members have one greatest lower bound. A meet of members is then a
member, whether or not it is asked if they are members; so it never fails. -/
theorem Grown.isDeterministic_iff_meets_unique (hg : h.Grown) (hc : h.Acyclic) :
    (h.isDeterministic.answer h = true ↔ ∀ s t, h.hasType s → h.hasType t →
      ((h.inquireBounds .greatestLower s t).answer h).length = 1) ∧
    (h.isDeterministic.answer h = true → ∀ setting l, l ≠ [] → (∀ t ∈ l, h.hasType t) →
      h.hasType ((h.fold setting .greatestLower (l.map .type)).answer h) ∧
      h.hasType ((foldTypes setting .greatestLower l).answer h)) := by
  have hw : h.WellFormed := hg.wellFormed
  have hdual : h.isDeterministic.answer h = true ↔ h.Unambiguous .greatestLower :=
    (answer_isDeterministic_iff hw.mirrored).trans (unambiguous_dual_iff hc hw.mirrored).symm
  rw [hdual]
  constructor
  · refine ⟨fun hu s t hs ht ↦ ?_, unambiguous_of_length_eq_one hw⟩
    obtain ⟨w, honly⟩ := hu.exists_only_meet hc hw hs ht
    rw [honly, List.length_singleton]
  · intro hu setting l hl hmem
    rw [answer_fold, answer_foldTypes hw hmem, and_self]
    have hsum := hu.sumsUp_fold hc hw l
    obtain ⟨t, ht⟩ := List.exists_mem_of_ne_nil l hl
    refine hsum.hasType hw ht (hmem t ht) fun hfail ↦ ?_
    -- the root is beyond all of them, so a failure would be the root
    have hroot : h.Beyond .greatestLower (Reserved.absorbing .greatestLower) h.root :=
      hfail ▸ (hsum h.root).2 fun t ht ↦ hw.beyond_root (hmem t ht)
    have heq : h.root = Reserved.absorbing .greatestLower := hw.beyond_absorbing_iff.1 hroot
    exact hw.not_hasType_absorbing .greatestLower (heq ▸ hw.hasType_root)

/-! ## Joins and meets of any types -/

/-- **A deterministic hierarchy is a lattice** once the reserved values are added. Joins and meets
of any types depend only on which types they are. The join of members is the most general member
that all of them subsume, or `top` if there is no such member. -/
theorem Grown.fold_eq_of_deterministic (hg : h.Grown) (hc : h.Acyclic)
    (hd : h.isDeterministic.answer h = true) (setting : Setting) :
    (∀ b (l m : List Ty), (∀ t, t ∈ l ↔ t ∈ m) →
      (h.fold setting b (l.map .type)).answer h = (h.fold setting b (m.map .type)).answer h) ∧
    ∀ l : List Ty, l ≠ [] → (∀ t ∈ l, h.hasType t) →
      ((h.fold setting .leastUpper (l.map .type)).answer h = .top ↔
        ¬ ∃ z, h.hasType z ∧ ∀ t ∈ l, (h.inquireSubsumes t z).answer h = true) ∧
      ((h.fold setting .leastUpper (l.map .type)).answer h ≠ .top → ∀ v,
        v = (h.fold setting .leastUpper (l.map .type)).answer h ↔
          h.hasType v ∧ (∀ t ∈ l, (h.inquireSubsumes t v).answer h = true) ∧
            ∀ z, h.hasType z → (∀ t ∈ l, (h.inquireSubsumes t z).answer h = true) →
              (h.inquireSubsumes v z).answer h = true) := by
  have hw : h.WellFormed := hg.wellFormed
  have hjoins : h.Unambiguous .leastUpper := (answer_isDeterministic_iff hw.mirrored).1 hd
  have hsum : ∀ b (l : List Ty), h.SumsUp b l ((h.fold setting b (l.map .type)).answer h) := by
    intro b l
    rw [answer_fold]
    cases b with
    | leastUpper => exact hjoins.sumsUp_fold hc hw l
    | greatestLower =>
      have hmeets : h.Unambiguous .greatestLower := hjoins.dual hc hw.mirrored
      exact hmeets.sumsUp_fold hc hw l
  refine ⟨fun b l m hlm ↦ (hsum b l).unique (hsum b m) hlm hc hw, fun l hl hmem ↦ ?_⟩
  obtain ⟨t, ht⟩ := List.exists_mem_of_ne_nil l hl
  have hjoin := hsum .leastUpper l
  generalize (h.fold setting .leastUpper (l.map .type)).answer h = join at hjoin
  have hsubsumes : ∀ z, (h.inquireSubsumes join z).answer h = true ↔
      ∀ t ∈ l, (h.inquireSubsumes t z).answer h = true := hjoin
  have hself : ∀ t ∈ l, (h.inquireSubsumes t join).answer h = true :=
    (hsubsumes join).1 (hw.beyond_refl .leastUpper join)
  have hmember : join ≠ .top → h.hasType join := hjoin.hasType hw ht (hmem t ht)
  constructor
  · constructor
    · rintro rfl ⟨z, hz, hall⟩
      have htop : z = Reserved.absorbing .leastUpper := hw.beyond_absorbing_iff.1 ((hjoin z).2 hall)
      exact hw.not_hasType_absorbing .leastUpper (htop ▸ hz)
    · exact fun hnone ↦ by_contra fun hne ↦ hnone ⟨join, hmember hne, hself⟩
  · intro hne v
    constructor
    · rintro rfl
      exact ⟨hmember hne, hself, fun z _ hall ↦ (hsubsumes z).2 hall⟩
    · rintro ⟨-, hall, hgeneral⟩
      exact hc.beyond_antisymm (b := .leastUpper) hw (hgeneral join (hmember hne) hself)
        ((hsubsumes v).2 hall)

/-- Two types, `a` and `b`, with one type below both. -/
def diamond : Hierarchy :=
  [.add "a" [], .add "b" [], .add "c" ["a", "b"]].foldl
    (fun h r ↦ (h.serve {} r).value.1) (Hierarchy.new "r")

theorem grown_diamond : diamond.Grown := by
  refine Grown.foldl_serve (.new "r") {} ?_
  simp [Request.sources]

theorem acyclic_diamond : diamond.Acyclic :=
  grown_diamond.wellFormed.mirrored.acyclic_iff.2 (by decide +kernel)

/-- No tree, but deterministic. -/
theorem isDeterministic_iff_meets_unique_diamond :
    diamond.Grown ∧ diamond.Acyclic ∧ diamond.isTree = false ∧
    ((diamond.inquireBounds .greatestLower (.named "a") (.named "b")).answer diamond).length = 1 ∧
    diamond.hasType ((foldTypes ⟨{}, fun _ ↦ .bare⟩ .greatestLower
      [.named "c", .named "b", .named "a"]).answer diamond) := by
  obtain ⟨hunique, hmeet⟩ := grown_diamond.isDeterministic_iff_meets_unique acyclic_diamond
  have hd : diamond.isDeterministic.answer diamond = true := by decide +kernel
  refine ⟨grown_diamond, acyclic_diamond, by decide +kernel, ?_, ?_⟩
  · exact hunique.1 hd _ _ (by decide) (by decide)
  · exact (hmeet hd _ _ (List.cons_ne_nil _ _) (by decide)).2

/-- Joins of a stranger and reserved values, and the join of two members. -/
theorem fold_eq_of_deterministic_diamond :
    diamond.Grown ∧ diamond.Acyclic ∧ diamond.isDeterministic.answer diamond = true ∧
    (diamond.fold ⟨{}, fun _ ↦ .bare⟩ .leastUpper
      ([.named "z", .undefined, .named "a"].map .type)).answer diamond =
        (diamond.fold ⟨{}, fun _ ↦ .bare⟩ .leastUpper
          ([.named "a", .named "z", .named "z", .undefined].map .type)).answer diamond ∧
    (diamond.inquireSubsumes (.named "b") ((diamond.fold ⟨{}, fun _ ↦ .bare⟩ .leastUpper
      ([.named "a", .named "b"].map .type)).answer diamond)).answer diamond = true := by
  have hd : diamond.isDeterministic.answer diamond = true := by decide +kernel
  obtain ⟨horder, hjoin⟩ :=
    grown_diamond.fold_eq_of_deterministic acyclic_diamond hd ⟨{}, fun _ ↦ .bare⟩
  obtain ⟨-, hgeneral⟩ := hjoin [.named "a", .named "b"] (List.cons_ne_nil _ _) (by decide)
  refine ⟨grown_diamond, acyclic_diamond, hd, horder _ _ _ ?_, ?_⟩
  · intro t
    simp only [List.mem_cons, List.not_mem_nil, or_false]
    tauto
  · exact ((hgeneral (by decide +kernel) _).1 rfl).2.1 _ (by decide)

end Taxonomy.Hierarchy
