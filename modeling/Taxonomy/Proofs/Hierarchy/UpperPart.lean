import Taxonomy.Proofs.Hierarchy.Comparison
import Taxonomy.Proofs.Hierarchy.EditedOrder
import Taxonomy.Proofs.Hierarchy.ReservedNames

/-!
# Adding a type and taking it back

A type that is added leaves everything above it alone. What there was before is the *upper part* of
what there is then (`UpperPart`): members have been added to it, but no edge into one of its own
members has been added or taken away, so nothing new is above what is old. Hence paths between old
members are what they were, and so are their ancestors.

Removing a member that is not in the upper part keeps it the upper part (`UpperPart.removeNode`).
The edges that a removal puts in lead to children of the removed type, and these are not in the
upper part either. So it does not matter in which order the new members are removed, nor in how many
requests. When the last one is gone the upper part is all that is left, and it was never touched.
-/

open Relation

namespace Taxonomy.Hierarchy

variable {h k : Hierarchy} {a b p t u v : Ty} {parents : FinSet Ty} {name : String}
  {names : List String} {spelling : Spelling}

/-- `k` is `h` with members that were not in `h` put below it. -/
structure UpperPart (h k : Hierarchy) : Prop where
  root_eq : k.root = h.root
  attributes_eq : k.attributes = h.attributes
  ownAttributes_eq : k.ownAttributes = h.ownAttributes
  hasType_of : ∀ u, h.hasType u → k.hasType u
  edge_iff : ∀ a b, h.hasType b → (k.Edge a b ↔ h.Edge a b)

namespace UpperPart

/-- The generation makes no difference. -/
theorem advance (hk : UpperPart h k) : UpperPart h k.advance :=
  ⟨hk.root_eq, hk.attributes_eq, hk.ownAttributes_eq, hk.hasType_of, hk.edge_iff⟩

/-! ## What is the same in the upper part -/

/-- **Paths to an old member** are what they were. -/
theorem reflTransGen_iff (hk : UpperPart h k) (hm : h.Mirrored) (hv : h.hasType v) :
    ReflTransGen k.Edge u v ↔ ReflTransGen h.Edge u v := by
  constructor
  · intro hp
    -- from the end up, every type on the path turns out to be old
    induction hp using ReflTransGen.head_induction_on with
    | refl => exact .refl
    | @head x y hxy _ ih =>
      have hy : h.hasType y := by
        rcases ih.cases_head with rfl | ⟨z, hyz, -⟩
        · exact hv
        · exact hm.hasType_left hyz
      exact .head ((hk.edge_iff x y hy).1 hxy) ih
  · exact ReflTransGen.mono (fun x y he ↦ (hk.edge_iff x y (hm.hasType_right he)).2 he) _ _

theorem ancestors_eq (hk : UpperPart h k) (hm : h.Mirrored) (hkm : k.Mirrored)
    (hv : h.hasType v) : k.ancestors v = h.ancestors v := by
  refine FinSet.ext fun a ↦ ?_
  rw [mem_ancestors_iff hkm, mem_ancestors_iff hm, TransGen.tail'_iff, TransGen.tail'_iff]
  refine exists_congr fun x ↦ ?_
  rw [hk.edge_iff x v hv]
  exact and_congr_left fun he ↦ hk.reflTransGen_iff hm (hm.hasType_left he)

/-- **Subsumption between old members** is what it was. -/
theorem answer_inquireSubsumes_eq (hk : UpperPart h k) (hw : h.WellFormed) (hkw : k.WellFormed)
    (hu : h.hasType u) (hv : h.hasType v) :
    (k.inquireSubsumes u v).answer k = (h.inquireSubsumes u v).answer h := by
  rw [Bool.eq_iff_iff, hkw.answer_inquireSubsumes_iff (hk.hasType_of u hu) (hk.hasType_of v hv),
    hw.answer_inquireSubsumes_iff hu hv, hk.reflTransGen_iff hw.mirrored hv]

/-- An upper part without anything below it is all there is. -/
theorem sameAs (hk : UpperPart h k) (hm : h.Mirrored) (hkm : k.Mirrored)
    (hmem : ∀ u, k.hasType u → h.hasType u) : k.sameAs h := by
  rw [hkm.sameAs_iff hm]
  refine ⟨hk.root_eq, ⟨fun u ↦ ⟨hmem u, hk.hasType_of u⟩, fun a b ↦ ?_⟩, hk.ownAttributes_eq, ?_⟩
  · constructor
    · exact fun he ↦ (hk.edge_iff a b (hmem b (hkm.hasType_right he))).1 he
    · exact fun he ↦ (hk.edge_iff a b (hm.hasType_right he)).2 he
  · intro u key
    rw [attributeOf?, hk.attributes_eq, attributeOf?]

/-! ## What keeps the upper part -/

/-- A type that is inserted goes below what there is. -/
theorem insertBelow (hfresh : ¬ h.hasType t) : UpperPart h (h.insertBelow t parents) where
  root_eq := by simp [Hierarchy.insertBelow]
  attributes_eq := by simp [Hierarchy.insertBelow]
  ownAttributes_eq := by simp [Hierarchy.insertBelow]
  hasType_of u hu := hasType_insertBelow.2 (.inr (.inr hu))
  edge_iff a b hb := by
    have hbt : b ≠ t := fun heq ↦ hfresh (heq ▸ hb)
    simp [edge_insertBelow, hb, hbt]

/-- A new member may be removed. -/
theorem removeNode (hk : UpperPart h k) (hw : h.WellFormed) (hkw : k.WellFormed)
    (ht : k.hasType t) (hroot : t ≠ k.root) (hnew : ¬ h.hasType t) :
    UpperPart h (k.removeNode t) where
  root_eq := (hkw.root_removeNode ht hroot).trans hk.root_eq
  attributes_eq := by
    have hnone : h.attributes.get? t = none := by
      have hnot : ¬ h.attributes.contains t := fun hmem ↦ hnew (hw.annotated t hmem)
      simpa [FinMap.contains] using hnot
    rw [hkw.attributes_removeNode ht hroot, hk.attributes_eq, FinMap.erase_of_get?_eq_none hnone]
  ownAttributes_eq := (hkw.ownAttributes_removeNode ht hroot).trans hk.ownAttributes_eq
  hasType_of u hu := by
    rw [hkw.hasType_removeNode ht hroot]
    exact ⟨fun heq ↦ hnew (heq ▸ hu), hk.hasType_of u hu⟩
  edge_iff a b hb := by
    have hold : ∀ a, k.Edge a b → h.hasType a := fun a he ↦
      hw.mirrored.hasType_left ((hk.edge_iff a b hb).1 he)
    rw [hkw.edge_removeNode ht hroot, ← hk.edge_iff a b hb]
    constructor
    · rintro ⟨-, -, he | ⟨⟨-, htb⟩, -⟩⟩
      · exact he
      · -- the removed type would be above an old member
        exact absurd (hold t htb) hnew
    · intro he
      exact ⟨fun heq ↦ hnew (heq ▸ hold a he), fun heq ↦ hnew (heq ▸ hb), .inl he⟩

theorem remove (hk : UpperPart h k) (hw : h.WellFormed) (hkw : k.WellFormed)
    (hnew : ∀ name ∈ names, ¬ h.hasType (.named name)) : UpperPart h (k.remove names).value := by
  have hremoved : UpperPart h (k.removeEach names).value :=
    (hkw.removeEach_induction hk fun l name hname hl ht hroot hpart ↦
      hpart.removeNode hw hl ht hroot (hnew name hname)).2
  rw [value_remove]
  split
  · exact hremoved
  · exact hremoved.advance

/-- **New members may be removed in any order**, by any number of requests. -/
theorem foldl_remove {batches : List (List String)} (hk : UpperPart h k) (hw : h.WellFormed)
    (hkw : k.WellFormed) (hnew : ∀ name ∈ batches.flatten, ¬ h.hasType (.named name)) :
    let last := batches.foldl (fun k names ↦ (k.remove names).value) k
    last.WellFormed ∧ UpperPart h last ∧
      ∀ u, last.hasType u → k.hasType u ∧ ∀ name ∈ batches.flatten, u ≠ .named name := by
  induction batches generalizing k with
  | nil => exact ⟨hkw, hk, fun u hu ↦ ⟨hu, by simp⟩⟩
  | cons names rest ih =>
    rw [List.flatten_cons, List.forall_mem_append] at hnew
    obtain ⟨hnames, hrest⟩ := hnew
    obtain ⟨hlast, hpart, hmem⟩ := ih (hk.remove hw hkw hnames) hkw.remove hrest
    refine ⟨hlast, hpart, fun u hu ↦ ?_⟩
    obtain ⟨hu, hnotrest⟩ := hmem u hu
    obtain ⟨hu, hstays⟩ := hkw.hasType_remove.1 hu
    refine ⟨hu, ?_⟩
    rw [List.flatten_cons, List.forall_mem_append]
    refine ⟨fun name hname ↦ ?_, hnotrest⟩
    rcases hstays with rfl | hnot
    · -- the root is old
      rintro heq
      rw [hk.root_eq] at heq
      exact hnames name hname (heq ▸ hw.hasType_root)
    · exact hnot name hname

end UpperPart

/-! ## The inserted type -/

/-- What has become of `h` if `k` has been got from it by inserting `t` below `parents`. -/
structure InsertedBelow (h k : Hierarchy) (t : Ty) (parents : FinSet Ty) : Prop where
  hasType_iff : ∀ u, k.hasType u = true ↔ u = t ∨ u ∈ parents ∨ h.hasType u = true
  childrenOf_eq : k.childrenOf t = ∅
  mem_parentsOf_iff : ∀ p, p ∈ k.parentsOf t ↔ p ∈ parents ∨ p = h.root ∧ ∀ q, q ∉ parents
  mem_ancestors_iff : ∀ a, a ∈ k.ancestors t ↔
    ∃ p, (p ∈ parents ∨ p = h.root ∧ ∀ q, q ∉ parents) ∧ (a = p ∨ a ∈ k.ancestors p)
  ancestors_created : ∀ p ∈ parents, h.hasType p = false → k.ancestors p = FinSet.ofList [h.root]
  ancestors_of_hasType : ∀ u, h.hasType u = true → k.ancestors u = h.ancestors u

/-- A type that is no member is inserted as a leaf. -/
theorem WellFormed.inserted_insertBelow (hw : h.WellFormed) (hfresh : ¬ h.hasType t)
    (hnamed : ∃ name, t = .named name) (hparents : ∀ p ∈ parents, ∃ name, p = .named name)
    (hself : t ∉ parents) : InsertedBelow h (h.insertBelow t parents) t parents := by
  have hk : (h.insertBelow t parents).WellFormed := hw.insertBelow hfresh hnamed hparents hself
  have hpart : UpperPart h (h.insertBelow t parents) := .insertBelow hfresh
  have hroot : t ≠ h.root := fun heq ↦ hfresh (heq ▸ hw.hasType_root)
  have hmem : ∀ p u, p ∈ (h.insertBelow t parents).parentsOf u ↔
      h.Edge p u ∨ p = h.root ∧ u ∈ parents ∧ ¬ h.hasType u ∨ p ∈ h.orRoot parents ∧ u = t :=
    fun p u ↦ (hk.mirrored.mem_parentsOf_iff p u).trans edge_insertBelow
  have hparentsOf : ∀ p, p ∈ (h.insertBelow t parents).parentsOf t ↔
      p ∈ parents ∨ p = h.root ∧ ∀ q, q ∉ parents := by
    intro p
    have hedge : ¬ h.Edge p t := fun he ↦ hfresh (hw.mirrored.hasType_right he)
    rw [hmem, ← mem_orRoot]
    simp [hedge, hself]
  constructor
  case hasType_iff =>
    exact fun u ↦ hasType_insertBelow
  case childrenOf_eq =>
    refine FinSet.ext fun b ↦ iff_of_false (fun he ↦ ?_) (FinSet.not_mem_empty b)
    rcases edge_insertBelow.1 he with he | ⟨heq, -⟩ | ⟨hmem, -⟩
    · exact hfresh (hw.mirrored.hasType_left he)
    · exact hroot heq
    · exact (eq_root_or_mem_of_mem_orRoot hmem).elim hroot hself
  case mem_parentsOf_iff =>
    exact hparentsOf
  case mem_ancestors_iff =>
    intro a
    rw [hk.mirrored.mem_ancestors_iff_parentsOf]
    exact exists_congr fun p ↦ and_congr_left fun _ ↦ hparentsOf p
  case ancestors_created =>
    intro p hp hnew
    have hne : p ≠ t := fun heq ↦ hself (heq ▸ hp)
    have hcreated : ∀ x, x ∈ (h.insertBelow t parents).parentsOf p ↔ x = h.root := by
      intro x
      have hnone : ¬ h.Edge x p := fun he ↦
        Bool.eq_false_iff.1 hnew (hw.mirrored.hasType_right he)
      rw [hmem]
      simp [hnone, hne, hp, hnew]
    refine FinSet.ext fun a ↦ ?_
    rw [hk.mirrored.mem_ancestors_iff_parentsOf, FinSet.mem_ofList, List.mem_singleton]
    simp only [hcreated, exists_eq_left]
    -- nothing is above the root
    refine or_iff_left fun habove ↦ ?_
    obtain ⟨x, hx, -⟩ := hk.mirrored.mem_ancestors_iff_parentsOf.1 habove
    rw [← hpart.root_eq, hk.mirrored.mem_parentsOf_iff] at hx
    exact hk.not_edge_root x hx
  case ancestors_of_hasType =>
    exact fun u ↦ hpart.ancestors_eq hw.mirrored hk.mirrored

/-! ## Adding by request -/

/-- Adding a type that is no member inserts it. -/
theorem value_add_of_fresh (hfresh : h.hasType (.named name) = false)
    (hname : spelling.reserves name = false) (hopen : ∀ p ∈ names, spelling.reserves p = false) :
    (h.add spelling name names).value =
      h.insertBelow (.named name) (requestedParents name names) := by
  have hmem : ¬ h.hasType (.named name) = true := Bool.eq_false_iff.1 hfresh
  rw [add, unlessReserved_eq (List.forall_mem_cons.2 ⟨hname, hopen⟩), if_neg hmem]
  rfl

/-- **Adding a type changes nothing else, and removing it takes it back.** Subsumption between the
members there were stays as it was. The new member has no children, and above it are the parents
asked for, the type itself aside, or else the root, with all that is above them. If it is removed,
and with it the parents that became members, the hierarchy is equal to the one there was, whatever
the order in which they go and the number of requests. -/
theorem Grown.add_is_undone (hg : h.Grown) (spelling : Spelling) (name : String)
    (names : List String) (hfresh : h.hasType (.named name) = false)
    (hname : spelling.reserves name = false) (hopen : ∀ p ∈ names, spelling.reserves p = false) :
    (∀ u v, h.hasType u = true → h.hasType v = true →
      ((h.add spelling name names).value.inquireSubsumes u v).answer
        (h.add spelling name names).value = (h.inquireSubsumes u v).answer h) ∧
    InsertedBelow h (h.add spelling name names).value (.named name)
      (requestedParents name names) ∧
    ∀ batches : List (List String),
      (∀ m, m ∈ batches.flatten ↔ m = name ∨ m ∈ names ∧ h.hasType (.named m) = false) →
      (batches.foldl (fun k names ↦ (k.remove names).value)
        (h.add spelling name names).value).sameAs h = true := by
  have hw : h.WellFormed := hg.wellFormed
  have hkw : (h.add spelling name names).value.WellFormed := hw.add
  have hnot : ¬ h.hasType (.named name) = true := Bool.eq_false_iff.1 hfresh
  have hadd : (h.add spelling name names).value =
      h.insertBelow (.named name) (requestedParents name names) :=
    value_add_of_fresh hfresh hname hopen
  have hpart : UpperPart h (h.add spelling name names).value := by
    rw [hadd]
    exact .insertBelow hnot
  have hinserted : InsertedBelow h (h.add spelling name names).value (.named name)
      (requestedParents name names) := by
    rw [hadd]
    exact hw.inserted_insertBelow hnot ⟨name, rfl⟩ (fun _ ↦ named_of_mem_requestedParents)
      not_mem_requestedParents
  refine ⟨fun u v ↦ hpart.answer_inquireSubsumes_eq hw hkw, hinserted, fun batches hbatches ↦ ?_⟩
  have hnew : ∀ m ∈ batches.flatten, ¬ h.hasType (.named m) := by
    intro m hm
    rcases (hbatches m).1 hm with rfl | ⟨-, hcreated⟩
    · exact hnot
    · exact Bool.eq_false_iff.1 hcreated
  obtain ⟨hlast, hpart, hmem⟩ := hpart.foldl_remove hw hkw hnew
  refine hpart.sameAs hw.mirrored hlast.mirrored fun u hu ↦ ?_
  obtain ⟨hu, hstays⟩ := hmem u hu
  rcases (hinserted.hasType_iff u).1 hu with rfl | hrequested | hold
  · exact absurd rfl (hstays name ((hbatches name).2 (.inl rfl)))
  · by_contra hcreated
    obtain ⟨⟨p, hp, rfl⟩, -⟩ := mem_requestedParents.1 hrequested
    exact hstays p ((hbatches p).2 (.inr ⟨hp, Bool.eq_false_iff.2 hcreated⟩)) rfl
  · exact hold

/-- A type below a member on a cycle, itself and a missing type: the missing one may go first, which
leaves the type below the root as well, or last. -/
theorem add_is_undone_knot :
    knot.Grown ∧ knot.hasType (.named "d") = false ∧
    (knot.add {} "d" ["b", "d", "e", "b"]).value.ancestors (.named "e") =
      FinSet.ofList [.named "r"] ∧
    ((knot.add {} "d" ["b", "d", "e", "b"]).value.inquireSubsumes (.named "a") (.named "c")).answer
      (knot.add {} "d" ["b", "d", "e", "b"]).value = true ∧
    (((knot.add {} "d" ["b", "d", "e", "b"]).value.remove ["e"]).value.remove
      ["d"]).value.sameAs knot = true ∧
    ((knot.add {} "d" ["b", "d", "e", "b"]).value.remove ["d", "e"]).value.sameAs knot = true := by
  obtain ⟨horder, hinserted, hundone⟩ := grown_knot.add_is_undone {} "d" ["b", "d", "e", "b"]
    (by decide) (by decide) (by decide)
  have hcreated : ∀ m ∈ ["b", "d", "e", "b"], knot.hasType (.named m) = false →
      m = "d" ∨ m = "e" := by decide
  have hbatches : ∀ batches : List (List String), (∀ m, m ∈ batches.flatten ↔ m = "d" ∨ m = "e") →
      ∀ m, m ∈ batches.flatten ↔
        m = "d" ∨ m ∈ ["b", "d", "e", "b"] ∧ knot.hasType (.named m) = false := by
    intro batches hflatten m
    rw [hflatten]
    constructor
    · rintro (rfl | rfl)
      · exact .inl rfl
      · exact .inr ⟨by decide, by decide⟩
    · rintro (heq | ⟨hmem, hnew⟩)
      · exact .inl heq
      · exact hcreated m hmem hnew
  refine ⟨grown_knot, by decide, hinserted.ancestors_created _ (by decide) (by decide), ?_,
    hundone [["e"], ["d"]] (hbatches _ (by simp [or_comm])),
    hundone [["d", "e"]] (hbatches _ (by simp))⟩
  rw [horder _ _ (by decide) (by decide)]
  decide +kernel

end Taxonomy.Hierarchy
