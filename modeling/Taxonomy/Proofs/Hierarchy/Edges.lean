import Mathlib.Logic.Relation
import Mathlib.Tactic.Tauto
import Taxonomy.Hierarchy.Basic

/-!
# The edges of a hierarchy

`Hierarchy.Edge` is the relation between a type and its immediate children. Most of what can be said
about a hierarchy is said about this relation, once the two maps that store it are `Mirrored`: they
have the same keys and are inverse to each other.

## Elementary changes

Each elementary change comes with a lemma on the members (`hasType_`), one on the edges (`edge_`)
and one that says when it keeps the maps mirrored. Adding and removing edges between members touches
nothing but the edges. `Rewired h k` says that `k` was got from `h` so, and is kept by each further
change, so that what a longer edit does to the edges is the only thing left to prove about it.
-/

namespace Taxonomy.Hierarchy

variable {h k l : Hierarchy} {a b parent child t u : Ty}

/-- There is an edge from `a` to its child `b`. -/
def Edge (h : Hierarchy) (a b : Ty) : Prop := b ∈ h.childrenOf a

/-- The maps of parents and of children have the same keys and are inverse to each other. -/
structure Mirrored (h : Hierarchy) : Prop where
  contains_children_iff : ∀ t, h.children.contains t ↔ h.hasType t
  mem_parentsOf_iff : ∀ a b, a ∈ h.parentsOf b ↔ h.Edge a b

/-- `k` has the root, the members and the edges of `h`. -/
structure SameStructure (h k : Hierarchy) : Prop where
  root_eq : k.root = h.root
  parents_eq : k.parents = h.parents
  children_eq : k.children = h.children

namespace SameStructure

@[refl] theorem refl (h : Hierarchy) : SameStructure h h := ⟨rfl, rfl, rfl⟩

theorem trans (hk : SameStructure h k) (hl : SameStructure k l) : SameStructure h l where
  root_eq := hl.root_eq.trans hk.root_eq
  parents_eq := hl.parents_eq.trans hk.parents_eq
  children_eq := hl.children_eq.trans hk.children_eq

/-- What does not look at annotations or at the generation depends on the structure alone. -/
theorem congr {α : Type} (hk : SameStructure h k) (f : Hierarchy → α)
    (hf : ∀ attributes own generation,
      f { h with attributes, ownAttributes := own, generation } = f h) : f k = f h := by
  obtain ⟨root, parents, children, attributes, own, generation⟩ := k
  obtain rfl : root = h.root := hk.root_eq
  obtain rfl : parents = h.parents := hk.parents_eq
  obtain rfl : children = h.children := hk.children_eq
  exact hf attributes own generation

end SameStructure

theorem mem_types : t ∈ h.types ↔ h.hasType t := FinMap.contains_iff_mem_keys.symm

/-- A bound key is one that look-up finds. -/
private theorem contains_of_mem_getD {m : FinMap Ty (FinSet Ty)} (hb : b ∈ m.getD a ∅) :
    m.contains a := by
  rw [FinMap.getD] at hb
  rw [FinMap.contains]
  cases hm : m.get? a with
  | none =>
    rw [hm] at hb
    exact absurd hb (FinSet.not_mem_empty b)
  | some s => rfl

theorem hasType_of_mem_parentsOf (hb : a ∈ h.parentsOf b) : h.hasType b := contains_of_mem_getD hb

namespace Mirrored

/-- Whoever has a child is a member. -/
theorem hasType_left (hm : h.Mirrored) (he : h.Edge a b) : h.hasType a :=
  (hm.contains_children_iff a).1 (contains_of_mem_getD he)

/-- Whoever has a parent is a member. -/
theorem hasType_right (hm : h.Mirrored) (he : h.Edge a b) : h.hasType b :=
  hasType_of_mem_parentsOf ((hm.mem_parentsOf_iff a b).2 he)

theorem parentsOf_isEmpty_iff (hm : h.Mirrored) : (h.parentsOf b).isEmpty ↔ ∀ a, ¬ h.Edge a b := by
  rw [FinSet.isEmpty_iff]
  exact forall_congr' fun a ↦ not_congr (hm.mem_parentsOf_iff a b)

end Mirrored

/-! ## Members and edges after elementary changes -/

theorem hasType_insertNode : (h.insertNode t).hasType u ↔ u = t ∨ h.hasType u := by
  rw [insertNode]
  split
  · rename_i ht
    exact ⟨.inr, fun hu ↦ hu.elim (· ▸ ht) id⟩
  · exact FinMap.contains_insert

theorem edge_insertNode : (h.insertNode t).Edge a b ↔ h.Edge a b := by
  rw [insertNode]
  split
  · rfl
  · rw [Edge, childrenOf, FinMap.getD, FinMap.get?_upsert, Edge, childrenOf, FinMap.getD]
    by_cases ha : a = t <;> simp [ha, FinMap.getD]

theorem mem_parentsOf_insertNode : a ∈ (h.insertNode t).parentsOf b ↔ a ∈ h.parentsOf b := by
  rw [insertNode]
  split
  · rfl
  · rename_i ht
    rw [parentsOf, FinMap.getD, FinMap.get?_insert, parentsOf, FinMap.getD]
    by_cases hb : b = t
    · have hnone : h.parents.get? t = none := by
        simpa [hasType, FinMap.contains] using ht
      simp [hb, hnone]
    · simp [hb]

theorem hasType_link : (h.link parent child).hasType t ↔ t = child ∨ h.hasType t :=
  FinMap.contains_upsert

theorem edge_link : (h.link parent child).Edge a b ↔ h.Edge a b ∨ a = parent ∧ b = child := by
  rw [Edge, childrenOf_link, Edge]
  by_cases ha : a = parent
  · simp [ha, or_comm]
  · simp [ha]

theorem hasType_unlink : (h.unlink parent child).hasType t = h.hasType t :=
  FinMap.contains_modify

theorem edge_unlink :
    (h.unlink parent child).Edge a b ↔ h.Edge a b ∧ ¬ (a = parent ∧ b = child) := by
  rw [Edge, childrenOf_unlink, Edge]
  by_cases ha : a = parent <;> simp [ha]

theorem hasType_forget : (h.forget t).hasType u ↔ u ≠ t ∧ h.hasType u := FinMap.contains_erase

theorem contains_attributes_forget :
    (h.forget t).attributes.contains u ↔ u ≠ t ∧ h.attributes.contains u := FinMap.contains_erase

theorem edge_forget : (h.forget t).Edge a b ↔ a ≠ t ∧ h.Edge a b := by
  rw [forget, Edge, childrenOf, FinMap.getD, FinMap.get?_erase, Edge, childrenOf, FinMap.getD]
  by_cases ha : a = t <;> simp [ha]

theorem mem_parentsOf_forget : a ∈ (h.forget t).parentsOf b ↔ b ≠ t ∧ a ∈ h.parentsOf b := by
  rw [forget, parentsOf, FinMap.getD, FinMap.get?_erase, parentsOf, FinMap.getD]
  by_cases hb : b = t <;> simp [hb]

/-! ## What keeps the maps mirrored -/

namespace Mirrored

theorem insertNode (hm : h.Mirrored) (t : Ty) : (h.insertNode t).Mirrored where
  contains_children_iff u := by
    rw [hasType_insertNode, ← hm.contains_children_iff, Hierarchy.insertNode]
    split
    · rename_i ht
      exact ⟨.inr, fun hu ↦ hu.elim (· ▸ (hm.contains_children_iff t).2 ht) id⟩
    · exact FinMap.contains_upsert
  mem_parentsOf_iff a b := by
    rw [mem_parentsOf_insertNode, edge_insertNode, hm.mem_parentsOf_iff]

/-- An edge may be added between members. -/
theorem link (hm : h.Mirrored) (hparent : h.hasType parent) (hchild : h.hasType child) :
    (h.link parent child).Mirrored where
  contains_children_iff t := by
    have hkeys : (h.link parent child).children.contains t ↔ t = parent ∨ h.children.contains t :=
      FinMap.contains_upsert
    rw [hkeys, hm.contains_children_iff, hasType_link]
    constructor
    · rintro (rfl | ht)
      · exact .inr hparent
      · exact .inr ht
    · rintro (rfl | ht)
      · exact .inr hchild
      · exact .inr ht
  mem_parentsOf_iff a b := by
    rw [edge_link, parentsOf_link, ← hm.mem_parentsOf_iff]
    by_cases hb : b = child
    · simp [hb, or_comm]
    · simp [hb]

theorem unlink (hm : h.Mirrored) : (h.unlink parent child).Mirrored where
  contains_children_iff t := by
    have hkeys : (h.unlink parent child).children.contains t = h.children.contains t :=
      FinMap.contains_modify
    rw [hkeys, hm.contains_children_iff, hasType_unlink]
  mem_parentsOf_iff a b := by
    rw [edge_unlink, parentsOf_unlink, ← hm.mem_parentsOf_iff]
    by_cases hb : b = child <;> simp [hb]

/-- A type may be forgotten once it has no edges. -/
theorem forget (hm : h.Mirrored) (habove : ∀ a, ¬ h.Edge a t) (hbelow : ∀ b, ¬ h.Edge t b) :
    (h.forget t).Mirrored where
  contains_children_iff u := by
    rw [hasType_forget, ← hm.contains_children_iff]
    exact FinMap.contains_erase
  mem_parentsOf_iff a b := by
    -- the one map drops the parents of `t`, the other its children; neither has any
    rw [mem_parentsOf_forget, edge_forget, hm.mem_parentsOf_iff]
    refine and_congr_left fun he ↦ ⟨?_, ?_⟩
    · rintro - rfl
      exact hbelow b he
    · rintro - rfl
      exact habove a he

end Mirrored

/-! ## Rewiring -/

/-- `k` is `h` but for the edges, which are between the same members. -/
structure Rewired (h k : Hierarchy) : Prop where
  root_eq : k.root = h.root
  attributes_eq : k.attributes = h.attributes
  ownAttributes_eq : k.ownAttributes = h.ownAttributes
  generation_eq : k.generation = h.generation
  hasType_eq : ∀ t, k.hasType t = h.hasType t
  mirrored : h.Mirrored → k.Mirrored

namespace Rewired

@[refl] theorem refl (h : Hierarchy) : Rewired h h := ⟨rfl, rfl, rfl, rfl, fun _ ↦ rfl, id⟩

/-- An edge is added between members. -/
theorem link (hk : Rewired h k) (hparent : h.hasType parent) (hchild : h.hasType child) :
    Rewired h (k.link parent child) where
  root_eq := hk.root_eq
  attributes_eq := hk.attributes_eq
  ownAttributes_eq := hk.ownAttributes_eq
  generation_eq := hk.generation_eq
  hasType_eq t := by
    rw [Bool.eq_iff_iff, hasType_link, hk.hasType_eq]
    exact or_iff_right_of_imp fun ht ↦ ht ▸ hchild
  mirrored hm := by
    refine (hk.mirrored hm).link ?_ ?_
    · rwa [hk.hasType_eq]
    · rwa [hk.hasType_eq]

/-- An edge is removed. -/
theorem unlink (hk : Rewired h k) : Rewired h (k.unlink parent child) where
  root_eq := hk.root_eq
  attributes_eq := hk.attributes_eq
  ownAttributes_eq := hk.ownAttributes_eq
  generation_eq := hk.generation_eq
  hasType_eq t := hasType_unlink.trans (hk.hasType_eq t)
  mirrored hm := (hk.mirrored hm).unlink

/-- A sequence of rewirings is a rewiring. -/
theorem foldl {α : Type} {f : Hierarchy → α → Hierarchy} {xs : List α} (hk : Rewired h k)
    (hf : ∀ k, Rewired h k → ∀ x ∈ xs, Rewired h (f k x)) : Rewired h (xs.foldl f k) := by
  induction xs generalizing k with
  | nil => exact hk
  | cons x rest ih =>
    have hnext : Rewired h (f k x) := hf k hk x List.mem_cons_self
    exact ih hnext fun k hk y hy ↦ hf k hk y (List.mem_cons_of_mem x hy)

theorem linkAll {parents : FinSet Ty} (hk : Rewired h k) (hparents : ∀ p ∈ parents, h.hasType p)
    (hchild : h.hasType child) : Rewired h (k.linkAll parents child) :=
  hk.foldl fun _ hk p hp ↦ hk.link (hparents p (FinSet.mem_toList.1 hp)) hchild

theorem unlinkAll {parents : FinSet Ty} (hk : Rewired h k) :
    Rewired h (k.unlinkAll parents child) :=
  hk.foldl fun _ hk _ _ ↦ hk.unlink

end Rewired

/-- What a sequence of changes does to the edges, if each puts edges in that none takes away. -/
theorem edge_foldl {α : Type} {f : Hierarchy → α → Hierarchy} {cut put : α → Ty → Ty → Prop}
    (hf : ∀ k x a b, (f k x).Edge a b ↔ k.Edge a b ∧ ¬ cut x a b ∨ put x a b)
    (hput : ∀ x y a b, put x a b → ¬ cut y a b) {xs : List α} :
    (xs.foldl f h).Edge a b ↔ h.Edge a b ∧ (∀ x ∈ xs, ¬ cut x a b) ∨ ∃ x ∈ xs, put x a b := by
  induction xs generalizing h with
  | nil => simp
  | cons x rest ih =>
    simp only [List.foldl_cons, ih, hf, List.mem_cons, forall_eq_or_imp, exists_eq_or_imp]
    -- what `x` puts in is left alone by the rest, as nothing cuts what is ever put in
    constructor
    · rintro (⟨⟨he, hx⟩ | he, hrest⟩ | hlater)
      · exact .inl ⟨he, hx, hrest⟩
      · exact .inr (.inl he)
      · exact .inr (.inr hlater)
    · rintro (⟨he, hx, hrest⟩ | he | hlater)
      · exact .inl ⟨.inl ⟨he, hx⟩, hrest⟩
      · exact .inl ⟨.inr he, fun y _ ↦ hput x y a b he⟩
      · exact .inr hlater

private theorem exists_mem_toList {parents : FinSet Ty} :
    (∃ p ∈ parents.toList, a = p ∧ b = child) ↔ a ∈ parents ∧ b = child := by
  constructor
  · rintro ⟨p, hp, rfl, hb⟩
    exact ⟨FinSet.mem_toList.1 hp, hb⟩
  · rintro ⟨ha, hb⟩
    exact ⟨a, FinSet.mem_toList.2 ha, rfl, hb⟩

theorem edge_linkAll {parents : FinSet Ty} :
    (h.linkAll parents child).Edge a b ↔ h.Edge a b ∨ a ∈ parents ∧ b = child := by
  have hstep : ∀ (k : Hierarchy) p a b, (k.link p child).Edge a b ↔
      k.Edge a b ∧ ¬ False ∨ a = p ∧ b = child := by
    intro k p a b
    rw [edge_link, not_false_eq_true, and_true]
  rw [linkAll, edge_foldl hstep fun _ _ _ _ _ ↦ id, exists_mem_toList]
  exact or_congr_left (and_iff_left fun _ _ ↦ id)

theorem edge_unlinkAll {parents : FinSet Ty} :
    (h.unlinkAll parents child).Edge a b ↔ h.Edge a b ∧ ¬ (a ∈ parents ∧ b = child) := by
  have hstep : ∀ (k : Hierarchy) p a b, (k.unlink p child).Edge a b ↔
      k.Edge a b ∧ ¬ (a = p ∧ b = child) ∨ False := by
    intro k p a b
    rw [edge_unlink, or_false]
  rw [unlinkAll, edge_foldl hstep fun _ _ _ _ ↦ False.elim, ← exists_mem_toList]
  simp only [not_exists, not_and, and_false, exists_false, or_false]

/-! ## Fields that stay -/

@[simp] theorem root_insertNode : (h.insertNode t).root = h.root := by
  rw [insertNode]
  split <;> rfl

@[simp] theorem attributes_insertNode : (h.insertNode t).attributes = h.attributes := by
  rw [insertNode]
  split <;> rfl

@[simp] theorem ownAttributes_insertNode : (h.insertNode t).ownAttributes = h.ownAttributes := by
  rw [insertNode]
  split <;> rfl

@[simp] theorem generation_insertNode : (h.insertNode t).generation = h.generation := by
  rw [insertNode]
  split <;> rfl

/-- What each change of a sequence keeps, the sequence keeps. -/
theorem foldl_frame {α β : Type} {π : Hierarchy → β} {f : Hierarchy → α → Hierarchy} (xs : List α)
    (hf : ∀ k x, π (f k x) = π k) : π (xs.foldl f h) = π h := by
  induction xs generalizing h with
  | nil => rfl
  | cons x rest ih => exact ih.trans (hf h x)

@[simp] theorem root_linkAll {parents : FinSet Ty} : (h.linkAll parents child).root = h.root :=
  foldl_frame _ fun _ _ ↦ rfl

@[simp] theorem attributes_linkAll {parents : FinSet Ty} :
    (h.linkAll parents child).attributes = h.attributes := foldl_frame _ fun _ _ ↦ rfl

@[simp] theorem ownAttributes_linkAll {parents : FinSet Ty} :
    (h.linkAll parents child).ownAttributes = h.ownAttributes := foldl_frame _ fun _ _ ↦ rfl

@[simp] theorem generation_linkAll {parents : FinSet Ty} :
    (h.linkAll parents child).generation = h.generation := foldl_frame _ fun _ _ ↦ rfl

@[simp] theorem generation_unlinkAll {parents : FinSet Ty} :
    (h.unlinkAll parents child).generation = h.generation := foldl_frame _ fun _ _ ↦ rfl

@[simp] theorem edge_advance : h.advance.Edge a b ↔ h.Edge a b := Iff.rfl

@[simp] theorem hasType_advance : h.advance.hasType t = h.hasType t := rfl

@[simp] theorem root_advance : h.advance.root = h.root := rfl

@[simp] theorem attributes_advance : h.advance.attributes = h.attributes := rfl

@[simp] theorem ownAttributes_advance : h.advance.ownAttributes = h.ownAttributes := rfl

theorem Mirrored.advance (hm : h.Mirrored) : h.advance.Mirrored :=
  ⟨hm.contains_children_iff, hm.mem_parentsOf_iff⟩

end Taxonomy.Hierarchy
