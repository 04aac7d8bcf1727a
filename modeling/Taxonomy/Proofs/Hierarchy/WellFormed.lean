import Mathlib.Logic.Relation
import Taxonomy.Proofs.Hierarchy.Edges

/-!
# Well-formed hierarchies

A hierarchy is well-formed if its maps are mirrored, its members are named, the root is a member
without parents from which a path leads to every member, no type is its own parent, and only members
are annotated. Cycles below the root are allowed.

Edits are shown to keep this in modules of their own. What they share is here: the few facts that
have to be checked when edges are rearranged (`WellFormed.of_rewired`), when a type without children
is put in (`WellFormed.of_leaf`) and when nothing but annotations and the generation changes
(`WellFormed.of_sameStructure`).

## Cutting paths

Whenever an edit takes away the edges into a type `n`, paths that enter `n` break. What is left of
such a path is the part after its last visit to `n`, and `reflTransGen_avoiding` is the statement
that this part, or the whole path, does without edges into `n`. Paths that come to no edge that has
changed stay what they are (`reflTransGen_iff_of_agree`).
-/

open Relation

namespace Taxonomy.Hierarchy

variable {h k : Hierarchy} {a b t u : Ty}

/-- A path that does without edges into `n` leads to `b` from `a`, or else from `n`. -/
theorem reflTransGen_avoiding {r : Ty → Ty → Prop} (n : Ty) (hp : ReflTransGen r a b) :
    ReflTransGen (fun x y ↦ r x y ∧ y ≠ n) a b ∨ ReflTransGen (fun x y ↦ r x y ∧ y ≠ n) n b := by
  induction hp with
  | refl => exact .inl .refl
  | @tail x y _ hxy ih =>
    by_cases hy : y = n
    · -- a later visit to `n`, from which the path begins anew
      subst hy
      exact .inr .refl
    · exact ih.imp (·.tail ⟨hxy, hy⟩) (·.tail ⟨hxy, hy⟩)

/-- Two relations that agree wherever a path leads have the same paths. -/
theorem reflTransGen_iff_of_agree {r r' : Ty → Ty → Prop}
    (hagree : ∀ x y, ReflTransGen r a x → (r x y ↔ r' x y)) :
    ReflTransGen r a b ↔ ReflTransGen r' a b := by
  constructor
  · intro hp
    induction hp with
    | refl => exact .refl
    | tail hax hxy ih => exact ih.tail ((hagree _ _ hax).1 hxy)
  · intro hp
    induction hp with
    | refl => exact .refl
    | tail _ hxy ih => exact ih.tail ((hagree _ _ ih).2 hxy)

theorem transGen_iff_of_agree {r r' : Ty → Ty → Prop}
    (hagree : ∀ x y, ReflTransGen r a x → (r x y ↔ r' x y)) :
    TransGen r a b ↔ TransGen r' a b := by
  rw [TransGen.tail'_iff, TransGen.tail'_iff]
  refine exists_congr fun x ↦ ?_
  rw [← reflTransGen_iff_of_agree hagree]
  exact and_congr_right fun hx ↦ hagree x b hx

/-- What every hierarchy keeps to that has only been edited. -/
structure WellFormed (h : Hierarchy) : Prop where
  mirrored : h.Mirrored
  named : ∀ t, h.hasType t → ∃ name, t = .named name
  hasType_root : h.hasType h.root
  not_edge_root : ∀ a, ¬ h.Edge a h.root
  irrefl : ∀ t, ¬ h.Edge t t
  reached : ∀ t, h.hasType t → ReflTransGen h.Edge h.root t
  annotated : ∀ t, h.attributes.contains t → h.hasType t

namespace WellFormed

/-- A path that ends at the root has not begun elsewhere. -/
theorem eq_root (hw : h.WellFormed) (hp : ReflTransGen h.Edge a h.root) : a = h.root := by
  rcases hp.cases_tail with heq | ⟨b, -, hb⟩
  · exact heq.symm
  · exact absurd hb (hw.not_edge_root b)

/-- Only the root has no parents. -/
theorem exists_edge (hw : h.WellFormed) (ht : h.hasType t) (hne : t ≠ h.root) :
    ∃ p, h.Edge p t := by
  rcases (hw.reached t ht).cases_tail with heq | ⟨p, -, hp⟩
  · exact absurd heq hne
  · exact ⟨p, hp⟩

/-- A hierarchy that has a root alone. -/
theorem of_alone {root : Ty} (hnamed : ∃ name, root = .named name) (own : Attributes)
    (generation : Nat) : (insertNode ⟨root, ∅, ∅, ∅, own, generation⟩ root).WellFormed := by
  have hmem : ∀ t, (insertNode ⟨root, ∅, ∅, ∅, own, generation⟩ root).hasType t ↔ t = root := by
    intro t
    rw [hasType_insertNode]
    exact or_iff_left (by simp [hasType, FinMap.contains])
  have hedge : ∀ a b, ¬ (insertNode ⟨root, ∅, ∅, ∅, own, generation⟩ root).Edge a b := by
    intro a b
    rw [edge_insertNode]
    exact FinSet.not_mem_empty b
  refine ⟨.insertNode ⟨fun _ ↦ Iff.rfl, ?_⟩ root, ?_, ?_, fun a ↦ hedge a _, fun t ↦ hedge t t,
    ?_, ?_⟩
  · intro a b
    exact iff_of_false (FinSet.not_mem_empty a) (FinSet.not_mem_empty b)
  · -- whatever is asked about members is asked about the root
    intro t ht
    rwa [(hmem t).1 ht]
  · rw [hmem, root_insertNode]
  · intro t ht
    rw [(hmem t).1 ht, root_insertNode]
  · intro t ht
    rw [attributes_insertNode] at ht
    simp [FinMap.contains] at ht

/-- Only the structure and what is annotated matter. -/
theorem of_sameStructure (hw : h.WellFormed) (hk : SameStructure h k)
    (hannotated : ∀ t, k.attributes.contains t → h.hasType t) : k.WellFormed := by
  obtain ⟨root, parents, children, attributes, own, generation⟩ := k
  obtain rfl : root = h.root := hk.root_eq
  obtain rfl : parents = h.parents := hk.parents_eq
  obtain rfl : children = h.children := hk.children_eq
  exact ⟨⟨hw.mirrored.contains_children_iff, hw.mirrored.mem_parentsOf_iff⟩, hw.named,
    hw.hasType_root, hw.not_edge_root, hw.irrefl, hw.reached, hannotated⟩

theorem advance (hw : h.WellFormed) : h.advance.WellFormed :=
  hw.of_sameStructure ⟨rfl, rfl, rfl⟩ hw.annotated

/-- Edges may be rearranged as long as none leads to the root or from a type to itself and the
root still leads everywhere. -/
theorem of_rewired (hw : h.WellFormed) (hk : Rewired h k) (hroot : ∀ a, ¬ k.Edge a h.root)
    (hirrefl : ∀ t, ¬ k.Edge t t) (hreached : ∀ t, h.hasType t → ReflTransGen k.Edge h.root t) :
    k.WellFormed where
  mirrored := hk.mirrored hw.mirrored
  named t ht := hw.named t (by rwa [hk.hasType_eq] at ht)
  hasType_root := by rw [hk.root_eq, hk.hasType_eq]; exact hw.hasType_root
  not_edge_root := by rwa [hk.root_eq]
  irrefl := hirrefl
  reached t ht := by rw [hk.root_eq]; exact hreached t (by rwa [hk.hasType_eq] at ht)
  annotated t ht := by rw [hk.hasType_eq]; exact hw.annotated t (by rwa [hk.attributes_eq] at ht)

/-- A named type may be put below members. -/
theorem of_leaf (hw : h.WellFormed) (isParent : Ty → Prop) (hfresh : ¬ h.hasType t)
    (hnamed : ∃ name, t = .named name) (hm : k.Mirrored) (hroot : k.root = h.root)
    (hattributes : k.attributes = h.attributes) (hmem : ∀ u, k.hasType u ↔ u = t ∨ h.hasType u)
    (hedge : ∀ a b, k.Edge a b ↔ h.Edge a b ∨ isParent a ∧ b = t)
    (hparents : ∀ a, isParent a → h.hasType a) (hsome : ∃ a, isParent a) : k.WellFormed where
  mirrored := hm
  named u hu := by
    rcases (hmem u).1 hu with rfl | hu
    · exact hnamed
    · exact hw.named u hu
  hasType_root := by
    rw [hroot, hmem]
    exact .inr hw.hasType_root
  not_edge_root a ha := by
    rw [hroot, hedge] at ha
    rcases ha with ha | ⟨-, rfl⟩
    · exact hw.not_edge_root a ha
    · exact hfresh hw.hasType_root
  irrefl u hu := by
    rcases (hedge u u).1 hu with hu | ⟨hu, rfl⟩
    · exact hw.irrefl u hu
    · exact hfresh (hparents _ hu)
  reached u hu := by
    have hold : ∀ v, h.hasType v → ReflTransGen k.Edge h.root v := fun v hv ↦
      ReflTransGen.mono (fun a b he ↦ (hedge a b).2 (.inl he)) _ _ (hw.reached v hv)
    rw [hroot]
    -- the paths from before are still there, and one of them ends at a parent of the leaf
    rcases (hmem u).1 hu with rfl | hu
    · obtain ⟨a, ha⟩ := hsome
      exact (hold a (hparents a ha)).tail ((hedge a u).2 (.inr ⟨ha, rfl⟩))
    · exact hold u hu
  annotated u hu := by
    rw [hattributes] at hu
    exact (hmem u).2 (.inr (hw.annotated u hu))

end WellFormed

end Taxonomy.Hierarchy
